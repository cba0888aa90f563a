import Mathlib.Data.List.Induction
import Mathlib.Tactic.Linarith
import Toocal.Tree.Replay

/-!
# Runs that only put

Where every item is small against the gap between the two thresholds, an over-populated
node has a split index (`exists_splitIndex`), so a run of puts on distinct keys always ends.

It keeps all its items exactly if no put meets two over-populated neighbours on its path:
`insertOnly_iff`.
-/

namespace Toocal

open Outcomes Multiway Multiway.Tree Collection

/-! ## Small items -/

section Sizes

variable {o : Options} {its : List Item}

theorem splitSafe_of_small {π : Type} {fs : List (Frame π Item)} (hmin : 3 ≤ o.minThreshold)
    (hmax : 11 ≤ o.maxThreshold)
    (hsmall : ∀ l ∈ pathItems fs its, ∀ a ∈ l, a.Short ∧ a.Small o) :
    SplitSafe Capacity.unlimited o fs its ∧ (o.isOverPopulated (topItems fs its) →
      (middleItem o (topItems fs its)).isSome) := by
  have hmiddle : ∀ l ∈ pathItems fs its, o.isOverPopulated l → ∃ m, middleItem o l = some m := by
    intro l hl hover
    obtain ⟨i, hi⟩ := exists_splitIndex hmin hmax (fun a ha => (hsmall l hl a ha).1)
      (fun a ha => (hsmall l hl a ha).2) hover
    obtain ⟨m, hm, -⟩ := exists_middleItem hi
    exact ⟨m, hm⟩
  have htop : ∀ fs : List (Frame π Item), topItems fs its ∈ pathItems fs its := fun fs => by
    rw [pathItems_eq_cons]
    exact List.mem_cons_self
  refine ⟨?_, fun hover => Option.isSome_iff_exists.mpr (hmiddle _ (htop fs) hover)⟩
  clear hsmall
  induction fs with
  | nil => trivial
  | cons f fs ih =>
    refine ⟨ih fun l hl => hmiddle l (List.mem_cons_of_mem _ hl), fun hover => ?_⟩
    obtain ⟨m, hm⟩ := hmiddle _ (List.mem_cons_of_mem _ (htop fs)) hover
    exact ⟨m, hm, rfl⟩

theorem putSafe_of_small {t : Outline} {h : Nat} {item : Item} (hmin : 3 ≤ o.minThreshold)
    (hu : Uniform h t) (hitem : item.Short ∧ item.Small o)
    (hsmall : ∀ a ∈ t.inorder, a.Short ∧ a.Small o)
    (hf : itemOf item.key t.inorder = none) (hs : Sorted KeyLt Item.key t.inorder) :
    PutSafe Capacity.unlimited o item t := by
  intro x hx
  obtain ⟨y, hy, hpath⟩ := exists_path item.key hu.regular
  obtain rfl := Option.some.inj (hx.symm.trans hy)
  have hfound : x.found = false := by
    rw [← Bool.not_eq_true, found_iff hpath hs]
    exact fun hne => hne hf
  have hmax : 11 ≤ o.maxThreshold := by
    have h0 : (0 : ℚ) ≤ (item.size : ℚ) := by exact_mod_cast Nat.zero_le _
    have hsmall : (item.size : ℚ) ≤ o.maxThreshold - o.minThreshold - 8 := hitem.2
    linarith
  refine ⟨rfl, splitSafe_of_small hmin hmax ?_⟩
  have hframes : ∀ f ∈ x.frames, ∀ a ∈ f.items, a.Short ∧ a.Small o := fun f hf a ha =>
    hsmall a (hpath.eq ▸ items_subset_inorder hf x.focus ha)
  have hfocus : ∀ a ∈ insertAt x.focus.items x.index item, a.Short ∧ a.Small o := by
    intro a ha
    have hmem : a = item ∨ a ∈ x.focus.items := by
      rcases List.mem_append.mp ha with ha | ha
      · exact Or.inr (List.mem_of_mem_take ha)
      · exact (List.mem_cons.mp ha).imp_right List.mem_of_mem_drop
    rcases hmem with rfl | hmem
    · exact hitem
    · refine hsmall a ?_
      rw [hpath.inorder, inorder_of_children_nil (hpath.leaf hfound)]
      simp [hmem]
  generalize insertAt x.focus.items x.index item = its at hfocus
  generalize x.frames = fs at hframes
  induction fs with
  | nil => simpa [pathItems] using hfocus
  | cons f fs ih =>
    intro l hl
    rcases List.mem_cons.mp hl with rfl | hl
    · exact hframes f List.mem_cons_self
    · exact ih (fun g hg => hframes g (List.mem_cons_of_mem f hg)) l hl

end Sizes

/-! ## The run -/

/-- The calls of a run of puts; the second component is what the slot past the last item
holds at that call. -/
def putOps (puts : List (Item × Item)) : List Op := puts.map fun p => .put p.1.key p.1.value p.2

/-- The run itself. -/
def putAll {φ : Type} [PageStore φ] : List (Item × Item) → Prog Error (Collection φ) Unit :=
  Prog.forEach fun p => put p.2 p.1.key p.1.value

/-- Every put of the run is calm on the tree that the puts before it have made. -/
def AllCalm (o : Options) (puts : List (Item × Item)) : Prop :=
  ∀ earlier p later, puts = earlier ++ p :: later →
    (Op.put p.1.key p.1.value p.2).Calm o (outlineAfter o (putOps earlier))

theorem allCalm_iff {o : Options} {puts : List (Item × Item)} : AllCalm o puts ↔
    ∀ i < puts.length, ∀ p ∈ puts[i]?,
      (Op.put p.1.key p.1.value p.2).Calm o (outlineAfter o (putOps (puts.take i))) := by
  constructor
  · intro h i hi p hp
    obtain ⟨-, rfl⟩ := List.getElem?_eq_some_iff.mp hp
    exact h (puts.take i) puts[i] (puts.drop (i + 1)) (by simp)
  · rintro h earlier p later rfl
    have hcalm := h earlier.length (by simp) p (by simp)
    rwa [List.take_left] at hcalm

instance (o : Options) (puts : List (Item × Item)) : Decidable (AllCalm o puts) :=
  decidable_of_iff _ allCalm_iff.symm

/-- `find` answers every key of `items` with its item, and every other key with nothing. -/
structure HoldsExactly {φ : Type} [PageStore φ] (c : Collection φ) (items : List Item) : Prop where
  put : ∀ a ∈ items, (find a.key c).answer = .ok (some a)
  other : ∀ key, (∀ a ∈ items, a.key ≠ key) → (find key c).answer = .ok none

theorem allCalm_nil (o : Options) : AllCalm o [] := fun earlier p later he => by
  simp at he

theorem allCalm_snoc {o : Options} {puts : List (Item × Item)} {p : Item × Item} :
    AllCalm o (puts ++ [p]) ↔ AllCalm o puts ∧
      (Op.put p.1.key p.1.value p.2).Calm o (outlineAfter o (putOps puts)) := by
  constructor
  · intro h
    exact ⟨fun earlier q later he => h earlier q (later ++ [p]) (by rw [he]; simp),
      h puts p [] rfl⟩
  · rintro ⟨h, hp⟩ earlier q later he
    rcases List.eq_nil_or_concat' later with rfl | ⟨later', r, rfl⟩
    · obtain ⟨rfl, hq⟩ := List.append_inj' he rfl
      obtain rfl : p = q := by simpa using hq
      exact hp
    · have he' : puts ++ [p] = (earlier ++ q :: later') ++ [r] := by rw [he]; simp
      exact h earlier q later' (List.append_inj' he' rfl).1

section Run

variable {o : Options} {F : Set Nat} {c c' : Collection (Shelf Capacity.unlimited)}
  {t : Option PTree} {puts : List (Item × Item)} {p : Item × Item}

/-- What holds after the puts of a run: the tree is the one they make, it has no item that
was not put, and it has all of them exactly if all puts were calm. -/
structure AfterPuts (o : Options) (F : Set Nat) (puts : List (Item × Item))
    (c : Collection (Shelf Capacity.unlimited)) (t : Option PTree) : Prop where
  stands : c.Stands F t
  wellFormed : WellFormed t
  options : c.dal.options = o
  outline : t.map Tree.erase = outlineAfter o (putOps puts)
  subset : contents t ⊆ puts.map Prod.fst
  keeps_iff : puts.map Prod.fst ⊆ contents t ↔ AllCalm o puts

/-- A list that loses nothing but what `l` loses has all names exactly if it is all of `l`. -/
theorem subset_concat_iff_of_sublist {α : Type} {old new l names : List α} {p : α}
    (hmem : ∀ a, a ∈ l ↔ a ∈ old ∨ a = p) (hsub : new.Sublist l) (hnodup : l.Nodup)
    (hold : old ⊆ names) (hp : p ∉ names) :
    names ++ [p] ⊆ new ↔ names ⊆ old ∧ new = l := by
  constructor
  · intro hall
    constructor
    · intro a ha
      rcases (hmem a).mp (hsub.subset (hall (List.mem_append_left _ ha))) with h | rfl
      · exact h
      · exact absurd ha hp
    · refine hsub.eq_of_length_le (List.subperm_of_subset hnodup fun a ha => ?_).length_le
      rcases (hmem a).mp ha with ha | rfl
      · exact hall (List.mem_append_left _ (hold ha))
      · exact hall (List.mem_append_right _ (List.mem_singleton.mpr rfl))
  · rintro ⟨hnames, rfl⟩ a ha
    rw [hmem]
    rcases List.mem_append.mp ha with ha | ha
    · exact Or.inl (hnames ha)
    · exact Or.inr (List.mem_singleton.mp ha)

theorem AfterPuts.absent (h : AfterPuts o F puts c t) (hfresh : ∀ q ∈ puts, q.1.key ≠ p.1.key) :
    valueAt (t.map Tree.erase) p.1.key = none := by
  rw [valueAt_erase]
  refine itemOf_eq_none.mpr fun a ha => ?_
  obtain ⟨q, hq, rfl⟩ : ∃ q ∈ puts, q.1 = a := by simpa using h.subset ha
  exact hfresh q hq

theorem AfterPuts.safe (h : AfterPuts o F puts c t) (hmin : 3 ≤ o.minThreshold)
    (hsmall : ∀ q ∈ puts ++ [p], q.1.Short ∧ q.1.Small o) (hfresh : ∀ q ∈ puts, q.1.key ≠ p.1.key) :
    (Op.put p.1.key p.1.value p.2).Safe Capacity.unlimited o (t.map Tree.erase) := by
  have hw : WellFormed (t.map Tree.erase) := wellFormed_erase.mpr h.wellFormed
  have hd := h.absent hfresh
  have hitems := h.subset
  cases t with
  | none => rfl
  | some u =>
    obtain ⟨⟨k, hu⟩, hs⟩ := wellFormed_some.mp hw
    refine putSafe_of_small hmin hu (hsmall p (by simp)) (fun a ha => ?_) hd hs
    rw [inorder_erase] at ha
    obtain ⟨q, hq, rfl⟩ : ∃ q ∈ puts, q.1 = a := by simpa using hitems ha
    exact hsmall q (List.mem_append_left _ hq)

/-- **One put more.** -/
theorem AfterPuts.step (h : AfterPuts o F puts c t) (hmin : 3 ≤ o.minThreshold)
    (hsmall : ∀ q ∈ puts ++ [p], q.1.Short ∧ q.1.Small o) (hfresh : ∀ q ∈ puts, q.1.key ≠ p.1.key) :
    ∃ c' t', put p.2 p.1.key p.1.value c = .ok () c' ∧ AfterPuts o F (puts ++ [p]) c' t' := by
  set op : Op := .put p.1.key p.1.value p.2 with hop
  have hw : WellFormed (t.map Tree.erase) := wellFormed_erase.mpr h.wellFormed
  have hd := h.absent hfresh
  have hsafe : op.Safe Capacity.unlimited o (t.map Tree.erase) := h.safe hmin hsmall hfresh
  have hn : op.Numbers Capacity.unlimited c.dal.freelist.maxPage t := by
    cases t with
    | none => rfl
    | some u => exact fun _ _ => rfl
  have hf : op.Fresh t := (valueAt_erase t _).symm.trans hd
  obtain ⟨c', t', hends, hs', he, -, hk, -⟩ :=
    Op.run_ok h.stands h.wellFormed hf (by rw [h.options]; exact hsafe) hn
  rw [h.options] at he
  obtain ⟨-, l₁, l₂, hin, hsorted, hsub, hcalm⟩ := contents_put hw hd hsafe
  rw [contents_erase] at hin
  have hin' : contents t' = contents (op.outline o (t.map Tree.erase)) := by
    rw [← contents_erase, he]
  rw [← hop, ← hin'] at hsub hcalm
  have hmem : ∀ a, a ∈ l₁ ++ (⟨p.1.key, p.1.value⟩ : Item) :: l₂ ↔ a ∈ contents t ∨ a = p.1 := by
    intro a
    rw [hin]
    simp only [List.mem_append, List.mem_cons]
    tauto
  refine ⟨c', t', hends, hs', h.wellFormed.next hf hsafe he, hk.options.trans h.options, ?_, ?_, ?_⟩
  · rw [he, h.outline, putOps, putOps, List.map_append, List.map_singleton, outlineAfter_snoc]
  · intro a ha
    rw [List.map_append, List.map_singleton]
    rcases (hmem a).mp (hsub.subset ha) with ha | rfl
    · exact List.mem_append_left _ (h.subset ha)
    · exact List.mem_append_right _ (List.mem_singleton.mpr rfl)
  · have hnew : p.1 ∉ puts.map Prod.fst := by
      intro hm
      obtain ⟨q, hq, he⟩ := List.mem_map.mp hm
      exact hfresh q hq (congrArg Item.key he)
    rw [allCalm_snoc, ← h.outline, ← h.keeps_iff, ← hop, hcalm, List.map_append, List.map_singleton]
    exact subset_concat_iff_of_sublist hmem hsub hsorted.nodup h.subset hnew

/-- **The whole run**: by induction on its length, with one put as the step. -/
theorem exists_afterPuts (hmin : 3 ≤ o.minThreshold) (ho : c.dal.options = o) (hroot : c.root = 0)
    (hfree : Layout c.dal.freelist F []) (hkeys : (puts.map fun p => p.1.key).Nodup)
    (hsmall : ∀ p ∈ puts, p.1.Short ∧ p.1.Small o) :
    ∃ c' t, putAll puts c = .ok () c' ∧ AfterPuts o F puts c' t := by
  induction puts using List.reverseRecOn with
  | nil =>
    refine ⟨c, none, rfl, stands_none.mpr ⟨hfree, hroot⟩, wellFormed_none, ho, rfl, by simp, ?_⟩
    exact iff_of_true (by simp) (allCalm_nil o)
  | append_singleton puts p ih =>
    rw [List.map_append, List.map_singleton, List.nodup_append] at hkeys
    obtain ⟨hkeys', -, hdisj⟩ := hkeys
    obtain ⟨c₁, t₁, hrun₁, h₁⟩ := ih hkeys' fun q hq => hsmall q (List.mem_append_left _ hq)
    obtain ⟨c₂, t₂, hrun₂, h₂⟩ := h₁.step hmin hsmall fun q hq =>
      hdisj _ (List.mem_map_of_mem hq) _ (List.mem_singleton.mpr rfl)
    refine ⟨c₂, t₂, ?_, h₂⟩
    rw [putAll, Prog.forEach_append]
    exact (Prog.bind_ok hrun₁).trans (Prog.bind_ok hrun₂)

/-- `find` tells which of the items are still there. -/
theorem AfterPuts.holdsExactly_iff (h : AfterPuts o F puts c t) (hne : puts ≠ []) :
    HoldsExactly c (puts.map Prod.fst) ↔ AllCalm o puts := by
  rw [← h.keeps_iff]
  cases t with
  | none =>
    obtain ⟨init, p, rfl⟩ := (List.eq_nil_or_concat' puts).resolve_left hne
    have := h.outline
    rw [putOps, List.map_append, List.map_singleton, outlineAfter_snoc] at this
    generalize outlineAfter o _ = u at this
    cases u <;> cases this
  | some u =>
    have hfind : ∀ key, (find key c).answer = .ok (valueAt (some u) key) := fun key => by
      rw [h.stands.serves.find h.wellFormed]; rfl
    constructor
    · intro hc a ha
      have := hc.put a ha
      rw [hfind, Except.ok.injEq] at this
      exact List.mem_of_find?_eq_some this
    · intro hall
      refine ⟨fun a ha => ?_, fun key hkey => ?_⟩
      · rw [hfind, Except.ok.injEq]
        exact (itemOf_eq_some h.wellFormed.sorted).mpr ⟨hall ha, rfl⟩
      · rw [hfind, Except.ok.injEq]
        exact itemOf_eq_none.mpr fun a ha => hkey a (h.subset ha)

/-- **A run of puts keeps exactly its items if and only if all its puts are calm.** -/
theorem insertOnly_iff (hmin : 3 ≤ o.minThreshold) (ho : c.dal.options = o) (hroot : c.root = 0)
    (hfree : Layout c.dal.freelist F []) (hne : puts ≠ [])
    (hkeys : (puts.map fun p => p.1.key).Nodup) (hsmall : ∀ p ∈ puts, p.1.Short ∧ p.1.Small o) :
    ∃ c', putAll puts c = .ok () c' ∧
      (HoldsExactly c' (puts.map Prod.fst) ↔ AllCalm o puts) := by
  obtain ⟨c', t, hrun, h⟩ := exists_afterPuts hmin ho hroot hfree hkeys hsmall
  exact ⟨c', hrun, h.holdsExactly_iff hne⟩

end Run

/-- Eight puts, which make a tree of three levels. -/
def calmPuts : List (Item × Item) :=
  [10, 20, 30, 35, 40, 50, 15, 17].map fun k => (⟨[k], [k]⟩, ⟨[], []⟩)

/-- Two of them split the root, and none splits a node and its parent. -/
theorem insertOnly_calmPuts : ∃ c' : Collection (Shelf Capacity.unlimited),
    putAll calmPuts ⟨Dal.begun thinNodes, [], 0⟩ = .ok () c' ∧
    HoldsExactly c' (calmPuts.map Prod.fst) := by
  have hkeys : (calmPuts.map fun p => p.1.key).Nodup := by decide
  obtain ⟨c', hrun, hiff⟩ := insertOnly_iff (o := thinNodes) (F := firstPages)
    (c := ⟨Dal.begun thinNodes, [], 0⟩) (by decide +kernel) rfl rfl layout_begun (by decide) hkeys
    (by decide +kernel)
  exact ⟨c', hrun, hiff.mpr (by decide +kernel)⟩

/-- Five puts; the last one overflows a leaf under a root that is over-populated already. -/
def fivePuts : List (Item × Item) :=
  [10, 20, 30, 35, 33].map fun k => (⟨[k], [k]⟩, ⟨[], []⟩)

/-- **A put that splits a leaf and its parent loses its own item.** -/
theorem doubleOverflow_loses : 3 ≤ thinNodes.minThreshold ∧
    thinNodes.minThreshold < thinNodes.maxThreshold ∧
    (fivePuts.map fun p => p.1.key).Nodup ∧
    (∀ p ∈ fivePuts, p.1.Short ∧ p.1.Small thinNodes) ∧
    ∃ c' : Collection (Shelf Capacity.unlimited),
      putAll fivePuts ⟨Dal.begun thinNodes, [], 0⟩ = .ok () c' ∧
      ¬HoldsExactly c' (fivePuts.map Prod.fst) := by
  have hrun : ∃ r ∈ (putAll fivePuts
      (⟨Dal.begun thinNodes, [], 0⟩ : Collection (Shelf Capacity.unlimited))).result?,
      (find [33] r.2).answer = .ok none := by decide +kernel
  obtain ⟨⟨⟨⟩, c'⟩, hc', hlost⟩ := hrun
  refine ⟨by decide +kernel, by decide +kernel, by decide, by decide +kernel, c',
    Outcome.eq_ok_of_result? hc', fun h => ?_⟩
  have hfind := h.put ⟨[33], [33]⟩ (by decide)
  rw [hlost] at hfind
  cases hfind

end Toocal
