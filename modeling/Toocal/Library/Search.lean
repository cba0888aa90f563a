import Mathlib.Order.RelClasses
import Toocal.Library.Multiway

/-!
# Searching a multiway tree

`locate p t` descends from the root of `t`, choosing at each node the child `p`
names, until `p` reports a hit or a leaf is reached.  The result is a `Path`: the
frames passed, the node the search stopped at, and what `p` said there.

`Scans` is what a node search has to do on a sorted item list.  With it, on a tree
whose in-order sequence is sorted, everything before the place the search stops at
is below the key and everything after it is above (`IsPath.separates`): the search is
complete (`IsPath.not_mem`), and an item put in at that place keeps the sequence sorted
(`IsPath.sorted_insert`).
-/

namespace Multiway

open Multiway.Tree

variable {π α κ : Type}

/-- Where a search stopped. -/
structure Path (π α : Type) where
  /-- the nodes passed, outermost first -/
  frames : List (Frame π α)
  focus : Tree π α
  index : Nat
  found : Bool

def Path.erase (x : Path π α) : Path Unit α :=
  ⟨x.frames.map Frame.erase, x.focus.erase, x.index, x.found⟩

/-- Put a frame on the outside of a path. -/
def Path.under (f : Frame π α) (x : Path π α) : Path π α := { x with frames := f :: x.frames }

section Locate

variable (p : List α → Bool × Nat)

mutual
/-- Descend along the children `p` names. -/
def locate : Tree π α → Option (Path π α)
  | .node q its cs =>
    match p its, cs.isEmpty with
    | (true, i), _ => some ⟨[], .node q its cs, i, true⟩
    | (false, i), true => some ⟨[], .node q its cs, i, false⟩
    | (false, i), false => (locateAt i cs).map (Path.under (Frame.ofNode q its cs i))
def locateAt : Nat → List (Tree π α) → Option (Path π α)
  | _, [] => none
  | 0, c :: _ => locate c
  | i + 1, _ :: cs => locateAt i cs
end

variable {p}

theorem locateAt_eq (i : Nat) (cs : List (Tree π α)) : locateAt p i cs = cs[i]?.bind (locate p) := by
  induction cs generalizing i with
  | nil => cases i <;> rfl
  | cons c cs ih =>
    cases i with
    | zero => rfl
    | succ i => rw [locateAt, ih]; rfl

theorem locate_hit {q : π} {its : List α} {cs : List (Tree π α)} {i : Nat} (h : p its = (true, i)) :
    locate p (.node q its cs) = some ⟨[], .node q its cs, i, true⟩ := by rw [locate, h]

theorem locate_leaf {q : π} {its : List α} {i : Nat} (h : p its = (false, i)) :
    locate p (.node q its []) = some ⟨[], .node q its [], i, false⟩ := by
  rw [locate, h]; rfl

theorem locate_down {q : π} {its : List α} {cs : List (Tree π α)} {i : Nat} {c : Tree π α}
    (h : p its = (false, i)) (hc : cs[i]? = some c) : locate p (.node q its cs) =
      (locate p c).map (Path.under (Frame.ofNode q its cs i)) := by
  have hne : cs.isEmpty = false := by
    cases cs with
    | nil => simp at hc
    | cons _ _ => rfl
  rw [locate, h, hne]
  show (locateAt p i cs).map _ = _
  rw [locateAt_eq, hc]; rfl

/-- `x` is the path the node search `p` takes in `t`. -/
structure IsPath (p : List α → Bool × Nat) (t : Tree π α) (x : Path π α) : Prop where
  eq : plugAll x.frames x.focus = t
  down : ∀ f ∈ x.frames, p f.items = (false, f.left.length)
  stop : p x.focus.items = (x.found, x.index)
  leaf : x.found = false → x.focus.children = []

theorem locate_isPath (hp : ∀ its, (p its).2 ≤ its.length) {t : Tree π α} (hr : Regular t) :
    ∃ x, locate p t = some x ∧ IsPath p t x := by
  induction t using Tree.ind with
  | h q its cs ih =>
    rcases hpi : p its with ⟨b, i⟩
    cases b with
    | true => exact ⟨_, locate_hit hpi, rfl, by simp, hpi, by simp⟩
    | false =>
      by_cases hcs : cs = []
      · subst hcs
        exact ⟨_, locate_leaf hpi, rfl, by simp, hpi, by simp⟩
      · obtain ⟨d, hd⟩ := List.exists_mem_of_ne_nil cs hcs
        have hl : cs.length = its.length + 1 := hr.length_children hd
        have hi : i ≤ its.length := by have := hp its; rwa [hpi] at this
        have hc : cs[i]? = some cs[i] := List.getElem?_eq_getElem (by omega)
        have hmem : cs[i] ∈ cs := List.mem_of_getElem? hc
        obtain ⟨x, hx, hpath⟩ := ih _ hmem (hr.child hmem)
        refine ⟨Path.under (Frame.ofNode q its cs i) x, by rw [locate_down hpi hc, hx]; rfl,
          ?_, ?_, hpath.stop, hpath.leaf⟩
        · show (Frame.ofNode q its cs i).plug (plugAll x.frames x.focus) = _
          rw [hpath.eq, Frame.plug_ofNode hl hc]
        · intro f hf
          rcases List.mem_cons.mp hf with rfl | hf
          · rw [Frame.items_ofNode hl hc, Frame.length_left_ofNode hl hi, hpi]
          · exact hpath.down f hf

theorem locate_erase (t : Tree π α) : locate p t.erase = (locate p t).map Path.erase := by
  induction t using Tree.ind with
  | h q its cs ih =>
    rw [erase_node]
    rcases hpi : p its with ⟨b, i⟩
    cases b with
    | true => rw [locate_hit hpi, locate_hit hpi]; simp [Path.erase]
    | false =>
      cases hcs : cs with
      | nil => rw [List.map_nil, locate_leaf hpi, locate_leaf hpi]; simp [Path.erase]
      | cons d ds =>
        rw [← hcs]
        have hne : cs.isEmpty = false := by rw [hcs]; rfl
        have hne' : (cs.map Tree.erase).isEmpty = false := by rw [hcs]; rfl
        rw [locate, locate, hpi, hne, hne']
        show (locateAt p i _).map _ = ((locateAt p i _).map _).map _
        rw [locateAt_eq, locateAt_eq, List.getElem?_map]
        cases hc : cs[i]? with
        | none => rfl
        | some c =>
          have hcm := ih c (List.mem_of_getElem? hc)
          simp only [Option.map_some, Option.bind_some, hcm, Option.map_map]
          congr 1
          funext x
          simp [Path.under, Path.erase, Frame.erase_ofNode]

end Locate

theorem uniform_of_plugAll {fs : List (Frame π α)} {t : Tree π α} {h : Nat}
    (hu : Uniform h (plugAll fs t)) : ∃ k, h = k + fs.length ∧ Uniform k t := by
  induction fs generalizing h with
  | nil => exact ⟨h, rfl, hu⟩
  | cons f fs ih =>
    obtain ⟨k, rfl, _, hk⟩ := Frame.uniform_of_plug hu
    obtain ⟨m, rfl, hm⟩ := ih hk
    exact ⟨m, by simp; omega, hm⟩

theorem uniform_plugAll {fs : List (Frame π α)} {t u : Tree π α} {h k : Nat}
    (hu : Uniform h (plugAll fs t)) (hk : h = k + fs.length) (hu' : Uniform k u) :
    Uniform h (plugAll fs u) := by
  induction fs generalizing h with
  | nil => simp only [List.length_nil, Nat.add_zero] at hk; exact hk ▸ hu'
  | cons f fs ih =>
    obtain ⟨m, rfl, hs, hm⟩ := Frame.uniform_of_plug hu
    exact Frame.uniform_plug hs (ih hm (by simp at hk; omega))

/-! ## Sorted trees -/

section Sorted

variable (lt : κ → κ → Prop) (key : α → κ)

/-- Strictly increasing keys. -/
def Sorted (l : List α) : Prop := l.Pairwise fun a b => lt (key a) (key b)

instance [DecidableRel lt] (l : List α) : Decidable (Sorted lt key l) :=
  inferInstanceAs (Decidable (l.Pairwise _))

/-- What a search for `k` has to answer on a sorted item list. -/
structure Scans (k : κ) (p : List α → Bool × Nat) : Prop where
  le : ∀ its, (p its).2 ≤ its.length
  hit : ∀ {its i}, p its = (true, i) → ∃ a, its[i]? = some a ∧ key a = k
  miss : ∀ {its i}, Sorted lt key its → p its = (false, i) →
    (∀ a ∈ its.take i, lt (key a) k) ∧ ∀ a ∈ its.drop i, lt k (key a)

variable {lt key}

theorem Sorted.append_iff {l₁ l₂ : List α} : Sorted lt key (l₁ ++ l₂) ↔
    Sorted lt key l₁ ∧ Sorted lt key l₂ ∧ ∀ a ∈ l₁, ∀ b ∈ l₂, lt (key a) (key b) :=
  List.pairwise_append

theorem Sorted.sublist {l₁ l₂ : List α} (h : Sorted lt key l₂) (hs : l₁.Sublist l₂) :
    Sorted lt key l₁ := List.Pairwise.sublist hs h

theorem items_sublist_inorder (t : Tree π α) : t.items.Sublist t.inorder := by
  have hw : ∀ (cs : List (Tree π α)) (its : List α), its.Sublist (weave its cs) := by
    intro cs
    induction cs with
    | nil => intro its; rw [weave_nil]
    | cons c cs ih =>
      intro its
      cases its with
      | nil => exact List.nil_sublist _
      | cons a its =>
        rw [weave_cons]
        exact ((ih its).cons_cons a).trans (List.sublist_append_right _ _)
  cases t with
  | node p its cs => exact hw cs its

variable [IsStrictOrder κ lt]

theorem Sorted.injOn {l : List α} (h : Sorted lt key l) {a b : α} (ha : a ∈ l) (hb : b ∈ l)
    (hab : key a = key b) : a = b := by
  induction l with
  | nil => exact absurd ha (by simp)
  | cons c l ih =>
    obtain ⟨hc, hl⟩ := List.pairwise_cons.mp h
    rcases List.mem_cons.mp ha with hac | hal
    · rcases List.mem_cons.mp hb with hbc | hbl
      · rw [hac, hbc]
      · exact absurd (hc b hbl) (by rw [← hab, hac]; exact irrefl _)
    · rcases List.mem_cons.mp hb with hbc | hbl
      · exact absurd (hc a hal) (by rw [hab, hbc]; exact irrefl _)
      · exact ih hl hal hbl

namespace Frame

theorem before_eq (f : Frame π α) (c : Tree π α) (a : α) (ls) (hl : f.left = (c, a) :: ls) :
    f.before = (ls.reverse.flatMap fun x => inorder x.1 ++ [x.2]) ++ inorder c ++ [a] := by
  simp [before, hl]

theorem before_lt {f : Frame π α} {k : κ} (hs : Sorted lt key f.before)
    (hk : ∀ x ∈ f.left, lt (key x.2) k) : ∀ a ∈ f.before, lt (key a) k := by
  intro b hb
  cases hl : f.left with
  | nil => simp [before, hl] at hb
  | cons x ls =>
    obtain ⟨c, a⟩ := x
    have ha : lt (key a) k := hk (c, a) (by rw [hl]; exact List.mem_cons_self)
    rw [before_eq f c a ls hl] at hs hb
    rcases List.mem_append.mp hb with hb | hb
    · exact IsTrans.trans _ _ _ ((Sorted.append_iff.mp hs).2.2 b hb a (by simp)) ha
    · rw [List.mem_singleton.mp hb]; exact ha

theorem lt_after {f : Frame π α} {k : κ} (hs : Sorted lt key f.after)
    (hk : ∀ x ∈ f.right, lt k (key x.1)) : ∀ a ∈ f.after, lt k (key a) := by
  intro b hb
  cases hr : f.right with
  | nil => simp [after, hr] at hb
  | cons x rs =>
    obtain ⟨a, c⟩ := x
    have ha : lt k (key a) := hk (a, c) (by rw [hr]; exact List.mem_cons_self)
    simp only [after, hr, List.flatMap_cons, List.cons_append] at hs hb
    rcases List.mem_cons.mp hb with rfl | hb
    · exact ha
    · exact IsTrans.trans _ _ _ ha ((List.pairwise_cons.mp hs).1 b hb)

end Frame

section Path

variable {p : List α → Bool × Nat} {k : κ} {t : Tree π α} {x : Path π α}

theorem frame_separates (hp : Scans lt key k p) {f : Frame π α} {u : Tree π α}
    (hf : p f.items = (false, f.left.length)) (hs : Sorted lt key (f.plug u).inorder) :
    (∀ a ∈ f.before, lt (key a) k) ∧ ∀ a ∈ f.after, lt k (key a) := by
  have hits : Sorted lt key f.items := by
    have := hs.sublist (items_sublist_inorder (f.plug u))
    rwa [Frame.items_plug] at this
  obtain ⟨hlt, hgt⟩ := hp.miss hits hf
  have htake : f.items.take f.left.length = (f.left.map Prod.snd).reverse := by
    rw [Frame.items, List.take_left' (by simp)]
  have hdrop : f.items.drop f.left.length = f.right.map Prod.fst := by
    rw [Frame.items, List.drop_left' (by simp)]
  rw [htake] at hlt
  rw [hdrop] at hgt
  rw [Frame.inorder_plug] at hs
  obtain ⟨hba, hafter, _⟩ := Sorted.append_iff.mp hs
  obtain ⟨hbefore, _, _⟩ := Sorted.append_iff.mp hba
  refine ⟨Frame.before_lt hbefore fun y hy => hlt _ ?_, Frame.lt_after hafter fun y hy => hgt _ ?_⟩
  · simpa using ⟨y.1, hy⟩
  · simpa using ⟨y.2, hy⟩

theorem path_separates (hp : Scans lt key k p) {fs : List (Frame π α)} {u : Tree π α}
    (hfs : ∀ f ∈ fs, p f.items = (false, f.left.length))
    (hs : Sorted lt key (plugAll fs u).inorder) :
    (∀ a ∈ beforeAll fs, lt (key a) k) ∧ ∀ a ∈ afterAll fs, lt k (key a) := by
  induction fs with
  | nil => simp [beforeAll, afterAll]
  | cons f fs ih =>
    have hf := frame_separates hp (hfs f List.mem_cons_self) hs
    have hin : Sorted lt key (plugAll fs u).inorder := by
      rw [plugAll_cons, Frame.inorder_plug] at hs
      exact (Sorted.append_iff.mp (Sorted.append_iff.mp hs).1).2.1
    have hfs' := ih (fun g hg => hfs g (List.mem_cons_of_mem f hg)) hin
    refine ⟨fun a ha => ?_, fun a ha => ?_⟩
    · rw [beforeAll, List.flatMap_cons] at ha
      rcases List.mem_append.mp ha with ha | ha
      · exact hf.1 a ha
      · exact hfs'.1 a ha
    · rw [afterAll] at ha
      rcases List.mem_append.mp ha with ha | ha
      · exact hfs'.2 a ha
      · exact hf.2 a ha

theorem IsPath.inorder (hx : IsPath p t x) :
    t.inorder = beforeAll x.frames ++ x.focus.inorder ++ afterAll x.frames := by
  rw [← hx.eq, inorder_plugAll]

/-- **What stands before a stopped search is below the key, what stands after it is
above.** -/
theorem IsPath.separates (hp : Scans lt key k p) (hx : IsPath p t x)
    (hs : Sorted lt key t.inorder) :
    (∀ a ∈ beforeAll x.frames, lt (key a) k) ∧ ∀ a ∈ afterAll x.frames, lt k (key a) := by
  have hs' := hs
  rw [← hx.eq] at hs'
  exact path_separates hp hx.down hs'

omit [IsStrictOrder κ lt] in
theorem IsPath.leaf_separates (hp : Scans lt key k p) (hx : IsPath p t x)
    (hs : Sorted lt key t.inorder) (hf : x.found = false) :
    (∀ a ∈ x.focus.items.take x.index, lt (key a) k) ∧
      ∀ a ∈ x.focus.items.drop x.index, lt k (key a) := by
  have hits : Sorted lt key x.focus.items := by
    rw [hx.inorder] at hs
    exact (Sorted.append_iff.mp (Sorted.append_iff.mp hs).1).2.1.sublist
      (items_sublist_inorder x.focus)
  exact hp.miss hits (by rw [hx.stop, hf])

theorem inorder_of_children_nil {u : Tree π α} (h : u.children = []) : u.inorder = u.items := by
  cases u with
  | node q its cs =>
    obtain rfl : cs = [] := h
    exact inorder_leaf q its

/-- **The search is complete**: a key it does not find is not in the tree. -/
theorem IsPath.not_mem (hp : Scans lt key k p) (hx : IsPath p t x) (hs : Sorted lt key t.inorder)
    (hf : x.found = false) : ∀ a ∈ t.inorder, key a ≠ k := by
  obtain ⟨hb, ha⟩ := hx.separates hp hs
  obtain ⟨hl, hr⟩ := hx.leaf_separates hp hs hf
  intro a hmem he
  rw [hx.inorder, inorder_of_children_nil (hx.leaf hf),
    ← List.take_append_drop x.index x.focus.items] at hmem
  simp only [List.mem_append] at hmem
  rcases hmem with (hm | hm | hm) | hm
  · exact irrefl _ (he ▸ hb a hm)
  · exact irrefl _ (he ▸ hl a hm)
  · exact irrefl _ (he ▸ hr a hm)
  · exact irrefl _ (he ▸ ha a hm)

omit [IsStrictOrder κ lt] in
/-- **The search is sound**: the item it finds has the key and is in the tree. -/
theorem IsPath.mem (hp : Scans lt key k p) (hx : IsPath p t x) (hf : x.found = true) :
    ∃ a, x.focus.items[x.index]? = some a ∧ key a = k ∧ a ∈ t.inorder := by
  obtain ⟨a, ha, hk⟩ := hp.hit (by rw [hx.stop, hf] : p x.focus.items = (true, x.index))
  refine ⟨a, ha, hk, ?_⟩
  rw [hx.inorder]
  have := (items_sublist_inorder x.focus).subset (List.mem_of_getElem? ha)
  simp [this]

/-- **An item put in where the search stopped keeps the sequence sorted.** -/
theorem IsPath.sorted_insert (hp : Scans lt key k p) (hx : IsPath p t x)
    (hs : Sorted lt key t.inorder) (hf : x.found = false) {a : α} (ha : key a = k) :
    Sorted lt key (beforeAll x.frames ++
      (x.focus.items.take x.index ++ a :: x.focus.items.drop x.index) ++ afterAll x.frames) := by
  obtain ⟨hb, hc⟩ := hx.separates hp hs
  obtain ⟨hl, hr⟩ := hx.leaf_separates hp hs hf
  rw [hx.inorder, inorder_of_children_nil (hx.leaf hf),
    ← List.take_append_drop x.index x.focus.items] at hs
  subst ha
  simp only [Sorted, List.append_assoc, List.cons_append, List.pairwise_append,
    List.pairwise_cons, List.mem_append, List.mem_cons] at hs ⊢
  grind

end Path

end Sorted

end Multiway
