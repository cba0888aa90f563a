import Toocal.Library.Heights
import Toocal.Results.PageCosts
import Toocal.Tree.Halves

/-!
# Costs in the number of items

Where both halves of an over-populated node have `μ` items or more, a run of puts keeps
the tree low: its height is at most the logarithm to the base `μ + 1` of the number of its
items, and so is what a call on it costs (`logarithmic_costs`).  For items of ten bytes the
options of `BALANCE` give `μ = 3`.
-/

namespace Toocal

open Outcomes Multiway Multiway.Tree Collection Pages4096

variable {π : Type} {o : Options} {s μ : Nat}

/-! ## Packed trees -/

/-- Items of size `s` at most, `μ` or more in every node below the root. -/
structure Packed (s μ : Nat) (t : Tree π Item) : Prop where
  sizes : SizedUpTo s t.inorder
  below : t.Below (μ ≤ ·.length)
  root : t.items ≠ []

theorem packed_erase {t : Tree π Item} : Packed s μ t.erase ↔ Packed s μ t := by
  have hbelow : t.erase.Below (μ ≤ ·.length) ↔ t.Below (μ ≤ ·.length) := by
    rw [Below, children_erase, List.forall_mem_map]
    exact forall₂_congr fun _ _ => each_erase
  constructor
  · rintro ⟨hsizes, hfull, hroot⟩
    exact ⟨inorder_erase t ▸ hsizes, hbelow.mp hfull, items_erase t ▸ hroot⟩
  · rintro ⟨hsizes, hfull, hroot⟩
    exact ⟨(inorder_erase t).symm ▸ hsizes, hbelow.mpr hfull, (items_erase t).symm ▸ hroot⟩

/-- The call puts an item of size `s` at most. -/
def Op.PutsUpTo (s : Nat) : Op → Prop
  | .put key value _ => (Item.mk key value).size ≤ s
  | .remove _ => False

instance (s : Nat) : ∀ op : Op, Decidable (op.PutsUpTo s)
  | .put _ _ _ => inferInstanceAs (Decidable (_ ≤ s))
  | .remove _ => isFalse id

theorem light_pathItems [System] {pageSize : Nat} {item : Item} {t : Outline} {x : Path Unit Item}
    (hlight : t.Each Light) (hpath : IsPath (findKeyInNode item.key) t x)
    (hroom : (Capacity.page pageSize).room (insertAt x.focus.items x.index item) 0 = true) :
    ∀ l ∈ pathItems x.frames (insertAt x.focus.items x.index item), Light l := by
  intro l hl
  rw [← hpath.eq, each_plugAll] at hlight
  rcases mem_pathItems.mp hl with ⟨f, hf, rfl⟩ | rfl
  · exact (hlight.1 f hf).1
  · exact BufferRoom.light (room_page.mp hroom) defaultPageSize_le

/-- **A put keeps the tree packed.** -/
theorem Op.packed_outline [System] {pageSize : Nat} {t t' : Option Outline} {op : Op}
    (hdiv : o.DividesInto s μ) (hw : WellFormed t) (hfresh : op.Fresh t)
    (hsafe : op.Safe (Capacity.page pageSize) o t) (hlight : ∀ u ∈ t, u.Each Light)
    (hputs : op.PutsUpTo s) (hpacked : ∀ u ∈ t, Packed s μ u) (ht' : t' = op.outline o t) :
    ∀ u ∈ t', Packed s μ u := by
  subst ht'
  cases op with
  | remove key => exact hputs.elim
  | put key value pastEnd =>
    intro u hu
    obtain ⟨-, l₁, l₂, hold, -, hsub, -⟩ := contents_put hw hfresh hsafe
    rw [show (Op.put key value pastEnd).outline o t = some u from hu, contents_some] at hsub
    have hsizes : SizedUpTo s u.inorder := fun a ha => by
      have hmem := hsub.subset ha
      simp only [List.mem_append, List.mem_cons] at hmem
      have hcontents : a = ⟨key, value⟩ ∨ a ∈ contents t := by
        rw [hold, List.mem_append]
        tauto
      rcases hcontents with rfl | hcontents
      · exact hputs
      · cases t with
        | none => cases hcontents
        | some t => exact (hpacked t rfl).sizes a hcontents
    cases t with
    | none =>
      obtain rfl := Option.some.inj hu
      exact ⟨hsizes, below_leaf rfl, List.cons_ne_nil _ _⟩
    | some t =>
      obtain rfl := Option.some.inj hu
      obtain ⟨⟨h, hu⟩, -⟩ := wellFormed_some.mp hw
      obtain ⟨x, hx, hpath⟩ := exists_path (Item.mk key value).key hu.regular
      obtain ⟨hold, hbelow, hroot⟩ := hpacked t rfl
      have hpathlight := light_pathItems (hlight t rfl) hpath (hsafe x hx).1
      obtain ⟨hbelow', hroot'⟩ := below_putOutline hdiv hold hputs hx hpath hroot hpathlight hbelow
      exact ⟨hsizes, hbelow', hroot'⟩

/-! ## Runs of puts -/

section Run

variable {base : Bytes} {d : Dal File} {name : Bytes} {c c' : Collection File}
  {t : Option PTree} {u : PTree}

theorem Collection.Session.packed_step [System] {op : Op} (h : Session o base c t)
    (hdiv : o.DividesInto s μ) (hsafe : SafeAt (Capacity.page o.pageSize) c op)
    (hputs : op.PutsUpTo s) (hpacked : ∀ u ∈ t, Packed s μ u)
    (hout : (op.run c).state? = some c') :
    ∃ t', Session o base c' t' ∧ ∀ u ∈ t', Packed s μ u := by
  obtain ⟨c₁, t', hends, h', he, -⟩ := h.step hsafe
  obtain rfl := Option.some.inj (hends.state?.symm.trans hout)
  refine ⟨t', h', ?_⟩
  obtain ⟨t₁, ht₁, hfresh, hsafe, -⟩ := hsafe
  obtain rfl := ht₁.unique h.serves.toShows
  rw [h.options] at hsafe
  have hfresh' : op.Fresh (t₁.map Tree.erase) := by
    cases op with
    | put key value pastEnd => exact (valueAt_erase t₁ key).trans hfresh
    | remove key => trivial
  have hlight : ∀ u ∈ t₁.map Tree.erase, u.Each Light := fun v hv => by
    obtain ⟨u, hu, rfl⟩ := Option.map_eq_some_iff.mp hv
    exact each_erase.mpr fun w hw => (h.room hu hw).light defaultPageSize_le
  have hpacked' : ∀ u ∈ t₁.map Tree.erase, Packed s μ u := fun v hv => by
    obtain ⟨u, hu, rfl⟩ := Option.map_eq_some_iff.mp hv
    exact packed_erase.mpr (hpacked u hu)
  have hkept : ∀ u ∈ t'.map Tree.erase, Packed s μ u :=
    Op.packed_outline hdiv (wellFormed_erase.mpr h.wellFormed) hfresh' hsafe hlight hputs hpacked' he
  exact fun u hu => packed_erase.mp (hkept _ (Option.map_eq_some_iff.mpr ⟨u, hu, rfl⟩))

/-- **The whole run**, with one put as the step. -/
theorem packed_of_run [System] (hwidth : o.pageSize < 2 ^ 32) (hdiv : o.DividesInto s μ)
    (hd : Dal.create o = .ok () d)
    (hrun : Runs (fun c op => SafeAt (Capacity.page o.pageSize) c op ∧ op.PutsUpTo s)
      ⟨d, name, 0⟩ c) :
    ∃ t, Session o d.file.bytes c t ∧ ∀ u ∈ t, Packed s μ u := by
  induction hrun with
  | refl => exact ⟨none, Session.start hwidth hd, fun u hu => by cases hu⟩
  | tail _ hstep ih =>
    obtain ⟨t, h, hpacked⟩ := ih
    obtain ⟨op, ⟨hsafe, hputs⟩, hout⟩ := hstep
    exact h.packed_step hdiv hsafe hputs hpacked hout

end Run

/-! ## The theorem -/

theorem CostsAtMost.mono [System] {cap : Capacity} {h k : Nat} {c : Collection File}
    (hcosts : CostsAtMost cap h c) (hle : h ≤ k) : CostsAtMost cap k c := by
  constructor
  · intro hroot key
    obtain ⟨item, j, hj, hplain, hreads, hwrites⟩ := hcosts.find hroot key
    exact ⟨item, j, hj, hplain, hreads.trans (Nat.succ_le_succ hle), hwrites⟩
  · intro op hsafe
    obtain ⟨j, hj, hplain, hreads, hwrites⟩ := hcosts.call op hsafe
    refine ⟨j, hj, hplain, hreads.trans ?_, hwrites.trans ?_⟩
    · cases op <;> simp only [Op.readsAtMost] <;> omega
    · cases op <;> simp only [Op.writesAtMost] <;> omega

/-- **After a run of puts a call costs a logarithm of the number of items**, and the tree has
no more nodes than items over `μ`. -/
theorem logarithmic_costs [System] {d : Dal File} {name : Bytes} {c : Collection File} {u : PTree}
    (hwidth : o.pageSize < 2 ^ 32) (hμ : 0 < μ) (hdiv : o.DividesInto s μ)
    (hd : Dal.create o = .ok () d)
    (hrun : Runs (fun c op => SafeAt (Capacity.page o.pageSize) c op ∧ op.PutsUpTo s)
      ⟨d, name, 0⟩ c) (hu : c.Shows (some u)) :
    (∃ h, Uniform h u ∧ h ≤ Nat.log (μ + 1) ((u.inorder.length + 1) / 2)) ∧
      μ * u.tags.length < u.inorder.length + μ ∧
      CostsAtMost (Capacity.page o.pageSize) (Nat.log (μ + 1) ((u.inorder.length + 1) / 2)) c := by
  obtain ⟨t, hsession, hpacked⟩ := packed_of_run hwidth hdiv hd hrun
  obtain rfl := hsession.serves.toShows.unique hu
  obtain ⟨-, hbelow, hroot⟩ := hpacked u rfl
  obtain ⟨⟨h, huniform⟩, -⟩ := wellFormed_some.mp hsession.wellFormed
  have hlow := huniform.le_log hμ hroot hbelow
  refine ⟨⟨h, huniform, hlow⟩, ?_, ?_⟩
  · have hnodes := Below.mul_subtrees_le hbelow
    have hpos := List.length_pos_iff.mpr hroot
    rw [tags, List.length_map]
    omega
  · have hsafe : Runs (SafeAt (Capacity.page o.pageSize)) ⟨d, name, 0⟩ c := by
      refine Relation.ReflTransGen.mono ?_ _ _ hrun
      rintro c c' ⟨op, h, hout⟩
      exact ⟨op, h.1, hout⟩
    refine (page_costs (h := h) hwidth hd hsafe hu ?_).mono hlow
    rintro v ⟨⟩
    exact huniform

theorem dividesInto_balance : BuiltinOptions.balance.DividesInto 10 3 :=
  ⟨2, by decide, by decide +kernel, by decide +kernel⟩

/-- Puts of items of ten bytes; the tenth one splits the root. -/
def tenPuts : List Op :=
  [1, 2, 3, 4, 5, 6, 7, 8, 9, 10].map fun k => .put [k] (List.replicate 9 k) ⟨[], []⟩

/-- A database with the options of `BALANCE`, after the split. -/
theorem logarithmic_costs_balance : ∃ d c u, Dal.create BuiltinOptions.balance = .ok () d ∧
    c.Shows (some u) ∧ u.inorder.length = 10 ∧ u.tags.length = 3 ∧
    (∃ h, Uniform h u ∧ h ≤ 1) ∧ 3 * u.tags.length < u.inorder.length + 3 ∧
    CostsAtMost (Capacity.page BuiltinOptions.balance.pageSize) 1 c := by
  have hshelf : ∃ e ∈ safeReplay tenPuts (⟨Dal.begun BuiltinOptions.balance, [], 0⟩ :
      Collection (Shelf (Capacity.page BuiltinOptions.balance.pageSize))),
      ∃ t ∈ e.tree?, ∃ u ∈ t, u.inorder.length = 10 ∧ u.tags.length = 3 := by decide +kernel
  obtain ⟨e, he, t, ht, u, hu, hitems, hpages⟩ := hshelf
  obtain rfl := Option.mem_def.mp hu
  obtain ⟨d, c, hd, htrace, hm⟩ := exists_safeRun (o := BuiltinOptions.balance) (by decide)
    (by decide) he
  have hshows : c.Shows (some u) := hm.toShows (shows_of_tree? ht)
  have hputs : ∀ op ∈ tenPuts, op.PutsUpTo 10 := by decide
  have hrun : Runs (fun c op => SafeAt (Capacity.page BuiltinOptions.balance.pageSize) c op ∧
      op.PutsUpTo 10) ⟨d, [], 0⟩ c :=
    .of_trace (htrace.mono fun hop h => ⟨⟨h.1, hputs _ hop⟩, h.2⟩)
  have hcosts := logarithmic_costs (by decide) (by decide) dividesInto_balance hd hrun hshows
  have hlog : Nat.log (3 + 1) ((u.inorder.length + 1) / 2) = 1 := by
    rw [hitems]
    decide
  rw [hlog] at hcosts
  exact ⟨d, c, u, hd, hshows, hitems, hpages, hcosts⟩

end Toocal
