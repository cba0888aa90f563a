import Toocal.Library.Dictionary
import Toocal.Tree.FileRuns

/-!
# Any number of collections on one database

`Database φ ι` is a data access layer with the handles of the collections `ι` that are open
on it.  `Tenants` is the invariant: each collection has its own tree, and to each of them
the pages of all the others are foreign (`Tenancy`).

`Tenants.step`: a safe call on one of them keeps the invariant, and leaves the other trees
alone.  After a run of safe calls each has the tree that its own calls make
(`Tenants.of_trace`).
-/

namespace Toocal

open Outcomes Multiway Multiway.Tree Traces Collection

variable {ι : Type}

/-! ## Who owns which page -/

/-- The pages `F`, and those of everyone in `pages` but `i`. -/
def foreign (F : Set Nat) (pages : ι → List Nat) (i : ι) : Set Nat :=
  F ∪ {p | ∃ j, j ≠ i ∧ p ∈ pages j}

/-- Everyone has pages of their own, apart from the released pages and from `F`. -/
def Tenancy (fl : Freelist) (F : Set Nat) (pages : ι → List Nat) : Prop :=
  ∀ i, Layout fl (foreign F pages i) (pages i)

namespace Tenancy

variable {fl fl' : Freelist} {F : Set Nat} {pages : ι → List Nat} {i : ι} {ps : List Nat}

theorem start (h : Layout fl F []) : Tenancy fl F fun _ : ι => [] := by
  intro i
  have hF : foreign F (fun _ : ι => []) i = F := by simp [foreign]
  rw [hF]
  exact h

theorem foreign_update_self [DecidableEq ι] : foreign F (Function.update pages i ps) i =
    foreign F pages i := by
  refine congrArg (F ∪ ·) (Set.ext fun p => ?_)
  constructor
  · rintro ⟨j, hj, hp⟩
    exact ⟨j, hj, by rwa [Function.update_of_ne hj] at hp⟩
  · rintro ⟨j, hj, hp⟩
    exact ⟨j, hj, by rwa [Function.update_of_ne hj]⟩

/-- **One tenant changes its pages**: whoever it has not disturbed still has theirs. -/
theorem update [DecidableEq ι] (h : Tenancy fl F pages) (h' : Layout fl' (foreign F pages i) ps) :
    Tenancy fl' F (Function.update pages i ps) := by
  intro j
  by_cases hj : j = i
  · subst hj
    rw [foreign_update_self, Function.update_self]
    exact h'
  · rw [Function.update_of_ne hj]
    have hmine : ∀ p ∈ pages j, p ∈ foreign F pages i := fun p hp => .inr ⟨j, hj, hp⟩
    have hnew : ∀ p ∈ ps ++ fl'.releasedPages, p ∉ pages j := fun p hp hm =>
      h'.outside p hp (hmine p hm)
    refine ⟨?_, fun p hp => ?_, fun p hp hF => ?_, ?_, .inl ?_⟩
    · exact (h j).nodup.of_append_left.append h'.nodup.of_append_right fun p hp hr =>
        hnew p (List.mem_append_right _ hr) hp
    · rcases List.mem_append.mp hp with hp | hp
      · exact h'.frame_le p (hmine p hp)
      · exact h'.le_max p (List.mem_append_right _ hp)
    · rcases hF with hF | ⟨k, hk, hpk⟩
      · rcases List.mem_append.mp hp with hp | hp
        · exact (h j).outside p (List.mem_append_left _ hp) (.inl hF)
        · exact h'.outside p (List.mem_append_right _ hp) (.inl hF)
      · by_cases hki : k = i
        · subst hki
          rw [Function.update_self] at hpk
          rcases List.mem_append.mp hp with hp | hp
          · exact hnew p (List.mem_append_left _ hpk) hp
          · exact List.disjoint_of_nodup_append h'.nodup hpk hp
        · rw [Function.update_of_ne hki] at hpk
          rcases List.mem_append.mp hp with hp | hp
          · exact (h j).outside p (List.mem_append_left _ hp) (.inr ⟨k, hk, hpk⟩)
          · exact h'.outside p (List.mem_append_right _ hp) (.inr ⟨k, hki, hpk⟩)
    · rintro p (hF | ⟨k, hk, hpk⟩)
      · exact h'.frame_le p (.inl hF)
      · by_cases hki : k = i
        · subst hki
          rw [Function.update_self] at hpk
          exact h'.le_max p (List.mem_append_left _ hpk)
        · rw [Function.update_of_ne hki] at hpk
          exact h'.frame_le p (.inr ⟨k, hki, hpk⟩)
    · rcases h'.zero with h0 | ⟨k, hk, h0⟩
      · exact h0
      · exact ((h k).ne_zero h0 rfl).elim

end Tenancy

/-! ## Databases -/

/-- A collection without its layer. -/
structure Handle where
  name : Bytes
  root : Nat

/-- A data access layer and the collections that are open on it. -/
structure Database (φ ι : Type) where
  dal : Dal φ
  handle : ι → Handle

namespace Database

variable {φ : Type}

/-- The collection `i`. -/
def collection (i : ι) (w : Database φ ι) : Collection φ :=
  ⟨w.dal, (w.handle i).name, (w.handle i).root⟩

/-- The database after `i` has become `c`. -/
def setCollection [DecidableEq ι] (i : ι) (c : Collection φ) (w : Database φ ι) : Database φ ι :=
  ⟨c.dal, Function.update w.handle i ⟨c.name, c.root⟩⟩

@[simp] theorem dal_setCollection [DecidableEq ι] (i : ι) (c : Collection φ) (w : Database φ ι) :
    (w.setCollection i c).dal = c.dal := rfl
@[simp] theorem handle_setCollection [DecidableEq ι] (i : ι) (c : Collection φ)
    (w : Database φ ι) : (w.setCollection i c).handle i = ⟨c.name, c.root⟩ :=
  Function.update_self _ _ _
theorem handle_setCollection_ne [DecidableEq ι] {i j : ι} (h : j ≠ i) (c : Collection φ)
    (w : Database φ ι) : (w.setCollection i c).handle j = w.handle j :=
  Function.update_of_ne h _ _

theorem setCollection_same [DecidableEq ι] (i : ι) (w : Database φ ι) :
    w.setCollection i (w.collection i) = w := by
  show (⟨w.dal, Function.update w.handle i (w.handle i)⟩ : Database φ ι) = w
  rw [Function.update_eq_self]

section Calls

variable [PageStore φ] [DecidableEq ι]

/-- A call on the collection `i`. -/
def run (call : ι × Op) : Prog Error (Database φ ι) Unit :=
  Prog.zoom (collection call.1) (setCollection call.1) call.2.run

/-- One call of a labelled run. -/
def Call (P : Collection φ → Op → Prop) (w : Database φ ι) (call : ι × Op) (w' : Database φ ι) :
    Prop := P (w.collection call.1) call.2 ∧ (run call w).state? = some w'

theorem exists_of_run {w w' : Database φ ι} {call : ι × Op} (h : (run call w).state? = some w') :
    ∃ c', (call.2.run (w.collection call.1)).state? = some c' ∧ w' = w.setCollection call.1 c' := by
  unfold Database.run Prog.zoom at h
  cases hc : call.2.run (w.collection call.1) with
  | ok a c' => rw [hc] at h; exact ⟨c', rfl, (Option.some.inj h).symm⟩
  | error e c' => rw [hc] at h; exact ⟨c', rfl, (Option.some.inj h).symm⟩
  | stop why => rw [hc] at h; cases h

end Calls

end Database

/-- The calls on one collection. -/
def ownCalls [DecidableEq ι] (i : ι) (calls : List (ι × Op)) : List Op :=
  (calls.filter fun call => call.1 = i).map Prod.snd

theorem ownCalls_snoc [DecidableEq ι] (i : ι) (calls : List (ι × Op)) (call : ι × Op) :
    ownCalls i (calls ++ [call]) = ownCalls i calls ++ if call.1 = i then [call.2] else [] := by
  rw [ownCalls, List.filter_append, List.map_append, ownCalls]
  by_cases h : call.1 = i <;> simp [h]

/-! ## The invariant -/

open Database

/-- **The collections of a created database**, each with its tree. -/
structure Tenants [System] (o : Options) (base : Bytes) (w : Database File ι) (trees : ι → Option PTree) :
    Prop where
  shelf : ∃ e : Dal (Shelf (Capacity.page o.pageSize)), Mirrors base w.dal e ∧
    ∀ i, ∀ u ∈ trees i, e.Holds u
  options : w.dal.options = o
  layout : Tenancy w.dal.freelist firstPages fun i => pagesOf (trees i)
  root : ∀ i, (w.handle i).root = rootOf (trees i)
  wellFormed : ∀ i, WellFormed (trees i)

section Tenants

variable [System] {o : Options} {base : Bytes} {w : Database File ι} {trees : ι → Option PTree}

theorem Tenants.start {d : Dal File} (name : ι → Bytes) (hwidth : o.pageSize < 2 ^ 32)
    (hd : Dal.create o = .ok () d) :
    Tenants o d.file.bytes ⟨d, fun i => ⟨name i, 0⟩⟩ fun _ => none where
  shelf := ⟨Dal.begun o, (Dal.of_create hwidth hd).1, by simp⟩
  options := (Dal.of_create hwidth hd).1.options
  layout := by
    rw [(Dal.of_create hwidth hd).1.freelist]
    exact Tenancy.start layout_begun
  root _ := rfl
  wellFormed _ := wellFormed_none

/-- The shelf of one collection: the pages of all others are foreign. -/
theorem Tenants.stands (h : Tenants o base w trees) (i : ι) :
    ∃ e : Collection (Shelf (Capacity.page o.pageSize)), Mirror base (w.collection i) e ∧
      e.Stands (foreign firstPages (fun j => pagesOf (trees j)) i) (trees i) ∧
      ∀ j, ∀ u ∈ trees j, e.dal.Holds u := by
  obtain ⟨e, hm, hh⟩ := h.shelf
  refine ⟨⟨e, (w.handle i).name, (w.handle i).root⟩, ⟨hm, rfl, rfl⟩, ⟨hh i, ?_, h.root i⟩, hh⟩
  have hlay := h.layout i
  rw [hm.freelist] at hlay
  exact hlay

theorem Tenants.serves (h : Tenants o base w trees) (i : ι) :
    (w.collection i).Serves (trees i) := by
  obtain ⟨e, hm, hs, -⟩ := h.stands i
  exact hm.serves hs

/-- **A safe call on one collection keeps the invariant and leaves the other trees alone.** -/
theorem Tenants.step [DecidableEq ι] (h : Tenants o base w trees) {i : ι} {op : Op}
    (hsafe : SafeAt (Capacity.page o.pageSize) (w.collection i) op) :
    ∃ c' t', op.Ends (trees i) (w.collection i) c' ∧
      Tenants o base (w.setCollection i c') (Function.update trees i t') ∧
      t'.map Tree.erase = op.outline o ((trees i).map Tree.erase) := by
  obtain ⟨e, hm, hs, hholds⟩ := h.stands i
  obtain ⟨u, hu, hf, hsafe', hn⟩ := hsafe
  obtain rfl := hu.unique (h.serves i).toShows
  obtain ⟨c', e', t', hends, hm', hs', he, hk, -⟩ := Op.run_file hm hs (h.wellFormed i) hf hsafe' hn
  have hop : (w.collection i).dal.options = o := h.options
  rw [hop] at he hsafe'
  have hpages : (fun j => pagesOf (Function.update trees i t' j)) =
      Function.update (fun j => pagesOf (trees j)) i (pagesOf t') := by
    funext j
    by_cases hj : j = i
    · subst hj
      rw [Function.update_self, Function.update_self]
    · rw [Function.update_of_ne hj, Function.update_of_ne hj]
  refine ⟨c', t', hends, ⟨⟨e'.dal, hm'.dal, fun j u hu => ?_⟩, ?_, ?_, fun j => ?_, fun j => ?_⟩, he⟩
  · by_cases hj : j = i
    · subst hj
      rw [Function.update_self] at hu
      exact hs'.holds u hu
    · rw [Function.update_of_ne hj] at hu
      refine (hholds j u hu).congr fun p hp => hk.at? p (.inr ⟨j, hj, ?_⟩)
      show p ∈ pagesOf (trees j)
      rw [Option.mem_def.mp hu]
      exact hp
  · rw [dal_setCollection, hm'.dal.options, hk.options, ← hm.dal.options, hop]
  · rw [hpages, dal_setCollection, hm'.dal.freelist]
    exact h.layout.update hs'.layout
  · by_cases hj : j = i
    · subst hj
      rw [handle_setCollection, Function.update_self]
      exact hm'.root.trans hs'.root
    · rw [handle_setCollection_ne hj, Function.update_of_ne hj]
      exact h.root j
  · by_cases hj : j = i
    · subst hj
      rw [Function.update_self]
      exact (h.wellFormed j).next hf hsafe' he
    · rw [Function.update_of_ne hj]
      exact h.wellFormed j

/-- **After a run of safe calls each collection has the tree that its own calls make.** -/
theorem Tenants.of_trace [DecidableEq ι] {d : Dal File} {name : ι → Bytes} {calls : List (ι × Op)}
    (hwidth : o.pageSize < 2 ^ 32) (hd : Dal.create o = .ok () d)
    (h : Trace (Database.Call (SafeAt (Capacity.page o.pageSize))) ⟨d, fun i => ⟨name i, 0⟩⟩
      calls w) :
    ∃ trees, Tenants o d.file.bytes w trees ∧
      ∀ i, (trees i).map Tree.erase = outlineAfter o (ownCalls i calls) := by
  refine h.invariant (I := fun calls w => ∃ trees, Tenants o d.file.bytes w trees ∧
    ∀ i, (trees i).map Tree.erase = outlineAfter o (ownCalls i calls))
    ⟨_, Tenants.start name hwidth hd, fun _ => rfl⟩ ?_
  rintro calls ⟨i, op⟩ w w' ⟨trees, hs, he⟩ ⟨hsafe, hrun⟩
  obtain ⟨c', hout, rfl⟩ := exists_of_run hrun
  obtain ⟨c'', t', hends, hs', he'⟩ := hs.step hsafe
  obtain rfl := Option.some.inj (hends.state?.symm.trans hout)
  refine ⟨_, hs', fun j => ?_⟩
  rw [ownCalls_snoc]
  by_cases hj : i = j
  · subst hj
    rw [Function.update_self, if_pos rfl, outlineAfter_snoc, he', he]
  · rw [Function.update_of_ne (Ne.symm hj), if_neg hj, List.append_nil, he]

end Tenants

end Toocal
