import Mathlib.Logic.Relation
import Toocal.Library.Traces
import Toocal.Tree.Operations
import Toocal.Tree.Remove

/-!
# Runs of `put` and `remove`

`Collection.Stands c F t` is the invariant of a collection on a shelf: the pages hold
the tree `t` under its root, kept apart from the released pages and from the pages `F`
of others.  `Op.run_ok` is the step: a safe call does to the pages what `Op.outline`
says, and leaves `F` alone.

`Runs P` are the runs, on any page store, whose calls all meet the condition `P` in the
state they are made in; `SafeAt` is the condition that keeps the invariant.  A `Trace` of
`Call P` is such a run with its calls.
-/

namespace Toocal

open Outcomes Multiway Multiway.Tree Traces

variable {φ : Type} [PageStore φ]

def Op.run : Op → Prog Error (Collection φ) Unit
  | .put key value pastEnd => Collection.put pastEnd key value
  | .remove key => Collection.remove key

/-- How a call on the tree `t` ends: a remove that does not find its key returns its error
and changes nothing, every other call returns a result. -/
def Op.Ends (t : Option PTree) (c c' : Collection φ) : Op → Prop
  | .put key value pastEnd => Collection.put pastEnd key value c = .ok () c'
  | .remove key => if valueAt t key = none then
      Collection.remove key c = .error (Collection.keyNotFound key) c ∧ c' = c
    else Collection.remove key c = .ok () c'

theorem Op.Ends.state? {t : Option PTree} {c c' : Collection φ} {op : Op} (h : op.Ends t c c') :
    (op.run c).state? = some c' := by
  cases op with
  | put key value pastEnd => exact congrArg Outcome.state? h
  | remove key =>
    rw [Op.Ends] at h
    split at h
    · rw [h.2]
      exact congrArg Outcome.state? h.1
    · exact congrArg Outcome.state? h

/-- The pages of a tree; a collection with root 0 has none. -/
def pagesOf (t : Option PTree) : List Nat := t.elim [] tags

/-- `Collection::root` over a tree. -/
def rootOf (t : Option PTree) : Nat := t.elim 0 Tree.tag

@[simp] theorem pagesOf_none : pagesOf none = [] := rfl
@[simp] theorem pagesOf_some (t : PTree) : pagesOf (some t) = t.tags := rfl
@[simp] theorem rootOf_none : rootOf none = 0 := rfl
@[simp] theorem rootOf_some (t : PTree) : rootOf (some t) = t.tag := rfl

namespace Collection

open Dal

/-- `get_node` reads `t` under the root of `c`. -/
structure Shows (c : Collection φ) (t : Option PTree) : Prop where
  root : c.root = rootOf t
  reads : ∀ u ∈ t, u.tag ≠ 0 ∧ c.dal.Reads u

theorem Shows.unique {c : Collection φ} {t u : Option PTree} (ht : c.Shows t) (hu : c.Shows u) :
    t = u := by
  have hroot := ht.root.symm.trans hu.root
  cases t with
  | none =>
    cases u with
    | none => rfl
    | some u => exact absurd hroot.symm (hu.reads u rfl).1
  | some t =>
    cases u with
    | none => exact absurd hroot (ht.reads t rfl).1
    | some u => rw [(ht.reads t rfl).2.unique (hu.reads u rfl).2 hroot]

/-- It shows the tree, and a descent through it has fuel enough. -/
structure Serves (c : Collection φ) (t : Option PTree) : Prop extends c.Shows t where
  fuel : (pagesOf t).length < c.dal.fuel

section Serves

variable {c : Collection φ} {u : PTree} (h : c.Serves (some u)) (hw : WellFormed (some u))
include h hw

/-- **`find` answers by the tree.** -/
theorem Serves.find (key : Bytes) : find key c = .ok (valueAt (some u) key) c := by
  obtain ⟨⟨k, hu⟩, hs⟩ := wellFormed_some.mp hw
  exact find_ok key (h.reads u rfl).2 h.root h.fuel hu hs

theorem Serves.remove_absent {key : Bytes} (hk : valueAt (some u) key = none) :
    remove key c = .error (keyNotFound key) c := by
  obtain ⟨⟨k, hu⟩, hs⟩ := wellFormed_some.mp hw
  exact Collection.remove_absent (h.reads u rfl).2 h.root h.fuel hu hs hk

end Serves

/-- The call meets `Q` on the tree under the root, with the options and the last page number. -/
def MeetsAt (Q : Options → Nat → Op → Option PTree → Prop) (c : Collection φ) (op : Op) : Prop :=
  ∃ t, c.Shows t ∧ Q c.dal.options c.dal.freelist.maxPage op t

/-- The call is made in a state where it is fresh and safe. -/
def SafeAt (cap : Capacity) (c : Collection φ) (op : Op) : Prop :=
  ∃ t, c.Shows t ∧ op.Fresh t ∧ op.Safe cap c.dal.options (t.map Tree.erase) ∧
    op.Numbers cap c.dal.freelist.maxPage t

theorem SafeAt.pastEnd {cap : Capacity} {c : Collection φ} {key value : Bytes} {a b : Item}
    (h : SafeAt cap c (.put key value a)) : SafeAt cap c (.put key value b) := by
  obtain ⟨t, ht, hfresh, hsafe, hn⟩ := h
  exact ⟨t, ht, hfresh, by cases t <;> exact hsafe, by cases t <;> exact hn⟩

/-- The put leaves no two over-populated neighbours on its path. -/
def CalmAt (c : Collection φ) (op : Op) : Prop :=
  ∃ t, c.Shows t ∧ op.Calm c.dal.options (t.map Tree.erase)

theorem CalmAt.pastEnd {c : Collection φ} {key value : Bytes} {a b : Item}
    (h : c.CalmAt (.put key value a)) : c.CalmAt (.put key value b) := by
  obtain ⟨t, ht, hcalm⟩ := h
  exact ⟨t, ht, by cases t <;> exact hcalm⟩

/-- One call that meets `P`, whether it ends with a result or with an error. -/
def Step (P : Collection φ → Op → Prop) (c c' : Collection φ) : Prop :=
  ∃ op : Op, P c op ∧ (op.run c).state? = some c'

/-- The runs whose calls all meet `P`. -/
abbrev Runs (P : Collection φ → Op → Prop) : Collection φ → Collection φ → Prop :=
  Relation.ReflTransGen (Step P)

/-- One call of a labelled run. -/
def Call (P : Collection φ → Op → Prop) (c : Collection φ) (op : Op) (c' : Collection φ) : Prop :=
  P c op ∧ (op.run c).state? = some c'

theorem Runs.of_trace {P : Collection φ → Op → Prop} {c c' : Collection φ} {ops : List Op}
    (h : Trace (Call P) c ops c') : Runs P c c' := by
  induction h with
  | nil => exact .refl
  | snoc _ hs ih => exact ih.tail ⟨_, hs⟩

variable {cap : Capacity}

/-- **The invariant of a collection on a shelf.** -/
structure Stands (c : Collection (Shelf cap)) (F : Set Nat) (t : Option PTree) : Prop where
  holds : ∀ u ∈ t, c.dal.Holds u
  layout : Layout c.dal.freelist F (pagesOf t)
  root : c.root = rootOf t

section Stands

variable {c : Collection (Shelf cap)} {F : Set Nat} {t : Option PTree}

theorem stands_some {u : PTree} : c.Stands F (some u) ↔ c.dal.Owns F u ∧ c.root = u.tag :=
  ⟨fun h => ⟨⟨h.holds u rfl, h.layout⟩, h.root⟩,
    fun h => ⟨fun v hv => by obtain rfl := Option.some.inj hv; exact h.1.holds, h.1.layout, h.2⟩⟩

theorem stands_none : c.Stands F none ↔ Layout c.dal.freelist F [] ∧ c.root = 0 :=
  ⟨fun h => ⟨h.layout, h.root⟩, fun h => ⟨by simp, h.1, h.2⟩⟩

theorem Stands.serves (h : c.Stands F t) : c.Serves t where
  root := h.root
  reads u hu := ⟨h.layout.ne_zero (by obtain rfl := hu; exact tag_mem_tags u),
    reads_iff_holds.mpr (h.holds u hu)⟩
  fuel := by
    cases t with
    | none => exact Nat.succ_pos _
    | some u => exact (stands_some.mp h).1.length_tags_lt

end Stands

end Collection

/-! ## One call -/

section Call

open Dal

variable {cap : Capacity} {c : Collection (Shelf cap)} {F : Set Nat} {t : Option PTree} {op : Op}

/-- **A fresh and safe call does to the pages what `Op.outline` says**, and leaves the
pages of others alone.  It loses no page if `Op.KeepsPages` holds. -/
theorem Op.run_ok (hs : c.Stands F t) (hw : WellFormed t) (hf : op.Fresh t)
    (hsafe : op.Safe cap c.dal.options (t.map Tree.erase))
    (hn : op.Numbers cap c.dal.freelist.maxPage t) :
    ∃ c' t', op.Ends t c c' ∧ c'.Stands F t' ∧
      t'.map Tree.erase = op.outline c.dal.options (t.map Tree.erase) ∧ c'.name = c.name ∧
      Keeps F c.dal c'.dal ∧ (op.KeepsPages c.dal.options (t.map Tree.erase) →
        Allots c.dal.freelist c'.dal.freelist (pagesOf t) (pagesOf t')) := by
  cases op with
  | put key value pastEnd =>
    cases t with
    | none =>
      obtain ⟨hlay, hroot⟩ := Collection.stands_none.mp hs
      obtain ⟨c', t', hrun, ho, hr, hname, he, hk, -, hal⟩ :=
        Collection.put_first pastEnd hlay hroot hsafe hn
      exact ⟨c', some t', hrun, Collection.stands_some.mpr ⟨ho, hr⟩,
        congrArg some he, hname, hk, fun _ => hal⟩
    | some t =>
      obtain ⟨ho, hroot⟩ := Collection.stands_some.mp hs
      obtain ⟨⟨h, hu⟩, hsorted⟩ := wellFormed_some.mp hw
      obtain ⟨x, hx, hpath⟩ := exists_path key hu.regular
      have hfound : x.found = false := by
        rw [← Bool.not_eq_true, found_iff hpath hsorted]
        exact fun hne => hne hf
      obtain ⟨c', t', hrun, ho', hr, hname, he, hk, -, hal⟩ :=
        Collection.put_ok pastEnd ho hroot hu hsafe hx hpath hfound (hn x hx)
      refine ⟨c', some t', hrun, Collection.stands_some.mpr ⟨ho', hr⟩, congrArg some he, hname, hk,
        fun hcalm => hal ?_⟩
      have hxe : locate (findKeyInNode key) t.erase = some x.erase := by rw [locate_erase, hx]; rfl
      have hno := hcalm x.erase hxe
      rwa [Path.erase, NoDoubleOverflow, pathItems_erase, items_erase] at hno
  | remove key =>
    cases t with
    | none => exact hsafe.elim
    | some t =>
      by_cases hkey : valueAt (some t) key = none
      · refine ⟨c, some t, ?_, hs, ?_, rfl, Keeps.refl F _, fun _ => Allots.refl _ _⟩
        · rw [Ends, if_pos hkey]
          exact ⟨hs.serves.remove_absent hw hkey, rfl⟩
        · refine (outline_remove_absent (wellFormed_erase.mpr hw) ?_).symm
          rwa [valueAt_erase]
      · obtain ⟨ho, hroot⟩ := Collection.stands_some.mp hs
        obtain ⟨⟨h, hu⟩, hsorted⟩ := wellFormed_some.mp hw
        obtain ⟨x, hx, hpath⟩ := exists_path key hu.regular
        obtain ⟨c', hrun, ho', hr, hname, hk, -, hal⟩ := Collection.remove_ok ho hroot hu hx hpath
          ((found_iff hpath hsorted).mpr hkey) ((removeSafe_erase t).mp hsafe)
        refine ⟨c', some (removeOutline c.dal.options key t), ?_,
          Collection.stands_some.mpr ⟨ho', hr⟩, congrArg some (removeOutline_erase t), hname, hk,
          fun hkeeps => hal ?_⟩
        · rw [Ends, if_neg hkey]
          exact hrun
        · have hroot := hkeeps.resolve_left fun hnone => hkey ((valueAt_erase _ key).symm.trans hnone)
          rwa [children_erase, List.map_eq_nil_iff, items_erase] at hroot

theorem Collection.Stands.step {c' : Collection (Shelf cap)} (h : c.Stands F t) (hw : WellFormed t)
    (hsafe : SafeAt cap c op) (hout : (op.run c).state? = some c') :
    ∃ t', c'.Stands F t' ∧ WellFormed t' := by
  obtain ⟨u, hu, hf, hsafe', hn⟩ := hsafe
  obtain rfl := hu.unique h.serves.toShows
  obtain ⟨c₁, t', hends, hs', he, -⟩ := Op.run_ok h hw hf hsafe' hn
  obtain rfl := Option.some.inj (hends.state?.symm.trans hout)
  exact ⟨t', hs', hw.next hf hsafe' he⟩

theorem Collection.Stands.of_trace {c' : Collection (Shelf cap)} {ops : List Op} (h : c.Stands F t)
    (hw : WellFormed t) (htrace : Trace (Call (SafeAt cap)) c ops c') :
    ∃ t', c'.Stands F t' ∧ WellFormed t' := by
  refine htrace.invariant (I := fun _ c => ∃ t, c.Stands F t ∧ WellFormed t) ⟨t, h, hw⟩ ?_
  rintro - op c₁ c₂ ⟨t₁, h₁, hw₁⟩ ⟨hsafe, hout⟩
  exact h₁.step hw₁ hsafe hout

end Call

end Toocal
