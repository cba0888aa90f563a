import Toocal.Tree.Replay

/-!
# Shape and pages in every reachable state

A run of safe calls on a created database keeps the tree under the root a search tree
(`shaped_of_run`), and keeps its pages apart from the released ones and from the pages of
the database (`apart_of_run`).

Neither holds of every run.  When a remove repairs a node and then its parent, the second
repair writes the children the parent had before the first one: `staleRepair_not_shaped`
and `staleRepair_not_apart`.
-/

namespace Toocal

open Outcomes Multiway Multiway.Tree Collection Pages4096

variable {o : Options} {d : Dal File} {c : Collection File} {name : Bytes}

/-! ## Shape -/

/-- What `get_node` reads under the root is a search tree: the keys are in order, every
inner node has one more child than it has items, and all leaves are at one depth. -/
def Shaped [System] (c : Collection File) : Prop := ∃ t, c.Shows t ∧ WellFormed t

/-- **The shape is an invariant of every run of safe calls.** -/
theorem shaped_of_run [System] (hwidth : o.pageSize < 2 ^ 32) (hd : Dal.create o = .ok () d)
    (hrun : Runs (SafeAt (Capacity.page o.pageSize)) ⟨d, name, 0⟩ c) : Shaped c := by
  obtain ⟨t, h⟩ := Session.of_run hwidth hd hrun
  exact ⟨t, h.serves.toShows, h.wellFormed⟩

/-- A run with splits, merges and a new root on two levels. -/
theorem shaped_threeLevels : ∃ d c, Dal.create smallNodes = .ok () d ∧
    Runs (SafeAt (Capacity.page 4096)) ⟨d, [], 0⟩ c ∧ c.Shows (some afterThreeLevels) ∧
    Shaped c := by
  obtain ⟨d, c, -, hd, htrace, hshows, -⟩ := exists_threeLevels
  exact ⟨d, c, hd, .of_trace htrace, hshows,
    shaped_of_run (o := smallNodes) (by decide) hd (.of_trace htrace)⟩

/-- **A repair with an outdated copy repeats keys.** -/
theorem staleRepair_not_shaped : ∃ d c, Dal.create smallNodes = .ok () d ∧
    replay staleRepair ⟨d, [], 0⟩ = some c ∧ ¬Shaped c := by
  obtain ⟨d, c, hd, hrun, hshows, -⟩ := exists_staleRepair
  refine ⟨d, c, hd, hrun, fun ⟨t, ht, hw⟩ => ?_⟩
  obtain rfl := ht.unique hshows
  have hs := hw.sorted
  revert hs
  decide

/-! ## Pages -/

/-- The pages of the tree, the released pages and the pages of the database are kept
apart.  A page that is the child of two positions occurs twice among the pages of the
tree. -/
structure PagesApart (c : Collection File) (t : Option PTree) : Prop where
  nodup : (pagesOf t).Nodup
  live : ∀ p ∈ pagesOf t, p ∉ c.dal.freelist.releasedPages
  released : c.dal.freelist.releasedPages.Nodup
  reserved : ∀ p, p = 0 ∨ p = c.dal.metaPage.freelistPage →
    p ∉ pagesOf t ∧ p ∉ c.dal.freelist.releasedPages ∧ p ∉ c.dal.written

/-- **Live and free pages stay apart in every run of safe calls.** -/
theorem apart_of_run [System] (hwidth : o.pageSize < 2 ^ 32) (hd : Dal.create o = .ok () d)
    (hrun : Runs (SafeAt (Capacity.page o.pageSize)) ⟨d, name, 0⟩ c) :
    ∃ t, c.Shows t ∧ PagesApart c t := by
  obtain ⟨t, h⟩ := Session.of_run hwidth hd hrun
  have hlay := h.layout
  refine ⟨t, h.serves.toShows, hlay.nodup.of_append_left, fun p hp hr => ?_,
    hlay.nodup.of_append_right, fun p hp => ?_⟩
  · exact List.disjoint_of_nodup_append hlay.nodup hp hr
  · have hlt : p < 2 := by
      rw [h.metaPage] at hp
      simp only at hp
      omega
    have hout : ∀ {q : Nat}, q ∈ pagesOf t ++ c.dal.freelist.releasedPages → q ≠ p := by
      rintro q hq rfl
      exact hlay.outside q hq (Nat.le_of_lt hlt)
    exact ⟨fun hm => hout (List.mem_append_left _ hm) rfl,
      fun hm => hout (List.mem_append_right _ hm) rfl, h.notWritten hlt⟩

/-- A run that has released two pages. -/
theorem apart_threeLevels : ∃ d c, Dal.create smallNodes = .ok () d ∧
    Runs (SafeAt (Capacity.page 4096)) ⟨d, [], 0⟩ c ∧
    c.dal.freelist.releasedPages = [5, 10] ∧ ∃ t, c.Shows t ∧ PagesApart c t := by
  obtain ⟨d, c, -, hd, htrace, -, hfl, -⟩ := exists_threeLevels
  exact ⟨d, c, hd, .of_trace htrace, congrArg Freelist.releasedPages hfl,
    apart_of_run (o := smallNodes) (by decide) hd (.of_trace htrace)⟩

/-- **A repair with an outdated copy keeps a page it has released as a child.** -/
theorem staleRepair_not_apart : ∃ d c, Dal.create smallNodes = .ok () d ∧
    replay staleRepair ⟨d, [], 0⟩ = some c ∧ ¬∃ t, c.Shows t ∧ PagesApart c t := by
  obtain ⟨d, c, hd, hrun, hshows, hfl⟩ := exists_staleRepair
  refine ⟨d, c, hd, hrun, fun ⟨t, ht, ha⟩ => ?_⟩
  obtain rfl := ht.unique hshows
  refine ha.live 8 (by decide) ?_
  rw [hfl]
  decide

end Toocal
