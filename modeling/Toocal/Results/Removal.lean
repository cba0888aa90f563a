import Toocal.Tree.Occupied
import Toocal.Tree.Replay

/-!
# What `remove` does in a reachable state

After a run of safe calls a safe `remove` takes out its key and no other
(`remove_exactly`).  After a repair with an outdated copy a key is there twice, and a `remove`
leaves one of the two (`staleRepair_resurrects`).

After a run of tidy calls no node below the root is empty, and a tidy `remove` accesses no
element that is not there (`remove_in_range`).  A split that moves the last item of a leaf up
leaves an empty leaf, and a `remove` from the node above takes the last item of that leaf
(`emptyLeaf_out_of_range`).
-/

namespace Toocal

open Outcomes Multiway Multiway.Tree Traces Collection Pages4096

variable {o : Options} {d : Dal File} {c : Collection File} {name key : Bytes}

/-! ## Deleting one key -/

/-- A `remove` of a key of `t` takes out this key and leaves all others; one of another
key returns its error and changes nothing. -/
structure RemovesExactly [System] (c : Collection File) (t : PTree) (key : Bytes) : Prop where
  present : valueAt (some t) key ≠ none → ∃ c', remove key c = .ok () c' ∧
    (find key c').answer = .ok none ∧ ∀ j, j ≠ key → (find j c').answer = (find j c).answer
  absent : valueAt (some t) key = none → remove key c = .error (keyNotFound key) c

theorem removesExactly_of_session [System] {base : Bytes} {t : PTree} (h : Session o base c (some t))
    (hsafe : SafeAt (Capacity.page o.pageSize) c (.remove key)) : RemovesExactly c t key := by
  obtain ⟨c', t', hends, h', he, -⟩ := h.step hsafe
  obtain ⟨u, hu, -, hop, -⟩ := hsafe
  obtain rfl := hu.unique h.serves.toShows
  refine ⟨fun hk => ?_, fun hk => ?_⟩
  · rw [Op.Ends, if_neg hk] at hends
    cases t' with
    | none => cases he
    | some u' =>
      have hw := wellFormed_erase.mpr h.wellFormed
      rw [h.options] at hop
      -- the map from keys to items after the call, in terms of the one before
      have hvalue : ∀ j, valueAt (some u') j = if j = key then none else valueAt (some t) j := by
        intro j
        have hk' : valueAt ((some t).map Tree.erase) key ≠ none := by rwa [valueAt_erase]
        rw [← valueAt_erase (some u'), he, valueAt_remove hw hk' hop, valueAt_erase]
      refine ⟨c', hends, ?_, fun j hj => ?_⟩
      · rw [h'.serves.find h'.wellFormed, hvalue, if_pos rfl]
        rfl
      · rw [h'.serves.find h'.wellFormed, h.serves.find h.wellFormed, hvalue, if_neg hj]
        rfl
  · rw [Op.Ends, if_pos hk] at hends
    exact hends.1

/-- **A safe `remove` deletes exactly its key.** -/
theorem remove_exactly [System] (hwidth : o.pageSize < 2 ^ 32) (hd : Dal.create o = .ok () d)
    (hrun : Runs (SafeAt (Capacity.page o.pageSize)) ⟨d, name, 0⟩ c)
    (hsafe : SafeAt (Capacity.page o.pageSize) c (.remove key)) :
    ∃ t, c.Shows (some t) ∧ RemovesExactly c t key := by
  obtain ⟨t, h⟩ := Session.of_run hwidth hd hrun
  have hremove := hsafe
  obtain ⟨u, hu, -, hop, -⟩ := hsafe
  obtain rfl := hu.unique h.serves.toShows
  cases u with
  | none => exact hop.elim
  | some u => exact ⟨u, hu, removesExactly_of_session h hremove⟩

/-- The last remove rotates an item from the right neighbour of its leaf and merges the leaf
with the left one. -/
theorem remove_exactly_threeLevels : ∃ d c, Dal.create smallNodes = .ok () d ∧
    Runs (SafeAt (Capacity.page 4096)) ⟨d, [], 0⟩ c ∧ c.Shows (some afterThreeLevels) ∧
    SafeAt (Capacity.page 4096) c (.remove [10]) ∧
    ∃ t, c.Shows (some t) ∧ RemovesExactly c t [10] := by
  obtain ⟨d, c, -, hd, htrace, hshows, -, hsafe, -⟩ := exists_threeLevels
  exact ⟨d, c, hd, .of_trace htrace, hshows, hsafe,
    remove_exactly (o := smallNodes) (by decide) hd (.of_trace htrace) hsafe⟩

/-- **A key that is there twice survives its removal.** -/
theorem staleRepair_resurrects : ∃ d c, Dal.create smallNodes = .ok () d ∧
    replay staleRepair ⟨d, [], 0⟩ = some c ∧ ¬∃ t, c.Shows (some t) ∧ RemovesExactly c t [12] := by
  have hshelf : ∃ e ∈ replay staleRepair
      (⟨Dal.begun smallNodes, [], 0⟩ : Collection (Shelf (Capacity.page 4096))),
      (e.root = afterStaleRepair.tag ∧ e.dal.Holds afterStaleRepair) ∧
      ∃ p ∈ (remove [12] e).result?, (find [12] p.2).answer = .ok (some ⟨[12], [12]⟩) := by
    decide +kernel
  obtain ⟨e, he, ⟨hroot, hholds⟩, ⟨⟨⟩, e'⟩, hp, hfind⟩ := hshelf
  obtain ⟨d, c, hd, hrun, hm⟩ := exists_session (o := smallNodes) (by decide) (by decide) he
  obtain ⟨c', hremove, hm'⟩ := (sim_remove [12]).ok hm (Outcome.eq_ok_of_result? hp)
  refine ⟨d, c, hd, hrun, fun ⟨t, ht, hexactly⟩ => ?_⟩
  obtain rfl := Option.some.inj (ht.unique (hm.shows hroot (by decide) hholds))
  obtain ⟨c'', hremove', hnone, -⟩ := hexactly.present (by decide)
  obtain rfl : c' = c'' := by
    rw [hremove] at hremove'
    injection hremove'
  rw [hm'.find hfind] at hnone
  cases hnone

/-! ## Accesses in range -/

/-- **A tidy `remove` accesses no element that is not there**, in every run of tidy calls. -/
theorem remove_in_range [System] (hwidth : o.pageSize < 2 ^ 32) (hd : Dal.create o = .ok () d)
    (hrun : Runs TidyAt ⟨d, name, 0⟩ c) (htidy : TidyAt c (.remove key)) :
    remove key c ≠ .stop .undefined := by
  obtain ⟨t, h, hocc⟩ := exists_occupied hwidth hd hrun
  obtain ⟨c', t', hends, -⟩ := h.step (h.safeAt_of_fitsAt (h.fitsAt_of_tidyAt hocc htidy))
  intro hstop
  have hstate := hends.state?
  rw [Op.run, hstop] at hstate
  cases hstate

/-- The run has splits on two levels, takes a predecessor, merges on two levels and leaves an
empty root behind; the remove rotates and merges. -/
theorem remove_in_range_threeLevels : ∃ d c, Dal.create smallNodes = .ok () d ∧
    Trace (Call TidyAt) ⟨d, [], 0⟩ threeLevels c ∧ remove [10] c ≠ .stop .undefined := by
  have hshelf : ∃ e ∈ replayMeeting tidily threeLevels
      (⟨Dal.begun smallNodes, [], 0⟩ : Collection (Shelf (Capacity.page 4096))),
      e.MeetsOn tidily (removeByte 10) := by decide +kernel
  obtain ⟨e, he, htidy⟩ := hshelf
  obtain ⟨d, c, hd, hrun, hm⟩ := exists_meetingRun (o := smallNodes) (by decide) (by decide) he
  exact ⟨d, c, hd, hrun, remove_in_range (by decide) hd (.of_trace hrun)
    (hm.meetsAt (Q := tidily) htidy.meetsAt)⟩

/-- Two items of five bytes overflow a leaf, and the split moves the second one up. -/
def tinyNodes : Options := ⟨4096, 12 / 4096, 14 / 4096⟩

def emptyLeaf : List Op :=
  [.put [8] [1, 1] ⟨[], []⟩, .put [13] [1] ⟨[], []⟩, .put [9] [1, 1] ⟨[], []⟩]

/-- **A `remove` takes the last item of an empty leaf.** -/
theorem emptyLeaf_out_of_range : ∃ d c, Dal.create tinyNodes = .ok () d ∧
    replay emptyLeaf ⟨d, [], 0⟩ = some c ∧ (find [13] c).answer = .ok (some ⟨[13], [1]⟩) ∧
    remove [13] c = .stop .undefined := by
  have hshelf : ∃ e ∈ replay emptyLeaf
      (⟨Dal.begun tinyNodes, [], 0⟩ : Collection (Shelf (Capacity.page 4096))),
      (find [13] e).answer = .ok (some ⟨[13], [1]⟩) ∧
      (remove [13] e).answer = .error (.inr .undefined) := by decide +kernel
  obtain ⟨e, he, hfind, hstop⟩ := hshelf
  obtain ⟨d, c, hd, hrun, hm⟩ := exists_session (o := tinyNodes) (by decide) (by decide) he
  exact ⟨d, c, hd, hrun, hm.find hfind,
    (sim_remove [13]).undefined hm (Outcome.eq_stop_of_answer hstop)⟩

end Toocal
