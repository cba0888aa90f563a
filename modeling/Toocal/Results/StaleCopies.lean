import Toocal.Tree.CurrentCopies
import Toocal.Tree.Replay

/-!
# Copies that are out of date

A call acts on current copies exactly if no two neighbours of its path are both
over-populated (`put`) or both under-populated (`remove`), as far as the loop gets:
`copiesCurrent_iff`.  `staleSplit_not_current` is a run that splits a root from an old copy.
-/

namespace Toocal

open Outcomes Multiway Multiway.Tree Collection Pages4096

namespace Op

/-- The call splits, rotates and merges current copies only. -/
def CopiesCurrent {φ : Type} [PageStore φ] : Op → Collection φ → Prop
  | .put key value pastEnd, c => c.root ≠ 0 → ∀ ancestors indexes c',
      putItem pastEnd ⟨key, value⟩ c = .ok (ancestors, indexes) c' →
      LoopCurrent (splitRound ancestors indexes) (fun o node => o.isOverPopulated node.items)
        (fun o node => o.isOverPopulated node.items) ancestors c'.dal
  | .remove key, c => ∀ ancestors indexes c', removeItem key c = .ok (ancestors, indexes) c' →
      LoopCurrent (rebalanceRound ancestors indexes) (fun o node => o.isUnderPopulated node.items)
        (fun _ node => node.items.isEmpty ∧ ¬node.children.isEmpty) ancestors c'.dal

/-- The same, said of the tree before the call: with the item put in or taken out, no two
neighbours of the path would both be split or both be repaired, as far as the loop gets. -/
def Current (o : Options) : Op → Option Outline → Prop
  | .put key value _, some t => ∀ x ∈ locate (findKeyInNode key) t,
      SplitsCurrent o x.frames (insertAt x.focus.items x.index ⟨key, value⟩)
  | .remove key, some t => ∀ x ∈ locate (findKeyInNode key) t, ∀ p ∈ takeOut x,
      RepairsCurrent o p.1 p.2.items
  | _, none => True

instance (o : Options) (key : Bytes) : ∀ t : Option Outline, Decidable ((Op.remove key).Current o t)
  | some t => inferInstanceAs (Decidable (∀ x ∈ locate (findKeyInNode key) t, ∀ p ∈ takeOut x,
      RepairsCurrent o p.1 p.2.items))
  | none => isTrue trivial

/-- A put of a key that is not there, or a remove of one that is. -/
def Due {π : Type} : Op → Option (Tree π Item) → Prop
  | .put key _ _, t => valueAt t key = none
  | .remove key, t => valueAt t key ≠ none

end Op

/-! ## The two operations -/

section Erase

variable {π : Type} {o : Options}

theorem splitsCurrent_erase (fs : List (Frame π Item)) (its : List Item) :
    SplitsCurrent o (fs.map Frame.erase) its ↔ SplitsCurrent o fs its := by
  constructor
  · rintro h gs hs rfl hsafe hbelow
    rw [← topItems_erase hs]
    exact h (gs.map Frame.erase) (hs.map Frame.erase) List.map_append
      ((splitSafe_erase hs its).mpr hsafe) ((splitBelow_erase hs its).mpr hbelow)
  · intro h gs hs he hsafe hbelow
    obtain ⟨gs', hs', rfl, rfl, rfl⟩ := List.map_eq_append_iff.mp he
    rw [topItems_erase]
    exact h gs' hs' rfl ((splitSafe_erase hs' its).mp hsafe) ((splitBelow_erase hs' its).mp hbelow)

theorem siblinged_erase (fs : List (Frame π Item)) (its : List Item) :
    Siblinged o (fs.map Frame.erase) its ↔ Siblinged o fs its := by
  induction fs with
  | nil => exact Iff.rfl
  | cons f fs ih =>
    rw [List.map_cons, Siblinged, Siblinged, ih, topItems_erase, siblings_erase]
    simp

theorem repairsCurrent_erase (fs : List (Frame π Item)) (its : List Item) :
    RepairsCurrent o (fs.map Frame.erase) its ↔ RepairsCurrent o fs its := by
  constructor
  · rintro h gs f hs rfl hhas hout
    rw [← topItems_erase hs]
    exact h (gs.map Frame.erase) f.erase (hs.map Frame.erase) (by simp)
      ((siblinged_erase hs its).mpr hhas) ((outdated_erase hs its).mpr hout)
  · intro h gs f hs he hhas hout
    obtain ⟨gs', hs', rfl, rfl, he'⟩ := List.map_eq_append_iff.mp he
    obtain ⟨f', hs'', rfl, rfl, rfl⟩ := List.map_eq_cons_iff.mp he'
    rw [topItems_erase]
    exact h gs' f' hs'' rfl ((siblinged_erase hs'' its).mp hhas) ((outdated_erase hs'' its).mp hout)

end Erase

section Calls

variable {c : Collection (Shelf Capacity.unlimited)} {F : Set Nat} {t : PTree} {h : Nat}
  {x : Path Nat Item}

/-- The put of a key that is not there acts on current copies exactly if its loop does on the
frames of the key's path. -/
theorem put_current_iff {key value : Bytes} {pastEnd : Item} (ho : c.dal.Owns F t)
    (hroot : c.root = t.tag) (hu : Uniform h t) (hx : IsPath (findKeyInNode key) t x)
    (hf : x.found = false) :
    (Op.put key value pastEnd).CopiesCurrent c ↔
      SplitsCurrent c.dal.options x.frames (insertAt x.focus.items x.index ⟨key, value⟩) := by
  have hup : Uniform h (plugAll x.frames (place ⟨key, value⟩ x.index x.focus)) := by
    have hup' : Uniform h (plugAll x.frames x.focus) := by rw [hx.eq]; exact hu
    obtain ⟨k, hk, hfocus⟩ := uniform_of_plugAll hup'
    obtain rfl : k = 0 := hfocus.zero_of_children (hx.leaf hf)
    exact uniform_plugAll hup' hk (uniform_place _ x.index hfocus)
  have hx' : IsPath (findKeyInNode (Item.mk key value).key) t x := hx
  obtain ⟨d, hrun, ho', hk, -⟩ := putItem_ok pastEnd ho hroot hx' rfl
  have hloop := splitRounds_current_iff ho' hup
  rw [hk.options] at hloop
  refine Iff.trans ?_ hloop
  constructor
  · exact fun hc => hc (by rw [hroot]; exact ho.tag_ne_zero) _ _ _ hrun
  · intro hl _ ancestors indexes c' hrun'
    rw [hrun] at hrun'
    cases hrun'
    exact hl

/-- The removal of a key that is there acts on current copies exactly if its loop does on the
frames above the leaf that loses an item; where that leaf is empty there is no loop. -/
theorem remove_current_iff {key : Bytes} (ho : c.dal.Owns F t) (hroot : c.root = t.tag)
    (hu : Uniform h t) (hx : IsPath (findKeyInNode key) t x) (hf : x.found = true) :
    (Op.remove key).CopiesCurrent c ↔
      ∀ p ∈ takeOut x, RepairsCurrent c.dal.options p.1 p.2.items := by
  cases hp : takeOut x with
  | none =>
    have hstuck := removeItem_stuck ho hroot hu hx hf hp
    refine ⟨fun _ => by simp, fun _ ancestors indexes c' hrun => ?_⟩
    rw [hstuck] at hrun
    cases hrun
  | some p =>
    obtain ⟨-, hup, hleaf⟩ := takeOut_spec hu hx hf hp
    obtain ⟨d, hrun, ho', hk, -⟩ := removeItem_ok ho hroot hu hx hf hp fun _ _ => rfl
    have hloop := rebalanceRounds_current_iff ho' hup hleaf
    rw [hk.options] at hloop
    simp only [Option.mem_some_iff, forall_eq']
    refine Iff.trans ?_ hloop
    constructor
    · exact fun hc => hc _ _ _ hrun
    · intro hl ancestors indexes c' hrun'
      rw [hrun] at hrun'
      cases hrun'
      exact hl

/-- **A call acts on current copies exactly if** no two neighbours of its path are both
over-populated after the insertion, or both under-populated after the removal. -/
theorem copiesCurrent_iff {t : Option PTree} {op : Op} (hs : c.Stands F t) (hw : WellFormed t)
    (hop : op.Due t) :
    op.CopiesCurrent c ↔ op.Current c.dal.options (t.map Tree.erase) := by
  cases t with
  | none =>
    cases op with
    | put key value pastEnd => exact ⟨fun _ => trivial, fun _ h => (h hs.root).elim⟩
    | remove key => exact (hop rfl).elim
  | some t =>
    obtain ⟨ho, hroot⟩ := stands_some.mp hs
    obtain ⟨⟨h, hu⟩, hsorted⟩ := wellFormed_some.mp hw
    cases op with
    | put key value pastEnd =>
      obtain ⟨x, hx, hpath⟩ := exists_path (Item.mk key value).key hu.regular
      have hf : x.found = false := by
        rw [← Bool.not_eq_true, found_iff hpath hsorted]
        exact fun hne => hne hop
      have hxe : locate (findKeyInNode key) t.erase = some x.erase := by rw [locate_erase, hx]; rfl
      rw [put_current_iff ho hroot hu hpath hf, Option.map_some, Op.Current, hxe]
      simp only [Option.mem_some_iff, forall_eq', Path.erase, items_erase, splitsCurrent_erase]
    | remove key =>
      obtain ⟨x, hx, hpath⟩ := exists_path key hu.regular
      have hf : x.found = true := (found_iff hpath hsorted).mpr hop
      have hxe : locate (findKeyInNode key) t.erase = some x.erase := by rw [locate_erase, hx]; rfl
      rw [remove_current_iff ho hroot hu hpath hf, Option.map_some, Op.Current, hxe]
      cases hp : takeOut x <;>
        simp [takeOut_erase, hp, items_erase, repairsCurrent_erase]

end Calls

/-- Fifteen puts and a remove that merges two leaves. -/
def mergedLeaves : List Op := threeLevels.take 16

/-- In a tree of three levels a remove repairs a node above the leaves, which it has read before
no repair. -/
theorem copiesCurrent_mergedLeaves : ∃ (c : Collection (Shelf Capacity.unlimited))
    (t : Option PTree), c.Stands firstPages t ∧ safeReplay mergedLeaves
      (⟨Dal.begun smallNodes, [], 0⟩ : Collection (Shelf Capacity.unlimited)) = some c ∧
    (Op.remove [1]).CopiesCurrent c := by
  have hshelf : ∃ e ∈ safeReplay mergedLeaves
      (⟨Dal.begun smallNodes, [], 0⟩ : Collection (Shelf Capacity.unlimited)), ∃ t ∈ e.tree?,
      e.dal.options = smallNodes ∧ valueAt t [1] ≠ none ∧
      (Op.remove [1]).Current smallNodes (t.map Tree.erase) := by decide +kernel
  obtain ⟨e, he, t, ht, ho, hdue, hcurrent⟩ := hshelf
  have hstart : (⟨Dal.begun smallNodes, [], 0⟩ : Collection (Shelf Capacity.unlimited)).Stands
      firstPages none := stands_none.mpr ⟨layout_begun, rfl⟩
  obtain ⟨u, hs, hw⟩ := hstart.of_trace wellFormed_none (trace_of_safeReplay he)
  obtain rfl := hs.serves.toShows.unique (shows_of_tree? ht)
  have hpresent : (Op.remove [1]).Due u := hdue
  exact ⟨e, u, hs, he, (copiesCurrent_iff hs hw hpresent).mpr (ho ▸ hcurrent)⟩

/-- **A root is split from the copy that was read before its child was split.** -/
theorem staleSplit_not_current : ∃ d c t, Dal.create thinNodes = .ok () d ∧
    replay fourPuts ⟨d, [], 0⟩ = some c ∧ c.Shows (some t) ∧ WellFormed (some t) ∧
    (putByte 33).Due (some t) ∧ ¬(putByte 33).CopiesCurrent c := by
  have hshelf : ∃ e ∈ replay fourPuts
      (⟨Dal.begun thinNodes, [], 0⟩ : Collection (Shelf (Capacity.page 4096))),
      (e.root = afterFourPuts.tag ∧ e.dal.Holds afterFourPuts) ∧
      ∃ p ∈ (putItem ⟨[], []⟩ ⟨[33], [33]⟩ e).result?,
      ∃ q ∈ (Prog.forEach (splitRound p.1.1 p.1.2) (rounds p.1.1) p.2.dal).result?,
      ∃ node ∈ p.1.1[0]?, q.2.options.isOverPopulated node.items ∧
      ∃ r ∈ (Dal.getNode node.pageNum q.2).result?, r.1 ≠ node := by decide +kernel
  obtain ⟨e, he, ⟨hroot, hholds⟩, ⟨⟨ancestors, indexes⟩, e₁⟩, hput, ⟨⟨⟩, q⟩, hloop, node, hnode,
    hover, ⟨stored, q'⟩, hget, hne⟩ := hshelf
  obtain ⟨d, c, hd, hrun, hm⟩ := exists_session (o := thinNodes) (by decide) (by decide) he
  obtain ⟨c₁, hput', hm₁⟩ := (sim_putItem _ _).ok hm (Outcome.eq_ok_of_result? hput)
  obtain ⟨d₂, hloop', hm₂⟩ := (Sim.forEach (sim_splitRound ancestors indexes) _).ok hm₁.dal
    (Outcome.eq_ok_of_result? hloop)
  obtain ⟨d₃, hget', -⟩ := (Dal.sim_getNode _).ok hm₂ (Outcome.eq_ok_of_result? hget)
  have hdue : valueAt (some afterFourPuts) [33] = none := by decide
  refine ⟨d, c, afterFourPuts, hd, hrun, hm.shows hroot (by decide) hholds, wellFormed_afterFourPuts,
    hdue, fun hc => ?_⟩
  have hc0 : c.root ≠ 0 := by rw [hm.root, hroot]; decide
  have hcur : d₂.Current node := (hc hc0 ancestors indexes c₁ hput').root d₂ hloop' node hnode
    (by rw [hm₂.options]; exact hover)
  rw [Dal.Current, hget'] at hcur
  injection hcur with hsame
  exact hne hsame

end Toocal
