import Toocal.Tree.Stored
import Toocal.Tree.Replay

/-!
# The upper bound after a put

`Node::split` hands an item to the parent, and the doc of it says that the parent has to be
checked in turn.  The loop of `put` checks the parent as it was read before the split, so a
parent that has become over-populated stays so: `noneOver_iff` says when, and
`overPopulated_root` is a run on the database file.
-/

namespace Toocal

open Outcomes Multiway Multiway.Tree Collection Pages4096

variable {π : Type}

/-- No node is over-populated, be it a leaf, an inner node or the root. -/
def NoneOver (o : Options) (t : Option (Tree π Item)) : Prop :=
  ∀ u ∈ t, u.Each (¬o.isOverPopulated ·)

instance (o : Options) (t : Option (Tree π Item)) : Decidable (NoneOver o t) :=
  inferInstanceAs (Decidable (∀ u ∈ t, u.Each (¬o.isOverPopulated ·)))

/-- The leaf of the item is over-populated with it, and the parent of the leaf with one item
more of its size. -/
def OverfillsParent (o : Options) (item : Item) (t : Option (Tree π Item)) : Prop :=
  ∃ u ∈ t, ∃ x ∈ locate (findKeyInNode item.key) u, ∃ f ∈ x.frames.getLast?,
    o.isOverPopulated (insertAt x.focus.items x.index item) ∧ o.isOverPopulated (item :: f.items)

/-- A page has room for the leaf with the item, and for its parent with the item that moves up
if the leaf is split; and there are numbers for the next pages. -/
def HasRoomToPut [System] (c : Collection File) (item : Item) (t : Option PTree) : Prop :=
  t.elim (PageRoom [item] 0)
      (RoomToPut (Capacity.page c.dal.options.pageSize) c.dal.options item) ∧
    (Op.put item.key item.value item).Numbers (Capacity.page c.dal.options.pageSize)
      c.dal.freelist.maxPage t

/-- `put` returns, and no node of the tree it leaves is over-populated. -/
def PutsWithin [System] (c : Collection File) (F : Set Nat) (pastEnd item : Item) : Prop :=
  ∃ c' t', put pastEnd item.key item.value c = .ok () c' ∧ c'.Stored F t' ∧
    NoneOver c.dal.options t'

section Put

variable {o : Options} {s : Nat} {item : Item} {t : Option (Tree π Item)}

theorem noneOver_erase : NoneOver o (t.map Tree.erase) ↔ NoneOver o t := by
  cases t with
  | none => simp [NoneOver]
  | some u =>
    have he : u.erase.Each (¬o.isOverPopulated ·) ↔ u.Each (¬o.isOverPopulated ·) := each_erase
    simpa [NoneOver] using he

theorem overfillsParent_iff {u : Tree π Item} {x : Path π Item}
    (hx : locate (findKeyInNode item.key) u = some x) : OverfillsParent o item (some u) ↔
      ∃ f ∈ x.frames.getLast?, o.isOverPopulated (insertAt x.focus.items x.index item) ∧
        o.isOverPopulated (item :: f.items) := by
  constructor
  · rintro ⟨v, hv, y, hy, hf⟩
    obtain rfl := Option.some.inj hv
    obtain rfl := Option.some.inj (hx.symm.trans hy)
    exact hf
  · exact fun hf => ⟨u, rfl, x, hx, hf⟩

theorem noneOver_outline_iff (hcut : Cuttable o s) (hw : WellFormed t)
    (hsize : Sized s (contents t)) (hfull : NoneOver o t) (hnarrow : ∀ u ∈ t, u.Each Narrow)
    (hitem : item.OfSize s)
    (habsent : valueAt t item.key = none) (pastEnd : Item) :
    NoneOver o ((Op.put item.key item.value pastEnd).outline o (t.map Tree.erase)) ↔
      ¬OverfillsParent o item t := by
  cases t with
  | none =>
    have hone : ¬o.isOverPopulated [item] := hcut.not_over
      (fun a ha => by rw [List.mem_singleton.mp ha]; exact hitem) (Nat.le_refl _)
    refine iff_of_true (fun u hu => ?_) (fun ⟨u, hu, _⟩ => by cases hu)
    obtain rfl := Option.some.inj hu
    exact each_node.mpr ⟨hone, by simp⟩
  | some u =>
    obtain ⟨⟨h, hu⟩, hsorted⟩ := wellFormed_some.mp hw
    obtain ⟨x, hx, hpath⟩ := exists_path item.key hu.regular
    have hxe : locate (findKeyInNode item.key) u.erase = some x.erase := by
      rw [locate_erase, hx]; rfl
    obtain ⟨y, hy, hpathe⟩ := exists_path item.key hu.erase.regular
    obtain rfl := Option.some.inj (hxe.symm.trans hy)
    have hf : x.erase.found = false := by
      rw [← Bool.not_eq_true, found_iff hpathe (by rw [inorder_erase]; exact hsorted),
        inorder_erase]
      exact fun hne => hne habsent
    have hiff := each_putOutline_iff hcut (by rw [inorder_erase]; exact hsize)
      (each_erase.mpr (hfull u rfl)) (each_erase.mpr (hnarrow u rfl)) hitem hxe hpathe hf
    rw [overfillsParent_iff hx]
    refine Iff.trans ?_ (hiff.trans (not_congr ?_))
    · simp [NoneOver, Op.outline]
    · simp [Path.erase, List.getLast?_map]

theorem roomToPut_erase {cap : Capacity} {u : Tree π Item} (h : RoomToPut cap o item u) :
    RoomToPut cap o item u.erase := by
  intro y hy
  rw [locate_erase] at hy
  obtain ⟨x, hx, rfl⟩ := Option.map_eq_some_iff.mp hy
  obtain ⟨hleaf, hparent⟩ := h x hx
  refine ⟨by simpa [Path.erase] using hleaf, fun hover f hf m hm => ?_⟩
  simp only [Path.erase, List.getLast?_map] at hf
  obtain ⟨g, hg, rfl⟩ := Option.map_eq_some_iff.mp hf
  simp only [Path.erase, items_erase] at hover hm
  have hroom := hparent hover g hg m hm
  have hleft : g.erase.left.length = g.left.length := by simp [Frame.erase]
  rwa [Frame.items_erase, hleft]

end Put

section File

variable [System] {c : Collection File} {F : Set Nat} {t : Option PTree} {s : Nat} {item : Item}

theorem putSafe_of_room (hcut : Cuttable c.dal.options s) (hs : c.Stored F t) (hw : WellFormed t)
    (hsize : Sized s (contents t)) (hfull : NoneOver c.dal.options t) (hitem : item.OfSize s)
    (hroom : HasRoomToPut c item t) (pastEnd : Item) :
    (Op.put item.key item.value pastEnd).Safe (Capacity.page c.dal.options.pageSize) c.dal.options
      (t.map Tree.erase) := by
  obtain ⟨hroom, -⟩ := hroom
  cases t with
  | none => exact room_page.mpr hroom
  | some u =>
    obtain ⟨⟨h, hu⟩, -⟩ := wellFormed_some.mp hw
    exact putSafe_of_cuttable hcut hu.erase (by rw [inorder_erase]; exact hsize) hitem
      (each_erase.mpr (hfull u rfl)) (each_erase.mpr (hs.stores u rfl).narrow)
      (roomToPut_erase hroom)

theorem short_of_room (hw : WellFormed t) (hroom : HasRoomToPut c item t) :
    item.Short := by
  obtain ⟨hroom, -⟩ := hroom
  cases t with
  | none => exact hroom.2.1 item List.mem_cons_self
  | some u =>
    obtain ⟨⟨h, hu⟩, -⟩ := wellFormed_some.mp hw
    obtain ⟨x, hx, hpath⟩ := exists_path item.key hu.regular
    exact (room_page.mp (hroom x hx).1).2.1 item (mem_insertAt.mpr (.inl rfl))

/-- **After a put of an item of the common size no node is over-populated**, where the item has
room, unless its leaf is split under a parent that is over-populated with one item more. -/
theorem noneOver_iff (pastEnd : Item) (hcut : Cuttable c.dal.options s) (hs : c.Stored F t)
    (hw : WellFormed t) (hsize : Sized s (contents t)) (hfull : NoneOver c.dal.options t)
    (hitem : item.size = s) (habsent : valueAt t item.key = none) :
    (HasRoomToPut c item t ∧ ¬OverfillsParent c.dal.options item t → PutsWithin c F pastEnd item) ∧
    (HasRoomToPut c item t → OverfillsParent c.dal.options item t →
      ¬PutsWithin c F pastEnd item) := by
  have hiff : HasRoomToPut c item t →
      (PutsWithin c F pastEnd item ↔ ¬OverfillsParent c.dal.options item t) := by
    intro hroom
    have hitem' : item.OfSize s := ⟨hitem, short_of_room hw hroom⟩
    have hnumbers : (Op.put item.key item.value pastEnd).Numbers
        (Capacity.page c.dal.options.pageSize) c.dal.freelist.maxPage t := by
      cases t <;> exact hroom.2
    obtain ⟨c', t', hends, hs', he⟩ := hs.run_ok hw (show (Op.put item.key item.value pastEnd).Fresh t from habsent)
      (putSafe_of_room hcut hs hw hsize hfull hitem' hroom pastEnd) hnumbers
    rw [← noneOver_outline_iff hcut hw hsize hfull (fun u hu => (hs.stores u hu).narrow) hitem'
      habsent pastEnd, ← he, noneOver_erase]
    constructor
    · rintro ⟨c'', t'', hput, hs'', hnone⟩
      obtain ⟨-, rfl⟩ := Outcome.ok.inj (hput.symm.trans hends)
      exact hs''.shows.unique hs'.shows ▸ hnone
    · exact fun hnone => ⟨c', t', hends, hs', hnone⟩
  exact ⟨fun ⟨hroom, hnot⟩ => (hiff hroom).mpr hnot, fun hroom hover hputs =>
    (hiff hroom).mp hputs hover⟩

end File

/-- A node of items of one byte is over-populated from three items on, and one of items of two
bytes from two on; both can be cut. -/
theorem cuttable_thinNodes {s : Nat} (hs : s ≤ 2) : Cuttable thinNodes s := fun its hsize _ hover => by
  refine exists_splitIndex (by decide +kernel) (by decide +kernel) (fun a ha => (hsize a ha).2)
    (fun a ha => ?_) hover
  have htwo : (2 : ℚ) ≤ thinNodes.maxThreshold - thinNodes.minThreshold - 8 := by decide +kernel
  have hle : (a.size : ℚ) ≤ 2 := by exact_mod_cast (hsize a ha).1 ▸ hs
  exact hle.trans htwo

/-- The put of the third item splits a leaf, and its parent takes in a second one. -/
theorem noneOver_iff_pair : ∃ c : Collection File,
    c.Stored {q | q ≤ 2} (some (pairOf [⟨[1], []⟩, ⟨[2], []⟩] [⟨[9], []⟩])) ∧
      PutsWithin c {q | q ≤ 2} ⟨[], []⟩ ⟨[3], []⟩ := by
  obtain ⟨c, ho, hfl, hs⟩ := exists_stored (o := thinNodes) 5 (by decide) (by decide)
    (pairOf [⟨[1], []⟩, ⟨[2], []⟩] [⟨[9], []⟩]) (by decide) (by decide) (by decide) (by decide +kernel)
  refine ⟨c, hs, (noneOver_iff (s := 1) ⟨[], []⟩ (ho ▸ cuttable_thinNodes (by decide)) hs
    (wellFormed_pairOf (by decide)) (by decide) (ho ▸ by decide +kernel) rfl (by decide)).1 ?_⟩
  have hroom : RoomToPut (Capacity.page thinNodes.pageSize) thinNodes ⟨[3], []⟩
      (pairOf [⟨[1], []⟩, ⟨[2], []⟩] [⟨[9], []⟩]) := by decide +kernel
  refine ⟨⟨ho ▸ hroom, fun x hx => ?_⟩, fun hover => ?_⟩
  · obtain rfl := Option.some.inj hx
    rw [hfl, ho]
    decide +kernel
  · rw [ho, overfillsParent_iff rfl] at hover
    revert hover
    decide +kernel

/-! ## A root that stays over-populated -/

/-- Three puts build a root with one item over two leaves with one item each. -/
def threePuts : List Op := [10, 20, 30].map putByte

def afterThreePuts : PTree := .node 4 ([20].map fun k => ⟨[k], [k]⟩) [leafOf 3 [10], leafOf 5 [30]]

/-- **The put of 35 splits its leaf and leaves the root over-populated.** -/
theorem overPopulated_root : Cuttable thinNodes 2 ∧ WellFormed (some afterThreePuts) ∧
    Sized 2 (contents (some afterThreePuts)) ∧ NoneOver thinNodes (some afterThreePuts) ∧
    ∃ d c c', Dal.create thinNodes = .ok () d ∧ replay threePuts ⟨d, [], 0⟩ = some c ∧
      c.Shows (some afterThreePuts) ∧ put ⟨[], []⟩ [35] [35] c = .ok () c' ∧
      c'.Shows (some afterFourPuts) ∧ ¬NoneOver thinNodes (some afterFourPuts) := by
  have hw : WellFormed (some afterThreePuts) :=
    wellFormed_overLeaves rfl (by decide) (by decide)
  obtain ⟨d, c, c', hd, hrun, hshows, hput, hshows', -⟩ := exists_step thinNodes [] threePuts
    (putByte 35) afterThreePuts afterFourPuts ⟨6, []⟩ (by decide) (by decide) (by decide) (by decide)
    (by decide +kernel)
  exact ⟨cuttable_thinNodes (by decide), hw, by decide, by decide +kernel, d, c, c', hd, hrun, hshows, hput,
    hshows', by decide +kernel⟩

end Toocal
