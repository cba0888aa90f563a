import Toocal.Tree.Sizes
import Toocal.Core.Node

/-!
# The split index against the thresholds

`get_split_index` serves two questions that ask for other sizes: where an over-populated
node is cut, and whether a sibling can give an item away.

* An over-populated node can be cut with two non-empty halves exactly if the scan passes
  `min_threshold` before its last two items: `splits_iff`.
* A donor stays populated on both sides exactly if what `Node::size` leaves without its
  first and without its last item reaches the threshold: `donorStaysLegal_iff`.

The sizes are those of the source, cut to 32 bits and rounded to a `float`.
-/

namespace Toocal

open Binary32 Pages4096

/-! ## Cutting an over-populated node -/

/-- `get_split_index` has an index into the items; of three items or more both halves
that `split` makes have one. -/
def Splits (o : Options) (items : List Item) : Prop :=
  ∃ s, o.getSplitIndex items = some s ∧ 1 ≤ s ∧ s < items.length ∧
    (3 ≤ items.length → s ≤ items.length - 2 ∧ items.take s ≠ [] ∧ items.drop (s + 1) ≠ [])

/-- How many items the scan may need: all but the last two, and at least one. -/
def splitBound (items : List Item) : Nat := max 1 (items.length - 2)

theorem splits_iff_le {o : Options} {items : List Item} (htwo : 2 ≤ items.length) :
    Splits o items ↔ ∃ s, o.getSplitIndex items = some s ∧ s ≤ splitBound items := by
  constructor
  · rintro ⟨s, hs, hpos, hlt, hthree⟩
    refine ⟨s, hs, ?_⟩
    by_cases h3 : 3 ≤ items.length
    · exact (hthree h3).1.trans (le_max_right _ _)
    · rw [splitBound, le_max_iff]
      omega
  · rintro ⟨s, hs, hle⟩
    obtain ⟨hpos, hlt⟩ := getSplitIndex_lt hs
    refine ⟨s, hs, hpos, hlt, fun h3 => ?_⟩
    have hs2 : s ≤ items.length - 2 := hle.trans (Nat.max_le.mpr ⟨by omega, Nat.le_refl _⟩)
    refine ⟨hs2, List.ne_nil_of_length_pos ?_, List.ne_nil_of_length_pos ?_⟩
    · rw [List.length_take]
      omega
    · rw [List.length_drop]
      omega

/-- **A node of two items or more can be cut exactly if the scan passes `min_threshold`
within `splitBound` items.** -/
theorem splits_iff (o : Options) (items : List Item) (htwo : 2 ≤ items.length) :
    Splits o items ↔ ∃ k, 0 < k ∧ k ≤ splitBound items ∧
      o.minThreshold < nearest (scannedSize items k) := by
  rw [splits_iff_le htwo]
  exact getSplitIndex_le_iff (Nat.max_lt.mpr ⟨by omega, by omega⟩)

/-- An item of the given sizes; only its sizes count here. -/
def sizedItem (keySize valueSize : Nat) : Item :=
  ⟨List.replicate keySize 97, List.replicate valueSize 0⟩

theorem splits_iff_three :
    2 ≤ [sizedItem 40 2, sizedItem 1 0, sizedItem 1 0].length ∧
      Splits BuiltinOptions.balance [sizedItem 40 2, sizedItem 1 0, sizedItem 1 0] :=
  ⟨by decide, (splits_iff _ _ (by decide)).mpr ⟨1, by decide, by decide, by decide +kernel⟩⟩

/-- One byte and 510 bytes: the node is over-populated, and its only scanned item is too
small to cut behind. -/
theorem overPopulated_without_split :
    ¬ ∀ (o : Options) (items : List Item), 0 < o.minThreshold →
      o.minThreshold ≤ o.maxThreshold → o.maxThreshold ≤ o.pageSize → 2 ≤ items.length →
      (∀ a ∈ items, a.key.length ≤ 255 ∧ a.value.length ≤ 255) → o.isOverPopulated items →
      Splits o items := by
  intro h
  have hs := h BuiltinOptions.balance [sizedItem 1 0, sizedItem 255 255] (by decide +kernel)
    (by decide +kernel) (by decide +kernel) (by decide) (by decide +kernel) (by decide +kernel)
  obtain ⟨s, hs, -⟩ := hs
  have hnone : BuiltinOptions.balance.getSplitIndex [sizedItem 1 0, sizedItem 255 255] = none := by
    decide +kernel
  cases hnone.symm.trans hs

/-! ## A donor -/

/-- Neither rotation leaves its donor under-populated, whatever its parent and the node
that takes the item are. -/
def DonorStaysLegal (o : Options) (donor : Node) : Prop :=
  (∀ pnode bnode bnodeIndex donor' pnode' bnode',
    Dal.rotateRight donor pnode bnode bnodeIndex = some (donor', pnode', bnode') →
      ¬ o.isUnderPopulated donor'.items) ∧
  (∀ anode pnode bnodeIndex anode' pnode' donor',
    Dal.rotateLeft anode pnode donor bnodeIndex = some (anode', pnode', donor') →
      ¬ o.isUnderPopulated donor'.items)

/-- `Node::size` after an item of the node is gone. -/
def sizeWithout (items : List Item) (a : Item) : Nat := (nodeSize items + 2 ^ 32 - a.size) % 2 ^ 32

theorem sizeWithout_of_perm {items rest : List Item} {a : Item} (h : items.Perm (a :: rest)) :
    sizeWithout items a = nodeSize rest := by
  have hsum : (items.map Item.size).sum = a.size + (rest.map Item.size).sum :=
    (h.map Item.size).sum_eq.trans List.sum_cons
  have hlt : a.size < 2 ^ 32 := Nat.mod_lt _ (by norm_num)
  rw [sizeWithout, nodeSize_eq, nodeSize_eq, hsum]
  omega

theorem notUnder_iff {o : Options} {rest items : List Item} {a : Item}
    (h : items.Perm (a :: rest)) :
    ¬ o.isUnderPopulated rest ↔ o.minThreshold ≤ nearest (sizeWithout items a) := by
  rw [Options.isUnderPopulated, not_lt, sizeWithout_of_perm h]

theorem rotateRight_donor {donor pnode bnode donor' pnode' bnode' : Node} {i : Nat}
    (h : Dal.rotateRight donor pnode bnode i = some (donor', pnode', bnode')) :
    donor'.items = donor.items.dropLast := by
  simp only [Dal.rotateRight, Option.bind_eq_bind, Option.bind_eq_some_iff, Option.pure_def,
    Option.some.injEq, Prod.mk.injEq] at h
  obtain ⟨_, _, _, _, rfl, _⟩ := h
  rfl

theorem rotateLeft_donor {anode pnode donor anode' pnode' donor' : Node} {i : Nat}
    (h : Dal.rotateLeft anode pnode donor i = some (anode', pnode', donor')) :
    donor'.items = donor.items.tail := by
  simp only [Dal.rotateLeft, Option.bind_eq_bind, Option.bind_eq_some_iff, Option.pure_def,
    Option.some.injEq, Prod.mk.injEq] at h
  obtain ⟨_, _, _, _, _, _, rfl⟩ := h
  rfl

/-- Below a parent with one item both rotations go through, so they ask for both ends. -/
theorem donorStaysLegal_iff_ends {o : Options} {donor : Node} (hne : donor.items ≠ []) :
    DonorStaysLegal o donor ↔ ¬ o.isUnderPopulated donor.items.dropLast ∧
      ¬ o.isUnderPopulated donor.items.tail := by
  constructor
  · intro h
    let pnode : Node := ⟨0, [⟨[], []⟩], []⟩
    obtain ⟨b, hb⟩ := Option.ne_none_iff_exists'.mp (List.getLast?_eq_none_iff.not.mpr hne)
    obtain ⟨a, ha⟩ := Option.ne_none_iff_exists'.mp (List.head?_eq_none_iff.not.mpr hne)
    constructor
    · exact h.1 pnode pnode 0 ⟨donor.pageNum, donor.items.dropLast, donor.children.dropLast⟩ _ _
        (by rw [Dal.rotateRight, hb]; rfl)
    · exact h.2 pnode pnode 0 _ _ ⟨donor.pageNum, donor.items.tail, donor.children.tail⟩
        (by rw [Dal.rotateLeft, ha]; rfl)
  · rintro ⟨hlast, hfirst⟩
    constructor
    · intro _ _ _ _ _ _ h
      rw [rotateRight_donor h]
      exact hlast
    · intro _ _ _ _ _ _ h
      rw [rotateLeft_donor h]
      exact hfirst

/-- **A node that can spare an element stays populated without it exactly if its size
without its first item reaches `min_threshold`, and its size without its last item.** -/
theorem donorStaysLegal_iff (o : Options) (donor : Node)
    (hspare : o.canSpareAnElement donor.items = true) :
    DonorStaysLegal o donor ↔
      ∀ a, (a ∈ donor.items.head? ∨ a ∈ donor.items.getLast?) →
        o.minThreshold ≤ nearest (sizeWithout donor.items a) := by
  obtain ⟨s, hs⟩ := Option.isSome_iff_exists.mp hspare
  have hne : donor.items ≠ [] := by
    have := getSplitIndex_lt hs
    exact List.ne_nil_of_length_pos (by omega)
  rw [donorStaysLegal_iff_ends hne]
  have hfirst : ∀ a ∈ donor.items.head?, ¬ o.isUnderPopulated donor.items.tail ↔
      o.minThreshold ≤ nearest (sizeWithout donor.items a) := by
    intro a ha
    apply notUnder_iff
    rw [List.cons_head?_tail ha]
  have hlast : ∀ b ∈ donor.items.getLast?, ¬ o.isUnderPopulated donor.items.dropLast ↔
      o.minThreshold ≤ nearest (sizeWithout donor.items b) := by
    intro b hb
    apply notUnder_iff
    have hperm := List.perm_append_singleton b donor.items.dropLast
    rwa [List.dropLast_append_getLast? b hb] at hperm
  constructor
  · rintro ⟨hl, hf⟩ a (ha | ha)
    · exact (hfirst a ha).mp hf
    · exact (hlast a ha).mp hl
  · intro h
    obtain ⟨b, hb⟩ := Option.ne_none_iff_exists'.mp (List.getLast?_eq_none_iff.not.mpr hne)
    obtain ⟨a, ha⟩ := Option.ne_none_iff_exists'.mp (List.head?_eq_none_iff.not.mpr hne)
    exact ⟨(hlast b hb).mpr (h b (Or.inr hb)), (hfirst a ha).mpr (h a (Or.inl ha))⟩

/-- Three items of forty bytes: either end can go. -/
theorem donorStaysLegal_three :
    BuiltinOptions.balance.canSpareAnElement (List.replicate 3 (sizedItem 40 0)) = true ∧
      DonorStaysLegal BuiltinOptions.balance ⟨3, List.replicate 3 (sizedItem 40 0), []⟩ :=
  ⟨by decide +kernel, (donorStaysLegal_iff _ ⟨3, List.replicate 3 (sizedItem 40 0), []⟩
    (by decide +kernel)).mpr fun a ha => by
      obtain rfl : sizedItem 40 0 = a := by simpa using ha
      decide +kernel⟩

/-- Five items of two bytes in front of one of 250: the scan counts eight more bytes for
each of the five, but without the last item the node has 21. -/
theorem big_last_item_underPopulated :
    ¬ ∀ (o : Options) (donor : Node), o.canSpareAnElement donor.items = true →
      DonorStaysLegal o donor := by
  intro h
  have hlegal := h BuiltinOptions.balance
    ⟨3, List.replicate 5 (sizedItem 2 0) ++ [sizedItem 250 0], []⟩ (by decide +kernel)
  have hunder : BuiltinOptions.balance.isUnderPopulated
      (List.replicate 5 (sizedItem 2 0) ++ [sizedItem 250 0]).dropLast := by
    decide +kernel
  exact (donorStaysLegal_iff_ends (by simp)).mp hlegal |>.1 hunder

end Toocal
