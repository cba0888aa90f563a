import Mathlib.Data.Rat.Floor
import Toocal.Store.PageCodec
import Toocal.Tree.Sizes

/-!
# The fill test and the bytes on a page

`is_over_populated` is there to say when a node is "bigger than the size of a page".
`Node::size` counts 11 bytes and the keys and values; the serializer adds to each item its
slot and two length bytes, and in an inner node the page number of a child.

* `fillTestFits_iff`: which item counts the fill test keeps within the page.  What counts
  is the largest total of keys and values that passes the test, `largestFill`.
* `largestFill_eq`: for a few thousand items that is a minimum.
-/

namespace Toocal

open Binary32 Pages4096

/-- The bytes a node takes up: its header, and for each item its slot and its cell. -/
def Node.bytesNeeded (n : Node) : Nat :=
  if n.isLeaf then 3 + (n.items.map fun a => a.key.length + a.value.length + 4).sum
  else 11 + (n.items.map fun a => a.key.length + a.value.length + 12).sum

/-- The slot of an item and its two length bytes, with the child in front of it. -/
def slotBytes (isLeaf : Bool) : Nat := if isLeaf then 4 else 12

theorem bytesNeeded_add (n : Node) (hshort : ∀ a ∈ n.items, a.Short) :
    n.bytesNeeded + 1 = (n.items.map Item.size).sum + slotBytes n.isLeaf * n.items.length +
      slotBytes n.isLeaf := by
  have hmap : n.items.map Item.size = n.items.map fun a => a.key.length + a.value.length :=
    List.map_congr_left fun a ha => (hshort a ha).size
  rw [hmap]
  cases hleaf : n.isLeaf with
  | true =>
    rw [Node.bytesNeeded, if_pos hleaf, sum_map_add_const]
    simp only [slotBytes, if_pos]
    omega
  | false =>
    rw [Node.bytesNeeded, if_neg (by simp [hleaf]), sum_map_add_const]
    simp only [slotBytes, Bool.false_eq_true, if_false]
    omega

/-! ## The largest fill that passes the test -/

/-- Items with keys and values of `total` bytes in all, or of as many as they can have. -/
def spread : Nat → Nat → List Item
  | 0, _ => []
  | count + 1, total =>
    ⟨List.replicate (min total 255) 0, List.replicate (min (total - 255) 255) 0⟩ ::
      spread count (total - 510)

theorem length_spread : ∀ count total, (spread count total).length = count
  | 0, _ => rfl
  | count + 1, total => congrArg Nat.succ (length_spread count (total - 510))

theorem short_spread : ∀ (count total : Nat), ∀ a ∈ spread count total, a.Short
  | count + 1, total, a, ha => by
    rcases List.mem_cons.mp ha with rfl | ha
    · simp [Item.Short]
    · exact short_spread count (total - 510) a ha

theorem sum_spread : ∀ count total,
    ((spread count total).map Item.size).sum = min (510 * count) total
  | 0, total => by simp [spread]
  | count + 1, total => by
    have hmod : min total 255 + min (total - 255) 255 < 2 ^ 32 := by omega
    simp only [spread, List.map_cons, List.sum_cons, sum_spread, Item.size, List.length_replicate,
      Nat.mod_eq_of_lt hmod]
    omega

/-- A node with keys and values of `total` bytes in all is not over-populated. -/
def PassesFill (o : Options) (total : Nat) : Prop :=
  nearest ((11 + total) % 2 ^ 32 : Nat) ≤ o.maxThreshold

instance (o : Options) (total : Nat) : Decidable (PassesFill o total) :=
  inferInstanceAs (Decidable (_ ≤ _))

theorem notOver_iff {o : Options} {items : List Item} :
    ¬o.isOverPopulated items ↔ PassesFill o (items.map Item.size).sum := by
  rw [Options.isOverPopulated, not_lt, nodeSize_eq, PassesFill]

/-- The most bytes the keys and values of a node with that many items can have without
its being over-populated. -/
def largestFill (o : Options) (count : Nat) : Nat := Nat.findGreatest (PassesFill o) (510 * count)

/-- Where no sum is cut or rounded, the largest fill is what the threshold leaves. -/
theorem largestFill_eq {o : Options} {count : Nat} (hcount : 11 + 510 * count ≤ 2 ^ 24)
    (h11 : 11 ≤ o.maxThreshold) :
    largestFill o count = min (510 * count) (⌊o.maxThreshold⌋₊ - 11) := by
  have hfloor : 11 ≤ ⌊o.maxThreshold⌋₊ := Nat.le_floor (by exact_mod_cast h11)
  have hpass : ∀ total, total ≤ 510 * count →
      (PassesFill o total ↔ total ≤ ⌊o.maxThreshold⌋₊ - 11) := by
    intro total htotal
    rw [PassesFill, Nat.mod_eq_of_lt (by omega), nearest_natCast (by omega),
      ← Nat.le_floor_iff (le_trans (by norm_num) h11)]
    omega
  refine Nat.findGreatest_eq_iff.mpr ⟨min_le_left _ _, fun _ => ?_, fun total hlt hle => ?_⟩
  · exact (hpass _ (min_le_left _ _)).mpr (min_le_right _ _)
  · rw [hpass _ hle]
    omega

/-- Every node of a kind and an item count that passes the fill test leaves the last byte
of the page free. -/
def FillTestFits (o : Options) (isLeaf : Bool) (count : Nat) : Prop :=
  ∀ n : Node, n.isLeaf = isLeaf → Counted n.items.length n.children.length →
    n.items.length = count → (∀ a ∈ n.items, a.Short) → ¬o.isOverPopulated n.items →
    n.bytesNeeded ≤ o.pageSize - 1

/-- A node of the kind with the fullest items. -/
def fullest (isLeaf : Bool) (count total : Nat) : Node :=
  ⟨0, spread count total, if isLeaf then [] else List.replicate (count + 1) 0⟩

theorem isLeaf_fullest (isLeaf : Bool) (count total : Nat) :
    (fullest isLeaf count total).isLeaf = isLeaf := by cases isLeaf <;> rfl

theorem counted_fullest (isLeaf : Bool) (count total : Nat) :
    Counted (fullest isLeaf count total).items.length (fullest isLeaf count total).children.length := by
  cases isLeaf with
  | true => exact Or.inl rfl
  | false => right; simp [fullest, length_spread]

/-- **The fill test bounds the bytes of a node exactly if the largest fill that passes it,
with the slots of the items, still fits.** -/
theorem fillTestFits_iff (o : Options) (isLeaf : Bool) (count : Nat) :
    FillTestFits o isLeaf count ↔ PassesFill o (largestFill o count) →
      largestFill o count + slotBytes isLeaf * count + slotBytes isLeaf ≤ o.pageSize := by
  have hslot : 4 ≤ slotBytes isLeaf := by cases isLeaf <;> decide
  constructor
  · intro h hpasses
    let n := fullest isLeaf count (largestFill o count)
    have hshort : ∀ a ∈ n.items, a.Short := short_spread _ _
    have hsum : (n.items.map Item.size).sum = largestFill o count :=
      (sum_spread count _).trans (min_eq_right (Nat.findGreatest_le _))
    have hpass : ¬o.isOverPopulated n.items := notOver_iff.mpr (hsum.symm ▸ hpasses)
    have hfit := h n (isLeaf_fullest _ _ _) (counted_fullest _ _ _) (length_spread _ _) hshort hpass
    have hadd := bytesNeeded_add n hshort
    rw [hsum, isLeaf_fullest, show n.items.length = count from length_spread _ _] at hadd
    omega
  · intro h n hleaf _ hlen hshort hpass
    have hpasses := notOver_iff.mp hpass
    have hbound : (n.items.map Item.size).sum ≤ 510 * count := hlen ▸ sum_size_le_of_short hshort
    have hle : (n.items.map Item.size).sum ≤ largestFill o count :=
      Nat.le_findGreatest hbound hpasses
    have hroom := h (Nat.findGreatest_spec hbound hpasses)
    have hadd := bytesNeeded_add n hshort
    rw [hleaf, hlen] at hadd
    omega

/-- Keys of two bytes, in their order, with empty values. -/
def shortKeys (count : Nat) : List Item :=
  (List.range count).map fun k => ⟨[UInt8.ofNat (k / 256), UInt8.ofNat k], []⟩

theorem short_shortKeys (count : Nat) : ∀ a ∈ shortKeys count, a.Short := by
  intro a ha
  obtain ⟨k, -, rfl⟩ := List.mem_map.mp ha
  simp [Item.Short]

theorem sum_shortKeys (count : Nat) : ((shortKeys count).map Item.size).sum = count * 2 := by
  simp [shortKeys, Function.comp_def, Item.size]

theorem bytesNeeded_shortKeys (page count : Nat) :
    (⟨page, shortKeys count, []⟩ : Node).bytesNeeded = 3 + (count * 2 + 4 * count) := by
  have hadd := bytesNeeded_add ⟨page, shortKeys count, []⟩ (short_shortKeys count)
  have hlen : (shortKeys count).length = count := by simp [shortKeys]
  have hleaf : (⟨page, shortKeys count, []⟩ : Node).isLeaf = true := rfl
  rw [hleaf, sum_shortKeys, hlen, slotBytes, if_pos rfl] at hadd
  omega

/-- 1530 such keys pass the test of the options for the smallest file, and need 9183 bytes. -/
theorem fillTest_misses_slots :
    ¬ ∀ (o : Options) (n : Node), o.maxFillPercent ≤ 1 →
      Counted n.items.length n.children.length → (∀ a ∈ n.items, a.Short) →
      ¬o.isOverPopulated n.items → n.bytesNeeded ≤ o.pageSize - 1 := by
  intro h
  have hpass : ¬BuiltinOptions.bestFileSize.isOverPopulated (shortKeys 1530) := by
    rw [notOver_iff, sum_shortKeys]
    decide +kernel
  have hfit : ∀ count, ¬BuiltinOptions.bestFileSize.isOverPopulated (shortKeys count) →
      3 + (count * 2 + 4 * count) ≤ 4096 - 1 := fun count hpass =>
    bytesNeeded_shortKeys 3 count ▸ h BuiltinOptions.bestFileSize ⟨3, shortKeys count, []⟩
      (by decide +kernel) (Or.inl rfl) (short_shortKeys count) hpass
  exact absurd (hfit 1530 hpass) (by decide)

end Toocal
