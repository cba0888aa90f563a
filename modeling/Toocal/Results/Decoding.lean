import Toocal.Results.KeyOrder
import Toocal.Store.Mirror

/-!
# The page decoder on arbitrary bytes

`deserialize` checks nothing: the count, the offsets and the sizes it reads from a page
decide where it reads next.  All of its reads lie inside the page if and only if the page is
`Framed` (`deserialize_isSome_iff`), which can be checked on the bytes alone.  The pages
`serialize` makes are (`framed_of_serialize`); a damaged one need not be
(`not_decodes_damaged`).
-/

namespace Toocal

open Outcomes Buffers

namespace NodeSerializer

/-! ## What a page must look like -/

/-- The number in `n` bytes of a page. -/
def numberAt (buffer : Bytes) (pos n : Nat) : Nat := ofLE ((buffer.drop pos).take n)

/-- The size in the byte at an offset. -/
def sizeAt (buffer : Bytes) (offset : Nat) : Nat := (buffer.getD offset 0).toNat

/-- The offset behind a sized piece, of 16 bits. -/
def behind (buffer : Bytes) (offset : Nat) : Nat :=
  ((offset + 1) % 2 ^ 16 + sizeAt buffer offset) % 2 ^ 16

/-- A byte with a size, and as many bytes behind it, inside the page. -/
def SizedInside (buffer : Bytes) (offset : Nat) : Prop :=
  offset < buffer.length ∧ (offset + 1) % 2 ^ 16 + sizeAt buffer offset ≤ buffer.length

/-- A key and the value behind it. -/
def CellInside (buffer : Bytes) (offset : Nat) : Prop :=
  SizedInside buffer offset ∧ SizedInside buffer (behind buffer offset)

/-- The slots from `left` on, and the cells their offsets name. -/
def SlotsInside (isLeaf : Bool) (buffer : Bytes) (count left : Nat) : Prop :=
  left + slotSize isLeaf * count ≤ buffer.length ∧
    ∀ i < count,
      CellInside buffer (numberAt buffer (offsetAt isLeaf (left + slotSize isLeaf * i)) 2)

/-- The header, the slots and cells it counts, and the last child of an inner node. -/
def Framed (buffer : Bytes) : Prop :=
  let isLeaf : Bool := buffer.getD 0 0 ≠ 0
  let count := numberAt buffer 1 2
  headerSize ≤ buffer.length ∧ SlotsInside isLeaf buffer count headerSize ∧
    (isLeaf = false → headerSize + slotSize isLeaf * count + pageNumSize ≤ buffer.length)

instance (buffer : Bytes) (offset : Nat) : Decidable (SizedInside buffer offset) :=
  inferInstanceAs (Decidable (_ ∧ _))

instance (buffer : Bytes) (offset : Nat) : Decidable (CellInside buffer offset) :=
  inferInstanceAs (Decidable (_ ∧ _))

instance (isLeaf : Bool) (buffer : Bytes) (count left : Nat) :
    Decidable (SlotsInside isLeaf buffer count left) :=
  inferInstanceAs (Decidable (_ ∧ _))

instance (buffer : Bytes) : Decidable (Framed buffer) := inferInstanceAs (Decidable (_ ∧ _ ∧ _))

section Steps

variable {isLeaf : Bool} {buffer : Bytes} {offset left count : Nat}

/-! ## Each read -/

theorem sizeAt_eq {size : UInt8} (h : buffer[offset]? = some size) :
    sizeAt buffer offset = size.toNat := by
  rw [sizeAt, List.getD_eq_getElem?_getD, h, Option.getD_some]

theorem exists_readSized_iff {next : Nat} : (∃ data, readSized buffer offset = some (data, next)) ↔
    SizedInside buffer offset ∧ next = behind buffer offset := by
  unfold readSized SizedInside behind
  cases hsize : buffer[offset]? with
  | none =>
    have hout : buffer.length ≤ offset := List.getElem?_eq_none_iff.mp hsize
    simp only [Option.bind_eq_bind, Option.bind_none, reduceCtorEq, exists_false, false_iff]
    omega
  | some size =>
    have hin : offset < buffer.length := (List.getElem?_eq_some_iff.mp hsize).1
    simp only [Option.bind_eq_bind, Option.bind_some, Option.bind_eq_some_iff, read_eq_some_iff,
      sizeAt_eq hsize, hin, true_and, Option.some.injEq, Prod.mk.injEq]
    constructor
    · rintro ⟨data, bytes, ⟨hle, -⟩, -, rfl⟩
      exact ⟨hle, rfl⟩
    · rintro ⟨hle, rfl⟩
      exact ⟨_, _, ⟨hle, rfl⟩, rfl, rfl⟩

theorem exists_readChild_iff {next : Nat} :
    (∃ child, readChild isLeaf buffer left = some (child, next)) ↔
      (isLeaf = false → left + pageNumSize ≤ buffer.length) ∧ next = offsetAt isLeaf left := by
  cases isLeaf with
  | true => simp [readChild, offsetAt, eq_comm]
  | false =>
    simp only [readChild, Bool.false_eq_true, if_false, Option.bind_eq_bind,
      Option.bind_eq_some_iff, read_eq_some_iff, Option.some.injEq, Prod.mk.injEq, offsetAt,
      pageNumSize, forall_const]
    constructor
    · rintro ⟨child, bytes, ⟨hle, -⟩, -, rfl⟩
      exact ⟨hle, rfl⟩
    · rintro ⟨hle, rfl⟩
      exact ⟨_, _, ⟨hle, rfl⟩, rfl, rfl⟩

theorem slots_succ (isLeaf : Bool) (left count : Nat) : left + slotSize isLeaf * (count + 1) =
    left + slotSize isLeaf + slotSize isLeaf * count := by
  rw [Nat.mul_succ]
  omega

theorem slotsInside_succ_iff : SlotsInside isLeaf buffer (count + 1) left ↔
    CellInside buffer (numberAt buffer (offsetAt isLeaf left) 2) ∧
      SlotsInside isLeaf buffer count (left + slotSize isLeaf) := by
  unfold SlotsInside
  simp only [Nat.forall_lt_succ_left, slots_succ, Nat.mul_zero, Nat.add_zero]
  exact and_left_comm

/-- **The loop**: all of its reads lie inside if all slots and their cells do. -/
theorem exists_readItems_iff {next : Nat} (hleft : left ≤ buffer.length) :
    (∃ items children, readItems isLeaf buffer count left = some (items, children, next)) ↔
      SlotsInside isLeaf buffer count left ∧ next = left + slotSize isLeaf * count := by
  induction count generalizing left with
  | zero => simp [readItems, SlotsInside, hleft, eq_comm]
  | succ count ih =>
    rw [slotsInside_succ_iff, slots_succ, and_assoc]
    simp only [readItems_succ_iff]
    constructor
    · rintro ⟨items, children, child, bytes, key, offset, value, after, items', children', -, hbytes,
        hkey, hvalue, hrest, -, -⟩
      obtain ⟨hle, rfl⟩ := read_eq_some_iff.mp hbytes
      obtain ⟨hkeyIn, rfl⟩ := exists_readSized_iff.mp ⟨key, hkey⟩
      obtain ⟨hvalueIn, -⟩ := exists_readSized_iff.mp ⟨value, hvalue⟩
      rw [offsetAt_add_two] at hle
      exact ⟨⟨hkeyIn, hvalueIn⟩, (ih hle).mp ⟨items', children', hrest⟩⟩
    · rintro ⟨⟨hkeyIn, hvalueIn⟩, hrest, rfl⟩
      have hle : left + slotSize isLeaf ≤ buffer.length := Nat.le_trans (Nat.le_add_right _ _) hrest.1
      obtain ⟨items', children', hitems⟩ := (ih hle).mpr ⟨hrest, rfl⟩
      have hchildIn : isLeaf = false → left + pageNumSize ≤ buffer.length := by
        rintro rfl
        exact Nat.le_trans (Nat.add_le_add_left (by decide) left) hle
      obtain ⟨child, hchild⟩ := exists_readChild_iff.mpr ⟨hchildIn, rfl⟩
      obtain ⟨key, hkey⟩ := exists_readSized_iff.mpr ⟨hkeyIn, rfl⟩
      obtain ⟨value, hvalue⟩ := exists_readSized_iff.mpr ⟨hvalueIn, rfl⟩
      rw [← offsetAt_add_two] at hle
      exact ⟨_, _, child, _, key, _, value, _, items', children', hchild,
        read_eq_some_iff.mpr ⟨hle, rfl⟩, hkey, hvalue, hitems, rfl, rfl⟩

end Steps

/-! ## The whole page -/

/-- **The decoder stays inside exactly the framed pages.** -/
theorem exists_deserialize_iff (buffer : Bytes) :
    (∃ c, deserialize buffer = some c) ↔ Framed buffer := by
  unfold deserialize Framed
  cases hflag : buffer[0]? with
  | none =>
    have hempty : buffer.length ≤ 0 := List.getElem?_eq_none_iff.mp hflag
    simp only [Option.bind_eq_bind, Option.bind_none, reduceCtorEq, exists_false, headerSize,
      false_iff]
    omega
  | some flag =>
    have hfirst : buffer.getD 0 0 = flag := by
      rw [List.getD_eq_getElem?_getD, hflag, Option.getD_some]
    simp only [Option.bind_eq_bind, Option.bind_some, Option.bind_eq_some_iff, hfirst]
    constructor
    · rintro ⟨c, bytes, hbytes, ⟨items, children, left⟩, hitems, hlast⟩
      obtain ⟨hle, rfl⟩ := read_eq_some_iff.mp hbytes
      obtain ⟨hslots, rfl⟩ := (exists_readItems_iff hle).mp ⟨items, children, hitems⟩
      refine ⟨hle, hslots, fun hinner => ?_⟩
      rw [if_neg (of_decide_eq_false hinner), Option.bind_eq_some_iff] at hlast
      obtain ⟨pageNum, hpageNum, -⟩ := hlast
      exact (read_eq_some_iff.mp hpageNum).1
    · rintro ⟨hle, hslots, hinner⟩
      obtain ⟨items, children, hitems⟩ := (exists_readItems_iff hle).mpr ⟨hslots, rfl⟩
      by_cases hleaf : flag ≠ 0
      · exact ⟨_, _, read_eq_some_iff.mpr ⟨hle, rfl⟩, _, hitems, if_pos hleaf⟩
      · obtain ⟨pageNum, hlast⟩ : ∃ pageNum, read buffer _ pageNumSize = some pageNum :=
          ⟨_, read_eq_some_iff.mpr ⟨hinner (decide_eq_false hleaf), rfl⟩⟩
        refine ⟨(items, children ++ [ofLE pageNum]), _, read_eq_some_iff.mpr ⟨hle, rfl⟩, _, hitems, ?_⟩
        rw [if_neg hleaf, Option.bind_eq_some_iff]
        exact ⟨pageNum, hlast, rfl⟩

theorem deserialize_eq_none_iff {buffer : Bytes} : deserialize buffer = none ↔ ¬ Framed buffer := by
  rw [← exists_deserialize_iff, Option.eq_none_iff_forall_ne_some, not_exists]

/-- **The decoder is safe on exactly the framed pages**, whatever stands in the others. -/
theorem deserialize_isSome_iff (buffer : Bytes) : (deserialize buffer).isSome ↔ Framed buffer :=
  Option.isSome_iff_exists.trans (exists_deserialize_iff buffer)

/-- A page of one item whose offset names a byte behind the page. -/
def damagedPage : Bytes := [1, 1, 0, 255, 255] ++ List.replicate 4091 0

set_option maxRecDepth 8000 in
theorem not_framed_damagedPage : ¬ Framed damagedPage := by
  rintro ⟨-, hslots, -⟩
  have hcell := (hslots.2 0 (by decide)).1.1
  exact absurd hcell (by decide +kernel)

theorem not_decodes_damaged :
    ¬ ∀ buffer : Bytes, 11 ≤ buffer.length → (deserialize buffer).isSome := by
  intro h
  have hlen : damagedPage.length = 4096 := by
    rw [damagedPage, List.length_append, List.length_replicate]
    rfl
  have hsome := h damagedPage (by omega)
  exact not_framed_damagedPage ((exists_deserialize_iff _).mp (Option.isSome_iff_exists.mp hsome))

/-! ## Pages the program makes, and pages it reads -/

theorem framed_of_serialize {items : List Item} {children : List Nat} {bufferSize : Nat}
    (hbuffer : bufferSize ≤ 2 ^ 16) (h : BufferRoom bufferSize items children.length)
    (hchildren : ∀ c ∈ children, c < 2 ^ 64) :
    ∃ data, serialize items children bufferSize = some data ∧ Framed data := by
  obtain ⟨data, hdata, -, hback⟩ := deserialize_serialize hbuffer h hchildren
  have hwhole := hback []
  rw [List.append_nil] at hwhole
  exact ⟨data, hdata, (exists_deserialize_iff data).mp ⟨_, hwhole⟩⟩

theorem length_of_readItems {isLeaf : Bool} {buffer : Bytes} {count left next : Nat}
    {items : List Item} {children : List Nat}
    (h : readItems isLeaf buffer count left = some (items, children, next)) :
    items.length = count := by
  induction count generalizing left items children with
  | zero =>
    cases h
    rfl
  | succ count ih =>
    obtain ⟨-, -, -, -, -, -, items', children', -, -, -, -, hrest, rfl, -⟩ :=
      readItems_succ_iff.mp h
    rw [List.length_cons, ih hrest]

/-- The count of a page has 16 bits. -/
theorem length_lt_of_deserialize {buffer : Bytes} {items : List Item} {children : List Nat}
    (h : deserialize buffer = some (items, children)) : items.length < 2 ^ 16 := by
  obtain ⟨isLeaf, count, children', left, hcount, hitems, -⟩ := readItems_of_deserialize h
  rwa [length_of_readItems hitems]

/-- So the search in it does not come near the width of its index. -/
theorem findKeyInNode32_of_deserialize {buffer : Bytes} {items : List Item} {children : List Nat}
    (h : deserialize buffer = some (items, children)) (key : Bytes) :
    Prod.map id UInt32.toNat (findKeyInNode32 key items) = findKeyInNode key items :=
  findKeyInNode32_toNat key (Nat.lt_trans (length_lt_of_deserialize h) (by decide))

end NodeSerializer

/-- **`get_node` of a page that is there** returns its node, or reads outside of it. -/
theorem Dal.getNode_of_readPage [System] {d : Dal File} {p : Nat} {data : Bytes}
    (h : File.readPage d.options p d.file = .ok data d.file) :
    (NodeSerializer.Framed data → ∃ n, getNode p d = .ok n d) ∧
      (¬ NodeSerializer.Framed data → getNode p d = .stop .undefined) := by
  constructor
  · intro hframed
    obtain ⟨⟨items, children⟩, hdata⟩ := (NodeSerializer.exists_deserialize_iff data).mpr hframed
    exact ⟨_, getNode_ok_of_read h hdata⟩
  · intro hframed
    exact getNode_stop_of_read h (NodeSerializer.deserialize_eq_none_iff.mpr hframed)

end Toocal
