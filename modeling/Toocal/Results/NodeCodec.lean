import Toocal.Store.PageCodec

/-!
# The round trip of a node through a buffer

`fields` lists what `serialize` writes, in its order: positions and bytes.  For a node that
has room in the buffer `serialize` is the writing of these fields (`serialize_eq_writeAll`).
The slots push their fields from the left and the cells from the right, so all of them
are inside and apart (`fields_inside`, `fields_apart`); `roundTrip` puts this beside
`deserialize_serialize`.
-/

namespace Toocal

open Buffers

namespace NodeSerializer

/-! ## The fields -/

def childFields (isLeaf : Bool) (children : List Nat) (i left : Nat) : List (Piece UInt8) :=
  if isLeaf then [] else children[i]?.toList.map fun child => (left, toLE 8 child)

/-- The offset of an item, its value, the size of the value, its key and the size of the key. -/
def itemFields (item : Item) (left right : Nat) : List (Piece UInt8) :=
  let k := item.key.length
  let v := item.value.length
  [(left, toLE 2 (right - k - v - 2)), (right - v, item.value), (right - v - 1, [UInt8.ofNat v]),
    (right - v - 1 - k, item.key), (right - k - v - 2, [UInt8.ofNat k])]

def itemsFields (isLeaf : Bool) (children : List Nat) : Nat → Nat → Nat → List Item → List (Piece UInt8)
  | _, _, _, [] => []
  | i, left, right, item :: items => childFields isLeaf children i left ++
      (itemFields item (offsetAt isLeaf left) right ++
        itemsFields isLeaf children (i + 1) (left + slotSize isLeaf) (right - (cell item).length) items)

/-- What `serialize` writes: the header, the items, and the last child of an inner node. -/
def fields (items : List Item) (children : List Nat) (bufferSize : Nat) : List (Piece UInt8) :=
  (0, header children.isEmpty items.length) ::
    (itemsFields children.isEmpty children 0 headerSize (bufferSize - 1) items ++
      children.getLast?.toList.map fun last =>
        (headerSize + slotSize children.isEmpty * items.length, toLE 8 last))

section Fields

variable {isLeaf : Bool} {children : List Nat} {i left right bufferSize : Nat} {item : Item}
  {items : List Item}

/-! ## Writing them -/

theorem writeChild_eq (hc : isLeaf = false → i < children.length) (s : Slots) :
    writeChild isLeaf children i s = (writeAll s.buffer (childFields isLeaf children i s.left)).map
      fun buffer => { s with buffer := buffer, left := offsetAt isLeaf s.left } := by
  cases isLeaf with
  | true => rfl
  | false =>
    obtain ⟨child, hget⟩ : ∃ child, children[i]? = some child :=
      ⟨_, List.getElem?_eq_getElem (hc rfl)⟩
    simp only [writeChild, childFields, hget, Bool.false_eq_true, if_false, Option.toList_some,
      List.map_cons, List.map_nil, writeAll, Option.bind_eq_bind, Option.bind_some, offsetAt,
      pageNumSize]
    cases write s.buffer s.left (toLE 8 child) <;> rfl

theorem writeItem_eq (hs : item.Short) (s : Slots) (hr : (cell item).length ≤ s.right) :
    writeItem item s = (writeAll s.buffer (itemFields item s.left s.right)).map
      fun buffer => ⟨buffer, s.left + 2, s.right - (cell item).length⟩ := by
  obtain ⟨hk, hv⟩ := hs
  rw [length_cell] at hr ⊢
  have hk' : item.key.length % 2 ^ 8 = item.key.length := Nat.mod_eq_of_lt (by omega)
  have hv' : item.value.length % 2 ^ 8 = item.value.length := Nat.mod_eq_of_lt (by omega)
  have hoff : s.right - item.key.length - item.value.length - 2 =
      s.right - (item.key.length + item.value.length + 2) := by omega
  simp only [writeItem, hk', hv', if_pos hr, List.take_length, itemFields, writeAll,
    Option.bind_eq_bind, Option.bind_some, Option.map_bind, Function.comp_def, Option.map_some, hoff]

/-- **The loop of `serialize` writes the fields of the items.** -/
theorem writeItems_eq (hs : ∀ item ∈ items, item.Short)
    (hc : isLeaf = false → i + items.length ≤ children.length) (s : Slots)
    (hr : cellsSize items ≤ s.right) :
    writeItems isLeaf children i items s =
      (writeAll s.buffer (itemsFields isLeaf children i s.left s.right items)).map
        fun buffer => ⟨buffer, s.left + slotSize isLeaf * items.length, s.right - cellsSize items⟩ := by
  induction items generalizing i s with
  | nil => rfl
  | cons item items ih =>
    rw [cellsSize_cons] at hr
    rw [List.length_cons] at hc
    have hslot : offsetAt isLeaf s.left + 2 = s.left + slotSize isLeaf := by
      cases isLeaf <;> rfl
    rw [writeItems, writeChild_eq (fun h => by have := hc h; omega), itemsFields, writeAll_append]
    simp only [Option.bind_eq_bind, Option.bind_map, Function.comp_def, Option.map_bind,
      writeAll_append]
    refine congrArg _ (funext fun b => ?_)
    rw [writeItem_eq (hs item List.mem_cons_self) _ (by simp only; omega)]
    simp only [Option.bind_map, Function.comp_def]
    refine congrArg _ (funext fun b' => ?_)
    rw [ih (fun x hx => hs x (List.mem_cons_of_mem _ hx)) (fun h => by have := hc h; omega) _
      (by simp only; omega)]
    simp only [hslot, List.length_cons, cellsSize_cons, Nat.mul_succ, Nat.sub_sub]
    congr 2
    funext b''
    congr 1
    omega

/-! ## Where they are -/

theorem within_childFields {f : Piece UInt8} (hf : f ∈ childFields isLeaf children i left) :
    left ≤ f.1 ∧ f.1 + f.2.length ≤ offsetAt isLeaf left := by
  cases isLeaf with
  | true => exact absurd hf List.not_mem_nil
  | false =>
    simp only [childFields, Bool.false_eq_true, if_false, List.mem_map] at hf
    obtain ⟨child, -, rfl⟩ := hf
    simp [offsetAt]

theorem childFields_apart : (childFields isLeaf children i left).Pairwise Apart := by
  cases isLeaf with
  | true => exact List.Pairwise.nil
  | false =>
    simp only [childFields, Bool.false_eq_true, if_false]
    cases children[i]? <;> simp

theorem within_itemFields (hr : (cell item).length ≤ right) {f : Piece UInt8}
    (hf : f ∈ itemFields item left right) :
    Within left (left + 2) (right - (cell item).length) right f := by
  rw [length_cell] at hr ⊢
  simp only [itemFields, List.mem_cons, List.not_mem_nil, or_false] at hf
  unfold Within
  rcases hf with rfl | rfl | rfl | rfl | rfl <;>
    simp only [length_toLE, List.length_singleton] <;> omega

theorem itemFields_apart (hr : left + 2 + (cell item).length ≤ right) :
    (itemFields item left right).Pairwise Apart := by
  rw [length_cell] at hr
  simp only [itemFields, List.pairwise_cons, List.mem_cons, List.not_mem_nil, or_false,
    forall_eq_or_imp, forall_eq, Apart, length_toLE, List.length_singleton]
  refine ⟨⟨?_, ?_, ?_, ?_⟩, ⟨?_, ?_, ?_⟩, ⟨?_, ?_⟩, ?_, ?_, ?_⟩ <;> first | omega | simp

theorem within_itemsFields (hr : cellsSize items ≤ right) {f : Piece UInt8}
    (hf : f ∈ itemsFields isLeaf children i left right items) :
    Within left (left + slotSize isLeaf * items.length) (right - cellsSize items) right f := by
  induction items generalizing i left right with
  | nil => exact absurd hf List.not_mem_nil
  | cons item items ih =>
    rw [cellsSize_cons] at hr ⊢
    rw [List.length_cons, Nat.mul_succ]
    have hslot : offsetAt isLeaf left + 2 = left + slotSize isLeaf := by
      cases isLeaf <;> rfl
    have hoff : left ≤ offsetAt isLeaf left := by cases isLeaf <;> simp [offsetAt]
    rw [itemsFields, List.mem_append, List.mem_append] at hf
    rcases hf with hf | hf | hf
    · have := within_childFields hf
      exact Or.inl (by omega)
    · have := within_itemFields (by omega) hf
      unfold Within at this ⊢
      omega
    · have := ih (by omega) hf
      unfold Within at this ⊢
      omega

/-- **The two stacks keep the fields of the items apart.** -/
theorem itemsFields_apart (hr : left + slotSize isLeaf * items.length + cellsSize items ≤ right) :
    (itemsFields isLeaf children i left right items).Pairwise Apart := by
  induction items generalizing i left right with
  | nil => exact List.Pairwise.nil
  | cons item items ih =>
    rw [cellsSize_cons, List.length_cons, Nat.mul_succ] at hr
    have hslot : offsetAt isLeaf left + 2 = left + slotSize isLeaf := by
      cases isLeaf <;> rfl
    have hoff : left ≤ offsetAt isLeaf left := by cases isLeaf <;> simp [offsetAt]
    rw [itemsFields, List.pairwise_append, List.pairwise_append]
    refine ⟨childFields_apart, ⟨itemFields_apart (by omega), ih (by omega), ?_⟩, ?_⟩
    · intro f hf f' hf'
      have h := within_itemFields (by omega) hf
      have h' := within_itemsFields (by omega) hf'
      rw [hslot] at h
      exact h.apart h' (by omega) (by omega) (by omega)
    · intro f hf f' hf'
      have h := within_childFields hf
      rcases List.mem_append.mp hf' with hf' | hf'
      · have := within_itemFields (by omega) hf'
        unfold Within at this
        unfold Apart
        omega
      · have := within_itemsFields (by omega) hf'
        unfold Within at this
        unfold Apart
        omega

end Fields

/-! ## The round trip -/

section Node

variable {items : List Item} {children : List Nat} {bufferSize : Nat}

/-- **`serialize` writes its fields.** -/
theorem serialize_eq_writeAll (hbuffer : bufferSize ≤ 2 ^ 16)
    (h : BufferRoom bufferSize items children.length) :
    serialize items children bufferSize =
      writeAll (List.replicate bufferSize 0) (fields items children bufferSize) := by
  have hlen : items.length % 2 ^ 16 = items.length := Nat.mod_eq_of_lt (h.length_lt hbuffer)
  have hroom := h.2.2
  rw [fields, writeAll, serialize]
  simp only [hlen, List.take_length, Option.bind_eq_bind]
  refine congrArg _ (funext fun buffer => ?_)
  rw [writeItems_eq h.2.1 (fun hf => by have := h.inner hf; omega) _ (by simp only; omega),
    Option.bind_map, writeAll_append]
  refine congrArg _ (funext fun buffer => ?_)
  cases hleaf : children.isEmpty with
  | true =>
    rw [List.isEmpty_iff.mp hleaf]
    rfl
  | false =>
    cases hlast : children.getLast? with
    | none => rw [List.getLast?_eq_none_iff.mp hlast] at hleaf; cases hleaf
    | some last =>
      simp only [Function.comp_apply, Bool.false_eq_true, if_false, Option.bind_some,
        Option.toList_some, List.map_cons, List.map_nil, writeAll]
      cases write buffer _ (toLE 8 last) <;> rfl

theorem within_fields (h : BufferRoom bufferSize items children.length) {f : Piece UInt8}
    (hf : f ∈ fields items children bufferSize) :
    Within 0 (headerSize + slotSize children.isEmpty * items.length +
      (if children.isEmpty then 0 else 8)) (bufferSize - 1 - cellsSize items) (bufferSize - 1) f := by
  have hroom := h.2.2
  rw [slots_eq h.1] at hroom
  rw [fields, List.mem_cons, List.mem_append, List.mem_map] at hf
  unfold Within
  rcases hf with rfl | hf | ⟨last, hlast, rfl⟩
  · left
    simp only [header, List.length_cons, length_toLE, headerSize]
    omega
  · have := within_itemsFields (by omega) hf
    unfold Within at this
    omega
  · have hleaf : children.isEmpty = false := by
      cases children with
      | nil => simp at hlast
      | cons c cs => rfl
    left
    simp only [length_toLE, hleaf, Bool.false_eq_true, if_false]
    omega

theorem fields_inside (h : BufferRoom bufferSize items children.length) {f : Piece UInt8}
    (hf : f ∈ fields items children bufferSize) : f.1 + f.2.length ≤ bufferSize := by
  have hroom := h.2.2
  rw [slots_eq h.1] at hroom
  have := within_fields h hf
  unfold Within at this
  omega

theorem fields_apart (h : BufferRoom bufferSize items children.length) :
    (fields items children bufferSize).Pairwise Apart := by
  have hroom := h.2.2
  rw [slots_eq h.1] at hroom
  rw [fields, List.pairwise_cons, List.pairwise_append]
  refine ⟨fun f hf => Or.inl ?_, itemsFields_apart (by omega), ?_, ?_⟩
  · have hheader : 0 + (header children.isEmpty items.length).length = headerSize := by
      simp [header, headerSize]
    rw [hheader]
    rcases List.mem_append.mp hf with hf | hf
    · have := within_itemsFields (by omega) hf
      unfold Within at this
      omega
    · obtain ⟨last, -, rfl⟩ := List.mem_map.mp hf
      simp only
      omega
  · cases children.getLast? <;> simp
  · intro f hf f' hf'
    obtain ⟨last, hlast, rfl⟩ := List.mem_map.mp hf'
    have hleaf : children.isEmpty = false := by
      cases children with
      | nil => simp at hlast
      | cons c cs => rfl
    have := within_itemsFields (by omega) hf
    rw [hleaf] at hroom this ⊢
    unfold Within at this
    unfold Apart
    simp only [length_toLE, Bool.false_eq_true, if_false] at hroom ⊢
    omega

/-- **A node with room in the buffer comes back as it was, and its fields lie inside the
buffer with no two of them overlapping.** -/
theorem roundTrip (items : List Item) (children : List Nat) (bufferSize : Nat)
    (hbuffer : bufferSize ≤ 65536) (hroom : BufferRoom bufferSize items children.length)
    (hchildren : ∀ child ∈ children, child < 2 ^ 64) :
    ∃ data, serialize items children bufferSize = some data ∧ data.length = bufferSize ∧
      deserialize data = some (items, children) ∧
      writeAll (List.replicate bufferSize 0) (fields items children bufferSize) = some data ∧
      (∀ f ∈ fields items children bufferSize, f.1 + f.2.length ≤ bufferSize) ∧
      (fields items children bufferSize).Pairwise Apart := by
  obtain ⟨data, hser, hlen, hdec⟩ := deserialize_serialize hbuffer hroom hchildren
  refine ⟨data, hser, hlen, ?_, ?_, fun f hf => fields_inside hroom hf, fields_apart hroom⟩
  · have := hdec []
    rwa [List.append_nil] at this
  · rw [← serialize_eq_writeAll hbuffer hroom]
    exact hser

/-- An inner node that fills a buffer of 26 bytes to the last one. -/
theorem roundTrip_full : ∃ data, serialize [⟨[7], [8]⟩] [3, 2 ^ 64 - 1] 26 = some data ∧
    data.length = 26 ∧ deserialize data = some ([⟨[7], [8]⟩], [3, 2 ^ 64 - 1]) ∧
    writeAll (List.replicate 26 0) (fields [⟨[7], [8]⟩] [3, 2 ^ 64 - 1] 26) = some data ∧
    (∀ f ∈ fields [⟨[7], [8]⟩] [3, 2 ^ 64 - 1] 26, f.1 + f.2.length ≤ 26) ∧
    (fields [⟨[7], [8]⟩] [3, 2 ^ 64 - 1] 26).Pairwise Apart :=
  roundTrip _ _ _ (by decide) (by decide) (by decide)

end Node

end NodeSerializer

end Toocal
