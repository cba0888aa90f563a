import Mathlib.Algebra.Order.BigOperators.Group.List
import Toocal.Core.File
import Toocal.Store.Shelf

/-!
# The codec of nodes, and what a page can hold

`Capacity.page` is the capacity of a page: all sizes fit their fields and the slots stay
clear of the cells.  A node within it is read back as it was written
(`deserialize_serialize`).

`Laid` says how items lie on a page.  Writing one item establishes its part and leaves
alone what lies to the left of its slot and to the right of its cell (`writeItem_ok`),
so the loop establishes all of it (`writeItems_ok`); `readItems_ok` reads it off.
-/

namespace Toocal

open Buffers

/-- The bytes of a cell. -/
def cell (item : Item) : Bytes :=
  UInt8.ofNat item.key.length :: (item.key ++ UInt8.ofNat item.value.length :: item.value)

def cellsSize (items : List Item) : Nat := (items.map fun item => (cell item).length).sum

/-- The sizes of an item fit a byte each. -/
def Item.Short (item : Item) : Prop := item.key.length ≤ 255 ∧ item.value.length ≤ 255

instance (item : Item) : Decidable item.Short := inferInstanceAs (Decidable (_ ∧ _))

instance (items children : Nat) : Decidable (Counted items children) :=
  inferInstanceAs (Decidable (_ ∨ _))

theorem length_cell (item : Item) : (cell item).length = item.key.length + item.value.length + 2 := by
  simp [cell]; omega

@[simp] theorem cellsSize_nil : cellsSize [] = 0 := rfl

@[simp] theorem cellsSize_cons (item : Item) (items : List Item) :
    cellsSize (item :: items) = (cell item).length + cellsSize items := rfl

theorem cellsSize_append (items items' : List Item) :
    cellsSize (items ++ items') = cellsSize items + cellsSize items' := by
  rw [cellsSize, List.map_append, List.sum_append]
  rfl

theorem cellsSize_sublist {items items' : List Item} (h : items'.Sublist items) :
    cellsSize items' ≤ cellsSize items := (h.map _).sum_le_sum fun _ _ => Nat.zero_le _

theorem cellsSize_perm {items items' : List Item} (h : items.Perm items') :
    cellsSize items = cellsSize items' := (h.map _).sum_eq

/-- Room for the slots on the left and the cells on the right. -/
def BufferRoom (bufferSize : Nat) (items : List Item) (children : Nat) : Prop :=
  Counted items.length children ∧ (∀ item ∈ items, item.Short) ∧
    headerSize + 2 * items.length + pageNumSize * children + cellsSize items ≤ bufferSize - 1

instance (bufferSize : Nat) (items : List Item) (children : Nat) :
    Decidable (BufferRoom bufferSize items children) := inferInstanceAs (Decidable (_ ∧ _ ∧ _))

section BufferRoom

variable {bufferSize : Nat} {items : List Item} {children : List Nat}

theorem BufferRoom.length_lt (h : BufferRoom bufferSize items children.length)
    (hbuffer : bufferSize ≤ 2 ^ 16) : items.length < 2 ^ 16 := by
  have := h.2.2
  simp only [headerSize] at this
  omega

theorem BufferRoom.perm {items' : List Item} {n : Nat} (h : BufferRoom bufferSize items n)
    (hp : items.Perm items') : BufferRoom bufferSize items' n := by
  obtain ⟨hcount, hshort, hsize⟩ := h
  rw [hp.length_eq] at hcount hsize
  rw [cellsSize_perm hp] at hsize
  exact ⟨hcount, fun item hitem => hshort item (hp.mem_iff.mpr hitem), hsize⟩

theorem BufferRoom.inner (h : BufferRoom bufferSize items children.length)
    (hleaf : children.isEmpty = false) : children.length = items.length + 1 := by
  rcases h.1 with hc | hc
  · rw [List.length_eq_zero_iff.mp hc] at hleaf
    cases hleaf
  · exact hc

end BufferRoom

def PageRoom [System] (items : List Item) (children : Nat) : Prop := BufferRoom defaultPageSize items children

instance [System] (items : List Item) (children : Nat) : Decidable (PageRoom items children) :=
  inferInstanceAs (Decidable (BufferRoom _ _ _))

/-- A page of `pageSize` bytes in the file.  The node is laid out for the page size of
the system; a page has a number if its offset fits the file. -/
def Capacity.page [System] (pageSize : Nat) : Capacity where
  room items children := decide (PageRoom items children)
  names p := decide (p * pageSize < 2 ^ 63 ∧ p < 2 ^ 64)
  room_mono hi hm hc h := by
    simp only [decide_eq_true_eq] at h ⊢
    obtain ⟨-, hshort, hsize⟩ := h
    refine ⟨hc, fun item hitem => hshort item (hi.subset hitem), ?_⟩
    have h1 := cellsSize_sublist hi
    have h2 := hi.length_le
    simp only [pageNumSize] at hsize ⊢
    omega
  room_root hi h := by
    simp only [decide_eq_true_eq] at h ⊢
    obtain ⟨hk, hv⟩ := h.2.1 _ hi
    have hpage := le_defaultPageSize
    refine ⟨Or.inr rfl, by simpa using ⟨hk, hv⟩, ?_⟩
    simp only [cellsSize_cons, cellsSize_nil, length_cell, List.length_singleton, headerSize,
      pageNumSize]
    omega
  names_mono hpq h := by
    simp only [decide_eq_true_eq] at h ⊢
    have := Nat.mul_le_mul_right pageSize hpq
    omega

theorem room_page [System] {pageSize : Nat} {items : List Item} {children : Nat} :
    (Capacity.page pageSize).room items children = true ↔ PageRoom items children := decide_eq_true_iff

theorem names_page [System] {pageSize p : Nat} :
    (Capacity.page pageSize).names p = true ↔ p * pageSize < 2 ^ 63 ∧ p < 2 ^ 64 :=
  decide_eq_true_iff

/-! ## How items lie on a page -/

/-- The width of the slot of an item. -/
def slotSize (isLeaf : Bool) : Nat := if isLeaf then 2 else 10

/-- Where the offset of an item stands in its slot. -/
def offsetAt (isLeaf : Bool) (left : Nat) : Nat := if isLeaf then left else left + 8

theorem offsetAt_add_two (isLeaf : Bool) (left : Nat) :
    offsetAt isLeaf left + 2 = left + slotSize isLeaf := by cases isLeaf <;> rfl

/-- From the item `i` on, the slots lie from `left` on and the cells end at `right`. -/
def Laid (isLeaf : Bool) (children : List Nat) (buf : Bytes) : Nat → Nat → Nat → List Item → Prop
  | _, _, _, [] => True
  | i, left, right, item :: items => ∃ offset, offset + (cell item).length = right ∧
      (isLeaf = false → ∃ c, children[i]? = some c ∧ Has buf left (toLE 8 c)) ∧
      Has buf (offsetAt isLeaf left) (toLE 2 offset) ∧ Has buf offset (cell item) ∧
      Laid isLeaf children buf (i + 1) (left + slotSize isLeaf) offset items

theorem Laid.congr {isLeaf : Bool} {children : List Nat} {buf buf' : Bytes}
    {i left right last first : Nat} {items : List Item}
    (hl : Laid isLeaf children buf i left right items)
    (hlast : last = left + slotSize isLeaf * items.length)
    (hfirst : first + cellsSize items = right)
    (h : ∀ pos data, pos + data.length ≤ last ∨ first ≤ pos → Has buf pos data →
      Has buf' pos data) : Laid isLeaf children buf' i left right items := by
  induction items generalizing i left right with
  | nil => trivial
  | cons item items ih =>
    obtain ⟨offset, ho, hchild, hoff, hcell, hrest⟩ := hl
    rw [List.length_cons, Nat.mul_succ] at hlast
    rw [cellsSize_cons] at hfirst
    have hslot : offsetAt isLeaf left + 2 = left + slotSize isLeaf := by
      cases isLeaf <;> rfl
    refine ⟨offset, ho, fun hf => ?_, h _ _ (Or.inl ?_) hoff, h _ _ (Or.inr (by omega)) hcell,
      ih hrest (by omega) (by omega)⟩
    · obtain ⟨c, hc, hhas⟩ := hchild hf
      refine ⟨c, hc, h _ _ (Or.inl ?_) hhas⟩
      rw [hf] at hlast hslot
      simp only [slotSize, offsetAt, Bool.false_eq_true, if_false] at hslot hlast
      rw [length_toLE]
      omega
    · rw [length_toLE]
      omega

namespace NodeSerializer

/-! ## What is written has the size of the buffer -/

theorem length_of_writeChild {isLeaf : Bool} {children : List Nat} {i : Nat} {s s' : Slots}
    (h : writeChild isLeaf children i s = some s') : s'.buffer.length = s.buffer.length := by
  unfold writeChild at h
  split at h
  · cases h
    rfl
  · simp only [Option.bind_eq_bind, Option.bind_eq_some_iff, Option.some.injEq] at h
    obtain ⟨child, -, buffer, hwrite, rfl⟩ := h
    exact length_write hwrite

theorem writeItem_eq_some {item : Item} {s s' : Slots} (h : writeItem item s = some s') :
    ∃ offset b₁ b₂ b₃ b₄,
      offset + (item.key.length % 2 ^ 8 + item.value.length % 2 ^ 8 + 2) = s.right ∧
      write s.buffer s.left (toLE 2 offset) = some b₁ ∧
      write b₁ (s.right - item.value.length % 2 ^ 8)
        (item.value.take (item.value.length % 2 ^ 8)) = some b₂ ∧
      write b₂ (s.right - item.value.length % 2 ^ 8 - 1)
        [UInt8.ofNat (item.value.length % 2 ^ 8)] = some b₃ ∧
      write b₃ (s.right - item.value.length % 2 ^ 8 - 1 - item.key.length % 2 ^ 8)
        (item.key.take (item.key.length % 2 ^ 8)) = some b₄ ∧
      write b₄ offset [UInt8.ofNat (item.key.length % 2 ^ 8)] = some s'.buffer ∧
      s'.left = s.left + 2 ∧ s'.right = offset := by
  unfold writeItem at h
  by_cases hle : item.key.length % 2 ^ 8 + item.value.length % 2 ^ 8 + 2 ≤ s.right
  · simp only [if_pos hle, Option.bind_eq_bind, Option.bind_some, Option.bind_eq_some_iff,
      Option.some.injEq] at h
    obtain ⟨b₁, h₁, b₂, h₂, b₃, h₃, b₄, h₄, b₅, h₅, rfl⟩ := h
    exact ⟨_, b₁, b₂, b₃, b₄, by omega, h₁, h₂, h₃, h₄, h₅, rfl, rfl⟩
  · simp only [if_neg hle, Option.bind_eq_bind, Option.bind_none] at h
    cases h

theorem length_of_writeItem {item : Item} {s s' : Slots} (h : writeItem item s = some s') :
    s'.buffer.length = s.buffer.length := by
  obtain ⟨offset, b₁, b₂, b₃, b₄, -, h₁, h₂, h₃, h₄, h₅, -⟩ := writeItem_eq_some h
  rw [length_write h₅, length_write h₄, length_write h₃, length_write h₂, length_write h₁]

theorem length_of_writeItems {isLeaf : Bool} {children : List Nat} {i : Nat} {items : List Item}
    {s s' : Slots} (h : writeItems isLeaf children i items s = some s') :
    s'.buffer.length = s.buffer.length := by
  induction items generalizing i s with
  | nil =>
    cases h
    rfl
  | cons item items ih =>
    simp only [writeItems, Option.bind_eq_bind, Option.bind_eq_some_iff] at h
    obtain ⟨s₁, hchild, s₂, hitem, hrest⟩ := h
    rw [ih hrest, length_of_writeItem hitem, length_of_writeChild hchild]

theorem length_of_serialize {items : List Item} {children : List Nat} {bufferSize : Nat}
    {data : Bytes} (h : serialize items children bufferSize = some data) :
    data.length = bufferSize := by
  simp only [serialize, Option.bind_eq_bind, Option.bind_eq_some_iff] at h
  obtain ⟨buffer, hheader, s, hitems, hlast⟩ := h
  have hs : s.buffer.length = bufferSize := by
    rw [length_of_writeItems hitems, length_write hheader, List.length_replicate]
  split at hlast
  · cases hlast
    exact hs
  · obtain ⟨child, -, hwrite⟩ := Option.bind_eq_some_iff.mp hlast
    rw [length_write hwrite, hs]

/-! ## What is written has room for its cells -/

theorem right_of_writeChild {isLeaf : Bool} {children : List Nat} {i : Nat} {s s' : Slots}
    (h : writeChild isLeaf children i s = some s') : s'.right = s.right := by
  unfold writeChild at h
  split at h
  · cases h
    rfl
  · simp only [Option.bind_eq_bind, Option.bind_eq_some_iff, Option.some.injEq] at h
    obtain ⟨child, -, buffer, -, rfl⟩ := h
    rfl

theorem right_of_writeItem {item : Item} {s s' : Slots} (h : writeItem item s = some s')
    (hshort : item.Short) : s'.right + (cell item).length = s.right := by
  obtain ⟨offset, b₁, b₂, b₃, b₄, hright, -, -, -, -, -, -, rfl⟩ := writeItem_eq_some h
  obtain ⟨hk, hv⟩ := hshort
  rw [length_cell]
  rw [Nat.mod_eq_of_lt (by omega), Nat.mod_eq_of_lt (by omega)] at hright
  omega

theorem right_of_writeItems {isLeaf : Bool} {children : List Nat} {i : Nat} {items : List Item}
    {s s' : Slots} (h : writeItems isLeaf children i items s = some s')
    (hshort : ∀ item ∈ items, item.Short) : s'.right + cellsSize items = s.right := by
  induction items generalizing i s with
  | nil =>
    cases h
    rfl
  | cons item items ih =>
    obtain ⟨hitem, hrest⟩ := List.forall_mem_cons.mp hshort
    simp only [writeItems, Option.bind_eq_bind, Option.bind_eq_some_iff] at h
    obtain ⟨s₁, hchild, s₂, hwrite, hitems⟩ := h
    have hcells := ih hitems hrest
    have hcell := right_of_writeItem hwrite hitem
    rw [right_of_writeChild hchild] at hcell
    rw [cellsSize_cons]
    omega

/-- **Cells that do not all fit the buffer are written past its front.** -/
theorem serialize_overflows {items : List Item} {children : List Nat} {bufferSize : Nat}
    (hshort : ∀ item ∈ items, item.Short) (hcount : items.length < 2 ^ 16)
    (hsize : bufferSize - 1 < cellsSize items) : serialize items children bufferSize = none := by
  rw [Option.eq_none_iff_forall_ne_some]
  intro data h
  simp only [serialize, Option.bind_eq_bind, Option.bind_eq_some_iff, Nat.mod_eq_of_lt hcount,
    List.take_length] at h
  obtain ⟨buffer, -, s, hitems, -⟩ := h
  have hright : s.right + cellsSize items = bufferSize - 1 := right_of_writeItems hitems hshort
  omega

/-! ## Writing into free space -/

section Write

variable {isLeaf : Bool} {children : List Nat} {i : Nat} {item : Item} {items : List Item}
  {s : Slots}

theorem writeChild_ok (hc : isLeaf = false → i < children.length)
    (hl : s.left + slotSize isLeaf ≤ s.buffer.length) :
    ∃ buffer, writeChild isLeaf children i s = some { s with
        buffer := buffer, left := offsetAt isLeaf s.left } ∧
      buffer.length = s.buffer.length ∧
      (isLeaf = false → ∃ c, children[i]? = some c ∧ Has buffer s.left (toLE 8 c)) ∧
      ∀ pos data, pos + data.length ≤ s.left ∨ s.left + slotSize isLeaf ≤ pos →
        Has s.buffer pos data → Has buffer pos data := by
  cases isLeaf with
  | true => exact ⟨s.buffer, rfl, rfl, by simp, fun _ _ _ h => h⟩
  | false =>
    have hi := hc rfl
    have hget : children[i]? = some children[i] := List.getElem?_eq_getElem hi
    simp only [slotSize, Bool.false_eq_true, if_false] at hl
    obtain ⟨buffer, hw⟩ := exists_write s.buffer s.left (toLE 8 children[i])
      (by rw [length_toLE]; omega)
    refine ⟨buffer, ?_, length_write hw, fun _ => ⟨_, hget, has_of_write hw⟩, fun pos data hd h => ?_⟩
    · simp only [writeChild, Bool.false_eq_true, if_false, hget, Option.bind_eq_bind,
        Option.bind_some, hw]
      rfl
    · refine h.write hw ?_
      simp only [slotSize, Bool.false_eq_true, if_false, length_toLE] at hd ⊢
      omega

/-- **One item**: its offset and its cell are in place, and what lies beside them is as
it was. -/
theorem writeItem_ok (hs : item.Short) (hr : s.left + 2 + (cell item).length ≤ s.right)
    (hb : s.right < s.buffer.length) :
    ∃ buffer offset, writeItem item s = some ⟨buffer, s.left + 2, offset⟩ ∧
      offset + (cell item).length = s.right ∧ buffer.length = s.buffer.length ∧
      Has buffer s.left (toLE 2 offset) ∧ Has buffer offset (cell item) ∧
      ∀ pos data, (pos + data.length ≤ s.left ∨ s.left + 2 ≤ pos ∧ pos + data.length ≤ offset) ∨
        s.right ≤ pos → Has s.buffer pos data → Has buffer pos data := by
  obtain ⟨hk, hv⟩ := hs
  have hcell := length_cell item
  have hk' : item.key.length % 2 ^ 8 = item.key.length := Nat.mod_eq_of_lt (by omega)
  have hv' : item.value.length % 2 ^ 8 = item.value.length := Nat.mod_eq_of_lt (by omega)
  set k := item.key.length with hkl
  set v := item.value.length with hvl
  set offset := s.right - k - v - 2 with hoff
  obtain ⟨b₁, h₁⟩ := exists_write s.buffer s.left (toLE 2 offset) (by rw [length_toLE]; omega)
  have l₁ := length_write h₁
  obtain ⟨b₂, h₂⟩ := exists_write b₁ (s.right - v) item.value (by rw [l₁]; omega)
  have l₂ := length_write h₂
  obtain ⟨b₃, h₃⟩ := exists_write b₂ (s.right - v - 1) [UInt8.ofNat v]
    (by rw [l₂, l₁, List.length_singleton]; omega)
  have l₃ := length_write h₃
  obtain ⟨b₄, h₄⟩ := exists_write b₃ (s.right - v - 1 - k) item.key (by rw [l₃, l₂, l₁]; omega)
  have l₄ := length_write h₄
  obtain ⟨b₅, h₅⟩ := exists_write b₄ offset [UInt8.ofNat k]
    (by rw [l₄, l₃, l₂, l₁, List.length_singleton]; omega)
  have l₅ := length_write h₅
  refine ⟨b₅, offset, ?_, by omega, by rw [l₅, l₄, l₃, l₂, l₁], ?_, ?_, ?_⟩
  · have hle : k + v + 2 ≤ s.right := by omega
    simp only [writeItem, ← hkl, ← hvl, hk', hv', if_pos hle, ← hoff, Option.bind_eq_bind,
      Option.bind_some, h₁, List.take_of_length_le (Nat.le_of_eq hvl.symm), h₂, h₃,
      List.take_of_length_le (Nat.le_of_eq hkl.symm), h₄, h₅]
  · have := has_of_write h₁
    refine (((this.write h₂ ?_).write h₃ ?_).write h₄ ?_).write h₅ ?_ <;>
      rw [length_toLE] <;> omega
  · rw [cell, has_cons, has_append, has_cons]
    have hval := ((has_of_write h₂).write h₃ (by rw [List.length_singleton]; omega)).write h₄
      (by omega)
    have hsize := (has_of_write h₃).write h₄ (by omega)
    have hkey := (has_of_write h₄).write h₅ (by rw [List.length_singleton]; omega)
    have hpos : s.right - v - 1 - k = offset + 1 := by omega
    have hpos' : s.right - v - 1 = offset + 1 + k := by omega
    have hpos'' : s.right - v = offset + 1 + k + 1 := by omega
    rw [hpos] at hkey
    rw [hpos'] at hsize
    rw [hpos''] at hval
    refine ⟨(has_cons.mp (has_of_write h₅)).1, hkey, ?_, ?_⟩
    · exact (has_cons.mp (hsize.write h₅ (by simp only [List.length_singleton]; omega))).1
    · exact hval.write h₅ (by simp only [List.length_singleton]; omega)
  · intro pos data hd h
    refine ((((h.write h₁ ?_).write h₂ ?_).write h₃ ?_).write h₄ ?_).write h₅ ?_
    · rw [length_toLE]; omega
    · omega
    · rw [List.length_singleton]; omega
    · omega
    · rw [List.length_singleton]; omega

/-- **The loop of `serialize` lays the items out**, and leaves alone what lies beside
their slots and cells. -/
theorem writeItems_ok (hs : ∀ item ∈ items, item.Short)
    (hc : isLeaf = false → i + items.length ≤ children.length)
    (hr : s.left + slotSize isLeaf * items.length + cellsSize items ≤ s.right)
    (hb : s.right < s.buffer.length) :
    ∃ s', writeItems isLeaf children i items s = some s' ∧
      s'.left = s.left + slotSize isLeaf * items.length ∧ s'.right + cellsSize items = s.right ∧
      s'.buffer.length = s.buffer.length ∧
      Laid isLeaf children s'.buffer i s.left s.right items ∧
      ∀ pos data, pos + data.length ≤ s.left ∨ s.right ≤ pos →
        Has s.buffer pos data → Has s'.buffer pos data := by
  induction items generalizing i s with
  | nil => exact ⟨s, rfl, by simp, rfl, rfl, trivial, fun _ _ _ h => h⟩
  | cons item items ih =>
    rw [cellsSize_cons, List.length_cons, Nat.mul_succ] at hr
    rw [List.length_cons] at hc
    have hslot : offsetAt isLeaf s.left + 2 = s.left + slotSize isLeaf := by
      cases isLeaf <;> rfl
    have hleft : s.left ≤ offsetAt isLeaf s.left := by cases isLeaf <;> simp [offsetAt]
    obtain ⟨b₁, hw₁, hlen₁, hchild, hkeep₁⟩ := @writeChild_ok isLeaf children i s
      (fun h => by have := hc h; omega) (by omega)
    obtain ⟨b₂, offset, hw₂, hoff, hlen₂, hat, hcell, hkeep₂⟩ := writeItem_ok
      (s := ⟨b₁, offsetAt isLeaf s.left, s.right⟩) (hs item List.mem_cons_self)
      (by simp only; omega) (by rw [hlen₁]; exact hb)
    simp only at hw₂ hoff hlen₂ hat hcell hkeep₂
    obtain ⟨s', hw₃, hl₃, hr₃, hlen₃, hlaid, hkeep₃⟩ := ih (i := i + 1)
      (s := ⟨b₂, offsetAt isLeaf s.left + 2, offset⟩)
      (fun x hx => hs x (List.mem_cons_of_mem _ hx)) (fun h => by have := hc h; omega)
      (by simp only; omega) (by simp only; omega)
    simp only at hl₃ hr₃ hlen₃ hlaid hkeep₃
    refine ⟨s', ?_, ?_, ?_, by omega, ⟨offset, hoff, fun hf => ?_, hkeep₃ _ _ ?_ hat,
      hkeep₃ _ _ (Or.inr (Nat.le_refl _)) hcell, hslot ▸ hlaid⟩, fun pos data hd h => ?_⟩
    · simp only [writeItems, hw₁, Option.bind_eq_bind, Option.bind_some, hw₂, hw₃]
    · rw [hl₃, List.length_cons, Nat.mul_succ]; omega
    · rw [cellsSize_cons]; omega
    · obtain ⟨c, hget, hhas⟩ := hchild hf
      refine ⟨c, hget, hkeep₃ _ _ (Or.inl ?_) (hkeep₂ _ _ (Or.inl (Or.inl ?_)) hhas)⟩ <;>
        · rw [length_toLE]
          simp only [offsetAt, hf, Bool.false_eq_true, if_false]
          omega
    · left
      rw [length_toLE]
    · refine hkeep₃ _ _ ?_ (hkeep₂ _ _ ?_ (hkeep₁ _ _ ?_ h)) <;> omega

end Write

/-! ## Reading -/

section Read

variable {isLeaf : Bool} {children : List Nat} {i left right : Nat} {item : Item}
  {items : List Item} {buf : Bytes}

theorem readSized_ok {data : Bytes} {offset : Nat}
    (h : Has buf offset (UInt8.ofNat data.length :: data)) (hd : data.length ≤ 255)
    (hle : offset + 1 + data.length < 2 ^ 16) :
    readSized buf offset = some (data, offset + 1 + data.length) := by
  obtain ⟨hsize, hdata⟩ := has_cons.mp h
  have hlen : offset + 1 + data.length ≤ buf.length := by
    by_cases hne : data = []
    · have := (List.getElem?_eq_some_iff.mp hsize).1
      rw [hne, List.length_nil]
      omega
    · exact hdata.le hne
  have htoNat : (UInt8.ofNat data.length).toNat = data.length := by
    rw [UInt8.toNat_ofNat']
    omega
  have hstart : (offset + 1) % 2 ^ 16 = offset + 1 := Nat.mod_eq_of_lt (by omega)
  simp only [readSized, hsize, Option.bind_eq_bind, Option.bind_some, hstart, htoNat,
    hdata.read hlen, Nat.mod_eq_of_lt hle]

/-- **The loop of `deserialize` reads off what is laid out.** -/
theorem readItems_ok (hs : ∀ item ∈ items, item.Short)
    (hc : isLeaf = false → i + items.length ≤ children.length)
    (hchildren : ∀ c ∈ children, c < 2 ^ 64) (hr : right < 2 ^ 16)
    (hl : Laid isLeaf children buf i left right items) :
    readItems isLeaf buf items.length left = some (items,
      (if isLeaf then [] else (children.drop i).take items.length),
      left + slotSize isLeaf * items.length) := by
  induction items generalizing i left right with
  | nil => simp [readItems]
  | cons item items ih =>
    obtain ⟨offset, hoff, hchild, hat, hcell, hrest⟩ := hl
    obtain ⟨hk, hv⟩ := hs item List.mem_cons_self
    rw [List.length_cons] at hc
    have hrest' := ih (fun x hx => hs x (List.mem_cons_of_mem _ hx))
      (fun h => by have := hc h; omega) (by omega) hrest
    have hlc := length_cell item
    -- the child, then the offset, then the two halves of the cell
    have h₁ : readChild isLeaf buf left = some (if isLeaf then [] else (children.drop i).take 1,
        offsetAt isLeaf left) := by
      cases isLeaf with
      | true => rfl
      | false =>
        obtain ⟨c, hget, hhas⟩ := hchild rfl
        have hread := hhas.read (hhas.le (by simp [toLE]))
        rw [length_toLE] at hread
        have hlt : c < 2 ^ 64 := hchildren c (List.mem_of_getElem? hget)
        have hdrop : (children.drop i).take 1 = [c] := by
          obtain ⟨hi, rfl⟩ := List.getElem?_eq_some_iff.mp hget
          rw [List.drop_eq_getElem_cons hi]; rfl
        simp only [readChild, Bool.false_eq_true, if_false, hread, Option.bind_eq_bind,
          Option.bind_some, ofLE_toLE (show c < 256 ^ 8 by omega), hdrop]
        rfl
    have h₂ : read buf (offsetAt isLeaf left) 2 = some (toLE 2 offset) := by
      have := hat.read (hat.le (by simp [toLE]))
      rwa [length_toLE] at this
    have hofLE : ofLE (toLE 2 offset) = offset := ofLE_toLE (by omega)
    rw [cell, ← List.cons_append, has_append] at hcell
    have h₃ := readSized_ok hcell.1 hk (by omega)
    have h₄ := @readSized_ok buf item.value (offset + 1 + item.key.length) (by
        have := hcell.2
        rwa [List.length_cons, Nat.add_comm item.key.length 1, ← Nat.add_assoc] at this)
      hv (by omega)
    have hslot := offsetAt_add_two isLeaf left
    rw [List.length_cons, readItems, h₁]
    simp only [Option.bind_eq_bind, Option.bind_some, h₂, hofLE, h₃, h₄, hslot, hrest']
    congr 3
    · cases isLeaf with
      | true => rfl
      | false =>
        simp only [Bool.false_eq_true, if_false]
        rw [Nat.add_comm items.length 1, List.take_add, List.drop_drop]
    · rw [Nat.mul_succ]; omega

theorem readItems_succ_iff {count next : Nat} :
    readItems isLeaf buf (count + 1) left = some (items, children, next) ↔
      ∃ child bytes key offset value behind items' children',
        readChild isLeaf buf left = some (child, offsetAt isLeaf left) ∧
        read buf (offsetAt isLeaf left) 2 = some bytes ∧
        readSized buf (ofLE bytes) = some (key, offset) ∧
        readSized buf offset = some (value, behind) ∧
        readItems isLeaf buf count (left + slotSize isLeaf) = some (items', children', next) ∧
        items = ⟨key, value⟩ :: items' ∧ children = child ++ children' := by
  have hslot := offsetAt_add_two isLeaf left
  simp only [readItems, Option.bind_eq_bind, Option.bind_eq_some_iff]
  constructor
  · rintro ⟨⟨child, left'⟩, hchild, bytes, hbytes, ⟨key, offset⟩, hkey, ⟨value, behind⟩, hvalue,
      ⟨items', children', next'⟩, hrest, he⟩
    have hleft : left' = offsetAt isLeaf left := by
      unfold readChild at hchild
      split at hchild
      next hl =>
        cases hchild
        rw [offsetAt, if_pos hl]
      next hl =>
        obtain ⟨pageNum, -, hc⟩ := Option.bind_eq_some_iff.mp hchild
        cases hc
        rw [offsetAt, if_neg hl, pageNumSize]
    subst hleft
    rw [hslot] at hrest
    cases he
    exact ⟨child, bytes, key, offset, value, behind, items', children', hchild, hbytes, hkey, hvalue,
      hrest, rfl, rfl⟩
  · rintro ⟨child, bytes, key, offset, value, behind, items', children', hchild, hbytes, hkey,
      hvalue, hrest, rfl, rfl⟩
    rw [← hslot] at hrest
    exact ⟨_, hchild, _, hbytes, _, hkey, _, hvalue, _, hrest, rfl⟩

/-- A decoded page has the items of the loop; an inner one has a child more. -/
theorem readItems_of_deserialize (h : deserialize buf = some (items, children)) :
    ∃ isLeaf count children' left, count < 2 ^ 16 ∧
      readItems isLeaf buf count headerSize = some (items, children', left) ∧
      (children = [] → isLeaf = true) := by
  simp only [deserialize, Option.bind_eq_bind, Option.bind_eq_some_iff] at h
  obtain ⟨flag, -, bytes, hbytes, ⟨items', children', left⟩, hitems, hlast⟩ := h
  have hcount := ofLE_lt bytes
  rw [length_of_read hbytes] at hcount
  refine ⟨decide (flag ≠ 0), ofLE bytes, children', left, hcount, ?_⟩
  split at hlast
  next hflag =>
    cases hlast
    exact ⟨hitems, fun _ => decide_eq_true hflag⟩
  next hflag =>
    obtain ⟨pageNum, -, hc⟩ := Option.bind_eq_some_iff.mp hlast
    cases hc
    exact ⟨hitems, fun hnil => absurd hnil (by simp)⟩

end Read

/-! ## The round trip -/

section RoundTrip

variable {bufferSize : Nat} {items : List Item} {children : List Nat} {isLeaf : Bool} {buf : Bytes}

/-- The header of a node page. -/
def header (isLeaf : Bool) (count : Nat) : Bytes := (if isLeaf then 1 else 0) :: toLE 2 count

theorem slots_eq (hcount : Counted items.length children.length) :
    headerSize + 2 * items.length + pageNumSize * children.length =
      headerSize + slotSize children.isEmpty * items.length +
        (if children.isEmpty then 0 else 8) := by
  cases children with
  | nil => simp [slotSize]
  | cons c cs =>
    have : (c :: cs).length = items.length + 1 := by
      rcases hcount with h | h
      · simp at h
      · exact h
    simp only [List.isEmpty_cons, slotSize, Bool.false_eq_true, if_false, this, pageNumSize]
    omega

/-- **A node that fits is written**: its header, its items and its last child are in
place. -/
theorem serialize_ok (hbuffer : bufferSize ≤ 2 ^ 16) (h : BufferRoom bufferSize items children.length) :
    ∃ data right, serialize items children bufferSize = some data ∧ data.length = bufferSize ∧
      Has data 0 (header children.isEmpty items.length) ∧
      Laid children.isEmpty children data 0 headerSize (bufferSize - 1) items ∧
      right + cellsSize items = bufferSize - 1 ∧
      headerSize + slotSize children.isEmpty * items.length ≤ right ∧
      (children.isEmpty = false → ∃ c, children.getLast? = some c ∧
        Has data (headerSize + slotSize children.isEmpty * items.length) (toLE 8 c)) := by
  obtain ⟨hcount, hshort, hsize⟩ := id h
  rw [slots_eq hcount] at hsize
  have hlen : items.length % 2 ^ 16 = items.length := Nat.mod_eq_of_lt (h.length_lt hbuffer)
  obtain ⟨b, hb⟩ := exists_write (List.replicate bufferSize (0 : UInt8)) 0
    (header children.isEmpty items.length) (by
      rw [List.length_replicate, header, List.length_cons, length_toLE]
      simp only [headerSize] at hsize
      omega)
  have hblen := length_write hb
  rw [List.length_replicate] at hblen
  obtain ⟨s', hw, hl, hr, hlen', hlaid, hkeep⟩ := @writeItems_ok children.isEmpty children 0 items
    ⟨b, headerSize, bufferSize - 1⟩ hshort
    (fun hf => by have := h.inner hf; omega)
    (by simp only; omega) (by simp only [hblen, headerSize] at hsize ⊢; omega)
  simp only at hl hr hlen' hlaid hkeep
  have hheader := hkeep 0 _ (Or.inl (by simp [header, headerSize])) (has_of_write hb)
  have hrun : serialize items children bufferSize = if children.isEmpty then some s'.buffer
      else children.getLast?.bind fun c => write s'.buffer s'.left (toLE 8 c) := by
    unfold header at hb
    simp only [serialize, hlen, hb, Option.bind_eq_bind, Option.bind_some, List.take_length, hw]
  cases hleaf : children.isEmpty with
  | true =>
    rw [hleaf] at hrun hheader hlaid hl hsize
    exact ⟨s'.buffer, s'.right, by rw [hrun, if_pos rfl], by rw [hlen', hblen], hheader, hlaid, hr,
      by simp only [if_true] at hsize; omega, by simp⟩
  | false =>
    rw [hleaf] at hrun hheader hlaid hl hsize
    simp only [Bool.false_eq_true, if_false] at hrun hsize
    obtain ⟨c, hc⟩ : ∃ c, children.getLast? = some c := by
      cases hg : children.getLast? with
      | some c => exact ⟨c, rfl⟩
      | none => rw [List.getLast?_eq_none_iff.mp hg] at hleaf; cases hleaf
    obtain ⟨data, hdata⟩ := exists_write s'.buffer s'.left (toLE 8 c)
      (by rw [length_toLE, hlen', hblen]; simp only [headerSize] at *; omega)
    rw [hc, Option.bind_some] at hrun
    refine ⟨data, s'.right, hrun.trans hdata, by rw [length_write hdata, hlen', hblen],
      hheader.write hdata ?_, hlaid.congr hl hr fun pos d hd hh => hh.write hdata ?_, hr, by omega,
      fun _ => ⟨c, hc, hl ▸ has_of_write hdata⟩⟩
    · left
      simp only [header, List.length_cons, length_toLE, headerSize] at hl ⊢
      omega
    · rw [length_toLE]
      omega

/-- What `serialize` puts in place is what `deserialize` reads. -/
theorem deserialize_ok {right : Nat} (hshort : ∀ item ∈ items, item.Short)
    (hcount : Counted items.length children.length) (hchildren : ∀ c ∈ children, c < 2 ^ 64)
    (hn : items.length < 2 ^ 16) (hright : right < 2 ^ 16)
    (hheader : Has buf 0 (header children.isEmpty items.length))
    (hlaid : Laid children.isEmpty children buf 0 headerSize right items)
    (hlast : children.isEmpty = false → ∃ c, children.getLast? = some c ∧
      Has buf (headerSize + slotSize children.isEmpty * items.length) (toLE 8 c)) :
    deserialize buf = some (items, children) := by
  obtain ⟨hflag, hcnt⟩ := has_cons.mp hheader
  have hread := hcnt.read (hcnt.le (by simp [toLE]))
  rw [length_toLE] at hread
  have hitems := readItems_ok hshort (fun hf => by
    rcases hcount with hc | hc
    · rw [List.length_eq_zero_iff.mp hc] at hf; cases hf
    · omega) hchildren hright hlaid
  have hof : ofLE (toLE 2 items.length) = items.length := ofLE_toLE (by omega)
  rw [deserialize, hflag, Option.bind_eq_bind, Option.bind_some]
  simp only [Nat.zero_add] at hread
  simp only [hread, Option.bind_eq_bind, Option.bind_some, hof]
  cases hleaf : children.isEmpty with
  | true =>
    rw [hleaf] at hitems
    obtain rfl : children = [] := List.isEmpty_iff.mp hleaf
    simp [hitems]
  | false =>
    rw [hleaf] at hitems hlast
    obtain ⟨c, hc, hhas⟩ := hlast rfl
    obtain ⟨init, hinit⟩ := List.getLast?_eq_some_iff.mp hc
    have hlen : children.length = items.length + 1 := by
      rcases hcount with h | h
      · rw [List.length_eq_zero_iff.mp h] at hleaf; cases hleaf
      · exact h
    have hread' := hhas.read (hhas.le (by simp [toLE]))
    rw [length_toLE] at hread'
    have hof' : ofLE (toLE 8 c) = c := by
      have := hchildren c (List.mem_of_getLast? hc)
      exact ofLE_toLE (by omega)
    have htake : children.take items.length = init := by
      rw [hinit, List.length_append, List.length_singleton] at hlen
      rw [hinit, List.take_left' (by omega)]
    simp only [Bool.false_eq_true, if_false, List.drop_zero, htake] at hitems
    simp [hitems, hread', hof', hinit]

/-- **A node that fits its page is read back as it was written.** -/
theorem deserialize_serialize (hbuffer : bufferSize ≤ 2 ^ 16)
    (h : BufferRoom bufferSize items children.length) (hchildren : ∀ c ∈ children, c < 2 ^ 64) :
    ∃ data, serialize items children bufferSize = some data ∧ data.length = bufferSize ∧
      ∀ rest, deserialize (data ++ rest) = some (items, children) := by
  obtain ⟨data, right, hs, hlen, hheader, hlaid, hright, hle, hlast⟩ := serialize_ok hbuffer h
  refine ⟨data, hs, hlen, fun rest => deserialize_ok h.2.1 h.1 hchildren (h.length_lt hbuffer)
    (show bufferSize - 1 < 2 ^ 16 by omega) (hheader.append_right rest)
    (hlaid.congr rfl hright fun pos d _ hd => hd.append_right rest) fun hf => ?_⟩
  obtain ⟨c, hc, hhas⟩ := hlast hf
  exact ⟨c, hc, hhas.append_right rest⟩

end RoundTrip

end NodeSerializer

namespace FreelistSerializer

/-- What the 16 bits of `max_page` and of the count leave of a freelist. -/
def cut (f : Freelist) : Freelist :=
  ⟨f.maxPage % 2 ^ 16, f.releasedPages.take (f.releasedPages.length % 2 ^ 16)⟩

theorem length_pages (pages : List Nat) : (pages.flatMap (toLE 8)).length = 8 * pages.length := by
  induction pages with
  | nil => rfl
  | cons page pages ih =>
    rw [List.flatMap_cons, List.length_append, length_toLE, ih, List.length_cons]
    omega

theorem length_serialize (f : Freelist) :
    (serialize f).length = 4 + 8 * f.releasedPages.length := by
  simp only [serialize, List.length_append, length_toLE, length_pages]

theorem readPages_ok {buf : Bytes} : ∀ {pages : List Nat} {pos : Nat}, (∀ p ∈ pages, p < 2 ^ 64) →
    pos + 8 * pages.length ≤ buf.length → Has buf pos (pages.flatMap (toLE 8)) →
    readPages buf pages.length pos = some pages
  | [], _, _, _, _ => rfl
  | page :: pages, pos, hwidth, hlen, h => by
    rw [List.flatMap_cons] at h
    obtain ⟨hpage, hrest⟩ := has_append.mp h
    rw [List.length_cons] at hlen
    have hread := hpage.read (by rw [length_toLE]; omega)
    have hpages := readPages_ok (fun p hp => hwidth p (List.mem_cons_of_mem page hp))
      (by rw [length_toLE]; omega) hrest
    have hid : ofLE (toLE 8 page) = page := ofLE_toLE (hwidth page List.mem_cons_self)
    rw [length_toLE] at hread hpages
    rw [List.length_cons, readPages, hread, Option.bind_eq_bind, Option.bind_some, hpages, hid]
    rfl

/-- **A serialized freelist is read back with its counts cut to their width.** -/
theorem deserialize_serialize {f : Freelist} {buf : Bytes}
    (hwidth : ∀ p ∈ f.releasedPages, p < 2 ^ 64) (hlen : (serialize f).length ≤ buf.length)
    (h : Has buf 0 (serialize f)) : deserialize buf = some (cut f) := by
  rw [length_serialize] at hlen
  obtain ⟨hcounts, hpages⟩ := has_append.mp h
  obtain ⟨hmax, hcount⟩ := has_append.mp hcounts
  have hmaxRead := hmax.read (by rw [length_toLE]; omega)
  have hcountRead := hcount.read (by simp only [length_toLE]; omega)
  simp only [length_toLE, Nat.zero_add, List.length_append] at hmaxRead hcountRead hpages
  -- only as many pages are read back as the count says
  let count := f.releasedPages.length % 2 ^ 16
  have hle : count ≤ f.releasedPages.length := Nat.mod_le _ _
  rw [← List.take_append_drop count f.releasedPages, List.flatMap_append] at hpages
  have htake : (f.releasedPages.take count).length = count := List.length_take_of_le hle
  have hread := readPages_ok (fun p hp => hwidth p (List.mem_of_mem_take hp))
    (by rw [htake]; omega) (has_append.mp hpages).1
  rw [htake] at hread
  change readPages buf count 4 = _ at hread
  have hcountEq : ofLE (toLE 2 f.releasedPages.length) = count := ofLE_toLE_mod 2 _
  have hmaxEq : ofLE (toLE 2 f.maxPage) = f.maxPage % 2 ^ 16 := ofLE_toLE_mod 2 _
  simp only [deserialize, hmaxRead, hcountRead, Option.bind_eq_bind, Option.bind_some, hcountEq,
    hmaxEq, hread]
  rfl

end FreelistSerializer

end Toocal
