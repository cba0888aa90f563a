import Toocal.Store.Session
import Toocal.Tree.FilePaths

/-!
# Other page sizes

`write_node` takes the size of a page from two places: the page it allocates and the offset
it seeks to have `options.page_size` bytes, the data it copies there always the
`DEFAULT_PAGE_SIZE` bytes of the serializer.  `PageLaw` is what a page store owes a node:
the copy stays in the page, the node is read back, other pages read as before.

* On pages below `DEFAULT_PAGE_SIZE` no node is written inside its page (`not_pageLaw_small`).
* On pages at or above it the law holds for the nodes that fit `DEFAULT_PAGE_SIZE` bytes
  (`pageLaw_of_room`), if the page does not lie past the end of the file
  (`PageLaw.reaches`): the pages in between would come to be.
* A node of one byte more can come to lie on its own slot, and is then not read back from a
  page of any size (`not_pageLaw_crowded`).
-/

namespace Toocal

open Outcomes Buffers Pages4096

namespace NodeSerializer

/-! ## A cell on top of its own slot -/

theorem writeItems_items_append (isLeaf : Bool) (children : List Nat) (i : Nat) (items items' : List Item)
    (s : Slots) : writeItems isLeaf children i (items ++ items') s =
      (writeItems isLeaf children i items s).bind
        (writeItems isLeaf children (i + items.length) items') := by
  induction items generalizing i s with
  | nil => rfl
  | cons item items ih =>
    have hi : i + (item :: items).length = i + 1 + items.length := by
      rw [List.length_cons]
      omega
    simp only [List.cons_append, writeItems, Option.bind_eq_bind, ih, hi, Option.bind_assoc]

/-- A cell that begins at the second byte of its slot leaves the first byte of its offset there,
and the size of its key in place of the other. -/
theorem has_of_writeItem {item : Item} {s s' : Slots} (h : item.Short)
    (hnext : s.left + 1 + (cell item).length = s.right) (hi : writeItem item s = some s') :
    Has s'.buffer s.left [UInt8.ofNat (s.left + 1), UInt8.ofNat item.key.length] := by
  obtain ⟨hkey, hvalue⟩ := h
  have hk : item.key.length % 2 ^ 8 = item.key.length := Nat.mod_eq_of_lt (by omega)
  have hv : item.value.length % 2 ^ 8 = item.value.length := Nat.mod_eq_of_lt (by omega)
  obtain ⟨offset, b₁, b₂, b₃, b₄, hoffset, h₁, h₂, h₃, h₄, h₅, -⟩ := writeItem_eq_some hi
  rw [hk, hv] at hoffset
  rw [hv] at h₂ h₃
  rw [hk, hv] at h₄
  rw [hk] at h₅
  have hcell := length_cell item
  obtain rfl : offset = s.left + 1 := by omega
  have hslot : Has b₁ s.left [UInt8.ofNat (s.left + 1)] :=
    (has_append.mp (show Has b₁ s.left ([UInt8.ofNat (s.left + 1)] ++
      [UInt8.ofNat ((s.left + 1) / 256)]) from has_of_write h₁)).1
  have hfirst : Has s'.buffer s.left [UInt8.ofNat (s.left + 1)] := by
    refine (((hslot.write h₂ ?_).write h₃ ?_).write h₄ ?_).write h₅ ?_
    all_goals
      rw [List.length_singleton]
      omega
  rw [has_cons]
  exact ⟨(has_cons.mp hfirst).1, has_of_write h₅⟩

/-- Before the last item of a leaf is written the others are laid out, if they have room, and the
last byte of the buffer is free. -/
theorem slots_of_concat {init : List Item} {last : Item} {bufferSize : Nat} {data : Bytes}
    (hinit : ∀ item ∈ init, item.Short)
    (hroom : headerSize + 2 * init.length + cellsSize init < bufferSize)
    (hcount : init.length + 1 < 2 ^ 16) (h : serialize (init ++ [last]) [] bufferSize = some data) :
    ∃ s s', writeItem last s = some s' ∧ s'.buffer = data ∧
      s.left = headerSize + 2 * init.length ∧ s.right + cellsSize init = bufferSize - 1 ∧
      Laid true [] s.buffer 0 headerSize (bufferSize - 1) init ∧ Has s.buffer (bufferSize - 1) [0] := by
  have htake : (init ++ [last]).take ((init ++ [last]).length % 2 ^ 16) = init ++ [last] := by
    rw [List.length_append, List.length_singleton, Nat.mod_eq_of_lt hcount]
    exact List.take_of_length_le (by simp)
  simp only [serialize, Option.bind_eq_bind, Option.bind_eq_some_iff, List.isEmpty_nil, if_true,
    htake, writeItems_items_append] at h
  obtain ⟨buffer, hheader, s, ⟨s₁, hs₁, hs⟩, he⟩ := h
  have hbuffer : buffer.length = bufferSize := by
    rw [length_write hheader, List.length_replicate]
  have hslots : headerSize + slotSize true * init.length + cellsSize init ≤ bufferSize - 1 := by
    rw [slotSize, if_pos rfl]
    omega
  obtain ⟨s₁', hok, hleft, hright, -, hlaid, hkeep⟩ :=
    @writeItems_ok true [] 0 init ⟨buffer, headerSize, bufferSize - 1⟩ hinit (by simp) hslots
      (show bufferSize - 1 < buffer.length by omega)
  rw [hs₁] at hok
  obtain rfl := Option.some.inj hok
  have hzero : Has (List.replicate bufferSize (0 : UInt8)) (bufferSize - 1) [0] := by
    intro i hi
    obtain rfl : i = 0 := by simpa using hi
    rw [List.getElem?_replicate_of_lt (by omega)]
    rfl
  have hend : Has buffer (bufferSize - 1) [0] := by
    refine hzero.write hheader ?_
    simp only [List.length_cons, length_toLE, List.length_nil, headerSize] at hroom ⊢
    omega
  simp only [writeItems, writeChild, if_true, Option.bind_eq_bind, Option.bind_some,
    Option.bind_eq_some_iff, Option.some.injEq] at hs
  obtain ⟨s₂, hitem, rfl⟩ := hs
  exact ⟨s₁, s₂, hitem, Option.some.inj he, hleft, hright, hlaid,
    hkeep _ _ (Or.inr (Nat.le_refl _)) hend⟩

/-- In a leaf that is one byte too large for its buffer, the key size of the last item stands
in the second byte of its offset. -/
theorem has_of_overlap {init : List Item} {last : Item} {bufferSize : Nat} {data : Bytes}
    (hinit : ∀ item ∈ init, item.Short) (hlast : last.Short)
    (hover : headerSize + 2 * init.length + 1 + cellsSize init + (cell last).length + 1 = bufferSize)
    (hcount : init.length + 1 < 2 ^ 16) (h : serialize (init ++ [last]) [] bufferSize = some data) :
    Has data (headerSize + 2 * init.length)
      [UInt8.ofNat (headerSize + 2 * init.length + 1), UInt8.ofNat last.key.length] := by
  obtain ⟨s, s', hitem, rfl, hleft, hright, -⟩ := slots_of_concat hinit (by omega) hcount h
  rw [← hleft]
  exact has_of_writeItem hlast (by omega) hitem

/-! ### What is read from such a page -/

theorem slot_of_readItems {isLeaf : Bool} {buffer : Bytes} {count left next i : Nat}
    {items : List Item} {children : List Nat} {item : Item}
    (h : readItems isLeaf buffer count left = some (items, children, next))
    (hi : items[i]? = some item) : ∃ bytes behind,
      read buffer (offsetAt isLeaf (left + slotSize isLeaf * i)) 2 = some bytes ∧
        readSized buffer (ofLE bytes) = some (item.key, behind) := by
  induction count generalizing left items children i with
  | zero =>
    cases h
    cases hi
  | succ count ih =>
    obtain ⟨child, bytes, key, offset, value, behind, items', children', -, hbytes, hkey, -, hrest,
      rfl, -⟩ := readItems_succ_iff.mp h
    cases i with
    | zero =>
      obtain rfl := Option.some.inj hi
      exact ⟨bytes, offset, hbytes, hkey⟩
    | succ i =>
      have hat : left + slotSize isLeaf * (i + 1) = left + slotSize isLeaf + slotSize isLeaf * i := by
        rw [Nat.mul_succ]
        omega
      rw [hat]
      exact ih hrest hi

theorem key_eq_nil_of_readSized {buf key : Bytes} {offset behind : Nat}
    (hzero : ∀ b ∈ buf[offset]?, b = 0) (h : readSized buf offset = some (key, behind)) :
    key = [] := by
  obtain ⟨size, hsize, h⟩ := Option.bind_eq_some_iff.mp h
  obtain ⟨bytes, hbytes, h⟩ := Option.bind_eq_some_iff.mp h
  obtain rfl := hzero size hsize
  obtain ⟨rfl, -⟩ := Prod.mk.inj (Option.some.inj h)
  exact List.length_eq_zero_iff.mp (length_of_read hbytes)

/-- **A leaf that is one byte too large** for its buffer is not read back, if the size of its
last key, read as the high byte of an offset, leads to a zero. -/
theorem deserialize_ne_of_overlap {init : List Item} {last : Item} {bufferSize zeros : Nat}
    {data : Bytes} (hinit : ∀ item ∈ init, item.Short) (hlast : last.Short)
    (hover : headerSize + 2 * init.length + 1 + cellsSize init + (cell last).length + 1 = bufferSize)
    (hcount : init.length + 1 < 2 ^ 16) (hkey : last.key ≠ [])
    (hzero : ∀ low < 256, ∀ b ∈ data[low + 256 * last.key.length]?, b = 0)
    (h : serialize (init ++ [last]) [] bufferSize = some data) :
    deserialize (data ++ List.replicate zeros 0) ≠ some (init ++ [last], []) := by
  intro hback
  have hhas := (has_of_overlap hinit hlast hover hcount h).append_right (List.replicate zeros 0)
  obtain ⟨isLeaf, count, children', left, -, hitems, hleaf⟩ := readItems_of_deserialize hback
  obtain rfl := hleaf rfl
  have hat : (init ++ [last])[init.length]? = some last := by simp
  obtain ⟨bytes, behind, hbytes, hsized⟩ := slot_of_readItems hitems hat
  have hread := hhas.read (hhas.le (by simp))
  have hsame := hbytes.symm.trans hread
  obtain rfl := Option.some.inj hsame
  obtain ⟨hshort, -⟩ := hlast
  have hsize : (UInt8.ofNat last.key.length).toNat = last.key.length := by
    rw [UInt8.toNat_ofNat', Nat.mod_eq_of_lt (by omega)]
  refine hkey (key_eq_nil_of_readSized (fun b hb => ?_) hsized)
  rw [ofLE, ofLE, ofLE, hsize, Nat.mul_zero, Nat.add_zero] at hb
  rw [List.getElem?_append] at hb
  split at hb
  next => exact hzero _ (UInt8.toNat_lt _) b hb
  next =>
    -- behind the data a page holds zeros
    exact List.eq_of_mem_replicate (List.mem_of_getElem? hb)

/-- An item is written in front of what stands behind its slot and its cell. -/
theorem has_behind_writeItem {item : Item} {s s' : Slots} {pos : Nat} {data : Bytes}
    (hshort : item.Short) (hitem : writeItem item s = some s') (hleft : s.left + 2 ≤ pos)
    (hright : s.right ≤ pos) (h : Has s.buffer pos data) : Has s'.buffer pos data := by
  obtain ⟨hk, hv⟩ := hshort
  have hkey : item.key.length % 2 ^ 8 = item.key.length := Nat.mod_eq_of_lt (by omega)
  have hval : item.value.length % 2 ^ 8 = item.value.length := Nat.mod_eq_of_lt (by omega)
  obtain ⟨offset, b₁, b₂, b₃, b₄, hoffset, h₁, h₂, h₃, h₄, h₅, -⟩ := writeItem_eq_some hitem
  rw [hkey, hval] at hoffset
  rw [hval] at h₂ h₃
  rw [hkey, hval] at h₄
  rw [hkey] at h₅
  refine ((((h.write h₁ ?_).write h₂ ?_).write h₃ ?_).write h₄ ?_).write h₅ ?_
  all_goals
    simp only [List.length_take, List.length_singleton, length_toLE]
    omega

theorem has_of_serialize_first {first last : Item} {rest : List Item} {bufferSize : Nat}
    {data : Bytes} (hshort : ∀ item ∈ first :: rest, item.Short) (hlast : last.Short)
    (hover : headerSize + 2 * (rest.length + 1) + 1 + cellsSize (first :: rest) +
      (cell last).length + 1 = bufferSize) (hcount : rest.length + 2 < 2 ^ 16)
    (h : serialize (first :: rest ++ [last]) [] bufferSize = some data) :
    Has data (bufferSize - 1 - first.value.length) (first.value ++ [0]) := by
  have hcellLast := length_cell last
  have hcellFirst := length_cell first
  obtain ⟨s, s', hitem, rfl, hleft, hright, hlaid, hend⟩ :=
    slots_of_concat hshort (by rw [List.length_cons]; omega) hcount h
  rw [cellsSize_cons] at hover hright
  rw [List.length_cons] at hleft
  obtain ⟨offset, hoffset, -, -, hcell, -⟩ := hlaid
  have hvalue : Has s.buffer (bufferSize - 1 - first.value.length) first.value := by
    rw [cell, has_cons, has_append, has_cons] at hcell
    have hplace : offset + 1 + first.key.length + 1 = bufferSize - 1 - first.value.length := by
      omega
    rw [← hplace]
    exact hcell.2.2.2
  have hboth : Has s.buffer (bufferSize - 1 - first.value.length) (first.value ++ [0]) := by
    rw [has_append]
    refine ⟨hvalue, ?_⟩
    rwa [show bufferSize - 1 - first.value.length + first.value.length = bufferSize - 1 by omega]
  exact has_behind_writeItem hlast hitem (by omega) (by omega) hboth

end NodeSerializer

namespace Dal

/-! ## What a page store owes a node -/

/-- **The law of the page store**, for a node in a layer. -/
structure PageLaw [System] (d : Dal File) (n : Node) : Prop where
  /-- no access is outside of the page -/
  inside : ∀ why, writeNode n d ≠ .stop why
  /-- on a sound stream the node is written, and read back -/
  back : d.file.failed = false → d.pageFor n * d.options.pageSize < 2 ^ 63 →
    ∃ d', writeNode n d = .ok (d.placed n) d' ∧ getNode (d.pageFor n) d' = .ok (d.placed n) d'
  /-- another page reads after the write as it does before, be it with an error -/
  others : d.pageFor n * d.options.pageSize < 2 ^ 63 → ∀ q, q ≠ d.pageFor n →
    q * d.options.pageSize < 2 ^ 64 → ∀ d', (writeNode n d).state? = some d' →
      (getNode q d').answer = (getNode q d).answer

/-- The page of the node does not lie past the end of the file. -/
def Reaches (d : Dal File) (n : Node) : Prop :=
  d.pageFor n * d.options.pageSize ≤ d.file.bytes.length

instance (d : Dal File) (n : Node) : Decidable (d.Reaches n) := inferInstanceAs (Decidable (_ ≤ _))

section Law

variable {d : Dal File} {n : Node}

/-! ### Where the law holds -/

theorem read_put_other {p q pageSize : Nat} {bytes data : Bytes} (hlen : data.length = pageSize)
    (hreach : p * pageSize ≤ bytes.length) (hne : q ≠ p) :
    read (File.put bytes (p * pageSize) data) (q * pageSize) pageSize =
      read bytes (q * pageSize) pageSize := by
  have hapart := pages_apart (n := pageSize) hne
  have hput : (File.put bytes (p * pageSize) data).length =
      max bytes.length (p * pageSize + pageSize) := by rw [File.length_put, hlen]
  by_cases hin : q * pageSize + pageSize ≤ bytes.length
  · have hread : read bytes (q * pageSize) pageSize =
        some ((bytes.drop (q * pageSize)).take pageSize) := if_pos hin
    have hhas : Has (File.put bytes (p * pageSize) data) _ _ := File.has_put_of_has (has_of_read hread)
      (by rw [length_of_read hread, hlen]; exact hapart)
    have hback := hhas.read (by rw [length_of_read hread, hput]; exact le_max_of_le_left hin)
    rw [length_of_read hread] at hback
    rw [hback, hread]
  · have hout : ¬q * pageSize + pageSize ≤ (File.put bytes (p * pageSize) data).length := by
      rw [hput, le_max_iff]
      omega
    rw [Buffers.read, Buffers.read, if_neg hin, if_neg hout]

section Serialized

variable [System] {bytes : Bytes} (hlarge : defaultPageSize ≤ d.options.pageSize)
  (hser : NodeSerializer.serialize n.items n.children defaultPageSize = some bytes)
include hlarge hser

theorem writeNode_sound {pos : Nat} (hsound : d.file.failed = false)
    (hoff : File.offset d.options (d.pageFor n) = some pos) : writeNode n d = .ok (d.placed n)
      ⟨d.options, ⟨File.put d.file.bytes pos (filled d.options bytes), false⟩, d.metaPage,
        d.freelistFor n, d.pageFor n :: d.written⟩ := by
  apply writeNode_ok_of_save
  rw [save_large hlarge (by exact hser), placed, File.writePage_at _ hsound hoff, hsound]

theorem writeNode_refused
    (hor : d.file.failed = true ∨ File.offset d.options (d.pageFor n) = none) :
    writeNode n d = .error .strerror ⟨d.options, { d.file with failed := true }, d.metaPage,
      d.freelistFor n, d.written⟩ := by
  apply writeNode_error_of_save
  rw [save_large hlarge (by exact hser)]
  exact File.writePage_error _ hor

theorem writeNode_ne_stop (why : Stop) : writeNode n d ≠ .stop why := by
  intro hstop
  by_cases hor : d.file.failed = true ∨ File.offset d.options (d.pageFor n) = none
  · rw [writeNode_refused hlarge hser hor] at hstop
    cases hstop
  · rw [not_or, Bool.not_eq_true, ← ne_eq, Option.ne_none_iff_exists'] at hor
    obtain ⟨hsound, pos, hoff⟩ := hor
    rw [writeNode_sound hlarge hser hsound hoff] at hstop
    cases hstop

theorem answer_getNode_other (hreach : d.Reaches n)
    (hp : d.pageFor n * d.options.pageSize < 2 ^ 63) {q : Nat}
    (hne : q ≠ d.pageFor n) (hq : q * d.options.pageSize < 2 ^ 64) {d' : Dal File}
    (h : (writeNode n d).state? = some d') : (getNode q d').answer = (getNode q d).answer := by
  cases hfailed : d.file.failed with
  | true =>
    rw [writeNode_refused hlarge hser (Or.inl hfailed)] at h
    obtain rfl := Option.some.inj h
    exact answer_getNode_congr rfl hfailed.symm fun _ _ => rfl
  | false =>
    rw [writeNode_sound hlarge hser hfailed (File.offset_eq hp)] at h
    obtain rfl := Option.some.inj h
    refine answer_getNode_congr rfl hfailed.symm fun pos hoff => ?_
    rw [File.offset, Nat.mod_eq_of_lt hq] at hoff
    obtain rfl : q * d.options.pageSize = pos := by
      split at hoff
      next => exact Option.some.inj hoff
      next => cases hoff
    exact read_put_other
      (length_filled ((NodeSerializer.length_of_serialize hser).symm ▸ hlarge)) hreach hne

/-- **The law comes down to the codec** where the page takes the data. -/
theorem pageLaw_of_decodes (hreach : d.Reaches n) (hdecode : NodeSerializer.deserialize (filled d.options bytes) =
    some (n.items, n.children)) : PageLaw d n where
  inside := writeNode_ne_stop hlarge hser
  back hsound hp := by
    have hpos : 0 < d.options.pageSize := Nat.lt_of_lt_of_le defaultPageSize_pos hlarge
    have hlen : (filled d.options bytes).length = d.options.pageSize :=
      length_filled ((NodeSerializer.length_of_serialize hser).symm ▸ hlarge)
    have hhas := File.has_put d.file.bytes (d.pageFor n * d.options.pageSize)
      (filled d.options bytes)
    refine ⟨_, writeNode_sound hlarge hser hsound (File.offset_eq hp), ?_⟩
    exact getNode_ok_of_read
      (File.readPage_ok (f := ⟨File.put d.file.bytes _ _, false⟩) rfl hp hhas hlen hpos) hdecode
  others hp _ hne hq _ h := answer_getNode_other hlarge hser hreach hp hne hq h

end Serialized

/-- **The law holds** where a page takes the data of a node and the node fits its buffer. -/
theorem pageLaw_of_room [System] (hlarge : defaultPageSize ≤ d.options.pageSize)
    (hreach : d.Reaches n) (hroom : PageRoom n.items n.children.length) (hchildren : ∀ c ∈ n.children, c < 2 ^ 64) :
    PageLaw d n := by
  obtain ⟨bytes, hser, -, hdecode⟩ :=
    NodeSerializer.deserialize_serialize defaultPageSize_le hroom hchildren
  exact pageLaw_of_decodes hlarge hser hreach (hdecode _)

/-! ### Where it fails -/

/-- **On a page below the size of the buffer** every write is outside of it. -/
theorem writeNode_small [System] (hsmall : d.options.pageSize < defaultPageSize) (n : Node) :
    writeNode n d = .stop .undefined := writeNode_stop_of_save (save_small hsmall)

theorem not_pageLaw_small [System] (hsmall : d.options.pageSize < defaultPageSize) (n : Node) :
    ¬ PageLaw d n := fun h => h.inside _ (writeNode_small hsmall n)

theorem PageLaw.deserialize_eq [System] (h : PageLaw d n) (hsound : d.file.failed = false)
    (hp : d.pageFor n * d.options.pageSize < 2 ^ 63) :
    ∃ data, NodeSerializer.serialize n.items n.children defaultPageSize = some data ∧
      NodeSerializer.deserialize (filled d.options data) = some (n.items, n.children) := by
  obtain ⟨d', hwrite, hget⟩ := h.back hsound hp
  obtain ⟨f, hsave, -, rfl⟩ := writeNode_eq_ok_iff.mp hwrite
  obtain ⟨-, bytes, pos, hser, hle, hoff, rfl⟩ := save_eq_ok hsave
  have hlen : (filled d.options bytes).length = d.options.pageSize := length_filled hle
  obtain ⟨-, place, data, hplace, hread, hdecode⟩ := getNode_eq_ok hget
  obtain rfl : pos = place := Option.some.inj (hoff.symm.trans hplace)
  have hne : filled d.options bytes ≠ [] := by
    intro hnil
    rw [hnil, List.length_nil] at hlen
    have hbytes := NodeSerializer.length_of_serialize hser
    have hpos := defaultPageSize_pos
    omega
  have hhas := File.has_put d.file.bytes pos (filled d.options bytes)
  have hback := hhas.read (hhas.le hne)
  rw [hlen, hread] at hback
  obtain rfl := Option.some.inj hback
  exact ⟨bytes, hser, hdecode⟩

/-- Past the end of the file the write makes the page before it readable. -/
theorem PageLaw.reaches [System] (h : PageLaw d n) (hsound : d.file.failed = false)
    (hp : d.pageFor n * d.options.pageSize < 2 ^ 63) : d.Reaches n := by
  by_contra hgap
  rw [Reaches, Nat.not_le] at hgap
  obtain ⟨d', hwrite, -⟩ := h.back hsound hp
  obtain ⟨f, hsave, -, rfl⟩ := writeNode_eq_ok_iff.mp hwrite
  obtain ⟨-, bytes, pos, -, hle, hoff, rfl⟩ := save_eq_ok hsave
  obtain rfl := Option.some.inj (hoff.symm.trans (File.offset_eq hp))
  have hlen : (filled d.options bytes).length = d.options.pageSize := length_filled hle
  -- the page in front of it would be read after the write, and not before
  refine absurd ?_ (Nat.not_le_of_lt hgap)
  refine within_of_answer ⟨_, ⟨File.put d.file.bytes _ _, d.file.failed⟩, _, _, _⟩ hsound
    hsound rfl hp (fun q hq => h.others hp q ?_ ?_ _ (congrArg Outcome.state? hwrite)) ?_
  · omega
  · have hmul := Nat.mul_le_mul_right d.options.pageSize (Nat.le_of_succ_le (Nat.le_of_eq hq))
    omega
  · rw [File.length_put, hlen]
    exact Nat.le_trans (Nat.le_add_right _ _) (Nat.le_max_right _ _)

end Law

end Dal

/-! ## A leaf one byte too large -/

/-- An item of given size, its key as long as it can be, filled with zeros after a first byte. -/
def wideItem (first : UInt8) (size : Nat) : Item :=
  ⟨first :: List.replicate (min (size - 1) 254) 0, List.replicate (size - 255) 0⟩

theorem short_wideItem (first : UInt8) {size : Nat} (h : size ≤ 510) : (wideItem first size).Short := by
  rw [Item.Short, wideItem, List.length_cons, List.length_replicate, List.length_replicate]
  omega

theorem length_cell_wideItem (first : UInt8) {size : Nat} (h : 0 < size) :
    (cell (wideItem first size)).length = size + 2 := by
  rw [length_cell, wideItem, List.length_cons, List.length_replicate, List.length_replicate]
  omega

/-- All items but the last of a leaf for `room + 1` bytes: full ones, and one to make up for
the rest. -/
def crowdedInit (room : Nat) : List Item :=
  (List.range ((room - 262) / 514)).map (fun k => wideItem (UInt8.ofNat k) 510) ++
    if (room - 262) % 514 ≤ 255 then [] else [wideItem 254 ((room - 262) % 514 - 4)]

/-- Its cell begins in its own slot. -/
def crowdedLast (room : Nat) : Item :=
  wideItem 255 (255 + if (room - 262) % 514 ≤ 255 then (room - 262) % 514 else 0)

def crowded (room : Nat) : Node := ⟨1, crowdedInit room ++ [crowdedLast room], []⟩

section Crowded

variable {room : Nat}

theorem short_crowdedInit : ∀ item ∈ crowdedInit room, item.Short := by
  intro item hmem
  rcases List.mem_append.mp hmem with hmem | hmem
  · obtain ⟨k, -, rfl⟩ := List.mem_map.mp hmem
    exact short_wideItem _ (Nat.le_refl _)
  · split at hmem
    · cases hmem
    · rw [List.mem_singleton.mp hmem]
      exact short_wideItem _ (by omega)

theorem short_crowdedLast : (crowdedLast room).Short := short_wideItem _ (by split <;> omega)

theorem cellsSize_wideItems (count : Nat) :
    cellsSize ((List.range count).map fun k => wideItem (UInt8.ofNat k) 510) = 512 * count := by
  induction count with
  | zero => rfl
  | succ count ih =>
    rw [List.range_succ, List.map_append, cellsSize_append, ih, List.map_singleton, cellsSize_cons,
      cellsSize_nil, length_cell_wideItem _ (by decide)]
    omega

theorem crowded_overlaps (hroom : 262 ≤ room) :
    headerSize + 2 * (crowdedInit room).length + 1 + cellsSize (crowdedInit room) +
      (cell (crowdedLast room)).length + 1 = room := by
  have hdiv := Nat.div_add_mod (room - 262) 514
  rw [crowdedLast, length_cell_wideItem _ (by omega), crowdedInit, List.length_append, List.length_map,
    List.length_range, cellsSize_append, cellsSize_wideItems, headerSize]
  split
  · rw [cellsSize_nil, List.length_nil]
    omega
  · rw [cellsSize_cons, cellsSize_nil, length_cell_wideItem _ (by omega), List.length_singleton]
    omega

theorem exists_crowdedInit (hroom : 776 ≤ room) :
    ∃ rest, crowdedInit room = wideItem 0 510 :: rest := by
  obtain ⟨m, hm⟩ : ∃ m, (room - 262) / 514 = m + 1 := Nat.exists_eq_succ_of_ne_zero (by omega)
  rw [crowdedInit, hm, List.range_succ_eq_map]
  exact ⟨_, rfl⟩

theorem room_crowded {size : Nat} (hroom : 262 ≤ room) (h : room < size) :
    BufferRoom size (crowded room).items (crowded room).children.length := by
  refine ⟨Or.inl rfl, fun item hmem => ?_, ?_⟩
  · rcases List.mem_append.mp hmem with hmem | hmem
    · exact short_crowdedInit item hmem
    · rw [List.mem_singleton.mp hmem]
      exact short_crowdedLast
  · have hbytes := crowded_overlaps hroom
    simp only [crowded, cellsSize_append, cellsSize_cons, cellsSize_nil, List.length_append,
      List.length_singleton, List.length_nil]
    omega

/-- Behind its high byte the offset of the last item leads into the zeros of the first value, or
out of the buffer. -/
theorem zero_of_crowded (hlarge : 4096 ≤ room) (hsmall : room ≤ 2 ^ 16) {data : Bytes}
    (h : NodeSerializer.serialize (crowdedInit room ++ [crowdedLast room]) [] room = some data) :
    ∀ low < 256, ∀ b ∈ data[low + 256 * (crowdedLast room).key.length]?, b = 0 := by
  have hroom : 776 ≤ room := by omega
  obtain ⟨rest, hrest⟩ := exists_crowdedInit hroom
  have hover := crowded_overlaps (Nat.le_trans (by decide) hroom)
  rw [hrest, List.length_cons] at hover
  rw [hrest] at h
  have hhas := NodeSerializer.has_of_serialize_first (hrest ▸ short_crowdedInit) short_crowdedLast hover
    (by rw [headerSize] at hover; omega) h
  have hkey : (crowdedLast room).key.length = 255 := by
    rw [crowdedLast, wideItem, List.length_cons, List.length_replicate]
    omega
  have hlen := NodeSerializer.length_of_serialize h
  intro low hlow b hb
  have hin := (List.getElem?_eq_some_iff.mp hb).1
  rw [hkey] at hb hin
  have hvalue : (wideItem 0 510).value.length = 255 := List.length_replicate
  have hat := hhas (low + 256 * 255 - (room - 256))
    (by rw [List.length_append, List.length_singleton, hvalue]; omega)
  rw [hvalue, show room - 1 - 255 + (low + 256 * 255 - (room - 256)) = low + 256 * 255 by omega, hb]
    at hat
  have hmem := List.mem_of_getElem? hat.symm
  rw [List.mem_append, List.mem_singleton] at hmem
  exact hmem.elim List.eq_of_mem_replicate id

end Crowded

/-- **The crowded leaf** is not read back, whatever the page size. -/
theorem not_pageLaw_crowded [System] {d : Dal File} {n : Node}
    (hitems : n.items = (crowded defaultPageSize).items) (hleaf : n.children = [])
    (hsound : d.file.failed = false) (hp : d.pageFor n * d.options.pageSize < 2 ^ 63) :
    ¬ d.PageLaw n := by
  intro h
  have hlarge := le_defaultPageSize
  have hsmall := defaultPageSize_le
  obtain ⟨data, hser, hback⟩ := h.deserialize_eq hsound hp
  rw [hitems, hleaf] at hser hback
  have hroom : 262 ≤ defaultPageSize := by omega
  have hover := crowded_overlaps hroom
  exact NodeSerializer.deserialize_ne_of_overlap short_crowdedInit short_crowdedLast hover
    (by rw [headerSize] at hover; omega) (List.cons_ne_nil _ _)
    (zero_of_crowded hlarge hsmall hser) hser hback

/-! ## Which page sizes work -/

/-- **The law of the page store by page sizes.**  No node obeys it on pages below the size of
the buffer; all nodes that fit `size` bytes obey it on pages of `pageSize` bytes that do not lie
past the end of the file if there are no such nodes, or the page takes the buffer and the buffer
those nodes; and on a page past the end no node does. -/
theorem pageLaw_iff [System] (pageSize size : Nat) (hwidth : pageSize < 2 ^ 32) :
    (pageSize < defaultPageSize → ∀ (d : Dal File) (n : Node), d.options.pageSize = pageSize →
      ¬ d.PageLaw n) ∧
    ((∀ (d : Dal File) (n : Node), d.options.pageSize = pageSize → d.Reaches n →
      BufferRoom size n.items n.children.length → (∀ c ∈ n.children, c < 2 ^ 64) → d.PageLaw n) ↔
    size < 4 ∨ (defaultPageSize ≤ pageSize ∧ size ≤ defaultPageSize)) ∧
    ∀ (d : Dal File) (n : Node), d.options.pageSize = pageSize → d.file.failed = false →
      d.pageFor n * pageSize < 2 ^ 63 → d.PageLaw n → d.Reaches n := by
  constructor
  · rintro hsmall d n rfl
    exact Dal.not_pageLaw_small hsmall n
  constructor
  · constructor
    · intro h
      by_contra hout
      rw [not_or, not_and_or, Nat.not_lt, Nat.not_le, Nat.not_le] at hout
      obtain ⟨hsize, hsmall | hlarge⟩ := hout
      · -- the empty leaf fits, and nothing can be written
        have hroom : BufferRoom size [] ([] : List Nat).length :=
          ⟨Or.inl rfl, by simp, by show 3 ≤ size - 1; omega⟩
        have hreach : (Dal.unopened ⟨pageSize, 0, 0⟩ (List.replicate pageSize 0)).Reaches ⟨1, [], []⟩ := by
          show 1 * pageSize ≤ (List.replicate pageSize (0 : UInt8)).length
          rw [List.length_replicate, Nat.one_mul]
        exact Dal.not_pageLaw_small hsmall _ (h _ ⟨1, [], []⟩ rfl hreach hroom (by simp))
      · -- the crowded leaf fits, and is not read back
        have hreach : (Dal.unopened ⟨pageSize, 0, 0⟩ (List.replicate pageSize 0)).Reaches
            (crowded defaultPageSize) := by
          show 1 * pageSize ≤ (List.replicate pageSize (0 : UInt8)).length
          rw [List.length_replicate, Nat.one_mul]
        have hpage : 262 ≤ defaultPageSize := le_trans (by decide) le_defaultPageSize
        refine not_pageLaw_crowded rfl rfl rfl ?_
          (h _ _ rfl hreach (room_crowded hpage hlarge) (by simp [crowded]))
        show 1 * pageSize < 2 ^ 63
        omega
    · rintro (hsize | ⟨hlarge, hsize⟩) d n rfl hreach hroom hchildren
      · obtain ⟨-, -, hle⟩ := hroom
        unfold headerSize at hle
        omega
      · obtain ⟨hcount, hshort, hle⟩ := hroom
        exact Dal.pageLaw_of_room hlarge hreach ⟨hcount, hshort, by omega⟩ hchildren
  · rintro d n rfl hsound hp h
    exact h.reaches hsound hp

/-- A leaf on the second page of a file with pages of twice the size. -/
theorem pageLaw_iff_double :
    (Dal.unopened ⟨8192, 1 / 8, 1 / 8⟩ (List.replicate 8192 0)).PageLaw ⟨0, [⟨[7], [8]⟩], []⟩ :=
  (pageLaw_iff 8192 4096 (by decide)).2.1.mpr (Or.inr ⟨by decide, Nat.le_refl _⟩) _ _ rfl
    (by rw [Dal.Reaches, Dal.unopened, List.length_replicate]; decide) (by decide) (by simp)

/-- The empty leaf fits a page of 512 bytes; its data has 4096. -/
theorem not_pageLaw_512 : ¬ ∀ (d : Dal File) (n : Node), d.options.pageSize ≤ 65536 → d.Reaches n →
    BufferRoom d.options.pageSize n.items n.children.length → (∀ c ∈ n.children, c < 2 ^ 64) →
      d.PageLaw n := by
  intro h
  have hlaw := h (Dal.unopened ⟨512, 1 / 8, 1 / 8⟩ (List.replicate 512 0)) ⟨0, [], []⟩ (by decide)
    (by rw [Dal.Reaches, Dal.unopened, List.length_replicate]; decide) (by decide) (by simp)
  exact Dal.not_pageLaw_small (by decide) _ hlaw

end Toocal
