import Toocal.Core.Streamed
import Toocal.Store.PageCodec

/-!
# Streams and serializers

What is written to a stream is read back from it, and what is read from it is what would be
written there (`streams_round_trip`).  The serializers over the streams are those over the
buffer (`serializers_over_streams`).
-/

namespace Toocal

open Buffers Endian Pages4096

/-! ## Sequences of fields -/

namespace Endian.Field

variable {e : EndianType} {s s' : Stream}

theorem exists_writeAll_iff {fields : List Field} : (∃ s', writeAll e fields s = some s') ↔
    (∀ field ∈ fields, field.Fits) ∧
      (fields.map fun field => field.kind.size).sum ≤ s.remainingSize := by
  simp only [writeAll_iff, exists_and_left, Stream.exists_writeRaw_iff, length_flatMap_bytes]

theorem exists_read_iff {kind : Kind} :
    (∃ r, read e kind s = some r) ↔ kind.size ≤ s.remainingSize := by
  cases kind with
  | integer F =>
    rw [Kind.size, ← Stream.exists_readRaw_iff]
    simp only [read, Stream.readBytes_eq, Option.map_eq_some_iff]
    constructor
    · rintro ⟨_, _, ⟨r, hr, _⟩, _⟩
      exact ⟨r, hr⟩
    · rintro ⟨r, hr⟩
      exact ⟨_, _, ⟨r, hr, rfl⟩, rfl⟩
  | raw size =>
    rw [Kind.size, ← Stream.exists_readRaw_iff]
    simp only [read, Option.map_eq_some_iff]
    constructor
    · rintro ⟨_, r, hr, _⟩
      exact ⟨r, hr⟩
    · rintro ⟨r, hr⟩
      exact ⟨_, r, hr, rfl⟩

theorem exists_readAll_iff {kinds : List Kind} :
    (∃ r, readAll e kinds s = some r) ↔ (kinds.map Kind.size).sum ≤ s.remainingSize := by
  constructor
  · rintro ⟨⟨fields, s'⟩, h⟩
    obtain ⟨rfl, -, hreads⟩ := readAll_iff.mp h
    have hremaining := hreads.remainingSize
    rw [length_flatMap_bytes] at hremaining
    rw [List.map_map]
    exact hremaining ▸ Nat.le_add_left _ _
  · intro h
    induction kinds generalizing s with
    | nil => exact ⟨_, rfl⟩
    | cons kind kinds ih =>
      rw [List.map_cons, List.sum_cons] at h
      have hroom : kind.size ≤ s.remainingSize := by omega
      obtain ⟨⟨field, t⟩, hread⟩ := (exists_read_iff (e := e)).mpr hroom
      obtain ⟨rfl, -, hreads⟩ := read_iff.mp hread
      have hremaining := hreads.remainingSize
      rw [length_bytes] at hremaining
      obtain ⟨⟨fields, s'⟩, hrest⟩ := ih (s := t) (by omega)
      refine ⟨(field :: fields, s'), ?_⟩
      simp only [readAll, hread, hrest, Option.bind_eq_bind, Option.bind_some]

end Endian.Field

/-- **What is written is read back, and what is read is what would be written there**, in
either byte order.  A sequence of fields is refused only for want of room or for a value that
its bytes cannot hold, and a write leaves the other bytes alone. -/
theorem streams_round_trip (e : EndianType) (s : Stream) :
    (∀ fields, (∃ s', Field.writeAll e fields s = some s') ↔ (∀ field ∈ fields, field.Fits) ∧
      (fields.map fun field => field.kind.size).sum ≤ s.remainingSize) ∧
    (∀ kinds, (∃ r, Field.readAll e kinds s = some r) ↔
      (kinds.map Field.Kind.size).sum ≤ s.remainingSize) ∧
    (∀ fields s', Field.writeAll e fields s = some s' →
      (∀ i, i < s.position ∨ s'.position ≤ i → s'.data[i]? = s.data[i]?) ∧
      ∃ back, s'.seek s.position = some back ∧
        Field.readAll e (fields.map Field.kind) back = some (fields, s')) ∧
    (∀ kinds fields s', Field.readAll e kinds s = some (fields, s') →
      fields.map Field.kind = kinds ∧ Field.writeAll e fields s = some s') := by
  refine ⟨fun _ => Field.exists_writeAll_iff, fun _ => Field.exists_readAll_iff, ?_, ?_⟩
  · intro fields s' h
    obtain ⟨hfits, hwrite⟩ := Field.writeAll_iff.mp h
    obtain ⟨hdata, hposition⟩ := Stream.writeRaw_iff.mp hwrite
    obtain ⟨back, hseek, hreads⟩ := Stream.readRaw_of_writeRaw hwrite
    refine ⟨fun i hi => ?_, back, hseek, Field.readAll_iff.mpr ⟨rfl, hfits, hreads⟩⟩
    rw [getElem?_write hdata, if_neg (by omega)]
  · intro kinds fields s' h
    obtain ⟨hkinds, hfits, hreads⟩ := Field.readAll_iff.mp h
    exact ⟨hkinds, Field.writeAll_iff.mpr ⟨hfits, Stream.writeRaw_of_readRaw hreads⟩⟩

/-! ## The serializers -/

namespace Streamed

variable {F : Format}

theorem field_fits (hbytes : F.bytes = F.size) (n : Nat) : (field F n).Fits := by
  have hlt := (BitVec.ofNat (8 * F.size) n).isLt
  rw [Nat.pow_mul] at hlt
  exact Nat.lt_of_lt_of_eq hlt (by rw [hbytes])

theorem bytes_field (hbytes : F.bytes = F.size) (n : Nat) :
    (field F n).bytes .littleEndian = toLE F.bytes n := by
  refine toLE_congr ?_
  have hpow : 256 ^ F.bytes = 2 ^ (8 * F.size) := by rw [hbytes, Nat.pow_mul]
  rw [BitVec.toNat_ofNat, hpow, Nat.mod_mod]

/-- A chain of `<<` writes the bytes of its fields. -/
theorem put_eq {fields : List Field} (hfits : ∀ field ∈ fields, field.Fits) (s : Stream) :
    put fields s = s.writeRaw (fields.flatMap (Field.bytes .littleEndian)) :=
  Option.ext fun _ => Field.writeAll_iff.trans (and_iff_right hfits)

theorem map_data_writeRaw (data : Bytes) (s : Stream) :
    (s.writeRaw data).map Stream.data = write s.data s.position data := by
  refine Option.ext fun buffer => ?_
  simp only [Option.map_eq_some_iff, Stream.writeRaw_iff]
  constructor
  · rintro ⟨s', ⟨hwrite, -⟩, rfl⟩
    exact hwrite
  · intro hwrite
    have hroom : s.position + data.length ≤ buffer.length :=
      length_write hwrite ▸ le_of_write hwrite
    exact ⟨⟨buffer, _, hroom⟩, ⟨hwrite, rfl⟩, rfl⟩

theorem put_bind {α : Type} {fields : List Field} (hfits : ∀ field ∈ fields, field.Fits)
    {s : Stream} {k : Bytes → Option α} : ((put fields s).bind fun s' => k s'.data) =
      (write s.data s.position (fields.flatMap (Field.bytes .littleEndian))).bind k := by
  rw [put_eq hfits, ← map_data_writeRaw, Option.bind_map]
  rfl

theorem onSpan_writeRaw (buffer : Bytes) (pos : Nat) (data : Bytes) :
    onSpan buffer pos (Stream.writeRaw data) = write buffer pos data := by
  rw [onSpan]
  by_cases hpos : pos ≤ buffer.length
  · have hmap := congrArg (Option.map (buffer.take pos ++ ·))
      (map_data_writeRaw data (.start (buffer.drop pos)))
    rw [Option.map_map] at hmap
    rw [if_pos hpos]
    refine hmap.trans ?_
    rw [Stream.start, write, write, List.length_drop, Nat.zero_add, List.take_zero, List.nil_append,
      List.drop_drop]
    by_cases hle : pos + data.length ≤ buffer.length
    · rw [if_pos (by omega), if_pos hle, Option.map_some, List.append_assoc]
    · rw [if_neg (by omega), if_neg hle, Option.map_none]
  · rw [if_neg hpos, write, if_neg (by omega)]

theorem onSpan_field (hbytes : F.bytes = F.size) (buffer : Bytes) (pos n : Nat) :
    onSpan buffer pos (put [field F n]) = write buffer pos (toLE F.bytes n) := by
  have hput : put [field F n] = Stream.writeRaw (toLE F.bytes n) := by
    funext s
    rw [put_eq (by simpa using field_fits hbytes n), List.flatMap_singleton, bytes_field hbytes]
  rw [hput, onSpan_writeRaw]

theorem onSpan_raw (buffer : Bytes) (pos : Nat) (data : Bytes) :
    onSpan buffer pos (put [.raw data]) = write buffer pos data := by
  have hput : put [.raw data] = Stream.writeRaw data := by
    funext s
    rw [put_eq (by simp [Field.Fits]), List.flatMap_singleton, Field.bytes]
  rw [hput, onSpan_writeRaw]

theorem map_fst_readRaw (n : Nat) (s : Stream) :
    (s.readRaw n).map Prod.fst = read s.data s.position n := by
  refine Option.ext fun data => ?_
  simp only [Option.map_eq_some_iff, Prod.exists, Stream.readRaw_iff]
  constructor
  · rintro ⟨_, s', ⟨hread, -⟩, rfl⟩
    exact hread
  · intro hread
    exact ⟨data, ⟨s.data, s.position + n, (read_eq_some_iff.mp hread).1⟩, ⟨hread, rfl, rfl⟩, rfl⟩

/-- `>>` reads a number from the bytes where the stream stands, and steps over them. -/
theorem get_bind {α : Type} {s : Stream} {k : Nat × Stream → Option α} {r : Bytes → Option α}
    (hbytes : F.bytes = F.size)
    (h : ∀ data s', s'.data = s.data → s'.position = s.position + F.bytes →
      k (ofLE data, s') = r data) :
    (get F s).bind k = (read s.data s.position F.bytes).bind r := by
  rw [get, Stream.readBytes_eq, Option.map_map, ← map_fst_readRaw]
  cases hread : s.readRaw F.bytes with
  | none => rfl
  | some result =>
    obtain ⟨data, s'⟩ := result
    obtain ⟨hdata, hsame, hposition⟩ := Stream.readRaw_iff.mp hread
    have hlt : ofLE data < 2 ^ (8 * F.size) := by
      rw [Nat.pow_mul, ← hbytes, ← length_of_read hdata]
      exact ofLE_lt data
    have hvalue : (BitVec.ofNat (8 * F.size) (ofLE data)).toNat = ofLE data :=
      (BitVec.toNat_ofNat _ _).trans (Nat.mod_eq_of_lt hlt)
    rw [Option.map_some, Option.map_some, Option.bind_some, Option.bind_some,
      ← h data s' hsame hposition]
    exact congrArg (fun n => k (n, s')) hvalue

theorem span_bind_get {α : Type} {buffer : Bytes} {pos : Nat} {k : Nat × Stream → Option α}
    {r : Bytes → Option α} (hbytes : F.bytes = F.size)
    (h : ∀ data s', k (ofLE data, s') = r data) :
    ((span buffer pos).bind fun s => (get F s).bind k) = (read buffer pos F.bytes).bind r := by
  rw [span, Buffers.read]
  by_cases hpos : pos ≤ buffer.length
  · rw [if_pos hpos, Option.bind_some, get_bind hbytes fun data s' _ _ => h data s', Stream.start,
      Buffers.read, List.length_drop, List.drop_drop, Nat.add_zero, Nat.zero_add]
    by_cases hle : pos + F.bytes ≤ buffer.length
    · rw [if_pos hle, if_pos (by omega)]
    · rw [if_neg hle, if_neg (by omega)]
  · rw [if_neg hpos, if_neg (by omega)]
    rfl

/-! ### Pages of a node -/

namespace Node

open NodeSerializer (Slots)

theorem writeChild_eq (isLeaf : Bool) (children : List Nat) (i : Nat) {s : Slots}
    (hlarge : s.buffer.length < 2 ^ 32) :
    writeChild isLeaf children i s = NodeSerializer.writeChild isLeaf children i s := by
  rw [writeChild, NodeSerializer.writeChild]
  cases isLeaf with
  | true => rfl
  | false =>
    cases children[i]? with
    | none => rfl
    | some child =>
      simp only [Bool.false_eq_true, if_false, Option.bind_eq_bind, Option.bind_some,
        onSpan_field (F := uint64) rfl]
      refine Option.bind_congr fun buffer hbuffer => ?_
      have hwritten := le_of_write hbuffer
      rw [length_toLE] at hwritten
      have hle : s.left + pageNumSize ≤ s.buffer.length := hwritten
      rw [Nat.mod_eq_of_lt (Nat.lt_of_le_of_lt hle hlarge)]

theorem sub32_eq {m n : Nat} (hm : m < 2 ^ 32) (hn : n ≤ m) : sub32 m n = m - n := by
  rw [sub32, Nat.mod_eq_of_lt (Nat.lt_of_le_of_lt hn hm)]
  omega

theorem sub32_sub32 (m n k : Nat) : sub32 (sub32 m n) k = sub32 m (n + k) := by
  unfold sub32
  omega

theorem writeItem_eq (item : Item) {s : Slots} (hlarge : s.buffer.length + 512 ≤ 2 ^ 32)
    (hright : s.right < s.buffer.length) :
    writeItem item s = NodeSerializer.writeItem item s := by
  have hkey : item.key.length % 2 ^ 8 ≤ 255 := by omega
  have hvalue : item.value.length % 2 ^ 8 ≤ 255 := by omega
  rw [writeItem, NodeSerializer.writeItem]
  simp only [sub32_sub32, onSpan_field (F := uint16) rfl, onSpan_raw, Option.bind_eq_bind]
  generalize item.key.length % 2 ^ 8 = keySize at *
  generalize item.value.length % 2 ^ 8 = valueSize at *
  by_cases hroom : keySize + valueSize + 2 ≤ s.right
  · rw [if_pos hroom, Option.bind_some, sub32_eq (by omega) (by omega),
      sub32_eq (n := valueSize) (by omega) (by omega),
      sub32_eq (n := valueSize + 1) (by omega) (by omega),
      sub32_eq (n := valueSize + 1 + keySize) (by omega) (by omega),
      sub32_eq (n := valueSize + 1 + keySize + 1) (by omega) (by omega)]
    simp only [Nat.sub_sub]
    refine Option.bind_congr fun b₁ h₁ => ?_
    have hwritten := le_of_write h₁
    rw [length_toLE] at hwritten
    have hleft : s.left + 2 ≤ s.buffer.length := hwritten
    have hoffset : valueSize + 1 + keySize + 1 = keySize + valueSize + 2 := by omega
    rw [Nat.mod_eq_of_lt (by omega), hoffset]
  · rw [if_neg hroom, Option.bind_none, Option.eq_none_iff_forall_ne_some]
    intro s' h
    simp only [Option.bind_eq_some_iff] at h
    obtain ⟨b₁, h₁, b₂, h₂, b₃, h₃, b₄, h₄, b₅, h₅, -⟩ := h
    -- The last byte would go to the other end of the numbers.
    have hlast := le_of_write h₅
    rw [length_write h₄, length_write h₃, length_write h₂, length_write h₁, List.length_singleton,
      sub32] at hlast
    omega

theorem right_of_writeChild {isLeaf : Bool} {children : List Nat} {i : Nat} {s s' : Slots}
    (h : NodeSerializer.writeChild isLeaf children i s = some s') : s'.right = s.right := by
  unfold NodeSerializer.writeChild at h
  split at h
  · cases h
    rfl
  · simp only [Option.bind_eq_bind, Option.bind_eq_some_iff, Option.some.injEq] at h
    obtain ⟨child, -, buffer, -, rfl⟩ := h
    rfl

theorem writeItems_eq (isLeaf : Bool) (children : List Nat) (i : Nat) (items : List Item)
    {s : Slots} (hlarge : s.buffer.length + 512 ≤ 2 ^ 32) (hright : s.right < s.buffer.length) :
    writeItems isLeaf children i items s = NodeSerializer.writeItems isLeaf children i items s := by
  induction items generalizing i s with
  | nil => rfl
  | cons item items ih =>
    rw [writeItems, NodeSerializer.writeItems, writeChild_eq isLeaf children i (by omega)]
    refine Option.bind_congr fun s₁ h₁ => ?_
    have hlen₁ := NodeSerializer.length_of_writeChild h₁
    have hright₁ := right_of_writeChild h₁
    rw [writeItem_eq item (s := s₁) (by omega) (by omega)]
    refine Option.bind_congr fun s₂ h₂ => ?_
    have hlen₂ := NodeSerializer.length_of_writeItem h₂
    obtain ⟨_, _, _, _, _, hoffset, -, -, -, -, -, -, hright₂⟩ := NodeSerializer.writeItem_eq_some h₂
    exact ih (i + 1) (by omega) (by omega)

theorem serialize_eq (items : List Item) (children : List Nat) {bufferSize : Nat}
    (hlarge : bufferSize + 512 ≤ 2 ^ 32) :
    serialize items children bufferSize = NodeSerializer.serialize items children bufferSize := by
  have hflag : toLE 1 (if children.isEmpty then 1 else 0) =
      [if children.isEmpty then 1 else 0] := by
    cases children.isEmpty <;> rfl
  have hfits : ∀ f ∈ [field uint8 (if children.isEmpty then 1 else 0),
      field uint16 (items.length % 2 ^ 16)], f.Fits := by
    simpa using ⟨field_fits (F := uint8) rfl _, field_fits (F := uint16) rfl _⟩
  have hheader := put_bind hfits (s := .start (List.replicate bufferSize 0)) (k := fun buffer => do
    let s ← writeItems children.isEmpty children 0 (items.take (items.length % 2 ^ 16))
      ⟨buffer, headerSize, sub32 bufferSize 1⟩
    if children.isEmpty then some s.buffer
    else do
      let last ← children.getLast?
      onSpan s.buffer s.left (put [field uint64 last]))
  rw [List.flatMap_cons, List.flatMap_singleton, bytes_field (F := uint8) rfl,
    bytes_field (F := uint16) rfl] at hheader
  refine hheader.trans ?_
  rw [NodeSerializer.serialize, show uint8.bytes = 1 from rfl, hflag]
  refine Option.bind_congr fun buffer hbuffer => ?_
  have hlen := length_write hbuffer
  have hroom := le_of_write hbuffer
  rw [Stream.start, List.length_replicate] at hlen hroom
  rw [List.length_append, List.length_singleton, length_toLE] at hroom
  rw [sub32_eq (by omega) (by omega),
    writeItems_eq _ _ _ _ (s := ⟨buffer, headerSize, bufferSize - 1⟩) (by simp only; omega)
      (by simp only; omega)]
  refine Option.bind_congr fun s _ => ?_
  simp only [onSpan_field (F := uint64) rfl]
  rfl

theorem readSized_eq (buffer : Bytes) (offset : Nat) :
    readSized buffer offset = NodeSerializer.readSized buffer offset := by
  rw [readSized, NodeSerializer.readSized]
  refine Option.bind_congr fun size _ => Option.bind_congr fun piece hpiece => ?_
  have hlen := length_of_read hpiece
  obtain ⟨s', hreads⟩ : ∃ s', (Stream.start piece).Reads piece s' :=
    ⟨⟨piece, piece.length, Nat.le_refl _⟩, Stream.reads_iff.mpr
      ⟨fun i _ => congrArg (piece[·]?) (Nat.zero_add i), rfl, (Nat.zero_add _).symm⟩⟩
  rw [Stream.Reads, hlen] at hreads
  rw [hreads]
  rfl

theorem readChild_eq (isLeaf : Bool) {buffer : Bytes} (left : Nat)
    (hlarge : buffer.length < 2 ^ 32) :
    readChild isLeaf buffer left = NodeSerializer.readChild isLeaf buffer left := by
  rw [readChild, NodeSerializer.readChild]
  cases isLeaf with
  | true => rfl
  | false =>
    refine (span_bind_get (F := uint64) rfl
      (r := fun data => some ([ofLE data], (left + pageNumSize) % 2 ^ 32))
      fun data s' => rfl).trans (Option.bind_congr fun data hdata => ?_)
    have hle : left + pageNumSize ≤ buffer.length := (read_eq_some_iff.mp hdata).1
    rw [Nat.mod_eq_of_lt (Nat.lt_of_le_of_lt hle hlarge)]

theorem readItems_eq (isLeaf : Bool) {buffer : Bytes} (hlarge : buffer.length < 2 ^ 32)
    (count left : Nat) :
    readItems isLeaf buffer count left = NodeSerializer.readItems isLeaf buffer count left := by
  induction count generalizing left with
  | zero => rfl
  | succ count ih =>
    rw [readItems, NodeSerializer.readItems, readChild_eq isLeaf left hlarge]
    refine Option.bind_congr fun r _ => ?_
    obtain ⟨child, left⟩ := r
    refine (span_bind_get (F := uint16) rfl (r := fun data =>
      (readSized buffer (ofLE data)).bind fun key => (readSized buffer key.2).bind fun value =>
        (readItems isLeaf buffer count ((left + 2) % 2 ^ 32)).bind fun rest =>
          some (⟨key.1, value.1⟩ :: rest.1, child ++ rest.2.1, rest.2.2))
      fun data s' => rfl).trans (Option.bind_congr fun data hdata => ?_)
    have hle : left + 2 ≤ buffer.length := (read_eq_some_iff.mp hdata).1
    rw [Nat.mod_eq_of_lt (Nat.lt_of_le_of_lt hle hlarge), ih]
    simp only [readSized_eq]
    rfl

theorem deserialize_eq {buffer : Bytes} (hlarge : buffer.length < 2 ^ 32) :
    deserialize buffer = NodeSerializer.deserialize buffer := by
  refine (get_bind (F := uint8) rfl (r := fun flag =>
    (Buffers.read buffer 1 2).bind fun itemsCount =>
      (NodeSerializer.readItems (ofLE flag ≠ 0) buffer (ofLE itemsCount) headerSize).bind fun r =>
        if ofLE flag ≠ 0 then some (r.1, r.2.1)
        else (Buffers.read buffer r.2.2 8).bind fun pageNum =>
          some (r.1, r.2.1 ++ [ofLE pageNum])) fun flag s hdata hposition => ?_).trans ?_
  · refine (get_bind (F := uint16) rfl (r := fun itemsCount =>
      (NodeSerializer.readItems (ofLE flag ≠ 0) buffer (ofLE itemsCount) headerSize).bind fun r =>
        if ofLE flag ≠ 0 then some (r.1, r.2.1)
        else (Buffers.read buffer r.2.2 8).bind fun pageNum =>
          some (r.1, r.2.1 ++ [ofLE pageNum])) fun itemsCount s' _ _ => ?_).trans ?_
    · change (readItems _ buffer (ofLE itemsCount) headerSize).bind _ = Option.bind _ _
      rw [readItems_eq _ hlarge]
      refine Option.bind_congr fun r _ => ite_congr rfl (fun _ => rfl) fun _ => ?_
      exact span_bind_get (F := uint64) rfl fun data s' => rfl
    · rw [hdata, hposition]
      rfl
  · rw [NodeSerializer.deserialize]
    cases buffer with
    | nil => rfl
    | cons flag rest =>
      have hflag : (ofLE [flag] ≠ 0) = (flag ≠ 0) := by
        rw [show ofLE [flag] = flag.toNat from rfl, Ne, Ne, ← UInt8.toNat_inj]
        rfl
      have hread : Buffers.read (flag :: rest) 0 1 = some [flag] := by
        rw [Buffers.read, if_pos (by simp)]
        rfl
      change (Buffers.read (flag :: rest) 0 1).bind _ = _
      rw [hread, Option.bind_some]
      simp only [hflag]
      rfl

end Node

namespace Meta

theorem serialize_eq (self : Toocal.Meta) : serialize self = some (MetaSerializer.serialize self) := by
  have hfits : ∀ f ∈ [field uint64 self.root, field uint64 self.freelistPage], f.Fits := by
    simpa using ⟨field_fits (F := uint64) rfl self.root, field_fits (F := uint64) rfl _⟩
  have hput := put_bind hfits (s := .start (List.replicate (8 + 8) 0)) (k := some)
  rw [List.flatMap_cons, List.flatMap_singleton, bytes_field (F := uint64) rfl,
    bytes_field (F := uint64) rfl] at hput
  refine hput.trans ?_
  rw [Option.bind_fun_some]
  exact write_all (by simp [Stream.start, uint64])

theorem deserialize_eq (buffer : Bytes) : deserialize buffer = MetaSerializer.deserialize buffer := by
  refine (get_bind (F := uint64) rfl (r := fun data => do
    let freelistPage ← Buffers.read buffer 8 8
    some (⟨ofLE data, ofLE freelistPage⟩ : Toocal.Meta)) fun data s hdata hposition => ?_)
  refine (get_bind (F := uint64) rfl (r := fun data' => some (⟨ofLE data, ofLE data'⟩ : Toocal.Meta))
    fun data' s' _ _ => rfl).trans ?_
  rw [hdata, hposition]
  rfl

end Meta

namespace Freelist

theorem serialize_eq (self : Toocal.Freelist) :
    serialize self = some (FreelistSerializer.serialize self) := by
  have hfits : ∀ f ∈ field uint16 self.maxPage :: field uint16 self.releasedPages.length ::
      self.releasedPages.map (field uint64), f.Fits := by
    rw [List.forall_mem_cons, List.forall_mem_cons, List.forall_mem_map]
    exact ⟨field_fits rfl _, field_fits rfl _, fun page _ => field_fits rfl page⟩
  have hput := put_bind hfits (k := some)
    (s := .start (List.replicate (2 + 2 + 8 * self.releasedPages.length) 0))
  rw [List.flatMap_cons, List.flatMap_cons, bytes_field (F := uint16) rfl,
    bytes_field (F := uint16) rfl, List.flatMap_map] at hput
  refine hput.trans ?_
  rw [Option.bind_fun_some, ← List.append_assoc]
  simp only [bytes_field (F := uint64) rfl]
  exact write_all (by simp [Stream.start, uint16, uint64]; omega)

theorem readPages_eq (count : Nat) (s : Stream) :
    readPages count s = FreelistSerializer.readPages s.data count s.position := by
  induction count generalizing s with
  | zero => rfl
  | succ count ih =>
    refine (get_bind (F := uint64) rfl (r := fun data => do
      let pages ← FreelistSerializer.readPages s.data count (s.position + 8)
      some (ofLE data :: pages)) fun data s' hdata hposition => ?_)
    simp only [ih, hdata, hposition]
    rfl

theorem deserialize_eq (buffer : Bytes) :
    deserialize buffer = FreelistSerializer.deserialize buffer := by
  refine (get_bind (F := uint16) rfl (r := fun data => do
    let count ← Buffers.read buffer 2 2
    let pages ← FreelistSerializer.readPages buffer (ofLE count) 4
    some (⟨ofLE data, pages⟩ : Toocal.Freelist)) fun data s hdata hposition => ?_)
  refine (get_bind (F := uint16) rfl (r := fun count => do
    let pages ← FreelistSerializer.readPages buffer (ofLE count) 4
    some (⟨ofLE data, pages⟩ : Toocal.Freelist)) fun count s' hdata' hposition' => ?_).trans ?_
  · simp only [readPages_eq, hdata', hposition', hdata, hposition]
    rfl
  · rw [hdata, hposition]
    rfl

end Freelist

end Streamed

/-- **The serializers over the streams are those over the buffer**: number by number and with
32 bits for the offsets, they write and read the same, and access memory outside of a buffer
for the same arguments.  A page must be some bytes smaller than the offsets can tell apart. -/
theorem serializers_over_streams {bufferSize : Nat} (hlarge : bufferSize + 512 ≤ 2 ^ 32) :
    (∀ items children, Streamed.Node.serialize items children bufferSize =
      NodeSerializer.serialize items children bufferSize) ∧
    (∀ buffer : Bytes, buffer.length = bufferSize →
      Streamed.Node.deserialize buffer = NodeSerializer.deserialize buffer) ∧
    (∀ self, Streamed.Meta.serialize self = some (MetaSerializer.serialize self)) ∧
    (∀ buffer, Streamed.Meta.deserialize buffer = MetaSerializer.deserialize buffer) ∧
    (∀ self, Streamed.Freelist.serialize self = some (FreelistSerializer.serialize self)) ∧
    (∀ buffer, Streamed.Freelist.deserialize buffer = FreelistSerializer.deserialize buffer) :=
  ⟨fun items children => Streamed.Node.serialize_eq items children hlarge,
    fun _ hlen => Streamed.Node.deserialize_eq (by omega), Streamed.Meta.serialize_eq,
    Streamed.Meta.deserialize_eq, Streamed.Freelist.serialize_eq,
    Streamed.Freelist.deserialize_eq⟩

/-- The pages that `write_node` writes are small enough. -/
theorem serializers_over_streams_default :
    (∀ items children, Streamed.Node.serialize items children defaultPageSize =
      NodeSerializer.serialize items children defaultPageSize) ∧
    ∀ buffer : Bytes, buffer.length = defaultPageSize →
      Streamed.Node.deserialize buffer = NodeSerializer.deserialize buffer :=
  have hpage : defaultPageSize ≤ 2 ^ 16 := defaultPageSize_le
  have hlarge : defaultPageSize + 512 ≤ 2 ^ 32 :=
    Nat.le_trans (Nat.add_le_add_right hpage 512) (by decide)
  have h := serializers_over_streams hlarge
  ⟨h.1, h.2.1⟩

end Toocal
