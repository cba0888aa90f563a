import Mathlib.Data.Nat.Bitwise
import Toocal.Core.Utils
import Toocal.Library.Buffer

/-!
# The stream library

`little_endian`, `big_endian`, `stream_writer` and `stream_reader` of `libs/endian`, as the
serializers use them: the recursions over the bytes of a number, and the streams with the
position they read or write at.  `none` stands for an assertion that fails or an access
outside of the buffer.

- `EndianType.putBytes_eq` and `EndianType.getBytes_eq` say what the recursions compute.
- `Stream.writeBytes_eq` and `Stream.readBytes_eq` come down to raw bytes; where a stream
  writes and reads these say `Stream.writeRaw_iff` and `Stream.readRaw_iff`.
-/

namespace Toocal.Endian

open Buffers

/-- `little_endian` and `big_endian`. -/
inductive EndianType where
  | littleEndian
  | bigEndian
  deriving DecidableEq, Repr

/-- An integer type and the `Bytes` it is written with; the fields state what is asserted when
the templates are compiled. -/
structure Format where
  /-- `sizeof(ValueType)`. -/
  size : Nat
  isUnsigned : Bool
  bytes : Nat
  size_mem : size ∈ [1, 2, 4, 8]
  half_lt : size / 2 < bytes
  le_size : bytes ≤ size
  signed : isUnsigned = false → bytes = size

/-- `ValueType`. -/
abbrev Format.Value (F : Format) := BitVec (8 * F.size)

/-- `value >> 8`; it repeats the sign of a value that has one. -/
def Format.shiftRight (F : Format) (value : F.Value) : F.Value :=
  if F.isUnsigned then value >>> 8 else value.sshiftRight 8

/-- `value & 0xFF`, stored in a byte. -/
def lowByte {w : Nat} (value : BitVec w) : UInt8 := UInt8.ofNat (value &&& 0xFF#w).toNat

/-- `(ValueType)*buffer`. -/
def ofByte (w : Nat) (byte : UInt8) : BitVec w := BitVec.ofNat w byte.toNat

/-- `little_impl::put` for `n + 1` bytes; the buffer is what lies behind the pointer. -/
def littlePut (F : Format) : Nat → F.Value → Bytes → Option Bytes
  | _, _, [] => none
  | 0, value, _ :: rest => some (lowByte value :: rest)
  | n + 1, value, _ :: rest => do
    let rest ← littlePut F n (F.shiftRight value) rest
    some (lowByte value :: rest)

/-- `big_impl::put` for `n + 1` bytes; it shifts the value of its caller. -/
def bigPut (F : Format) : Nat → F.Value → Bytes → Option (F.Value × Bytes)
  | _, _, [] => none
  | 0, value, _ :: rest => some (value, lowByte value :: rest)
  | n + 1, value, _ :: rest => do
    let (value, rest) ← bigPut F n value rest
    let value := F.shiftRight value
    some (value, lowByte value :: rest)

/-- `little_impl::get` for `n + 1` bytes. -/
def littleGet (F : Format) : Nat → F.Value → Bytes → Option F.Value
  | _, _, [] => none
  | 0, value, byte :: _ => some (value ||| ofByte _ byte)
  | n + 1, value, byte :: rest => do
    let value ← littleGet F n value rest
    some (value <<< 8 ||| ofByte _ byte)

/-- `big_impl::get` for `n + 1` bytes. -/
def bigGet (F : Format) : Nat → F.Value → Bytes → Option F.Value
  | _, _, [] => none
  | 0, value, byte :: _ => some (value ||| ofByte _ byte)
  | n + 1, value, byte :: rest => bigGet F n ((value ||| ofByte _ byte) <<< 8) rest

/-- `check::value`. -/
def check (F : Format) (value : F.Value) : Bool :=
  if F.isUnsigned ∧ F.size = 1 then true
  else match F.bytes with
    | 3 => value.toNat ≤ 0xFFFFFF
    | 5 => value.toNat ≤ 0xFFFFFFFFFF
    | 6 => value.toNat ≤ 0xFFFFFFFFFFFF
    | 7 => value.toNat ≤ 0xFFFFFFFFFFFFFF
    | bytes => F.size = bytes

/-- `put_bytes`. -/
def EndianType.putBytes (e : EndianType) (F : Format) (value : F.Value) (buffer : Bytes) :
    Option Bytes :=
  if check F value then
    match e with
    | littleEndian => littlePut F (F.bytes - 1) value buffer
    | bigEndian => (bigPut F (F.bytes - 1) value buffer).map Prod.snd
  else none

/-- `get_bytes`. -/
def EndianType.getBytes (e : EndianType) (F : Format) (buffer : Bytes) : Option F.Value :=
  match e with
  | littleEndian => littleGet F (F.bytes - 1) 0 buffer
  | bigEndian => bigGet F (F.bytes - 1) 0 buffer

/-! ## What the recursions compute -/

section Format

variable {F : Format}

theorem Format.size_pos (F : Format) : 0 < F.size := by
  have := F.half_lt
  have := F.le_size
  omega

theorem lowByte_eq (value : F.Value) : lowByte value = UInt8.ofNat value.toNat := by
  have hwidth : 255 < 2 ^ (8 * F.size) :=
    Nat.lt_of_lt_of_le (by decide : 255 < 2 ^ 8)
      (Nat.pow_le_pow_right (by decide) (by have := F.size_pos; omega))
  have hmask : value.toNat &&& 255 = value.toNat % 2 ^ 8 :=
    Nat.and_two_pow_sub_one_eq_mod value.toNat 8
  refine UInt8.toNat_inj.mp ?_
  rw [lowByte, BitVec.toNat_and, BitVec.toNat_ofNat, Nat.mod_eq_of_lt hwidth, hmask,
    UInt8.toNat_ofNat', UInt8.toNat_ofNat', Nat.mod_mod]

/-- Shifting brings the second byte to the front, whatever it fills the last one with. -/
theorem Format.shiftRight_mod {k : Nat} (value : F.Value) (hk : k + 1 ≤ F.size) :
    (F.shiftRight value).toNat % 256 ^ k = value.toNat / 256 % 256 ^ k := by
  rw [show 256 ^ k = 2 ^ (8 * k) by rw [Nat.pow_mul], show 256 = 2 ^ 8 from rfl]
  refine Nat.eq_of_testBit_eq fun i => ?_
  rw [Nat.testBit_mod_two_pow, Nat.testBit_mod_two_pow, Nat.testBit_div_two_pow]
  by_cases hi : i < 8 * k
  · rw [Format.shiftRight]
    split
    · rw [BitVec.toNat_ushiftRight, Nat.testBit_shiftRight, Nat.add_comm]
    · have hin : 8 + i < 8 * F.size := by omega
      have hbit := BitVec.getLsbD_sshiftRight value 8 i
      rw [if_pos hin, Nat.add_comm 8 i] at hbit
      rw [BitVec.testBit_toNat, hbit, BitVec.testBit_toNat]
      simp only [show ¬8 * F.size ≤ i by omega, decide_false, Bool.not_false, Bool.true_and]
  · simp only [hi, decide_false, Bool.false_and]

theorem Format.shiftRight_iterate {j k : Nat} (value : F.Value) (hk : j + k ≤ F.size) :
    (F.shiftRight^[j] value).toNat % 256 ^ k = value.toNat / 256 ^ j % 256 ^ k := by
  induction j generalizing k with
  | zero => rw [Nat.pow_zero, Nat.div_one]; rfl
  | succ j ih =>
    have hnext := ih (k := k + 1) (by omega)
    have hdiv : ∀ x : Nat, x / 256 % 256 ^ k = x % 256 ^ (k + 1) / 256 := by
      intro x
      rw [Nat.pow_succ', Nat.mod_mul_right_div_self]
    rw [Function.iterate_succ_apply', shiftRight_mod _ (by omega), hdiv, hnext, ← hdiv,
      Nat.div_div_eq_div_mul, Nat.pow_succ]

theorem littlePut_eq {n : Nat} (value : F.Value) (buffer : Bytes) (hn : n + 1 ≤ F.size) :
    littlePut F n value buffer = if n + 1 ≤ buffer.length then
      some (toLE (n + 1) value.toNat ++ buffer.drop (n + 1)) else none := by
  induction n generalizing value buffer with
  | zero =>
    cases buffer with
    | nil => rfl
    | cons byte rest =>
      rw [if_pos (by simp), littlePut, lowByte_eq]
      rfl
  | succ n ih =>
    cases buffer with
    | nil => rfl
    | cons byte rest =>
      have hrest : toLE (n + 1) (F.shiftRight value).toNat = toLE (n + 1) (value.toNat / 256) :=
        toLE_congr (Format.shiftRight_mod value hn)
      rw [littlePut, ih _ rest (by omega), hrest, lowByte_eq]
      by_cases hle : n + 1 ≤ rest.length
      · rw [if_pos hle, if_pos (by rw [List.length_cons]; omega), toLE]
        rfl
      · rw [if_neg hle, if_neg (by rw [List.length_cons]; omega)]
        rfl

theorem bigPut_eq {n : Nat} (value : F.Value) (buffer : Bytes) (hn : n + 1 ≤ F.size) :
    bigPut F n value buffer = if n + 1 ≤ buffer.length then
      some (F.shiftRight^[n] value, (toLE (n + 1) value.toNat).reverse ++ buffer.drop (n + 1))
      else none := by
  induction n generalizing buffer with
  | zero =>
    cases buffer with
    | nil => rfl
    | cons byte rest =>
      rw [if_pos (by simp), bigPut, lowByte_eq]
      rfl
  | succ n ih =>
    cases buffer with
    | nil => rfl
    | cons byte rest =>
      have hlow : UInt8.ofNat (F.shiftRight^[n + 1] value).toNat =
          UInt8.ofNat (value.toNat / 256 ^ (n + 1)) := by
        have hmod := Format.shiftRight_iterate (k := 1) value hn
        refine UInt8.toNat_inj.mp ?_
        rwa [UInt8.toNat_ofNat', UInt8.toNat_ofNat']
      rw [bigPut, ih rest (by omega)]
      by_cases hle : n + 1 ≤ rest.length
      · rw [if_pos hle, if_pos (by rw [List.length_cons]; omega),
          toLE_succ_last (n + 1)]
        simp only [Option.bind_eq_bind, Option.bind_some, lowByte_eq,
          ← Function.iterate_succ_apply', hlow, List.reverse_append, List.reverse_singleton,
          List.nil_append, List.cons_append, List.drop_succ_cons]
      · rw [if_neg hle, if_neg (by rw [List.length_cons]; omega)]
        rfl

theorem shiftLeft_or_ofByte (w x : Nat) (byte : UInt8) :
    BitVec.ofNat w (256 * x) ||| ofByte w byte = BitVec.ofNat w (byte.toNat + 256 * x) := by
  refine BitVec.eq_of_getLsbD_eq fun i hi => ?_
  have hbyte : byte.toNat < 2 ^ 8 := byte.toNat_lt
  have hzero := Nat.testBit_two_pow_mul_add x (Nat.two_pow_pos 8) i
  have hsum := Nat.testBit_two_pow_mul_add x hbyte i
  rw [Nat.add_zero, Nat.zero_testBit] at hzero
  rw [show 256 = 2 ^ 8 from rfl, Nat.add_comm byte.toNat, BitVec.getLsbD_or, ofByte,
    BitVec.getLsbD_ofNat, BitVec.getLsbD_ofNat, BitVec.getLsbD_ofNat, hzero, hsum]
  by_cases h8 : i < 8
  · simp only [hi, h8, decide_true, if_true, Bool.true_and, Bool.false_or]
  · have hhigh : byte.toNat.testBit i = false :=
      Nat.testBit_eq_false_of_lt (Nat.lt_of_lt_of_le hbyte
        (Nat.pow_le_pow_right (by decide) (by omega)))
    simp only [h8, if_false, hhigh, Bool.and_false, Bool.or_false]

theorem shiftLeft_ofNat (w x : Nat) : BitVec.ofNat w x <<< 8 = BitVec.ofNat w (256 * x) := by
  refine BitVec.eq_of_toNat_eq ?_
  rw [BitVec.toNat_shiftLeft, BitVec.toNat_ofNat, BitVec.toNat_ofNat, Nat.shiftLeft_eq,
    Nat.mul_comm, Nat.mul_mod_mod]

theorem littleGet_eq (n : Nat) (buffer : Bytes) :
    littleGet F n 0 buffer = if n + 1 ≤ buffer.length then
      some (BitVec.ofNat _ (ofLE (buffer.take (n + 1)))) else none := by
  induction n generalizing buffer with
  | zero =>
    cases buffer with
    | nil => rfl
    | cons byte rest =>
      have hvalue := shiftLeft_or_ofByte (8 * F.size) 0 byte
      rw [if_pos (by simp), littleGet]
      exact congrArg some hvalue
  | succ n ih =>
    cases buffer with
    | nil => rfl
    | cons byte rest =>
      rw [littleGet, ih rest]
      by_cases hle : n + 1 ≤ rest.length
      · rw [if_pos hle, if_pos (by rw [List.length_cons]; omega), List.take_succ_cons, ofLE,
          ← shiftLeft_or_ofByte, ← shiftLeft_ofNat]
        rfl
      · rw [if_neg hle, if_neg (by rw [List.length_cons]; omega)]
        rfl

theorem bigGet_eq (n x : Nat) (buffer : Bytes) :
    bigGet F n (BitVec.ofNat _ (256 * x)) buffer = if n + 1 ≤ buffer.length then
      some (BitVec.ofNat _ (ofLE (buffer.take (n + 1)).reverse + 256 ^ (n + 1) * x))
      else none := by
  induction n generalizing x buffer with
  | zero =>
    cases buffer with
    | nil => rfl
    | cons byte rest =>
      rw [if_pos (by simp), bigGet, shiftLeft_or_ofByte]
      rfl
  | succ n ih =>
    cases buffer with
    | nil => rfl
    | cons byte rest =>
      rw [bigGet, shiftLeft_or_ofByte, shiftLeft_ofNat, ih]
      by_cases hle : n + 1 ≤ rest.length
      · have hlen : (rest.take (n + 1)).reverse.length = n + 1 := by
          rw [List.length_reverse, List.length_take, Nat.min_eq_left hle]
        rw [if_pos hle, if_pos (by rw [List.length_cons]; omega), List.take_succ_cons,
          List.reverse_cons, ofLE_append, hlen, show ofLE [byte] = byte.toNat from rfl,
          Nat.pow_succ _ (n + 1), Nat.mul_assoc, Nat.add_assoc, ← Nat.mul_add]
      · rw [if_neg hle, if_neg (by rw [List.length_cons]; omega)]

theorem check_iff (value : F.Value) : check F value = true ↔ value.toNat < 256 ^ F.bytes := by
  have hvalue : value.toNat < 2 ^ (8 * F.size) := value.isLt
  obtain ⟨size, isUnsigned, bytes, hmem, hhalf, hle, hsigned⟩ := F
  simp only [List.mem_cons, List.not_mem_nil, or_false] at hmem
  rcases hmem with rfl | rfl | rfl | rfl
  · obtain rfl : bytes = 1 := by omega
    simp_all [check]
  · obtain rfl : bytes = 2 := by omega
    simp_all [check]
  · obtain rfl | rfl : bytes = 3 ∨ bytes = 4 := by omega
    all_goals simp_all [check]; try omega
  · obtain rfl | rfl | rfl | rfl : bytes = 5 ∨ bytes = 6 ∨ bytes = 7 ∨ bytes = 8 := by omega
    all_goals simp_all [check]; try omega

end Format

/-- The bytes of a number. -/
def EndianType.encode (e : EndianType) (k n : Nat) : Bytes :=
  match e with
  | littleEndian => toLE k n
  | bigEndian => (toLE k n).reverse

/-- The number that bytes stand for. -/
def EndianType.decode (e : EndianType) (bytes : Bytes) : Nat :=
  match e with
  | littleEndian => ofLE bytes
  | bigEndian => ofLE bytes.reverse

namespace EndianType

@[simp] theorem length_encode (e : EndianType) (k n : Nat) : (e.encode k n).length = k := by
  cases e with
  | littleEndian => exact length_toLE k n
  | bigEndian => rw [encode, List.length_reverse, length_toLE]

theorem decode_encode (e : EndianType) {k n : Nat} (h : n < 256 ^ k) : e.decode (e.encode k n) = n := by
  cases e with
  | littleEndian => exact ofLE_toLE h
  | bigEndian => rw [decode, encode, List.reverse_reverse, ofLE_toLE h]

theorem encode_decode (e : EndianType) (bytes : Bytes) :
    e.encode bytes.length (e.decode bytes) = bytes := by
  cases e with
  | littleEndian => exact toLE_ofLE bytes
  | bigEndian =>
    rw [encode, decode, ← List.length_reverse, toLE_ofLE, List.reverse_reverse]

theorem decode_lt (e : EndianType) (bytes : Bytes) : e.decode bytes < 256 ^ bytes.length := by
  cases e with
  | littleEndian => exact ofLE_lt bytes
  | bigEndian =>
    rw [← List.length_reverse]
    exact ofLE_lt bytes.reverse

theorem putBytes_eq (e : EndianType) (F : Format) (value : F.Value) (buffer : Bytes) :
    e.putBytes F value buffer =
      if value.toNat < 256 ^ F.bytes ∧ F.bytes ≤ buffer.length then
        some (e.encode F.bytes value.toNat ++ buffer.drop F.bytes) else none := by
  have hpos : F.bytes - 1 + 1 = F.bytes := Nat.sub_add_cancel (by have := F.half_lt; omega)
  have hle : F.bytes - 1 + 1 ≤ F.size := hpos.symm ▸ F.le_size
  by_cases hfits : value.toNat < 256 ^ F.bytes
  · have hcheck := (check_iff value).mpr hfits
    cases e with
    | littleEndian =>
      simp only [putBytes, hcheck, if_true, littlePut_eq value buffer hle, hpos, hfits, true_and,
        encode]
    | bigEndian =>
      simp only [putBytes, hcheck, if_true, bigPut_eq value buffer hle, hpos, hfits, true_and,
        encode]
      split
      · rfl
      · rfl
  · have hcheck : ¬check F value = true := fun h => hfits ((check_iff value).mp h)
    rw [if_neg fun h => hfits h.1]
    exact if_neg hcheck

theorem getBytes_eq (e : EndianType) (F : Format) (buffer : Bytes) :
    e.getBytes F buffer = if F.bytes ≤ buffer.length then
      some (BitVec.ofNat _ (e.decode (buffer.take F.bytes))) else none := by
  have hpos : F.bytes - 1 + 1 = F.bytes := Nat.sub_add_cancel (by have := F.half_lt; omega)
  cases e with
  | littleEndian =>
    simp only [getBytes, littleGet_eq, hpos, decode]
  | bigEndian =>
    refine (bigGet_eq (F.bytes - 1) 0 buffer).trans ?_
    rw [hpos, Nat.mul_zero, Nat.add_zero]
    rfl

end EndianType

/-! ## Streams -/

/-- `detail::stream`; `seek` asserts that the position is inside of the buffer. -/
@[ext]
structure Stream where
  data : Bytes
  position : Nat
  inside : position ≤ data.length

namespace Stream

def size (s : Stream) : Nat := s.data.length

def remainingSize (s : Stream) : Nat := s.size - s.position

def remainingData (s : Stream) : Bytes := s.data.drop s.position

/-- A stream on top of a buffer. -/
def start (data : Bytes) : Stream := ⟨data, 0, Nat.zero_le _⟩

def seek (s : Stream) (newPosition : Nat) : Option Stream :=
  if h : newPosition ≤ s.size then some ⟨s.data, newPosition, h⟩ else none

def skip (s : Stream) (bytesToSkip : Nat) : Option Stream :=
  if bytesToSkip ≤ s.size - s.position then s.seek (s.position + bytesToSkip) else none

/-- The stream after what lies from its position on has been changed. -/
def changed (s : Stream) (rest : Bytes) : Stream where
  data := s.data.take s.position ++ rest
  position := s.position
  inside := by
    rw [List.length_append, List.length_take, Nat.min_eq_left s.inside]
    exact Nat.le_add_right _ _

/-- `stream_writer::write_bytes`. -/
def writeBytes (e : EndianType) (F : Format) (value : F.Value) (s : Stream) : Option Stream :=
  if F.bytes ≤ s.remainingSize then do
    let rest ← e.putBytes F value s.remainingData
    (s.changed rest).skip F.bytes
  else none

/-- `stream_writer::write` of raw bytes. -/
def writeRaw (data : Bytes) (s : Stream) : Option Stream :=
  if data.length ≤ s.remainingSize then
    (s.changed (data ++ s.remainingData.drop data.length)).skip data.length
  else none

/-- `stream_reader::peek_bytes`. -/
def peekBytes (e : EndianType) (F : Format) (s : Stream) (offset : Nat) : Option F.Value :=
  if offset ≤ s.remainingSize ∧ F.bytes ≤ s.remainingSize - offset then
    e.getBytes F (s.remainingData.drop offset)
  else none

/-- `stream_reader::read_bytes`. -/
def readBytes (e : EndianType) (F : Format) (s : Stream) : Option (F.Value × Stream) :=
  if F.bytes ≤ s.remainingSize then do
    let value ← s.peekBytes e F 0
    let s ← s.skip F.bytes
    some (value, s)
  else none

/-- `stream_reader::read` of raw bytes. -/
def readRaw (size : Nat) (s : Stream) : Option (Bytes × Stream) :=
  if size ≤ s.remainingSize then do
    let data := s.remainingData.take size
    let s ← s.skip size
    some (data, s)
  else none

/-! ## What the streams do -/

variable {s s' : Stream}

@[simp] theorem position_changed (s : Stream) (rest : Bytes) :
    (s.changed rest).position = s.position := rfl

theorem length_remainingData (s : Stream) : s.remainingData.length = s.remainingSize :=
  List.length_drop

theorem skip_eq_some_iff {n : Nat} :
    s.skip n = some s' ↔ n ≤ s.remainingSize ∧ s'.data = s.data ∧ s'.position = s.position + n := by
  have hinside : s.position ≤ s.size := s.inside
  rw [skip, seek, remainingSize]
  by_cases hn : n ≤ s.size - s.position
  · rw [if_pos hn, dif_pos (by omega), Option.some.injEq]
    refine ⟨?_, fun h => Stream.ext h.2.1.symm h.2.2.symm⟩
    rintro rfl
    exact ⟨hn, rfl, rfl⟩
  · rw [if_neg hn]
    exact ⟨fun h => (nomatch h), fun h => absurd h.1 hn⟩

theorem writeRaw_iff {data : Bytes} :
    s.writeRaw data = some s' ↔ Buffers.write s.data s.position data = some s'.data ∧
      s'.position = s.position + data.length := by
  have hinside : s.position ≤ s.data.length := s.inside
  have hsize : s.remainingSize = s.data.length - s.position := rfl
  have hdrop : s.data.take s.position ++ (data ++ s.remainingData.drop data.length) =
      s.data.take s.position ++ data ++ s.data.drop (s.position + data.length) := by
    rw [remainingData, List.drop_drop, List.append_assoc]
  by_cases hle : data.length ≤ s.remainingSize
  · have hroom : (s.changed (data ++ s.remainingData.drop data.length)).remainingSize =
        s.remainingSize := by
      rw [remainingSize, position_changed, size, changed, List.length_append, List.length_append,
        List.length_take, List.length_drop, length_remainingData, Nat.min_eq_left s.inside]
      omega
    rw [writeRaw, if_pos hle, skip_eq_some_iff, hroom, Buffers.write, if_pos (by omega),
      Option.some.injEq, eq_comm (b := s'.data), ← hdrop]
    exact ⟨fun h => h.2, fun h => ⟨hle, h⟩⟩
  · rw [writeRaw, if_neg hle, Buffers.write, if_neg (by omega)]
    simp only [reduceCtorEq, false_and]

theorem readRaw_iff {n : Nat} {data : Bytes} :
    s.readRaw n = some (data, s') ↔ Buffers.read s.data s.position n = some data ∧
      s'.data = s.data ∧ s'.position = s.position + n := by
  have hinside : s.position ≤ s.data.length := s.inside
  have hsize : s.remainingSize = s.data.length - s.position := rfl
  by_cases hle : n ≤ s.remainingSize
  · rw [readRaw, if_pos hle, Buffers.read, if_pos (by omega)]
    simp only [Option.bind_eq_bind, Option.bind_eq_some_iff, Option.some.injEq, Prod.mk.injEq]
    constructor
    · rintro ⟨t, ht, rfl, rfl⟩
      obtain ⟨-, hdata, hposition⟩ := skip_eq_some_iff.mp ht
      exact ⟨rfl, hdata, hposition⟩
    · rintro ⟨rfl, hdata, hposition⟩
      exact ⟨s', skip_eq_some_iff.mpr ⟨hle, hdata, hposition⟩, rfl, rfl⟩
  · rw [readRaw, if_neg hle, Buffers.read, if_neg (by omega)]
    simp only [reduceCtorEq, false_and]

/-- **Writing a number is writing its bytes**, if they can hold it. -/
theorem writeBytes_eq (e : EndianType) (F : Format) (value : F.Value) (s : Stream) :
    s.writeBytes e F value = if value.toNat < 256 ^ F.bytes then
      s.writeRaw (e.encode F.bytes value.toNat) else none := by
  rw [writeBytes, writeRaw, e.putBytes_eq, EndianType.length_encode, length_remainingData]
  by_cases hfits : value.toNat < 256 ^ F.bytes
  · by_cases hle : F.bytes ≤ s.remainingSize
    · simp only [hfits, hle, and_self, if_true]
      rfl
    · simp only [hle, if_false, ite_self]
  · simp only [hfits, false_and, if_false]
    exact ite_self none

/-- **Reading a number is reading its bytes.** -/
theorem readBytes_eq (e : EndianType) (F : Format) (s : Stream) :
    s.readBytes e F = (s.readRaw F.bytes).map fun r => (BitVec.ofNat _ (e.decode r.1), r.2) := by
  rw [readBytes, readRaw, peekBytes, e.getBytes_eq]
  by_cases hle : F.bytes ≤ s.remainingSize
  · simp only [hle, List.drop_zero, Nat.sub_zero, Nat.zero_le, and_self, if_true,
      length_remainingData]
    cases s.skip F.bytes with
    | none => rfl
    | some s' => rfl
  · simp only [hle, if_false]
    rfl

theorem readRaw_of_writeRaw {data : Bytes} (h : s.writeRaw data = some s') :
    ∃ back, s'.seek s.position = some back ∧ back.readRaw data.length = some (data, s') := by
  obtain ⟨hwrite, hposition⟩ := writeRaw_iff.mp h
  have hlen := length_write hwrite
  have hroom : s.position ≤ s'.size := by
    rw [size, hlen]
    exact s.inside
  have hinside := s'.inside
  refine ⟨_, dif_pos hroom, readRaw_iff.mpr ⟨?_, rfl, hposition⟩⟩
  exact (has_of_write hwrite).read (hposition ▸ hinside)

theorem writeRaw_of_readRaw {n : Nat} {data : Bytes} (h : s.readRaw n = some (data, s')) :
    s.writeRaw data = some s' := by
  obtain ⟨hread, hdata, hposition⟩ := readRaw_iff.mp h
  have hlen := length_of_read hread
  refine writeRaw_iff.mpr ⟨?_, by rw [hlen, hposition]⟩
  obtain ⟨hle, rfl⟩ := read_eq_some_iff.mp hread
  rw [Buffers.write, hlen, if_pos hle, hdata, ← List.drop_drop, List.append_assoc,
    List.take_append_drop, List.take_append_drop]

theorem writeRaw_append {data data' : Bytes} :
    s.writeRaw (data ++ data') = (s.writeRaw data).bind (writeRaw data') := by
  refine Option.ext fun s' => ?_
  rw [Option.bind_eq_some_iff, writeRaw_iff, write_append, Option.bind_eq_some_iff,
    List.length_append, ← Nat.add_assoc]
  constructor
  · rintro ⟨⟨buf, hbuf, hwrite⟩, hposition⟩
    have hle : s.position + data.length ≤ buf.length := by
      rw [length_write hbuf]
      exact le_of_write hbuf
    exact ⟨⟨buf, _, hle⟩, writeRaw_iff.mpr ⟨hbuf, rfl⟩, writeRaw_iff.mpr ⟨hwrite, hposition⟩⟩
  · rintro ⟨t, ht, hs'⟩
    obtain ⟨hbuf, hposition⟩ := writeRaw_iff.mp ht
    obtain ⟨hwrite, hposition'⟩ := writeRaw_iff.mp hs'
    rw [hposition] at hwrite hposition'
    exact ⟨⟨_, hbuf, hwrite⟩, hposition'⟩

theorem writeRaw_nil (s : Stream) : s.writeRaw [] = some s := by
  refine writeRaw_iff.mpr ⟨?_, rfl⟩
  rw [Buffers.write, List.length_nil, Nat.add_zero, if_pos s.inside, List.append_nil,
    List.take_append_drop]

/-- The stream reads the bytes, and goes on as `s'`. -/
def Reads (s : Stream) (data : Bytes) (s' : Stream) : Prop := s.readRaw data.length = some (data, s')

theorem reads_iff {data : Bytes} : s.Reads data s' ↔
    Has s.data s.position data ∧ s'.data = s.data ∧ s'.position = s.position + data.length := by
  rw [Reads, readRaw_iff]
  constructor
  · rintro ⟨hread, hrest⟩
    exact ⟨has_of_read hread, hrest⟩
  · rintro ⟨hhas, hdata, hposition⟩
    have hinside := s'.inside
    rw [hdata, hposition] at hinside
    exact ⟨hhas.read hinside, hdata, hposition⟩

theorem exists_writeRaw_iff {data : Bytes} :
    (∃ s', s.writeRaw data = some s') ↔ data.length ≤ s.remainingSize := by
  have hinside : s.position ≤ s.data.length := s.inside
  have hsize : s.remainingSize = s.data.length - s.position := rfl
  constructor
  · rintro ⟨s', h⟩
    have := le_of_write (writeRaw_iff.mp h).1
    omega
  · intro h
    obtain ⟨buffer, hbuffer⟩ := exists_write s.data s.position data (by omega)
    have hlen := length_write hbuffer
    exact ⟨⟨buffer, s.position + data.length, by omega⟩, writeRaw_iff.mpr ⟨hbuffer, rfl⟩⟩

theorem exists_readRaw_iff {n : Nat} : (∃ r, s.readRaw n = some r) ↔ n ≤ s.remainingSize := by
  have hinside : s.position ≤ s.data.length := s.inside
  have hsize : s.remainingSize = s.data.length - s.position := rfl
  constructor
  · rintro ⟨⟨data, s'⟩, h⟩
    have := (read_eq_some_iff.mp (readRaw_iff.mp h).1).1
    omega
  · intro h
    exact ⟨(_, ⟨s.data, s.position + n, by omega⟩),
      readRaw_iff.mpr ⟨read_eq_some_iff.mpr ⟨by omega, rfl⟩, rfl, rfl⟩⟩

theorem Reads.remainingSize {data : Bytes} (h : s.Reads data s') :
    s'.remainingSize + data.length = s.remainingSize := by
  obtain ⟨-, hdata, hposition⟩ := reads_iff.mp h
  have hinside := s'.inside
  rw [Stream.remainingSize, Stream.remainingSize, size, size, hdata, hposition]
  rw [hdata, hposition] at hinside
  omega

theorem reads_nil : s.Reads [] s' ↔ s' = s := by
  rw [reads_iff]
  constructor
  · rintro ⟨-, hdata, hposition⟩
    exact Stream.ext hdata hposition
  · rintro rfl
    exact ⟨fun i hi => absurd hi (Nat.not_lt_zero i), rfl, rfl⟩

theorem reads_append {data data' : Bytes} :
    s.Reads (data ++ data') s' ↔ ∃ t, s.Reads data t ∧ t.Reads data' s' := by
  simp only [reads_iff, has_append, List.length_append]
  constructor
  · rintro ⟨⟨hhas, hhas'⟩, hdata, hposition⟩
    have hinside := s'.inside
    rw [hdata, hposition] at hinside
    exact ⟨⟨s.data, s.position + data.length, by omega⟩, ⟨hhas, rfl, rfl⟩, hhas', hdata,
      hposition.trans (Nat.add_assoc _ _ _).symm⟩
  · rintro ⟨t, ⟨hhas, hdata, hposition⟩, hhas', hdata', hposition'⟩
    rw [hdata, hposition] at hhas'
    exact ⟨⟨hhas, hhas'⟩, hdata'.trans hdata, by omega⟩

end Stream

/-! ## Sequences of fields -/

/-- What is written to a stream. -/
inductive Field where
  | integer (F : Format) (value : F.Value)
  | raw (data : Bytes)

/-- What is read from a stream. -/
inductive Field.Kind where
  | integer (F : Format)
  | raw (size : Nat)

namespace Field

def kind : Field → Kind
  | integer F _ => .integer F
  | raw data => .raw data.length

def write (e : EndianType) : Field → Stream → Option Stream
  | integer F value, s => s.writeBytes e F value
  | raw data, s => s.writeRaw data

def read (e : EndianType) : Kind → Stream → Option (Field × Stream)
  | .integer F, s => (s.readBytes e F).map fun r => (integer F r.1, r.2)
  | .raw size, s => (s.readRaw size).map fun r => (raw r.1, r.2)

/-- A chain of `<<`. -/
def writeAll (e : EndianType) : List Field → Stream → Option Stream
  | [], s => some s
  | field :: fields, s => (field.write e s).bind (writeAll e fields)

/-- A chain of `>>`. -/
def readAll (e : EndianType) : List Kind → Stream → Option (List Field × Stream)
  | [], s => some ([], s)
  | kind :: kinds, s => do
    let (field, s) ← read e kind s
    let (fields, s) ← readAll e kinds s
    some (field :: fields, s)

/-- The bytes of the field can hold its value. -/
def Fits : Field → Prop
  | integer F value => value.toNat < 256 ^ F.bytes
  | raw _ => True

def bytes (e : EndianType) : Field → Bytes
  | integer F value => e.encode F.bytes value.toNat
  | raw data => data

/-- The number of bytes that are read. -/
def Kind.size : Kind → Nat
  | .integer F => F.bytes
  | .raw size => size

@[simp] theorem length_bytes (e : EndianType) (field : Field) :
    (field.bytes e).length = field.kind.size := by
  cases field with
  | integer F value => exact e.length_encode _ _
  | raw data => rfl

theorem length_flatMap_bytes (e : EndianType) (fields : List Field) :
    (fields.flatMap (bytes e)).length = (fields.map fun field => field.kind.size).sum := by
  simp only [List.length_flatMap, length_bytes]

theorem write_iff {e : EndianType} {field : Field} {s s' : Stream} :
    field.write e s = some s' ↔ field.Fits ∧ s.writeRaw (field.bytes e) = some s' := by
  cases field with
  | integer F value =>
    rw [write, Stream.writeBytes_eq]
    split
    next hfits => exact ⟨fun h => ⟨hfits, h⟩, fun h => h.2⟩
    next hfits => exact ⟨fun h => (nomatch h), fun h => absurd h.1 hfits⟩
  | raw data => exact (and_iff_right trivial).symm

theorem read_iff {e : EndianType} {kind : Kind} {field : Field} {s s' : Stream} :
    read e kind s = some (field, s') ↔
      field.kind = kind ∧ field.Fits ∧ s.Reads (field.bytes e) s' := by
  cases kind with
  | integer F =>
    have hle : 256 ^ F.bytes ≤ 2 ^ (8 * F.size) := by
      rw [Nat.pow_mul]
      exact Nat.pow_le_pow_right (by decide) F.le_size
    simp only [read, Stream.readBytes_eq, Option.map_map, Option.map_eq_some_iff,
      Function.comp_apply, Prod.mk.injEq]
    constructor
    · rintro ⟨⟨data, t⟩, hread, rfl, rfl⟩
      obtain ⟨hdata, -, -⟩ := Stream.readRaw_iff.mp hread
      have hlen : data.length = F.bytes := length_of_read hdata
      have hlt : e.decode data < 256 ^ F.bytes := hlen ▸ e.decode_lt data
      have hvalue : (BitVec.ofNat (8 * F.size) (e.decode data)).toNat = e.decode data :=
        (BitVec.toNat_ofNat _ _).trans (Nat.mod_eq_of_lt (Nat.lt_of_lt_of_le hlt hle))
      have hbytes : (integer F (BitVec.ofNat _ (e.decode data))).bytes e = data := by
        rw [bytes, hvalue, ← hlen, e.encode_decode]
      refine ⟨rfl, by rwa [Fits, hvalue], ?_⟩
      rwa [hbytes, Stream.Reads, hlen]
    · rintro ⟨hkind, hfits, hreads⟩
      cases field with
      | integer F' value =>
        obtain rfl : F' = F := by injection hkind
        refine ⟨(e.encode F'.bytes value.toNat, s'), ?_, ?_, rfl⟩
        · rwa [Stream.Reads, bytes, e.length_encode] at hreads
        · rw [e.decode_encode hfits, BitVec.ofNat_toNat, BitVec.setWidth_eq]
      | raw data => nomatch hkind
  | raw size =>
    simp only [read, Option.map_eq_some_iff, Prod.mk.injEq]
    constructor
    · rintro ⟨⟨data, t⟩, hread, rfl, rfl⟩
      obtain ⟨hdata, -, -⟩ := Stream.readRaw_iff.mp hread
      obtain rfl := length_of_read hdata
      exact ⟨rfl, trivial, hread⟩
    · rintro ⟨hkind, -, hreads⟩
      cases field with
      | integer F value => nomatch hkind
      | raw data =>
        obtain rfl : data.length = size := by injection hkind
        exact ⟨(data, s'), hreads, rfl, rfl⟩

theorem writeAll_iff {e : EndianType} {fields : List Field} {s s' : Stream} :
    writeAll e fields s = some s' ↔
      (∀ field ∈ fields, field.Fits) ∧ s.writeRaw (fields.flatMap (bytes e)) = some s' := by
  induction fields generalizing s with
  | nil =>
    rw [writeAll, List.flatMap_nil, Stream.writeRaw_nil]
    simp
  | cons field fields ih =>
    simp only [writeAll, Option.bind_eq_some_iff, write_iff, ih, List.forall_mem_cons,
      List.flatMap_cons, Stream.writeRaw_append]
    constructor
    · rintro ⟨t, ⟨hfits, hwrite⟩, hall, hrest⟩
      exact ⟨⟨hfits, hall⟩, t, hwrite, hrest⟩
    · rintro ⟨⟨hfits, hall⟩, t, hwrite, hrest⟩
      exact ⟨t, ⟨hfits, hwrite⟩, hall, hrest⟩

theorem readAll_iff {e : EndianType} {kinds : List Kind} {fields : List Field} {s s' : Stream} :
    readAll e kinds s = some (fields, s') ↔ fields.map kind = kinds ∧
      (∀ field ∈ fields, field.Fits) ∧ s.Reads (fields.flatMap (bytes e)) s' := by
  induction kinds generalizing s fields with
  | nil =>
    rw [readAll, List.map_eq_nil_iff]
    constructor
    · rintro h
      cases h
      exact ⟨rfl, by simp, Stream.reads_nil.mpr rfl⟩
    · rintro ⟨rfl, -, hreads⟩
      obtain rfl := Stream.reads_nil.mp hreads
      rfl
  | cons kind kinds ih =>
    simp only [readAll, Option.bind_eq_bind, Option.bind_eq_some_iff, Prod.exists, read_iff,
      Option.some.injEq, Prod.mk.injEq]
    constructor
    · rintro ⟨field, t, ⟨rfl, hfits, hread⟩, rest, t', hreadAll, rfl, rfl⟩
      obtain ⟨rfl, hall, hrest⟩ := ih.mp hreadAll
      exact ⟨rfl, List.forall_mem_cons.mpr ⟨hfits, hall⟩, Stream.reads_append.mpr ⟨t, hread, hrest⟩⟩
    · rintro ⟨hkinds, hall, hreads⟩
      cases fields with
      | nil => nomatch hkinds
      | cons field rest =>
        obtain ⟨rfl, rfl⟩ := List.cons.inj hkinds
        obtain ⟨hfits, hall⟩ := List.forall_mem_cons.mp hall
        obtain ⟨t, hread, hrest⟩ := Stream.reads_append.mp hreads
        exact ⟨field, t, ⟨rfl, hfits, hread⟩, rest, s', ih.mpr ⟨rfl, hall, hrest⟩, rfl, rfl⟩

end Field

end Toocal.Endian
