import Mathlib.Algebra.Group.Nat.Defs
import Mathlib.Data.List.Basic
import Mathlib.Tactic.Common

/-!
# Byte buffers

Reading and writing pieces of a list at a position, and whole numbers as
little-endian bytes.  `Has buf pos data` says that `data` stands in `buf` from `pos`
on; it is what a write establishes (`has_of_write`), what other writes leave alone
(`Has.write`), and what a read needs (`Has.read`).
-/

namespace Buffers

variable {β : Type}

/-- Replace the elements from `pos` on by `data`, if they are all there. -/
def write (buf : List β) (pos : Nat) (data : List β) : Option (List β) :=
  if pos + data.length ≤ buf.length then
    some (buf.take pos ++ data ++ buf.drop (pos + data.length))
  else none

/-- The `n` elements from `pos` on, if they are all there. -/
def read (buf : List β) (pos n : Nat) : Option (List β) :=
  if pos + n ≤ buf.length then some ((buf.drop pos).take n) else none

/-- `data` stands in `buf` from `pos` on. -/
def Has (buf : List β) (pos : Nat) (data : List β) : Prop :=
  ∀ i < data.length, buf[pos + i]? = data[i]?

variable {buf buf' data data' : List β} {pos pos' : Nat}

theorem exists_write (buf : List β) (pos : Nat) (data : List β) (h : pos + data.length ≤ buf.length) :
    ∃ buf', write buf pos data = some buf' := ⟨_, if_pos h⟩

theorem le_of_write (h : write buf pos data = some buf') : pos + data.length ≤ buf.length := by
  by_contra hle
  rw [write, if_neg hle] at h
  cases h

theorem write_append : write buf pos (data ++ data') =
    (write buf pos data).bind fun buf => write buf (pos + data.length) data' := by
  unfold write
  rw [List.length_append, ← Nat.add_assoc]
  by_cases hle : pos + data.length ≤ buf.length
  · have hfront : (buf.take pos ++ data).length = pos + data.length := by
      rw [List.length_append, List.length_take, Nat.min_eq_left (by omega)]
    have hlen : (buf.take pos ++ data ++ buf.drop (pos + data.length)).length = buf.length := by
      rw [List.length_append, hfront, List.length_drop]
      omega
    rw [if_pos hle, Option.bind_some, hlen]
    by_cases hle' : pos + data.length + data'.length ≤ buf.length
    · have hrest : (buf.take pos ++ data).drop (pos + data.length + data'.length) = [] :=
        List.drop_eq_nil_of_le (by omega)
      rw [if_pos hle', if_pos hle', List.take_left' hfront, List.drop_append, hfront, hrest,
        List.drop_drop, List.nil_append, Nat.add_sub_cancel_left, ← List.append_assoc (buf.take pos)]
    · rw [if_neg hle', if_neg hle']
  · rw [if_neg hle, if_neg (by omega), Option.bind_none]

theorem write_all (h : data.length = buf.length) : write buf 0 data = some data := by
  rw [write, Nat.zero_add, if_pos (Nat.le_of_eq h), List.take_zero, List.nil_append,
    List.drop_eq_nil_of_le (Nat.le_of_eq h.symm), List.append_nil]

theorem length_write (h : write buf pos data = some buf') : buf'.length = buf.length := by
  unfold write at h
  split at h
  next hle =>
    cases h
    simp only [List.length_append, List.length_take, List.length_drop]
    omega
  next => cases h

theorem getElem?_write (h : write buf pos data = some buf') (i : Nat) :
    buf'[i]? = if pos ≤ i ∧ i < pos + data.length then data[i - pos]? else buf[i]? := by
  unfold write at h
  split at h
  next hle =>
    cases h
    have htake : (buf.take pos).length = pos := by rw [List.length_take]; omega
    rw [List.getElem?_append, List.getElem?_append, List.length_append, htake]
    split
    next h1 =>
      split
      next h2 => rw [if_neg (by omega), List.getElem?_take, if_pos h2]
      next h2 => rw [if_pos (by omega)]
    next h1 =>
      rw [if_neg (by omega), List.getElem?_drop]
      congr 1
      omega
  next => cases h

theorem has_of_write (h : write buf pos data = some buf') : Has buf' pos data := by
  intro i hi
  rw [getElem?_write h, if_pos (by omega)]
  congr 1
  omega

/-- **A write leaves alone what stands beside it.** -/
theorem Has.write (hs : Has buf pos' data') (h : write buf pos data = some buf')
    (hd : pos' + data'.length ≤ pos ∨ pos + data.length ≤ pos') : Has buf' pos' data' := by
  intro i hi
  rw [getElem?_write h, if_neg (by omega)]
  exact hs i hi

theorem Has.le (h : Has buf pos data) (hne : data ≠ []) : pos + data.length ≤ buf.length := by
  have hpos := List.length_pos_iff.mpr hne
  have hlast := h (data.length - 1) (by omega)
  rw [List.getElem?_eq_getElem (by omega : data.length - 1 < data.length)] at hlast
  have := (List.getElem?_eq_some_iff.mp hlast).1
  omega

/-- **What stands in a buffer is read.** -/
theorem Has.read (h : Has buf pos data) (hle : pos + data.length ≤ buf.length) :
    read buf pos data.length = some data := by
  rw [Buffers.read, if_pos hle]
  congr 1
  refine List.ext_getElem? fun i => ?_
  rw [List.getElem?_take]
  split
  next hi => rw [List.getElem?_drop, h i hi]
  next hi => exact (List.getElem?_eq_none (by omega)).symm

theorem read_eq_some_iff {n : Nat} :
    read buf pos n = some data ↔ pos + n ≤ buf.length ∧ (buf.drop pos).take n = data := by
  rw [Buffers.read]
  split
  next hle => simp [hle]
  next hle => simp [hle]

theorem has_of_read {n : Nat} (h : read buf pos n = some data) : Has buf pos data := by
  obtain ⟨-, rfl⟩ := read_eq_some_iff.mp h
  intro i hi
  rw [List.length_take] at hi
  rw [List.getElem?_take, if_pos (by omega), List.getElem?_drop]

theorem length_of_read {n : Nat} (h : read buf pos n = some data) : data.length = n := by
  unfold Buffers.read at h
  split at h
  next hle =>
    cases h
    rw [List.length_take, List.length_drop]
    omega
  next => cases h

theorem has_append : Has buf pos (data ++ data') ↔
    Has buf pos data ∧ Has buf (pos + data.length) data' := by
  constructor
  · intro h
    constructor
    · intro i hi
      rw [h i (by rw [List.length_append]; omega), List.getElem?_append_left hi]
    · intro i hi
      rw [Nat.add_assoc, h (data.length + i) (by rw [List.length_append]; omega),
        List.getElem?_append_right (by omega)]
      congr 1
      omega
  · rintro ⟨h, h'⟩ i hi
    rw [List.length_append] at hi
    by_cases hlt : i < data.length
    · rw [h i hlt, List.getElem?_append_left hlt]
    · have := h' (i - data.length) (by omega)
      rw [List.getElem?_append_right (by omega), ← this]
      congr 1
      omega

theorem has_cons {b : β} : Has buf pos (b :: data) ↔ buf[pos]? = some b ∧ Has buf (pos + 1) data := by
  rw [← List.singleton_append, has_append]
  constructor
  · rintro ⟨h, h'⟩
    exact ⟨h 0 (by simp), h'⟩
  · rintro ⟨h, h'⟩
    refine ⟨fun i hi => ?_, h'⟩
    obtain rfl : i = 0 := by simpa using hi
    exact h

theorem Has.append_right (h : Has buf pos data) (rest : List β) : Has (buf ++ rest) pos data := by
  intro i hi
  have hlt : pos + i < buf.length := by
    have := h i hi
    rw [List.getElem?_eq_getElem hi] at this
    exact (List.getElem?_eq_some_iff.mp this).1
  rw [List.getElem?_append_left hlt]
  exact h i hi

/-! ## Fields -/

/-- A position and the data that is written there. -/
abbrev Piece (β : Type) := Nat × List β

def writeAll (buf : List β) : List (Piece β) → Option (List β)
  | [] => some buf
  | field :: fields => (write buf field.1 field.2).bind fun buf => writeAll buf fields

theorem writeAll_append (fields fields' : List (Piece β)) : ∀ buf : List β,
    writeAll buf (fields ++ fields') = (writeAll buf fields).bind fun buf => writeAll buf fields' := by
  induction fields with
  | nil => intro buf; rfl
  | cons field fields ih =>
    intro buf
    rw [List.cons_append, writeAll, writeAll, Option.bind_assoc]
    exact congrArg _ (funext ih)

/-- No position belongs to both fields. -/
def Apart (field field' : Piece β) : Prop :=
  field.1 + field.2.length ≤ field'.1 ∨ field'.1 + field'.2.length ≤ field.1

/-- The field lies from `left` to `last` or from `first` to `right`. -/
def Within (left last first right : Nat) (field : Piece β) : Prop :=
  left ≤ field.1 ∧ field.1 + field.2.length ≤ last ∨
    first ≤ field.1 ∧ field.1 + field.2.length ≤ right

/-- Of two stacks that grow towards each other, the fields of what is pushed first and
of what is pushed later are apart. -/
theorem Within.apart {left mid last first mid' right : Nat} {field field' : Piece β}
    (h : Within left mid mid' right field) (h' : Within mid last first mid' field')
    (hlast : mid ≤ last) (hfirst : first ≤ mid') (hroom : last ≤ first) : Apart field field' := by
  unfold Within at h h'
  unfold Apart
  omega

/-! ## Numbers -/

/-- The `k` low bytes of a number, lowest first. -/
def toLE : Nat → Nat → List UInt8
  | 0, _ => []
  | k + 1, n => UInt8.ofNat n :: toLE k (n / 256)

/-- The number that bytes stand for, lowest first. -/
def ofLE : List UInt8 → Nat
  | [] => 0
  | b :: bs => b.toNat + 256 * ofLE bs

@[simp] theorem length_toLE (k n : Nat) : (toLE k n).length = k := by
  induction k generalizing n with
  | zero => rfl
  | succ k ih => rw [toLE, List.length_cons, ih]

theorem ofLE_lt (bytes : List UInt8) : ofLE bytes < 256 ^ bytes.length := by
  induction bytes with
  | nil => exact Nat.one_pos
  | cons b bytes ih =>
    have hb := b.toNat_lt
    rw [ofLE, List.length_cons, Nat.pow_succ]
    omega

theorem ofLE_toLE_mod (k n : Nat) : ofLE (toLE k n) = n % 256 ^ k := by
  induction k generalizing n with
  | zero => rw [toLE, ofLE, Nat.pow_zero, Nat.mod_one]
  | succ k ih =>
    have hmul : n % 256 ^ (k + 1) = n % 256 + 256 * (n / 256 % 256 ^ k) := by
      rw [Nat.pow_succ', Nat.mod_mul]
    rw [toLE, ofLE, ih, UInt8.toNat_ofNat', hmul]

theorem toLE_succ_last (k n : Nat) : toLE (k + 1) n = toLE k n ++ [UInt8.ofNat (n / 256 ^ k)] := by
  induction k generalizing n with
  | zero => rw [Nat.pow_zero, Nat.div_one]; rfl
  | succ k ih =>
    rw [toLE, ih, Nat.div_div_eq_div_mul, ← Nat.pow_succ']
    rfl

theorem ofLE_append (bytes bytes' : List UInt8) :
    ofLE (bytes ++ bytes') = ofLE bytes + 256 ^ bytes.length * ofLE bytes' := by
  induction bytes with
  | nil => rw [List.nil_append, ofLE, List.length_nil, Nat.pow_zero, Nat.one_mul, Nat.zero_add]
  | cons b bytes ih =>
    rw [List.cons_append, ofLE, ofLE, ih, List.length_cons, Nat.pow_succ', Nat.mul_add,
      Nat.mul_assoc, Nat.add_assoc]

theorem toLE_ofLE (bytes : List UInt8) : toLE bytes.length (ofLE bytes) = bytes := by
  induction bytes with
  | nil => rfl
  | cons b bytes ih =>
    have hb := b.toNat_lt
    have hhigh : (b.toNat + 256 * ofLE bytes) / 256 = ofLE bytes := by omega
    have hlow : UInt8.ofNat (b.toNat + 256 * ofLE bytes) = b :=
      UInt8.toNat_inj.mp (by rw [UInt8.toNat_ofNat']; omega)
    rw [List.length_cons, ofLE, toLE, hhigh, hlow, ih]

theorem toLE_congr {k m n : Nat} (h : m % 256 ^ k = n % 256 ^ k) : toLE k m = toLE k n := by
  have hm := toLE_ofLE (toLE k m)
  have hn := toLE_ofLE (toLE k n)
  rw [length_toLE, ofLE_toLE_mod] at hm hn
  rw [← hm, h, hn]

/-- **A number that fits its bytes is read back.** -/
theorem ofLE_toLE {k n : Nat} (h : n < 256 ^ k) : ofLE (toLE k n) = n := by
  rw [ofLE_toLE_mod, Nat.mod_eq_of_lt h]

end Buffers
