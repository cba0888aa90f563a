import Mathlib.Algebra.BigOperators.Group.List.Basic
import Mathlib.Tactic.Linarith
import Toocal.Store.PageCodec

/-!
# Sizes and the split index

`Node::size` and the loop of `get_split_index` measure a node with two formulas: eight
bytes once, or eight bytes for each item.  What the loop has added up after `k` items is
`scannedSize items k`, and `getSplitIndex_le_iff` says how far it goes.

Both sums have 32 bits and are compared as a `float`.  For a node that is `Light`, as
every node with room on a page is, they are the sums themselves.
-/

namespace Toocal

open Binary32

/-! ## The two sizes -/

theorem nodeSize_eq (its : List Item) :
    nodeSize its = (11 + (its.map Item.size).sum) % 2 ^ 32 := by
  have hfold : ∀ (its : List Item) (n : Nat), n < 2 ^ 32 →
      its.foldl (fun size item => (size + item.size) % 2 ^ 32) n =
        (n + (its.map Item.size).sum) % 2 ^ 32 := by
    intro its
    induction its with
    | nil => exact fun n hn => (Nat.mod_eq_of_lt hn).symm
    | cons a its ih =>
      intro n _
      rw [List.foldl_cons, ih _ (Nat.mod_lt _ (by norm_num)), Nat.mod_add_mod, List.map_cons,
        List.sum_cons, Nat.add_assoc]
  exact hfold its _ (by decide)

/-- `size` in `get_split_index` after the first `k` items. -/
def scannedSize (items : List Item) (k : Nat) : Nat :=
  (headerSize + ((items.take k).map itemSize).sum) % 2 ^ 32

/-! ## The loop of get_split_index -/

section Loop

variable {o : Options}

theorem getSplitIndexFrom_lt : ∀ {its : List Item} {size i j : Nat},
    o.getSplitIndexFrom size i its = some j → i < j ∧ j < i + its.length := by
  intro its
  induction its with
  | nil => intro size i j h; cases h
  | cons item rest ih =>
    intro size i j h
    rw [Options.getSplitIndexFrom] at h
    split at h
    next hc =>
      obtain rfl : i + 1 = j := by simpa using h
      have := List.length_pos_iff.mpr hc.2
      simp only [List.length_cons]
      omega
    next =>
      have := ih h
      simp only [List.length_cons]
      omega

theorem getSplitIndex_lt {its : List Item} {i : Nat} (h : o.getSplitIndex its = some i) :
    0 < i ∧ i < its.length := by
  have := getSplitIndexFrom_lt h
  omega

theorem lt_of_getSplitIndexFrom : ∀ {its : List Item} {size i j : Nat},
    o.getSplitIndexFrom size i its = some j → o.minThreshold <
      nearest ((size + ((its.take (j - i)).map itemSize).sum) % 2 ^ 32 : Nat) := by
  intro its
  induction its with
  | nil => intro size i j h; cases h
  | cons item rest ih =>
    intro size i j h
    have hij := (getSplitIndexFrom_lt h).1
    rw [Options.getSplitIndexFrom] at h
    split at h
    next hc =>
      obtain rfl : i + 1 = j := by simpa using h
      simpa using hc.1
    next =>
      have hlt := ih h
      have hj : j - i = j - (i + 1) + 1 := by have := (getSplitIndexFrom_lt h).1; omega
      rwa [Nat.mod_add_mod, Nat.add_assoc, ← List.sum_cons, ← List.map_cons, ← List.take_succ_cons,
        ← hj] at hlt

theorem getSplitIndexFrom_le : ∀ {its : List Item} {size i k : Nat}, 0 < k → k < its.length →
    o.minThreshold < nearest ((size + ((its.take k).map itemSize).sum) % 2 ^ 32 : Nat) →
    ∃ j, o.getSplitIndexFrom size i its = some j ∧ j ≤ i + k := by
  intro its
  induction its with
  | nil => intro size i k _ hk; exact absurd hk (Nat.not_lt_zero _)
  | cons item rest ih =>
    intro size i k hpos hk hlt
    obtain ⟨k, rfl⟩ := Nat.exists_eq_add_of_le' hpos
    rw [List.length_cons, Nat.add_lt_add_iff_right] at hk
    have hrest : rest ≠ [] := List.ne_nil_of_length_pos (Nat.zero_lt_of_lt hk)
    rw [List.take_succ_cons, List.map_cons, List.sum_cons, ← Nat.add_assoc, ← Nat.mod_add_mod] at hlt
    rw [Options.getSplitIndexFrom]
    by_cases hc : o.minThreshold < nearest ((size + itemSize item) % 2 ^ 32 : Nat)
    · rw [if_pos ⟨hc, hrest⟩]
      exact ⟨i + 1, rfl, by omega⟩
    · rw [if_neg fun h => hc h.1]
      -- not the first item alone: at least one more is needed
      have hk0 : 0 < k := by
        rcases Nat.eq_zero_or_pos k with rfl | h
        · exact absurd (by simpa using hlt) hc
        · exact h
      obtain ⟨j, hj, hle⟩ := ih (i := i + 1) hk0 hk hlt
      exact ⟨j, hj, by omega⟩

theorem lt_of_getSplitIndex {its : List Item} {i : Nat} (h : o.getSplitIndex its = some i) :
    o.minThreshold < nearest (scannedSize its i) := by
  rw [Options.getSplitIndex] at h
  have hlt := lt_of_getSplitIndexFrom h
  rwa [Nat.sub_zero, ← scannedSize] at hlt

/-- **There is a split index up to `k` exactly if the scan has passed the threshold by then.** -/
theorem getSplitIndex_le_iff {its : List Item} {k : Nat} (hk : k < its.length) :
    (∃ s, o.getSplitIndex its = some s ∧ s ≤ k) ↔
      ∃ j, 0 < j ∧ j ≤ k ∧ o.minThreshold < nearest (scannedSize its j) := by
  constructor
  · rintro ⟨s, hs, hle⟩
    exact ⟨s, (getSplitIndex_lt hs).1, hle, lt_of_getSplitIndex hs⟩
  · rintro ⟨j, hpos, hle, hlt⟩
    obtain ⟨s, hs, hsj⟩ := getSplitIndexFrom_le (i := 0) hpos (hle.trans_lt hk) hlt
    exact ⟨s, hs, by omega⟩

end Loop

/-! ## Light nodes -/

/-- Keys, values and eight bytes for each item do not come to more than 24 bits. -/
def Light (items : List Item) : Prop :=
  11 + (items.map fun a => a.key.length + a.value.length + 8).sum ≤ 2 ^ 24

instance (items : List Item) : Decidable (Light items) := inferInstanceAs (Decidable (_ ≤ _))

theorem sum_map_add_const (items : List Item) (k : Nat) :
    (items.map fun a => a.key.length + a.value.length + k).sum =
      (items.map fun a => a.key.length + a.value.length).sum + k * items.length := by
  induction items with
  | nil => rfl
  | cons a items ih =>
    simp only [List.map_cons, List.sum_cons, List.length_cons, ih, Nat.mul_add]
    omega

theorem BufferRoom.light {bufferSize children : Nat} {its : List Item}
    (h : BufferRoom bufferSize its children) (hbuffer : bufferSize ≤ 2 ^ 16) : Light its := by
  have hroom := h.2.2
  have hcells : cellsSize its =
      (its.map fun a => a.key.length + a.value.length).sum + 2 * its.length := by
    rw [← sum_map_add_const, cellsSize]
    simp only [length_cell]
  rw [Light, sum_map_add_const]
  rw [hcells, headerSize] at hroom
  omega

namespace Light

variable {o : Options} {its its' : List Item}

theorem sublist (h : Light its) (hsub : its'.Sublist its) : Light its' := by
  have hle := (hsub.map fun a => a.key.length + a.value.length + 8).sum_le_sum fun _ _ => Nat.zero_le _
  rw [Light] at h ⊢
  omega

theorem bytes_lt (h : Light its) {a : Item} (ha : a ∈ its) :
    a.key.length + a.value.length + 8 < 2 ^ 32 := by
  have hle := List.single_le_sum (fun _ _ => Nat.zero_le _) _ (List.mem_map_of_mem
    (f := fun a : Item => a.key.length + a.value.length + 8) ha)
  rw [Light] at h
  omega

theorem size (h : Light its) {a : Item} (ha : a ∈ its) : a.size = a.key.length + a.value.length := by
  have hlt := h.bytes_lt ha
  rw [Item.size, Nat.mod_eq_of_lt]
  omega

theorem itemSize (h : Light its) {a : Item} (ha : a ∈ its) : itemSize a = a.size + 8 := by
  rw [h.size ha, Toocal.itemSize, pageNumSize, Nat.mod_eq_of_lt (h.bytes_lt ha)]

theorem sum_itemSize (h : Light its) :
    (its.map Toocal.itemSize).sum = (its.map Item.size).sum + 8 * its.length := by
  have hmap : its.map Toocal.itemSize = its.map fun a => a.key.length + a.value.length + 8 :=
    List.map_congr_left fun a ha => by rw [h.itemSize ha, h.size ha]
  have hsize : its.map Item.size = its.map fun a => a.key.length + a.value.length :=
    List.map_congr_left fun a ha => h.size ha
  rw [hmap, hsize, sum_map_add_const]

theorem sum_le (h : Light its) : 11 + ((its.map Item.size).sum + 8 * its.length) ≤ 2 ^ 24 := by
  have hmap : its.map Item.size = its.map fun a => a.key.length + a.value.length :=
    List.map_congr_left fun a ha => h.size ha
  rw [Light, sum_map_add_const] at h
  rw [hmap]
  exact h

theorem nodeSize (h : Light its) : nodeSize its = 11 + (its.map Item.size).sum := by
  have hle := h.sum_le
  rw [nodeSize_eq, Nat.mod_eq_of_lt]
  omega

theorem nearest_nodeSize (h : Light its) :
    nearest (Toocal.nodeSize its) = (11 + (its.map Item.size).sum : Nat) := by
  have hle := h.sum_le
  rw [h.nodeSize, nearest_natCast]
  omega

theorem over_iff (h : Light its) : o.isOverPopulated its ↔
    o.maxThreshold < ((11 + (its.map Item.size).sum : Nat) : ℚ) := by
  rw [Options.isOverPopulated, h.nearest_nodeSize]

theorem scannedSize (h : Light its) (k : Nat) :
    scannedSize its k = headerSize + ((its.take k).map Item.size).sum + 8 * (its.take k).length ∧
      nearest (Toocal.scannedSize its k) = (Toocal.scannedSize its k : ℚ) := by
  have htake := h.sublist (List.take_sublist k its)
  have hle := htake.sum_le
  have heq : Toocal.scannedSize its k =
      headerSize + ((its.take k).map Item.size).sum + 8 * (its.take k).length := by
    rw [Toocal.scannedSize, htake.sum_itemSize, Nat.mod_eq_of_lt, Nat.add_assoc]
    rw [headerSize]
    omega
  refine ⟨heq, nearest_natCast ?_⟩
  rw [heq, headerSize]
  omega

theorem scannedSize_mono (h : Light its) {j k : Nat} (hjk : j ≤ k) :
    Toocal.scannedSize its j ≤ Toocal.scannedSize its k := by
  rw [(h.scannedSize j).1, (h.scannedSize k).1]
  have hsub := List.take_sublist_take_left (l := its) hjk
  have hsum := (hsub.map Item.size).sum_le_sum fun _ _ => Nat.zero_le _
  have hlen := hsub.length_le
  omega

theorem getSplitIndex_le_iff (h : Light its) {k : Nat} (hpos : 0 < k) (hk : k < its.length) :
    (∃ s, o.getSplitIndex its = some s ∧ s ≤ k) ↔
      o.minThreshold < (Toocal.scannedSize its k : ℚ) := by
  rw [Toocal.getSplitIndex_le_iff hk]
  constructor
  · rintro ⟨j, -, hle, hlt⟩
    rw [(h.scannedSize j).2] at hlt
    exact hlt.trans_le (by exact_mod_cast h.scannedSize_mono hle)
  · intro hlt
    refine ⟨k, hpos, Nat.le_refl _, ?_⟩
    rwa [(h.scannedSize k).2]

end Light

/-! ## Small items -/

/-- The item leaves room for a split: `max_threshold - min_threshold - 8`. -/
def Item.Small (o : Options) (a : Item) : Prop :=
  (a.size : ℚ) ≤ o.maxThreshold - o.minThreshold - 8

instance (o : Options) (a : Item) : Decidable (a.Small o) := inferInstanceAs (Decidable (_ ≤ _))

section Small

variable {o : Options} {its : List Item}

theorem Item.Short.size {a : Item} (h : a.Short) : a.size = a.key.length + a.value.length := by
  obtain ⟨hk, hv⟩ := h
  rw [Item.size, Nat.mod_eq_of_lt]
  omega

theorem Item.Short.size_le {a : Item} (h : a.Short) : a.size ≤ 510 := by
  obtain ⟨hk, hv⟩ := id h
  rw [h.size]
  omega

theorem Item.Short.itemSize {a : Item} (h : a.Short) : itemSize a = a.size + 8 := by
  obtain ⟨hk, hv⟩ := id h
  rw [h.size, Toocal.itemSize, pageNumSize, Nat.mod_eq_of_lt]
  omega

theorem sum_itemSize_of_short (hshort : ∀ a ∈ its, a.Short) :
    (its.map itemSize).sum = (its.map Item.size).sum + 8 * its.length := by
  induction its with
  | nil => rfl
  | cons a its ih =>
    obtain ⟨ha, hits⟩ := List.forall_mem_cons.mp hshort
    simp only [List.map_cons, List.sum_cons, List.length_cons, ih hits, ha.itemSize]
    omega

theorem sum_size_le_of_short (hshort : ∀ a ∈ its, a.Short) :
    (its.map Item.size).sum ≤ 510 * its.length := by
  induction its with
  | nil => rfl
  | cons a its ih =>
    obtain ⟨ha, hits⟩ := List.forall_mem_cons.mp hshort
    have hle := ih hits
    have := ha.size_le
    simp only [List.map_cons, List.sum_cons, List.length_cons]
    omega

theorem light_of_short (hshort : ∀ a ∈ its, a.Short) (hlen : its.length ≤ 2 ^ 14) : Light its := by
  have hle := sum_size_le_of_short hshort
  have hmap : its.map Item.size = its.map fun a => a.key.length + a.value.length :=
    List.map_congr_left fun a ha => (hshort a ha).size
  rw [Light, sum_map_add_const, ← hmap]
  omega

theorem exists_splitIndex_of_light (hlight : Light its) (hmin : 3 ≤ o.minThreshold)
    (hmax : 11 ≤ o.maxThreshold) (hsmall : ∀ a ∈ its, a.Small o) (hover : o.isOverPopulated its) :
    ∃ i, o.getSplitIndex its = some i := by
  rw [hlight.over_iff] at hover
  rcases List.eq_nil_or_concat' its with rfl | ⟨init, last, rfl⟩
  · simp only [List.map_nil, List.sum_nil] at hover
    push_cast at hover
    linarith
  · have hlast : (last.size : ℚ) ≤ o.maxThreshold - o.minThreshold - 8 := hsmall last (by simp)
    simp only [List.map_append, List.map_cons, List.map_nil, List.sum_append, List.sum_cons,
      List.sum_nil] at hover
    have hpos : 0 < init.length := by
      rcases init with _ | ⟨a, init⟩
      · simp only [List.map_nil, List.sum_nil] at hover
        push_cast at hover
        linarith
      · exact Nat.succ_pos _
    push_cast at hover
    have hlt : o.minThreshold < (scannedSize (init ++ [last]) init.length : ℚ) := by
      rw [(hlight.scannedSize _).1, List.take_left, headerSize]
      push_cast
      have : (0 : ℚ) ≤ init.length := Nat.cast_nonneg _
      linarith
    obtain ⟨s, hs, -⟩ := (hlight.getSplitIndex_le_iff hpos (by simp)).mpr hlt
    exact ⟨s, hs⟩

/-! ### Many items -/

/-- What the scan would add up without being cut to 32 bits. -/
def fullScan (its : List Item) (k : Nat) : Nat := headerSize + ((its.take k).map itemSize).sum

theorem scannedSize_eq (its : List Item) (k : Nat) : scannedSize its k = fullScan its k % 2 ^ 32 := rfl

theorem fullScan_succ {k : Nat} (hk : k < its.length) :
    fullScan its (k + 1) = fullScan its k + itemSize its[k] := by
  rw [fullScan, fullScan, List.take_add_one, List.getElem?_eq_getElem hk, List.map_append,
    List.sum_append]
  simp
  omega

theorem exists_cut_scan (bound : Nat) (hzero : fullScan its 0 < bound) :
    ∀ k, bound ≤ fullScan its k → ∃ j < k, fullScan its j < bound ∧ bound ≤ fullScan its (j + 1)
  | 0, h => absurd hzero (Nat.not_lt.mpr h)
  | k + 1, h => by
    by_cases hk : bound ≤ fullScan its k
    · obtain ⟨j, hj, hcut⟩ := exists_cut_scan bound hzero k hk
      exact ⟨j, Nat.lt_succ_of_lt hj, hcut⟩
    · exact ⟨k, Nat.lt_succ_self k, Nat.not_le.mp hk, h⟩

/-- The largest `float` below `2 ^ 32` is 256 away from it. -/
theorem maxThreshold_le (h : o.maxThreshold < 2 ^ 32) : o.maxThreshold ≤ 2 ^ 32 - 256 := by
  by_contra hgt
  rw [not_le] at hgt
  have hplace : lastPlace o.maxThreshold = 8 :=
    lastPlace_eq (n := 31) (by norm_num) (by norm_num at hgt ⊢; linarith) (by norm_num at h ⊢; linarith)
  have hidem : nearest o.maxThreshold = o.maxThreshold := nearest_idem _
  rw [nearest, hplace] at hidem
  generalize roundEven (o.maxThreshold / 2 ^ (8 : ℤ)) = r at hidem
  norm_num at hidem
  have hlow : (2 ^ 24 - 1 : ℤ) < r := by
    have : ((2 ^ 24 - 1 : ℤ) : ℚ) < r := by push_cast; linarith
    exact_mod_cast this
  have hhigh : r < (2 ^ 24 : ℤ) := by
    have : (r : ℚ) < ((2 ^ 24 : ℤ) : ℚ) := by push_cast; linarith
    exact_mod_cast this
  omega

theorem sub_le_nearest {n : Nat} (hn : n < 2 ^ 32) : (n : ℚ) - 128 ≤ nearest n := by
  have hplace : lastPlace (n : ℚ) ≤ 8 := by
    rcases Nat.eq_zero_or_pos n with rfl | hpos
    · rw [Nat.cast_zero]
      decide +kernel
    · refine (lastPlace_mono (by exact_mod_cast hpos) (show (n : ℚ) ≤ (2 ^ 32 - 1 : ℕ) from ?_)).trans
        (by decide +kernel)
      exact_mod_cast Nat.le_sub_one_of_lt hn
  have hpow : (2 : ℚ) ^ lastPlace (n : ℚ) ≤ 2 ^ (8 : ℤ) := zpow_le_zpow_right₀ (by norm_num) hplace
  have herror := (abs_le.mp (nearest_error (n : ℚ))).2
  norm_num at hpow
  linarith

theorem Item.Small.gap {a : Item} (h : a.Small o) (hshort : a.Short) :
    (itemSize a : ℚ) ≤ o.maxThreshold - o.minThreshold := by
  have hle : (a.size : ℚ) ≤ o.maxThreshold - o.minThreshold - 8 := h
  rw [hshort.itemSize]
  push_cast
  linarith

theorem lt_two_pow_of_over (hover : o.isOverPopulated its) : o.maxThreshold < 2 ^ 32 := by
  rw [Options.isOverPopulated, nodeSize_eq] at hover
  refine hover.trans_le ?_
  have hmod : (11 + (its.map Item.size).sum) % 2 ^ 32 ≤ 2 ^ 32 := (Nat.mod_lt _ (by norm_num)).le
  have hpow : nearest ((2 ^ 32 : ℕ) : ℚ) = 2 ^ 32 := by decide +kernel
  rw [← hpow]
  exact nearest_mono (Nat.cast_nonneg _) (by exact_mod_cast hmod)

theorem lt_scan_of_uncut (hlt : o.minThreshold < o.maxThreshold) (hover : o.isOverPopulated its)
    {k : Nat} (hahead : 11 + (its.map Item.size).sum ≤ fullScan its k)
    (hcut : fullScan its k < 2 ^ 32) : o.minThreshold < nearest (scannedSize its k) := by
  rw [Options.isOverPopulated, nodeSize_eq, Nat.mod_eq_of_lt (hahead.trans_lt hcut)] at hover
  rw [scannedSize_eq, Nat.mod_eq_of_lt hcut]
  exact (hlt.trans hover).trans_le (nearest_mono (Nat.cast_nonneg _) (by exact_mod_cast hahead))

/-- Where it is cut, it is closer to its bound before than the thresholds are to each other. -/
theorem lt_scan_of_cut {j : Nat} (hj : j < its.length) (hsmall : its[j].Small o)
    (hshort : its[j].Short) (hover : o.isOverPopulated its) (hbelow : fullScan its j < 2 ^ 32)
    (habove : 2 ^ 32 ≤ fullScan its (j + 1)) : o.minThreshold < nearest (scannedSize its j) := by
  rw [scannedSize_eq, Nat.mod_eq_of_lt hbelow]
  have hround := sub_le_nearest hbelow
  have hedge := maxThreshold_le (lt_two_pow_of_over hover)
  have hstep := hsmall.gap hshort
  have hreach : ((2 ^ 32 : ℕ) : ℚ) ≤ (fullScan its j : ℚ) + itemSize its[j] := by
    rw [← Nat.cast_add, ← fullScan_succ hj]
    exact_mod_cast habove
  push_cast at hreach
  linarith

/-- **A small item can always be split off an over-populated node**, however many items it has
and wherever the sums are cut. -/
theorem exists_splitIndex (hmin : 3 ≤ o.minThreshold) (hmax : 11 ≤ o.maxThreshold)
    (hshort : ∀ a ∈ its, a.Short) (hsmall : ∀ a ∈ its, a.Small o) (hover : o.isOverPopulated its) :
    ∃ i, o.getSplitIndex its = some i := by
  by_cases hfew : its.length ≤ 2 ^ 14
  · exact exists_splitIndex_of_light (light_of_short hshort hfew) hmin hmax hsmall hover
  rw [not_le] at hfew
  have hstep : ∀ {k : Nat} (hk : k < its.length), fullScan its (k + 1) ≤ fullScan its k + 518 := by
    intro k hk
    have hmem := hshort _ (List.getElem_mem hk)
    have hsize := hmem.size_le
    rw [fullScan_succ hk, hmem.itemSize]
    omega
  have hall : fullScan its its.length = 3 + (its.map Item.size).sum + 8 * its.length := by
    rw [fullScan, List.take_length, sum_itemSize_of_short hshort, headerSize, Nat.add_assoc]
  have hlast := hstep (k := its.length - 1) (by omega)
  rw [Nat.sub_add_cancel (by omega)] at hlast
  obtain ⟨j, hpos, hj, hlt⟩ : ∃ j, 0 < j ∧ j < its.length ∧
      o.minThreshold < nearest (scannedSize its j) := by
    by_cases hcut : fullScan its (its.length - 1) < 2 ^ 32
    · have hgap := (hsmall _ (List.getElem_mem (n := 0) (by omega))).gap
        (hshort _ (List.getElem_mem (by omega)))
      have hpos : 8 ≤ itemSize its[0] := by
        rw [(hshort _ (List.getElem_mem _)).itemSize]
        omega
      have hlt : o.minThreshold < o.maxThreshold := by
        have : (8 : ℚ) ≤ itemSize its[0] := by exact_mod_cast hpos
        linarith
      exact ⟨its.length - 1, by omega, by omega, lt_scan_of_uncut hlt hover (by omega) hcut⟩
    · obtain ⟨j, hj, hbelow, habove⟩ := exists_cut_scan (2 ^ 32)
        (by rw [fullScan, List.take_zero]; decide) _ (Nat.not_lt.mp hcut)
      have hj' : j < its.length := by omega
      refine ⟨j, Nat.pos_of_ne_zero fun hzero => ?_, hj', lt_scan_of_cut hj'
        (hsmall _ (List.getElem_mem hj')) (hshort _ (List.getElem_mem hj')) hover hbelow habove⟩
      subst hzero
      have hone := hstep hj'
      have hzero : fullScan its 0 = 3 := by rw [fullScan, List.take_zero]; rfl
      omega
  obtain ⟨s, hs, -⟩ := (getSplitIndex_le_iff hj).mpr ⟨j, hpos, Nat.le_refl _, hlt⟩
  exact ⟨s, hs⟩

end Small

end Toocal
