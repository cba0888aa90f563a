import Toocal.Tree.Paths

/-!
# The order of the keys and the search in a node

`bytescmp` is a total order: it is 0 for equal keys only, it turns its sign when the keys
change places, and it is transitive.  On items with increasing keys `find_key_in_node` says
whether the key is there, and its index is the number of items with a smaller key
(`findKeyInNodeFrom_eq`), cut to the 32 bits of the index (`findKeyInNode32_eq`).

So the index is right as long as fewer than 2^32 items have a smaller key
(`finds_iff`); a node with more is `denseItems`.
-/

namespace Toocal

open Multiway

/-! ## The order -/

theorem bytescmp_nonpos_iff {a b : Bytes} : bytescmp a b ≤ 0 ↔ KeyLt a b ∨ a = b := by
  rw [KeyLt, ← bytescmp_eq_zero_iff]
  have := bytescmp_range a b
  omega

theorem bytescmp_nonpos_trans {a b c : Bytes} (hab : bytescmp a b ≤ 0) (hbc : bytescmp b c ≤ 0) :
    bytescmp a c ≤ 0 := by
  rw [bytescmp_nonpos_iff] at *
  rcases hab with hab | rfl
  · rcases hbc with hbc | rfl
    · exact Or.inl (keyLt_trans hab hbc)
    · exact Or.inl hab
  · exact hbc

theorem not_keyLt_self (a : Bytes) : ¬ KeyLt a a := keyLt_strictTotalOrder.irrefl a

theorem not_keyLt_of_keyLt {a b : Bytes} (h : KeyLt a b) : ¬ KeyLt b a :=
  fun h' => not_keyLt_self a (keyLt_trans h h')

/-! ## The search -/

/-- How many items have a smaller key. -/
def smaller (key : Bytes) (items : List Item) : Nat := items.countP fun item => KeyLt item.key key

theorem smaller_cons_of_lt {key : Bytes} {item : Item} (h : KeyLt item.key key)
    (rest : List Item) : smaller key (item :: rest) = smaller key rest + 1 :=
  List.countP_cons_of_pos (decide_eq_true h)

theorem smaller_cons_of_not_lt {key : Bytes} {item : Item} {rest : List Item}
    (hs : Sorted KeyLt Item.key (item :: rest)) (h : ¬ KeyLt item.key key) :
    smaller key (item :: rest) = 0 := by
  refine List.countP_eq_zero.mpr fun other hmem => ?_
  rw [decide_eq_true_iff]
  intro hlt
  rcases List.mem_cons.mp hmem with rfl | hmem
  · exact h hlt
  · exact h (keyLt_trans ((List.pairwise_cons.mp hs).1 other hmem) hlt)

theorem smaller_eq_of_getElem? {items : List Item} (hs : Sorted KeyLt Item.key items)
    {index : Nat} {item : Item} (h : items[index]? = some item) :
    smaller item.key items = index := by
  induction items generalizing index with
  | nil => cases h
  | cons first rest ih =>
    cases index with
    | zero =>
      obtain rfl : first = item := Option.some.inj h
      exact smaller_cons_of_not_lt hs (not_keyLt_self first.key)
    | succ index =>
      rw [List.getElem?_cons_succ] at h
      obtain ⟨hfirst, hrest⟩ := List.pairwise_cons.mp hs
      rw [smaller_cons_of_lt (hfirst item (List.mem_of_getElem? h)), ih hrest h]

/-- **The scan of increasing keys** tells whether the key is there, and stops behind the
smaller ones. -/
theorem findKeyInNodeFrom_eq {key : Bytes} {items : List Item} (hs : Sorted KeyLt Item.key items)
    (index : Nat) : findKeyInNodeFrom key index items =
      (decide (∃ item ∈ items, item.key = key), index + smaller key items) := by
  induction items generalizing index with
  | nil => simp [findKeyInNodeFrom, smaller]
  | cons item rest ih =>
    obtain ⟨hfirst, hrest⟩ := List.pairwise_cons.mp hs
    rw [findKeyInNodeFrom]
    rcases bytescmp_range item.key key with h | h | h
    · -- the item is passed
      have hne : item.key ≠ key := fun he => not_keyLt_self key (he ▸ h)
      rw [if_neg (by omega), if_neg (by omega), ih hrest, smaller_cons_of_lt h]
      simp only [List.exists_mem_cons_iff, hne, false_or, Prod.mk.injEq, true_and]
      omega
    · have he : item.key = key := bytescmp_eq_zero_iff.mp h
      have hzero : smaller key (item :: rest) = 0 :=
        smaller_cons_of_not_lt hs (he ▸ not_keyLt_self key)
      rw [if_pos h, hzero]
      simp [he]
    · -- the first item above the key: all that follow are above it too
      have hlt : KeyLt key item.key := bytescmp_eq_one_iff.mp h
      have habsent : ¬ ∃ other ∈ item :: rest, other.key = key := by
        rintro ⟨other, hmem, rfl⟩
        rcases List.mem_cons.mp hmem with rfl | hmem
        · exact not_keyLt_self _ hlt
        · exact not_keyLt_of_keyLt hlt (hfirst other hmem)
      rw [if_neg (by omega), if_pos h, smaller_cons_of_not_lt hs (not_keyLt_of_keyLt hlt),
        decide_eq_false habsent]
      rfl

/-- The counter of the source is the number of items passed, modulo 2^32. -/
theorem findKeyInNodeFrom32_eq (key : Bytes) (items : List Item) (index : Nat) :
    findKeyInNodeFrom32 key (index + items.length) (UInt32.ofNat index) items =
      Prod.map id UInt32.ofNat (findKeyInNodeFrom key index items) := by
  induction items generalizing index with
  | nil => rfl
  | cons item rest ih =>
    rw [findKeyInNodeFrom32, findKeyInNodeFrom]
    split
    · rfl
    · split
      · rfl
      · have hnext : UInt32.ofNat index + 1 = UInt32.ofNat (index + 1) := (UInt32.ofNat_add _ _).symm
        have hsize : index + (item :: rest).length = index + 1 + rest.length := by
          rw [List.length_cons]
          omega
        rw [hnext, hsize]
        exact ih (index + 1)

theorem findKeyInNode32_eq_map (key : Bytes) (items : List Item) :
    findKeyInNode32 key items = Prod.map id UInt32.ofNat (findKeyInNode key items) := by
  have h := findKeyInNodeFrom32_eq key items 0
  rwa [Nat.zero_add] at h

theorem findKeyInNode32_toNat (key : Bytes) {items : List Item} (h : items.length < 2 ^ 32) :
    Prod.map id UInt32.toNat (findKeyInNode32 key items) = findKeyInNode key items := by
  have hle : (findKeyInNode key items).2 ≤ items.length := (scans_findKeyInNode key).le items
  have hcut : (UInt32.ofNat (findKeyInNode key items).2).toNat = (findKeyInNode key items).2 := by
    rw [UInt32.toNat_ofNat', Nat.mod_eq_of_lt (by omega)]
  rw [findKeyInNode32_eq_map, Prod.map_apply, Prod.map_apply, id, id, hcut]

theorem findKeyInNode32_eq {key : Bytes} {items : List Item} (hs : Sorted KeyLt Item.key items) :
    findKeyInNode32 key items =
      (decide (∃ item ∈ items, item.key = key), UInt32.ofNat (smaller key items)) := by
  rw [findKeyInNode32_eq_map, findKeyInNode, findKeyInNodeFrom_eq hs, Nat.zero_add]
  rfl

/-- What `find_key_in_node` is to answer: the index of the key, or else how many items have a
smaller one. -/
def Finds (key : Bytes) (items : List Item) : Prop := ∀ index : UInt32,
  (findKeyInNode32 key items = (true, index) ↔
    ∃ item, items[index.toNat]? = some item ∧ item.key = key) ∧
  (findKeyInNode32 key items = (false, index) ↔
    (∀ item ∈ items, item.key ≠ key) ∧ index.toNat = smaller key items)

/-- **It does as long as 32 bits count the smaller keys.** -/
theorem finds_iff {key : Bytes} {items : List Item} (hs : Sorted KeyLt Item.key items) :
    Finds key items ↔ smaller key items < 2 ^ 32 := by
  have hcut : (UInt32.ofNat (smaller key items)).toNat = smaller key items % 2 ^ 32 :=
    UInt32.toNat_ofNat'
  unfold Finds
  rw [findKeyInNode32_eq hs]
  by_cases hmem : ∃ item ∈ items, item.key = key
  · rw [decide_eq_true hmem]
    obtain ⟨item, hitem, rfl⟩ := hmem
    obtain ⟨i, hi⟩ := List.mem_iff_getElem?.mp hitem
    have hat : smaller item.key items = i := smaller_eq_of_getElem? hs hi
    constructor
    · intro h
      obtain ⟨other, hother, hkey⟩ := (h _).1.mp rfl
      have := smaller_eq_of_getElem? hs hother
      rw [hkey, hcut] at this
      omega
    · intro hlt index
      have hindex : (true, UInt32.ofNat (smaller item.key items)) = (true, index) ↔
          index.toNat = smaller item.key items := by
        rw [Prod.mk.injEq, ← UInt32.toNat_inj, hcut, Nat.mod_eq_of_lt hlt]
        exact ⟨fun h => h.2.symm, fun h => ⟨rfl, h.symm⟩⟩
      constructor
      · rw [hindex]
        constructor
        · intro he
          exact ⟨item, by rw [he, hat, hi], rfl⟩
        · rintro ⟨other, hother, hkey⟩
          rw [← hkey, smaller_eq_of_getElem? hs hother]
      · simp only [Prod.mk.injEq, Bool.true_eq_false, false_and, false_iff, not_and]
        exact fun habsent => absurd rfl (habsent item hitem)
  · rw [decide_eq_false hmem]
    have habsent : ∀ item ∈ items, item.key ≠ key := fun item hitem he => hmem ⟨item, hitem, he⟩
    constructor
    · intro h
      have := ((h _).2.mp rfl).2
      omega
    · intro hlt index
      constructor
      · simp only [Prod.mk.injEq, Bool.false_eq_true, false_and, false_iff, not_exists, not_and]
        exact fun item hitem => habsent item (List.mem_of_getElem? hitem)
      · rw [Prod.mk.injEq, ← UInt32.toNat_inj, hcut, Nat.mod_eq_of_lt hlt]
        exact ⟨fun h => ⟨habsent, h.2.symm⟩, fun h => ⟨rfl, h.2.symm⟩⟩

/-- **The keys are ordered, and a node is searched by their order**: the answer tells whether
the key is there, and the index is the number of smaller keys, cut to 32 bits. -/
theorem findKeyInNode32_ordered :
    ((∀ a b, bytescmp a b = 0 ↔ a = b) ∧ (∀ a b, bytescmp b a = -bytescmp a b) ∧
      (∀ a b c, bytescmp a b ≤ 0 → bytescmp b c ≤ 0 → bytescmp a c ≤ 0) ∧
      (∀ a b c, bytescmp a b = -1 → bytescmp b c = -1 → bytescmp a c = -1)) ∧
    ∀ items key, Sorted KeyLt Item.key items →
      findKeyInNode32 key items =
        (decide (∃ item ∈ items, item.key = key), UInt32.ofNat (smaller key items)) ∧
      (smaller key items < 2 ^ 32 → Finds key items) := by
  constructor
  · exact ⟨fun _ _ => bytescmp_eq_zero_iff, bytescmp_swap, fun _ _ _ => bytescmp_nonpos_trans,
      fun _ _ _ => keyLt_trans⟩
  · intro items key hs
    exact ⟨findKeyInNode32_eq hs, (finds_iff hs).mpr⟩

theorem findKeyInNode32_ordered_three :
    findKeyInNode32 [2] [⟨[1], []⟩, ⟨[1, 0], []⟩, ⟨[2], []⟩] = (true, 2) ∧
    Finds [1, 7] [⟨[1], []⟩, ⟨[1, 0], []⟩, ⟨[2], []⟩] := by
  have hs : Sorted KeyLt Item.key [⟨[1], []⟩, ⟨[1, 0], []⟩, ⟨[2], []⟩] := by decide
  exact ⟨(findKeyInNode32_ordered.2 _ [2] hs).1, (findKeyInNode32_ordered.2 _ _ hs).2 (by decide)⟩

/-! ## More than 2^32 items -/

/-- A number as a key, highest byte first. -/
def bigEndian : Nat → Nat → Bytes
  | 0, _ => []
  | k + 1, n => UInt8.ofNat (n / 256 ^ k) :: bigEndian k (n % 256 ^ k)

theorem keyLt_bigEndian {k i j : Nat} (hij : i < j) (hj : j < 256 ^ k) :
    KeyLt (bigEndian k i) (bigEndian k j) := by
  induction k generalizing i j with
  | zero => omega
  | succ k ih =>
    have hpos : 0 < 256 ^ k := Nat.pow_pos (by decide)
    have hhead : j / 256 ^ k < 256 := Nat.div_lt_of_lt_mul (by rwa [← Nat.pow_succ])
    have hle : i / 256 ^ k ≤ j / 256 ^ k := Nat.div_le_div_right (by omega)
    unfold KeyLt
    rw [bigEndian, bigEndian]
    by_cases he : i / 256 ^ k = j / 256 ^ k
    · rw [he, bytescmp_cons_self]
      have hi := Nat.div_add_mod i (256 ^ k)
      have hj := Nat.div_add_mod j (256 ^ k)
      rw [he] at hi
      exact ih (by omega) (Nat.mod_lt _ hpos)
    · refine bytescmp_cons_lt ?_ _ _
      rw [UInt8.lt_iff_toNat_lt, UInt8.toNat_ofNat', UInt8.toNat_ofNat', Nat.mod_eq_of_lt hhead,
        Nat.mod_eq_of_lt (Nat.lt_of_le_of_lt hle hhead)]
      exact Nat.lt_of_le_of_ne hle he

/-- The first numbers, as keys of five bytes. -/
def denseItems (count : Nat) : List Item :=
  (List.range count).map fun i => ⟨bigEndian 5 i, []⟩

theorem sorted_denseItems {count : Nat} (h : count ≤ 256 ^ 5) :
    Sorted KeyLt Item.key (denseItems count) := by
  refine List.pairwise_map.mpr ?_
  refine List.Pairwise.imp_of_mem ?_ List.pairwise_lt_range
  intro i j _ hj hij
  exact keyLt_bigEndian hij (by have := List.mem_range.mp hj; omega)

theorem smaller_denseItems {count : Nat} (h : count < 256 ^ 5) :
    smaller (bigEndian 5 count) (denseItems count) = count := by
  have hall : smaller (bigEndian 5 count) (denseItems count) = (denseItems count).length := by
    refine List.countP_eq_length.mpr fun item hmem => ?_
    obtain ⟨i, hi, rfl⟩ := List.mem_map.mp hmem
    exact decide_eq_true (keyLt_bigEndian (List.mem_range.mp hi) h)
  rw [hall, denseItems, List.length_map, List.length_range]

/-- Behind 2^32 smaller keys the index is 0 again. -/
theorem not_finds_denseItems :
    ¬ ∀ items key, Sorted KeyLt Item.key items → Finds key items := by
  intro h
  have hs := sorted_denseItems (show 2 ^ 32 ≤ 256 ^ 5 by decide)
  have hlt := (finds_iff hs).mp (h _ (bigEndian 5 (2 ^ 32)) hs)
  rw [smaller_denseItems (by decide)] at hlt
  exact Nat.lt_irrefl _ hlt

end Toocal
