import Toocal.Tree.FilePaths
import Toocal.Tree.Replay

/-!
# The insert step of `put`

`put` takes the index its search ends with and compares the key of `items[insertion_index]`
with `key`, to see whether the key is there.  But a search that does not find the key may
end one past the last item, and `key` has been moved into the new item by then, so the
comparison is with the empty key.

* `searched_ok`: what the search hands the insert step on a file that holds a tree.
* `insertStepCorrect_iff`: the step is in range and decides rightly exactly for the empty
  key, and for a new key that some item of its leaf, if there are any, exceeds.
-/

namespace Toocal

open Outcomes Multiway Multiway.Tree Pages4096

namespace Collection

/-- The condition of "If key already exists".  Without items nothing is compared. -/
def KeyExists (pastEnd : Item) (node : Node) (insertionIndex : Nat) : Prop :=
  ¬ node.items.isEmpty ∧ bytescmp (node.items.getD insertionIndex pastEnd).key [] = 0

instance (pastEnd : Item) (node : Node) (insertionIndex : Nat) :
    Decidable (KeyExists pastEnd node insertionIndex) := inferInstanceAs (Decidable (_ ∧ _))

/-- The search in front of the insert step ends with that index and node. -/
def Searched {φ : Type} [PageStore φ] (c : Collection φ) (key : Bytes) (insertionIndex : Nat)
    (node : Node) : Prop :=
  ∃ root path, Dal.getNode c.root c.dal = .ok root c.dal ∧
    Dal.findKey root key false c.dal = .ok (some (insertionIndex, node), path) c.dal

/-- The insert step compares inside the items, and takes its first branch exactly if the
tree has the key, whatever lies past the end of the items. -/
def InsertStepCorrect [System] (c : Collection File) (t : PTree) (key : Bytes) : Prop :=
  ∃ insertionIndex node, c.Searched key insertionIndex node ∧
    (¬ node.items.isEmpty → insertionIndex < node.items.length) ∧
    ∀ pastEnd, KeyExists pastEnd node insertionIndex ↔ ∃ a ∈ t.inorder, a.key = key

section Search

variable {c : Collection File} {t : PTree} {key : Bytes}

theorem Searched.unique [System] {i j : Nat} {m n : Node} (h : c.Searched key i m)
    (h' : c.Searched key j n) : i = j ∧ m = n := by
  obtain ⟨root, path, hroot, hfind⟩ := h
  obtain ⟨root', path', hroot', hfind'⟩ := h'
  obtain rfl : root = root' := (Outcome.ok.inj (hroot.symm.trans hroot')).1
  have heq := (Outcome.ok.inj (hfind.symm.trans hfind')).1
  simpa using congrArg Prod.fst heq

theorem searched_ok [System] {x : Path Nat Item} (hr : c.dal.Reads t) (hroot : c.root = t.tag)
    (hx : IsPath (findKeyInNode key) t x) (hfuel : x.frames.length < c.dal.fuel) :
    c.Searched key x.index (nodeOf x.focus) := by
  refine ⟨nodeOf t, 0 :: pathIndexes x.frames, hroot ▸ hr.getNode, ?_⟩
  rw [Dal.findKey_ok false hr hx hfuel, if_pos (by simp)]

theorem keyExists_found {x : Path Nat Item} (hx : IsPath (findKeyInNode key) t x)
    (hf : x.found = true) : x.index < x.focus.items.length ∧
      ∀ pastEnd, KeyExists pastEnd (nodeOf x.focus) x.index ↔ key = [] := by
  obtain ⟨a, ha, hk, -⟩ := hx.mem (scans_findKeyInNode key) hf
  have hlt : x.index < x.focus.items.length := (List.getElem?_eq_some_iff.mp ha).1
  have hne : x.focus.items.isEmpty = false := by
    rw [List.isEmpty_eq_false_iff]
    exact List.ne_nil_of_mem (List.mem_of_getElem? ha)
  refine ⟨hlt, fun pastEnd => ?_⟩
  rw [KeyExists, items_nodeOf, hne, List.getD_eq_getElem?_getD, ha, Option.getD_some,
    bytescmp_eq_zero_iff, hk]
  simp

theorem not_keyLt_nil (a : Bytes) : ¬KeyLt a [] := by cases a <;> simp [KeyLt, bytescmp]

theorem not_keyExists_missed {x : Path Nat Item} (hx : IsPath (findKeyInNode key) t x)
    (hs : Sorted KeyLt Item.key t.inorder) (hf : x.found = false)
    (hlt : x.focus.items ≠ [] → x.index < x.focus.items.length) (pastEnd : Item) :
    ¬KeyExists pastEnd (nodeOf x.focus) x.index := by
  rintro ⟨hne, hzero⟩
  rw [items_nodeOf] at hne hzero
  have hlt := hlt fun h => hne (by rw [h]; rfl)
  rw [List.getD_eq_getElem?_getD, List.getElem?_eq_getElem hlt, Option.getD_some,
    bytescmp_eq_zero_iff] at hzero
  have hmem : x.focus.items[x.index] ∈ x.focus.items.drop x.index := by
    rw [List.drop_eq_getElem_cons hlt]
    exact List.mem_cons_self
  have hgt := (hx.leaf_separates (scans_findKeyInNode key) hs hf).2 _ hmem
  rw [hzero] at hgt
  exact not_keyLt_nil key hgt

/-- The search ends inside a leaf exactly where some item of it has a greater key. -/
theorem index_lt_iff {x : Path Nat Item} (hx : IsPath (findKeyInNode key) t x)
    (hs : Sorted KeyLt Item.key t.inorder) (hf : x.found = false) :
    x.index < x.focus.items.length ↔ ∃ a ∈ x.focus.items, KeyLt key a.key := by
  obtain ⟨hbelow, habove⟩ := hx.leaf_separates (scans_findKeyInNode key) hs hf
  constructor
  · intro hlt
    refine ⟨x.focus.items[x.index], List.getElem_mem hlt, habove _ ?_⟩
    rw [List.drop_eq_getElem_cons hlt]
    exact List.mem_cons_self
  · rintro ⟨a, ha, hk⟩
    by_contra hge
    rw [List.take_of_length_le (not_lt.mp hge)] at hbelow
    exact irrefl _ (keyLt_trans hk (hbelow a ha))

theorem insertStepCorrect_of_path [System] {x : Path Nat Item} (hr : c.dal.Reads t) (hroot : c.root = t.tag)
    (hx : IsPath (findKeyInNode key) t x) (hfuel : x.frames.length < c.dal.fuel) :
    c.InsertStepCorrect t key ↔
      (x.focus.items ≠ [] → x.index < x.focus.items.length) ∧
        ∀ pastEnd, KeyExists pastEnd (nodeOf x.focus) x.index ↔ ∃ a ∈ t.inorder, a.key = key := by
  have hsearch := searched_ok hr hroot hx hfuel
  have hempty : ¬ (nodeOf x.focus).items.isEmpty ↔ x.focus.items ≠ [] := by
    rw [items_nodeOf, List.isEmpty_iff]
  constructor
  · rintro ⟨i, node, hsearch', hrange, hbranch⟩
    obtain ⟨rfl, rfl⟩ := hsearch'.unique hsearch
    exact ⟨fun hne => hrange (hempty.mpr hne), hbranch⟩
  · rintro ⟨hrange, hbranch⟩
    exact ⟨x.index, nodeOf x.focus, hsearch, fun hne => hrange (hempty.mp hne), hbranch⟩

end Search

/-- **The insert step is right exactly where the key is there and empty, or is new and its
leaf has no items or one with a greater key.** -/
theorem insertStepCorrect_iff [System] {c : Collection File} {t : PTree} (hr : c.dal.Reads t)
    (hroot : c.root = t.tag) (hregular : Regular t) (hs : Sorted KeyLt Item.key t.inorder)
    (key : Bytes) :
    c.InsertStepCorrect t key ↔
      ((∃ a ∈ t.inorder, a.key = key) ∧ key = []) ∨
      ((∀ a ∈ t.inorder, a.key ≠ key) ∧ ∃ x ∈ locate (findKeyInNode key) t,
        x.focus.items = [] ∨ ∃ a ∈ x.focus.items, KeyLt key a.key) := by
  obtain ⟨x, hloc, hx, hfuel⟩ := hr.exists_path hregular key
  rw [insertStepCorrect_of_path hr hroot hx hfuel]
  cases hf : x.found with
  | true =>
    obtain ⟨a, -, hk, hmem⟩ := hx.mem (scans_findKeyInNode key) hf
    obtain ⟨hlt, hexists⟩ := keyExists_found hx hf
    have hthere : ∃ a ∈ t.inorder, a.key = key := ⟨a, hmem, hk⟩
    constructor
    · rintro ⟨-, hbranch⟩
      exact Or.inl ⟨hthere, (hexists ⟨[], []⟩).mp ((hbranch ⟨[], []⟩).mpr hthere)⟩
    · rintro (⟨-, hnil⟩ | ⟨habsent, -⟩)
      · exact ⟨fun _ => hlt, fun pastEnd =>
          ⟨fun _ => hthere, fun _ => (hexists pastEnd).mpr hnil⟩⟩
      · exact absurd hk (habsent a hmem)
  | false =>
    have habsent := hx.not_mem (scans_findKeyInNode key) hs hf
    have hnone : ¬ ∃ a ∈ t.inorder, a.key = key := fun ⟨a, ha, hk⟩ => habsent a ha hk
    constructor
    · rintro ⟨hrange, -⟩
      refine Or.inr ⟨habsent, x, hloc, ?_⟩
      by_cases hne : x.focus.items = []
      · exact Or.inl hne
      · exact Or.inr ((index_lt_iff hx hs hf).mp (hrange hne))
    · rintro (⟨hthere, -⟩ | ⟨-, y, hy, hleaf⟩)
      · exact absurd hthere hnone
      · obtain rfl : x = y := Option.some.inj (hloc.symm.trans hy)
        have hrange : x.focus.items ≠ [] → x.index < x.focus.items.length := fun hne =>
          (index_lt_iff hx hs hf).mpr (hleaf.resolve_left hne)
        exact ⟨hrange, fun pastEnd =>
          ⟨fun h => absurd h (not_keyExists_missed hx hs hf hrange pastEnd), fun h => absurd h hnone⟩⟩

theorem regular_afterFourPuts : Regular afterFourPuts :=
  (wellFormed_some.mp wellFormed_afterFourPuts).1.elim fun _ hu => hu.regular

/-- A key below all others. -/
theorem insertStepCorrect_five : ∃ d c, Dal.create thinNodes = .ok () d ∧
    replay fourPuts ⟨d, [], 0⟩ = some c ∧ c.InsertStepCorrect afterFourPuts [5] := by
  obtain ⟨d, c, hd, hrun, hshows⟩ := exists_fourPuts
  have hiff := insertStepCorrect_iff (hshows.reads _ rfl).2 hshows.root regular_afterFourPuts
    (wellFormed_some.mp wellFormed_afterFourPuts).2 [5]
  exact ⟨d, c, hd, hrun, hiff.mpr (Or.inr ⟨by decide, _, rfl, Or.inr (by decide)⟩)⟩

/-- The key 10 is there, and the branch for it is not taken. -/
theorem keyExists_misses_ten : ∃ d c, Dal.create thinNodes = .ok () d ∧
    replay fourPuts ⟨d, [], 0⟩ = some c ∧ c.Shows (some afterFourPuts) ∧
    WellFormed (some afterFourPuts) ∧ ¬c.InsertStepCorrect afterFourPuts [10] := by
  obtain ⟨d, c, hd, hrun, hshows⟩ := exists_fourPuts
  have hr := (hshows.reads _ rfl).2
  obtain ⟨x, -, hx, hfuel⟩ := hr.exists_path regular_afterFourPuts [10]
  refine ⟨d, c, hd, hrun, hshows, wellFormed_afterFourPuts, fun h => ?_⟩
  obtain ⟨-, hbranch⟩ := (insertStepCorrect_of_path hr hshows.root hx hfuel).mp h
  have hf : x.found = true := by
    rw [found_iff hx (wellFormed_some.mp wellFormed_afterFourPuts).2]
    decide
  have htaken := (hbranch ⟨[], []⟩).mpr ⟨⟨[10], [10]⟩, by decide, rfl⟩
  exact absurd (((keyExists_found hx hf).2 _).mp htaken) (by decide)

end Collection

end Toocal
