import Toocal.Tree.FilePaths

/-!
# Searching a tree on the file

On every file that holds a tree whose counts are right and whose keys increase, `find` and
`find_key` answer by the in-order sequence: `search_sound_complete`.  The leaves of the tree
may stand at different depths, and its nodes may be empty.
-/

namespace Toocal

open Outcomes Multiway Multiway.Tree Pages4096

/-! ## Sound and complete -/

/-- The item goes into the leaf at the index, and the keys of the tree still increase. -/
def IsInsertionPoint (t : PTree) (key : Bytes) (leaf : Node) (index : Nat) : Prop :=
  leaf.isLeaf ∧ index ≤ leaf.items.length ∧ ∃ fs u, plugAll fs u = t ∧ nodeOf u = leaf ∧
    ∀ value, ∃ u', nodeOf u' = leaf.addItem ⟨key, value⟩ index ∧
      Sorted KeyLt Item.key (plugAll fs u').inorder

theorem isInsertionPoint_of_path {t : PTree} {key : Bytes} {x : Path Nat Item}
    (hx : IsPath (findKeyInNode key) t x) (hs : Sorted KeyLt Item.key t.inorder)
    (hf : x.found = false) : IsInsertionPoint t key (nodeOf x.focus) x.index := by
  have hleaf := hx.leaf hf
  have hindex : x.index ≤ x.focus.items.length := by
    have hle := (scans_findKeyInNode key).le x.focus.items
    rwa [hx.stop] at hle
  refine ⟨by simp [isLeaf_nodeOf, hleaf], hindex, x.frames, x.focus, hx.eq, rfl, fun value => ?_⟩
  refine ⟨.node x.focus.tag (insertAt x.focus.items x.index ⟨key, value⟩) [], ?_, ?_⟩
  · simp [nodeOf, Node.addItem, hleaf]
  · rw [inorder_plugAll, inorder_leaf]
    exact hx.sorted_insert (scans_findKeyInNode key) hs hf rfl

/-- **Search is sound and complete**, on every file that holds a tree with the right counts
and increasing keys. -/
theorem search_sound_complete [System] {c : Collection File} {t : PTree} (hr : c.dal.Reads t)
    (hroot : c.root = t.tag) (hregular : Regular t) (hs : Sorted KeyLt Item.key t.inorder)
    (key : Bytes) :
    (∀ value, ⟨key, value⟩ ∈ t.inorder → Collection.find key c = .ok (some ⟨key, value⟩) c) ∧
    ((∀ a ∈ t.inorder, a.key ≠ key) → Collection.find key c = .ok none c ∧
      ∃ root leaf index path, Dal.getNode c.root c.dal = .ok root c.dal ∧
        Dal.findKey root key false c.dal = .ok (some (index, leaf), path) c.dal ∧
        IsInsertionPoint t key leaf index) := by
  obtain ⟨x, hx, hfuel, hfind⟩ := Collection.find_of_regular key hr hroot hregular
  rw [item_of_path hx hs] at hfind
  constructor
  · intro value hmem
    rw [hfind, (itemOf_eq_some hs).mpr ⟨hmem, rfl⟩]
  · intro habsent
    have hnone : itemOf key t.inorder = none := itemOf_eq_none.mpr habsent
    have hf : x.found = false := by
      rw [← Bool.not_eq_true, found_iff hx hs]
      exact fun hne => hne hnone
    refine ⟨by rw [hfind, hnone], nodeOf t, nodeOf x.focus, x.index, 0 :: pathIndexes x.frames,
      hroot ▸ hr.getNode, ?_,
      isInsertionPoint_of_path hx hs hf⟩
    rw [Dal.findKey_ok false hr hx hfuel, hf]
    rfl

/-- A root with an empty leaf to its right, and a node without items to its left. -/
def lopsided : PTree :=
  .node 1 [⟨[98], [1]⟩] [.node 2 [] [.node 4 [⟨[97], [0]⟩] []], .node 3 [] []]

/-- Its pages, of 32 bytes each. -/
def lopsidedFile : File :=
  ⟨([([], []), ([⟨[98], [1]⟩], [2, 3]), ([], [4]), ([], []), ([⟨[97], [0]⟩], [])]).flatMap
    fun page : List Item × List Nat =>
      (NodeSerializer.serialize page.1 page.2 32).getD [], false⟩

def lopsidedCollection : Collection File := ⟨⟨⟨32, 0, 0⟩, lopsidedFile, ⟨1, 0⟩, ⟨4, []⟩, []⟩, [], 1⟩

set_option maxRecDepth 8000 in
theorem reads_lopsided [System] : lopsidedCollection.dal.Reads lopsided := by
  intro u hu
  simp only [lopsided, subtrees, subtreesList, List.append_nil, List.cons_append, List.nil_append,
    List.mem_cons, List.not_mem_nil, or_false] at hu
  rcases hu with rfl | rfl | rfl | rfl <;> rfl

theorem search_lopsided :
    Collection.find [97] lopsidedCollection = .ok (some ⟨[97], [0]⟩) lopsidedCollection ∧
    Collection.find [99] lopsidedCollection = .ok none lopsidedCollection := by
  have hregular : Regular lopsided := by
    intro u hu
    simp only [lopsided, subtrees, subtreesList, List.append_nil, List.cons_append,
      List.nil_append, List.mem_cons, List.not_mem_nil, or_false] at hu
    rcases hu with rfl | rfl | rfl | rfl <;> decide
  have hs : Sorted KeyLt Item.key lopsided.inorder := by decide
  exact ⟨(search_sound_complete reads_lopsided rfl hregular hs [97]).1 [0] (by decide),
    ((search_sound_complete reads_lopsided rfl hregular hs [99]).2 (by decide)).1⟩

end Toocal
