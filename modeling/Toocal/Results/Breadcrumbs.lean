import Toocal.Results.Predecessors

/-!
# Breadcrumbs

`find_key` and `remove_item_from_internal` leave the indexes of the children they went down
by, and `get_nodes` reads the nodes along them again.  `breadcrumbs_agree`: these are the
nodes the two came by, from the root to the node of the search, and on to the leaf the
predecessor was taken from.
-/

namespace Toocal

open Outcomes Multiway Multiway.Tree Pages4096

/-- Each node is the child of the one before it at the index recorded for it. -/
def Descends : List Node → List Nat → Prop
  | [_], [] => True
  | parent :: child :: nodes, index :: indexes =>
    parent.children[index]? = some child.pageNum ∧ Descends (child :: nodes) indexes
  | _, _ => False

/-- The nodes are those on the pages of a path from the root along the indexes, the first
of which is that of the root itself. -/
structure RootPath {φ : Type} [PageStore φ] (c : Collection φ) (indexes : List Nat)
    (nodes : List Node) (last : Node) : Prop where
  root : ∃ n ∈ nodes.head?, n.pageNum = c.root
  descends : ∃ path, indexes = 0 :: path ∧ Descends nodes path
  stored : ∀ n ∈ nodes, Dal.getNode n.pageNum c.dal = .ok n c.dal
  last : nodes.getLast? = some last

section PathNodes

variable {fs : List (Frame Nat Item)} {u : PTree}

theorem descends_pathNodes : ∀ (fs : List (Frame Nat Item)) (u : PTree),
    Descends (pathNodes fs u) (pathIndexes fs)
  | [], _ => trivial
  | f :: fs, u => by
    have ih := descends_pathNodes fs u
    rw [pathNodes, pathNodes_eq_cons fs u] at *
    exact ⟨childAt_plug f (plugAll fs u), ih⟩

theorem getLast?_pathNodes : (pathNodes fs u).getLast? = some (nodeOf u) := by
  induction fs with
  | nil => rfl
  | cons f fs ih => rw [pathNodes, pathNodes_eq_cons, List.getLast?_cons_cons,
      ← pathNodes_eq_cons, ih]

theorem pages_pathNodes : (pathNodes fs u).map Node.pageNum = fs.map Frame.tag ++ [u.tag] := by
  induction fs with
  | nil => rfl
  | cons f fs ih => rw [pathNodes, List.map_cons, ih]; rfl

/-- **`get_nodes` reads the path whose indexes it is given.** -/
theorem rootPath_ok {φ : Type} [PageStore φ] {c : Collection φ} (hr : c.dal.Reads (plugAll fs u))
    (hroot : c.root = (plugAll fs u).tag) :
    Collection.getNodes (0 :: pathIndexes fs) c = .ok (pathNodes fs u) c ∧
      RootPath c (0 :: pathIndexes fs) (pathNodes fs u) (nodeOf u) := by
  refine ⟨Collection.getNodes_ok hr hroot, ⟨⟨nodeOf (plugAll fs u), ?_, hroot.symm⟩,
    ⟨pathIndexes fs, rfl, descends_pathNodes fs u⟩, fun n hn => ?_, getLast?_pathNodes⟩⟩
  · rw [pathNodes_eq_cons]
    rfl
  · obtain ⟨v, hv, rfl⟩ := mem_pathNodes hn
    exact hr v hv

end PathNodes

/-- The nodes go on from `nodes`: they are on the same pages up to `node`, which has `pred` as
its item `i`, and `leaf` is what was left when `pred` was taken from its end. -/
structure GoesOn {φ : Type} [PageStore φ] (d : Dal φ) (nodes nodes' : List Node)
    (node leaf : Node) (i : Nat) (pred : Item) : Prop where
  pages : (nodes'.map Node.pageNum).take nodes.length = nodes.map Node.pageNum
  node : nodes'[nodes.length - 1]? = some { node with items := node.items.set i pred }
  isLeaf : leaf.isLeaf = true
  taken : Dal.getNode leaf.pageNum d = .ok { leaf with items := leaf.items ++ [pred] } d

/-- `remove_item_from_internal` returns, and along its indexes the path goes on to the leaf that
gave its last item away. -/
def PathGoesOn [System] (c : Collection File) (ancestors : List Nat) (nodes : List Node) (node : Node)
    (i : Nat) : Prop :=
  ∃ affectedNodes d', Dal.removeItemFromInternal node i c.dal = .ok affectedNodes d' ∧
    ∃ nodes' leaf pred,
      Collection.getNodes (ancestors ++ affectedNodes) { c with dal := d' } =
        .ok nodes' { c with dal := d' } ∧
      RootPath { c with dal := d' } (ancestors ++ affectedNodes) nodes' leaf ∧
      GoesOn c.dal nodes nodes' node leaf i pred

section Agree

variable [System] {c : Collection File} {F : Set Nat} {t : PTree} {fs : List (Frame Nat Item)}
  {u s : PTree} {y : Path Nat Item} {i m : Nat} {pred : Item}

theorem goesOn_pulled {d : Dal File} (hr : d.Reads (plugAll fs u)) (hu : Uniform (m + 1) u)
    (hpull : PullsUp u i s y pred) :
    GoesOn d (pathNodes fs u) (pathNodes (fs ++ pulledPath u i y pred) (pulledLeaf y)) (nodeOf u)
      (nodeOf (pulledLeaf y)) i pred where
  pages := by
    rw [pages_pathNodes, pages_pathNodes, length_pathNodes, pulledPath, List.map_append,
      List.map_cons, List.append_assoc, List.take_append, List.length_map]
    simp [Frame.ofNode, List.take_of_length_le]
  node := by
    rw [length_pathNodes, Nat.add_sub_cancel, pathNodes_at,
      Collection.nodeOf_pulled hu hpull.toLeadsDown pred]
    rfl
  isLeaf := by
    rw [isLeaf_nodeOf, hpull.leaf hu]
    rfl
  taken := by
    have hmem : y.focus ∈ u.subtrees := focus_mem_subtrees hu hpull.toLeadsDown
    have hread : Dal.getNode y.focus.tag d = .ok (nodeOf y.focus) d := hr.focus y.focus hmem
    obtain ⟨init, hinit⟩ := List.getLast?_eq_some_iff.mp hpull.last
    rw [pageNum_nodeOf, pulledLeaf, tag_node, hread]
    simp [nodeOf, hinit]

theorem pathGoesOn_of_pull (hs : c.Stored F (some (plugAll fs u))) (hu : Uniform (m + 1) u)
    (hpull : PullsUp u i s y pred) (hi : i < u.items.length)
    (hroom : PageRoom (u.items.set i pred) u.children.length) :
    PathGoesOn c (0 :: pathIndexes fs) (pathNodes fs u) (nodeOf u) i := by
  have ht : c.dal.Stores (plugAll fs u) := hs.stores _ rfl
  have hlay : Layout c.dal.freelist F (plugAll fs u).tags := pagesOf_some (plugAll fs u) ▸ hs.layout
  obtain ⟨d', hrun, -, hstores⟩ := wrote_of_pull hs.usable ht hlay hu hpull hi hroom
  have hroot : c.root = (plugAll (fs ++ pulledPath u i y pred) (pulledLeaf y)).tag := by
    rw [plugAll_append, Dal.tag_plugAll, hs.root, rootOf_some, Dal.tag_plugAll]
    rfl
  have hreads : d'.Reads (plugAll (fs ++ pulledPath u i y pred) (pulledLeaf y)) := hstores.reads
  obtain ⟨hnodes, hpath⟩ := rootPath_ok (c := { c with dal := d' }) hreads hroot
  rw [pathIndexes_append] at hnodes hpath
  exact ⟨_, d', hrun, _, _, pred, hnodes, hpath, goesOn_pulled ht.reads hu hpull⟩

theorem room_of_pathGoesOn {ancestors : List Nat} {nodes : List Node} (ht : c.dal.Stores u)
    (hu : Uniform (m + 1) u) (hi : i < u.items.length)
    (h : PathGoesOn c ancestors nodes (nodeOf u) i) :
    ∃ a ∈ predecessor u i, cellsSize (u.items.set i a) ≤ defaultPageSize - 1 := by
  obtain ⟨affectedNodes, d', hrun, -⟩ := h
  obtain ⟨s, y, hdown⟩ := exists_leadsDown hu hi.le
  have hreads : c.dal.Reads (plugAll y.frames y.focus) := by
    rw [(hdown.spec hu).1]
    exact ht.reads.child (List.mem_of_getElem? hdown.child)
  cases hlast : y.focus.items.getLast? with
  | none =>
    cases (Collection.removeItemFromInternal_stuck ht.reads hu hdown hlast
      hreads.length_frames_lt).symm.trans hrun
  | some pred =>
    exact ⟨pred, hdown.predecessor_eq.trans hlast, cellsSize_of_removed ht hu ⟨hdown, hlast⟩ hi hrun⟩

/-- **Breadcrumbs and paths agree**: along the indexes of a search `get_nodes` reads the path
from the root to the node of the search, and with those of `remove_item_from_internal` the
path on to the leaf that gave its last item away, where that item has room in the node. -/
theorem breadcrumbs_agree (hs : c.Stored F (some t)) (hw : WellFormed (some t)) (key : Bytes)
    (exact : Bool) {index : Nat} {node : Node} {ancestors : List Nat} {d : Dal File}
    (hfind : Dal.findKey (nodeOf t) key exact c.dal = .ok (some (index, node), ancestors) d) :
    ∃ nodes, Collection.getNodes ancestors c = .ok nodes c ∧ RootPath c ancestors nodes node ∧
      ∃ u ∈ t.subtrees, node = nodeOf u ∧ (u.children ≠ [] → ∀ i < u.items.length,
        ((∃ a ∈ predecessor u i, PageRoom (u.items.set i a) u.children.length) →
          PathGoesOn c ancestors nodes node i) ∧
        (PathGoesOn c ancestors nodes node i →
          ∃ a ∈ predecessor u i, cellsSize (u.items.set i a) ≤ defaultPageSize - 1)) := by
  obtain ⟨⟨h, hu⟩, -⟩ := wellFormed_some.mp hw
  obtain ⟨x, -, hx⟩ := exists_path key hu.regular
  have ht := hs.stores t rfl
  -- what the search has found
  have hfuel : x.frames.length < c.dal.fuel := by
    rw [← hx.eq] at ht
    exact ht.reads.length_frames_lt
  have hrun := Dal.findKey_ok exact ht.reads hx hfuel
  rw [hfind] at hrun
  obtain ⟨heq, -⟩ := Outcome.ok.inj hrun
  obtain ⟨hresult, rfl⟩ := Prod.mk.inj heq
  split at hresult
  next hfound =>
    obtain ⟨rfl, rfl⟩ := Prod.mk.inj (Option.some.inj hresult)
    rw [← hx.eq] at hs hu ht
    obtain ⟨hnodes, hpath⟩ := rootPath_ok ht.reads hs.root
    refine ⟨_, hnodes, hpath, x.focus, ?_, rfl, fun hinner i hi => ?_⟩
    · rw [← hx.eq]
      exact mem_subtrees_plugAll x.frames x.focus
    obtain ⟨k, -, hfocus⟩ := uniform_of_plugAll hu
    obtain ⟨m, rfl⟩ : ∃ m, k = m + 1 := by
      cases k with
      | zero => exact absurd hfocus.children_eq_nil hinner
      | succ m => exact ⟨m, rfl⟩
    refine ⟨?_, room_of_pathGoesOn ht.of_plugAll hfocus hi⟩
    rintro ⟨pred, hpred, hroom⟩
    obtain ⟨s, y, hpull⟩ := exists_pullsUp hfocus hi hpred
    exact pathGoesOn_of_pull hs hfocus hpull hi hroom
  next => cases hresult

end Agree

theorem exists_path_lower : ∃ x, IsPath (findKeyInNode [5]) deepTree x ∧ x.found = true ∧
    x.index = 1 ∧ x.focus = lowerNode ∧ pathIndexes x.frames = [0] :=
  ⟨⟨[⟨3, [], [(⟨[8], [8]⟩,
      .node 8 [⟨[10], [10]⟩] [.node 9 [⟨[9], [9]⟩] [], .node 10 [⟨[11], [11]⟩] []])]⟩],
    lowerNode, 1, true⟩, ⟨rfl, by simp [Frame.items]; decide +kernel, by decide +kernel, by simp⟩,
    rfl, rfl, rfl, rfl⟩

/-- Item 5 below the root: the path to its node, and on to the leaf of its predecessor. -/
theorem breadcrumbs_agree_lower : ∃ c : Collection File, c.Stored {q | q ≤ 2} (some deepTree) ∧
    ∃ nodes node, Collection.getNodes [0, 0] c = .ok nodes c ∧ RootPath c [0, 0] nodes node ∧
      node = nodeOf lowerNode ∧ PathGoesOn c [0, 0] nodes node 1 := by
  obtain ⟨c, -, -, hc⟩ := exists_deepTree
  obtain ⟨x, hx, hfound, hindex, hfocus, hpath⟩ := exists_path_lower
  have ht : c.dal.Stores deepTree := hc.stores _ rfl
  have hfuel : x.frames.length < c.dal.fuel := by
    rw [← hx.eq] at ht
    exact ht.reads.length_frames_lt
  have hfind := Dal.findKey_ok true ht.reads hx hfuel
  rw [hfound, hindex, hfocus, hpath] at hfind
  obtain ⟨nodes, hnodes, hroot, u, hu, heq, hgoes⟩ :=
    breadcrumbs_agree hc wellFormed_deepTree [5] true hfind
  refine ⟨c, hc, nodes, nodeOf lowerNode, hnodes, hroot, rfl, ?_⟩
  have hnode : ∀ u ∈ deepTree.subtrees, 4 = u.tag → u.children ≠ [] ∧ 1 < u.items.length ∧
      ∃ a ∈ predecessor u 1, PageRoom (u.items.set 1 a) u.children.length := by decide +kernel
  obtain ⟨hinner, hitems, hroom⟩ := hnode u hu (congrArg Node.pageNum heq)
  exact (hgoes hinner 1 hitems).1 hroom

/-- **A long predecessor leaves no path**: the node it is written to cannot be read. -/
theorem breadcrumbs_overflow :
    ¬∀ (c : Collection File) (F : Set Nat) (t : PTree), c.Stored F (some t) → WellFormed (some t) →
      ∀ (key : Bytes) (exact : Bool) (index : Nat) (node : Node) (ancestors : List Nat) (d : Dal File),
        Dal.findKey (nodeOf t) key exact c.dal = .ok (some (index, node), ancestors) d →
        ∃ nodes, Collection.getNodes ancestors c = .ok nodes c ∧ RootPath c ancestors nodes node ∧
          (node.children ≠ [] → ∀ i < node.items.length, PathGoesOn c ancestors nodes node i) := by
  intro h
  obtain ⟨c, -, -, hc⟩ := exists_longNode
  have ht : c.dal.Stores longNode := hc.stores _ rfl
  have hx : IsPath (findKeyInNode [2]) longNode ⟨[], longNode, 0, true⟩ :=
    ⟨rfl, by simp, by decide +kernel, by simp⟩
  have hfind := Dal.findKey_ok true ht.reads hx ht.reads.length_frames_lt
  obtain ⟨nodes, -, -, hgoes⟩ := h c _ longNode hc wellFormed_longNode [2] true _ _ _ _ hfind
  obtain ⟨a, ha, hsize⟩ := room_of_pathGoesOn (i := 0) (m := 0) ht (by decide) (by decide)
    (hgoes (by decide) 0 (by decide))
  revert hsize
  obtain rfl : longItem 1 = a := Option.some.inj ha
  decide +kernel

end Toocal
