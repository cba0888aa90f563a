import Toocal.Tree.Operations
import Toocal.Tree.Remove
import Toocal.Results.Splitting

/-!
# Taking an item out of an inner node

`remove_item_from_internal` puts the item before it in order in the place of the one to be
removed, and takes that one out of its leaf.  As the leaf is reached over last children only,
nothing stands between the two.

`RemovesItem` is what is asked of it on the database.  It does so where the predecessor has
room in the node (`removeItemFromInternal_removes`).  Nothing looks at the room: a long
predecessor is written past the front of the buffer (`predecessor_overflows`).
-/

namespace Toocal

open Outcomes Multiway Multiway.Tree Pages4096

/-- What comes in the place of item `i` of an inner node: the last item of the rightmost leaf below
its child `i`. -/
def predecessor (u : PTree) (i : Nat) : Option Item := do
  let c ← u.children[i]?
  let y ← rightmost c
  y.focus.items.getLast?

/-- From `d` to `d'` the tree `p` has become `p'`, which has all of its items in order but
item `i`; the page of `p` and that of a leaf below it have been written. -/
structure ItemRemoved [System] (d d' : Dal File) (p p' : PTree) (i : Nat) : Prop where
  tag : p'.tag = p.tag
  stores : d'.Stores p'
  uniform : ∃ h, Uniform h p ∧ Uniform h p'
  inorder : ∃ l₁ a l₂, p.items[i]? = some a ∧ p.inorder = l₁ ++ a :: l₂ ∧ p'.inorder = l₁ ++ l₂
  sorted : Sorted KeyLt Item.key p'.inorder
  written : ∃ leaf ∈ p.subtrees, leaf.children = [] ∧ d'.written = p.tag :: leaf.tag :: d.written ∧
    ∀ q, q ≠ p.tag → q ≠ leaf.tag → q * d.options.pageSize < 2 ^ 64 →
      (Dal.getNode q d').answer = (Dal.getNode q d).answer

/-- `remove_item_from_internal` returns, and has removed item `i` and nothing else. -/
def RemovesItem [System] (d : Dal File) (p : PTree) (i : Nat) : Prop :=
  ∃ affectedNodes d', Dal.removeItemFromInternal (nodeOf p) i d = .ok affectedNodes d' ∧
    ∃ p', ItemRemoved d d' p p' i

section Remove

variable {p s : PTree} {gs : List (Frame Nat Item)} {i m : Nat} {y : Path Nat Item} {pred : Item}

theorem focus_mem_subtrees (hu : Uniform (m + 1) p) (hdown : LeadsDown p i s y) :
    y.focus ∈ p.subtrees := by
  have hmem := mem_subtrees_plugAll y.frames y.focus
  rw [(hdown.spec hu).1] at hmem
  exact subtrees_child (List.mem_of_getElem? hdown.child) hmem

theorem LeadsDown.predecessor_eq (h : LeadsDown p i s y) :
    predecessor p i = y.focus.items.getLast? := by
  rw [predecessor, h.child]
  simp [h.path]

theorem exists_pullsUp (hu : Uniform (m + 1) p) (hi : i < p.items.length)
    (hpred : pred ∈ predecessor p i) : ∃ s y, PullsUp p i s y pred := by
  obtain ⟨s, y, hdown⟩ := exists_leadsDown hu hi.le
  exact ⟨s, y, hdown, hdown.predecessor_eq.symm.trans hpred⟩

variable [System] {d : Dal File} {F : Set Nat} {t : PTree}

theorem wrote_of_pull (hd : d.Usable) (ht : d.Stores (plugAll gs p))
    (hlay : Layout d.freelist F (plugAll gs p).tags) (hu : Uniform (m + 1) p)
    (hpull : PullsUp p i s y pred) (hi : i < p.items.length)
    (hroom : PageRoom (p.items.set i pred) p.children.length) :
    ∃ d', Dal.removeItemFromInternal (nodeOf p) i d = .ok (pathIndexes (pulledPath p i y pred)) d' ∧
      d.Wrote d' [p.tag, y.focus.tag] ∧
      d'.Stores (plugAll (gs ++ pulledPath p i y pred) (pulledLeaf y)) := by
  obtain ⟨e, he, hholds⟩ := ht.exists_shelf hd
  have ho : e.Owns F (plugAll gs p) := ⟨hholds, he.freelist ▸ hlay⟩
  have hwritten : e.written = [] := he.written.symm
  obtain ⟨e', hrun, ho', -, -, hwritten', -⟩ :=
    Collection.removeItemFromInternal_ok ho hu hpull hi
      (room_page.mpr (hu.length_children ▸ hroom))
  rw [hwritten] at hwritten'
  obtain ⟨d', hd', hwrote, hstores, -⟩ := wrote_of_shelf he
    ((since_simulates _ _).sim_removeItemFromInternal _ _)
    (Collection.mirrors_simulates.sim_removeItemFromInternal _ _) hrun
  rw [hwritten'] at hwrote
  exact ⟨d', hd', hwrote, hstores _ ho'.holds⟩

theorem Dal.Wrote.others_of_stores {d' : Dal File} (hwrote : d.Wrote d' [p.tag, y.focus.tag])
    (hp : d.Stores p) (hmem : y.focus ∈ p.subtrees) {q : Nat} (hqp : q ≠ p.tag)
    (hqy : q ≠ y.focus.tag) (hlt : q * d.options.pageSize < 2 ^ 64) :
    (Dal.getNode q d').answer = (Dal.getNode q d).answer := by
  refine hwrote.others (fun page hpage => ?_) q (by simp [hqp, hqy]) hlt
  simp only [List.mem_cons, List.not_mem_nil, or_false] at hpage
  rcases hpage with rfl | rfl
  · exact Nat.le_of_add_right_le (hp.within (mem_subtrees_self p))
  · exact Nat.le_of_add_right_le (hp.within hmem)

theorem itemRemoved_of_pull {d' : Dal File} (hp : d.Stores p) (hwrote : d.Wrote d' [p.tag, y.focus.tag])
    (hstores : d'.Stores (plugAll (pulledPath p i y pred) (pulledLeaf y)))
    (hu : Uniform (m + 1) p) (hs : Sorted KeyLt Item.key p.inorder) (hpull : PullsUp p i s y pred)
    (hi : i < p.items.length) :
    ItemRemoved d d' p (plugAll (pulledPath p i y pred) (pulledLeaf y)) i := by
  obtain ⟨l₁, l₂, hin, hin'⟩ := hpull.inorder hu (List.getElem?_eq_getElem hi)
  have hmem := focus_mem_subtrees hu hpull.toLeadsDown
  refine ⟨rfl, hstores, ⟨m + 1, hu, hpull.uniform hu⟩,
    ⟨l₁, _, l₂, List.getElem?_eq_getElem hi, hin, hin'⟩, ?_,
    y.focus, hmem, (hpull.spec hu).2.2, hwrote.written,
    fun q hqp hqy hlt => hwrote.others_of_stores hp hmem hqp hqy hlt⟩
  rw [hin] at hs
  rw [hin']
  exact hs.sublist ((List.sublist_append_right [_] l₂).append_left l₁)

/-- Where `remove_item_from_internal` returns, the cells of the node have been written within the
buffer. -/
theorem cellsSize_of_removed {affectedNodes : List Nat} {d' : Dal File} (hp : d.Stores p)
    (hu : Uniform (m + 1) p) (hpull : PullsUp p i s y pred) (hi : i < p.items.length)
    (hrun : Dal.removeItemFromInternal (nodeOf p) i d = .ok affectedNodes d') :
    cellsSize (p.items.set i pred) ≤ defaultPageSize - 1 := by
  have hpred : pred ∈ y.focus.items := List.mem_of_getLast? hpull.last
  have hmem := focus_mem_subtrees hu hpull.toLeadsDown
  obtain ⟨hshort, hcount⟩ := hp.short (mem_subtrees_self p)
  have hreads : d.Reads (plugAll y.frames y.focus) := by
    rw [(hpull.spec hu).1]
    exact hp.reads.child (List.mem_of_getElem? hpull.child)
  rw [Collection.removeItemFromInternal_eq hp.reads hu hpull hi hreads.length_frames_lt] at hrun
  obtain ⟨_, d₁, -, hrun⟩ := Prog.bind_eq_ok.mp hrun
  obtain ⟨_, d₂, hwrite, -⟩ := Prog.bind_eq_ok.mp hrun
  by_contra hsize
  have hstop : Dal.writeNode ⟨p.tag, p.items.set i pred, p.children.map Tree.tag⟩ d₁ =
      .stop .undefined := by
    refine Dal.writeNode_overflows (fun item hitem => ?_) ?_ (Nat.lt_of_not_le hsize)
    · rcases List.mem_or_eq_of_mem_set hitem with hitem | rfl
      · exact hshort item hitem
      · exact (hp.short hmem).1 _ hpred
    · rw [List.length_set]
      omega
  cases (Prog.attempt_stop hstop).symm.trans hwrite

end Remove

/-- **`remove_item_from_internal` removes the item and nothing else** where the predecessor has room
in the node, in every inner node of a tree whose leaves have items.  It does so nowhere else, but
where the slots of the node run into its cells and agree with them by chance. -/
theorem removeItemFromInternal_removes [System] {d : Dal File} {F : Set Nat} {t p : PTree}
    (hd : d.Usable) (ht : d.Stores t) (hlay : Layout d.freelist F t.tags) (hw : WellFormed (some t))
    (hleaves : ∀ u ∈ t.subtrees, u.children = [] → u.items ≠ []) (hp : p ∈ t.subtrees)
    (hinner : p.children ≠ []) (i : Nat) (hi : i < p.items.length) :
    ((∀ a ∈ predecessor p i, PageRoom (p.items.set i a) p.children.length) → RemovesItem d p i) ∧
      (RemovesItem d p i → ∀ a ∈ predecessor p i,
        cellsSize (p.items.set i a) ≤ defaultPageSize - 1) := by
  obtain ⟨⟨h, hu⟩, hs⟩ := wellFormed_some.mp hw
  obtain ⟨gs, rfl⟩ := exists_plugAll hu.regular hp
  obtain ⟨k, -, hpu⟩ := uniform_of_plugAll hu
  obtain ⟨m, rfl⟩ : ∃ m, k = m + 1 := by
    cases k with
    | zero => exact absurd hpu.children_eq_nil hinner
    | succ m => exact ⟨m, rfl⟩
  have hps : Sorted KeyLt Item.key p.inorder := by
    rw [inorder_plugAll] at hs
    exact (Sorted.append_iff.mp (Sorted.append_iff.mp hs).1).2.1
  obtain ⟨s, y, hdown⟩ := exists_leadsDown hpu hi.le
  have hne : y.focus.items ≠ [] :=
    hleaves _ (subtrees_subset hp (focus_mem_subtrees hpu hdown)) (hdown.spec hpu).2.2
  obtain ⟨pred, hlast⟩ := Option.ne_none_iff_exists'.mp (List.getLast?_eq_none_iff.not.mpr hne)
  have hpull : PullsUp p i s y pred := ⟨hdown, hlast⟩
  have hpred : predecessor p i = some pred := hdown.predecessor_eq.trans hlast
  rw [hpred]
  simp only [Option.mem_def, Option.some.injEq, forall_eq']
  constructor
  · intro hroom
    obtain ⟨d', hrun, hwrote, hstores⟩ := wrote_of_pull hd ht hlay hpu hpull hi hroom
    rw [plugAll_append] at hstores
    exact ⟨_, d', hrun, _,
      itemRemoved_of_pull ht.of_plugAll hwrote hstores.of_plugAll hpu hps hpull hi⟩
  · rintro ⟨affectedNodes, d', hrun, -⟩
    exact cellsSize_of_removed ht.of_plugAll hpu hpull hi hrun

/-- A node over leaves, and a tree of three levels with it. -/
def lowerNode : PTree :=
  .node 4 [⟨[2], [2]⟩, ⟨[5], [5]⟩] [.node 5 [⟨[1], [1]⟩] [], .node 6 [⟨[3], [3]⟩, ⟨[4], [4]⟩] [],
    .node 7 [⟨[6], [6]⟩] []]

def deepTree : PTree :=
  .node 3 [⟨[8], [8]⟩]
    [lowerNode, .node 8 [⟨[10], [10]⟩] [.node 9 [⟨[9], [9]⟩] [], .node 10 [⟨[11], [11]⟩] []]]

theorem wellFormed_deepTree : WellFormed (some deepTree) :=
  wellFormed_of_uniform 2 (by decide) (by decide +kernel)

theorem lowerNode_mem : lowerNode ∈ deepTree.subtrees :=
  subtrees_child (List.mem_cons_self) (mem_subtrees_self _)

theorem exists_deepTree : ∃ c : Collection File, c.dal.options = BuiltinOptions.balance ∧
    c.dal.freelist = ⟨10, []⟩ ∧ c.Stored {q | q ≤ 2} (some deepTree) :=
  exists_stored 10 (by decide) (by decide) deepTree (by decide) (by decide) (by decide)
    (by decide +kernel)

/-- Item 5 below the root; its predecessor is the second item of the leaf on page 6. -/
theorem removeItemFromInternal_removes_lower : ∃ d : Dal File, d.Usable ∧ d.Stores deepTree ∧
    RemovesItem d lowerNode 1 := by
  obtain ⟨c, -, -, hc⟩ := exists_deepTree
  have ht : c.dal.Stores deepTree := hc.stores _ rfl
  refine ⟨c.dal, hc.usable, ht, (removeItemFromInternal_removes hc.usable ht hc.layout
    wellFormed_deepTree ?_ lowerNode_mem (by simp [lowerNode]) 1 (by decide)).1 ?_⟩
  · decide +kernel
  · decide +kernel

/-! ## A long predecessor -/

/-- A node with a short item and seven long ones; the leaf before the short item has a long one. -/
def longNode : PTree :=
  .node 3 (⟨[2], []⟩ :: [3, 4, 5, 6, 7, 8, 9].map longItem)
    (.node 4 [longItem 1] [] ::
      [(5, 2), (6, 3), (7, 4), (8, 5), (9, 6), (10, 7), (11, 8), (12, 9)].map fun k : Nat × UInt8 =>
        .node k.1 [⟨[k.2, 10], []⟩] [])

theorem wellFormed_longNode : WellFormed (some longNode) :=
  wellFormed_of_uniform 1 (by decide) (by decide +kernel)

theorem exists_longNode : ∃ c : Collection File, c.dal.options = BuiltinOptions.balance ∧
    c.dal.freelist = ⟨12, []⟩ ∧ c.Stored {q | q ≤ 2} (some longNode) :=
  exists_stored 12 (by decide) (by decide) longNode (by decide) (by decide) (by decide)
    (by decide +kernel)

/-- **The predecessor of the first item is written past the front of the buffer.** -/
theorem predecessor_overflows :
    ¬∀ (d : Dal File) (F : Set Nat) (t p : PTree), d.Usable → d.Stores t →
      Layout d.freelist F t.tags → WellFormed (some t) →
      (∀ u ∈ t.subtrees, u.children = [] → u.items ≠ []) → p ∈ t.subtrees → p.children ≠ [] →
      ∀ i < p.items.length, RemovesItem d p i := by
  intro h
  obtain ⟨c, -, -, hc⟩ := exists_longNode
  have ht : c.dal.Stores longNode := hc.stores _ rfl
  have hu : Uniform 1 longNode := by decide
  obtain ⟨affectedNodes, d', hrun, -⟩ := h c.dal _ longNode longNode hc.usable ht hc.layout
    wellFormed_longNode (by decide +kernel) (mem_subtrees_self _) (by simp [longNode]) 0 (by decide)
  have hpred : longItem 1 ∈ predecessor longNode 0 := rfl
  obtain ⟨s, y, hpull⟩ := exists_pullsUp hu (by decide) hpred
  have hsize := cellsSize_of_removed ht hu hpull (by decide) hrun
  revert hsize
  decide +kernel

end Toocal
