import Toocal.Tree.Put
import Toocal.Tree.Stored

/-!
# What `split` does to a node and its parent

For a child `c` of `p` that is a leaf, or an inner node with one child more than items; what
is below it and beside it may have any shape.  `SplitKeeps` is what is asked of `split` on the
database: it returns, the in-order sequence below `p` reads back as it was, and no other page
has changed.

It does wherever the parent has room for one more item and the page of the new node begins
within the file (`split_preserves`).  Nothing looks at the room: under a parent of long items
`split` writes past the front of the buffer (`split_overflows`).
-/

namespace Toocal

open Outcomes Multiway Multiway.Tree Pages4096

/-- `p'`, with the halves `c'` and `new` at `i` and `i + 1`, is on the file in the place of `p`;
`new` is on the page `next`, and no fourth page has changed. -/
structure SplitInto [System] (d d' : Dal File) (p c p' c' new : PTree) (i h next : Nat) : Prop where
  tag : p'.tag = p.tag
  stores : d'.Stores p'
  inorder : p'.inorder = p.inorder
  counted : p'.children.length = p'.items.length + 1
  left : p'.children[i]? = some c'
  right : p'.children[i + 1]? = some new
  left_tag : c'.tag = c.tag
  right_tag : new.tag = next
  left_jointed : Jointed h c'
  right_jointed : Jointed h new
  others : ∀ q, q ≠ next → q ≠ p.tag → q ≠ c.tag → q * d.options.pageSize < 2 ^ 64 →
    (Dal.getNode q d').answer = (Dal.getNode q d).answer

/-- `split` returns, with the nodes it has left on the file. -/
def SplitKeeps [System] (d : Dal File) (p c : PTree) (i h : Nat) : Prop :=
  ∃ r d', Dal.split (nodeOf p) (nodeOf c) i d = .ok r d' ∧ d'.file.failed = false ∧
    d'.options = d.options ∧ ∃ p' c' new, r = (nodeOf p', nodeOf c') ∧
      SplitInto d d' p c p' c' new i h d.freelist.getNextPage.1

/-- The page that `get_next_page` hands out has an offset, and does not lie past the end of the
file. -/
def Dal.NextWithin (d : Dal File) : Prop :=
  d.freelist.getNextPage.1 * d.options.pageSize < 2 ^ 63 ∧
    d.freelist.getNextPage.1 * d.options.pageSize ≤ d.file.bytes.length

theorem fits_addRight {cap : Capacity} {f : Frame Nat Item} {c l r : PTree} {a : Item}
    (hp : cap.Fits (nodeOf (f.plug c)))
    (hroom : cap.room (insertAt (f.plug c).items f.left.length a) ((f.plug c).children.length + 1) = true)
    (hname : cap.names r.tag = true) (hl : l.tag = c.tag) :
    cap.Fits (nodeOf ((f.addRight a r).plug l)) := by
  have hgrown : nodeOf ((f.addRight a r).plug l) =
      ⟨f.tag, insertAt (f.plug c).items f.left.length a,
        insertAt ((f.plug c).children.map Tree.tag) (f.left.length + 1) r.tag⟩ := by
    rw [Dal.nodeOf_plug, Dal.map_tag_children_plug, Frame.items_plug, Dal.insertAt_items f a r,
      Dal.insertAt_childTags f c.tag a r, hl]
    rfl
  rw [hgrown]
  refine ⟨by rwa [length_insertAt, List.length_map], fun q hq => ?_⟩
  rcases List.mem_cons.mp hq with rfl | hq
  · exact hp.2 _ List.mem_cons_self
  · rcases mem_insertAt.mp hq with rfl | hq
    · exact hname
    · exact hp.2 q (List.mem_cons_of_mem _ hq)

section Split

variable [System] {d : Dal File} {f : Frame Nat Item} {c p : PTree} {i h s : Nat} {m : Item}
  {k : Cut Nat}

theorem splitInto_of_cut {d' : Dal File} (hj : Jointed h c)
    (hk : cut d.options d.freelist.getNextPage.1 c = some k)
    (hstores : d'.Stores ((f.addRight k.middle k.right).plug k.left))
    (hothers : ∀ q, q ≠ d.freelist.getNextPage.1 → q ≠ f.tag → q ≠ c.tag →
      q * d.options.pageSize < 2 ^ 64 → (Dal.getNode q d').answer = (Dal.getNode q d).answer) :
    SplitInto d d' (f.plug c) c ((f.addRight k.middle k.right).plug k.left) k.left k.right
      f.left.length h d.freelist.getNextPage.1 where
  tag := rfl
  stores := hstores
  inorder := by
    have hcut := cut_inorder hk hj
    rw [Frame.inorder_plug, Frame.inorder_plug, Frame.before_addRight, Frame.after_addRight, ← hcut]
    simp
  counted := Frame.jointed_plug _ _ 0
  left := Frame.child_hole (f := f.addRight k.middle k.right)
  right := Frame.child_right (f := f.addRight k.middle k.right) rfl
  left_tag := cut_tag_left hk
  right_tag := cut_tag_right hk
  left_jointed := (cut_jointed hk hj).1
  right_jointed := (cut_jointed hk hj).2
  others := hothers

variable (hd : d.Usable) (hp : d.Stores p) (hnd : p.tags.Nodup) (h0 : 0 ∉ p.tags)
  (hcount : p.children.length = p.items.length + 1) (hc : p.children[i]? = some c)
  (hj : Jointed h c) (hs : d.options.getSplitIndex c.items = some s) (hm : c.items[s]? = some m)
  (hnext : d.freelist.getNextPage.1 ∉ 0 :: p.tags)

include hd hp hnd h0 hcount hc hj hs hm hnext in
theorem splitKeeps_of_room (hroom : PageRoom (m :: p.items) (p.children.length + 1))
    (hwithin : d.NextWithin) : SplitKeeps d p c i h := by
  obtain ⟨f, rfl, rfl⟩ := exists_plug hcount hc
  obtain ⟨hnext0, hnextp⟩ := not_or.mp (fun he => hnext (List.mem_cons.mpr he))
  obtain ⟨e, he, hholds⟩ := hp.exists_shelf hd
  have hfreelist : e.freelist = d.freelist := he.freelist.symm
  have hoptions : e.options = d.options := he.options.symm
  have hwritten : e.written = [] := he.written.symm
  have hx : CopyOf h (⟨c, c⟩ : Copies Nat) := ⟨rfl, .refl _, .refl _, hj⟩
  obtain ⟨k, hk, rfl⟩ : ∃ k, cut d.options d.freelist.getNextPage.1 c = some k ∧ k.middle = m :=
    exists_cut _ (by rw [middleItem, hs, Option.bind_some, hm])
  obtain ⟨-, hsibs, hhole⟩ := Dal.holds_plug.mp hholds
  -- the three pages are different ones
  have hplace : Places {q | q ∉ d.freelist.getNextPage.1 :: (f.plug c).tags}
      (d.freelist.getNextPage.1 :: (f.plug c).tags) :=
    ⟨List.nodup_cons.mpr ⟨hnextp, hnd⟩, fun q hq hn => hn hq, fun hm =>
      (List.mem_cons.mp hm).elim (fun he => hnext0 he.symm) h0⟩
  have hapart : Dal.Apart {q | q ∉ d.freelist.getNextPage.1 :: (f.plug c).tags}
      d.freelist.getNextPage.1 f c :=
    .of_places (hplace.perm ((tags_eq c ▸ f.tags_plug c).symm.cons _)) (List.Subset.refl _)
  -- and each has room for its node
  have hname : (Capacity.page d.options.pageSize).names d.freelist.getNextPage.1 = true := by
    have hpos : 0 < d.options.pageSize := Nat.lt_of_lt_of_le defaultPageSize_pos hd.large
    have hle := Nat.le_mul_of_pos_right d.freelist.getNextPage.1 hpos
    exact names_page.mpr ⟨hwithin.1, by have := hwithin.1; omega⟩
  have hfitp := fits_addRight (hp.fits _ (mem_subtrees_self _))
    (room_page.mpr (hroom.perm (insertAt_perm _ _ _).symm)) ((cut_tag_right hk).symm ▸ hname) (cut_tag_left hk)
  obtain ⟨hfitl, hfitr⟩ := Dal.cut_fits hx hhole hk hname
  obtain ⟨e', hrun, hholds', -, -, hwritten'⟩ :=
    Dal.split_holds (q := d.freelist.getNextPage.1) (by rw [hfreelist]) hapart hsibs hhole hx
      (by rw [hoptions]; exact hk) hfitr hfitp hfitl
  rw [hwritten] at hwritten'
  obtain ⟨d', hd', hwrote, hstores, -⟩ := wrote_of_shelf he
    ((since_simulates _ _).sim_split _ _ _) (Collection.mirrors_simulates.sim_split _ _ _) hrun
  refine ⟨_, d', hd', hwrote.usable.sound, hwrote.options, _, _, _, rfl,
    splitInto_of_cut hj hk (hstores _ hholds') fun q hqn hqf hqc hlt => ?_⟩
  refine hwrote.others ?_ q ?_ hlt
  · rw [hwritten']
    intro page hpage
    simp only [List.mem_cons, List.not_mem_nil, or_false] at hpage
    rcases hpage with rfl | rfl | rfl
    · exact Nat.le_of_add_right_le (hp.within (subtrees_child (List.mem_of_getElem? hc)
        (mem_subtrees_self _)))
    · exact Nat.le_of_add_right_le (hp.within (mem_subtrees_self _))
    · exact hwithin.2
  · rw [hwritten']
    simp only [List.mem_cons, List.not_mem_nil, or_false, not_or]
    exact ⟨hqc, hqf, hqn⟩

include hp hcount hc hj hs hm in
theorem cellsSize_of_splitKeeps (hkeeps : SplitKeeps d p c i h) :
    cellsSize (m :: p.items) ≤ defaultPageSize - 1 := by
  obtain ⟨r, d', hrun, -⟩ := hkeeps
  have hcp : c ∈ p.subtrees := subtrees_child (List.mem_of_getElem? hc) (mem_subtrees_self _)
  obtain ⟨hi, -⟩ := List.getElem?_eq_some_iff.mp hc
  have hleaf : (nodeOf c).isLeaf = false → s + 1 ≤ (nodeOf c).children.length := by
    intro hne
    have hlt := (getSplitIndex_lt hs).2
    cases h with
    | zero => rw [isLeaf_nodeOf, hj.children_eq_nil] at hne; cases hne
    | succ h =>
      rw [children_nodeOf, List.length_map, hj.length_children]
      omega
  rw [Dal.split_eq (nodeOf p) (nodeOf c) i s hs hm hleaf
    (show i ≤ p.items.length by omega)
    (show i + 1 ≤ (p.children.map Tree.tag).length by rw [List.length_map]; omega)] at hrun
  obtain ⟨new, d₁, -, hrun⟩ := Prog.bind_eq_ok.mp hrun
  obtain ⟨new', d₂, -, hrun⟩ := Prog.bind_eq_ok.mp hrun
  obtain ⟨this, d₃, hwrite, -⟩ := Prog.bind_eq_ok.mp (Prog.orPanic_eq_ok.mp hrun)
  have hshort : ∀ item ∈ insertAt p.items i m, item.Short := fun item hitem =>
    (mem_insertAt.mp hitem).elim (fun he => he ▸ (hp.short hcp).1 m (List.mem_of_getElem? hm))
      ((hp.short (mem_subtrees_self p)).1 item)
  have hlen : (insertAt p.items i m).length < 2 ^ 16 := by
    rw [length_insertAt]
    exact (hp.short (mem_subtrees_self p)).2
  rw [← cellsSize_perm (insertAt_perm p.items i m)]
  by_contra hsize
  cases (Dal.writeNode_overflows hshort hlen (Nat.lt_of_not_le hsize)).symm.trans hwrite

include hd hp hc in
theorem nextWithin_of_splitKeeps (hkeeps : SplitKeeps d p c i h) : d.NextWithin := by
  obtain ⟨r, d', -, hsound, ho, p', c', new, -, hinto⟩ := hkeeps
  have hnew : new ∈ p'.subtrees :=
    subtrees_child (List.mem_of_getElem? hinto.right) (mem_subtrees_self _)
  have hin := hinto.stores.within hnew
  obtain ⟨hoffset, -⟩ := names_page.mp ((hinto.stores.fits new hnew).2 new.tag List.mem_cons_self)
  rw [hinto.right_tag, ho] at hin hoffset
  refine ⟨hoffset, ?_⟩
  have hold : ∀ u ∈ p.subtrees, u.tag + 1 = d.freelist.getNextPage.1 →
      d.freelist.getNextPage.1 * d.options.pageSize ≤ d.file.bytes.length := fun u hu he => by
    rw [← he, Nat.succ_mul]
    exact hp.within hu
  by_cases hpar : p.tag + 1 = d.freelist.getNextPage.1
  · exact hold p (mem_subtrees_self p) hpar
  by_cases hchild : c.tag + 1 = d.freelist.getNextPage.1
  · exact hold c (subtrees_child (List.mem_of_getElem? hc) (mem_subtrees_self _)) hchild
  refine Dal.within_of_answer d' hd.sound hsound ho hoffset (fun q hq => ?_) (by omega)
  refine hinto.others q (by omega) (by omega) (by omega) ?_
  have hmul := Nat.mul_le_mul_right d.options.pageSize (Nat.le_of_succ_le (Nat.le_of_eq hq))
  omega

end Split

/-- **`split` keeps the in-order sequence and the counts, puts the new node on the page it was
handed, and changes no other page**, where the parent has room for the item that moves up and
the page is within the file.  It does so nowhere else, but where the slots of the parent run
into its cells and agree with them by chance. -/
theorem split_preserves [System] (d : Dal File) (p c : PTree) (i h s : Nat) (m : Item)
    (hd : d.Usable) (hp : d.Stores p) (hnd : p.tags.Nodup) (h0 : 0 ∉ p.tags)
    (hcount : p.children.length = p.items.length + 1) (hc : p.children[i]? = some c)
    (hj : Jointed h c) (hs : d.options.getSplitIndex c.items = some s) (hm : c.items[s]? = some m)
    (hnext : d.freelist.getNextPage.1 ∉ 0 :: p.tags) :
    (PageRoom (m :: p.items) (p.children.length + 1) ∧ d.NextWithin → SplitKeeps d p c i h) ∧
      (SplitKeeps d p c i h →
        cellsSize (m :: p.items) ≤ defaultPageSize - 1 ∧ d.NextWithin) :=
  ⟨fun hcond => splitKeeps_of_room hd hp hnd h0 hcount hc hj hs hm hnext hcond.1 hcond.2,
    fun hkeeps => ⟨cellsSize_of_splitKeeps hp hcount hc hj hs hm hkeeps,
      nextWithin_of_splitKeeps hd hp hc hkeeps⟩⟩

/-- An item with a key and a value of 255 bytes each. -/
def longItem (k : UInt8) : Item := ⟨List.replicate 255 k, List.replicate 255 k⟩

/-- An inner node with two items, over three leaves. -/
def splitChild : PTree :=
  .node 4 [longItem 2, longItem 4] [.node 5 [longItem 1] [], .node 6 [longItem 3] [], .node 7 [] []]

/-- Its parent, with another child. -/
def splitParent : PTree :=
  .node 3 [longItem 6] [splitChild, .node 8 [longItem 8] [.node 9 [] [], .node 10 [longItem 9] []]]

/-- An inner node is split: its right half has one child and no items. -/
theorem split_preserves_inner : ∃ d : Dal File, d.Usable ∧ d.Stores splitParent ∧
    SplitKeeps d splitParent splitChild 0 1 := by
  obtain ⟨d, ho, hfl, hd, hp⟩ := exists_stores (o := BuiltinOptions.balance) ⟨10, []⟩
    (by decide) (by decide) splitParent (by decide) (by decide +kernel)
  have hnext : d.freelist.getNextPage.1 = 11 := by rw [hfl]; rfl
  refine ⟨d, hd, hp, (split_preserves d splitParent splitChild 0 1 1 (longItem 4) hd hp (by decide)
    (by decide) rfl rfl rfl (by rw [ho]; decide +kernel) rfl (by rw [hnext]; decide)).1
    ⟨by decide +kernel, ?_⟩⟩
  have hlast : (.node 10 [longItem 9] [] : PTree) ∈ splitParent.subtrees :=
    subtrees_child (c := .node 8 [longItem 8] [.node 9 [] [], .node 10 [longItem 9] []])
      (List.mem_cons_of_mem _ List.mem_cons_self)
      (subtrees_child (List.mem_cons_of_mem _ List.mem_cons_self) (mem_subtrees_self _))
  have hin := hp.within hlast
  rw [Dal.NextWithin, hnext]
  rw [ho] at hin ⊢
  exact ⟨by decide, hin⟩

/-! ## A parent of long items -/

/-- A parent of seven long items; its first child is a leaf with two more. -/
def longParent : PTree :=
  .node 3 ([3, 4, 5, 6, 7, 8, 9].map longItem) (.node 4 [longItem 1, longItem 2] [] ::
    [5, 6, 7, 8, 9, 10, 11].map fun page => .node page [] [])

/-- **The eighth item of the parent is written past the front of the buffer.** -/
theorem split_overflows :
    ¬∀ (d : Dal File) (p c : PTree) (i h s : Nat) (m : Item), d.Usable → d.Stores p → p.tags.Nodup →
      0 ∉ p.tags → p.children.length = p.items.length + 1 → p.children[i]? = some c → Jointed h c →
      d.options.getSplitIndex c.items = some s → c.items[s]? = some m →
      d.freelist.getNextPage.1 ∉ 0 :: p.tags → SplitKeeps d p c i h := by
  intro h
  obtain ⟨d, ho, hfl, hd, hp⟩ := exists_stores (o := BuiltinOptions.balance) ⟨11, []⟩
    (by decide) (by decide) longParent (by decide) (by decide +kernel)
  have hkeeps := h d longParent (.node 4 [longItem 1, longItem 2] []) 0 0 1 (longItem 2) hd hp
    (by decide) (by decide) rfl rfl rfl (by rw [ho]; decide +kernel) rfl (by rw [hfl]; decide)
  have hsize := cellsSize_of_splitKeeps (c := .node 4 [longItem 1, longItem 2] []) (h := 0)
    (s := 1) hp rfl rfl rfl (by rw [ho]; decide +kernel) rfl hkeeps
  revert hsize
  decide +kernel

end Toocal
