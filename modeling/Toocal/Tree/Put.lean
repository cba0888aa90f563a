import Toocal.Tree.Growing

/-!
# `put` on pages

On a shelf, `split` turns the pages of a frame and its hole into the pages of the
frame with the two halves (`split_ok`), a round of the loop does what `growRound`
says (`splitRound_ok`), the loop what `growPath` says, and `put` as a whole what
`putOutline` says: `put_ok`.  Everything else on the shelf is left alone.

`Risen` is the invariant of the loop: what the rounds so far have left of the tree below
the frames they still have to pass.
-/

namespace Toocal

open Outcomes Multiway Multiway.Tree

namespace Dal

variable {cap : Capacity} {d d' : Dal (Shelf cap)} {F : Set Nat}

/-! ## Splitting -/

/-- The pages hold `t` under a path.  The pages of the path and of the root of `t` are used
once; what is below that root is on the pages `rest`, and may be there for more than one
reason. -/
structure Hangs (d : Dal (Shelf cap)) (F : Set Nat) (gs : List (Frame Nat Item)) (t : PTree)
    (rest : List Nat) : Prop where
  holds : d.Holds (plugAll gs t)
  layout : Layout d.freelist F (pathTags gs ++ t.tag :: rest)
  below : t.children.flatMap tags ⊆ rest

/-- A frame and the tree in its hole, all on pages but for the node of the frame. -/
structure Around (d : Dal (Shelf cap)) (F : Set Nat) (f : Frame Nat Item) (t : PTree)
    (rest : List Nat) : Prop where
  layout : Layout d.freelist F (f.tags ++ t.tag :: rest)
  below : t.children.flatMap tags ⊆ rest
  siblings : ∀ c ∈ f.siblings, d.Holds c
  hole : d.Holds t

/-- No page below the node is used twice. -/
def Neat (t : PTree) (rest : List Nat) : Prop := (t.children.flatMap tags).Subperm rest

theorem tags_children_plug (f : Frame Nat Item) (t : PTree) :
    ((f.plug t).children.flatMap tags).Perm (f.siblings.flatMap tags ++ t.tags) := by
  have h := f.tags_plug t
  rw [tags_eq, Frame.tags, List.cons_append, Frame.tag_plug] at h
  exact h.cons_inv

section Hangs

variable {gs : List (Frame Nat Item)} {f : Frame Nat Item} {t t' : PTree} {rest rest' : List Nat}

theorem Owns.hangs (h : d.Owns F (plugAll gs t)) : d.Hangs F gs t (t.children.flatMap tags) :=
  ⟨h.holds, by rw [← tags_eq]; exact h.layout.perm (tags_plugAll gs t).symm, List.Subset.refl _⟩

theorem Hangs.owns (h : d.Hangs F gs t rest) (hn : Neat t rest) : d.Owns F (plugAll gs t) := by
  refine ⟨h.holds, h.layout.subperm ((tags_plugAll gs t).subperm.trans ?_)⟩
  rw [tags_eq]
  exact (List.subperm_append_left _).mpr ((List.subperm_cons _).mpr hn)

theorem Hangs.hole (h : d.Hangs F gs t rest) : d.Holds t := (holds_plugAll.mp h.holds).2

theorem Hangs.tag_ne_zero (h : d.Hangs F gs t rest) : t.tag ≠ 0 :=
  h.layout.ne_zero (List.mem_append_right _ List.mem_cons_self)

theorem Hangs.around (h : d.Hangs F (gs ++ [f]) t rest) :
    d.Around (F ∪ {p | p ∈ pathTags gs}) f t rest := by
  have hh := h.holds
  rw [plugAll_append, holds_plugAll, plugAll_cons, plugAll_nil, holds_plug] at hh
  refine ⟨?_, h.below, hh.2.2.1, hh.2.2.2⟩
  have hlay := h.layout
  rw [pathTags, List.flatMap_append, List.flatMap_singleton, List.append_assoc] at hlay
  exact hlay.zoom

theorem Hangs.shift (h : d.Hangs F (gs ++ [f]) t rest) :
    d.Hangs F gs (f.plug t) (f.siblings.flatMap tags ++ t.tag :: rest) := by
  refine ⟨by simpa using h.holds, ?_, ?_⟩
  · have hlay := h.layout
    rw [pathTags, List.flatMap_append, List.flatMap_singleton, List.append_assoc] at hlay
    exact hlay
  · refine List.Subset.trans (tags_children_plug f t).subset ?_
    rw [tags_eq t]
    exact List.append_subset.mpr ⟨List.subset_append_left _ _,
      List.Subset.trans (List.cons_subset_cons _ h.below) (List.subset_append_right _ _)⟩

theorem Neat.shift (hn : Neat t rest) :
    Neat (f.plug t) (f.siblings.flatMap tags ++ t.tag :: rest) := by
  refine (tags_children_plug f t).subperm.trans ((List.subperm_append_left _).mpr ?_)
  rw [tags_eq t]
  exact (List.subperm_cons _).mpr hn

/-- **The frame rule**, for a tree that hangs. -/
theorem Hangs.unzoom (h : d.Hangs F gs t rest) (hk : Keeps (F ∪ {p | p ∈ pathTags gs}) d d')
    (h' : d'.Hangs (F ∪ {p | p ∈ pathTags gs}) [] t' rest') (htag : t'.tag = t.tag) :
    d'.Hangs F gs t' rest' := by
  refine ⟨holds_plugAll.mpr ⟨?_, h'.hole⟩, h.layout.unzoom h'.layout, h'.below⟩
  rw [htag]
  exact (holds_plugAll.mp h.holds).1.congr fun p hp => hk.at? p (Or.inr hp)

end Hangs

theorem tags_cut {o : Options} {q : Nat} {s : PTree} {c : Cut Nat} (hc : cut o q s = some c) :
    (c.left.tags ++ c.right.tags).Perm (q :: s.tags) := by
  obtain ⟨i, -, -, hl, hr⟩ := cut_eq_some.mp hc
  rw [hl, hr, tags_eq (s.splitLeft i), tags_eq (splitRight q s i), tags_eq s]
  simp only [splitLeft, splitRight, tag_node, children_node, List.cons_append]
  have hsplit : s.children.flatMap tags =
      (s.children.take (i + 1)).flatMap tags ++ (s.children.drop (i + 1)).flatMap tags := by
    rw [← List.flatMap_append, List.take_append_drop]
  rw [hsplit]
  exact (List.perm_middle.cons s.tag).trans (List.Perm.swap _ _ _)

theorem fits_of_layout {fl : Freelist} {ps : List Nat} {n : Node} (h : Layout fl F ps)
    (hroom : cap.room n.items n.children.length = true) (hnames : cap.names fl.maxPage = true)
    (hps : n.pageNum :: n.children ⊆ ps) : cap.Fits n :=
  ⟨hroom, fun p hp => cap.names_mono (h.le_max p (List.mem_append_left _ (hps hp))) hnames⟩

section Split

variable {f : Frame Nat Item} {x : Copies Nat} {c : Cut Nat} {h : Nat} {l : List Item}

/-- The program text of `split`, once the split index is known. -/
theorem split_eq {φ : Type} [PageStore φ] {d : Dal φ} (this nodeToSplit : Node) (index i : Nat)
    {m : Item}
    (hi : d.options.getSplitIndex nodeToSplit.items = some i)
    (hm : nodeToSplit.items[i]? = some m)
    (hleaf : nodeToSplit.isLeaf = false → i + 1 ≤ nodeToSplit.children.length)
    (hitems : index ≤ this.items.length) (hchildren : index + 1 ≤ this.children.length) :
    split this nodeToSplit index d = (do
      let new ← newNode (nodeToSplit.items.drop (i + 1)) (nodeToSplit.children.drop (i + 1))
      let new ← Prog.orPanic (writeNode new)
      Prog.orPanic do
        let this ← writeNode { pageNum := this.pageNum, items := insertAt this.items index m,
                               children := insertAt this.children (index + 1) new.pageNum }
        let left ← writeNode { nodeToSplit with
          items := nodeToSplit.items.take i, children := nodeToSplit.children.take (i + 1) }
        return (this, left) : Prog Error (Dal φ) (Node × Node)) d := by
  rw [split, Prog.get_bind]
  simp only [hi, Prog.demand_some, Prog.ret_bind, Prog.element_bind hm, Node.addItem]
  cases hl : nodeToSplit.isLeaf with
  | true => simp only [if_true, Prog.ret_bind, Prog.require, hitems, hchildren]
  | false =>
    simp only [Bool.false_eq_true, if_false, if_true, Prog.ret_bind, Prog.require, hleaf hl,
      hitems, hchildren]

theorem insertAt_items (f : Frame Nat Item) (m : Item) (r : PTree) :
    insertAt f.items f.left.length m = (f.addRight m r).items := by
  simp [insertAt, Frame.items, Frame.addRight, List.take_left', List.drop_left']

theorem insertAt_childTags (f : Frame Nat Item) (p : Nat) (m : Item) (r : PTree) :
    insertAt (childTags f p) (f.left.length + 1) r.tag = childTags (f.addRight m r) p := by
  have hl : ((f.left.map fun x => x.1.tag).reverse ++ [p]).length = f.left.length + 1 := by simp
  have hsplit : childTags f p =
      ((f.left.map fun x => x.1.tag).reverse ++ [p]) ++ f.right.map fun x => x.2.tag := by
    simp [childTags]
  rw [insertAt, hsplit, List.take_left' hl, List.drop_left' hl]
  simp [childTags]

theorem nodeOf_plug (f : Frame Nat Item) (t : PTree) :
    nodeOf (f.plug t) = ⟨f.tag, f.items, childTags f t.tag⟩ := by
  rw [nodeOf, map_tag_children_plug]; rfl

theorem nodeOf_splitLeft (s : PTree) (i : Nat) : nodeOf (s.splitLeft i) =
    ⟨s.tag, (nodeOf s).items.take i, (nodeOf s).children.take (i + 1)⟩ := by
  simp [nodeOf, splitLeft]

theorem nodeOf_splitRight (q : Nat) (s : PTree) (i : Nat) : nodeOf (splitRight q s i) =
    ⟨q, (nodeOf s).items.drop (i + 1), (nodeOf s).children.drop (i + 1)⟩ := by
  simp [nodeOf, splitRight]

theorem cut_sublist {o : Options} {q : Nat} (hx : CopyOf h x) (hc : cut o q x.copy = some c) :
    (c.left.items.Sublist x.page.items ∧ c.left.children.Sublist x.page.children) ∧
      c.right.items.Sublist x.page.items ∧ c.right.children.Sublist x.page.children := by
  obtain ⟨i, -, -, hl, hr⟩ := cut_eq_some.mp hc
  rw [hl, hr]
  exact ⟨⟨(List.take_sublist i _).trans hx.items, (List.take_sublist _ _).trans hx.children⟩,
    (List.drop_sublist _ _).trans hx.items, (List.drop_sublist _ _).trans hx.children⟩

theorem tags_plug_cut {q : Nat} {o : Options} (hc : cut o q x.copy = some c) :
    ((f.addRight c.middle c.right).plug c.left).tags.Perm (q :: (f.tags ++ x.copy.tags)) := by
  have h1 : ((f.addRight c.middle c.right).plug c.left).tags.Perm
      (f.tags ++ (c.left.tags ++ c.right.tags)) := by
    refine (Frame.tags_plug _ c.left).trans ?_
    refine ((f.tags_addRight c.middle c.right).append_right c.left.tags).trans ?_
    rw [List.append_assoc]
    apply List.perm_append_comm.trans
    rw [List.append_assoc]
  exact h1.trans (((tags_cut hc).append_left f.tags).trans List.perm_middle)

theorem tags_children_cut {q : Nat} {o : Options} (hc : cut o q x.copy = some c) :
    (((f.addRight c.middle c.right).plug c.left).children.flatMap tags).Perm
      (q :: (f.siblings.flatMap tags ++ x.copy.tags)) := by
  have h := (tags_plug_cut (f := f) hc).trans (List.Perm.swap f.tag q _)
  rw [tags_eq] at h
  exact h.cons_inv

theorem allots_cut (fl : Freelist) {o : Options} (hc : cut o fl.getNextPage.1 x.copy = some c) :
    Allots fl fl.getNextPage.2 (f.plug x.copy).tags
      ((f.addRight c.middle c.right).plug c.left).tags := by
  refine (Allots.nextPage fl _).trans (.of_subset ?_)
  exact (((f.tags_plug x.copy).cons _).trans (tags_plug_cut hc).symm).subset

/-- What is left of `split` once its nodes are known: three writes. -/
theorem split_writes {q : Nat} (hq : q = d.freelist.getNextPage.1) (hq0 : q ≠ 0)
    (hx : CopyOf h x) (hc : cut d.options q x.copy = some c) :
    split (nodeOf (f.plug x.copy)) (nodeOf x.copy) f.left.length d = (do
      let _ ← Prog.orPanic (writeNode (nodeOf c.right))
      Prog.orPanic do
        let this ← writeNode (nodeOf ((f.addRight c.middle c.right).plug c.left))
        let left ← writeNode (nodeOf c.left)
        return (this, left) : Prog Error (Dal (Shelf cap)) (Node × Node))
      { d with freelist := d.freelist.getNextPage.2 } := by
  obtain ⟨i, hi, hm, hleft, hright⟩ := cut_eq_some.mp hc
  have hltag : c.left.tag = x.copy.tag := cut_tag_left hc
  have hleaf : (nodeOf x.copy).isLeaf = false → i + 1 ≤ (nodeOf x.copy).children.length := by
    intro hne
    have hi' := (getSplitIndex_lt hi).2
    cases h with
    | zero => rw [isLeaf_nodeOf, hx.jointed.children_eq_nil] at hne; cases hne
    | succ h =>
      rw [children_nodeOf, List.length_map, hx.jointed.length_children]
      omega
  have hparent : (⟨(nodeOf (f.plug x.copy)).pageNum,
      insertAt (nodeOf (f.plug x.copy)).items f.left.length c.middle,
      insertAt (nodeOf (f.plug x.copy)).children (f.left.length + 1) (nodeOf c.right).pageNum⟩ :
        Node) = nodeOf ((f.addRight c.middle c.right).plug c.left) := by
    rw [nodeOf_plug, nodeOf_plug, pageNum_nodeOf, hltag]
    rw [insertAt_items f c.middle c.right, insertAt_childTags f x.copy.tag c.middle c.right]
    rfl
  have hnode : (⟨(nodeOf x.copy).pageNum, (nodeOf x.copy).items.take i,
      (nodeOf x.copy).children.take (i + 1)⟩ : Node) = nodeOf c.left := by
    rw [hleft, nodeOf_splitLeft]; rfl
  rw [split_eq _ _ _ i hi hm hleaf (by simp [Frame.length_items])
    (by rw [nodeOf_plug]; simp [childTags]), Prog.bind_ok (newNode_ok d _ _), ← hq,
    ← nodeOf_splitRight, ← hright, hnode]
  have hr0 : (nodeOf c.right).pageNum ≠ 0 := by rw [hright]; exact hq0
  by_cases hfit : cap.Fits (nodeOf c.right)
  · rw [Prog.bind_ok (Prog.orPanic_ok (writeNode_ok hr0 hfit)),
      Prog.bind_ok (Prog.orPanic_ok (writeNode_ok hr0 hfit)), hparent]
  · rw [Prog.bind_stop (Prog.orPanic_stop (writeNode_outside hr0 hfit)),
      Prog.bind_stop (Prog.orPanic_stop (writeNode_outside hr0 hfit))]

/-- The layer after `split` has written the right half, the parent and the left half. -/
def afterSplit (d : Dal (Shelf cap)) (right parent left : Node)
    (hr : cap.Fits right) (hp : cap.Fits parent) (hl : cap.Fits left) : Dal (Shelf cap) :=
  (({ d with freelist := d.freelist.getNextPage.2 }.store right hr).store parent hp).store left hl

theorem at?_afterSplit_left {right parent left : Node} {hr hp hl} :
    (d.afterSplit right parent left hr hp hl).at? left.pageNum = some (left.items, left.children) :=
  at?_store_self _ _ _

theorem at?_afterSplit_parent {right parent left : Node} {hr hp hl}
    (hne : parent.pageNum ≠ left.pageNum) :
    (d.afterSplit right parent left hr hp hl).at? parent.pageNum =
      some (parent.items, parent.children) := by
  rw [afterSplit, at?_store_ne hne]
  exact at?_store_self _ _ _

theorem at?_afterSplit_right {right parent left : Node} {hr hp hl}
    (hrp : right.pageNum ≠ parent.pageNum) (hrl : right.pageNum ≠ left.pageNum) :
    (d.afterSplit right parent left hr hp hl).at? right.pageNum =
      some (right.items, right.children) := by
  rw [afterSplit, at?_store_ne hrl, at?_store_ne hrp]
  exact at?_store_self _ _ _

theorem at?_afterSplit_ne {right parent left : Node} {hr hp hl} {page : Nat}
    (hpr : page ≠ right.pageNum) (hpp : page ≠ parent.pageNum) (hpl : page ≠ left.pageNum) :
    (d.afterSplit right parent left hr hp hl).at? page = d.at? page := by
  rw [afterSplit, at?_store_ne hpl, at?_store_ne hpp, at?_store_ne hpr]
  rfl

theorem Holds.afterSplit {right parent left : Node} {hr hp hl} {t : PTree} (h : d.Holds t)
    (hrt : right.pageNum ∉ t.tags) (hpt : parent.pageNum ∉ t.tags) (hlt : left.pageNum ∉ t.tags) :
    (d.afterSplit right parent left hr hp hl).Holds t :=
  h.congr fun _ hm => at?_afterSplit_ne (fun he => hrt (he ▸ hm)) (fun he => hpt (he ▸ hm))
    (fun he => hlt (he ▸ hm))

theorem Keeps.afterSplit {right parent left : Node} (hr hp hl) (hrF : right.pageNum ∉ F)
    (hpF : parent.pageNum ∉ F) (hlF : left.pageNum ∉ F) :
    Keeps F d (d.afterSplit right parent left hr hp hl) :=
  (((Keeps.setFreelist _).trans (Keeps.store hrF hr)).trans (Keeps.store hpF hp)).trans
    (Keeps.store hlF hl)

theorem split_run {q : Nat} (hq : q = d.freelist.getNextPage.1) (hq0 : q ≠ 0) (hf0 : f.tag ≠ 0)
    (hx0 : x.page.tag ≠ 0) (hx : CopyOf h x) (hc : cut d.options q x.copy = some c)
    (hr : cap.Fits (nodeOf c.right))
    (hp : cap.Fits (nodeOf ((f.addRight c.middle c.right).plug c.left)))
    (hl : cap.Fits (nodeOf c.left)) :
    split (nodeOf (f.plug x.copy)) (nodeOf x.copy) f.left.length d =
      .ok (nodeOf ((f.addRight c.middle c.right).plug c.left), nodeOf c.left)
        (d.afterSplit (nodeOf c.right) (nodeOf ((f.addRight c.middle c.right).plug c.left))
          (nodeOf c.left) hr hp hl) := by
  have hr0 : (nodeOf c.right).pageNum ≠ 0 := by rw [pageNum_nodeOf, cut_tag_right hc]; exact hq0
  have hl0 : (nodeOf c.left).pageNum ≠ 0 := by
    rw [pageNum_nodeOf, cut_tag_left hc, hx.tag]; exact hx0
  rw [split_writes hq hq0 hx hc, Prog.bind_ok (Prog.orPanic_ok (writeNode_ok hr0 hr))]
  apply Prog.orPanic_ok
  rw [Prog.bind_ok (writeNode_ok hf0 hp), Prog.bind_ok (writeNode_ok hl0 hl)]
  rfl

theorem cut_fits {q : Nat} {o : Options} (hx : CopyOf h x) (hhole : d.Holds x.page)
    (hc : cut o q x.copy = some c) (hq : cap.names q = true) :
    cap.Fits (nodeOf c.left) ∧ cap.Fits (nodeOf c.right) := by
  obtain ⟨⟨hli, hlc⟩, hri, hrc⟩ := cut_sublist hx hc
  obtain ⟨hjl, hjr⟩ := cut_jointed hc hx.jointed
  have hpage := fits_of_at? hhole.root
  refine ⟨hpage.sublist ((cut_tag_left hc).trans hx.tag) hli (hlc.map _) (counted_nodeOf hjl),
    cap.room_mono hri ((hrc.map _).length_le) (counted_nodeOf hjr) hpage.1, fun p hp => ?_⟩
  rcases List.mem_cons.mp hp with rfl | hp
  · rw [pageNum_nodeOf, cut_tag_right hc]
    exact hq
  · exact hpage.2 p (List.mem_cons_of_mem _ ((hrc.map _).subset hp))

/-- The three pages `split` writes are different ones, and none of what stands beside them. -/
structure Apart (F : Set Nat) (q : Nat) (f : Frame Nat Item) (t : PTree) : Prop where
  nodup : [q, f.tag, t.tag].Nodup
  beside : ∀ p ∈ [q, f.tag, t.tag], ∀ s ∈ f.siblings ++ t.children, p ∉ s.tags
  outside : ∀ p ∈ [q, f.tag, t.tag], p ∉ F
  zero : 0 ∈ F

theorem Apart.of_places {q : Nat} {t : PTree} {rest : List Nat}
    (h : Places F (q :: (f.tags ++ t.tag :: rest))) (hb : t.children.flatMap tags ⊆ rest) :
    Apart F q f t := by
  obtain ⟨hq, hnd⟩ := List.nodup_cons.mp h.nodup
  obtain ⟨hf, ht, hdisj⟩ := List.nodup_append.mp hnd
  have hqf : q ∉ f.tags := fun hm => hq (List.mem_append_left _ hm)
  have hqt : q ∉ t.tag :: rest := fun hm => hq (List.mem_append_right _ hm)
  have hft : f.tag ∉ t.tag :: rest := fun hm => hdisj _ List.mem_cons_self _ hm rfl
  have htf : t.tag ∉ f.tags := fun hm => hdisj _ hm _ List.mem_cons_self rfl
  -- a page that the siblings and `rest` do not have is none of what stands beside
  have hbeside : ∀ p, p ∉ f.siblings.flatMap tags → p ∉ rest →
      ∀ s ∈ f.siblings ++ t.children, p ∉ s.tags := by
    intro p hsib hrest s hs hm
    rcases List.mem_append.mp hs with hs | hs
    · exact hsib (List.mem_flatMap.mpr ⟨s, hs, hm⟩)
    · exact hrest (hb (List.mem_flatMap.mpr ⟨s, hs, hm⟩))
  rw [Frame.tags, List.mem_cons, not_or] at hqf htf
  rw [List.mem_cons, not_or] at hqt hft
  refine ⟨by simp [hqf.1, hqt.1, hft.1], fun p hp => ?_, fun p hp => h.outside p ?_, h.zero⟩
  · simp only [List.mem_cons, List.not_mem_nil, or_false] at hp
    rcases hp with rfl | rfl | rfl
    · exact hbeside _ hqf.2 hqt.2
    · exact hbeside _ (List.nodup_cons.mp hf).1 hft.2
    · exact hbeside _ htf.2 (List.nodup_cons.mp ht).1
  · simp only [List.mem_cons, List.not_mem_nil, or_false] at hp
    rcases hp with rfl | rfl | rfl <;> simp [Frame.tags]

/-- **`split` writes the two halves and the parent**, and touches nothing else. -/
theorem split_holds {q : Nat} (hq : q = d.freelist.getNextPage.1) (hap : Apart F q f x.page)
    (hsibs : ∀ s ∈ f.siblings, d.Holds s)
    (hhole : d.Holds x.page) (hx : CopyOf h x) (hc : cut d.options q x.copy = some c)
    (hfitr : cap.Fits (nodeOf c.right))
    (hfitg : cap.Fits (nodeOf ((f.addRight c.middle c.right).plug c.left)))
    (hfitl : cap.Fits (nodeOf c.left)) :
    ∃ d', split (nodeOf (f.plug x.copy)) (nodeOf x.copy) f.left.length d =
        .ok (nodeOf ((f.addRight c.middle c.right).plug c.left), nodeOf c.left) d' ∧
      d'.Holds ((f.addRight c.middle c.right).plug c.left) ∧ Keeps F d d' ∧
      d'.freelist = d.freelist.getNextPage.2 ∧
      d'.written = x.page.tag :: f.tag :: q :: d.written := by
  set g := f.addRight c.middle c.right with hg
  have hltag : c.left.tag = x.page.tag := (cut_tag_left hc).trans hx.tag
  have hrtag : c.right.tag = q := cut_tag_right hc
  obtain ⟨⟨-, hlc⟩, -, hrc⟩ := cut_sublist hx hc
  have hqm : q ∈ [q, f.tag, x.page.tag] := by simp
  have hfm : f.tag ∈ [q, f.tag, x.page.tag] := by simp
  have hxm : x.page.tag ∈ [q, f.tag, x.page.tag] := by simp
  have hne0 : ∀ p ∈ [q, f.tag, x.page.tag], p ≠ 0 := fun p hp h0 =>
    hap.outside p hp (h0 ▸ hap.zero)
  obtain ⟨⟨hqf, hqx⟩, hfx⟩ : (q ≠ f.tag ∧ q ≠ x.page.tag) ∧ f.tag ≠ x.page.tag := by
    simpa using hap.nodup
  have hrpage : (nodeOf c.right).pageNum = q := hrtag
  have hlpage : (nodeOf c.left).pageNum = x.page.tag := hltag
  have hppage : (nodeOf (g.plug c.left)).pageNum = f.tag := rfl
  -- what stands beside the three pages stands there still
  have hkeep : ∀ s ∈ f.siblings ++ x.page.children, d.Holds s →
      (d.afterSplit _ _ _ hfitr hfitg hfitl).Holds s := by
    intro s hs hh
    refine hh.afterSplit ?_ ?_ ?_
    · rw [hrpage]
      exact hap.beside q hqm s hs
    · exact hap.beside f.tag hfm s hs
    · rw [hlpage]
      exact hap.beside x.page.tag hxm s hs
  have hhalf : ∀ s ∈ x.page.children, (d.afterSplit _ _ _ hfitr hfitg hfitl).Holds s :=
    fun s hs => hkeep s (List.mem_append_right _ hs) (hhole.child hs)
  have hright : (d.afterSplit _ _ _ hfitr hfitg hfitl).Holds c.right :=
    holds_iff.mpr ⟨at?_afterSplit_right (by rw [hrpage, hppage]; exact hqf)
      (by rw [hrpage, hlpage]; exact hqx), fun s hs => hhalf s (hrc.subset hs)⟩
  have hleft : (d.afterSplit _ _ _ hfitr hfitg hfitl).Holds c.left :=
    holds_iff.mpr ⟨at?_afterSplit_left, fun s hs => hhalf s (hlc.subset hs)⟩
  refine ⟨_, split_run hq (hne0 q hqm) (hne0 f.tag hfm) (hne0 _ hxm) hx hc hfitr hfitg hfitl,
    holds_plug.mpr ⟨?_, fun s hs => ?_, hleft⟩, ?_, rfl, ?_⟩
  · have hparent : f.tag ≠ (nodeOf c.left).pageNum := by rw [hlpage]; exact hfx
    exact (at?_afterSplit_parent hparent).trans (by rw [nodeOf_plug])
  · simp only [hg, Frame.siblings, Frame.left_addRight, Frame.right_addRight, List.map_cons,
      List.mem_append, List.mem_cons] at hs
    have hold : s ∈ f.siblings → (d.afterSplit _ _ _ hfitr hfitg hfitl).Holds s := fun hs =>
      hkeep s (List.mem_append_left _ hs) (hsibs s hs)
    rcases hs with hs | rfl | hs
    · exact hold (List.mem_append_left _ hs)
    · exact hright
    · exact hold (List.mem_append_right _ hs)
  · refine Keeps.afterSplit hfitr hfitg hfitl ?_ ?_ ?_
    · rw [hrpage]
      exact hap.outside q hqm
    · exact hap.outside f.tag hfm
    · rw [hlpage]
      exact hap.outside _ hxm
  · show (nodeOf c.left).pageNum :: f.tag :: (nodeOf c.right).pageNum :: d.written = _
    rw [hlpage, hrpage]

/-- The halves and the parent fit their pages if the parent does.  Below the parent is then
what the copy and the siblings have; no page is there twice if none was. -/
theorem split_ok {rest : List Nat} (ha : d.Around F f x.page rest) (hx : Coherent h l x)
    (hc : cut d.options d.freelist.getNextPage.1 x.copy = some c)
    (hroom : cap.room (insertAt f.items f.left.length c.middle) (f.items.length + 2) = true)
    (hnames : cap.names (d.freelist.maxPage + 1) = true) :
    ∃ d' rest', split (nodeOf (f.plug x.copy)) (nodeOf x.copy) f.left.length d =
        .ok (nodeOf ((f.addRight c.middle c.right).plug c.left), nodeOf c.left) d' ∧
      d'.Hangs F [] ((f.addRight c.middle c.right).plug c.left) rest' ∧
      (Neat x.copy rest → Neat ((f.addRight c.middle c.right).plug c.left) rest') ∧
      (Neat c.left rest → Neat (f.plug c.left) rest') ∧ Keeps F d d' ∧
      d'.freelist = d.freelist.getNextPage.2 := by
  set g := f.addRight c.middle c.right with hg
  set q := d.freelist.getNextPage.1 with hq
  have hlay0 := ha.layout.nextPage
  have hlay : Layout d.freelist.getNextPage.2 F
      (f.tag :: q :: (f.siblings.flatMap tags ++ x.page.tag :: rest)) :=
    hlay0.perm (List.Perm.swap _ _ _)
  have hperm := tags_children_cut (f := f) hc
  rw [tags_eq x.copy, hx.tag] at hperm
  have hcopy : x.copy.children.flatMap tags ⊆ rest := fun p hp =>
    ha.below ((hx.children.flatMap tags).subset hp)
  have hbelow : (g.plug c.left).children.flatMap tags ⊆
      q :: (f.siblings.flatMap tags ++ x.page.tag :: rest) := by
    refine List.Subset.trans hperm.subset (List.cons_subset_cons q ?_)
    exact List.append_subset.mpr ⟨List.subset_append_left _ _,
      List.Subset.trans (List.cons_subset_cons _ hcopy) (List.subset_append_right _ _)⟩
  have hnames' := cap.names_mono (Freelist.maxPage_getNextPage d.freelist).2 hnames
  obtain ⟨hfitl, hfitr⟩ := cut_fits hx.copyOf ha.hole hc
    (cap.names_mono (hlay0.le_max _ (List.mem_append_left _ List.mem_cons_self)) hnames')
  have hfitg : cap.Fits (nodeOf (g.plug c.left)) := by
    refine fits_of_layout hlay ?_ hnames' (List.Subset.trans (nodeOf_subset _) ?_)
    · have hlen : (nodeOf (g.plug c.left)).children.length = f.items.length + 2 := by
        simp [hg, Frame.length_items]; omega
      rw [hlen, items_nodeOf, Frame.items_plug, hg, ← insertAt_items]
      exact hroom
    · rw [tags_eq]
      exact List.cons_subset_cons _ hbelow
  obtain ⟨d', hrun, hh, hk, hfl, -⟩ := split_holds rfl (.of_places hlay0.places ha.below)
    ha.siblings ha.hole hx.copyOf hc hfitr hfitg hfitl
  refine ⟨d', _, hrun, ⟨hh, hfl ▸ hlay, hbelow⟩, fun hn => ?_, fun hn => ?_, hk, hfl⟩
  · refine hperm.subperm.trans ((List.subperm_cons q).mpr ?_)
    exact (List.subperm_append_left _).mpr ((List.subperm_cons _).mpr hn)
  · have hshift := hn.shift (f := f)
    rw [cut_tag_left hc, hx.tag] at hshift
    exact hshift.trans (List.sublist_cons_self q _).subperm

end Split

theorem Owns.writeOver {fs : List (Frame Nat Item)} {u v : PTree}
    (ho : d.Owns F (plugAll fs u)) (htag : v.tag = u.tag) (hcs : v.children ⊆ u.children)
    (hroom : cap.room v.items v.children.length = true) :
    ∃ d', writeNode (nodeOf v) d = .ok (nodeOf v) d' ∧
      d'.Hangs F fs v (u.children.flatMap tags) ∧ Keeps F d d' ∧ d'.freelist = d.freelist := by
  have hz := ho.zoom
  have hnames := (fits_of_at? hz.holds.root).2
  have hpage : (nodeOf v).pageNum = u.tag := htag
  have hfit : cap.Fits (nodeOf v) := by
    refine ⟨by simpa using hroom, fun p hp => hnames p ?_⟩
    rcases List.mem_cons.mp hp with rfl | hp
    · rw [hpage]
      exact List.mem_cons_self
    · exact List.mem_cons_of_mem _ (List.map_subset _ hcs hp)
  have hk : Keeps (F ∪ {p | p ∈ pathTags fs}) d (d.store _ hfit) :=
    Keeps.store (hz.tags_notMem (hpage ▸ tag_mem_tags u)) hfit
  have hlay := hz.layout
  rw [tags_eq] at hlay
  have hz' : (d.store _ hfit).Hangs (F ∪ {p | p ∈ pathTags fs}) [] v (u.children.flatMap tags) := by
    refine ⟨holds_iff.mpr ⟨at?_store_self _ _ _, fun s hs => ?_⟩, htag ▸ hlay, ?_⟩
    · refine (hz.holds.child (hcs hs)).store fun hm => ?_
      rw [hpage] at hm
      exact (List.nodup_cons.mp (tags_eq u ▸ hz.nodup)).1 (List.mem_flatMap.mpr ⟨s, hcs hs, hm⟩)
    · intro p hp
      obtain ⟨s, hs, hp⟩ := List.mem_flatMap.mp hp
      exact List.mem_flatMap.mpr ⟨s, hcs hs, hp⟩
  exact ⟨_, writeNode_ok (hpage ▸ hz.tag_ne_zero) hfit, ho.hangs.unzoom hk hz' htag,
    hk.mono Set.subset_union_left, rfl⟩

theorem Owns.writeItems {fs : List (Frame Nat Item)} {u : PTree} {its : List Item}
    (ho : d.Owns F (plugAll fs u)) (hroom : cap.room its u.children.length = true) :
    ∃ d', writeNode (nodeOf (.node u.tag its u.children)) d =
        .ok (nodeOf (.node u.tag its u.children)) d' ∧
      d'.Owns F (plugAll fs (.node u.tag its u.children)) ∧ Keeps F d d' ∧
      d'.freelist = d.freelist := by
  obtain ⟨d', hrun, hg, hk, hfl⟩ := ho.writeOver (v := .node u.tag its u.children) rfl
    (List.Subset.refl _) hroom
  exact ⟨d', hrun, hg.owns (.refl _), hk, hfl⟩

theorem Hangs.rewrite {t : PTree} {rest : List Nat} (h : d.Hangs F [] t rest) :
    ∃ d', writeNode (nodeOf t) d = .ok (nodeOf t) d' ∧ d'.Hangs F [] t rest ∧ Keeps F d d' ∧
      d'.freelist = d.freelist := by
  have hfit : cap.Fits (nodeOf t) := fits_of_at? h.hole.root
  refine ⟨_, writeNode_ok h.tag_ne_zero hfit, ⟨h.hole.congr fun p _ => ?_, h.layout, h.below⟩,
    Keeps.store (h.layout.outside _ (List.mem_append_left _ List.mem_cons_self)) hfit, rfl⟩
  rw [at?_store]
  split
  next hp => rw [hp]; exact h.hole.root.symm
  next => rfl

end Dal

namespace Collection

open Dal

variable {cap : Capacity} {d d' : Dal (Shelf cap)} {F : Set Nat}

/-! ## The loop of `put` -/

section Rounds

variable {f : Frame Nat Item} {gs : List (Frame Nat Item)} {x : Copies Nat} {h : Nat}
  {l : List Item} {ancestors : List Node} {indexes : List Nat} {i : Nat}

/-- What the next round, or the new root, works on. -/
def current (o : Options) (x : Copies Nat) : PTree :=
  if o.isOverPopulated x.copy.items then x.copy else x.page

theorem neat_current {o : Options} {rest : List Nat} (hx : Coherent h l x) (hn : Neat x.page rest) :
    Neat (current o x) rest := by
  unfold Collection.current
  split
  · exact (hx.children.flatMap tags).subperm.trans hn
  · exact hn

/-- What a round of the loop has left of the node `x` and its parent `f`. -/
structure Rounded (d d' : Dal (Shelf cap)) (F : Set Nat) (gs : List (Frame Nat Item))
    (f : Frame Nat Item) (x : Copies Nat) (q : Nat) (rest rest' : List Nat) : Prop where
  hangs : d'.Hangs F gs (growRound d.options q f x).page rest'
  neat : Neat (current d.options x) rest → Neat (growRound d.options q f x).page rest'
  leftNeat : ∀ s, d.options.isOverPopulated x.copy.items →
    d.options.getSplitIndex x.copy.items = some s →
    Neat (x.copy.splitLeft s) rest → Neat (growRound d.options q f x).copy rest'
  keeps : Keeps F d d'
  maxPage_le : d'.freelist.maxPage ≤ d.freelist.maxPage + 1
  allots : Allots d.freelist d'.freelist (f.plug (current d.options x)).tags
    (growRound d.options q f x).page.tags

/-- **One round of the loop does what `growRound` says.** -/
theorem splitRound_ok {rest : List Nat} (hg : d.Hangs F (gs ++ [f]) x.page rest)
    (hx : Coherent h l x)
    (hsafe : d.options.isOverPopulated x.copy.items → ∃ m ∈ middleItem d.options x.copy.items,
      cap.room (insertAt f.items f.left.length m) (f.items.length + 2) = true)
    (hnames : cap.names (d.freelist.maxPage + 1) = true)
    (hi : ancestors[i]? = some (nodeOf (f.plug x.copy)))
    (hi' : ancestors[i + 1]? = some (nodeOf x.copy)) (hidx : indexes[i + 1]? = some f.left.length) :
    ∃ d' q rest', splitRound ancestors indexes i d = .ok () d' ∧
      Rounded d d' F gs f x q rest rest' := by
  rw [splitRound, Prog.get_bind, Prog.element_bind hi, Prog.element_bind hi']
  by_cases hover : d.options.isOverPopulated x.copy.items
  · obtain ⟨m, hm, hroom⟩ := hsafe hover
    obtain ⟨c, hc, rfl⟩ := exists_cut d.freelist.getNextPage.1 hm
    obtain ⟨d', rest', hrun, hg', hneat, hleft, hk, hfl⟩ := split_ok hg.around hx hc hroom hnames
    refine ⟨d', d.freelist.getNextPage.1, rest', ?_,
      { hangs := ?_, neat := fun hn => ?_, leftNeat := fun s _ hs hn => ?_,
        keeps := hk.mono Set.subset_union_left, maxPage_le := ?_, allots := ?_ }⟩
    · rw [items_nodeOf, if_pos hover, Prog.element_bind hidx, Prog.bind_ok hrun]; rfl
    · rw [growRound_cut hover hc]
      exact hg.shift.unzoom hk hg' rfl
    · rw [current, if_pos hover] at hn
      rw [growRound_cut hover hc]
      exact hneat hn
    · obtain ⟨s', hs', -, hl, -⟩ := cut_eq_some.mp hc
      obtain rfl := Option.some.inj (hs'.symm.trans hs)
      rw [growRound_cut hover hc]
      exact hleft (hl ▸ hn)
    · rw [hfl]
      exact (Freelist.maxPage_getNextPage _).2
    · rw [hfl, current, if_pos hover, growRound_cut hover hc]
      exact allots_cut _ hc
  · refine ⟨d, 0, f.siblings.flatMap tags ++ x.page.tag :: rest, ?_,
      { hangs := ?_, neat := fun hn => ?_, leftNeat := fun s hover' => absurd hover' hover,
        keeps := Keeps.refl F d, maxPage_le := Nat.le_succ _, allots := ?_ }⟩
    · rw [items_nodeOf, if_neg hover]; rfl
    · rw [growRound_rest hover]
      exact hg.shift
    · rw [current, if_neg hover] at hn
      rw [growRound_rest hover]
      exact hn.shift
    · rw [current, if_neg hover, growRound_rest hover]
      exact .refl _ _

/-- The rounds below the frames `gs`, first to last. -/
def roundsFrom (g n : Nat) : List Nat := ((List.range n).map (g + ·)).reverse

theorem roundsFrom_succ (g n : Nat) : roundsFrom g (n + 1) = roundsFrom (g + 1) n ++ [g] := by
  rw [roundsFrom, List.range_succ_eq_map, List.map_cons, List.reverse_cons, List.map_map]
  simp only [roundsFrom, Nat.add_zero, Function.comp_def, Nat.succ_eq_add_one]
  congr 3
  funext n
  omega

theorem rounds_eq (ancestors : List Node) :
    rounds ancestors = roundsFrom 0 (ancestors.length - 1) := by
  simp [rounds, roundsFrom]

theorem pathIndexes_at (gs hs : List (Frame Nat Item)) (f : Frame Nat Item) :
    (0 :: pathIndexes (gs ++ f :: hs))[gs.length + 1]? = some f.left.length := by
  simp [pathIndexes]

/-- The lowest round drops whatever is below the node for a second time. -/
def LeftNeat (o : Options) (leaf : PTree) (fs : List (Frame Nat Item)) (rest : List Nat) : Prop :=
  ∃ f ∈ fs.getLast?, o.isOverPopulated f.items ∧ o.isOverPopulated leaf.items ∧
    ∃ s, o.getSplitIndex leaf.items = some s ∧ Neat (leaf.splitLeft s) rest

/-- What the rounds below the frames `gs` have left of the tree `plugAll hs leaf`. -/
structure Risen (d d' : Dal (Shelf cap)) (F : Set Nat) (gs hs : List (Frame Nat Item))
    (leaf : PTree) (h : Nat) (x : Copies Nat) (rest rest' : List Nat) : Prop where
  outline : x.erase = growPath d.options leaf.erase (hs.map Frame.erase)
  node : nodeOf x.copy = nodeOf (plugAll hs leaf)
  coherent : Coherent h (plugAll hs leaf).inorder x
  hangs : d'.Hangs F gs x.page rest'
  neat : Neat leaf rest → Neat x.page rest'
  leftNeat : LeftNeat d.options leaf hs rest → Neat (current d.options x) rest'
  keeps : Keeps F d d'
  maxPage_le : d'.freelist.maxPage ≤ d.freelist.maxPage + hs.length
  start : hs = [] → x = ⟨leaf, leaf⟩ ∧ rest' = rest
  calm : NoDoubleOverflow d.options hs leaf.items → current d.options x = x.page ∧
    Allots d.freelist d'.freelist (plugAll hs leaf).tags x.page.tags

section Risen

variable {leaf : PTree} {hs : List (Frame Nat Item)} {d₁ d₂ : Dal (Shelf cap)} {q : Nat}
  {rest rest₁ rest₂ : List Nat}

theorem Risen.nil (hg : d.Hangs F gs leaf rest) (hu : Uniform h leaf) :
    Risen d d F gs [] leaf h ⟨leaf, leaf⟩ rest rest where
  outline := rfl
  node := rfl
  coherent := .same hu
  hangs := hg
  neat := id
  leftNeat := fun ⟨_, hf, _⟩ => by cases hf
  keeps := Keeps.refl F d
  maxPage_le := Nat.le_refl _
  start := fun _ => ⟨rfl, rfl⟩
  calm := fun _ => ⟨ite_self _, .refl _ _⟩

theorem Risen.items (hr : Risen d d₁ F gs hs leaf h x rest rest₁) :
    x.copy.items = topItems hs leaf.items := by
  rw [← topItems_plugAll]
  exact congrArg Node.items hr.node

theorem Risen.node_plug (hr : Risen d d₁ F gs hs leaf h x rest rest₁) :
    nodeOf (f.plug x.copy) = nodeOf (plugAll (f :: hs) leaf) :=
  nodeOf_plug_congr (congrArg Node.pageNum hr.node)

/-- A page that the next round cuts from its outdated copy names nothing twice, although the
page itself does. -/
theorem Risen.leftNeat_cons (hr : Risen d d₁ F (gs ++ [f]) hs leaf h x rest rest₁)
    (hround : Rounded d₁ d₂ F gs f x q rest₁ rest₂) (hsib : ∀ c ∈ f.siblings, Uniform h c)
    (hl : LeftNeat d.options leaf (f :: hs) rest) :
    Neat (current d.options (growRound d.options q f x)) rest₂ := by
  have hoptions := hr.keeps.options
  have hy := hr.coherent.growRound (o := d.options) (q := q) hsib
  have hneat := hround.neat
  have hleft := hround.leftNeat
  rw [hoptions] at hneat hleft
  obtain ⟨g, hlast, hover, hover', s, hs', hn⟩ := hl
  cases hs with
  | nil =>
    -- this is the lowest round, and the next one works on its copy
    obtain rfl : f = g := by simpa using hlast
    obtain ⟨rfl, rfl⟩ := hr.start rfl
    have hn' := hleft s hover' hs' hn
    rwa [current, if_pos (by rw [items_copy_growRound]; exact hover)]
  | cons g' hs =>
    refine neat_current hy (hneat (hr.leftNeat ⟨g, ?_, hover, hover', s, hs', hn⟩))
    simpa using hlast

/-- **One more round.** -/
theorem Risen.cons (hr : Risen d d₁ F (gs ++ [f]) hs leaf h x rest rest₁)
    (hround : Rounded d₁ d₂ F gs f x q rest₁ rest₂) (hsib : ∀ c ∈ f.siblings, Uniform h c) :
    Risen d d₂ F gs (f :: hs) leaf (h + 1) (growRound d.options q f x) rest rest₂ := by
  have hoptions := hr.keeps.options
  have hy := hr.coherent.growRound (o := d.options) (q := q) hsib
  have hneat := hround.neat
  have hg := hround.hangs
  have hallots := hround.allots
  rw [hoptions] at hneat hg hallots
  refine
    { outline := ?_, node := ?_, coherent := ?_, hangs := hg,
      neat := fun hn => hneat (neat_current hr.coherent (hr.neat hn)),
      leftNeat := hr.leftNeat_cons hround hsib, keeps := hr.keeps.trans hround.keeps,
      maxPage_le := ?_, start := fun he => (List.cons_ne_nil _ _ he).elim, calm := fun hcalm => ?_ }
  · rw [growRound_erase, hr.outline]; rfl
  · rw [← hr.node_plug]
    rcases growRound_cases d.options q f x with ⟨c, -, hc, he⟩ | he
    · rw [he]
      exact nodeOf_plug_congr (cut_tag_left hc)
    · rw [he]
      exact nodeOf_plug_congr hr.coherent.tag.symm
  · rw [plugAll_cons, Frame.inorder_plug]
    exact hy
  · have h₁ := hr.maxPage_le
    have h₂ := hround.maxPage_le
    rw [List.length_cons]
    omega
  · obtain ⟨hboth, hcalm⟩ := noDoubleOverflow_cons.mp hcalm
    obtain ⟨hcurrent, hallots₁⟩ := hr.calm hcalm
    rw [hcurrent] at hallots
    refine ⟨?_, hallots₁.plug.trans hallots⟩
    -- a copy that is split next has not been split below
    by_cases hover : d.options.isOverPopulated f.items
    · rw [growRound_rest fun hover' => hboth ⟨hover, hr.items ▸ hover'⟩]
      exact ite_self _
    · rw [current, items_copy_growRound, if_neg hover]

end Risen

/-- **The loop of `put` does what `growPath` says**: by induction on the frames its
rounds pass, innermost first, with the frames `gs` above them left alone. -/
theorem splitRounds_hangs {leaf : PTree} {rest : List Nat} :
    ∀ (hs gs : List (Frame Nat Item)) {h : Nat},
    d.Hangs F (gs ++ hs) leaf rest → Uniform h (plugAll hs leaf) →
    SplitSafe cap d.options hs leaf.items →
    cap.names (d.freelist.maxPage + hs.length) = true →
    ∃ d' x rest', Prog.forEach (splitRound (pathNodes (gs ++ hs) leaf) (0 :: pathIndexes (gs ++ hs)))
        (roundsFrom gs.length hs.length) d = .ok () d' ∧
      Risen d d' F gs hs leaf h x rest rest' := by
  intro hs
  induction hs with
  | nil =>
    intro gs h hg hu _ _
    rw [List.append_nil] at hg ⊢
    exact ⟨d, ⟨leaf, leaf⟩, rest, rfl, .nil hg hu⟩
  | cons f hs ih =>
    intro gs h hg hu hsafe hnames
    obtain ⟨k, rfl, hsib, hk⟩ := Frame.uniform_of_plug hu
    have hassoc : gs ++ f :: hs = (gs ++ [f]) ++ hs := by simp
    obtain ⟨d₁, x, rest₁, hrun, hr⟩ :=
      ih (gs ++ [f]) (hassoc ▸ hg) hk hsafe.1 (cap.names_mono (by simp) hnames)
    have hparent : (pathNodes (gs ++ f :: hs) leaf)[gs.length]? = some (nodeOf (f.plug x.copy)) := by
      rw [pathNodes_at, hr.node_plug]
    have hnode : (pathNodes (gs ++ f :: hs) leaf)[gs.length + 1]? = some (nodeOf x.copy) := by
      have := pathNodes_at (gs ++ [f]) hs leaf
      rw [List.length_append, List.length_singleton, ← hassoc] at this
      rw [this, hr.node]
    have hmax := hr.maxPage_le
    obtain ⟨d₂, q, rest₂, hrun₂, hround⟩ := splitRound_ok hr.hangs hr.coherent
      (by rw [hr.keeps.options, hr.items]; exact hsafe.2)
      (cap.names_mono (by simp only [List.length_cons]; omega) hnames) hparent hnode
      (pathIndexes_at gs hs f)
    refine ⟨d₂, growRound d.options q f x, rest₂, ?_, hr.cons hround hsib⟩
    rw [List.length_cons, roundsFrom_succ, Prog.forEach_append]
    rw [List.length_append, List.length_singleton, ← hassoc] at hrun
    rw [Prog.bind_ok hrun]
    exact Prog.bind_ok hrun₂

theorem splitRounds_ok {leaf : PTree} (hs gs : List (Frame Nat Item)) {h : Nat}
    (ho : d.Owns F (plugAll (gs ++ hs) leaf)) (hu : Uniform h (plugAll hs leaf))
    (hsafe : SplitSafe cap d.options hs leaf.items)
    (hnames : cap.names (d.freelist.maxPage + hs.length) = true) :
    ∃ d' x, Prog.forEach (splitRound (pathNodes (gs ++ hs) leaf) (0 :: pathIndexes (gs ++ hs)))
        (roundsFrom gs.length hs.length) d = .ok () d' ∧
      x.erase = growPath d.options leaf.erase (hs.map Frame.erase) ∧
      nodeOf x.copy = nodeOf (plugAll hs leaf) ∧ Coherent h (plugAll hs leaf).inorder x ∧
      d'.Owns F (plugAll gs x.page) ∧ Keeps F d d' ∧
      d'.freelist.maxPage ≤ d.freelist.maxPage + hs.length := by
  obtain ⟨d', x, rest, hrun, hr⟩ := splitRounds_hangs hs gs ho.hangs hu hsafe hnames
  exact ⟨d', x, hrun, hr.outline, hr.node, hr.coherent,
    hr.hangs.owns (hr.neat (List.Subperm.refl _)), hr.keeps, hr.maxPage_le⟩

end Rounds

/-! ## The new root -/

section Root

variable {c : Collection (Shelf cap)} {x : Copies Nat} {h : Nat} {l : List Item}

/-- **The end of `put` does what `growRoot` says.** -/
theorem splitRoot_ok {rest : List Nat} (hg : c.dal.Hangs F [] x.page rest) (hx : Coherent h l x)
    (hsafe : c.dal.options.isOverPopulated x.copy.items →
      (middleItem c.dal.options x.copy.items).isSome)
    (hroot : c.root = x.page.tag) (hnames : cap.names (c.dal.freelist.maxPage + 2) = true)
    {ancestors : List Node} (h0 : ancestors[0]? = some (nodeOf x.copy)) :
    ∃ c' q q' rest', splitRoot ancestors c = .ok () c' ∧
      c'.dal.Hangs F [] (growRoot c.dal.options q q' x) rest' ∧
      (Neat (current c.dal.options x) rest → Neat (growRoot c.dal.options q q' x) rest') ∧
      c'.root = (growRoot c.dal.options q q' x).tag ∧ c'.name = c.name ∧
      Keeps F c.dal c'.dal ∧ c'.dal.freelist.maxPage ≤ c.dal.freelist.maxPage + 2 ∧
      Allots c.dal.freelist c'.dal.freelist (current c.dal.options x).tags
        (growRoot c.dal.options q q' x).tags := by
  rw [splitRoot, Prog.get_bind, Prog.element_bind h0]
  by_cases hover : c.dal.options.isOverPopulated x.copy.items
  · obtain ⟨m, hm⟩ := Option.isSome_iff_exists.mp (hsafe hover)
    -- the page of the new root is handed out first
    set fl := c.dal.freelist.getNextPage.2 with hfl
    set q' := c.dal.freelist.getNextPage.1 with hq'
    set f : Frame Nat Item := ⟨q', [], []⟩ with hf
    obtain ⟨cu, hcut, rfl⟩ := exists_cut fl.getNextPage.1 hm
    have hmax : fl.maxPage ≤ c.dal.freelist.maxPage + 1 := (Freelist.maxPage_getNextPage _).2
    have ha : ({ c.dal with freelist := fl } : Dal (Shelf cap)).Around F f x.page rest :=
      ⟨hg.layout.nextPage, hg.below, by simp [hf, Frame.siblings], hg.holds⟩
    have hmid : cu.middle ∈ x.page.items := by
      obtain ⟨i, -, hget, -⟩ := cut_eq_some.mp hcut
      exact hx.items.subset (List.mem_of_getElem? hget)
    have hroom : cap.room (insertAt f.items f.left.length cu.middle) (f.items.length + 2) = true :=
      cap.room_root hmid (cap.room_mono (.refl _) (Nat.zero_le _) (Or.inl rfl)
        (fits_of_at? hg.hole.root).1)
    obtain ⟨d₁, rest', hrun, hg₁, hneat, -, hk₁, hfl₁⟩ := split_ok ha hx hcut hroom
      (cap.names_mono (by show fl.maxPage + 1 ≤ _; omega) hnames)
    obtain ⟨d₂, hrun₂, hg₂, hk₂, hfl₂⟩ := hg₁.rewrite
    have hnew : growRoot c.dal.options fl.getNextPage.1 q' x =
        (f.addRight cu.middle cu.right).plug cu.left := growRoot_cut hover hcut
    refine ⟨{ c with dal := d₂, root := q' }, fl.getNextPage.1, q', rest', ?_, ?_, fun hn => ?_, ?_,
      rfl, ?_, ?_, ?_⟩
    · rw [items_nodeOf, if_pos hover]
      refine Prog.bind_ok (onDal_ok
        (?_ : _ = Outcome.ok (nodeOf ((f.addRight cu.middle cu.right).plug cu.left)) d₂))
      refine (Prog.bind_ok (newNode_ok c.dal _ _)).trans ?_
      refine (Prog.bind_ok hrun).trans ?_
      exact Prog.orPanic_ok hrun₂
    · rw [hnew]
      exact hg₂
    · rw [current, if_pos hover] at hn
      rw [hnew]
      exact hneat hn
    · rw [hnew]; rfl
    · exact ((Keeps.setFreelist fl).trans hk₁).trans hk₂
    · have := (Freelist.maxPage_getNextPage fl).2
      show d₂.freelist.maxPage ≤ _
      rw [hfl₂, hfl₁]
      show fl.getNextPage.2.maxPage ≤ _
      omega
    · show Allots c.dal.freelist d₂.freelist _ _
      rw [hfl₂, hfl₁, current, if_pos hover, hnew]
      refine (Allots.nextPage _ _).trans (Allots.trans (.of_subset ?_) (allots_cut fl hcut))
      exact (f.tags_plug x.copy).symm.subset
  · refine ⟨c, 0, 0, rest, ?_, ?_, fun hn => ?_, ?_, rfl, Keeps.refl F _, Nat.le_add_right _ _, ?_⟩
    · rw [items_nodeOf, if_neg hover]; rfl
    · rw [growRoot_rest hover]
      exact hg
    · rw [current, if_neg hover] at hn
      rw [growRoot_rest hover]
      exact hn
    · rw [growRoot_rest hover]
      exact hroot
    · rw [current, if_neg hover, growRoot_rest hover]
      exact .refl _ _

end Root

/-! ## `put` as a whole -/

section Put

variable {c : Collection (Shelf cap)} {t : PTree} {h : Nat} {item : Item} {x : Path Nat Item}

/-- Both branches of `put` insert. -/
theorem placeItem_eq (pastEnd item : Item) (u : PTree) (i : Nat) :
    placeItem pastEnd item (nodeOf u) i = nodeOf (place item i u) := by
  unfold placeItem Node.addItem
  split <;> rfl

/-- The first half of `put` on any store: what comes after the search. -/
theorem putItem_path {φ : Type} [PageStore φ] {c : Collection φ} (pastEnd : Item)
    (hreads : c.dal.Reads t) (hroot : c.root = t.tag) (hx : IsPath (findKeyInNode item.key) t x)
    (hfuel : x.frames.length < c.dal.fuel) : putItem pastEnd item c = (do
      let _ ← onDal (Prog.orPanic (writeNode (nodeOf (place item x.index x.focus))))
      let ancestors ← getNodes (0 :: pathIndexes x.frames)
      Prog.ret (ancestors, 0 :: pathIndexes x.frames) : Prog Error (Collection φ) _) c := by
  have hget : Dal.getNode c.root c.dal = .ok (nodeOf t) c.dal := hroot ▸ hreads.getNode
  rw [putItem, Prog.get_bind, Prog.bind_ok (onDal_ok_self (Prog.orPanic_ok hget)),
    Prog.bind_ok (onDal_ok_self (findKey_ok false hreads hx hfuel))]
  simp only [Bool.not_false, Bool.or_true, if_true, placeItem_eq]

/-- The first half of `put`: the item is placed where the search ends, and the path
is read again. -/
theorem putItem_ok (pastEnd : Item) (ho : c.dal.Owns F t) (hroot : c.root = t.tag)
    (hx : IsPath (findKeyInNode item.key) t x)
    (hroom : cap.room (insertAt x.focus.items x.index item) x.focus.children.length = true) :
    ∃ d', putItem pastEnd item c =
        .ok (pathNodes x.frames (place item x.index x.focus), 0 :: pathIndexes x.frames)
          { c with dal := d' } ∧
      d'.Owns F (plugAll x.frames (place item x.index x.focus)) ∧ Keeps F c.dal d' ∧
      d'.freelist = c.dal.freelist := by
  have hreads : c.dal.Reads t := reads_iff_holds.mpr ho.holds
  have ho' : c.dal.Owns F (plugAll x.frames x.focus) := by rw [hx.eq]; exact ho
  obtain ⟨d', hwrite, hfin, hk, hfl⟩ := ho'.writeItems hroom
  refine ⟨d', ?_, hfin, hk, hfl⟩
  have hroot' : ({ c with dal := d' } : Collection (Shelf cap)).root =
      (plugAll x.frames (place item x.index x.focus)).tag := by
    rw [tag_plugAll]
    exact hroot.trans (by rw [← hx.eq, tag_plugAll]; rfl)
  rw [putItem_path pastEnd hreads hroot hx (ho.length_frames_lt hx)]
  refine (Prog.bind_ok (onDal_ok (Prog.orPanic_ok hwrite))).trans ?_
  refine (Prog.bind_ok (getNodes_ok (reads_iff_holds.mpr hfin.holds) hroot')).trans ?_
  rfl

/-- **The second half of `put` does what `growPath` and `growRoot` say**, on any tree that
hangs together. -/
theorem splitUp_ok {leaf : PTree} {fs : List (Frame Nat Item)} {rest : List Nat}
    (hg : c.dal.Hangs F fs leaf rest) (hu : Uniform h (plugAll fs leaf))
    (hroot : c.root = (plugAll fs leaf).tag) (hsplit : SplitSafe cap c.dal.options fs leaf.items)
    (htop : c.dal.options.isOverPopulated (topItems fs leaf.items) →
      (middleItem c.dal.options (topItems fs leaf.items)).isSome)
    (hnames : cap.names (c.dal.freelist.maxPage + fs.length + 2) = true) :
    ∃ c' t' rest', (do
        onDal (Prog.forEach (splitRound (pathNodes fs leaf) (0 :: pathIndexes fs))
          (rounds (pathNodes fs leaf)))
        splitRoot (pathNodes fs leaf) : Prog Error (Collection (Shelf cap)) Unit) c = .ok () c' ∧
      c'.dal.Hangs F [] t' rest' ∧
      (Neat leaf rest ∨ LeftNeat c.dal.options leaf fs rest → Neat t' rest') ∧
      c'.root = t'.tag ∧ c'.name = c.name ∧
      t'.erase = growRoot c.dal.options () ()
        (growPath c.dal.options leaf.erase (fs.map Frame.erase)) ∧
      Keeps F c.dal c'.dal ∧
      c'.dal.freelist.maxPage ≤ c.dal.freelist.maxPage + fs.length + 2 ∧
      (NoDoubleOverflow c.dal.options fs leaf.items →
        Allots c.dal.freelist c'.dal.freelist (plugAll fs leaf).tags t'.tags) := by
  obtain ⟨d₂, y, rest₂, hrun₂, hr⟩ :=
    splitRounds_hangs fs [] hg hu hsplit (cap.names_mono (by omega) hnames)
  have hk₂ := hr.keeps
  have hmax₂ := hr.maxPage_le
  have hyroot : c.root = y.page.tag := by
    rw [← hr.coherent.tag, show y.copy.tag = _ from congrArg Node.pageNum hr.node]
    exact hroot
  obtain ⟨c₃, q, q', rest₃, hrun₃, hg₃, hneat₃, hroot₃, hname₃, hk₃, hmax₃, hallots₃⟩ := splitRoot_ok
    (c := { c with dal := d₂ }) (x := y) hr.hangs hr.coherent
    (by rw [hr.items]; exact hk₂.options ▸ htop) hyroot
    (cap.names_mono (by simp only; omega) hnames) (by rw [pathNodes_head, hr.node])
  simp only [hk₂.options] at hneat₃ hroot₃ hg₃ hallots₃
  refine ⟨c₃, _, rest₃, ?_, hg₃, fun hn => hneat₃ ?_, hroot₃, hname₃, ?_, hk₂.trans hk₃, ?_,
    fun hcalm => ?_⟩
  · have hrounds : Prog.forEach (splitRound (pathNodes fs leaf) (0 :: pathIndexes fs))
        (rounds (pathNodes fs leaf)) c.dal = .ok () d₂ := by
      rw [rounds_eq, length_pathNodes]
      exact hrun₂
    exact (Prog.bind_ok (onDal_ok hrounds)).trans hrun₃
  · rcases hn with hn | hn
    · exact neat_current hr.coherent (hr.neat hn)
    · exact hr.leftNeat hn
  · rw [growRoot_erase, hr.outline]
  · simp only at hmax₃; omega
  · obtain ⟨hcurrent, hallots₂⟩ := hr.calm hcalm
    rw [hcurrent] at hallots₃
    exact hallots₂.trans hallots₃

/-- **`put` of an absent key on an existing root does what `putOutline` says**, and
leaves the pages of others alone. -/
theorem put_ok (pastEnd : Item) {key value : Bytes} (ho : c.dal.Owns F t) (hroot : c.root = t.tag)
    (hu : Uniform h t) (hsafe : PutSafe cap c.dal.options ⟨key, value⟩ t.erase)
    (hx : locate (findKeyInNode key) t = some x) (hpath : IsPath (findKeyInNode key) t x)
    (hf : x.found = false)
    (hnames : cap.names (c.dal.freelist.maxPage + x.frames.length + 2) = true) :
    ∃ c' t', put pastEnd key value c = .ok () c' ∧ c'.dal.Owns F t' ∧ c'.root = t'.tag ∧
      c'.name = c.name ∧ t'.erase = putOutline c.dal.options ⟨key, value⟩ t.erase ∧
      Keeps F c.dal c'.dal ∧
      c'.dal.freelist.maxPage ≤ c.dal.freelist.maxPage + x.frames.length + 2 ∧
      (NoDoubleOverflow c.dal.options x.frames (insertAt x.focus.items x.index ⟨key, value⟩) →
        Allots c.dal.freelist c'.dal.freelist t.tags t'.tags) := by
  have hxe : locate (findKeyInNode key) t.erase = some x.erase := by rw [locate_erase, hx]; rfl
  obtain ⟨hroom, hsplit, htop⟩ := hsafe _ hxe
  simp only [Path.erase, items_erase, splitSafe_erase, topItems_erase] at hroom hsplit htop
  set item : Item := ⟨key, value⟩ with hitem
  set leaf := place item x.index x.focus with hleaf
  have hupath : Uniform h (plugAll x.frames x.focus) := by rw [hpath.eq]; exact hu
  obtain ⟨k, hk, hfocus⟩ := uniform_of_plugAll hupath
  obtain rfl : k = 0 := hfocus.zero_of_children (hpath.leaf hf)
  have hup : Uniform h (plugAll x.frames leaf) :=
    uniform_plugAll hupath hk (uniform_place item x.index hfocus)
  obtain ⟨d₁, hrun₁, ho₁, hk₁, hfl₁⟩ := putItem_ok pastEnd ho hroot hpath
    (by rw [hpath.leaf hf]; exact hroom)
  have hroot₁ : c.root = (plugAll x.frames leaf).tag := by
    rw [hroot, ← hpath.eq, tag_plugAll, tag_plugAll]; rfl
  obtain ⟨c₂, t', rest, hrun₂, hg₂, hneat₂, hroot₂, hname₂, he₂, hk₂, hmax₂, hcalm₂⟩ := splitUp_ok
    (c := { c with dal := d₁ }) ho₁.hangs hup hroot₁ (by rw [hk₁.options]; exact hsplit)
    (by rw [hk₁.options]; exact htop) (by rw [hfl₁]; exact hnames)
  refine ⟨c₂, t', ?_, hg₂.owns (hneat₂ (.inl (.refl _))), hroot₂, hname₂, ?_, hk₁.trans hk₂, ?_,
    fun hcalm => ?_⟩
  · have hne : c.root ≠ 0 := by rw [hroot]; exact ho.tag_ne_zero
    rw [put, Prog.get_bind, if_neg hne, Prog.bind_ok hrun₁]
    exact hrun₂
  · rw [he₂, hk₁.options, putOutline_eq hxe, erase_place]
    rfl
  · rw [hfl₁] at hmax₂
    exact hmax₂
  · have hallots := hcalm₂ (by rw [hk₁.options]; exact hcalm)
    rw [hfl₁] at hallots
    refine Allots.trans (.of_subset ?_) hallots
    have hplaced : leaf.tags = x.focus.tags := by rw [tags_eq, tags_eq x.focus]; rfl
    rw [← hpath.eq]
    refine List.Perm.subset ((tags_plugAll x.frames x.focus).trans ?_)
    rw [← hplaced]
    exact (tags_plugAll x.frames leaf).symm

/-- **The first `put` makes a leaf.** -/
theorem put_first (pastEnd : Item) {key value : Bytes} (hlay : Layout c.dal.freelist F [])
    (hroot : c.root = 0) (hroom : cap.room [⟨key, value⟩] 0 = true)
    (hnames : cap.names (c.dal.freelist.maxPage + 1) = true) :
    ∃ c' t', put pastEnd key value c = .ok () c' ∧ c'.dal.Owns F t' ∧ c'.root = t'.tag ∧
      c'.name = c.name ∧ t'.erase = .node () [⟨key, value⟩] [] ∧ Keeps F c.dal c'.dal ∧
      c'.dal.freelist.maxPage ≤ c.dal.freelist.maxPage + 1 ∧
      Allots c.dal.freelist c'.dal.freelist [] t'.tags := by
  set q := c.dal.freelist.getNextPage.1 with hq
  have hlay' := hlay.nextPage
  have hmem : q ∈ q :: ([] : List Nat) := List.mem_cons_self
  have hfit : cap.Fits (nodeOf (.node q [⟨key, value⟩] [])) := fits_of_layout hlay' hroom
    (cap.names_mono (Freelist.maxPage_getNextPage c.dal.freelist).2 hnames) (List.Subset.refl _)
  set d₁ : Dal (Shelf cap) := { c.dal with freelist := c.dal.freelist.getNextPage.2 } with hd₁
  have hwrite : writeNode (nodeOf (.node q [⟨key, value⟩] [])) d₁ =
      .ok _ (d₁.store (nodeOf (.node q [⟨key, value⟩] [])) hfit) :=
    writeNode_ok (hlay'.ne_zero hmem) hfit
  refine ⟨{ c with dal := d₁.store _ hfit, root := q }, .node q [⟨key, value⟩] [], ?_,
    ⟨holds_node.mpr ⟨at?_store_self _ _ _, by simp⟩, by rw [tags_node]; exact hlay'⟩, rfl, rfl,
    by simp, ?_, (Freelist.maxPage_getNextPage c.dal.freelist).2, ?_⟩
  · rw [put, Prog.get_bind, if_pos hroot]
    exact Prog.bind_ok (onDal_ok ((Prog.bind_ok (newNode_ok c.dal _ _)).trans hwrite))
  · refine (Keeps.setFreelist _).trans (Keeps.store ?_ hfit)
    exact hlay'.outside q (List.mem_append_left _ hmem)
  · rw [tags_node]
    exact .nextPage _ _

end Put

end Collection

end Toocal
