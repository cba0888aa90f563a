import Toocal.Library.Everywhere
import Toocal.Tree.Operations
import Toocal.Tree.Sizes

/-!
# How full the nodes are

Of items of one size `s` a node has too many, or too few, by their number alone
(`isOverPopulated_mono`).  Where no node is over-populated a put can split nothing but
its leaf: `growRoot_split` is what comes of it, and `each_putOutline_iff` says when a
node is over-populated then.
-/

namespace Toocal

open Binary32 Multiway Multiway.Tree

variable {π : Type} {o : Options} {s : Nat} {its its' : List Item}

/-! ## Items of one size -/

/-- The item has size `s`, and key and value a length that a page can tell. -/
def Item.OfSize (s : Nat) (a : Item) : Prop := a.size = s ∧ a.Short

instance (s : Nat) (a : Item) : Decidable (a.OfSize s) := inferInstanceAs (Decidable (_ ∧ _))

def Sized (s : Nat) (its : List Item) : Prop := ∀ a ∈ its, a.OfSize s

instance (s : Nat) (its : List Item) : Decidable (Sized s its) :=
  inferInstanceAs (Decidable (∀ a ∈ its, a.OfSize s))

theorem Sized.mono (h : Sized s its') (hsub : its ⊆ its') : Sized s its := fun a ha => h a (hsub ha)

/-- A page counts its items in 16 bits; the node has fewer, and one more is not too many. -/
def Narrow (its : List Item) : Prop := its.length + 1 < 2 ^ 16

theorem Item.OfSize.le {a : Item} (h : a.OfSize s) : s ≤ 510 := h.1 ▸ h.2.size_le

theorem nodeSize_sized (h : Sized s its) (hlen : its.length < 2 ^ 16) :
    nodeSize its = 11 + its.length * s := by
  rcases its with _ | ⟨a, rest⟩
  · simp [nodeSize_eq]
  have hmul := Nat.mul_le_mul hlen.le (h a List.mem_cons_self).le
  rw [nodeSize_eq, List.map_congr_left fun b hb => (h b hb).1, List.map_const',
    List.sum_replicate_nat, Nat.mod_eq_of_lt (by omega)]

section Room

variable [System] {n : Nat}

theorem pageRoom_sized (h : Sized s its) : PageRoom its n ↔
    Counted its.length n ∧ headerSize + its.length * (s + 4) + pageNumSize * n ≤ defaultPageSize - 1 := by
  have hcells : cellsSize its = its.length * (s + 2) := by
    have hcell : its.map (fun item => (cell item).length) = its.map fun _ => s + 2 := by
      refine List.map_congr_left fun a ha => ?_
      rw [length_cell, ← (h a ha).1, (h a ha).2.size]
    rw [cellsSize, hcell, List.map_const', List.sum_replicate_nat]
  rw [PageRoom, BufferRoom, and_iff_right fun a ha => (h a ha).2, hcells]
  refine and_congr_right fun _ => ?_
  rw [Nat.mul_add, Nat.mul_add]
  omega

theorem pageRoom_congr (h : Sized s its) (h' : Sized s its') (hlen : its'.length = its.length)
    (hroom : PageRoom its n) : PageRoom its' n := by
  rw [pageRoom_sized h] at hroom
  rwa [pageRoom_sized h', hlen]

end Room

theorem isOverPopulated_mono (h : Sized s its) (h' : Sized s its')
    (hle : its.length ≤ its'.length) (hlen : its'.length < 2 ^ 16) (hover : o.isOverPopulated its) :
    o.isOverPopulated its' := by
  rw [Options.isOverPopulated, nodeSize_sized h (hle.trans_lt hlen)] at hover
  rw [Options.isOverPopulated, nodeSize_sized h' hlen]
  have hmul : its.length * s ≤ its'.length * s := Nat.mul_le_mul_right s hle
  exact hover.trans_le
    (nearest_mono (Nat.cast_nonneg _) (by exact_mod_cast Nat.add_le_add_left hmul 11))

theorem isOverPopulated_congr (h : Sized s its) (h' : Sized s its')
    (hlen : its.length = its'.length) (hlt : its'.length < 2 ^ 16) :
    o.isOverPopulated its ↔ o.isOverPopulated its' :=
  ⟨isOverPopulated_mono h h' hlen.le hlt, isOverPopulated_mono h' h hlen.ge (hlen ▸ hlt)⟩

/-- Every over-populated node of items of size `s` has a split index. -/
def Cuttable (o : Options) (s : Nat) : Prop :=
  ∀ its, Sized s its → its.length < 2 ^ 16 → o.isOverPopulated its →
    ∃ i, o.getSplitIndex its = some i

/-- So a node with one item is not over-populated: a split index leaves an item on each side. -/
theorem Cuttable.not_over (hcut : Cuttable o s) (h : Sized s its) (hone : its.length ≤ 1) :
    ¬o.isOverPopulated its := fun hover => by
  obtain ⟨i, hi⟩ := hcut its h (by omega) hover
  have := getSplitIndex_lt hi
  omega

theorem Cuttable.middle (hcut : Cuttable o s) (h : Sized s its) (hlen : its.length < 2 ^ 16)
    (hover : o.isOverPopulated its) : ∃ m, middleItem o its = some m := by
  obtain ⟨i, hi⟩ := hcut its h hlen hover
  obtain ⟨m, hm, -⟩ := exists_middleItem hi
  exact ⟨m, hm⟩

/-! ## A put where no node is over-populated -/

section Grow

variable {x : Copies Unit} {leaf : Outline} {fs gs : List (Frame Unit Item)} {f : Frame Unit Item}

theorem growFrom_page (hx : ¬o.isOverPopulated x.copy.items)
    (hfs : ∀ f ∈ fs, ¬o.isOverPopulated f.items) :
    ¬o.isOverPopulated (growFrom o x fs).copy.items ∧ (growFrom o x fs).page = plugAll fs x.page := by
  induction fs with
  | nil => exact ⟨hx, rfl⟩
  | cons f fs ih =>
    obtain ⟨hf, hfs⟩ := List.forall_mem_cons.mp hfs
    obtain ⟨hover, hpage⟩ := ih hfs
    rw [growFrom, growRound_rest hover]
    exact ⟨hf, by rw [plugAll_cons, hpage]⟩

theorem growRoot_growFrom (hx : ¬o.isOverPopulated x.copy.items)
    (hfs : ∀ f ∈ fs, ¬o.isOverPopulated f.items) :
    growRoot o () () (growFrom o x fs) = plugAll fs x.page := by
  obtain ⟨hover, hpage⟩ := growFrom_page hx hfs
  rw [growRoot_rest hover, hpage]

/-- **A leaf that is split** hands an item to its parent, and that is all. -/
theorem growRoot_split {c : Cut Unit} (hover : o.isOverPopulated leaf.items)
    (hc : cut o () leaf = some c) (hfs : ∀ g ∈ gs ++ [f], ¬o.isOverPopulated g.items) :
    growRoot o () () (growPath o leaf (gs ++ [f])) =
      plugAll gs ((f.addRight c.middle c.right).plug c.left) := by
  rw [growPath_snoc, growRound_cut (x := ⟨leaf, leaf⟩) hover hc]
  exact growRoot_growFrom (hfs f (by simp)) fun g hg => hfs g (List.mem_append_left _ hg)

end Grow

section Put

variable {t : Outline} {item : Item} {x : Path Unit Item} {h : Nat}

theorem splitSafe_of_rest {cap : Capacity} {fs : List (Frame π Item)} {its : List Item}
    (hrest : ∀ l ∈ pathItems fs its, ¬o.isOverPopulated l) : SplitSafe cap o fs its := by
  induction fs with
  | nil => trivial
  | cons f fs ih =>
    rw [pathItems] at hrest
    obtain ⟨-, hrest⟩ := List.forall_mem_cons.mp hrest
    refine ⟨ih hrest, fun hover => ?_⟩
    rw [pathItems_eq_cons] at hrest
    exact absurd hover (hrest _ List.mem_cons_self)

theorem mem_pathItems {fs : List (Frame π Item)} {its l : List Item} :
    l ∈ pathItems fs its ↔ (∃ f ∈ fs, f.items = l) ∨ l = its := by
  induction fs with
  | nil => simp [pathItems]
  | cons f fs ih => simp [pathItems, ih, eq_comm, or_assoc]

theorem eq_or_mem_of_pathItems (hpath : IsPath (findKeyInNode item.key) t x) {l : List Item}
    (hl : l ∈ pathItems x.frames (insertAt x.focus.items x.index item)) {a : Item} (ha : a ∈ l) :
    a = item ∨ a ∈ t.inorder := by
  rw [← hpath.eq]
  rcases mem_pathItems.mp hl with ⟨f, hf, rfl⟩ | rfl
  · exact .inr (items_subset_inorder hf x.focus ha)
  · refine (mem_insertAt.mp ha).imp_right fun ha => ?_
    rw [inorder_plugAll]
    simp [(items_sublist_inorder x.focus).subset ha]

theorem sized_pathItems (hsize : Sized s t.inorder) (hitem : item.OfSize s)
    (hpath : IsPath (findKeyInNode item.key) t x) :
    ∀ l ∈ pathItems x.frames (insertAt x.focus.items x.index item), Sized s l := by
  intro l hl a ha
  rcases eq_or_mem_of_pathItems hpath hl ha with rfl | ha
  · exact hitem
  · exact hsize a ha

/-- The leaf that takes in an item has room for it, and where it is over-populated then, its
parent has room for the item that moves up. -/
def RoomToPut (cap : Capacity) (o : Options) (item : Item) (t : Tree π Item) : Prop :=
  ∀ x ∈ locate (findKeyInNode item.key) t,
    cap.room (insertAt x.focus.items x.index item) 0 = true ∧
    (o.isOverPopulated (insertAt x.focus.items x.index item) → ∀ f ∈ x.frames.getLast?,
      ∀ m ∈ middleItem o (insertAt x.focus.items x.index item),
        cap.room (insertAt f.items f.left.length m) (f.items.length + 2) = true)

instance (cap : Capacity) (o : Options) (item : Item) (t : Tree π Item) :
    Decidable (RoomToPut cap o item t) :=
  inferInstanceAs (Decidable (∀ x ∈ locate (findKeyInNode item.key) t, _ ∧ (_ → ∀ f ∈ _, ∀ m ∈ _, _)))

/-- **Where there is room, and over-populated nodes can be cut**, a put into a tree without such
nodes is safe. -/
theorem putSafe_of_cuttable {cap : Capacity} (hcut : Cuttable o s) (hu : Uniform h t)
    (hsize : Sized s t.inorder) (hitem : item.OfSize s) (hfull : t.Each (¬o.isOverPopulated ·))
    (hnarrow : t.Each Narrow) (hroom : RoomToPut cap o item t) : PutSafe cap o item t := by
  intro x hx
  obtain ⟨x', hx', hpath⟩ := exists_path item.key hu.regular
  obtain rfl := Option.some.inj (hx.symm.trans hx')
  obtain ⟨hleaf, hparent⟩ := hroom x hx
  have hsized := sized_pathItems hsize hitem hpath _ (mem_pathItems.mpr (.inr rfl))
  rw [← hpath.eq, each_plugAll] at hfull hnarrow
  have hlen : (insertAt x.focus.items x.index item).length < 2 ^ 16 := by
    rw [length_insertAt]
    exact (each_iff.mp hnarrow.2).1
  rcases List.eq_nil_or_concat' x.frames with hnil | ⟨gs, f, hsnoc⟩
  · rw [hnil]
    refine ⟨hleaf, trivial, fun hover => ?_⟩
    obtain ⟨m, hm⟩ := hcut.middle hsized hlen hover
    rw [topItems, hm]
    rfl
  · have hf : ¬o.isOverPopulated f.items := (hfull.1 f (by simp [hsnoc])).1
    have hgs : ∀ l ∈ pathItems gs f.items, ¬o.isOverPopulated l := fun l hl => by
      rcases mem_pathItems.mp hl with ⟨g, hg, rfl⟩ | rfl
      · exact (hfull.1 g (by simp [hsnoc, hg])).1
      · exact hf
    rw [hsnoc, splitSafe_snoc, topItems_snoc]
    refine ⟨hleaf, ⟨splitSafe_of_rest hgs, fun hover => ?_⟩, fun hover => absurd hover (hgs _ ?_)⟩
    · obtain ⟨m, hm⟩ := hcut.middle hsized hlen hover
      exact ⟨m, hm, hparent hover f (by rw [hsnoc, List.getLast?_concat]; rfl) m hm⟩
    · rw [pathItems_eq_cons]
      exact List.mem_cons_self

theorem not_over_cut {leaf : Outline} {c : Cut Unit} (hsize : Sized s leaf.items)
    (hc : cut o () leaf = some c) (hold : Sized s its) (hlen : leaf.items.length = its.length + 1)
    (hnarrow : Narrow its) (hfull : ¬o.isOverPopulated its) (hleaf : leaf.children = []) :
    c.left.Each (¬o.isOverPopulated ·) ∧ c.right.Each (¬o.isOverPopulated ·) := by
  obtain ⟨i, hi, -, hl, hr⟩ := cut_eq_some.mp hc
  have hlt := (getSplitIndex_lt hi).2
  have hleft : c.left.children = [] := by rw [hl, splitLeft, hleaf]; rfl
  have hright : c.right.children = [] := by rw [hr, splitRight, hleaf]; rfl
  rw [each_leaf hleft, each_leaf hright, hl, hr]
  refine ⟨fun hover => hfull ?_, fun hover => hfull ?_⟩
  · refine isOverPopulated_mono (hsize.mono (List.take_subset i _)) hold ?_
      (Nat.lt_of_succ_lt hnarrow) hover
    rw [List.length_take]
    omega
  · refine isOverPopulated_mono (hsize.mono (List.drop_subset (i + 1) _)) hold ?_
      (Nat.lt_of_succ_lt hnarrow) hover
    rw [List.length_drop]
    omega

theorem each_newRoot {c : Cut Unit} (hcut : Cuttable o s) (hmiddle : c.middle.OfSize s)
    (hleft : c.left.Each (¬o.isOverPopulated ·)) (hright : c.right.Each (¬o.isOverPopulated ·)) :
    (Multiway.Tree.node () [c.middle] [c.left, c.right]).Each (¬o.isOverPopulated ·) := by
  have hone : ¬o.isOverPopulated [c.middle] :=
    hcut.not_over (fun a ha => by rw [List.mem_singleton.mp ha]; exact hmiddle) (Nat.le_refl _)
  refine each_node.mpr ⟨hone, fun u hu => ?_⟩
  rcases List.mem_cons.mp hu with rfl | hu
  · exact hleft
  · rw [List.mem_singleton.mp hu]
    exact hright

section Parent

variable {f : Frame π Item} {a : Item} {l r : Tree π Item}

theorem items_addRight_perm : (f.addRight a r).items.Perm (a :: f.items) := by
  simp only [Frame.items, Frame.left_addRight, Frame.right_addRight, List.map_cons]
  exact List.perm_middle

theorem over_addRight_iff (ha : a.OfSize s) (hitem : item.OfSize s)
    (hf : Sized s f.items) (hnarrow : Narrow f.items) :
    o.isOverPopulated (f.addRight a r).items ↔ o.isOverPopulated (item :: f.items) := by
  have hsized : ∀ b : Item, b.OfSize s → Sized s (b :: f.items) := fun b hb c hc => by
    rcases List.mem_cons.mp hc with rfl | hc
    · exact hb
    · exact hf c hc
  exact isOverPopulated_congr ((hsized a ha).mono items_addRight_perm.subset) (hsized item hitem)
    items_addRight_perm.length_eq hnarrow

theorem each_grown_iff {gs : List (Frame π Item)} {P : List Item → Prop}
    (hframes : ∀ g ∈ gs ++ [f], P g.items ∧ ∀ c ∈ g.siblings, c.Each P) (hl : l.Each P)
    (hr : r.Each P) : (plugAll gs ((f.addRight a r).plug l)).Each P ↔ P (f.addRight a r).items := by
  have hsiblings : ∀ u ∈ (f.addRight a r).siblings, u.Each P := by
    intro u hu
    have hmem : u = r ∨ u ∈ f.siblings := by
      simp only [Frame.siblings, Frame.left_addRight, Frame.right_addRight, List.map_cons,
        List.mem_append, List.mem_cons] at hu ⊢
      tauto
    rcases hmem with rfl | hmem
    · exact hr
    · exact (hframes f (by simp)).2 u hmem
  rw [each_plugAll, Frame.each_plug]
  exact ⟨fun h => h.2.1, fun h =>
    ⟨fun g hg => hframes g (List.mem_append_left _ hg), h, hsiblings, hl⟩⟩

end Parent

/-- **After a put a node is over-populated** exactly if the leaf is split under a parent that
has no room for one more item. -/
theorem each_putOutline_iff (hcut : Cuttable o s) (hsize : Sized s t.inorder)
    (hfull : t.Each (¬o.isOverPopulated ·)) (hnarrow : t.Each Narrow) (hitem : item.OfSize s)
    (hx : locate (findKeyInNode item.key) t = some x)
    (hpath : IsPath (findKeyInNode item.key) t x) (hf : x.found = false) :
    (putOutline o item t).Each (¬o.isOverPopulated ·) ↔
      ¬∃ f ∈ x.frames.getLast?, o.isOverPopulated (insertAt x.focus.items x.index item) ∧
        o.isOverPopulated (item :: f.items) := by
  have hsized := sized_pathItems hsize hitem hpath
  set leaf := place item x.index x.focus with hleaf
  have hsizedLeaf : Sized s leaf.items := hsized _ (mem_pathItems.mpr (.inr rfl))
  have hlen : leaf.items.length = x.focus.items.length + 1 := length_insertAt _ _ _
  have hchildren : leaf.children = [] := hpath.leaf hf
  rw [← hpath.eq, each_plugAll] at hfull hnarrow
  obtain ⟨hframes, hfocus⟩ := hfull
  have hwide : Narrow x.focus.items := (each_iff.mp hnarrow.2).1
  have hover : ∀ f ∈ x.frames, ¬o.isOverPopulated f.items := fun f hf => (hframes f hf).1
  rw [putOutline_eq hx, ← hleaf]
  by_cases hsplit : o.isOverPopulated leaf.items
  · obtain ⟨m, hm⟩ := hcut.middle hsizedLeaf (hlen ▸ hwide) hsplit
    obtain ⟨c, hc, rfl⟩ := exists_cut () hm
    have hmiddle : c.middle.OfSize s := hsizedLeaf _ (mem_of_middleItem hm)
    obtain ⟨hleft, hright⟩ := not_over_cut hsizedLeaf hc
      (hsizedLeaf.mono fun a ha => mem_insertAt.mpr (.inr ha)) hlen hwide (each_iff.mp hfocus).1
      hchildren
    rcases List.eq_nil_or_concat' x.frames with hnil | ⟨gs, f, hsnoc⟩
    · rw [hnil, growPath, growRoot_cut (x := ⟨leaf, leaf⟩) hsplit hc]
      exact iff_of_true (each_newRoot hcut hmiddle hleft hright) (by simp)
    · have hfsize : Sized s f.items :=
        hsized f.items (mem_pathItems.mpr (.inl ⟨f, by simp [hsnoc], rfl⟩))
      have hfwide : Narrow f.items := (hnarrow.1 f (by simp [hsnoc])).1
      rw [hsnoc] at hframes hover ⊢
      rw [growRoot_split hsplit hc hover, each_grown_iff hframes hleft hright,
        over_addRight_iff hmiddle hitem hfsize hfwide, List.getLast?_concat]
      have hsplit' : o.isOverPopulated (insertAt x.focus.items x.index item) := hsplit
      simp [hsplit']
  · rw [growPath_eq, growRoot_growFrom (x := ⟨leaf, leaf⟩) hsplit hover]
    refine iff_of_true (each_plugAll.mpr ⟨hframes, (each_leaf hchildren).mpr hsplit⟩) ?_
    rintro ⟨f, -, hover', -⟩
    exact hsplit hover'

end Put

end Toocal
