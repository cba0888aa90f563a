import Toocal.Tree.Paths
import Toocal.Tree.Sizes

/-!
# What `put` does to a tree

`put` reads the nodes of the search path once and then works on those copies, so
its rounds are described on two trees (`Copies`): the copy a round tests and splits,
and the tree that is on the pages by then.  A round that splits a copy writes its two
halves and the copy of the parent, and whatever the page of the split node held
besides is lost.

* `putOutline` is the whole of `put` on a tree without page numbers.
* `Coherent` is the invariant of the rounds: the shape stays uniform, and no item
  is made up.
* Where no two neighbours of the path are over-populated (`NoDoubleOverflow`),
  nothing is lost (`inorder_putOutline`).
* `SplitSafe` says, on the nodes read, that every split of `put` is defined and
  fits its pages.
-/

namespace Toocal

open Outcomes Multiway Multiway.Tree

variable {π : Type}

/-! ## Cutting at the split index -/

/-- The two halves of a node and the item between them. -/
structure Cut (π : Type) where
  left : Tree π Item
  middle : Item
  right : Tree π Item

def Cut.erase (c : Cut π) : Cut Unit := ⟨c.left.erase, c.middle, c.right.erase⟩

/-- Cut a node at its split index; the right half gets the tag `q`. -/
def cut (o : Options) (q : π) (s : Tree π Item) : Option (Cut π) :=
  (o.getSplitIndex s.items).bind fun i =>
    s.items[i]?.map fun m => ⟨s.splitLeft i, m, s.splitRight q i⟩

/-- The item a split moves up. -/
def middleItem (o : Options) (its : List Item) : Option Item :=
  (o.getSplitIndex its).bind fun i => its[i]?

theorem cut_eq_some {o : Options} {q : π} {s : Tree π Item} {c : Cut π} :
    cut o q s = some c ↔ ∃ i, o.getSplitIndex s.items = some i ∧ s.items[i]? = some c.middle ∧
      c.left = s.splitLeft i ∧ c.right = s.splitRight q i := by
  constructor
  · intro h
    obtain ⟨i, hi, hm⟩ := Option.bind_eq_some_iff.mp h
    obtain ⟨m, hget, rfl⟩ := Option.map_eq_some_iff.mp hm
    exact ⟨i, hi, hget, rfl, rfl⟩
  · rintro ⟨i, hi, hm, hl, hr⟩
    cases c
    simp only at hm hl hr
    rw [cut, hi, Option.bind_some, hm, hl, hr]; rfl

theorem cut_middle (o : Options) (q : π) (s : Tree π Item) :
    (cut o q s).map Cut.middle = middleItem o s.items := by
  simp only [cut, middleItem]
  cases o.getSplitIndex s.items <;> simp [Function.comp_def]

theorem cut_erase (o : Options) (q : π) (s : Tree π Item) :
    cut o () s.erase = (cut o q s).map Cut.erase := by
  simp only [cut, items_erase]
  cases o.getSplitIndex s.items <;> simp [Function.comp_def, Cut.erase]

theorem exists_cut {o : Options} (q : π) {s : Tree π Item} {m : Item}
    (h : middleItem o s.items = some m) : ∃ c, cut o q s = some c ∧ c.middle = m :=
  Option.map_eq_some_iff.mp ((cut_middle o q s).trans h)

theorem mem_of_middleItem {o : Options} {its : List Item} {m : Item} (h : middleItem o its = some m) :
    m ∈ its := by
  obtain ⟨i, -, hm⟩ := Option.bind_eq_some_iff.mp h
  exact List.mem_of_getElem? hm

theorem exists_middleItem {o : Options} {its : List Item} {i : Nat}
    (h : o.getSplitIndex its = some i) : ∃ m, middleItem o its = some m ∧ m ∈ its := by
  have hi := (getSplitIndex_lt h).2
  exact ⟨its[i], by rw [middleItem, h, Option.bind_some, List.getElem?_eq_getElem hi],
    List.getElem_mem hi⟩

section Cut

variable {o : Options} {q : π} {s : Tree π Item} {c : Cut π} {h : Nat}

theorem cut_uniform (hc : cut o q s = some c) (hu : Uniform h s) :
    Uniform h c.left ∧ Uniform h c.right := by
  obtain ⟨i, hi, -, hl, hr⟩ := cut_eq_some.mp hc
  rw [hl, hr]
  exact ⟨hu.splitLeft (getSplitIndex_lt hi).2, hu.splitRight q (getSplitIndex_lt hi).2⟩

theorem cut_jointed (hc : cut o q s = some c) (hj : Jointed h s) :
    Jointed h c.left ∧ Jointed h c.right := by
  obtain ⟨i, hi, -, hl, hr⟩ := cut_eq_some.mp hc
  rw [hl, hr]
  exact ⟨hj.splitLeft (getSplitIndex_lt hi).2, hj.splitRight q (getSplitIndex_lt hi).2⟩

theorem cut_inorder (hc : cut o q s = some c) (hj : Jointed h s) :
    c.left.inorder ++ c.middle :: c.right.inorder = s.inorder := by
  obtain ⟨i, -, hm, hl, hr⟩ := cut_eq_some.mp hc
  rw [hl, hr]
  exact inorder_split hj hm q

theorem cut_tag_left (hc : cut o q s = some c) : c.left.tag = s.tag := by
  obtain ⟨i, -, -, hl, -⟩ := cut_eq_some.mp hc
  rw [hl, tag_splitLeft]

theorem cut_tag_right (hc : cut o q s = some c) : c.right.tag = q := by
  obtain ⟨i, -, -, -, hr⟩ := cut_eq_some.mp hc
  rw [hr, tag_splitRight]

end Cut

/-! ## The rounds of `put` -/

/-- A node as the loop of `put` works on it: the copy read before the loop, and the
tree its page stands for by now. -/
structure Copies (π : Type) where
  copy : Tree π Item
  page : Tree π Item

/-- One round: split the copy into the hole of the frame above it. -/
def growRound (o : Options) (q : π) (f : Frame π Item) (x : Copies π) : Copies π :=
  if o.isOverPopulated x.copy.items then
    match cut o q x.copy with
    | some c => ⟨f.plug c.left, (f.addRight c.middle c.right).plug c.left⟩
    | none => ⟨f.plug x.page, f.plug x.page⟩
  else ⟨f.plug x.page, f.plug x.page⟩

/-- The end of `put`: a new root over an over-populated one. -/
def growRoot (o : Options) (q q' : π) (x : Copies π) : Tree π Item :=
  if o.isOverPopulated x.copy.items then
    match cut o q x.copy with
    | some c => .node q' [c.middle] [c.left, c.right]
    | none => x.page
  else x.page

def Copies.erase (x : Copies π) : Copies Unit := ⟨x.copy.erase, x.page.erase⟩

theorem growRound_erase (o : Options) (q : π) (f : Frame π Item) (x : Copies π) :
    (growRound o q f x).erase = growRound o () f.erase x.erase := by
  unfold growRound
  simp only [Copies.erase, items_erase, cut_erase o q x.copy]
  split
  · cases cut o q x.copy <;> simp [Cut.erase]
  · simp

theorem growRoot_erase (o : Options) (q q' : π) (x : Copies π) :
    (growRoot o q q' x).erase = growRoot o () () x.erase := by
  unfold growRoot
  simp only [Copies.erase, items_erase, cut_erase o q x.copy]
  split
  · cases cut o q x.copy <;> simp [Cut.erase]
  · rfl

/-- All rounds, on the path above a leaf. -/
def growPath (o : Options) (leaf : Outline) : List (Frame Unit Item) → Copies Unit
  | [] => ⟨leaf, leaf⟩
  | f :: fs => growRound o () f (growPath o leaf fs)

/-- The rounds above a node of which copy and page are `x`. -/
def growFrom (o : Options) (x : Copies Unit) : List (Frame Unit Item) → Copies Unit
  | [] => x
  | f :: fs => growRound o () f (growFrom o x fs)

theorem growPath_eq (o : Options) (leaf : Outline) (fs : List (Frame Unit Item)) :
    growPath o leaf fs = growFrom o ⟨leaf, leaf⟩ fs := by
  induction fs with
  | nil => rfl
  | cons f fs ih => rw [growPath, growFrom, ih]

theorem growFrom_append (o : Options) (x : Copies Unit) (fs gs : List (Frame Unit Item)) :
    growFrom o x (fs ++ gs) = growFrom o (growFrom o x gs) fs := by
  induction fs with
  | nil => rfl
  | cons f fs ih => rw [List.cons_append, growFrom, growFrom, ih]

theorem growPath_snoc (o : Options) (leaf : Outline) (gs : List (Frame Unit Item))
    (f : Frame Unit Item) :
    growPath o leaf (gs ++ [f]) = growFrom o (growRound o () f ⟨leaf, leaf⟩) gs := by
  rw [growPath_eq, growFrom_append]; rfl

/-- Put an item into a node. -/
def place (item : Item) (index : Nat) (u : Tree π Item) : Tree π Item :=
  .node u.tag (insertAt u.items index item) u.children

theorem erase_place (item : Item) (index : Nat) (u : Tree π Item) :
    (place item index u).erase = place item index u.erase := by
  cases u; simp [place]

/-- **`put` on the tree of an existing root.** -/
def putOutline (o : Options) (item : Item) (t : Outline) : Outline :=
  match locate (findKeyInNode item.key) t with
  | some x => growRoot o () () (growPath o (place item x.index x.focus) x.frames)
  | none => t

/-- The items of the topmost node of a path. -/
def topItems : List (Frame π Item) → List Item → List Item
  | [], its => its
  | f :: _, _ => f.items

/-- The items of the nodes of a path. -/
def pathItems : List (Frame π Item) → List Item → List (List Item)
  | [], its => [its]
  | f :: fs, its => f.items :: pathItems fs its

/-- No two nodes next to each other on the path are over-populated. -/
def NoDoubleOverflow (o : Options) (fs : List (Frame π Item)) (its : List Item) : Prop :=
  (pathItems fs its).IsChain fun a b => ¬(o.isOverPopulated a ∧ o.isOverPopulated b)

instance (o : Options) (fs : List (Frame π Item)) (its : List Item) :
    Decidable (NoDoubleOverflow o fs its) := inferInstanceAs (Decidable (List.IsChain _ _))

theorem topItems_plugAll (fs : List (Frame π Item)) (u : Tree π Item) :
    (plugAll fs u).items = topItems fs u.items := by cases fs <;> rfl

theorem topItems_erase (fs : List (Frame π Item)) (its : List Item) :
    topItems (fs.map Frame.erase) its = topItems fs its := by
  cases fs with
  | nil => rfl
  | cons f fs => exact f.items_erase

theorem pathItems_erase (fs : List (Frame π Item)) (its : List Item) :
    pathItems (fs.map Frame.erase) its = pathItems fs its := by
  induction fs with
  | nil => rfl
  | cons f fs ih => rw [List.map_cons, pathItems, pathItems, f.items_erase, ih]

theorem pathItems_eq_cons (fs : List (Frame π Item)) (its : List Item) :
    pathItems fs its = topItems fs its :: (pathItems fs its).tail := by cases fs <;> rfl

theorem noDoubleOverflow_cons {o : Options} {f : Frame π Item} {fs : List (Frame π Item)}
    {its : List Item} : NoDoubleOverflow o (f :: fs) its ↔
      ¬(o.isOverPopulated f.items ∧ o.isOverPopulated (topItems fs its)) ∧
        NoDoubleOverflow o fs its := by
  unfold NoDoubleOverflow
  rw [pathItems, pathItems_eq_cons fs, List.isChain_cons_cons]

theorem topItems_snoc (gs : List (Frame π Item)) (f : Frame π Item) (its : List Item) :
    topItems (gs ++ [f]) its = topItems gs f.items := by cases gs <;> rfl

theorem noDoubleOverflow_snoc {o : Options} {gs : List (Frame π Item)} {f : Frame π Item}
    {its : List Item} : NoDoubleOverflow o (gs ++ [f]) its ↔
      NoDoubleOverflow o gs f.items ∧ ¬(o.isOverPopulated f.items ∧ o.isOverPopulated its) := by
  induction gs with
  | nil =>
    rw [List.nil_append, noDoubleOverflow_cons, and_comm]
    exact and_congr_left fun _ => iff_of_true (.singleton _) (.singleton _)
  | cons g gs ih =>
    rw [List.cons_append, noDoubleOverflow_cons, noDoubleOverflow_cons, ih, topItems_snoc, and_assoc]

/-! ## The invariant of the rounds -/

/-- Copy and page differ in what the page has gained, and neither has an item that
`l` does not have in this order. -/
structure Coherent (h : Nat) (l : List Item) (x : Copies π) : Prop where
  tag : x.copy.tag = x.page.tag
  items : x.copy.items.Sublist x.page.items
  children : x.copy.children.Sublist x.page.children
  copy_uniform : Uniform h x.copy
  page_uniform : Uniform h x.page
  copy_inorder : x.copy.inorder.Sublist l
  page_inorder : x.page.inorder.Sublist l

/-- The copy is a node in shape with nothing that its page does not have. -/
structure CopyOf (h : Nat) (x : Copies π) : Prop where
  tag : x.copy.tag = x.page.tag
  items : x.copy.items.Sublist x.page.items
  children : x.copy.children.Sublist x.page.children
  jointed : Jointed h x.copy

theorem Coherent.copyOf {h : Nat} {l : List Item} {x : Copies π} (hx : Coherent h l x) :
    CopyOf h x := ⟨hx.tag, hx.items, hx.children, hx.copy_uniform.jointed⟩

theorem Coherent.same {h : Nat} {t : Tree π Item} (hu : Uniform h t) :
    Coherent h t.inorder ⟨t, t⟩ :=
  ⟨rfl, .refl _, .refl _, hu, hu, .refl _, .refl _⟩

theorem items_addRight_sublist (f : Frame π Item) (a : Item) (t : Tree π Item) :
    f.items.Sublist (f.addRight a t).items := by
  simp [Frame.items, Frame.addRight]

theorem children_addRight_sublist (f : Frame π Item) (a : Item) (t u : Tree π Item) :
    (f.plug u).children.Sublist ((f.addRight a t).plug u).children := by
  simp [Frame.addRight]

section Rounds

variable {o : Options} {q : π} {f : Frame π Item} {x : Copies π} {h : Nat} {l : List Item}

theorem growRound_cut {c : Cut π} (hover : o.isOverPopulated x.copy.items)
    (hc : cut o q x.copy = some c) : growRound o q f x =
      ⟨f.plug c.left, (f.addRight c.middle c.right).plug c.left⟩ := by
  rw [growRound, if_pos hover, hc]

theorem growRound_rest (hover : ¬o.isOverPopulated x.copy.items) :
    growRound o q f x = ⟨f.plug x.page, f.plug x.page⟩ := by rw [growRound, if_neg hover]

theorem growRound_cases (o : Options) (q : π) (f : Frame π Item) (x : Copies π) :
    (∃ c, o.isOverPopulated x.copy.items ∧ cut o q x.copy = some c ∧ growRound o q f x =
      ⟨f.plug c.left, (f.addRight c.middle c.right).plug c.left⟩) ∨
    growRound o q f x = ⟨f.plug x.page, f.plug x.page⟩ := by
  by_cases hover : o.isOverPopulated x.copy.items
  · cases hc : cut o q x.copy with
    | some c => exact Or.inl ⟨c, hover, rfl, growRound_cut hover hc⟩
    | none => exact Or.inr (by rw [growRound, if_pos hover, hc])
  · exact Or.inr (growRound_rest hover)

theorem items_copy_growRound : (growRound o q f x).copy.items = f.items := by
  rcases growRound_cases o q f x with ⟨c, -, -, h⟩ | h <;> rw [h] <;> rfl

theorem inorder_plug_cut (f : Frame π Item) (c : Cut π) :
    ((f.addRight c.middle c.right).plug c.left).inorder =
      f.before ++ (c.left.inorder ++ c.middle :: c.right.inorder) ++ f.after := by
  rw [Frame.inorder_plug, Frame.before_addRight, Frame.after_addRight]
  simp

/-- **One round keeps copy and page coherent.** -/
theorem Coherent.growRound (hx : Coherent h l x) (hs : ∀ c ∈ f.siblings, Uniform h c) :
    Coherent (h + 1) (f.before ++ l ++ f.after) (growRound o q f x) := by
  rcases growRound_cases o q f x with ⟨c, -, hc, he⟩ | he
  · obtain ⟨hl, hr⟩ := cut_uniform hc hx.copy_uniform
    have hin := cut_inorder hc hx.copy_uniform.jointed
    have hs' : ∀ d ∈ (f.addRight c.middle c.right).siblings, Uniform h d := by
      intro d hd
      simp only [Frame.siblings, Frame.left_addRight, Frame.right_addRight, List.map_cons,
        List.mem_append, List.mem_cons] at hd
      rcases hd with hd | rfl | hd
      · exact hs d (List.mem_append_left _ hd)
      · exact hr
      · exact hs d (List.mem_append_right _ hd)
    have hpage : ((f.addRight c.middle c.right).plug c.left).inorder =
        f.before ++ x.copy.inorder ++ f.after := by rw [inorder_plug_cut, hin]
    have hcopy : (f.plug c.left).inorder.Sublist (f.before ++ x.copy.inorder ++ f.after) := by
      rw [Frame.inorder_plug, ← hin]
      exact ((List.Sublist.refl _).append (List.sublist_append_left _ _)).append_right _
    have hle : (f.before ++ x.copy.inorder ++ f.after).Sublist (f.before ++ l ++ f.after) :=
      (hx.copy_inorder.append_left _).append_right _
    rw [he]
    exact ⟨rfl, items_addRight_sublist f _ _, children_addRight_sublist f _ _ _,
      Frame.uniform_plug hs hl, Frame.uniform_plug hs' hl, hcopy.trans hle,
      hpage ▸ hle⟩
  · have hin : (f.plug x.page).inorder.Sublist (f.before ++ l ++ f.after) := by
      rw [Frame.inorder_plug]
      exact (hx.page_inorder.append_left _).append_right _
    have hu := Frame.uniform_plug hs hx.page_uniform
    rw [he]
    exact ⟨rfl, .refl _, .refl _, hu, hu, hin, hin⟩

theorem growRound_inorder (hu : Uniform h x.copy)
    (hx : o.isOverPopulated x.copy.items → x.copy = x.page) :
    (growRound o q f x).page.inorder = f.before ++ x.page.inorder ++ f.after := by
  rcases growRound_cases o q f x with ⟨c, hover, hc, he⟩ | he
  · rw [he, ← hx hover, ← cut_inorder hc hu.jointed, inorder_plug_cut]
  · rw [he, Frame.inorder_plug]

theorem growRound_same (hover : ¬o.isOverPopulated x.copy.items) :
    (growRound o q f x).copy = (growRound o q f x).page := by rw [growRound_rest hover]

theorem growRoot_cut {q' : π} {c : Cut π} (hover : o.isOverPopulated x.copy.items)
    (hc : cut o q x.copy = some c) :
    growRoot o q q' x = .node q' [c.middle] [c.left, c.right] := by
  rw [growRoot, if_pos hover, hc]

theorem growRoot_rest {q' : π} (hover : ¬o.isOverPopulated x.copy.items) :
    growRoot o q q' x = x.page := by rw [growRoot, if_neg hover]

theorem growRoot_cases (o : Options) (q q' : π) (x : Copies π) :
    (∃ c, o.isOverPopulated x.copy.items ∧ cut o q x.copy = some c ∧
      growRoot o q q' x = .node q' [c.middle] [c.left, c.right]) ∨
    growRoot o q q' x = x.page := by
  by_cases hover : o.isOverPopulated x.copy.items
  · cases hc : cut o q x.copy with
    | some c => exact Or.inl ⟨c, hover, rfl, growRoot_cut hover hc⟩
    | none => exact Or.inr (by rw [growRoot, if_pos hover, hc])
  · exact Or.inr (growRoot_rest hover)

theorem growRound_over {m : Item} (hover : o.isOverPopulated x.copy.items)
    (hm : middleItem o x.copy.items = some m) :
    growRound o q f x = growRound o q f ⟨x.copy, x.copy⟩ := by
  obtain ⟨c, hc, -⟩ := exists_cut q hm
  rw [growRound_cut hover hc, growRound_cut (x := ⟨x.copy, x.copy⟩) hover hc]

theorem growRoot_over {q' : π} {m : Item} (hover : o.isOverPopulated x.copy.items)
    (hm : middleItem o x.copy.items = some m) :
    growRoot o q q' x = growRoot o q q' ⟨x.copy, x.copy⟩ := by
  obtain ⟨c, hc, -⟩ := exists_cut q hm
  rw [growRoot_cut hover hc, growRoot_cut (x := ⟨x.copy, x.copy⟩) hover hc]

theorem inorder_newRoot (q' : π) (c : Cut π) :
    (Multiway.Tree.node q' [c.middle] [c.left, c.right]).inorder =
      c.left.inorder ++ c.middle :: c.right.inorder := by
  simp [inorder_node]

theorem Coherent.growRoot {r : π} (hx : Coherent h l x) :
    (growRoot o q r x).inorder.Sublist l ∧ ∃ h', Uniform h' (growRoot o q r x) := by
  rcases growRoot_cases o q r x with ⟨c, -, hc, he⟩ | he
  · obtain ⟨hl, hr⟩ := cut_uniform hc hx.copy_uniform
    rw [he, inorder_newRoot, cut_inorder hc hx.copy_uniform.jointed]
    refine ⟨hx.copy_inorder, h + 1, .inner _ _ _ rfl ?_⟩
    simp only [List.mem_cons, List.not_mem_nil, or_false]
    rintro d (rfl | rfl)
    · exact hl
    · exact hr
  · rw [he]
    exact ⟨hx.page_inorder, h, hx.page_uniform⟩

theorem growRoot_inorder {q' : π} (hu : Uniform h x.copy)
    (hx : o.isOverPopulated x.copy.items → x.copy = x.page) :
    (growRoot o q q' x).inorder = x.page.inorder := by
  rcases growRoot_cases o q q' x with ⟨c, hover, hc, he⟩ | he
  · rw [he, inorder_newRoot, cut_inorder hc hu.jointed, hx hover]
  · rw [he]

end Rounds

/-! ## The whole path -/

section GrowPath

variable {o : Options} {x : Copies Unit} {leaf : Outline} {fs : List (Frame Unit Item)}
  {h k : Nat}

theorem items_copy_growFrom : (growFrom o x fs).copy.items = topItems fs x.copy.items := by
  cases fs with
  | nil => rfl
  | cons f fs => exact items_copy_growRound

theorem items_copy_growPath : (growPath o leaf fs).copy.items = topItems fs leaf.items := by
  rw [growPath_eq]
  exact items_copy_growFrom

/-- **The rounds keep copy and page coherent**: by induction along the path, with one
round as the step. -/
theorem growFrom_coherent (hu : Uniform (k + fs.length) (plugAll fs x.page))
    (hx : Coherent k x.page.inorder x) :
    Coherent (k + fs.length) (plugAll fs x.page).inorder (growFrom o x fs) := by
  induction fs with
  | nil => exact hx
  | cons f fs ih =>
    obtain ⟨m, hm, hs, hk⟩ := Frame.uniform_of_plug hu
    obtain rfl : k + fs.length = m := Nat.succ.inj hm
    rw [plugAll_cons, Frame.inorder_plug]
    exact (ih hk).growRound hs

theorem growPath_coherent (hu : Uniform h (plugAll fs leaf)) :
    Coherent h (plugAll fs leaf).inorder (growPath o leaf fs) := by
  obtain ⟨k, rfl, hk⟩ := uniform_of_plugAll hu
  rw [growPath_eq]
  exact growFrom_coherent (x := ⟨leaf, leaf⟩) hu (.same hk)

/-- **Without a double overflow the rounds lose nothing.** -/
theorem growFrom_inorder (hu : Uniform (k + fs.length) (plugAll fs x.page))
    (hx : Coherent k x.page.inorder x) (hno : NoDoubleOverflow o fs x.copy.items)
    (hsame : o.isOverPopulated x.copy.items → x.copy = x.page) :
    (growFrom o x fs).page.inorder = (plugAll fs x.page).inorder ∧
      (o.isOverPopulated (topItems fs x.copy.items) →
        (growFrom o x fs).copy = (growFrom o x fs).page) := by
  induction fs with
  | nil => exact ⟨rfl, hsame⟩
  | cons f fs ih =>
    obtain ⟨m, hm, -, hk⟩ := Frame.uniform_of_plug hu
    obtain rfl : k + fs.length = m := Nat.succ.inj hm
    obtain ⟨hpair, hno'⟩ := noDoubleOverflow_cons.mp hno
    obtain ⟨hin, hsame'⟩ := ih hk hno'
    have hcopy : (growFrom o x fs).copy.items = topItems fs x.copy.items := items_copy_growFrom
    constructor
    · rw [plugAll_cons, Frame.inorder_plug, ← hin]
      exact growRound_inorder (growFrom_coherent hk hx).copy_uniform (by rwa [hcopy])
    · intro hover
      exact growRound_same (by rw [hcopy]; exact fun h => hpair ⟨hover, h⟩)

theorem growRoot_growFrom_over {m : Item} (hover : o.isOverPopulated x.copy.items)
    (hm : middleItem o x.copy.items = some m) :
    growRoot o () () (growFrom o x fs) = growRoot o () () (growPath o x.copy fs) := by
  rw [growPath_eq]
  rcases List.eq_nil_or_concat' fs with rfl | ⟨gs, f, rfl⟩
  · exact growRoot_over hover hm
  · rw [growFrom_append, growFrom_append]
    exact congrArg (fun y => growRoot o () () (growFrom o y gs)) (growRound_over hover hm)

theorem growPath_inorder (hu : Uniform h (plugAll fs leaf))
    (hno : NoDoubleOverflow o fs leaf.items) :
    (growPath o leaf fs).page.inorder = (plugAll fs leaf).inorder ∧
      (o.isOverPopulated (topItems fs leaf.items) →
        (growPath o leaf fs).copy = (growPath o leaf fs).page) := by
  obtain ⟨k, rfl, hk⟩ := uniform_of_plugAll hu
  rw [growPath_eq]
  exact growFrom_inorder (x := ⟨leaf, leaf⟩) hu (.same hk) hno fun _ => rfl

/-- **Without a double overflow `put` loses nothing.** -/
theorem growRoot_growPath_inorder (hu : Uniform h (plugAll fs leaf))
    (hno : NoDoubleOverflow o fs leaf.items) :
    (growRoot o () () (growPath o leaf fs)).inorder = (plugAll fs leaf).inorder := by
  obtain ⟨hin, hsame⟩ := growPath_inorder hu hno
  rw [← hin]
  exact growRoot_inorder (growPath_coherent hu).copy_uniform (by rwa [items_copy_growPath])

end GrowPath

/-! ## `put` as a whole -/

section Put

variable {o : Options} {item : Item} {t : Outline} {x : Path Unit Item} {h : Nat}

theorem putOutline_eq (hx : locate (findKeyInNode item.key) t = some x) : putOutline o item t =
    growRoot o () () (growPath o (place item x.index x.focus) x.frames) := by
  rw [putOutline, hx]

theorem uniform_place {u : Tree π Item} (item : Item) (index : Nat) (hu : Uniform 0 u) :
    Uniform 0 (place item index u) := by
  rw [place, hu.children_eq_nil]
  exact .leaf _ _

theorem inorder_placed (hx : IsPath (findKeyInNode item.key) t x) (hf : x.found = false) :
    (plugAll x.frames (place item x.index x.focus)).inorder = beforeAll x.frames ++
      (x.focus.items.take x.index ++ item :: x.focus.items.drop x.index) ++
        afterAll x.frames := by
  rw [inorder_plugAll, place, hx.leaf hf, inorder_leaf]; rfl

theorem uniform_placed (hu : Uniform h t) (hx : IsPath (findKeyInNode item.key) t x)
    (hf : x.found = false) : Uniform h (plugAll x.frames (place item x.index x.focus)) := by
  have hu' := hu
  rw [← hx.eq] at hu'
  obtain ⟨k, hk, hfocus⟩ := uniform_of_plugAll hu'
  obtain rfl : k = 0 := hfocus.zero_of_children (hx.leaf hf)
  exact uniform_plugAll hu' hk (uniform_place item x.index hfocus)

/-- **`put` of an absent key keeps the tree uniform and sorted**, whatever it loses. -/
theorem putOutline_sorted (hu : Uniform h t) (hs : Sorted KeyLt Item.key t.inorder)
    (hx : locate (findKeyInNode item.key) t = some x)
    (hpath : IsPath (findKeyInNode item.key) t x) (hf : x.found = false) :
    (∃ h', Uniform h' (putOutline o item t)) ∧
      Sorted KeyLt Item.key (putOutline o item t).inorder := by
  obtain ⟨hsub, hu'⟩ :=
    (growPath_coherent (o := o) (uniform_placed hu hpath hf)).growRoot (o := o) (q := ()) (r := ())
  rw [inorder_placed hpath hf] at hsub
  rw [putOutline_eq hx]
  exact ⟨hu', (hpath.sorted_insert (scans_findKeyInNode _) hs hf rfl).sublist hsub⟩

/-- **Without a double overflow `put` adds its item and loses nothing.** -/
theorem inorder_putOutline (hu : Uniform h t) (hx : locate (findKeyInNode item.key) t = some x)
    (hpath : IsPath (findKeyInNode item.key) t x) (hf : x.found = false)
    (hno : NoDoubleOverflow o x.frames (insertAt x.focus.items x.index item)) :
    (putOutline o item t).inorder = beforeAll x.frames ++
      (x.focus.items.take x.index ++ item :: x.focus.items.drop x.index) ++
        afterAll x.frames := by
  rw [← inorder_placed hpath hf, putOutline_eq hx]
  exact growRoot_growPath_inorder (uniform_placed hu hpath hf) hno

end Put

/-! ## When every split is defined and fits -/

/-- Every over-populated node of the path below the frames of `fs` has an item to
move up, and its parent has room for it. -/
def SplitSafe (cap : Capacity) (o : Options) : List (Frame π Item) → List Item → Prop
  | [], _ => True
  | f :: fs, its => SplitSafe cap o fs its ∧ (o.isOverPopulated (topItems fs its) →
      ∃ m ∈ middleItem o (topItems fs its),
        cap.room (insertAt f.items f.left.length m) (f.items.length + 2) = true)

/-- `put` of `item` stays defined and within the pages on the tree `t`. -/
def PutSafe (cap : Capacity) (o : Options) (item : Item) (t : Outline) : Prop :=
  ∀ x ∈ locate (findKeyInNode item.key) t,
    cap.room (insertAt x.focus.items x.index item) 0 = true ∧
    SplitSafe cap o x.frames (insertAt x.focus.items x.index item) ∧
    (o.isOverPopulated (topItems x.frames (insertAt x.focus.items x.index item)) →
      (middleItem o (topItems x.frames (insertAt x.focus.items x.index item))).isSome)

section Decide

variable (cap : Capacity) (o : Options)

instance decidableSplitSafe :
    ∀ (fs : List (Frame π Item)) (its : List Item), Decidable (SplitSafe cap o fs its)
  | [], _ => isTrue trivial
  | _ :: fs, its =>
    have := decidableSplitSafe fs its
    inferInstanceAs (Decidable (_ ∧ (_ → ∃ m ∈ middleItem o (topItems fs its), _)))

instance decidablePutSafe (item : Item) (t : Outline) : Decidable (PutSafe cap o item t) :=
  inferInstanceAs (Decidable (∀ x ∈ locate (findKeyInNode item.key) t, _ ∧ _ ∧ (_ → _)))

end Decide

theorem splitSafe_snoc {cap : Capacity} {o : Options} {gs : List (Frame π Item)} {f : Frame π Item}
    {its : List Item} : SplitSafe cap o (gs ++ [f]) its ↔ SplitSafe cap o gs f.items ∧
      (o.isOverPopulated its → ∃ m ∈ middleItem o its,
        cap.room (insertAt f.items f.left.length m) (f.items.length + 2) = true) := by
  induction gs with
  | nil => exact Iff.rfl
  | cons g gs ih =>
    rw [List.cons_append, SplitSafe, SplitSafe, ih, topItems_snoc, and_right_comm]

theorem exists_middle_top {cap : Capacity} {o : Options} {gs : List (Frame π Item)}
    {f : Frame π Item} {its : List Item} (hsafe : SplitSafe cap o (gs ++ [f]) its)
    (htop : o.isOverPopulated (topItems (gs ++ [f]) its) →
      (middleItem o (topItems (gs ++ [f]) its)).isSome) (hover : o.isOverPopulated f.items) :
    ∃ m, middleItem o f.items = some m := by
  rcases List.eq_nil_or_concat' gs with rfl | ⟨hs, g, rfl⟩
  · exact Option.isSome_iff_exists.mp (htop hover)
  · obtain ⟨m, hm, -⟩ := (splitSafe_snoc.mp (splitSafe_snoc.mp hsafe).1).2 hover
    exact ⟨m, hm⟩

theorem splitSafe_erase {cap : Capacity} {o : Options} (fs : List (Frame π Item))
    (its : List Item) : SplitSafe cap o (fs.map Frame.erase) its ↔ SplitSafe cap o fs its := by
  induction fs with
  | nil => exact Iff.rfl
  | cons f fs ih =>
    rw [List.map_cons, SplitSafe, SplitSafe, ih, topItems_erase, Frame.items_erase]
    simp [Frame.erase]

/-! ## What a double overflow costs -/

/-- The copy of the topmost node is out of date: the node below it was split. -/
def SplitBelow (o : Options) : List (Frame π Item) → List Item → Prop
  | [], _ => False
  | _ :: fs, its => o.isOverPopulated (topItems fs its)

theorem noDoubleOverflow_iff {o : Options} {fs : List (Frame π Item)} {its : List Item} :
    NoDoubleOverflow o fs its ↔ (SplitBelow o fs its → ¬o.isOverPopulated (topItems fs its)) ∧
      NoDoubleOverflow o fs.tail its := by
  cases fs with
  | nil => exact ⟨fun h => ⟨fun hf => hf.elim, h⟩, fun h => h.2⟩
  | cons f fs =>
    rw [noDoubleOverflow_cons]
    show _ ↔ (o.isOverPopulated (topItems fs its) → ¬o.isOverPopulated f.items) ∧ _
    rw [not_and, imp_not_comm]
    exact Iff.rfl

section Loss

variable {cap : Capacity} {o : Options} {x : Copies Unit} {leaf : Outline}
  {fs : List (Frame Unit Item)} {h k : Nat}

theorem cut_countP {p : Item → Bool} {q : π} {s : Tree π Item} {c : Cut π} (hc : cut o q s = some c)
    (hu : Uniform h s) (hm : p c.middle = true) :
    c.left.inorder.countP p < s.inorder.countP p := by
  rw [← cut_inorder hc hu.jointed, List.countP_append, List.countP_cons_of_pos hm]
  omega

/-- **What is missing in an outdated copy is lost when it is split**: by induction along
the path, copies never hold more than the pages.  Counted are the items with the property
`p`, which the items of all nodes of the path have. -/
theorem growFrom_loss (p : Item → Bool) (hu : Uniform (k + fs.length) (plugAll fs x.page))
    (hx : Coherent k x.page.inorder x) (hsafe : SplitSafe cap o fs x.copy.items)
    (hle : x.copy.inorder.countP p ≤ x.page.inorder.countP p)
    (hitem : ∀ a ∈ x.copy.items, p a = true) (hframes : ∀ f ∈ fs, ∀ a ∈ f.items, p a = true) :
    (growFrom o x fs).copy.inorder.countP p ≤ (growFrom o x fs).page.inorder.countP p ∧
    (SplitBelow o fs x.copy.items →
      (growFrom o x fs).copy.inorder.countP p < (plugAll fs x.page).inorder.countP p) ∧
    (¬NoDoubleOverflow o fs.tail x.copy.items →
      (growFrom o x fs).page.inorder.countP p < (plugAll fs x.page).inorder.countP p) := by
  induction fs with
  | nil => exact ⟨hle, fun hf => hf.elim, fun hno => (hno (.singleton _)).elim⟩
  | cons f fs ih =>
    obtain ⟨m, hm, -, hk⟩ := Frame.uniform_of_plug hu
    obtain rfl : k + fs.length = m := Nat.succ.inj hm
    obtain ⟨hle', hcopy, hpage⟩ := ih hk hsafe.1 fun g hg => hframes g (List.mem_cons_of_mem f hg)
    have hy := growFrom_coherent (o := o) hk hx
    have hitems : (growFrom o x fs).copy.items = topItems fs x.copy.items := items_copy_growFrom
    have htop : ∀ a ∈ topItems fs x.copy.items, p a = true := by
      cases fs with
      | nil => exact hitem
      | cons g fs => exact hframes g (List.mem_cons_of_mem f List.mem_cons_self)
    have hfull : (growFrom o x fs).page.inorder.countP p ≤ (plugAll fs x.page).inorder.countP p :=
      hy.page_inorder.countP_le
    have hin : ∀ u : Outline, (f.plug u).inorder.countP p =
        f.before.countP p + u.inorder.countP p + f.after.countP p := by
      intro u
      rw [Frame.inorder_plug, List.countP_append, List.countP_append]
    rw [plugAll_cons, hin]
    by_cases hover : o.isOverPopulated (topItems fs x.copy.items)
    · obtain ⟨m, hm, -⟩ := hsafe.2 hover
      obtain ⟨c, hc, rfl⟩ := exists_cut () (by rw [hitems]; exact hm)
      have hlt := cut_countP hc hy.copy_uniform (htop _ (mem_of_middleItem hm))
      have hnew := growRound_cut (q := ()) (f := f) (by rw [hitems]; exact hover) hc
      have hpagelen : ((f.addRight c.middle c.right).plug c.left).inorder.countP p =
          f.before.countP p + (growFrom o x fs).copy.inorder.countP p + f.after.countP p := by
        rw [← hin, inorder_plug_cut, Frame.inorder_plug, cut_inorder hc hy.copy_uniform.jointed]
      rw [growFrom, hnew]
      simp only [hin, hpagelen]
      refine ⟨by omega, fun _ => by omega, fun hno => ?_⟩
      rw [List.tail_cons, noDoubleOverflow_iff, not_and_or] at hno
      rcases hno with hno | hno
      · have hbelow : SplitBelow o fs x.copy.items := by
          by_contra hb
          exact hno fun h => (hb h).elim
        have := hcopy hbelow
        omega
      · have := hpage hno
        omega
    · have hnew := growRound_rest (q := ()) (f := f) (by rw [hitems]; exact hover)
      rw [growFrom, hnew]
      simp only [hin]
      refine ⟨Nat.le_refl _, fun hb => (hover hb).elim, fun hno => ?_⟩
      rw [List.tail_cons, noDoubleOverflow_iff, not_and_or] at hno
      rcases hno with hno | hno
      · exact (hno fun _ => hover).elim
      · have := hpage hno
        omega

/-- **A double overflow costs an item of the path.** -/
theorem growRoot_loss (p : Item → Bool) (hu : Uniform (k + fs.length) (plugAll fs x.page))
    (hx : Coherent k x.page.inorder x) (hsafe : SplitSafe cap o fs x.copy.items)
    (htop : o.isOverPopulated (topItems fs x.copy.items) →
      (middleItem o (topItems fs x.copy.items)).isSome)
    (hle : x.copy.inorder.countP p ≤ x.page.inorder.countP p)
    (hitem : ∀ a ∈ x.copy.items, p a = true) (hframes : ∀ f ∈ fs, ∀ a ∈ f.items, p a = true)
    (hno : ¬NoDoubleOverflow o fs x.copy.items) :
    (growRoot o () () (growFrom o x fs)).inorder.countP p <
      (plugAll fs x.page).inorder.countP p := by
  obtain ⟨hle', hcopy, hpage⟩ := growFrom_loss p hu hx hsafe hle hitem hframes
  have hitems : (growFrom o x fs).copy.items = topItems fs x.copy.items := items_copy_growFrom
  rw [noDoubleOverflow_iff, not_and_or] at hno
  by_cases hover : o.isOverPopulated (topItems fs x.copy.items)
  · obtain ⟨m, hm⟩ := Option.isSome_iff_exists.mp (htop hover)
    obtain ⟨c, hc, -⟩ := exists_cut () (by rw [hitems]; exact hm)
    rw [growRoot_cut (by rw [hitems]; exact hover) hc, inorder_newRoot,
      cut_inorder hc (growFrom_coherent hu hx).copy_uniform.jointed]
    rcases hno with hno | hno
    · have hbelow : SplitBelow o fs x.copy.items := by
        by_contra hb
        exact hno fun h => (hb h).elim
      exact hcopy hbelow
    · exact Nat.lt_of_le_of_lt hle' (hpage hno)
  · rw [growRoot_rest (by rw [hitems]; exact hover)]
    rcases hno with hno | hno
    · exact (hno fun _ => hover).elim
    · exact hpage hno

/-- **`put` keeps every item exactly if it meets no double overflow.** -/
theorem putOutline_keeps_iff {item : Item} {t : Outline} {x : Path Unit Item} (hu : Uniform h t)
    (hx : locate (findKeyInNode item.key) t = some x)
    (hpath : IsPath (findKeyInNode item.key) t x) (hf : x.found = false)
    (hsafe : PutSafe cap o item t) :
    (putOutline o item t).inorder.length = t.inorder.length + 1 ↔
      NoDoubleOverflow o x.frames (insertAt x.focus.items x.index item) := by
  have hup := uniform_placed hu hpath hf
  obtain ⟨-, hsplit, htop⟩ := hsafe x hx
  have hlen : (plugAll x.frames (place item x.index x.focus)).inorder.length =
      t.inorder.length + 1 := by
    rw [inorder_placed hpath hf, hpath.inorder, inorder_of_children_nil (hpath.leaf hf)]
    conv_rhs => rw [← List.take_append_drop x.index x.focus.items]
    simp only [List.length_append, List.length_cons]
    omega
  constructor
  · intro hkept
    by_contra hno
    obtain ⟨k, hk, hleaf⟩ := uniform_of_plugAll hup
    have hloss := growRoot_loss (x := ⟨place item x.index x.focus, place item x.index x.focus⟩)
      (fun _ => true) (hk ▸ hup) (.same hleaf) hsplit htop (Nat.le_refl _) (fun _ _ => rfl)
      (fun _ _ _ _ => rfl) hno
    rw [← growPath_eq, ← putOutline_eq hx, List.countP_true, hkept, hlen] at hloss
    exact absurd hloss (Nat.lt_irrefl _)
  · intro hno
    have hin := inorder_putOutline hu hx hpath hf hno
    rw [hin, ← inorder_placed hpath hf, hlen]

end Loss

/-! ## Whether the item of a put is among what is lost -/

/-- The split of a node moves what stands under a key up or to the right. -/
def Moves (o : Options) (its : List Item) (key : Bytes) : Prop :=
  o.isOverPopulated its ∧ ∀ m ∈ middleItem o its, ¬KeyLt key m.key

/-- No node of the path is over-populated whose child on the path moves the key. -/
def KeyStays (o : Options) (fs : List (Frame π Item)) (its : List Item) (key : Bytes) : Prop :=
  (pathItems fs its).IsChain fun a b => ¬(o.isOverPopulated a ∧ Moves o b key)

instance (o : Options) (its : List Item) (key : Bytes) : Decidable (Moves o its key) :=
  inferInstanceAs (Decidable (_ ∧ ∀ m ∈ middleItem o its, ¬KeyLt key m.key))

instance (o : Options) (fs : List (Frame π Item)) (its : List Item) (key : Bytes) :
    Decidable (KeyStays o fs its key) := inferInstanceAs (Decidable (List.IsChain _ _))

theorem keyStays_cons {o : Options} {f : Frame π Item} {fs : List (Frame π Item)}
    {its : List Item} {key : Bytes} : KeyStays o (f :: fs) its key ↔
      ¬(o.isOverPopulated f.items ∧ Moves o (topItems fs its) key) ∧ KeyStays o fs its key := by
  unfold KeyStays
  rw [pathItems, pathItems_eq_cons fs, List.isChain_cons_cons]

theorem keyStays_iff {o : Options} {fs : List (Frame π Item)} {its : List Item} {key : Bytes} :
    KeyStays o fs its key ↔ KeyStays o fs.tail its key ∧ (o.isOverPopulated (topItems fs its) →
      fs = [] ∨ ¬Moves o (topItems fs.tail its) key) := by
  cases fs with
  | nil => exact ⟨fun h => ⟨h, fun _ => Or.inl rfl⟩, fun h => h.1⟩
  | cons f fs =>
    rw [keyStays_cons, and_comm, not_and]
    simp [topItems]

theorem mem_left_iff {l₁ l₂ : List Item} {a m : Item} (hs : Sorted KeyLt Item.key (l₁ ++ m :: l₂)) :
    a ∈ l₁ ↔ a ∈ l₁ ++ m :: l₂ ∧ KeyLt a.key m.key := by
  obtain ⟨-, hr, hlr⟩ := Sorted.append_iff.mp hs
  constructor
  · exact fun ha => ⟨List.mem_append_left _ ha, hlr a ha m List.mem_cons_self⟩
  · rintro ⟨ha, hlt⟩
    rcases List.mem_append.mp ha with ha | ha
    · exact ha
    rcases List.mem_cons.mp ha with rfl | ha
    · exact absurd hlt (irrefl _)
    · exact absurd (keyLt_trans hlt ((List.pairwise_cons.mp hr).1 a ha)) (irrefl _)

section Stays

variable {cap : Capacity} {o : Options} {leaf : Outline} {fs : List (Frame Unit Item)} {h : Nat}
  {item : Item}

/-- **Where the item of a put is after the rounds**: on the page of the topmost node as long
as nothing below it has moved it under an over-populated node, and in its copy if the node
below has not moved it at all. -/
theorem mem_growPath_iff (hu : Uniform h (plugAll fs leaf))
    (hs : Sorted KeyLt Item.key (plugAll fs leaf).inorder) (hmem : item ∈ leaf.inorder)
    (hsafe : SplitSafe cap o fs leaf.items) :
    (item ∈ (growPath o leaf fs).page.inorder ↔ KeyStays o fs.tail leaf.items item.key) ∧
    (item ∈ (growPath o leaf fs).copy.inorder ↔ KeyStays o fs.tail leaf.items item.key ∧
      (fs = [] ∨ ¬Moves o (topItems fs.tail leaf.items) item.key)) := by
  induction fs generalizing h with
  | nil =>
    have hstays : KeyStays o ([] : List (Frame Unit Item)) leaf.items item.key := .singleton _
    exact ⟨iff_of_true hmem hstays, iff_of_true hmem ⟨hstays, Or.inl rfl⟩⟩
  | cons f fs ih =>
    obtain ⟨k, rfl, -, hk⟩ := Frame.uniform_of_plug hu
    rw [plugAll_cons, Frame.inorder_plug] at hs
    have hs' : Sorted KeyLt Item.key (plugAll fs leaf).inorder :=
      (Sorted.append_iff.mp (Sorted.append_iff.mp hs).1).2.1
    obtain ⟨hpage, hcopy⟩ := ih hk hs' hsafe.1
    have hx := growPath_coherent (o := o) hk
    have hitems : (growPath o leaf fs).copy.items = topItems fs leaf.items := items_copy_growPath
    -- the item stands below the frame, so it is not one of the frame's own
    have hout : ∀ l : List Item, item ∈ f.before ++ l ++ f.after ↔ item ∈ l := by
      have hin : item ∈ (plugAll fs leaf).inorder := by
        rw [inorder_plugAll]
        simp [hmem]
      obtain ⟨hba, -, hafter⟩ := Sorted.append_iff.mp hs
      have hbefore := (Sorted.append_iff.mp hba).2.2
      intro l
      refine ⟨fun hl => ?_, fun hl => List.mem_append_left _ (List.mem_append_right _ hl)⟩
      rcases List.mem_append.mp hl with hl | hl
      · rcases List.mem_append.mp hl with hl | hl
        · exact absurd (hbefore item hl item hin) (irrefl _)
        · exact hl
      · exact absurd (hafter item (List.mem_append_right _ hin) item hl) (irrefl _)
    by_cases hover : o.isOverPopulated (topItems fs leaf.items)
    · obtain ⟨m, hm, -⟩ := hsafe.2 hover
      obtain ⟨c, hc, rfl⟩ := exists_cut () (by rw [hitems]; exact hm)
      have hcut := cut_inorder hc hx.copy_uniform.jointed
      have hleft : item ∈ c.left.inorder ↔
          item ∈ (growPath o leaf fs).copy.inorder ∧ KeyLt item.key c.middle.key := by
        rw [← hcut]
        exact mem_left_iff (hcut ▸ hs'.sublist hx.copy_inorder)
      have hmoves : Moves o (topItems fs leaf.items) item.key ↔ ¬KeyLt item.key c.middle.key :=
        ⟨fun hmv => hmv.2 _ hm, fun hlt => ⟨hover, fun m' hm' => by
          obtain rfl := Option.some.inj (hm.symm.trans hm')
          exact hlt⟩⟩
      have hstays : KeyStays o fs leaf.items item.key ↔
          item ∈ (growPath o leaf fs).copy.inorder := by
        rw [keyStays_iff, hcopy]
        exact and_congr_right fun _ => ⟨fun h => h hover, fun h _ => h⟩
      rw [growPath, growRound_cut (by rw [hitems]; exact hover) hc]
      constructor
      · rw [inorder_plug_cut, hcut, hout, List.tail_cons, hstays]
      · rw [Frame.inorder_plug, hout, hleft, List.tail_cons, hstays, hmoves, not_not]
        simp
    · have hstays : KeyStays o fs leaf.items item.key ↔
          item ∈ (growPath o leaf fs).page.inorder := by
        rw [keyStays_iff, hpage]
        exact ⟨fun h => h.1, fun h => ⟨h, fun hov => absurd hov hover⟩⟩
      have hrest : ¬Moves o (topItems fs leaf.items) item.key := fun hmv => hover hmv.1
      rw [growPath, growRound_rest (by rw [hitems]; exact hover), Frame.inorder_plug, hout,
        List.tail_cons, hstays]
      exact ⟨Iff.rfl, fun h => ⟨h, Or.inr hrest⟩, fun h => h.1⟩

/-- **`put` keeps its own item exactly if no split moves its key under an over-populated
node.** -/
theorem mem_putOutline_iff {t : Outline} {x : Path Unit Item} (hu : Uniform h t)
    (hs : Sorted KeyLt Item.key t.inorder) (hx : locate (findKeyInNode item.key) t = some x)
    (hpath : IsPath (findKeyInNode item.key) t x) (hf : x.found = false)
    (hsafe : PutSafe cap o item t) : item ∈ (putOutline o item t).inorder ↔
      KeyStays o x.frames (insertAt x.focus.items x.index item) item.key := by
  have hup := uniform_placed hu hpath hf
  obtain ⟨-, hsplit, htop⟩ := hsafe x hx
  have hleaf : (place item x.index x.focus).inorder = insertAt x.focus.items x.index item := by
    rw [place, hpath.leaf hf, inorder_leaf]
  have hsorted : Sorted KeyLt Item.key
      (plugAll x.frames (place item x.index x.focus)).inorder := by
    rw [inorder_placed hpath hf]
    exact hpath.sorted_insert (scans_findKeyInNode _) hs hf rfl
  have hmem : item ∈ (place item x.index x.focus).inorder := by
    rw [hleaf, insertAt]
    simp
  obtain ⟨hpage, hcopy⟩ := mem_growPath_iff hup hsorted hmem hsplit
  have hitems : (growPath o (place item x.index x.focus) x.frames).copy.items =
      topItems x.frames (insertAt x.focus.items x.index item) := items_copy_growPath
  rw [putOutline_eq hx, keyStays_iff]
  by_cases hover : o.isOverPopulated (topItems x.frames (insertAt x.focus.items x.index item))
  · obtain ⟨m, hm⟩ := Option.isSome_iff_exists.mp (htop hover)
    obtain ⟨c, hc, -⟩ := exists_cut () (by rw [hitems]; exact hm)
    rw [growRoot_cut (by rw [hitems]; exact hover) hc, inorder_newRoot,
      cut_inorder hc (growPath_coherent hup).copy_uniform.jointed]
    exact hcopy.trans (and_congr_right fun _ => ⟨fun h _ => h, fun h => h hover⟩)
  · rw [growRoot_rest (by rw [hitems]; exact hover)]
    exact hpage.trans ⟨fun h => ⟨h, fun hov => absurd hov hover⟩, fun h => h.1⟩

end Stays

end Toocal
