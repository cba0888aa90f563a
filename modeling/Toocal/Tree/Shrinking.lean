import Toocal.Library.Siblings
import Toocal.Tree.Growing

/-!
# What `remove` does to a tree

`remove` takes an item out of a leaf, after putting the predecessor of the removed
item in its place if that one stood in an inner node (`takeOut`), and then repairs
the under-populated nodes of the path (`shrinkPath`).  A repair always merges: the
right rotation is undone by the merge after it, the left rotation leaves its mark
(`rebalance`).  A root that had no items when the path was read gives way to its
child (`collapse`).

* `removeOutline` is the whole of `remove` on a tree without page numbers.
* Shape and order are kept: `rebalance_uniform`, `inorder_rebalance`,
  `removeOutline_spec`.
* `RemoveSafe` says, on the nodes read, that `remove` takes no element from an empty
  list, writes no node that does not fit, and works on no copy that is out of date.
-/

namespace Toocal

open Outcomes Multiway Multiway.Tree

variable {π : Type}

/-! ## Repairing one node -/

/-- The node in the hole after the left rotation: a right neighbour that can spare an
element has given its first one. -/
def takeFromRight (o : Options) (u : Tree π Item) : List (Item × Tree π Item) → Tree π Item
  | (b, r) :: _ => if o.canSpareAnElement r.items then u.takeFirst b r else u
  | [] => u

/-- What stands to the right of the hole after the left rotation. -/
def rightAfter (o : Options) : List (Item × Tree π Item) → List (Item × Tree π Item)
  | (b, r) :: rs =>
    if o.canSpareAnElement r.items then (r.items.headD b, r.dropFirst) :: rs else (b, r) :: rs
  | [] => []

/-- The node the merge leaves in the hole. -/
def mergedNode (o : Options) (f : Frame π Item) (u : Tree π Item) : Tree π Item :=
  match f.left, f.right with
  | (l, a) :: _, right => l.join a (takeFromRight o u right)
  | [], (b, r) :: _ => u.join b r
  | [], [] => u

/-- The frame around the merged node. -/
def mergedFrame (o : Options) (f : Frame π Item) : Frame π Item :=
  match f.left with
  | _ :: ls => ⟨f.tag, ls, rightAfter o f.right⟩
  | [] => ⟨f.tag, [], f.right.tail⟩

/-- **`rebalance_remove` on the node in the hole of `f`.** -/
def rebalance (o : Options) (f : Frame π Item) (u : Tree π Item) : Tree π Item :=
  (mergedFrame o f).plug (mergedNode o f u)

theorem canSpare_ne_nil {o : Options} {its : List Item} (h : o.canSpareAnElement its = true) :
    ∃ z zs, its = z :: zs := by
  cases its with
  | nil => simp [Options.canSpareAnElement, Options.getSplitIndex, Options.getSplitIndexFrom] at h
  | cons z zs => exact ⟨z, zs, rfl⟩

section LeftRotation

variable {o : Options} {u : Tree π Item} {right : List (Item × Tree π Item)} {h : Nat}

theorem leftRotation_cases (o : Options) (u : Tree π Item) (right : List (Item × Tree π Item)) :
    (∃ b r z zs rs, right = (b, r) :: rs ∧ o.canSpareAnElement r.items = true ∧
      r.items = z :: zs ∧ takeFromRight o u right = u.takeFirst b r ∧
      rightAfter o right = (z, r.dropFirst) :: rs) ∨
    (takeFromRight o u right = u ∧ rightAfter o right = right ∧
      ∀ x ∈ right.head?, o.canSpareAnElement x.2.items = false) := by
  cases right with
  | nil => exact Or.inr ⟨rfl, rfl, by simp⟩
  | cons x rs =>
    obtain ⟨b, r⟩ := x
    by_cases hs : o.canSpareAnElement r.items = true
    · obtain ⟨z, zs, hz⟩ := canSpare_ne_nil hs
      exact Or.inl ⟨b, r, z, zs, rs, rfl, hs, hz, by rw [takeFromRight, if_pos hs],
        by rw [rightAfter, if_pos hs, hz]; rfl⟩
    · refine Or.inr ⟨by rw [takeFromRight, if_neg hs], by rw [rightAfter, if_neg hs], ?_⟩
      simpa using hs

theorem tag_takeFromRight : (takeFromRight o u right).tag = u.tag := by
  rcases leftRotation_cases o u right with ⟨b, r, z, zs, rs, -, -, -, h, -⟩ | ⟨h, -⟩ <;> rw [h]
  rfl

theorem uniform_leftRotation (hu : Uniform h u) (hr : ∀ x ∈ right, Uniform h x.2) :
    Uniform h (takeFromRight o u right) ∧ ∀ x ∈ rightAfter o right, Uniform h x.2 := by
  rcases leftRotation_cases o u right with ⟨b, r, z, zs, rs, rfl, -, hz, h1, h2⟩ | ⟨h1, h2, -⟩
  · have hru : Uniform h r := hr (b, r) List.mem_cons_self
    rw [h1, h2]
    refine ⟨hu.takeFirst b hru, fun x hx => ?_⟩
    rcases List.mem_cons.mp hx with rfl | hx
    · exact hru.dropFirst (by rw [hz]; simp)
    · exact hr x (List.mem_cons_of_mem _ hx)
  · rw [h1, h2]
    exact ⟨hu, hr⟩

theorem jointed_leftRotation (hu : Jointed h u) (hr : ∀ x ∈ right.head?, Jointed h x.2) :
    Jointed h (takeFromRight o u right) := by
  rcases leftRotation_cases o u right with ⟨b, r, z, zs, rs, rfl, -, -, h1, -⟩ | ⟨h1, -⟩
  · rw [h1]
    exact hu.takeFirst b (hr (b, r) rfl)
  · rw [h1]
    exact hu

theorem inorder_leftRotation (hu : Jointed h u) (hr : ∀ x ∈ right.head?, Jointed h x.2) :
    (takeFromRight o u right).inorder ++
        ((rightAfter o right).flatMap fun x => x.1 :: inorder x.2) =
      u.inorder ++ right.flatMap fun x => x.1 :: inorder x.2 := by
  rcases leftRotation_cases o u right with ⟨b, r, z, zs, rs, rfl, -, hz, h1, h2⟩ | ⟨h1, h2, -⟩
  · have hru : Jointed h r := hr (b, r) rfl
    have hshift := congrArg (· ++ rs.flatMap fun x => x.1 :: inorder x.2)
      (inorder_shift (b := b) hu hru hz)
    simpa only [h1, h2, List.flatMap_cons, List.append_assoc, List.cons_append] using hshift
  · rw [h1, h2]

theorem takeFromRight_erase :
    (takeFromRight o u right).erase =
      takeFromRight o u.erase (right.map fun x => (x.1, x.2.erase)) := by
  cases right with
  | nil => rfl
  | cons x rs =>
    simp only [takeFromRight, List.map_cons, items_erase]
    split
    · rw [erase_takeFirst]
    · rfl

theorem rightAfter_erase :
    (rightAfter o right).map (fun x => (x.1, x.2.erase)) =
      rightAfter o (right.map fun x => (x.1, x.2.erase)) := by
  cases right with
  | nil => rfl
  | cons x rs =>
    simp only [rightAfter, List.map_cons, items_erase]
    split
    · rw [List.map_cons, erase_dropFirst]
    · rfl

end LeftRotation

section Rebalance

variable {o : Options} {f : Frame π Item} {u : Tree π Item} {h : Nat}

theorem siblings_right {x : Item × Tree π Item} (hx : x ∈ f.right) : x.2 ∈ f.siblings :=
  List.mem_append_right _ (List.mem_map_of_mem hx)

theorem siblings_left {x : Tree π Item × Item} (hx : x ∈ f.left) : x.1 ∈ f.siblings :=
  List.mem_append_left _ (List.mem_map_of_mem hx)

theorem items_rebalance : (rebalance o f u).items = (mergedFrame o f).items := rfl

theorem tag_rebalance : (rebalance o f u).tag = f.tag := by
  unfold rebalance mergedFrame
  cases f.left <;> rfl

theorem rebalance_uniform (hs : ∀ c ∈ f.siblings, Uniform h c) (hu : Uniform h u) :
    Uniform (h + 1) (rebalance o f u) := by
  obtain ⟨p, left, right⟩ := f
  have hr : ∀ x ∈ right, Uniform h x.2 := fun x hx => hs x.2 (siblings_right (f := ⟨p, left, right⟩) hx)
  cases left with
  | cons x ls =>
    obtain ⟨l, a⟩ := x
    have hl : Uniform h l := hs l (siblings_left (f := ⟨p, (l, a) :: ls, right⟩) List.mem_cons_self)
    obtain ⟨hu', hr'⟩ := uniform_leftRotation (o := o) hu hr
    refine Frame.uniform_plug (fun c hc => ?_) (hl.join a hu')
    simp only [mergedFrame, Frame.siblings, List.mem_append, List.mem_map] at hc
    rcases hc with ⟨x, hx, rfl⟩ | ⟨x, hx, rfl⟩
    · exact hs _ (siblings_left (f := ⟨p, (l, a) :: ls, right⟩) (List.mem_cons_of_mem _ hx))
    · exact hr' x hx
  | nil =>
    cases right with
    | nil => exact Frame.uniform_plug (by simp [mergedFrame, Frame.siblings]) hu
    | cons x rs =>
      obtain ⟨b, r⟩ := x
      refine Frame.uniform_plug (fun c hc => ?_) (hu.join b (hr (b, r) List.mem_cons_self))
      simp only [mergedFrame, Frame.siblings, List.mem_append, List.mem_map, List.tail_cons] at hc
      rcases hc with ⟨x, hx, rfl⟩ | ⟨x, hx, rfl⟩
      · cases hx
      · exact hr x (List.mem_cons_of_mem _ hx)

/-- **The repair loses nothing.** -/
theorem inorder_rebalance (hs : f.Beside h) (hu : Jointed h u) :
    (rebalance o f u).inorder = (f.plug u).inorder := by
  obtain ⟨p, left, right⟩ := f
  have hr : ∀ x ∈ right.head?, Jointed h x.2 := hs.2
  rw [rebalance, Frame.inorder_plug, Frame.inorder_plug]
  cases left with
  | cons x ls =>
    obtain ⟨l, a⟩ := x
    have hl : Jointed h l := hs.1 (l, a) rfl
    have hrot := inorder_leftRotation (o := o) hu hr
    have hjoin := inorder_join hl a (jointed_leftRotation (o := o) hu hr)
    simp only [mergedFrame, mergedNode, Frame.after, Frame.before, hjoin]
    simp only [List.reverse_cons, List.flatMap_append, List.flatMap_cons, List.flatMap_nil,
      List.append_nil, List.append_assoc, List.cons_append, hrot, List.nil_append]
  | nil =>
    cases right with
    | nil => rfl
    | cons x rs =>
      obtain ⟨b, r⟩ := x
      have hjoin := inorder_join hu b (hr (b, r) rfl)
      simp [mergedFrame, mergedNode, Frame.after, Frame.before, hjoin]

theorem mergedNode_erase :
    (mergedNode o f u).erase = mergedNode o f.erase u.erase := by
  obtain ⟨p, left, right⟩ := f
  cases left with
  | cons x ls => simp [mergedNode, Frame.erase, takeFromRight_erase]
  | nil => cases right <;> simp [mergedNode, Frame.erase]

theorem mergedFrame_erase : (mergedFrame o f).erase = mergedFrame o f.erase := by
  obtain ⟨p, left, right⟩ := f
  cases left <;> simp [mergedFrame, Frame.erase, rightAfter_erase]

theorem rebalance_erase : (rebalance o f u).erase = rebalance o f.erase u.erase := by
  rw [rebalance, Frame.erase_plug, mergedNode_erase, mergedFrame_erase]; rfl

end Rebalance

/-! ## Taking the item out -/

/-- The path to the rightmost leaf. -/
def rightmost (t : Tree π Item) : Option (Path π Item) := locate (fun its => (false, its.length)) t

/-- The path and its focus after the item a search has found is taken out: out of the
focus, if it is a leaf, and otherwise by way of its predecessor. -/
def takeOut (x : Path π Item) : Option (List (Frame π Item) × Tree π Item) :=
  if x.focus.children.isEmpty then
    some (x.frames, .node x.focus.tag (x.focus.items.eraseIdx x.index) x.focus.children)
  else do
    let c ← x.focus.children[x.index]?
    let y ← rightmost c
    let pred ← y.focus.items.getLast?
    return (x.frames ++ Frame.ofNode x.focus.tag (x.focus.items.set x.index pred)
        x.focus.children x.index :: y.frames,
      .node y.focus.tag y.focus.items.dropLast y.focus.children)

theorem takeOut_leaf {x : Path π Item} (h : x.focus.children = []) : takeOut x =
    some (x.frames, .node x.focus.tag (x.focus.items.eraseIdx x.index) []) := by
  rw [takeOut, h]; rfl

/-- The way to what stands before item `i` of an inner node: `y` is the path from the child
to the left of the item to its rightmost leaf. -/
structure LeadsDown (u : Tree π Item) (i : Nat) (c : Tree π Item) (y : Path π Item) : Prop where
  child : u.children[i]? = some c
  path : rightmost c = some y

/-- What comes in the place of the item: `pred` is the last item of that leaf. -/
structure PullsUp (u : Tree π Item) (i : Nat) (c : Tree π Item) (y : Path π Item) (pred : Item) :
    Prop extends LeadsDown u i c y where
  last : y.focus.items.getLast? = some pred

/-- The node with the predecessor in the place of its item, above the path. -/
def pulledPath (u : Tree π Item) (i : Nat) (y : Path π Item) (pred : Item) : List (Frame π Item) :=
  Frame.ofNode u.tag (u.items.set i pred) u.children i :: y.frames

/-- The leaf without its last item. -/
def pulledLeaf (y : Path π Item) : Tree π Item :=
  .node y.focus.tag y.focus.items.dropLast y.focus.children

theorem takeOut_inner {x : Path π Item} (h : x.focus.children ≠ [])
    {p : List (Frame π Item) × Tree π Item} (hp : takeOut x = some p) :
    ∃ c y pred, PullsUp x.focus x.index c y pred ∧
      p = (x.frames ++ pulledPath x.focus x.index y pred, pulledLeaf y) := by
  have hne : x.focus.children.isEmpty = false := by simpa using h
  rw [takeOut, hne] at hp
  obtain ⟨c, hc, hp⟩ := Option.bind_eq_some_iff.mp hp
  obtain ⟨y, hy, hp⟩ := Option.bind_eq_some_iff.mp hp
  obtain ⟨pred, hpred, hp⟩ := Option.bind_eq_some_iff.mp hp
  exact ⟨c, y, pred, ⟨⟨hc, hy⟩, hpred⟩, (Option.some.inj hp).symm⟩

theorem takeOut_none {x : Path π Item} {c : Tree π Item} {y : Path π Item}
    (h : x.focus.children ≠ []) (hdown : LeadsDown x.focus x.index c y) (hnone : takeOut x = none) :
    y.focus.items.getLast? = none := by
  rw [takeOut, if_neg (by simpa using h), hdown.child] at hnone
  cases hl : y.focus.items.getLast? with
  | none => rfl
  | some b => simp [hdown.path, hl] at hnone

theorem takeOut_erase (x : Path π Item) :
    takeOut x.erase = (takeOut x).map fun p => (p.1.map Frame.erase, p.2.erase) := by
  obtain ⟨fs, u, index, found⟩ := x
  simp only [takeOut, Path.erase, children_erase, items_erase, List.isEmpty_map]
  split
  · cases u; simp
  · rw [List.getElem?_map]
    cases u.children[index]? with
    | none => rfl
    | some c =>
      have hrm : rightmost c.erase = (rightmost c).map Path.erase := locate_erase c
      simp only [Option.map_some, Option.bind_eq_bind, Option.bind_some, hrm]
      cases rightmost c with
      | none => rfl
      | some y =>
        simp only [Option.map_some, Option.bind_some, Path.erase, items_erase]
        cases y.focus.items.getLast? with
        | none => rfl
        | some pred => simp [Frame.erase_ofNode]

theorem rightmost_spec {t : Tree π Item} {y : Path π Item} {h : Nat} (hu : Uniform h t)
    (hy : rightmost t = some y) : plugAll y.frames y.focus = t ∧
      (∀ f ∈ y.frames, f.right = []) ∧ y.focus.children = [] := by
  obtain ⟨y', hy', hpath⟩ :=
    locate_isPath (p := fun its : List Item => (false, its.length)) (fun _ => Nat.le_refl _) hu.regular
  obtain rfl : y' = y := Option.some.inj (hy'.symm.trans hy)
  refine ⟨hpath.eq, fun f hf => ?_, hpath.leaf ?_⟩
  · have := congrArg Prod.snd (hpath.down f hf)
    simp only [Frame.length_items] at this
    exact List.length_eq_zero_iff.mp (by omega)
  · exact (congrArg Prod.fst hpath.stop).symm

theorem afterAll_of_right_nil {fs : List (Frame π Item)} (h : ∀ f ∈ fs, f.right = []) :
    afterAll fs = [] := by
  induction fs with
  | nil => rfl
  | cons f fs ih =>
    rw [afterAll, ih fun g hg => h g (List.mem_cons_of_mem f hg), Frame.after,
      h f List.mem_cons_self]
    rfl

section TakeOut

variable {t : Tree π Item} {x : Path π Item} {h : Nat} {key : Bytes}
  {p : List (Frame π Item) × Tree π Item}

theorem before_ofNode_set (q : π) (its : List Item) (cs : List (Tree π Item)) (i : Nat) (a : Item) :
    (Frame.ofNode q (its.set i a) cs i).before = (Frame.ofNode q its cs i).before := by
  simp [Frame.before, Frame.ofNode, List.take_set_of_le]

theorem after_ofNode {q : π} {its : List Item} {cs : List (Tree π Item)} {i : Nat} {a : Item}
    (hl : cs.length = its.length + 1) (ha : its[i]? = some a) :
    ∃ rest, (Frame.ofNode q its cs i).after = a :: rest ∧
      ∀ b, (Frame.ofNode q (its.set i b) cs i).after = b :: rest := by
  obtain ⟨hi, rfl⟩ := List.getElem?_eq_some_iff.mp ha
  have hc : i + 1 < cs.length := by omega
  have hcs : cs.drop (i + 1) = cs[i + 1] :: cs.drop (i + 1 + 1) := List.drop_eq_getElem_cons hc
  have hits : its.drop i = its[i] :: its.drop (i + 1) := List.drop_eq_getElem_cons hi
  refine ⟨cs[i + 1].inorder ++ ((its.drop (i + 1)).zip (cs.drop (i + 1 + 1))).flatMap
    fun x => x.1 :: inorder x.2, ?_, fun b => ?_⟩
  · rw [Frame.after, Frame.ofNode]
    simp only [hits, hcs, List.zip_cons_cons, List.flatMap_cons, List.cons_append]
  · have hset : (its.set i b).drop i = b :: its.drop (i + 1) := by
      rw [List.drop_set, if_neg (by omega), Nat.sub_self, hits]; rfl
    rw [Frame.after, Frame.ofNode]
    simp only [hset, hcs, List.zip_cons_cons, List.flatMap_cons, List.cons_append]

section PullsUp

variable {u c : Tree π Item} {i m : Nat} {a pred : Item} {y : Path π Item}

theorem LeadsDown.spec (h : LeadsDown u i c y) (hu : Uniform (m + 1) u) :
    plugAll y.frames y.focus = c ∧ (∀ f ∈ y.frames, f.right = []) ∧ y.focus.children = [] :=
  rightmost_spec (hu.child (List.mem_of_getElem? h.child)) h.path

theorem exists_leadsDown (hu : Uniform (m + 1) u) (hi : i ≤ u.items.length) :
    ∃ c y, LeadsDown u i c y := by
  have hlt : i < u.children.length := by
    rw [hu.length_children]
    omega
  have hc : u.children[i]? = some u.children[i] := List.getElem?_eq_getElem hlt
  obtain ⟨y, hy, -⟩ := locate_isPath (p := fun its : List Item => (false, its.length))
    (fun _ => Nat.le_refl _) (hu.child (List.getElem_mem hlt)).regular
  exact ⟨_, y, hc, hy⟩

/-- **The predecessor takes the place of the item**: the item is gone, and nothing else. -/
theorem PullsUp.inorder (h : PullsUp u i c y pred) (hu : Uniform (m + 1) u)
    (ha : u.items[i]? = some a) : ∃ l₁ l₂, u.inorder = l₁ ++ a :: l₂ ∧
      (plugAll (pulledPath u i y pred) (pulledLeaf y)).inorder = l₁ ++ l₂ := by
  have hlen := hu.length_children
  obtain ⟨hyc, hyright, hyleaf⟩ := h.spec hu
  -- the frame of the node, before and after the predecessor is put in
  set g := Frame.ofNode u.tag u.items u.children i with hg
  have hplug : g.plug c = u := (Frame.plug_ofNode hlen h.child).trans (eta _)
  obtain ⟨rest, hafter, hafter'⟩ := after_ofNode (q := u.tag) hlen ha
  have hlast : y.focus.items.dropLast ++ [pred] = y.focus.items := by
    obtain ⟨init, hinit⟩ := List.getLast?_eq_some_iff.mp h.last
    rw [hinit, List.dropLast_concat]
  have hcin : c.inorder = beforeAll y.frames ++ y.focus.items.dropLast ++ [pred] := by
    rw [← hyc, inorder_plugAll, afterAll_of_right_nil hyright, inorder_of_children_nil hyleaf,
      List.append_nil, List.append_assoc, hlast]
  have hnew : (plugAll y.frames (pulledLeaf y)).inorder =
      beforeAll y.frames ++ y.focus.items.dropLast := by
    rw [inorder_plugAll, afterAll_of_right_nil hyright, pulledLeaf, hyleaf, inorder_leaf,
      List.append_nil]
  refine ⟨g.before ++ c.inorder, rest, ?_, ?_⟩
  · rw [← hplug, Frame.inorder_plug, hafter]
  · rw [pulledPath, plugAll_cons, Frame.inorder_plug, before_ofNode_set, hafter' pred, hnew, hcin,
      ← hg]
    simp

theorem PullsUp.uniform (h : PullsUp u i c y pred) (hu : Uniform (m + 1) u) :
    Uniform (m + 1) (plugAll (pulledPath u i y pred) (pulledLeaf y)) := by
  have hlen := hu.length_children
  have hcu : Uniform m c := hu.child (List.mem_of_getElem? h.child)
  obtain ⟨hyc, -, hyleaf⟩ := h.spec hu
  have hnode : Uniform (m + 1)
      ((Frame.ofNode u.tag (u.items.set i pred) u.children i).plug c) := by
    rw [Frame.plug_ofNode (by simpa using hlen) h.child]
    exact .inner _ _ _ (by simpa using hlen) fun s hs => hu.child hs
  obtain ⟨m', hm', hsib, -⟩ := Frame.uniform_of_plug hnode
  obtain rfl : m = m' := by omega
  refine Frame.uniform_plug hsib ?_
  have hyu : Uniform m (plugAll y.frames y.focus) := by rw [hyc]; exact hcu
  obtain ⟨j, hj, hju⟩ := uniform_of_plugAll hyu
  obtain rfl : j = 0 := hju.zero_of_children hyleaf
  refine uniform_plugAll hyu hj ?_
  rw [pulledLeaf, hyleaf]
  exact .leaf _ _

theorem PullsUp.leaf (h : PullsUp u i c y pred) (hu : Uniform (m + 1) u) :
    (pulledLeaf y).children = [] := (h.spec hu).2.2

end PullsUp

/-- **Taking out removes one item and keeps the shape.** -/
theorem takeOut_spec (hu : Uniform h t) (hx : IsPath (findKeyInNode key) t x)
    (hf : x.found = true) (hp : takeOut x = some p) :
    (∃ l₁ a l₂, t.inorder = l₁ ++ a :: l₂ ∧ a.key = key ∧
      (plugAll p.1 p.2).inorder = l₁ ++ l₂) ∧
    Uniform h (plugAll p.1 p.2) ∧ p.2.children = [] := by
  obtain ⟨a, ha, hk⟩ := (scans_findKeyInNode key).hit (hf ▸ hx.stop)
  have hupath : Uniform h (plugAll x.frames x.focus) := by rw [hx.eq]; exact hu
  obtain ⟨k, hdepth, hfocus⟩ := uniform_of_plugAll hupath
  by_cases hleaf : x.focus.children = []
  · obtain rfl := Option.some.inj ((takeOut_leaf hleaf).symm.trans hp)
    obtain rfl : k = 0 := hfocus.zero_of_children hleaf
    obtain ⟨hi, rfl⟩ := List.getElem?_eq_some_iff.mp ha
    refine ⟨⟨beforeAll x.frames ++ x.focus.items.take x.index, _,
      x.focus.items.drop (x.index + 1) ++ afterAll x.frames, ?_, hk, ?_⟩,
      uniform_plugAll hupath hdepth (.leaf _ _), rfl⟩
    · have hits : x.focus.items = x.focus.items.take x.index ++
          x.focus.items[x.index] :: x.focus.items.drop (x.index + 1) := by simp
      rw [hx.inorder, inorder_of_children_nil hleaf]
      conv_lhs => rw [hits]
      simp only [List.append_assoc, List.cons_append]
    · rw [inorder_plugAll, inorder_leaf, List.eraseIdx_eq_take_drop_succ]
      simp
  · obtain ⟨c, y, pred, hpull, rfl⟩ := takeOut_inner hleaf hp
    obtain ⟨m, rfl⟩ : ∃ m, k = m + 1 := by
      cases k with
      | zero => exact absurd hfocus.children_eq_nil hleaf
      | succ m => exact ⟨m, rfl⟩
    obtain ⟨l₁, l₂, hin, hin'⟩ := hpull.inorder hfocus ha
    refine ⟨⟨beforeAll x.frames ++ l₁, a, l₂ ++ afterAll x.frames, ?_, hk, ?_⟩, ?_,
      hpull.leaf hfocus⟩
    · rw [hx.inorder, hin]
      simp only [List.append_assoc, List.cons_append]
    · rw [plugAll_append, inorder_plugAll, hin']
      simp only [List.append_assoc]
    · rw [plugAll_append]
      exact uniform_plugAll hupath hdepth (hpull.uniform hfocus)

theorem tag_takeOut (hx : IsPath (findKeyInNode key) t x) (hp : takeOut x = some p) :
    (plugAll p.1 p.2).tag = t.tag := by
  rw [← hx.eq]
  by_cases hleaf : x.focus.children = []
  · obtain rfl := Option.some.inj ((takeOut_leaf hleaf).symm.trans hp)
    cases x.frames <;> rfl
  · obtain ⟨c, y, pred, -, rfl⟩ := takeOut_inner hleaf hp
    rw [plugAll_append]
    cases x.frames <;> rfl

theorem tags_takeOut (hu : Uniform h t) (hx : IsPath (findKeyInNode key) t x)
    (hp : takeOut x = some p) : (plugAll p.1 p.2).tags.Perm t.tags := by
  have hupath : Uniform h (plugAll x.frames x.focus) := by rw [hx.eq]; exact hu
  obtain ⟨k, -, hfocus⟩ := uniform_of_plugAll hupath
  rw [← hx.eq]
  by_cases hleaf : x.focus.children = []
  · obtain rfl := Option.some.inj ((takeOut_leaf hleaf).symm.trans hp)
    apply tags_plugAll_congr
    rw [tags_eq x.focus, hleaf, tags_node]
  · obtain ⟨c, y, pred, hpull, rfl⟩ := takeOut_inner hleaf hp
    obtain ⟨m, rfl⟩ : ∃ m, k = m + 1 := by
      cases k with
      | zero => exact absurd hfocus.children_eq_nil hleaf
      | succ m => exact ⟨m, rfl⟩
    rw [plugAll_append]
    apply tags_plugAll_congr
    -- below the node the leaf has lost an item, in the node one has become another
    set g := Frame.ofNode x.focus.tag (x.focus.items.set x.index pred) x.focus.children x.index
    have hbelow : (plugAll y.frames (pulledLeaf y)).tags.Perm c.tags := by
      rw [← (hpull.spec hfocus).1]
      apply tags_plugAll_congr
      rw [tags_eq y.focus, pulledLeaf, tags_node]
    have hplug : (g.plug c).tags = x.focus.tags := by
      rw [Frame.plug_ofNode (by simpa using hfocus.length_children) hpull.child, tags_node, tags_eq]
    have hcongr : (g.plug (plugAll y.frames (pulledLeaf y))).tags.Perm (g.plug c).tags :=
      tags_plugAll_congr [g] hbelow
    rw [hplug] at hcongr
    exact hcongr

/-- A root with children keeps its item count: its item, if it was one, has been replaced. -/
theorem length_takeOut {f : Frame π Item} {fs : List (Frame π Item)} {leaf : Tree π Item}
    (hu : Uniform h t) (hx : IsPath (findKeyInNode key) t x)
    (hp : takeOut x = some (f :: fs, leaf)) : f.items.length = t.items.length := by
  have hcons : ∀ g gs, x.frames = g :: gs → g.items.length = t.items.length := by
    intro g gs hg
    rw [← hx.eq, hg, plugAll_cons, Frame.items_plug]
  by_cases hleaf : x.focus.children = []
  · obtain ⟨hfs, -⟩ := Prod.mk.inj (Option.some.inj ((takeOut_leaf hleaf).symm.trans hp))
    exact hcons f fs hfs
  · obtain ⟨c, y, pred, hpull, heq⟩ := takeOut_inner hleaf hp
    obtain ⟨hfs, -⟩ := Prod.mk.inj heq
    cases hframes : x.frames with
    | cons g gs =>
      rw [hframes] at hfs
      obtain ⟨rfl, -⟩ := List.cons.inj hfs
      exact hcons f gs hframes
    | nil =>
      rw [hframes] at hfs
      obtain ⟨rfl, -⟩ := List.cons.inj hfs
      have hfocus : x.focus = t := by rw [← hx.eq, hframes]; rfl
      have hlen : t.children.length = t.items.length + 1 := hu.length_of_children (hfocus ▸ hleaf)
      rw [hfocus, Frame.items_ofNode (by simpa using hlen) (hfocus ▸ hpull.child), List.length_set]

theorem takeOut_nil {leaf : Tree π Item} (hx : IsPath (findKeyInNode key) t x)
    (hp : takeOut x = some ([], leaf)) : t.children = [] := by
  by_cases hleaf : x.focus.children = []
  · obtain ⟨hframes, -⟩ := Prod.mk.inj (Option.some.inj ((takeOut_leaf hleaf).symm.trans hp))
    rw [← hx.eq, hframes]
    exact hleaf
  · obtain ⟨c, y, pred, -, heq⟩ := takeOut_inner hleaf hp
    exact absurd (Prod.mk.inj heq).1.symm (by simp [pulledPath])

end TakeOut

/-! ## The rounds of `remove` -/

/-- All rounds, on the path above a leaf.  Which node is under-populated is decided on
the nodes as they were read. -/
def shrinkPath (o : Options) (leaf : Tree π Item) : List (Frame π Item) → Tree π Item
  | [] => leaf
  | f :: fs =>
    if o.isUnderPopulated (topItems fs leaf.items) then rebalance o f (shrinkPath o leaf fs)
    else f.plug (shrinkPath o leaf fs)

/-- The end of `remove`: a root that was read without items gives way to its child. -/
def collapse (rootItems : List Item) (t : Tree π Item) : Tree π Item :=
  if rootItems.isEmpty then t.children.headD t else t

/-- **`remove` on the tree under the root.** -/
def removeOutline (o : Options) (key : Bytes) (t : Tree π Item) : Tree π Item :=
  match locate (findKeyInNode key) t with
  | some x =>
    if x.found then
      match takeOut x with
      | some (fs, leaf) => collapse (topItems fs leaf.items) (shrinkPath o leaf fs)
      | none => t
    else t
  | none => t

/-! ## When every repair is defined and works on current copies -/

/-- The parent after a right rotation: the last item of a left neighbour that can
spare it has come up. -/
def afterRightRotation (o : Options) (f : Frame π Item) : List Item :=
  match f.left with
  | (l, a) :: _ =>
    if o.canSpareAnElement l.items then f.items.set (f.left.length - 1) (l.items.getLastD a)
    else f.items
  | [] => f.items

/-- The parent after both rotations. -/
def afterRotations (o : Options) (f : Frame π Item) : List Item :=
  match f.right with
  | (b, r) :: _ =>
    if o.canSpareAnElement r.items then
      (afterRightRotation o f).set f.left.length (r.items.headD b)
    else afterRightRotation o f
  | [] => afterRightRotation o f

/-- A repair finds a sibling, and every node it writes fits its page. -/
structure RebalanceFits (cap : Capacity) (o : Options) (f : Frame π Item) (u : Tree π Item) :
    Prop where
  sibling : f.siblings ≠ []
  right : cap.room (afterRightRotation o f) (f.items.length + 1) = true
  left : cap.room (afterRotations o f) (f.items.length + 1) = true
  merged : cap.room (mergedNode o f u).items (mergedNode o f u).children.length = true

/-- The copy of the topmost node is out of date: the node below it was repaired. -/
def Outdated (o : Options) : List (Frame π Item) → List Item → Prop
  | [], _ => False
  | _ :: fs, its => o.isUnderPopulated (topItems fs its)

/-- Every repair of the path is defined and fits its pages, and no repair uses a copy
that is out of date.  The one repair that does not use its copy at all is that of a
leftmost child whose right neighbour can spare nothing: the merge reads it again. -/
def ShrinkSafe (cap : Capacity) (o : Options) (leaf : Tree π Item) : List (Frame π Item) → Prop
  | [] => True
  | f :: fs => ShrinkSafe cap o leaf fs ∧ (o.isUnderPopulated (topItems fs leaf.items) →
      RebalanceFits cap o f (shrinkPath o leaf fs) ∧ (Outdated o fs leaf.items →
        f.left = [] ∧ ∀ x ∈ f.right.head?, o.canSpareAnElement x.2.items = false))

/-- `remove` of `key` stays defined, within the pages, and on current copies. -/
def RemoveSafe (cap : Capacity) (o : Options) (key : Bytes) (t : Tree π Item) : Prop :=
  ∀ x ∈ locate (findKeyInNode key) t, x.found = true → ∃ p ∈ takeOut x,
    (∀ f ∈ p.1, cap.room f.items (f.items.length + 1) = true) ∧ ShrinkSafe cap o p.2 p.1

section Decide

variable (cap : Capacity) (o : Options)

instance decidableRebalanceFits (f : Frame π Item) (u : Tree π Item) :
    Decidable (RebalanceFits cap o f u) :=
  decidable_of_iff (f.siblings ≠ [] ∧ cap.room (afterRightRotation o f) (f.items.length + 1) = true ∧
      cap.room (afterRotations o f) (f.items.length + 1) = true ∧
      cap.room (mergedNode o f u).items (mergedNode o f u).children.length = true)
    ⟨fun ⟨h, hr, hl, hm⟩ => ⟨h, hr, hl, hm⟩, fun h => ⟨h.sibling, h.right, h.left, h.merged⟩⟩

instance decidableOutdated : ∀ (fs : List (Frame π Item)) (its : List Item), Decidable (Outdated o fs its)
  | [], _ => isFalse id
  | _ :: fs, its => inferInstanceAs (Decidable (o.isUnderPopulated (topItems fs its)))

instance decidableShrinkSafe (leaf : Tree π Item) : ∀ fs, Decidable (ShrinkSafe cap o leaf fs)
  | [] => isTrue trivial
  | _ :: fs =>
    have := decidableShrinkSafe leaf fs
    inferInstanceAs (Decidable (_ ∧ (_ → _ ∧ (_ → _ ∧ _))))

instance decidableRemoveSafe (key : Bytes) (t : Tree π Item) : Decidable (RemoveSafe cap o key t) :=
  inferInstanceAs (Decidable (∀ x ∈ locate (findKeyInNode key) t, _ → ∃ p ∈ takeOut x, _ ∧ _))

end Decide

section Shrink

variable {cap : Capacity} {o : Options} {leaf : Tree π Item} {fs : List (Frame π Item)} {h : Nat}

/-- **The rounds keep the shape and lose nothing**: by induction along the path, with
one repair as the step. -/
theorem shrinkPath_spec (hu : Uniform h (plugAll fs leaf)) :
    Uniform h (shrinkPath o leaf fs) ∧
      (shrinkPath o leaf fs).inorder = (plugAll fs leaf).inorder := by
  induction fs generalizing h with
  | nil => exact ⟨hu, rfl⟩
  | cons f fs ih =>
    obtain ⟨k, rfl, hs, hk⟩ := Frame.uniform_of_plug hu
    obtain ⟨hu', hin⟩ := ih hk
    have hplug : (f.plug (shrinkPath o leaf fs)).inorder = (plugAll (f :: fs) leaf).inorder := by
      rw [plugAll_cons, Frame.inorder_plug, Frame.inorder_plug, hin]
    rw [shrinkPath]
    split
    · exact ⟨rebalance_uniform hs hu',
        (inorder_rebalance (Frame.beside_of_uniform hs) hu'.jointed).trans hplug⟩
    · exact ⟨Frame.uniform_plug hs hu', hplug⟩

theorem tag_shrinkPath : (shrinkPath o leaf fs).tag = (plugAll fs leaf).tag := by
  cases fs with
  | nil => rfl
  | cons f fs =>
    rw [shrinkPath]
    split
    · exact tag_rebalance
    · rfl

theorem shrinkPath_erase : (shrinkPath o leaf fs).erase =
    shrinkPath o leaf.erase (fs.map Frame.erase) := by
  induction fs with
  | nil => rfl
  | cons f fs ih =>
    rw [List.map_cons, shrinkPath, shrinkPath, items_erase, topItems_erase]
    split
    · rw [rebalance_erase, ih]
    · rw [Frame.erase_plug, ih]

theorem collapse_erase (its : List Item) (t : Tree π Item) :
    (collapse its t).erase = collapse its t.erase := by
  unfold collapse
  split
  · rw [children_erase]
    cases t.children <;> rfl
  · rfl

theorem collapse_leaf {its : List Item} {t : Tree π Item} (h : t.children = []) :
    collapse its t = t := by
  unfold collapse
  rw [h]
  split <;> rfl

theorem siblings_eq_nil {f : Frame π Item} (h : f.items = []) : f.siblings = [] := by
  have hlen := f.length_items
  rw [h, List.length_nil] at hlen
  have hl : f.left = [] := List.length_eq_zero_iff.mp (by omega)
  have hr : f.right = [] := List.length_eq_zero_iff.mp (by omega)
  simp [Frame.siblings, hl, hr]

/-- A root frame without items: its node has one child, which no safe run repairs. -/
theorem shrinkPath_collapsed {f : Frame π Item} (hsafe : ShrinkSafe cap o leaf (f :: fs))
    (hf : f.items = []) : ¬o.isUnderPopulated (topItems fs leaf.items) ∧
      shrinkPath o leaf (f :: fs) = f.plug (shrinkPath o leaf fs) ∧
      collapse (topItems (f :: fs) leaf.items) (shrinkPath o leaf (f :: fs)) =
        shrinkPath o leaf fs := by
  have hnot : ¬o.isUnderPopulated (topItems fs leaf.items) := fun hunder =>
    (hsafe.2 hunder).1.sibling (siblings_eq_nil hf)
  have hplug : shrinkPath o leaf (f :: fs) = f.plug (shrinkPath o leaf fs) := by
    rw [shrinkPath, if_neg hnot]
  have hlen := f.length_items
  rw [hf, List.length_nil] at hlen
  have hl : f.left = [] := List.length_eq_zero_iff.mp (by omega)
  refine ⟨hnot, hplug, ?_⟩
  have hempty : (topItems (f :: fs) leaf.items).isEmpty = true := by
    rw [topItems, hf]; rfl
  rw [collapse, if_pos hempty, hplug, Frame.children_plug, hl]
  rfl

/-- **The rounds and the collapse of the root keep the shape and lose nothing.** -/
theorem collapse_spec (hu : Uniform h (plugAll fs leaf)) (hsafe : ShrinkSafe cap o leaf fs)
    (hleaf : leaf.children = []) :
    (∃ h', Uniform h' (collapse (topItems fs leaf.items) (shrinkPath o leaf fs))) ∧
      (collapse (topItems fs leaf.items) (shrinkPath o leaf fs)).inorder =
        (plugAll fs leaf).inorder := by
  obtain ⟨hu', hin⟩ := shrinkPath_spec (o := o) hu
  cases fs with
  | nil =>
    rw [topItems, shrinkPath, collapse_leaf hleaf]
    exact ⟨⟨h, hu⟩, rfl⟩
  | cons f fs =>
    by_cases hf : f.items = []
    · obtain ⟨-, hplug, hc⟩ := shrinkPath_collapsed hsafe hf
      rw [hplug] at hu' hin
      obtain ⟨k, -, -, hk⟩ := Frame.uniform_of_plug hu'
      have hlen := f.length_items
      rw [hf, List.length_nil] at hlen
      have hl : f.left = [] := List.length_eq_zero_iff.mp (by omega)
      have hr : f.right = [] := List.length_eq_zero_iff.mp (by omega)
      rw [hc, ← hin, Frame.inorder_plug, Frame.before, Frame.after, hl, hr]
      exact ⟨⟨k, hk⟩, by simp⟩
    · have hc : ¬(topItems (f :: fs) leaf.items).isEmpty = true := by simpa [topItems] using hf
      rw [collapse, if_neg hc]
      exact ⟨⟨h, hu'⟩, hin⟩

end Shrink

/-! ## `remove` as a whole -/

section Remove

variable {cap : Capacity} {o : Options} {t : Tree π Item} {x : Path π Item} {h : Nat} {key : Bytes}
  {p : List (Frame π Item) × Tree π Item}

theorem removeOutline_eq (hx : locate (findKeyInNode key) t = some x) (hf : x.found = true)
    (hp : takeOut x = some p) : removeOutline o key t =
      collapse (topItems p.1 p.2.items) (shrinkPath o p.2 p.1) := by
  rw [removeOutline, hx]
  simp only [if_pos hf, hp]

theorem collapse_kept (hu : Uniform h t) (hpath : IsPath (findKeyInNode key) t x)
    (hf : x.found = true) (hp : takeOut x = some p) (hkeeps : t.children = [] ∨ t.items ≠ []) :
    collapse (topItems p.1 p.2.items) (shrinkPath o p.2 p.1) = shrinkPath o p.2 p.1 := by
  obtain ⟨-, hup, hleaf⟩ := takeOut_spec hu hpath hf hp
  obtain ⟨fs, leaf⟩ := p
  cases fs with
  | nil => exact collapse_leaf hleaf
  | cons f fs =>
    have hitems : t.items ≠ [] := by
      refine hkeeps.resolve_left fun hnil => ?_
      obtain rfl : h = 0 := hu.zero_of_children hnil
      exact absurd (Uniform.children_eq_nil hup) (by rw [plugAll_cons, Frame.children_plug]; simp)
    have hlen := length_takeOut hu hpath hp
    have hne : ¬f.items.isEmpty = true := by
      rw [List.isEmpty_iff, ← List.length_eq_zero_iff, hlen, List.length_eq_zero_iff]
      exact hitems
    rw [topItems, collapse, if_neg hne]

theorem removeOutline_erase (t : Tree π Item) :
    (removeOutline o key t).erase = removeOutline o key t.erase := by
  unfold removeOutline
  rw [locate_erase]
  cases locate (findKeyInNode key) t with
  | none => rfl
  | some x =>
    simp only [Option.map_some, takeOut_erase]
    show (if x.found = true then _ else t).erase = if x.found = true then _ else t.erase
    split
    · cases takeOut x with
      | none => rfl
      | some p =>
        simp only [Option.map_some, items_erase, topItems_erase]
        rw [collapse_erase, shrinkPath_erase]
    · rfl

/-- **`remove` of a present key takes out its item, keeps all others in order, and
keeps the depth uniform.** -/
theorem removeOutline_spec (hu : Uniform h t) (hx : locate (findKeyInNode key) t = some x)
    (hpath : IsPath (findKeyInNode key) t x) (hf : x.found = true)
    (hsafe : RemoveSafe cap o key t) :
    (∃ l₁ a l₂, t.inorder = l₁ ++ a :: l₂ ∧ a.key = key ∧
      (removeOutline o key t).inorder = l₁ ++ l₂) ∧
    ∃ h', Uniform h' (removeOutline o key t) := by
  obtain ⟨p, hp, -, hshrink⟩ := hsafe x hx hf
  obtain ⟨⟨l₁, a, l₂, hin, hk, hin'⟩, hup, hleaf⟩ := takeOut_spec hu hpath hf hp
  obtain ⟨hu', hcol⟩ := collapse_spec hup hshrink hleaf
  rw [removeOutline_eq hx hf hp]
  exact ⟨⟨l₁, a, l₂, hin, hk, hcol.trans hin'⟩, hu'⟩

end Remove

/-! ## The conditions do not look at page numbers -/

section Erase

variable {cap : Capacity} {o : Options}

theorem afterRightRotation_erase (f : Frame π Item) :
    afterRightRotation o f.erase = afterRightRotation o f := by
  obtain ⟨p, left, right⟩ := f
  unfold afterRightRotation
  cases left with
  | nil => simp [Frame.erase, Frame.items, Function.comp_def]
  | cons x ls => simp [Frame.erase, Frame.items, Function.comp_def]

theorem afterRotations_erase (f : Frame π Item) :
    afterRotations o f.erase = afterRotations o f := by
  unfold afterRotations
  rw [afterRightRotation_erase]
  obtain ⟨p, left, right⟩ := f
  cases right with
  | nil => rfl
  | cons x rs => simp [Frame.erase]

theorem siblings_erase (f : Frame π Item) : f.erase.siblings = f.siblings.map Tree.erase := by
  simp [Frame.siblings, Frame.erase, Function.comp_def]

theorem rebalanceFits_erase (f : Frame π Item) (u : Tree π Item) :
    RebalanceFits cap o f.erase u.erase ↔ RebalanceFits cap o f u := by
  constructor
  · rintro ⟨h1, h2, h3, h4⟩
    rw [afterRightRotation_erase, Frame.items_erase] at h2
    rw [afterRotations_erase, Frame.items_erase] at h3
    rw [← mergedNode_erase, items_erase, children_erase, List.length_map] at h4
    exact ⟨by simpa [siblings_erase] using h1, h2, h3, h4⟩
  · rintro ⟨h1, h2, h3, h4⟩
    refine ⟨by simpa [siblings_erase] using h1, ?_, ?_, ?_⟩
    · rwa [afterRightRotation_erase, Frame.items_erase]
    · rwa [afterRotations_erase, Frame.items_erase]
    · rwa [← mergedNode_erase, items_erase, children_erase, List.length_map]

theorem outdated_erase (fs : List (Frame π Item)) (its : List Item) :
    Outdated o (fs.map Frame.erase) its ↔ Outdated o fs its := by
  cases fs with
  | nil => exact Iff.rfl
  | cons f fs => rw [List.map_cons, Outdated, Outdated, topItems_erase]

theorem shrinkSafe_erase (leaf : Tree π Item) (fs : List (Frame π Item)) :
    ShrinkSafe cap o leaf.erase (fs.map Frame.erase) ↔ ShrinkSafe cap o leaf fs := by
  induction fs with
  | nil => exact Iff.rfl
  | cons f fs ih =>
    rw [List.map_cons, ShrinkSafe, ShrinkSafe, ih, items_erase, topItems_erase, outdated_erase,
      ← shrinkPath_erase, rebalanceFits_erase]
    have hl : f.erase.left = [] ↔ f.left = [] := by simp [Frame.erase]
    have hr : (∀ x ∈ f.erase.right.head?, o.canSpareAnElement x.2.items = false) ↔
        ∀ x ∈ f.right.head?, o.canSpareAnElement x.2.items = false := by
      cases hf : f.right <;> simp [Frame.erase, hf]
    rw [hl, hr]

theorem removeSafe_erase {key : Bytes} (t : Tree π Item) :
    RemoveSafe cap o key t.erase ↔ RemoveSafe cap o key t := by
  unfold RemoveSafe
  rw [locate_erase]
  cases locate (findKeyInNode key) t with
  | none => simp
  | some x =>
    simp only [Option.map_some, Option.mem_some_iff, forall_eq', takeOut_erase]
    show (x.found = true → _) ↔ (x.found = true → _)
    cases takeOut x with
    | none => simp
    | some p => simp [shrinkSafe_erase]

end Erase

end Toocal
