import Toocal.Tree.Rebalance
import Toocal.Tree.Stored

/-!
# What `rebalance_remove` does to a node and its neighbours

On pages that store the nodes written to them, whatever their sizes, and for a node of a
tree that need not be uniform: only the child `u` and its neighbours have to be all
leaves, or all inner nodes with one child more than items.

* The in-order sequence below the page is kept and one child is dropped, in every case:
  `rebalanceRemove_preserves`.
* So it merges even where a neighbour can spare an element: `rotationFirst_iff`.
-/

namespace Toocal

open Outcomes Multiway Multiway.Tree Pages4096

/-! ## The child and its neighbours -/

/-- The child at `i` and the children beside it are in shape at depth `h`: leaves for
`h = 0`, inner nodes with one child more than items otherwise. -/
def InShape (h : Nat) (p : PTree) (i : Nat) : Prop :=
  ∀ j c, (j = i ∨ j + 1 = i ∨ j = i + 1) → p.children[j]? = some c → Jointed h c

/-- A child beside the one at `i` can spare an element. -/
def CanSpareBeside (o : Options) (p : PTree) (i : Nat) : Prop :=
  ∃ j c, (j + 1 = i ∨ j = i + 1) ∧ p.children[j]? = some c ∧ o.canSpareAnElement c.items = true

section Frame

variable {u : PTree} {f : Frame Nat Item} {h : Nat}

theorem beside_of_inShape (hs : InShape h (f.plug u) f.left.length) : f.Beside h := by
  constructor
  · rintro ⟨l, a⟩ hx
    obtain ⟨ls, hl⟩ := List.head?_eq_some_iff.mp hx
    exact hs ls.length l (Or.inr (Or.inl (by rw [hl]; rfl))) (Frame.child_left hl)
  · rintro ⟨b, r⟩ hx
    obtain ⟨rs, hr⟩ := List.head?_eq_some_iff.mp hx
    exact hs (f.left.length + 1) r (Or.inr (Or.inr rfl)) (Frame.child_right hr)

theorem siblings_ne_nil (htwo : 2 ≤ (f.plug u).children.length) : f.siblings ≠ [] := by
  intro he
  rw [Frame.siblings, List.append_eq_nil_iff, List.map_eq_nil_iff, List.map_eq_nil_iff] at he
  rw [Frame.children_plug, he.1, he.2] at htwo
  simp at htwo

/-- The position of the child a merge drops: the first child stays and takes in the second. -/
theorem children_rebalance (o : Options) (htwo : 2 ≤ (f.plug u).children.length) :
    ((f.plug u).children.map Tree.tag)[max f.left.length 1]? = some (Dal.droppedPage f u) ∧
      (rebalance o f u).children.map Tree.tag =
        ((f.plug u).children.map Tree.tag).eraseIdx (max f.left.length 1) := by
  rw [rebalance, Dal.map_tag_children_plug, Dal.map_tag_children_plug]
  obtain ⟨p, left, right⟩ := f
  cases left with
  | cons x ls =>
    obtain ⟨l, a⟩ := x
    have hmax : max ((l, a) :: ls).length 1 = ls.length + 1 := by
      rw [List.length_cons]
      omega
    simp only [hmax]
    refine ⟨by simp [Dal.childTags, Dal.droppedPage], ?_⟩
    rw [childTags_erase_left]
    exact Dal.childTags_rightAfter o ls right l.tag
  | nil =>
    cases right with
    | nil => simp [Frame.children_plug] at htwo
    | cons x rs => exact ⟨rfl, rfl⟩

end Frame

/-- A layer with the three pages of `pairOf`. -/
def pairDal (left right : List Item) : Dal (Shelf Capacity.unlimited) :=
  ((({ options := BuiltinOptions.balance, file := Shelf.empty _, metaPage := ⟨0, 1⟩,
       freelist := ⟨5, []⟩, written := [] } : Dal (Shelf Capacity.unlimited)).store
    ⟨3, [⟨[5], []⟩], [4, 5]⟩ ⟨rfl, fun _ _ => rfl⟩).store ⟨4, left, []⟩ ⟨rfl, fun _ _ => rfl⟩).store
    ⟨5, right, []⟩ ⟨rfl, fun _ _ => rfl⟩

theorem holds_pairDal (left right : List Item) : (pairDal left right).Holds (pairOf left right) := by
  refine Dal.holds_node.mpr ⟨rfl, fun c hc => ?_⟩
  simp only [List.mem_cons, List.not_mem_nil, or_false] at hc
  rcases hc with rfl | rfl <;> exact Dal.holds_node.mpr ⟨rfl, fun c hc => by cases hc⟩

/-- Two items of 48 bytes: `get_split_index` is 1. -/
def twoLong : List Item := [⟨List.replicate 48 1, []⟩, ⟨List.replicate 48 2, []⟩]

theorem inShape_pairOf (left right : List Item) : InShape 0 (pairOf left right) 1 := by
  intro j c _ hc
  have hmem := List.mem_of_getElem? hc
  simp only [pairOf, children_node, List.mem_cons, List.not_mem_nil, or_false] at hmem
  rcases hmem with rfl | rfl <;> rfl

/-! ## The contents -/

section Preserves

variable {d : Dal (Shelf Capacity.unlimited)} {p u : PTree} {i h : Nat}

/-- What `rebalance_remove` leaves of the tree `p`: `p'`, with the child at `max i 1`
dropped and its page released. -/
structure Rebalanced (d d' : Dal (Shelf Capacity.unlimited)) (p p' : PTree) (i : Nat) : Prop where
  tag : p'.tag = p.tag
  holds : d'.Holds p'
  inorder : p'.inorder = p.inorder
  counted : p'.children.length = p'.items.length + 1
  children : p'.children.map Tree.tag = (p.children.map Tree.tag).eraseIdx (max i 1)
  released : ∃ page, (p.children.map Tree.tag)[max i 1]? = some page ∧
    d'.freelist = ⟨d.freelist.maxPage, d.freelist.releasedPages ++ [page]⟩
  others : ∀ page, page ∉ p.tags → d'.at? page = d.at? page

theorem rebalanceRemove_rebalanced (hh : d.Holds p) (hnd : p.tags.Nodup) (h0 : 0 ∉ p.tags)
    (hcount : p.children.length = p.items.length + 1) (htwo : 2 ≤ p.children.length)
    (hu : p.children[i]? = some u) (hs : InShape h p i) :
    ∃ d' p', Dal.rebalanceRemove (nodeOf p) (nodeOf u) i d = .ok () d' ∧ Rebalanced d d' p p' i := by
  obtain ⟨f, rfl, rfl⟩ := exists_plug hcount hu
  have hju : Jointed h u := hs _ u (Or.inl rfl) Frame.child_hole
  have hbeside := beside_of_inShape hs
  obtain ⟨hpage, hchildren⟩ := children_rebalance d.options htwo
  have hplace : Places {q | q ∉ (f.plug u).tags} (f.plug u).tags :=
    ⟨hnd, fun q hq hn => hn hq, h0⟩
  obtain ⟨d', hrun, hh', hk, hfl⟩ := Dal.rebalanceRemove_holds hh hplace hbeside hju
    ⟨siblings_ne_nil htwo, rfl, rfl, rfl⟩ (Or.inl rfl)
  exact ⟨d', rebalance d.options f u, hrun, tag_rebalance, hh', inorder_rebalance hbeside hju,
    Frame.jointed_plug _ _ 0, hchildren, ⟨_, hpage, hfl⟩, fun q hq => hk.at? q hq⟩

/-- **`rebalance_remove` returns, and it keeps the contents below the page and the count of
its children; the only page it releases is the one it drops.** -/
theorem rebalanceRemove_preserves (d : Dal (Shelf Capacity.unlimited)) (p u : PTree) (i h : Nat)
    (hh : d.Holds p) (hnd : p.tags.Nodup) (h0 : 0 ∉ p.tags)
    (hcount : p.children.length = p.items.length + 1) (htwo : 2 ≤ p.children.length)
    (hu : p.children[i]? = some u) (hs : InShape h p i) :
    (∃ d', Dal.rebalanceRemove (nodeOf p) (nodeOf u) i d = .ok () d') ∧
      ∀ d', Dal.rebalanceRemove (nodeOf p) (nodeOf u) i d = .ok () d' →
        ∃ p', Rebalanced d d' p p' i := by
  obtain ⟨d', p', hrun, hr⟩ := rebalanceRemove_rebalanced hh hnd h0 hcount htwo hu hs
  refine ⟨⟨d', hrun⟩, fun d'' hrun' => ⟨p', ?_⟩⟩
  obtain rfl : d' = d'' := by
    rw [hrun] at hrun'
    injection hrun'
  exact hr

theorem rebalanceRemove_preserves_pair :
    (∃ d', Dal.rebalanceRemove (nodeOf (pairOf [⟨[1], []⟩] [⟨[7], []⟩])) ⟨5, [⟨[7], []⟩], []⟩ 1
      (pairDal [⟨[1], []⟩] [⟨[7], []⟩]) = .ok () d') ∧
    ∀ d', Dal.rebalanceRemove (nodeOf (pairOf [⟨[1], []⟩] [⟨[7], []⟩])) ⟨5, [⟨[7], []⟩], []⟩ 1
      (pairDal [⟨[1], []⟩] [⟨[7], []⟩]) = .ok () d' →
      ∃ p', Rebalanced (pairDal [⟨[1], []⟩] [⟨[7], []⟩]) d' (pairOf [⟨[1], []⟩] [⟨[7], []⟩]) p' 1 :=
  rebalanceRemove_preserves _ _ (.node 5 [⟨[7], []⟩] []) 1 0 (holds_pairDal _ _) (by decide)
    (by decide) rfl (by decide) rfl (inShape_pairOf _ _)

end Preserves

/-! ## Rotation first -/

section Rotation

variable {d d' : Dal (Shelf Capacity.unlimited)} {p p' u : PTree} {i : Nat}

/-- One item crosses the parent into `u`; the parent keeps its children and its count, and
no page is released. -/
def RotatesOnce (d d' : Dal (Shelf Capacity.unlimited)) (p u : PTree) : Prop :=
  d'.freelist = d.freelist ∧
    (∃ its, d'.at? p.tag = some (its, p.children.map Tree.tag) ∧ its.length = p.items.length) ∧
    ∃ its cs, d'.at? u.tag = some (its, cs) ∧ its.length = u.items.length + 1

/-- A child of the parent is gone and its page released. -/
def Merges (d d' : Dal (Shelf Capacity.unlimited)) (p : PTree) : Prop :=
  ∃ page, d'.freelist.releasedPages = d.freelist.releasedPages ++ [page] ∧
    ∃ its cs, d'.at? p.tag = some (its, cs) ∧ cs.length + 1 = p.children.length

/-- A rotation if a neighbour can spare an element, and a merge only if none can. -/
def RotationFirst (d d' : Dal (Shelf Capacity.unlimited)) (p u : PTree) (i : Nat) : Prop :=
  (CanSpareBeside d.options p i → RotatesOnce d d' p u) ∧
    (Merges d d' p ↔ ¬ CanSpareBeside d.options p i)

theorem Rebalanced.merges (h : Rebalanced d d' p p' i) : Merges d d' p := by
  obtain ⟨page, hpage, hfl⟩ := h.released
  have hlt := (List.getElem?_eq_some_iff.mp hpage).1
  refine ⟨page, by rw [hfl], p'.items, p'.children.map Tree.tag, ?_, ?_⟩
  · rw [← h.tag]
    exact h.holds.root
  · rw [h.children, List.length_eraseIdx_of_lt hlt, List.length_map]
    rw [List.length_map] at hlt
    omega

theorem Rebalanced.not_rotatesOnce (h : Rebalanced d d' p p' i) : ¬ RotatesOnce d d' p u := by
  rintro ⟨hfl, -⟩
  obtain ⟨page, -, hfl'⟩ := h.released
  have hlen := congrArg (fun f => f.releasedPages.length) (hfl'.symm.trans hfl)
  simp at hlen

/-- **`rebalance_remove` rotates first exactly where no neighbour can spare an element.** -/
theorem rotationFirst_iff (d : Dal (Shelf Capacity.unlimited)) (p u : PTree) (i h : Nat)
    (hh : d.Holds p) (hnd : p.tags.Nodup) (h0 : 0 ∉ p.tags)
    (hcount : p.children.length = p.items.length + 1) (htwo : 2 ≤ p.children.length)
    (hu : p.children[i]? = some u) (hs : InShape h p i) :
    ∃ d', Dal.rebalanceRemove (nodeOf p) (nodeOf u) i d = .ok () d' ∧
      (RotationFirst d d' p u i ↔ ¬ CanSpareBeside d.options p i) := by
  obtain ⟨d', p', hrun, hr⟩ := rebalanceRemove_rebalanced hh hnd h0 hcount htwo hu hs
  refine ⟨d', hrun, fun h => h.2.mp hr.merges, fun hno => ⟨fun hspare => absurd hspare hno, ?_⟩⟩
  exact ⟨fun _ => hno, fun _ => hr.merges⟩

theorem rotationFirst_pair : ∃ d', Dal.rebalanceRemove (nodeOf (pairOf [⟨[1], []⟩] [⟨[7], []⟩]))
      ⟨5, [⟨[7], []⟩], []⟩ 1 (pairDal [⟨[1], []⟩] [⟨[7], []⟩]) = .ok () d' ∧
    (RotationFirst (pairDal [⟨[1], []⟩] [⟨[7], []⟩]) d' (pairOf [⟨[1], []⟩] [⟨[7], []⟩])
      (.node 5 [⟨[7], []⟩] []) 1 ↔
        ¬ CanSpareBeside BuiltinOptions.balance (pairOf [⟨[1], []⟩] [⟨[7], []⟩]) 1) :=
  rotationFirst_iff _ _ (.node 5 [⟨[7], []⟩] []) 1 0 (holds_pairDal _ _) (by decide) (by decide)
    rfl (by decide) rfl (inShape_pairOf _ _)

/-- **The left neighbour could spare an element, and the two are merged.** -/
theorem merge_despite_donor :
    ¬ ∀ (d : Dal (Shelf Capacity.unlimited)) (p u : PTree) (i h : Nat), d.Holds p →
      p.tags.Nodup → 0 ∉ p.tags → p.children.length = p.items.length + 1 →
      2 ≤ p.children.length → p.children[i]? = some u → InShape h p i →
      ∃ d', Dal.rebalanceRemove (nodeOf p) (nodeOf u) i d = .ok () d' ∧ RotationFirst d d' p u i := by
  intro hall
  have hholds := holds_pairDal twoLong [⟨[7], []⟩]
  have hshape := inShape_pairOf twoLong [⟨[7], []⟩]
  obtain ⟨d', hrun, hrot⟩ := hall _ _ (.node 5 [⟨[7], []⟩] []) 1 0 hholds (by decide) (by decide)
    rfl (by decide) rfl hshape
  obtain ⟨d'', p', hrun', hr⟩ := rebalanceRemove_rebalanced hholds (by decide) (by decide) rfl
    (by decide) (u := .node 5 [⟨[7], []⟩] []) (i := 1) rfl hshape
  obtain rfl : d' = d'' := by
    rw [hrun] at hrun'
    injection hrun'
  refine hr.not_rotatesOnce (hrot.1 ⟨0, .node 4 twoLong [], Or.inl rfl, rfl, ?_⟩)
  show BuiltinOptions.balance.canSpareAnElement twoLong = true
  decide +kernel

end Rotation

end Toocal
