import Toocal.Store.PageCodec
import Toocal.Tree.FileRuns
import Toocal.Tree.Thinning

/-!
# Room in bytes

Whether a call finds room for what it writes, counted in bytes on the tree before the call.

* `Load` is what a node holds: the number of its items, and the bytes of their keys and
  values.  `Load.taken` is what that takes up on a page.
* `PutFits`: the leaf of a put has room for the item, and the parent of every node that is
  split has room for the item at its split index.
* `removal` reads off the path of a removal a list of `Level`s: the load of each node, its
  separators beside the hole and what its neighbours there hold and can spare.  `RemoveFits`
  is arithmetic on them.

Where these hold the calls are safe on pages that have room for no more:
`putSafe_of_fits`, `removeSafe_of_fits`.
-/

namespace Toocal

open Binary32 Multiway Multiway.Tree

variable {π : Type} {o : Options}

/-! ## Loads -/

def Item.bytes (a : Item) : Nat := a.key.length + a.value.length

/-- A number of items, and the bytes of their keys and values. -/
@[ext] structure Load where
  count : Nat
  bytes : Nat
  deriving DecidableEq

namespace Load

instance : Add Load := ⟨fun l m => ⟨l.count + m.count, l.bytes + m.bytes⟩⟩

/-- One item. -/
def item (bytes : Nat) : Load := ⟨1, bytes⟩

/-- What a node holds. -/
def ofItems (its : List Item) : Load := ⟨its.length, (its.map Item.bytes).sum⟩

/-- Without one item. -/
def less (l : Load) (bytes : Nat) : Load := ⟨l.count - 1, l.bytes - bytes⟩

/-- With one item in the place of another. -/
def swap (l : Load) (old new : Nat) : Load := ⟨l.count, l.bytes + new - old⟩

/-- What a node takes up on a page: the header; a slot, two length bytes, key and value for each
item; and in an inner node a page number for each child. -/
def taken (isLeaf : Bool) (l : Load) : Nat :=
  if isLeaf then headerSize + 4 * l.count + l.bytes
  else headerSize + pageNumSize + (4 + pageNumSize) * l.count + l.bytes

/-- `is_under_populated` in bytes. -/
def Under (o : Options) (l : Load) : Prop :=
  nearest ((headerSize + pageNumSize + l.bytes) % 2 ^ 32 : Nat) < o.minThreshold

instance (o : Options) (l : Load) : Decidable (l.Under o) := inferInstanceAs (Decidable (_ < _))

@[simp] theorem count_add (l m : Load) : (l + m).count = l.count + m.count := rfl
@[simp] theorem bytes_add (l m : Load) : (l + m).bytes = l.bytes + m.bytes := rfl
@[simp] theorem count_item (n : Nat) : (item n).count = 1 := rfl
@[simp] theorem bytes_item (n : Nat) : (item n).bytes = n := rfl

theorem ofItems_append (its its' : List Item) :
    ofItems (its ++ its') = ofItems its + ofItems its' := by
  ext <;> simp [ofItems]

theorem ofItems_cons (a : Item) (its : List Item) : ofItems (a :: its) = item a.bytes + ofItems its := by
  ext <;> simp [ofItems, Nat.add_comm]

theorem ofItems_perm {its its' : List Item} (h : its.Perm its') : ofItems its = ofItems its' := by
  rw [ofItems, ofItems, h.length_eq, (h.map Item.bytes).sum_eq]

theorem ofItems_insertAt (its : List Item) (i : Nat) (a : Item) :
    ofItems (insertAt its i a) = ofItems its + item a.bytes := by
  have hperm : (insertAt its i a).Perm (a :: its) := by
    rw [insertAt]
    refine List.perm_middle.trans ?_
    rw [List.take_append_drop]
  rw [ofItems_perm hperm, ofItems_cons]
  ext <;> simp [Nat.add_comm]

theorem ofItems_middle (l r : List Item) (a b : Item) :
    ofItems (l ++ b :: r) = (ofItems (l ++ a :: r)).swap a.bytes b.bytes := by
  ext
  · simp [ofItems_append, ofItems_cons, swap]
  · simp [ofItems_append, ofItems_cons, swap]
    omega

theorem ofItems_without (l r : List Item) (a : Item) :
    ofItems (l ++ r) = (ofItems (l ++ a :: r)).less a.bytes := by
  ext
  · simp [ofItems_append, ofItems_cons, less]
    omega
  · simp [ofItems_append, ofItems_cons, less]
    omega

end Load

/-! ## Pages -/

section Room

variable {its : List Item}

theorem cellsSize_eq (its : List Item) :
    cellsSize its = (Load.ofItems its).bytes + 2 * (Load.ofItems its).count := by
  induction its with
  | nil => rfl
  | cons a its ih =>
    rw [cellsSize_cons, length_cell, ih, Load.ofItems_cons, Load.count_add, Load.bytes_add,
      Load.count_item, Load.bytes_item, Item.bytes]
    omega

theorem pageRoom_leaf_iff [System] : PageRoom its 0 ↔
    (∀ a ∈ its, a.Short) ∧ (Load.ofItems its).taken true < defaultPageSize := by
  have hlarge := le_defaultPageSize
  have hlen : (Load.ofItems its).count = its.length := rfl
  have hcounted : Counted its.length 0 := .inl rfl
  rw [PageRoom, BufferRoom, cellsSize_eq, and_iff_right hcounted, hlen]
  refine and_congr_right fun _ => ?_
  simp only [Load.taken, if_pos, hlen]
  omega

theorem pageRoom_inner_iff [System] : PageRoom its (its.length + 1) ↔
    (∀ a ∈ its, a.Short) ∧ (Load.ofItems its).taken false < defaultPageSize := by
  have hlarge := le_defaultPageSize
  have hlen : (Load.ofItems its).count = its.length := rfl
  have hcounted : Counted its.length (its.length + 1) := .inr rfl
  rw [PageRoom, BufferRoom, cellsSize_eq, and_iff_right hcounted, hlen]
  refine and_congr_right fun _ => ?_
  simp only [Load.taken, Bool.false_eq_true, if_false, pageNumSize, hlen]
  omega

/-- The code's test in bytes. -/
theorem under_iff_load (hshort : ∀ a ∈ its, a.Short) :
    o.isUnderPopulated its ↔ (Load.ofItems its).Under o := by
  have hsize : its.map Item.size = its.map Item.bytes :=
    List.map_congr_left fun a ha => (hshort a ha).size
  rw [Options.isUnderPopulated, nodeSize_eq, hsize]
  rfl

end Room

/-! ## A put -/

section Put

variable [System]

/-- The parents of the over-populated nodes have room for the item that moves up. -/
def SplitsFit (o : Options) : List (Frame π Item) → List Item → Prop
  | [], _ => True
  | f :: fs, its => SplitsFit o fs its ∧ (o.isOverPopulated (topItems fs its) →
      ∃ m ∈ middleItem o (topItems fs its),
        (Load.ofItems f.items + .item m.bytes).taken false < defaultPageSize)

/-- The put finds room, and each over-populated node a split index. -/
def PutFits (o : Options) (item : Item) (t : Tree π Item) : Prop :=
  item.Short ∧ ∀ x ∈ locate (findKeyInNode item.key) t,
    (Load.ofItems x.focus.items + .item item.bytes).taken true < defaultPageSize ∧
    SplitsFit o x.frames (insertAt x.focus.items x.index item) ∧
    (o.isOverPopulated (topItems x.frames (insertAt x.focus.items x.index item)) →
      (middleItem o (topItems x.frames (insertAt x.focus.items x.index item))).isSome)

theorem splitSafe_of_fits {pageSize : Nat} {fs : List (Frame π Item)} {its : List Item}
    (hshort : ∀ l ∈ pathItems fs its, ∀ a ∈ l, a.Short) (h : SplitsFit o fs its) :
    SplitSafe (Capacity.page pageSize) o fs its := by
  induction fs with
  | nil => trivial
  | cons f fs ih =>
    rw [pathItems, List.forall_mem_cons] at hshort
    obtain ⟨hbelow, htop⟩ := h
    refine ⟨ih hshort.2 hbelow, fun hover => ?_⟩
    obtain ⟨m, hm, htaken⟩ := htop hover
    refine ⟨m, hm, room_page.mpr ?_⟩
    have hmiddle : m.Short := by
      refine hshort.2 (topItems fs its) ?_ m (mem_of_middleItem hm)
      rw [pathItems_eq_cons]
      exact List.mem_cons_self
    have hlen : f.items.length + 2 = (insertAt f.items f.left.length m).length + 1 := by
      rw [length_insertAt]
    rw [hlen, pageRoom_inner_iff, Load.ofItems_insertAt]
    refine ⟨fun a ha => ?_, htaken⟩
    rcases mem_insertAt.mp ha with rfl | ha
    · exact hmiddle
    · exact hshort.1 a ha

/-- **A put that fits is safe.** -/
theorem putSafe_of_fits {pageSize : Nat} {item : Item} {t : Outline} {h : Nat} (hu : Uniform h t)
    (hshort : ∀ a ∈ t.inorder, a.Short) (hfits : PutFits o item t) :
    PutSafe (Capacity.page pageSize) o item t := by
  intro x hx
  obtain ⟨x', hx', hpath⟩ := exists_path item.key hu.regular
  obtain rfl := Option.some.inj (hx.symm.trans hx')
  obtain ⟨hitem, hrest⟩ := hfits
  obtain ⟨hleaf, hsplits, htop⟩ := hrest x hx
  have hall : ∀ l ∈ pathItems x.frames (insertAt x.focus.items x.index item), ∀ a ∈ l, a.Short := by
    intro l hl a ha
    rcases eq_or_mem_of_pathItems hpath hl ha with rfl | ha
    · exact hitem
    · exact hshort a ha
  refine ⟨room_page.mpr ?_, splitSafe_of_fits hall hsplits, htop⟩
  rw [pageRoom_leaf_iff, Load.ofItems_insertAt]
  exact ⟨hall _ (mem_pathItems.mpr (.inr rfl)), hleaf⟩

end Put

/-! ## A removal in numbers -/

/-- A neighbour of the hole on the path of a removal. -/
structure Neighbour where
  load : Load
  /-- the bytes of the item between the hole and the neighbour -/
  separator : Nat
  /-- the bytes of the item the neighbour gives in a rotation -/
  gives : Nat
  spares : Bool

/-- A node on the path of a removal, with its neighbours left and right of the hole. -/
structure Level where
  load : Load
  left : Option Neighbour
  right : Option Neighbour

namespace Level

/-- The numbers of a node of the tree. -/
def ofFrame (o : Options) (f : Frame π Item) : Level where
  load := .ofItems f.items
  left := f.left.head?.map fun x => ⟨.ofItems x.1.items, x.2.bytes,
    (x.1.items.getLast?.elim 0 Item.bytes), o.canSpareAnElement x.1.items⟩
  right := f.right.head?.map fun x => ⟨.ofItems x.2.items, x.1.bytes,
    (x.2.items.head?.elim 0 Item.bytes), o.canSpareAnElement x.2.items⟩

/-- The item right of the hole gives way to one of `bytes` bytes. -/
def exchange (bytes : Nat) (lv : Level) : Level where
  load := lv.right.elim lv.load fun r => lv.load.swap r.separator bytes
  left := lv.left
  right := lv.right.map fun r => { r with separator := bytes }

/-- The node after the rotation from the left. -/
def raised (lv : Level) : Load :=
  lv.left.elim lv.load fun l => if l.spares then lv.load.swap l.separator l.gives else lv.load

/-- And after that from the right. -/
def turned (lv : Level) : Load :=
  lv.right.elim lv.raised fun r => if r.spares then lv.raised.swap r.separator r.gives else lv.raised

/-- What the merge makes of the node in the hole. -/
def merged (node : Load) (lv : Level) : Load :=
  match lv.left, lv.right with
  | some l, some r =>
    if r.spares then l.load + (.item l.separator + (node + .item r.separator))
    else l.load + (.item l.separator + node)
  | some l, none => l.load + (.item l.separator + node)
  | none, some r => node + (.item r.separator + r.load)
  | none, none => node

/-- The node after the merge. -/
def repaired (lv : Level) : Load :=
  match lv.left, lv.right with
  | some l, some r =>
    if r.spares then (lv.load.swap r.separator r.gives).less l.separator else lv.load.less l.separator
  | some l, none => lv.load.less l.separator
  | none, some r => lv.load.less r.separator
  | none, none => lv.load

end Level

/-- What the topmost node of a path holds. -/
def topLoad (leaf : Load) : List Level → Load
  | [] => leaf
  | lv :: _ => lv.load

/-- What it holds when the nodes below it have been repaired. -/
def repairedLoad (o : Options) (leaf : Load) : List Level → Load
  | [] => leaf
  | lv :: lvs => if (topLoad leaf lvs).Under o then lv.repaired else lv.load

/-- Wherever a node is under-populated, its parent has room for the items that come up from its
neighbours, and the node it is merged into for what it takes in. -/
def RepairsFit [System] (o : Options) (leaf : Load) : List Level → Prop
  | [] => True
  | lv :: lvs => RepairsFit o leaf lvs ∧ ((topLoad leaf lvs).Under o →
      lv.raised.taken false < defaultPageSize ∧ lv.turned.taken false < defaultPageSize ∧
      (lv.merged (repairedLoad o leaf lvs)).taken lvs.isEmpty < defaultPageSize)

/-- No node is repaired after its child, but for a leftmost one whose right neighbour can spare
nothing. -/
def RepairsApart (o : Options) (leaf : Load) : List Level → Prop
  | lv :: lv' :: lvs => RepairsApart o leaf (lv' :: lvs) ∧ (lv'.load.Under o →
      (topLoad leaf lvs).Under o → lv.left.isNone ∧ ∀ r ∈ lv.right, r.spares = false)
  | _ => True

/-- Every under-populated node has a neighbour. -/
def RepairsBeside (o : Options) (leaf : Load) : List Level → Prop
  | [] => True
  | lv :: lvs => RepairsBeside o leaf lvs ∧
      ((topLoad leaf lvs).Under o → lv.left.isSome ∨ lv.right.isSome)

/-- The path to the leaf that loses an item, and what the leaf holds then.  In an inner node the
last item of the leaf takes the place of the item that goes. -/
def removal (o : Options) (x : Path π Item) : Option (List Level × Load) :=
  if x.focus.children.isEmpty then do
    let gone ← x.focus.items[x.index]?
    return (x.frames.map (Level.ofFrame o), (Load.ofItems x.focus.items).less gone.bytes)
  else do
    let c ← x.focus.children[x.index]?
    let y ← rightmost c
    let pred ← y.focus.items.getLast?
    return (x.frames.map (Level.ofFrame o) ++
        (Level.ofFrame o (Frame.ofNode x.focus.tag x.focus.items x.focus.children x.index)).exchange
          pred.bytes :: y.frames.map (Level.ofFrame o),
      (Load.ofItems y.focus.items).less pred.bytes)

/-- The removal finds room, on nodes that have not been changed since they were read. -/
structure RemoveFits [System] (o : Options) (p : List Level × Load) : Prop where
  nodes : ∀ lv ∈ p.1, lv.load.taken false < defaultPageSize
  repairs : RepairsFit o p.2 p.1
  apart : RepairsApart o p.2 p.1

/-! ## The numbers of a path -/

section Numbers

variable {f : Frame π Item} {fs : List (Frame π Item)} {leaf u : Tree π Item}

theorem exists_afterRightRotation (f : Frame π Item) : ∃ before : List Item,
    before.length = f.left.length ∧ afterRightRotation o f = before ++ f.right.map Prod.fst ∧
    Load.ofItems (afterRightRotation o f) = (Level.ofFrame o f).raised := by
  obtain ⟨p, left, right⟩ := f
  cases left with
  | nil => exact ⟨[], rfl, rfl, rfl⟩
  | cons x ls =>
    obtain ⟨l, a⟩ := x
    have hitems : (Frame.mk p ((l, a) :: ls) right).items =
        (ls.map Prod.snd).reverse ++ a :: right.map Prod.fst := by simp [Frame.items]
    by_cases hspare : o.canSpareAnElement l.items = true
    · obtain ⟨z, zs, hz⟩ := canSpare_ne_nil hspare
      have hlast : l.items.getLast?.elim 0 Item.bytes = (l.items.getLastD a).bytes := by
        rw [hz]
        simp [List.getLast?_eq_some_getLast, List.getLastD_eq_getLast?]
      have hset : afterRightRotation o ⟨p, (l, a) :: ls, right⟩ =
          (ls.map Prod.snd).reverse ++ l.items.getLastD a :: right.map Prod.fst := by
        simp only [afterRightRotation, if_pos hspare, hitems]
        rw [List.set_append_right _ _ (by simp)]
        simp
      refine ⟨(ls.map Prod.snd).reverse ++ [l.items.getLastD a], by simp, by rw [hset]; simp, ?_⟩
      rw [hset, Load.ofItems_middle _ _ a, ← hitems]
      simp [Level.raised, Level.ofFrame, hspare, hlast]
    · refine ⟨(ls.map Prod.snd).reverse ++ [a], by simp, ?_, ?_⟩
      · simp [afterRightRotation, hspare, hitems]
      · simp [Level.raised, Level.ofFrame, hspare, afterRightRotation]

theorem afterRotations_load (f : Frame π Item) :
    Load.ofItems (afterRotations o f) = (Level.ofFrame o f).turned := by
  obtain ⟨before, hlen, heq, hload⟩ := exists_afterRightRotation (o := o) f
  obtain ⟨p, left, right⟩ := f
  cases right with
  | nil => exact hload
  | cons x rs =>
    obtain ⟨b, r⟩ := x
    simp only [List.map_cons] at heq hlen
    by_cases hspare : o.canSpareAnElement r.items = true
    · obtain ⟨z, zs, hz⟩ := canSpare_ne_nil hspare
      have hspare' : o.canSpareAnElement (z :: zs) = true := hz ▸ hspare
      have hset : afterRotations o ⟨p, left, (b, r) :: rs⟩ = before ++ z :: rs.map Prod.fst := by
        simp only [afterRotations, heq, hz, if_pos hspare', List.headD_cons]
        rw [List.set_append_right _ _ (by omega), hlen]
        simp
      rw [hset, Load.ofItems_middle _ _ b, ← heq, hload]
      simp [Level.turned, Level.ofFrame, hz, hspare']
    · simp [Level.turned, Level.ofFrame, hspare, afterRotations] at hload ⊢
      exact hload

theorem mergedNode_load (f : Frame π Item) (u : Tree π Item) :
    Load.ofItems (mergedNode o f u).items = (Level.ofFrame o f).merged (.ofItems u.items) := by
  obtain ⟨p, left, right⟩ := f
  cases left with
  | nil =>
    cases right with
    | nil => rfl
    | cons x rs =>
      obtain ⟨b, r⟩ := x
      simp [mergedNode, Level.merged, Level.ofFrame, Load.ofItems_append, Load.ofItems_cons]
  | cons x ls =>
    obtain ⟨l, a⟩ := x
    cases right with
    | nil =>
      simp [mergedNode, takeFromRight, Level.merged, Level.ofFrame, Load.ofItems_append,
        Load.ofItems_cons]
    | cons y rs =>
      obtain ⟨b, r⟩ := y
      have hone : Load.ofItems [b] = .item b.bytes := by simp [Load.ofItems, Load.item]
      by_cases hspare : o.canSpareAnElement r.items = true <;>
        simp [mergedNode, takeFromRight, Level.merged, Level.ofFrame, Load.ofItems_append,
          Load.ofItems_cons, hspare, hone]

theorem rebalance_load (f : Frame π Item) (u : Tree π Item) :
    Load.ofItems (rebalance o f u).items = (Level.ofFrame o f).repaired := by
  rw [items_rebalance]
  obtain ⟨p, left, right⟩ := f
  cases left with
  | nil =>
    cases right with
    | nil => rfl
    | cons x rs =>
      obtain ⟨b, r⟩ := x
      have hwithout := Load.ofItems_without [] (rs.map Prod.fst) b
      simpa [mergedFrame, Level.repaired, Level.ofFrame, Frame.items] using hwithout
  | cons x ls =>
    obtain ⟨l, a⟩ := x
    cases right with
    | nil =>
      have hwithout := Load.ofItems_without (ls.map Prod.snd).reverse [] a
      simpa [mergedFrame, rightAfter, Level.repaired, Level.ofFrame, Frame.items] using hwithout
    | cons y rs =>
      obtain ⟨b, r⟩ := y
      by_cases hspare : o.canSpareAnElement r.items = true
      · obtain ⟨z, zs, hz⟩ := canSpare_ne_nil hspare
        have hspare' : o.canSpareAnElement (z :: zs) = true := hz ▸ hspare
        have hwithout := Load.ofItems_without (ls.map Prod.snd).reverse (z :: rs.map Prod.fst) a
        have hmiddle := Load.ofItems_middle ((ls.map Prod.snd).reverse ++ [a]) (rs.map Prod.fst) b z
        simp only [List.append_assoc, List.singleton_append] at hmiddle
        rw [hmiddle] at hwithout
        simpa [mergedFrame, rightAfter, Level.repaired, Level.ofFrame, Frame.items, hz, hspare']
          using hwithout
      · have hwithout := Load.ofItems_without (ls.map Prod.snd).reverse (b :: rs.map Prod.fst) a
        simpa [mergedFrame, rightAfter, Level.repaired, Level.ofFrame, Frame.items, hspare]
          using hwithout

theorem topLoad_eq (fs : List (Frame π Item)) (its : List Item) :
    topLoad (.ofItems its) (fs.map (Level.ofFrame o)) = .ofItems (topItems fs its) := by
  cases fs <;> rfl

/-- All keys and values have a length that a page can tell. -/
def AllShort (its : List Item) : Prop := ∀ a ∈ its, a.Short

/-- The code's test of the topmost node of a path. -/
theorem under_topItems_iff (hshort : ∀ l ∈ pathItems fs leaf.items, AllShort l) :
    o.isUnderPopulated (topItems fs leaf.items) ↔
      (topLoad (.ofItems leaf.items) (fs.map (Level.ofFrame o))).Under o := by
  rw [topLoad_eq]
  refine under_iff_load (hshort _ ?_)
  rw [pathItems_eq_cons]
  exact List.mem_cons_self

theorem shrinkPath_load (hshort : ∀ l ∈ pathItems fs leaf.items, AllShort l) :
    Load.ofItems (shrinkPath o leaf fs).items =
      repairedLoad o (.ofItems leaf.items) (fs.map (Level.ofFrame o)) := by
  cases fs with
  | nil => rfl
  | cons f fs =>
    rw [pathItems, List.forall_mem_cons] at hshort
    have hunder := under_topItems_iff (o := o) hshort.2
    rw [shrinkPath, List.map_cons, repairedLoad]
    by_cases h : o.isUnderPopulated (topItems fs leaf.items)
    · rw [if_pos h, if_pos (hunder.mp h), rebalance_load]
    · rw [if_neg h, if_neg (mt hunder.mpr h)]
      rfl

theorem exchange_ofNode {q : π} {its : List Item} {cs : List (Tree π Item)} {i : Nat} {a : Item}
    (hl : cs.length = its.length + 1) (ha : its[i]? = some a) (pred : Item) :
    Level.ofFrame o (Frame.ofNode q (its.set i pred) cs i) =
      (Level.ofFrame o (Frame.ofNode q its cs i)).exchange pred.bytes := by
  obtain ⟨hi, rfl⟩ := List.getElem?_eq_some_iff.mp ha
  have hc : i < cs.length := by omega
  have hc' : i + 1 < cs.length := by omega
  have hchild : cs[i]? = some cs[i] := List.getElem?_eq_getElem hc
  have hits : its.drop i = its[i] :: its.drop (i + 1) := List.drop_eq_getElem_cons hi
  have hset : (its.set i pred).drop i = pred :: its.drop (i + 1) := by
    rw [List.drop_set, if_neg (by omega), Nat.sub_self, hits]
    rfl
  have hcs : cs.drop (i + 1) = cs[i + 1] :: cs.drop (i + 1 + 1) := List.drop_eq_getElem_cons hc'
  have hload : Load.ofItems (its.set i pred) = (Load.ofItems its).swap its[i].bytes pred.bytes := by
    have hmiddle := Load.ofItems_middle (its.take i) (its.drop (i + 1)) its[i] pred
    rw [← hits, List.take_append_drop] at hmiddle
    rw [List.set_eq_take_append_cons_drop, if_pos hi, hmiddle]
  have hleft : (Frame.ofNode q (its.set i pred) cs i).left = (Frame.ofNode q its cs i).left := by
    simp [Frame.ofNode, List.take_set_of_le]
  have hright : (Frame.ofNode q (its.set i pred) cs i).right.head? = some (pred, cs[i + 1]) := by
    simp only [Frame.ofNode, hset, hcs, List.zip_cons_cons, List.head?_cons]
  have hright' : (Frame.ofNode q its cs i).right.head? = some (its[i], cs[i + 1]) := by
    simp only [Frame.ofNode, hits, hcs, List.zip_cons_cons, List.head?_cons]
  rw [Level.ofFrame, Level.ofFrame, Level.exchange, hleft, hright, hright',
    Frame.items_ofNode (by simpa using hl) hchild, Frame.items_ofNode hl hchild, hload]
  rfl

end Numbers

section Removal

variable {t : Tree π Item} {x : Path π Item} {h : Nat} {key : Bytes}

/-- **The numbers are those of the path once the item has been taken out.** -/
theorem removal_eq (hu : Uniform h t) (hx : IsPath (findKeyInNode key) t x) (hf : x.found = true) :
    removal o x = (takeOut x).map fun p => (p.1.map (Level.ofFrame o), Load.ofItems p.2.items) := by
  obtain ⟨a, ha, -⟩ := (scans_findKeyInNode key).hit (hf ▸ hx.stop)
  obtain ⟨hi, rfl⟩ := List.getElem?_eq_some_iff.mp ha
  by_cases hleaf : x.focus.children = []
  · have hwithout := Load.ofItems_without (x.focus.items.take x.index)
      (x.focus.items.drop (x.index + 1)) x.focus.items[x.index]
    rw [← List.eraseIdx_eq_take_drop_succ, ← List.drop_eq_getElem_cons hi,
      List.take_append_drop] at hwithout
    rw [removal, takeOut_leaf hleaf, hleaf, ha]
    simp [hwithout]
  · obtain ⟨k, -, hfocus⟩ := uniform_of_plugAll (hx.eq.symm ▸ hu : Uniform h (plugAll x.frames x.focus))
    have hlen := hfocus.length_of_children hleaf
    have hne : x.focus.children.isEmpty = false := by simpa using hleaf
    rw [removal, takeOut, hne]
    simp only [Bool.false_eq_true, if_false]
    cases hc : x.focus.children[x.index]? with
    | none => rfl
    | some c =>
      cases hy : rightmost c with
      | none => simp [hy]
      | some y =>
        cases hpred : y.focus.items.getLast? with
        | none => simp [hy, hpred]
        | some pred =>
          have hwithout := Load.ofItems_without y.focus.items.dropLast [] pred
          rw [List.append_nil, List.dropLast_append_getLast? pred hpred] at hwithout
          simp [hy, hpred, hwithout, exchange_ofNode hlen ha pred]

end Removal

/-! ## A removal that fits is safe -/

section Safe

variable {f : Frame π Item} {fs : List (Frame π Item)} {leaf u : Tree π Item} {h : Nat}

theorem allShort_pathItems (hshort : (plugAll fs leaf).Each AllShort) :
    ∀ l ∈ pathItems fs leaf.items, AllShort l := by
  obtain ⟨hframes, hleaf⟩ := each_plugAll.mp hshort
  intro l hl
  rcases mem_pathItems.mp hl with ⟨g, hg, rfl⟩ | rfl
  · exact (hframes g hg).1
  · exact (each_iff.mp hleaf).1

theorem rebalanceFits_of_load [System] {pageSize : Nat} (hu : Uniform h (f.plug u))
    (hshort : (f.plug u).Each AllShort) (hsib : f.siblings ≠ [])
    (hraised : (Level.ofFrame o f).raised.taken false < defaultPageSize)
    (hturned : (Level.ofFrame o f).turned.taken false < defaultPageSize)
    (hmerged : ((Level.ofFrame o f).merged (.ofItems u.items)).taken u.children.isEmpty <
      defaultPageSize) : RebalanceFits (Capacity.page pageSize) o f u := by
  obtain ⟨hitems, hsiblings, -⟩ := Frame.each_plug.mp hshort
  have hbeside : ∀ {a : Item}, (a ∈ f.items ∨ ∃ c ∈ f.siblings, a ∈ c.items) → a.Short := by
    rintro a (ha | ⟨c, hc, ha⟩)
    · exact hitems a ha
    · exact (each_iff.mp (hsiblings c hc)).1 a ha
  refine ⟨hsib, room_page.mpr ?_, room_page.mpr ?_, room_page.mpr ?_⟩
  · obtain ⟨-, -, -, hload⟩ := exists_afterRightRotation (o := o) f
    rw [← length_afterRightRotation (o := o), pageRoom_inner_iff, hload]
    exact ⟨fun a ha => hbeside (mem_afterRightRotation ha), hraised⟩
  · rw [← length_afterRotations (o := o), pageRoom_inner_iff, afterRotations_load]
    exact ⟨fun a ha => hbeside (mem_afterRotations ha), hturned⟩
  · have hmembers : AllShort (mergedNode o f u).items := forall_mergedNode hu hshort
    obtain ⟨k, rfl, hs, hk⟩ := Frame.uniform_of_plug hu
    obtain ⟨j, hj, -, hmergedu⟩ := Frame.uniform_of_plug (rebalance_uniform (o := o) hs hk)
    obtain rfl : k = j := by omega
    rw [← mergedNode_load] at hmerged
    cases k with
    | zero =>
      rw [hk.children_eq_nil, List.isEmpty_nil] at hmerged
      rw [hmergedu.children_eq_nil, List.length_nil, pageRoom_leaf_iff]
      exact ⟨hmembers, hmerged⟩
    | succ k =>
      have hne : u.children.isEmpty = false := by
        have hlen := hk.length_children
        rw [List.isEmpty_eq_false_iff, ← List.length_pos_iff, hlen]
        omega
      rw [hne] at hmerged
      rw [hmergedu.length_children, pageRoom_inner_iff]
      exact ⟨hmembers, hmerged⟩

/-- **The repairs of a path are safe**: by induction along it. -/
theorem shrinkSafe_of_fits [System] {pageSize : Nat} (hu : Uniform h (plugAll fs leaf))
    (hleaf : leaf.children = []) (hshort : (plugAll fs leaf).Each AllShort)
    (hfit : RepairsFit o (.ofItems leaf.items) (fs.map (Level.ofFrame o)))
    (hapart : RepairsApart o (.ofItems leaf.items) (fs.map (Level.ofFrame o)))
    (hbeside : RepairsBeside o (.ofItems leaf.items) (fs.map (Level.ofFrame o))) :
    ShrinkSafe (Capacity.page pageSize) o leaf fs := by
  induction fs generalizing h with
  | nil => trivial
  | cons f fs ih =>
    obtain ⟨k, rfl, hs, hk⟩ := Frame.uniform_of_plug hu
    obtain ⟨hitems, hsiblings, hrest⟩ := Frame.each_plug.mp hshort
    rw [List.map_cons] at hfit hapart hbeside
    obtain ⟨hfit', hlevel⟩ := hfit
    obtain ⟨hbeside', hneighbour⟩ := hbeside
    have hapart' : RepairsApart o (.ofItems leaf.items) (fs.map (Level.ofFrame o)) := by
      cases fs with
      | nil => trivial
      | cons g gs => exact hapart.1
    refine ⟨ih hk hrest hfit' hapart' hbeside', fun hunder => ⟨?_, fun hout => ?_⟩⟩
    · have hload := (under_topItems_iff (allShort_pathItems hrest)).mp hunder
      obtain ⟨hraised, hturned, hmerged⟩ := hlevel hload
      obtain ⟨hu', hin⟩ := shrinkPath_spec (o := o) hk
      have heach : (f.plug (shrinkPath o leaf fs)).Each AllShort := by
        refine Frame.each_plug.mpr ⟨hitems, hsiblings, each_forall_iff.mpr ?_⟩
        rw [hin]
        exact each_forall_iff.mp hrest
      refine rebalanceFits_of_load (Frame.uniform_plug hs hu') heach (fun hnil => ?_) hraised hturned ?_
      · have hpair := hneighbour hload
        rw [Frame.siblings, List.append_eq_nil_iff, List.map_eq_nil_iff, List.map_eq_nil_iff] at hnil
        simp [Level.ofFrame, hnil.1, hnil.2] at hpair
      · rw [shrinkPath_load (allShort_pathItems hrest)]
        convert hmerged using 2
        cases fs with
        | nil => simp [shrinkPath, hleaf]
        | cons g gs =>
          obtain ⟨j, rfl, -, -⟩ := Frame.uniform_of_plug hk
          have hlen := hu'.length_children
          rw [List.map_cons, List.isEmpty_cons, List.isEmpty_eq_false_iff, ← List.length_pos_iff, hlen]
          omega
    · cases fs with
      | nil => exact hout.elim
      | cons g gs =>
        rw [List.map_cons] at hapart
        obtain ⟨-, -, hrest'⟩ := Frame.each_plug.mp hrest
        have hunder' : (Level.ofFrame o g).load.Under o := (under_topItems_iff (allShort_pathItems hrest)).mp hunder
        obtain ⟨hleft, hright⟩ := hapart.2 hunder' ((under_topItems_iff (allShort_pathItems hrest')).mp hout)
        refine ⟨by simpa [Level.ofFrame] using hleft, fun x hx => ?_⟩
        exact hright _ (Option.mem_map_of_mem _ hx)

variable {t : Tree π Item} {x : Path π Item} {key : Bytes} {p : List Level × Load}

/-- **A removal that fits is safe.** -/
theorem removeSafe_of_fits [System] {pageSize : Nat} (hu : Uniform h t) (hshort : t.Each AllShort)
    (hx : locate (findKeyInNode key) t = some x) (hpath : IsPath (findKeyInNode key) t x)
    (hf : x.found = true) (hp : removal o x = some p) (hfits : RemoveFits o p)
    (hbeside : RepairsBeside o p.2 p.1) : RemoveSafe (Capacity.page pageSize) o key t := by
  rw [removal_eq hu hpath hf] at hp
  obtain ⟨⟨fs, leaf⟩, hq, rfl⟩ := Option.map_eq_some_iff.mp hp
  obtain ⟨⟨l₁, a, l₂, hin, -, hin'⟩, huq, hleaf⟩ := takeOut_spec hu hpath hf hq
  have hrest : (plugAll fs leaf).Each AllShort := by
    refine each_forall_iff.mpr fun b hb => each_forall_iff.mp hshort b ?_
    rw [hin'] at hb
    rw [hin]
    exact ((List.Sublist.refl l₁).append (List.sublist_cons_self a l₂)).subset hb
  refine (removeSafe_iff hx hf hq).mpr ⟨fun f hf => room_page.mpr ?_, ?_⟩
  · exact pageRoom_inner_iff.mpr ⟨((each_plugAll.mp hrest).1 f hf).1,
      hfits.nodes _ (List.mem_map_of_mem hf)⟩
  · exact shrinkSafe_of_fits huq hleaf hrest hfits.repairs hfits.apart hbeside

end Safe

/-! ## Calls that fit -/

section Decide

variable [System] (o : Options)

instance decidableSplitsFit : ∀ (fs : List (Frame π Item)) (its : List Item), Decidable (SplitsFit o fs its)
  | [], _ => isTrue trivial
  | _ :: fs, its =>
    have := decidableSplitsFit fs its
    inferInstanceAs (Decidable (_ ∧ (_ → ∃ m ∈ middleItem o (topItems fs its), _)))

instance (item : Item) (t : Tree π Item) : Decidable (PutFits o item t) :=
  inferInstanceAs (Decidable (_ ∧ ∀ x ∈ locate (findKeyInNode item.key) t, _ ∧ _ ∧ (_ → _)))

instance decidableRepairsFit (leaf : Load) : ∀ lvs, Decidable (RepairsFit o leaf lvs)
  | [] => isTrue trivial
  | _ :: lvs =>
    have := decidableRepairsFit leaf lvs
    inferInstanceAs (Decidable (_ ∧ (_ → _ ∧ _ ∧ _)))

omit [System] in
instance decidableRepairsApart (leaf : Load) : ∀ lvs, Decidable (RepairsApart o leaf lvs)
  | [] => isTrue trivial
  | [_] => isTrue trivial
  | _ :: lv' :: lvs =>
    have := decidableRepairsApart leaf (lv' :: lvs)
    inferInstanceAs (Decidable (_ ∧ (_ → _ → _ ∧ _)))

omit [System] in
instance decidableRepairsBeside (leaf : Load) : ∀ lvs, Decidable (RepairsBeside o leaf lvs)
  | [] => isTrue trivial
  | _ :: lvs =>
    have := decidableRepairsBeside leaf lvs
    inferInstanceAs (Decidable (_ ∧ (_ → _ ∨ _)))

instance (p : List Level × Load) : Decidable (RemoveFits o p) :=
  decidable_of_iff ((∀ lv ∈ p.1, lv.load.taken false < defaultPageSize) ∧
      RepairsFit o p.2 p.1 ∧ RepairsApart o p.2 p.1)
    ⟨fun ⟨h, hr, ha⟩ => ⟨h, hr, ha⟩, fun h => ⟨h.nodes, h.repairs, h.apart⟩⟩

end Decide

/-- The call finds room for what it writes, and what it needs to go on: a split index, an item
to take, a neighbour. -/
def Op.Fits [System] (o : Options) : Op → Option Outline → Prop
  | .put key value _, none => (Item.mk key value).Short
  | .put key value _, some t => PutFits o ⟨key, value⟩ t
  | .remove key, some t => ∀ x ∈ locate (findKeyInNode key) t, x.found = true →
      ∃ p ∈ removal o x, RemoveFits o p ∧ RepairsBeside o p.2 p.1
  | .remove _, none => False

instance [System] (o : Options) (op : Op) (t : Option Outline) : Decidable (op.Fits o t) :=
  match op, t with
  | .put key value _, none => inferInstanceAs (Decidable (Item.mk key value).Short)
  | .put key value _, some t => inferInstanceAs (Decidable (PutFits o ⟨key, value⟩ t))
  | .remove key, some t => inferInstanceAs (Decidable (∀ x ∈ locate (findKeyInNode key) t, _ →
      ∃ p ∈ removal o x, RemoveFits o p ∧ RepairsBeside o p.2 p.1))
  | .remove _, none => isFalse id

theorem pageRoom_single [System] {a : Item} (ha : a.Short) : PageRoom [a] 0 := by
  have hlarge := le_defaultPageSize
  obtain ⟨hk, hv⟩ := id ha
  refine pageRoom_leaf_iff.mpr ⟨by simpa using ha, ?_⟩
  simp only [Load.taken, Load.ofItems, if_pos, List.length_singleton, List.map_singleton,
    List.sum_singleton, Item.bytes, headerSize]
  omega

/-- **A call that fits is safe.** -/
theorem Op.safe_of_fits [System] {pageSize : Nat} {t : Option Outline} {op : Op} (hw : WellFormed t)
    (hshort : ∀ u ∈ t, u.Each AllShort) (hfits : op.Fits o t) :
    op.Safe (Capacity.page pageSize) o t := by
  cases t with
  | none =>
    cases op with
    | put key value pastEnd => exact room_page.mpr (pageRoom_single hfits)
    | remove key => exact hfits
  | some t =>
    obtain ⟨⟨h, hu⟩, -⟩ := wellFormed_some.mp hw
    cases op with
    | put key value pastEnd =>
      exact putSafe_of_fits hu (each_forall_iff.mp (hshort t rfl)) hfits
    | remove key =>
      intro x hx hf
      obtain ⟨x', hx', hpath⟩ := exists_path key hu.regular
      obtain rfl := Option.some.inj (hx.symm.trans hx')
      obtain ⟨p, hp, hremove, hbeside⟩ := hfits x hx hf
      exact removeSafe_of_fits hu (hshort t rfl) hx hpath hf hp hremove hbeside x hx hf

namespace Collection

/-- The call is fresh, and by the bytes of the tree it finds room; the page numbers it may hand
out can be written down. -/
def fittingly [System] (o : Options) (maxPage : Nat) (op : Op) (t : Option PTree) : Prop :=
  op.Fresh t ∧ op.Fits o (t.map Tree.erase) ∧ op.Numbers (Capacity.page o.pageSize) maxPage t

instance [System] (o : Options) (maxPage : Nat) (op : Op) (t : Option PTree) :
    Decidable (fittingly o maxPage op t) := inferInstanceAs (Decidable (_ ∧ _ ∧ _))

/-- The call fits in the state it is made in. -/
def FitsAt [System] {φ : Type} [PageStore φ] : Collection φ → Op → Prop := MeetsAt fittingly

section Session

variable [System] {o : Options} {base : Bytes} {c : Collection File} {t : Option PTree} {op : Op}

theorem Session.allShort (h : Session o base c t) :
    ∀ u ∈ t.map Tree.erase, u.Each AllShort := by
  intro u hu
  obtain ⟨v, hv, rfl⟩ := Option.map_eq_some_iff.mp hu
  exact each_erase.mpr fun w hw => (h.room hv hw).2.1

theorem Session.safeAt_of_fitsAt (h : Session o base c t) (hfits : FitsAt c op) :
    SafeAt (Capacity.page o.pageSize) c op := by
  obtain ⟨u, hu, hfresh, hfit, hn⟩ := hfits
  obtain rfl := hu.unique h.serves.toShows
  rw [h.options] at hn
  exact ⟨u, hu, hfresh, Op.safe_of_fits (wellFormed_erase.mpr h.wellFormed) h.allShort hfit, hn⟩

end Session

end Collection

end Toocal
