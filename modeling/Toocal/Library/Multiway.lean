import Mathlib.Data.List.Basic
import Mathlib.Data.List.Perm.Basic
import Mathlib.Data.List.Flatten
import Mathlib.Tactic.Common

/-!
# Multiway trees

A node carries a tag, a list of items and a list of children.  In a tree that is
in shape an inner node has one child more than it has items, and its in-order
sequence runs through child, item, child, …, child.

* `inorder` reads the items in order; on a leaf it is the item list.
* `Frame` is a node with one child taken out, the neighbours of the hole nearest
  first.  A node rebuilt by `Frame.plug` has one child more than items whatever
  the frame, so the operations below cannot break the count.
* `splitLeft`, `splitRight` cut a node at an item; `inorder_split` says nothing
  is lost.
* `Uniform h` is the shape of a tree all of whose leaves are at depth `h`; `Jointed h`
  asks it of the root alone, and `Regular` asks only for the counts.
* `erase` forgets the tags.
-/

namespace Multiway

/-- A multiway tree. -/
inductive Tree (π α : Type) where
  | node (tag : π) (items : List α) (children : List (Tree π α))

variable {π ρ α : Type}

namespace Tree

def tag : Tree π α → π
  | node p _ _ => p

def items : Tree π α → List α
  | node _ its _ => its

def children : Tree π α → List (Tree π α)
  | node _ _ cs => cs

@[simp] theorem tag_node (p : π) (its : List α) (cs) : (node p its cs).tag = p := rfl
@[simp] theorem items_node (p : π) (its : List α) (cs) : (node p its cs).items = its := rfl
@[simp] theorem children_node (p : π) (its : List α) (cs) : (node p its cs).children = cs := rfl

theorem eta (t : Tree π α) : node t.tag t.items t.children = t := by cases t; rfl

mutual
/-- The items in order. -/
def inorder : Tree π α → List α
  | node _ its cs => weave its cs
/-- Children and items in turn, starting with a child. -/
def weave : List α → List (Tree π α) → List α
  | its, [] => its
  | [], c :: cs => inorder c ++ weave [] cs
  | a :: its, c :: cs => inorder c ++ a :: weave its cs
end

mutual
/-- The tree and all trees below it. -/
def subtrees : Tree π α → List (Tree π α)
  | node p its cs => node p its cs :: subtreesList cs
def subtreesList : List (Tree π α) → List (Tree π α)
  | [] => []
  | c :: cs => subtrees c ++ subtreesList cs
end

mutual
/-- Forget the tags. -/
def erase : Tree π α → Tree Unit α
  | node _ its cs => node () its (eraseList cs)
def eraseList : List (Tree π α) → List (Tree Unit α)
  | [] => []
  | c :: cs => erase c :: eraseList cs
end

theorem subtreesList_eq (cs : List (Tree π α)) : subtreesList cs = cs.flatMap subtrees := by
  induction cs with
  | nil => rfl
  | cons c cs ih => rw [subtreesList, ih, List.flatMap_cons]

theorem eraseList_eq (cs : List (Tree π α)) : eraseList cs = cs.map erase := by
  induction cs with
  | nil => rfl
  | cons c cs ih => rw [eraseList, ih, List.map_cons]

theorem subtrees_node (p : π) (its : List α) (cs) :
    subtrees (node p its cs) = node p its cs :: cs.flatMap subtrees := by
  rw [subtrees, subtreesList_eq]

@[simp] theorem erase_node (p : π) (its : List α) (cs) :
    erase (node p its cs) = node () its (cs.map erase) := by
  rw [erase, eraseList_eq]

@[simp] theorem items_erase (t : Tree π α) : t.erase.items = t.items := by
  cases t; rw [erase_node]; rfl

@[simp] theorem children_erase (t : Tree π α) : t.erase.children = t.children.map erase := by
  cases t; rw [erase_node]; rfl

theorem inorder_node (p : π) (its : List α) (cs) : inorder (node p its cs) = weave its cs := rfl

theorem inorder_leaf (p : π) (its : List α) : inorder (node p its ([] : List (Tree π α))) = its := by
  rw [inorder, weave]

@[simp] theorem weave_nil (its : List α) : weave its ([] : List (Tree π α)) = its := by
  cases its <;> rw [weave]

@[simp] theorem weave_cons (a : α) (its : List α) (c : Tree π α) (cs) :
    weave (a :: its) (c :: cs) = inorder c ++ a :: weave its cs := by rw [weave]

@[simp] theorem weave_nil_cons (c : Tree π α) (cs) :
    weave [] (c :: cs) = inorder c ++ weave [] cs := by rw [weave]

theorem mem_subtrees_self (t : Tree π α) : t ∈ subtrees t := by
  cases t; rw [subtrees_node]; exact List.mem_cons_self

theorem subtrees_child {t c : Tree π α} (h : c ∈ t.children) : subtrees c ⊆ subtrees t := by
  cases t with
  | node p its cs =>
    rw [subtrees_node]
    intro u hu
    exact List.mem_cons_of_mem _ (List.mem_flatMap.mpr ⟨c, h, hu⟩)

/-- The tags of the tree and of everything below it. -/
def tags (t : Tree π α) : List π := t.subtrees.map tag

theorem tags_node (p : π) (its : List α) (cs : List (Tree π α)) :
    (node p its cs).tags = p :: cs.flatMap tags := by
  rw [tags, subtrees_node, List.map_cons, List.map_flatMap]; rfl

theorem tags_eq (t : Tree π α) : t.tags = t.tag :: t.children.flatMap tags := by
  cases t; rw [tags_node]; rfl

theorem tag_mem_tags (t : Tree π α) : t.tag ∈ t.tags := by rw [tags_eq]; exact List.mem_cons_self

theorem tags_child {t c : Tree π α} (h : c ∈ t.children) : c.tags ⊆ t.tags := by
  rw [tags_eq t]
  exact fun q hq => List.mem_cons_of_mem _ (List.mem_flatMap.mpr ⟨c, h, hq⟩)

/-- Induction over a tree: a statement passes from the children to the node. -/
theorem ind {P : Tree π α → Prop}
    (h : ∀ p its cs, (∀ c ∈ cs, P c) → P (node p its cs)) : ∀ t, P t
  | node p its cs => h p its cs fun c _ => ind h c

theorem subtrees_subset {t u : Tree π α} (h : u ∈ t.subtrees) : u.subtrees ⊆ t.subtrees := by
  induction t using Tree.ind with
  | h p its cs ih =>
    rw [subtrees_node] at h
    rcases List.mem_cons.mp h with rfl | h
    · exact List.Subset.refl _
    · obtain ⟨c, hc, hu⟩ := List.mem_flatMap.mp h
      exact List.Subset.trans (ih c hc hu) (subtrees_child hc)

theorem length_subtrees_child {t c : Tree π α} (h : c ∈ t.children) :
    c.subtrees.length < t.subtrees.length := by
  cases t with
  | node p its cs =>
    obtain ⟨ls, rs, rfl⟩ := List.append_of_mem h
    rw [subtrees_node, List.flatMap_append, List.flatMap_cons]
    simp only [List.length_cons, List.length_append]
    omega

theorem length_subtrees_le {t u : Tree π α} (h : u ∈ t.subtrees) :
    u.subtrees.length ≤ t.subtrees.length := by
  induction t using Tree.ind with
  | h p its cs ih =>
    rw [subtrees_node] at h
    rcases List.mem_cons.mp h with rfl | h
    · exact Nat.le_refl _
    · obtain ⟨c, hc, hu⟩ := List.mem_flatMap.mp h
      have hlt : c.subtrees.length < (node p its cs).subtrees.length := length_subtrees_child hc
      exact Nat.le_trans (ih c hc hu) (Nat.le_of_lt hlt)

theorem children_ne_of_mem_subtrees {t c u : Tree π α} (hc : c ∈ t.children)
    (hu : u ∈ c.subtrees) : u.children ≠ t.children := by
  intro he
  have hlt : c.subtrees.length < u.subtrees.length := length_subtrees_child (he ▸ hc)
  have hle := length_subtrees_le hu
  omega

/-- A tree all of whose leaves are at depth `h`, and whose inner nodes have one
child more than items. -/
inductive Uniform : Nat → Tree π α → Prop
  | leaf (p : π) (its : List α) : Uniform 0 (node p its [])
  | inner {h : Nat} (p : π) (its : List α) (cs : List (Tree π α)) :
      cs.length = its.length + 1 → (∀ c ∈ cs, Uniform h c) → Uniform (h + 1) (node p its cs)

theorem Uniform.children_eq_nil {t : Tree π α} (h : Uniform 0 t) : t.children = [] := by
  cases h; rfl

theorem Uniform.length_children {h : Nat} {t : Tree π α} (hu : Uniform (h + 1) t) :
    t.children.length = t.items.length + 1 := by
  cases hu; assumption

theorem Uniform.length_of_children {h : Nat} {t : Tree π α} (hu : Uniform h t)
    (hne : t.children ≠ []) : t.children.length = t.items.length + 1 := by
  cases h with
  | zero => exact absurd hu.children_eq_nil hne
  | succ h => exact hu.length_children

theorem Uniform.child {h : Nat} {t c : Tree π α} (hu : Uniform (h + 1) t) (hc : c ∈ t.children) :
    Uniform h c := by
  cases hu with
  | inner p its cs _ hcs => exact hcs c hc

/-- The root is a leaf at depth 0, and above it has one child more than items. -/
def Jointed : Nat → Tree π α → Prop
  | 0, t => t.children = []
  | _ + 1, t => t.children.length = t.items.length + 1

section Jointed

variable {h : Nat} {t c : Tree π α}

theorem Jointed.children_eq_nil (hj : Jointed 0 t) : t.children = [] := hj

theorem Jointed.length_children (hj : Jointed (h + 1) t) :
    t.children.length = t.items.length + 1 := hj

theorem Jointed.children_ne_nil (hj : Jointed (h + 1) t) : t.children ≠ [] := by
  intro he
  have := hj.length_children
  rw [he] at this
  simp at this

theorem Jointed.zero_of_children (hj : Jointed h t) (hc : t.children = []) : h = 0 := by
  cases h with
  | zero => rfl
  | succ h => exact absurd hc hj.children_ne_nil

theorem Uniform.jointed (hu : Uniform h t) : Jointed h t := by
  cases h with
  | zero => exact hu.children_eq_nil
  | succ h => exact hu.length_children

theorem Uniform.of_mem (hu : Uniform h t) (hc : c ∈ t.children) : ∃ k, h = k + 1 ∧ Uniform k c := by
  cases h with
  | zero =>
    rw [hu.children_eq_nil] at hc
    cases hc
  | succ k => exact ⟨k, rfl, hu.child hc⟩

theorem Jointed.uniform (hj : Jointed h t)
    (hc : ∀ c ∈ t.children, ∃ k, h = k + 1 ∧ Uniform k c) : Uniform h t := by
  obtain ⟨p, its, cs⟩ := t
  cases h with
  | zero =>
    obtain rfl : cs = [] := hj
    exact .leaf p its
  | succ h =>
    refine .inner p its cs hj fun c hm => ?_
    obtain ⟨k, hk, hu⟩ := hc c hm
    obtain rfl : h = k := by omega
    exact hu

theorem Uniform.zero_of_children (hu : Uniform h t) (hc : t.children = []) : h = 0 :=
  hu.jointed.zero_of_children hc

theorem uniform_zero_iff : Uniform 0 t ↔ t.children.isEmpty = true :=
  ⟨fun hu => List.isEmpty_iff.mpr hu.children_eq_nil, fun hc =>
    Jointed.uniform (List.isEmpty_iff.mp hc) fun c hm => by
      rw [List.isEmpty_iff.mp hc] at hm
      cases hm⟩

theorem uniform_succ_iff : Uniform (h + 1) t ↔
    t.children.length = t.items.length + 1 ∧ ∀ c ∈ t.children, Uniform h c :=
  ⟨fun hu => ⟨hu.length_children, fun _ hc => hu.child hc⟩, fun hu =>
    Jointed.uniform hu.1 fun c hc => ⟨h, rfl, hu.2 c hc⟩⟩

end Jointed

instance decidableUniform {π α : Type} : (h : Nat) → (t : Tree π α) → Decidable (Uniform h t)
  | 0, _ => decidable_of_iff _ uniform_zero_iff.symm
  | h + 1, t =>
    have : ∀ c : Tree π α, Decidable (Uniform h c) := fun c => decidableUniform h c
    decidable_of_iff (t.children.length = t.items.length + 1 ∧ ∀ c ∈ t.children, Uniform h c)
      uniform_succ_iff.symm

/-- Every inner node has one child more than items, at whatever depths the leaves are. -/
def Regular (t : Tree π α) : Prop :=
  ∀ u ∈ t.subtrees, u.children = [] ∨ u.children.length = u.items.length + 1

theorem Regular.child {t c : Tree π α} (hr : Regular t) (hc : c ∈ t.children) : Regular c :=
  fun u hu => hr u (subtrees_child hc hu)

theorem Regular.length_children {t c : Tree π α} (hr : Regular t) (hc : c ∈ t.children) :
    t.children.length = t.items.length + 1 := by
  rcases hr t (mem_subtrees_self t) with hnil | hlen
  · rw [hnil] at hc
    cases hc
  · exact hlen

theorem Uniform.regular {h : Nat} {t : Tree π α} (hu : Uniform h t) : Regular t := by
  induction hu with
  | leaf p its =>
    intro u hmem
    rw [subtrees_node, List.flatMap_nil, List.mem_singleton] at hmem
    subst hmem
    exact Or.inl rfl
  | inner p its cs hl _ ih =>
    intro u hmem
    rw [subtrees_node] at hmem
    rcases List.mem_cons.mp hmem with rfl | hmem
    · exact Or.inr hl
    · obtain ⟨c, hc, hu⟩ := List.mem_flatMap.mp hmem
      exact ih c hc u hu

theorem Uniform.erase {h : Nat} {t : Tree π α} (hu : Uniform h t) : Uniform h t.erase := by
  induction hu with
  | leaf p its => rw [erase_node]; exact .leaf () its
  | inner p its cs hl _ ih =>
    rw [erase_node]
    refine .inner () its _ (by rw [List.length_map, hl]) fun c hc => ?_
    obtain ⟨d, hd, rfl⟩ := List.mem_map.mp hc
    exact ih d hd

theorem inorder_erase (t : Tree π α) : t.erase.inorder = t.inorder := by
  induction t using Tree.ind with
  | h p its cs ih =>
    rw [erase_node, inorder_node, inorder_node]
    induction cs generalizing its with
    | nil => simp
    | cons c cs ihc =>
      have hc := ih c List.mem_cons_self
      have hcs := fun its => ihc its fun d hd => ih d (List.mem_cons_of_mem c hd)
      cases its with
      | nil => simp only [List.map_cons, weave_nil_cons, hc, hcs]
      | cons a its => simp only [List.map_cons, weave_cons, hc, hcs]

/-- Erasing the tags keeps the whole shape: the uniform depth can be read off it. -/
theorem Uniform.of_erase {t : Tree π α} : ∀ {h : Nat}, Uniform h t.erase → Uniform h t := by
  induction t using Tree.ind with
  | h p its cs ih =>
    intro h hu
    rw [erase_node] at hu
    cases h with
    | zero =>
      have := hu.children_eq_nil
      rw [children_node, List.map_eq_nil_iff] at this
      subst this
      exact .leaf p its
    | succ h =>
      refine .inner p its cs (by simpa using hu.length_children) fun c hc => ih c hc ?_
      exact hu.child (List.mem_map_of_mem (f := Tree.erase) hc)

/-! ## Weaving -/

theorem weave_pairs (l : List (Tree π α × α)) (its : List α) (cs : List (Tree π α)) :
    weave (l.map Prod.snd ++ its) (l.map Prod.fst ++ cs) =
      (l.flatMap fun x => inorder x.1 ++ [x.2]) ++ weave its cs := by
  induction l with
  | nil => rfl
  | cons x l ih => simp [ih]

theorem weave_cons_pairs (t : Tree π α) (l : List (α × Tree π α)) :
    weave (l.map Prod.fst) (t :: l.map Prod.snd) =
      t.inorder ++ l.flatMap fun x => x.1 :: inorder x.2 := by
  induction l generalizing t with
  | nil => simp
  | cons x l ih => simp only [List.map_cons, weave_cons, ih, List.flatMap_cons, List.cons_append]

theorem mem_inorder_iff {t : Tree π α} {a : α} :
    a ∈ t.inorder ↔ a ∈ t.items ∨ ∃ c ∈ t.children, a ∈ c.inorder := by
  have hw : ∀ (cs : List (Tree π α)) (its : List α),
      a ∈ weave its cs ↔ a ∈ its ∨ ∃ c ∈ cs, a ∈ c.inorder := by
    intro cs
    induction cs with
    | nil => simp
    | cons c cs ih =>
      intro its
      cases its with
      | nil => simp [ih]
      | cons b its =>
        simp only [weave_cons, List.mem_append, List.mem_cons, ih, exists_eq_or_imp]
        tauto
  cases t with
  | node p its cs => exact hw cs its

theorem weave_set (cs : List (Tree π α)) {its : List α} {i : Nat} {a : α}
    (ha : its[i]? = some a) :
    ∃ l₁ l₂, weave its cs = l₁ ++ a :: l₂ ∧ ∀ b, weave (its.set i b) cs = l₁ ++ b :: l₂ := by
  induction cs generalizing its i with
  | nil =>
    obtain ⟨hi, rfl⟩ := List.getElem?_eq_some_iff.mp ha
    refine ⟨its.take i, its.drop (i + 1), by simp, fun b => ?_⟩
    rw [weave_nil, List.set_eq_take_append_cons_drop, if_pos hi]
  | cons c cs ih =>
    cases its with
    | nil => cases ha
    | cons a' its =>
      cases i with
      | zero =>
        obtain rfl : a' = a := Option.some.inj ha
        exact ⟨inorder c, weave its cs, weave_cons _ _ _ _, fun b => weave_cons _ _ _ _⟩
      | succ i =>
        obtain ⟨l₁, l₂, hold, hnew⟩ := ih (show its[i]? = some a from ha)
        refine ⟨inorder c ++ a' :: l₁, l₂, ?_, fun b => ?_⟩
        · rw [weave_cons, hold, List.append_assoc, List.cons_append]
        · rw [List.set_cons_succ, weave_cons, hnew, List.append_assoc, List.cons_append]

end Tree

open Multiway.Tree

/-! ## Nodes with a hole -/

/-- A node with one child taken out.  `left` and `right` hold what stands on either
side of the hole, nearest first. -/
structure Frame (π α : Type) where
  tag : π
  left : List (Tree π α × α)
  right : List (α × Tree π α)

namespace Frame

def items (f : Frame π α) : List α := (f.left.map Prod.snd).reverse ++ f.right.map Prod.fst

/-- Put a child into the hole. -/
def plug (f : Frame π α) (t : Tree π α) : Tree π α :=
  .node f.tag f.items ((f.left.map Prod.fst).reverse ++ t :: f.right.map Prod.snd)

/-- Put an item and a tree right after the hole. -/
def addRight (f : Frame π α) (a : α) (t : Tree π α) : Frame π α :=
  { f with right := (a, t) :: f.right }

/-- What the in-order sequence has before the hole. -/
def before (f : Frame π α) : List α := f.left.reverse.flatMap fun x => inorder x.1 ++ [x.2]

/-- What the in-order sequence has after the hole. -/
def after (f : Frame π α) : List α := f.right.flatMap fun x => x.1 :: inorder x.2

/-- The siblings of the hole. -/
def siblings (f : Frame π α) : List (Tree π α) := f.left.map Prod.fst ++ f.right.map Prod.snd

/-- Forget the tags. -/
def erase (f : Frame π α) : Frame Unit α :=
  ⟨(), f.left.map fun x => (x.1.erase, x.2), f.right.map fun x => (x.1, x.2.erase)⟩

@[simp] theorem tag_plug (f : Frame π α) (t : Tree π α) : (f.plug t).tag = f.tag := rfl
@[simp] theorem items_plug (f : Frame π α) (t : Tree π α) : (f.plug t).items = f.items := rfl
@[simp] theorem children_plug (f : Frame π α) (t : Tree π α) : (f.plug t).children =
    (f.left.map Prod.fst).reverse ++ t :: f.right.map Prod.snd := rfl
@[simp] theorem tag_addRight (f : Frame π α) (a : α) (t) : (f.addRight a t).tag = f.tag := rfl
@[simp] theorem left_addRight (f : Frame π α) (a : α) (t) : (f.addRight a t).left = f.left := rfl
@[simp] theorem right_addRight (f : Frame π α) (a : α) (t) :
    (f.addRight a t).right = (a, t) :: f.right := rfl

theorem length_items (f : Frame π α) : f.items.length = f.left.length + f.right.length := by
  simp [items]

@[simp] theorem items_erase (f : Frame π α) : f.erase.items = f.items := by
  simp [items, erase, Function.comp_def]

@[simp] theorem erase_plug (f : Frame π α) (t : Tree π α) :
    (f.plug t).erase = f.erase.plug t.erase := by
  simp [plug, erase, items, Function.comp_def]

@[simp] theorem erase_addRight (f : Frame π α) (a : α) (t : Tree π α) :
    (f.addRight a t).erase = f.erase.addRight a t.erase := rfl

/-- **The in-order sequence around a hole.** -/
theorem inorder_plug (f : Frame π α) (t : Tree π α) :
    (f.plug t).inorder = f.before ++ t.inorder ++ f.after := by
  rw [plug, inorder_node, items, ← List.map_reverse, ← List.map_reverse, weave_pairs,
    weave_cons_pairs, before, after, List.append_assoc]

theorem before_addRight (f : Frame π α) (a : α) (t : Tree π α) :
    (f.addRight a t).before = f.before := rfl

theorem after_addRight (f : Frame π α) (a : α) (t : Tree π α) :
    (f.addRight a t).after = a :: t.inorder ++ f.after := by
  simp [after, addRight]

theorem jointed_plug (f : Frame π α) (t : Tree π α) (h : Nat) : Jointed (h + 1) (f.plug t) := by
  simp only [Jointed, children_plug, items_plug, length_items, List.length_append, List.length_cons,
    List.length_reverse, List.length_map]
  omega

theorem uniform_plug {f : Frame π α} {t : Tree π α} {h : Nat}
    (hs : ∀ c ∈ f.siblings, Uniform h c) (ht : Uniform h t) : Uniform (h + 1) (f.plug t) := by
  refine .inner _ _ _ (jointed_plug f t h) fun c hc => ?_
  rcases List.mem_append.mp hc with hl | hr
  · exact hs c (List.mem_append_left _ (by simpa using hl))
  · rcases List.mem_cons.mp hr with rfl | hr
    · exact ht
    · exact hs c (List.mem_append_right _ hr)

/-- The neighbours of the hole are in shape at depth `h`. -/
def Beside (h : Nat) (f : Frame π α) : Prop :=
  (∀ x ∈ f.left.head?, Jointed h x.1) ∧ ∀ x ∈ f.right.head?, Jointed h x.2

theorem beside_of_uniform {f : Frame π α} {h : Nat} (hs : ∀ c ∈ f.siblings, Uniform h c) :
    f.Beside h :=
  ⟨fun x hx => (hs x.1 (List.mem_append_left _
      (List.mem_map_of_mem (List.mem_of_mem_head? hx)))).jointed,
    fun x hx => (hs x.2 (List.mem_append_right _
      (List.mem_map_of_mem (List.mem_of_mem_head? hx)))).jointed⟩

theorem uniform_of_plug {f : Frame π α} {t : Tree π α} {h : Nat} (hu : Uniform h (f.plug t)) :
    ∃ k, h = k + 1 ∧ (∀ c ∈ f.siblings, Uniform k c) ∧ Uniform k t := by
  cases h with
  | zero => exact absurd hu.children_eq_nil (by simp)
  | succ k =>
    refine ⟨k, rfl, fun c hc => hu.child ?_, hu.child (by simp)⟩
    rw [siblings, List.mem_append] at hc
    rw [children_plug, List.mem_append, List.mem_reverse, List.mem_cons]
    tauto

/-- The node `(p, its, cs)` with the child at `i` taken out. -/
def ofNode (p : π) (its : List α) (cs : List (Tree π α)) (i : Nat) : Frame π α :=
  ⟨p, ((cs.take i).zip (its.take i)).reverse, (its.drop i).zip (cs.drop (i + 1))⟩

theorem length_left_ofNode {p : π} {its : List α} {cs : List (Tree π α)} {i : Nat}
    (hl : cs.length = its.length + 1) (hi : i ≤ its.length) :
    (ofNode p its cs i).left.length = i := by
  simp [ofNode]; omega

theorem plug_ofNode_set {p : π} {its : List α} {cs : List (Tree π α)} {i : Nat} (t : Tree π α)
    (hl : cs.length = its.length + 1) (hi : i < cs.length) :
    (ofNode p its cs i).plug t = .node p its (cs.set i t) := by
  have h1 : ((cs.take i).zip (its.take i)).map Prod.fst = cs.take i :=
    List.map_fst_zip (by simp; omega)
  have h2 : ((cs.take i).zip (its.take i)).map Prod.snd = its.take i :=
    List.map_snd_zip (by simp; omega)
  have h3 : ((its.drop i).zip (cs.drop (i + 1))).map Prod.fst = its.drop i :=
    List.map_fst_zip (by simp; omega)
  have h4 : ((its.drop i).zip (cs.drop (i + 1))).map Prod.snd = cs.drop (i + 1) :=
    List.map_snd_zip (by simp; omega)
  simp only [plug, items, ofNode, List.map_reverse, List.reverse_reverse, h1, h2, h3, h4,
    List.take_append_drop, List.set_eq_take_append_cons_drop, if_pos hi]

theorem plug_ofNode {p : π} {its : List α} {cs : List (Tree π α)} {i : Nat} {c : Tree π α}
    (hl : cs.length = its.length + 1) (hc : cs[i]? = some c) :
    (ofNode p its cs i).plug c = .node p its cs := by
  obtain ⟨hi, rfl⟩ := List.getElem?_eq_some_iff.mp hc
  rw [plug_ofNode_set _ hl hi, List.set_getElem_self]

theorem items_ofNode {p : π} {its : List α} {cs : List (Tree π α)} {i : Nat} {c : Tree π α}
    (hl : cs.length = its.length + 1) (hc : cs[i]? = some c) : (ofNode p its cs i).items = its := by
  rw [← items_plug _ c, plug_ofNode hl hc, items_node]

theorem child_hole {f : Frame π α} {t : Tree π α} : (f.plug t).children[f.left.length]? = some t := by
  rw [children_plug, List.getElem?_append_right (by simp)]
  simp

theorem child_left {f : Frame π α} {t l : Tree π α} {a : α} {ls : List (Tree π α × α)}
    (hl : f.left = (l, a) :: ls) : (f.plug t).children[ls.length]? = some l := by
  rw [children_plug, hl, List.map_cons, List.reverse_cons, List.append_assoc,
    List.getElem?_append_right (by simp)]
  simp

theorem child_right {f : Frame π α} {t r : Tree π α} {b : α} {rs : List (α × Tree π α)}
    (hr : f.right = (b, r) :: rs) : (f.plug t).children[f.left.length + 1]? = some r := by
  rw [children_plug, hr, List.getElem?_append_right (by simp)]
  simp

theorem erase_ofNode (p : π) (its : List α) (cs : List (Tree π α)) (i : Nat) :
    (ofNode p its cs i).erase = ofNode () its (cs.map Tree.erase) i := by
  simp only [ofNode, erase, List.map_reverse, ← List.map_take, ← List.map_drop,
    List.zip_map_left, List.zip_map_right]
  rfl

end Frame

theorem exists_plug {t c : Tree π α} {i : Nat} (hl : t.children.length = t.items.length + 1)
    (hc : t.children[i]? = some c) : ∃ f : Frame π α, f.plug c = t ∧ f.left.length = i := by
  have hi := (List.getElem?_eq_some_iff.mp hc).1
  exact ⟨Frame.ofNode t.tag t.items t.children i, (Frame.plug_ofNode hl hc).trans (eta t),
    Frame.length_left_ofNode hl (by omega)⟩

namespace Frame

/-- The tags of the node and of the siblings of the hole. -/
def tags (f : Frame π α) : List π := f.tag :: f.siblings.flatMap Tree.tags

theorem tags_plug (f : Frame π α) (t : Tree π α) : (f.plug t).tags.Perm (f.tags ++ t.tags) := by
  rw [tags_eq, tag_plug, children_plug, tags, siblings, List.cons_append]
  apply List.Perm.cons
  simp only [List.flatMap_append, List.flatMap_cons, List.append_assoc]
  refine ((List.reverse_perm _).flatMap_right _).append ?_
  exact List.perm_append_comm

theorem tags_addRight (f : Frame π α) (a : α) (t : Tree π α) :
    (f.addRight a t).tags.Perm (t.tags ++ f.tags) := by
  rw [tags, tags, siblings, siblings, tag_addRight, left_addRight, right_addRight, List.map_cons,
    List.flatMap_append, List.flatMap_cons, List.flatMap_append]
  refine List.Perm.trans (List.Perm.cons _ ?_) List.perm_middle.symm
  rw [← List.append_assoc, ← List.append_assoc]
  exact List.perm_append_comm.append_right _

end Frame

/-- Plug a tree into a path of frames, outermost first. -/
def plugAll (fs : List (Frame π α)) (t : Tree π α) : Tree π α := fs.foldr Frame.plug t

@[simp] theorem plugAll_nil (t : Tree π α) : plugAll [] t = t := rfl
@[simp] theorem plugAll_cons (f : Frame π α) (fs) (t : Tree π α) :
    plugAll (f :: fs) t = f.plug (plugAll fs t) := rfl
@[simp] theorem plugAll_append (fs gs : List (Frame π α)) (t : Tree π α) :
    plugAll (fs ++ gs) t = plugAll fs (plugAll gs t) := by simp [plugAll]

theorem erase_plugAll (fs : List (Frame π α)) (t : Tree π α) :
    (plugAll fs t).erase = plugAll (fs.map Frame.erase) t.erase := by
  induction fs with
  | nil => rfl
  | cons f fs ih => rw [plugAll_cons, Frame.erase_plug, ih, List.map_cons, plugAll_cons]

theorem mem_subtrees_plugAll (fs : List (Frame π α)) (u : Tree π α) : u ∈ (plugAll fs u).subtrees := by
  induction fs with
  | nil => exact mem_subtrees_self u
  | cons f fs ih => exact subtrees_child (by simp) ih

/-- **Every subtree is reached on a path.** -/
theorem exists_plugAll {t u : Tree π α} (hr : Regular t) (hu : u ∈ t.subtrees) :
    ∃ fs, plugAll fs u = t := by
  induction t using Tree.ind with
  | h p its cs ih =>
    rw [subtrees_node] at hu
    rcases List.mem_cons.mp hu with rfl | hu
    · exact ⟨[], rfl⟩
    · obtain ⟨c, hc, huc⟩ := List.mem_flatMap.mp hu
      obtain ⟨fs, hfs⟩ := ih c hc (hr.child hc) huc
      obtain ⟨i, hi⟩ := List.getElem?_of_mem hc
      obtain ⟨f, hf, -⟩ := exists_plug (t := .node p its cs) (hr.length_children hc) hi
      exact ⟨f :: fs, by rw [plugAll_cons, hfs, hf]⟩

/-- The tags a path passes or has beside it. -/
def pathTags (fs : List (Frame π α)) : List π := fs.flatMap Frame.tags

theorem tags_plugAll (fs : List (Frame π α)) (t : Tree π α) :
    (plugAll fs t).tags.Perm (pathTags fs ++ t.tags) := by
  induction fs with
  | nil => exact List.Perm.refl _
  | cons f fs ih =>
    rw [plugAll_cons, pathTags, List.flatMap_cons, List.append_assoc]
    exact (f.tags_plug _).trans (ih.append_left _)

theorem tags_plugAll_congr (fs : List (Frame π α)) {t t' : Tree π α} (h : t.tags.Perm t'.tags) :
    (plugAll fs t).tags.Perm (plugAll fs t').tags :=
  (tags_plugAll fs t).trans ((h.append_left _).trans (tags_plugAll fs t').symm)

/-- What the in-order sequence has before, and after, the hole of a path. -/
def beforeAll (fs : List (Frame π α)) : List α := fs.flatMap Frame.before

def afterAll : List (Frame π α) → List α
  | [] => []
  | f :: fs => afterAll fs ++ f.after

theorem inorder_plugAll (fs : List (Frame π α)) (t : Tree π α) :
    (plugAll fs t).inorder = beforeAll fs ++ t.inorder ++ afterAll fs := by
  induction fs with
  | nil => simp [beforeAll, afterAll]
  | cons f fs ih =>
    simp [Frame.inorder_plug, ih, beforeAll, afterAll, List.append_assoc]

theorem items_subset_around (f : Frame π α) : f.items ⊆ f.before ++ f.after := by
  intro a ha
  rcases List.mem_append.mp ha with ha | ha
  · obtain ⟨x, hx, rfl⟩ := List.mem_map.mp (List.mem_reverse.mp ha)
    exact List.mem_append_left _ (List.mem_flatMap.mpr ⟨x, List.mem_reverse.mpr hx, by simp⟩)
  · obtain ⟨x, hx, rfl⟩ := List.mem_map.mp ha
    exact List.mem_append_right _ (List.mem_flatMap.mpr ⟨x, hx, by simp⟩)

theorem items_subset_aroundAll {fs : List (Frame π α)} {f : Frame π α} (hf : f ∈ fs) :
    f.items ⊆ beforeAll fs ++ afterAll fs := by
  induction fs with
  | nil => cases hf
  | cons g fs ih =>
    intro a ha
    rw [beforeAll, List.flatMap_cons, afterAll]
    simp only [List.mem_append]
    rcases List.mem_cons.mp hf with rfl | hf
    · rcases List.mem_append.mp (items_subset_around f ha) with h | h
      · exact Or.inl (Or.inl h)
      · exact Or.inr (Or.inr h)
    · rcases List.mem_append.mp (ih hf ha) with h | h
      · exact Or.inl (Or.inr h)
      · exact Or.inr (Or.inl h)

theorem items_subset_inorder {fs : List (Frame π α)} {f : Frame π α} (hf : f ∈ fs) (t : Tree π α) :
    f.items ⊆ (plugAll fs t).inorder := by
  intro a ha
  rw [inorder_plugAll]
  rcases List.mem_append.mp (items_subset_aroundAll hf ha) with h | h
  · exact List.mem_append_left _ (List.mem_append_left _ h)
  · exact List.mem_append_right _ h

/-! ## Cutting a node at an item -/

namespace Tree

/-- The part of a node before item `i`. -/
def splitLeft (t : Tree π α) (i : Nat) : Tree π α :=
  .node t.tag (t.items.take i) (t.children.take (i + 1))

/-- The part of a node after item `i`, under the tag `q`. -/
def splitRight (q : π) (t : Tree π α) (i : Nat) : Tree π α :=
  .node q (t.items.drop (i + 1)) (t.children.drop (i + 1))

@[simp] theorem tag_splitLeft (t : Tree π α) (i : Nat) : (t.splitLeft i).tag = t.tag := rfl
@[simp] theorem tag_splitRight (q : π) (t : Tree π α) (i : Nat) : (t.splitRight q i).tag = q := rfl

@[simp] theorem erase_splitLeft (t : Tree π α) (i : Nat) :
    (t.splitLeft i).erase = t.erase.splitLeft i := by
  cases t; simp [splitLeft]

@[simp] theorem erase_splitRight (q : π) (t : Tree π α) (i : Nat) :
    (t.splitRight q i).erase = t.erase.splitRight () i := by
  cases t; simp [splitRight]

theorem weave_split : ∀ (its₁ : List α) (cs₁ : List (Tree π α)), cs₁.length = its₁.length + 1 →
    ∀ a its₂ cs₂, weave (its₁ ++ a :: its₂) (cs₁ ++ cs₂) = weave its₁ cs₁ ++ a :: weave its₂ cs₂
  | [], [c], _, a, its₂, cs₂ => by simp
  | b :: its₁, c :: cs₁, h, a, its₂, cs₂ => by
    have ih := weave_split its₁ cs₁ (by simpa using h) a its₂ cs₂
    simp [ih]
  | [], [], h, _, _, _ => by simp at h
  | [], _ :: _ :: _, h, _, _, _ => by simp at h
  | _ :: _, [], h, _, _, _ => by simp at h

/-- **Cutting a node loses nothing.** -/
theorem inorder_split {h i : Nat} {t : Tree π α} {a : α} (hj : Jointed h t)
    (ha : t.items[i]? = some a) (q : π) :
    (t.splitLeft i).inorder ++ a :: (t.splitRight q i).inorder = t.inorder := by
  obtain ⟨p, its, cs⟩ := t
  obtain ⟨hi, rfl⟩ := List.getElem?_eq_some_iff.mp ha
  simp only [items_node] at hi
  simp only [splitLeft, splitRight, inorder_node, items_node, children_node]
  have hsplit : its = its.take i ++ its[i] :: its.drop (i + 1) := by simp
  cases h with
  | zero =>
    have hcs : cs = [] := hj.children_eq_nil
    simp [hcs]
  | succ h =>
    have hl : cs.length = its.length + 1 := hj.length_children
    conv_rhs => rw [hsplit, ← List.take_append_drop (i + 1) cs]
    rw [weave_split _ _ (by simp; omega)]

theorem Jointed.splitLeft {h i : Nat} {t : Tree π α} (hj : Jointed h t)
    (hi : i < t.items.length) : Jointed h (t.splitLeft i) := by
  cases h with
  | zero => rw [Jointed, Tree.splitLeft, children_node, hj.children_eq_nil, List.take_nil]
  | succ h =>
    have hl := hj.length_children
    simp only [Jointed, Tree.splitLeft, children_node, items_node, List.length_take]
    omega

theorem Jointed.splitRight {h i : Nat} {t : Tree π α} (q : π) (hj : Jointed h t)
    (hi : i < t.items.length) : Jointed h (t.splitRight q i) := by
  cases h with
  | zero => rw [Jointed, Tree.splitRight, children_node, hj.children_eq_nil, List.drop_nil]
  | succ h =>
    have hl := hj.length_children
    simp only [Jointed, Tree.splitRight, children_node, items_node, List.length_drop]
    omega

theorem Uniform.splitLeft {h i : Nat} {t : Tree π α} (hu : Uniform h t)
    (hi : i < t.items.length) : Uniform h (t.splitLeft i) :=
  (hu.jointed.splitLeft hi).uniform fun _ hc => hu.of_mem (List.mem_of_mem_take hc)

theorem Uniform.splitRight {h i : Nat} {t : Tree π α} (q : π) (hu : Uniform h t)
    (hi : i < t.items.length) : Uniform h (t.splitRight q i) :=
  (hu.jointed.splitRight q hi).uniform fun _ hc => hu.of_mem (List.mem_of_mem_drop hc)

end Tree

end Multiway
