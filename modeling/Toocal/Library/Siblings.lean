import Toocal.Library.Multiway

/-!
# Joining and shifting siblings

Two neighbours `l` and `u` with the item `a` between them can become one node
(`join`), and the right one of two neighbours can give its first item and child to
the left one (`takeFirst`, `dropFirst`).  Between two leaves, or two inner nodes, neither loses
anything: `inorder_join`, `inorder_shift`.
-/

namespace Multiway

variable {π α : Type}

namespace Tree

/-- Two neighbours and the item between them as one node, under the tag of the left. -/
def join (l : Tree π α) (a : α) (u : Tree π α) : Tree π α :=
  .node l.tag (l.items ++ a :: u.items) (l.children ++ u.children)

/-- A node with the item behind it and the first child of its right neighbour. -/
def takeFirst (u : Tree π α) (b : α) (r : Tree π α) : Tree π α :=
  .node u.tag (u.items ++ [b]) (u.children ++ r.children.take 1)

/-- A node without its first item and first child. -/
def dropFirst (r : Tree π α) : Tree π α := .node r.tag r.items.tail r.children.tail

@[simp] theorem tag_join (l : Tree π α) (a : α) (u) : (l.join a u).tag = l.tag := rfl
@[simp] theorem items_join (l : Tree π α) (a : α) (u) :
    (l.join a u).items = l.items ++ a :: u.items := rfl
@[simp] theorem children_join (l : Tree π α) (a : α) (u) :
    (l.join a u).children = l.children ++ u.children := rfl
@[simp] theorem tag_takeFirst (u : Tree π α) (b : α) (r) : (u.takeFirst b r).tag = u.tag := rfl
@[simp] theorem items_takeFirst (u : Tree π α) (b : α) (r) :
    (u.takeFirst b r).items = u.items ++ [b] := rfl
@[simp] theorem children_takeFirst (u : Tree π α) (b : α) (r) :
    (u.takeFirst b r).children = u.children ++ r.children.take 1 := rfl
@[simp] theorem tag_dropFirst (r : Tree π α) : r.dropFirst.tag = r.tag := rfl
@[simp] theorem items_dropFirst (r : Tree π α) : r.dropFirst.items = r.items.tail := rfl
@[simp] theorem children_dropFirst (r : Tree π α) : r.dropFirst.children = r.children.tail := rfl

@[simp] theorem erase_join (l : Tree π α) (a : α) (u : Tree π α) :
    (l.join a u).erase = l.erase.join a u.erase := by
  cases l; cases u; simp [join]

@[simp] theorem erase_takeFirst (u : Tree π α) (b : α) (r : Tree π α) :
    (u.takeFirst b r).erase = u.erase.takeFirst b r.erase := by
  cases u; cases r; simp [takeFirst, List.map_take]

@[simp] theorem erase_dropFirst (r : Tree π α) : r.dropFirst.erase = r.erase.dropFirst := by
  cases r; simp [dropFirst, List.map_tail]

section Shape

variable {h : Nat} {l u r : Tree π α}

theorem Jointed.join (hl : Jointed h l) (a : α) (hu : Jointed h u) : Jointed h (l.join a u) := by
  cases h with
  | zero => rw [Jointed, children_join, hl.children_eq_nil, hu.children_eq_nil, List.append_nil]
  | succ h =>
    have hlen := hl.length_children
    have hlen' := hu.length_children
    simp only [Jointed, children_join, items_join, List.length_append, List.length_cons]
    omega

theorem Jointed.takeFirst (hu : Jointed h u) (b : α) (hr : Jointed h r) :
    Jointed h (u.takeFirst b r) := by
  cases h with
  | zero =>
    rw [Jointed, children_takeFirst, hu.children_eq_nil, hr.children_eq_nil]
    rfl
  | succ h =>
    have hlen := hu.length_children
    have hlen' := hr.length_children
    simp only [Jointed, children_takeFirst, items_takeFirst, List.length_append, List.length_take,
      List.length_singleton]
    omega

theorem Jointed.dropFirst (hr : Jointed h r) (hne : r.items ≠ []) : Jointed h r.dropFirst := by
  cases h with
  | zero => rw [Jointed, children_dropFirst, hr.children_eq_nil, List.tail_nil]
  | succ h =>
    have hlen := hr.length_children
    have hpos := List.length_pos_iff.mpr hne
    simp only [Jointed, children_dropFirst, items_dropFirst, List.length_tail]
    omega

theorem Uniform.join (hl : Uniform h l) (a : α) (hu : Uniform h u) : Uniform h (l.join a u) :=
  (hl.jointed.join a hu.jointed).uniform fun _ hc =>
    (List.mem_append.mp hc).elim hl.of_mem hu.of_mem

theorem Uniform.takeFirst (hu : Uniform h u) (b : α) (hr : Uniform h r) :
    Uniform h (u.takeFirst b r) :=
  (hu.jointed.takeFirst b hr.jointed).uniform fun _ hc =>
    (List.mem_append.mp hc).elim hu.of_mem fun hc => hr.of_mem (List.mem_of_mem_take hc)

theorem Uniform.dropFirst (hr : Uniform h r) (hne : r.items ≠ []) : Uniform h r.dropFirst :=
  (hr.jointed.dropFirst hne).uniform fun _ hc => hr.of_mem (List.mem_of_mem_tail hc)

/-- **Joining loses nothing.** -/
theorem inorder_join (hl : Jointed h l) (a : α) (hu : Jointed h u) :
    (l.join a u).inorder = l.inorder ++ a :: u.inorder := by
  obtain ⟨p, lits, lcs⟩ := l
  obtain ⟨q, uits, ucs⟩ := u
  cases h with
  | zero =>
    obtain rfl : lcs = [] := hl.children_eq_nil
    obtain rfl : ucs = [] := hu.children_eq_nil
    simp [Tree.join, inorder_node]
  | succ h => exact weave_split lits lcs hl.length_children a uits ucs

/-- **Shifting an item to the left loses nothing.** -/
theorem inorder_shift {b z : α} {zs : List α} (hu : Jointed h u) (hr : Jointed h r)
    (hz : r.items = z :: zs) :
    (u.takeFirst b r).inorder ++ z :: r.dropFirst.inorder = u.inorder ++ b :: r.inorder := by
  obtain ⟨p, uits, ucs⟩ := u
  obtain ⟨q, rits, rcs⟩ := r
  obtain rfl : rits = z :: zs := hz
  cases h with
  | zero =>
    obtain rfl : ucs = [] := hu.children_eq_nil
    obtain rfl : rcs = [] := hr.children_eq_nil
    simp [Tree.takeFirst, Tree.dropFirst, inorder_node]
  | succ h =>
    cases rcs with
    | nil => exact absurd rfl hr.children_ne_nil
    | cons c rcs =>
      have hjoin : (Tree.takeFirst (.node p uits ucs) b (.node q (z :: zs) (c :: rcs))).inorder =
          (Multiway.Tree.node p uits ucs).inorder ++ b :: c.inorder := by
        have := weave_split uits ucs hu.length_children b [] [c]
        simpa [Tree.takeFirst, inorder_node] using this
      rw [hjoin]
      simp [Tree.dropFirst, inorder_node]

end Shape

theorem tags_join (l : Tree π α) (a : α) (u : Tree π α) :
    (u.tag :: (l.join a u).tags).Perm (l.tags ++ u.tags) := by
  rw [tags_eq (l.join a u), tags_eq l, tags_eq u, children_join, List.flatMap_append, tag_join]
  rw [← List.cons_append]
  exact List.perm_middle.symm

theorem tags_shift (u : Tree π α) (b : α) (r : Tree π α) :
    ((u.takeFirst b r).tags ++ r.dropFirst.tags).Perm (u.tags ++ r.tags) := by
  rw [tags_eq (u.takeFirst b r), tags_eq r.dropFirst, tags_eq u, tags_eq r, children_takeFirst,
    children_dropFirst, tag_takeFirst, tag_dropFirst, List.flatMap_append]
  have hsplit : r.children.flatMap tags =
      (r.children.take 1).flatMap tags ++ r.children.tail.flatMap tags := by
    rw [← List.flatMap_append, ← List.drop_one, List.take_append_drop]
  rw [hsplit, List.cons_append, List.cons_append, List.append_assoc]
  exact (List.perm_middle.append_left _).cons _

end Tree

end Multiway
