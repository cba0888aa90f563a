import Mathlib.Algebra.BigOperators.Group.List.Basic
import Mathlib.Algebra.BigOperators.Ring.List
import Mathlib.Algebra.Order.BigOperators.Group.List
import Mathlib.Data.Nat.Log
import Mathlib.Tactic.Linarith
import Toocal.Library.Everywhere

/-!
# How high a tree is

A tree in shape all of whose nodes below the root have `μ` items or more has at least
`2 * (μ + 1) ^ h - 1` items when its leaves are at depth `h`, so its height is at most the
logarithm of its items to the base `μ + 1`.

* `Uniform.two_mul_pow_le` and `Uniform.le_log` bound the height.
* `mul_subtrees_le` bounds the number of its nodes.
-/

namespace Multiway.Tree

variable {π α : Type} {h μ : Nat} {t : Tree π α}

theorem length_weave : ∀ (its : List α) (cs : List (Tree π α)),
    (weave its cs).length = its.length + (cs.map fun c => c.inorder.length).sum := by
  intro its cs
  induction cs generalizing its with
  | nil => rw [weave_nil, List.map_nil, List.sum_nil, Nat.add_zero]
  | cons c cs ih =>
    cases its with
    | nil =>
      rw [weave_nil_cons, List.length_append, ih, List.map_cons, List.sum_cons]
      simp only [List.length_nil]
      omega
    | cons a its =>
      rw [weave_cons, List.length_append, List.length_cons, ih, List.map_cons, List.sum_cons]
      simp only [List.length_cons]
      omega

theorem length_inorder (t : Tree π α) :
    t.inorder.length = t.items.length + (t.children.map fun c => c.inorder.length).sum := by
  cases t
  exact length_weave _ _

theorem Uniform.mul_le {k : Nat} (hu : Uniform (h + 1) t)
    (hk : ∀ c ∈ t.children, k ≤ c.inorder.length + 1) :
    t.children.length * k ≤ t.inorder.length + 1 := by
  have hsum : t.children.length * k ≤ (t.children.map fun c => c.inorder.length + 1).sum := by
    have := List.card_nsmul_le_sum (t.children.map fun c => c.inorder.length + 1) k (by
      rw [List.forall_mem_map]
      exact hk)
    rwa [List.length_map, Nat.nsmul_eq_mul] at this
  rw [List.sum_map_add, List.map_const', List.sum_replicate_nat, Nat.mul_one,
    hu.length_children] at hsum
  rw [length_inorder t, hu.length_children]
  omega

theorem Uniform.pow_le (hu : Uniform h t) (hfull : t.Each (μ ≤ ·.length)) :
    (μ + 1) ^ (h + 1) ≤ t.inorder.length + 1 := by
  induction h generalizing t with
  | zero =>
    have hroot : μ ≤ t.items.length := (each_iff.mp hfull).1
    rw [length_inorder t, hu.children_eq_nil, Nat.zero_add, Nat.pow_one]
    exact Nat.succ_le_succ hroot
  | succ h ih =>
    have hroot : μ ≤ t.items.length := (each_iff.mp hfull).1
    have hchild := hu.mul_le fun c hc => ih (hu.child hc) (hfull.below c hc)
    rw [hu.length_children] at hchild
    calc (μ + 1) ^ (h + 1 + 1) = (μ + 1) * (μ + 1) ^ (h + 1) := Nat.pow_succ'
      _ ≤ (t.items.length + 1) * (μ + 1) ^ (h + 1) :=
        Nat.mul_le_mul_right _ (Nat.succ_le_succ hroot)
      _ ≤ t.inorder.length + 1 := hchild

theorem Uniform.two_mul_pow_le (hu : Uniform h t) (hroot : t.items ≠ [])
    (hfull : t.Below (μ ≤ ·.length)) : 2 * (μ + 1) ^ h ≤ t.inorder.length + 1 := by
  have hpos : 0 < t.items.length := List.length_pos_iff.mpr hroot
  cases h with
  | zero =>
    rw [length_inorder t, hu.children_eq_nil, Nat.pow_zero]
    exact Nat.succ_le_succ hpos
  | succ h =>
    have hchild := hu.mul_le fun c hc => (hu.child hc).pow_le (hfull c hc)
    rw [hu.length_children] at hchild
    exact (Nat.mul_le_mul_right _ (Nat.succ_le_succ hpos)).trans hchild

/-- **The height is logarithmic** in the number of items. -/
theorem Uniform.le_log (hu : Uniform h t) (hμ : 0 < μ) (hroot : t.items ≠ [])
    (hfull : t.Below (μ ≤ ·.length)) : h ≤ Nat.log (μ + 1) ((t.inorder.length + 1) / 2) := by
  have hpow := hu.two_mul_pow_le hroot hfull
  refine Nat.le_log_of_pow_le (by omega) ?_
  rw [Nat.le_div_iff_mul_le Nat.two_pos]
  omega

theorem Each.mul_subtrees_le (hfull : t.Each (μ ≤ ·.length)) :
    μ * t.subtrees.length ≤ t.inorder.length := by
  induction t using Tree.ind with
  | h p its cs ih =>
    obtain ⟨hroot, hbelow⟩ := each_node.mp hfull
    have hsum : (cs.map fun c => μ * c.subtrees.length).sum ≤
        (cs.map fun c => c.inorder.length).sum :=
      List.sum_le_sum fun c hc => ih c hc (hbelow c hc)
    rw [List.sum_map_mul_left] at hsum
    rw [subtrees_node, List.length_cons, List.length_flatMap, length_inorder]
    simp only [items_node, children_node]
    linarith

/-- **The number of nodes** below the root. -/
theorem Below.mul_subtrees_le (hfull : t.Below (μ ≤ ·.length)) :
    μ * t.subtrees.length + t.items.length ≤ t.inorder.length + μ := by
  cases t with
  | node p its cs =>
    have hsum : (cs.map fun c => μ * c.subtrees.length).sum ≤
        (cs.map fun c => c.inorder.length).sum :=
      List.sum_le_sum fun c hc => (hfull c hc).mul_subtrees_le
    rw [List.sum_map_mul_left] at hsum
    rw [subtrees_node, List.length_cons, List.length_flatMap, length_inorder]
    simp only [items_node, children_node]
    linarith

end Multiway.Tree
