import Toocal.Core.DataAccessLayer

/-!
# The data access layer over a store

What `get_node` and `write_node` come to, by what the store does with the page.  A node is
written as `placed`: under the page number it has, or under the next one.
-/

namespace Toocal.Dal

open Outcomes

section OnFile

variable {φ α : Type} {d : Dal φ} {x : Options → Prog Error φ α} {f : φ}

theorem onFile_ok {a : α} (h : x d.options d.file = .ok a f) :
    onFile x d = .ok a { d with file := f } :=
  (Prog.get_bind _ d).trans (Prog.zoom_ok h)

theorem onFile_error {e : Error} (h : x d.options d.file = .error e f) :
    onFile x d = .error e { d with file := f } :=
  (Prog.get_bind _ d).trans (Prog.zoom_error h)

theorem onFile_stop {c : Stop} (h : x d.options d.file = .stop c) : onFile x d = .stop c :=
  (Prog.get_bind _ d).trans (Prog.zoom_stop h)

end OnFile

/-! ## Reading a node -/

section GetNode

variable {φ : Type} [PageStore φ] {d : Dal φ} {p : Nat}

theorem getNode_ok_of_load {c : List Item × List Nat} {f : φ}
    (h : PageStore.load d.options p d.file = .ok c f) :
    getNode p d = .ok ⟨p, c.1, c.2⟩ { d with file := f } :=
  Prog.bind_ok (onFile_ok (x := fun o => PageStore.load o p) h)

theorem getNode_error_of_load {e : Error} {f : φ}
    (h : PageStore.load d.options p d.file = .error e f) :
    getNode p d = .error e { d with file := f } :=
  Prog.bind_error (onFile_error (x := fun o => PageStore.load o p) h)

theorem getNode_stop_of_load {c : Stop} (h : PageStore.load d.options p d.file = .stop c) :
    getNode p d = .stop c := Prog.bind_stop (onFile_stop (x := fun o => PageStore.load o p) h)

end GetNode

/-! ## Writing a node -/

section WriteNode

variable {φ : Type} {d : Dal φ} {n : Node}

/-- The page a node is written to. -/
def pageFor (d : Dal φ) (n : Node) : Nat :=
  if n.pageNum = 0 then d.freelist.getNextPage.1 else n.pageNum

/-- The freelist after it. -/
def freelistFor (d : Dal φ) (n : Node) : Freelist :=
  if n.pageNum = 0 then d.freelist.getNextPage.2 else d.freelist

/-- The node on its page. -/
def placed (d : Dal φ) (n : Node) : Node := { n with pageNum := d.pageFor n }

theorem pageFor_of_ne (hn : n.pageNum ≠ 0) : d.pageFor n = n.pageNum := if_neg hn

theorem freelistFor_of_ne (hn : n.pageNum ≠ 0) : d.freelistFor n = d.freelist := if_neg hn

theorem placed_of_ne (hn : n.pageNum ≠ 0) : d.placed n = n := by rw [placed, pageFor_of_ne hn]

variable [PageStore φ]

theorem writeNode_eq (n : Node) (d : Dal φ) : writeNode n d =
    (do
      onFile fun o => PageStore.save o (d.placed n)
      Prog.modify fun d' => { d' with written := d.pageFor n :: d'.written }
      return d.placed n) { d with freelist := d.freelistFor n } := by
  rw [writeNode, placed, pageFor, freelistFor]
  by_cases hnew : n.pageNum = 0
  · have hnext : getNextPage d =
        .ok d.freelist.getNextPage.1 { d with freelist := d.freelist.getNextPage.2 } := rfl
    rw [if_pos hnew, if_pos hnew, if_pos hnew, Prog.bind_ok hnext]
  · rw [if_neg hnew, if_neg hnew, if_neg hnew, Prog.ret_bind]

theorem writeNode_ok_of_save {f : φ} (h : PageStore.save d.options (d.placed n) d.file = .ok () f) :
    writeNode n d = .ok (d.placed n) ⟨d.options, f, d.metaPage, d.freelistFor n,
      d.pageFor n :: d.written⟩ := by
  have hfile := onFile_ok (d := { d with freelist := d.freelistFor n })
    (x := fun o => PageStore.save o (d.placed n)) h
  rw [writeNode_eq, Prog.bind_ok hfile]
  rfl

theorem writeNode_error_of_save {e : Error} {f : φ}
    (h : PageStore.save d.options (d.placed n) d.file = .error e f) :
    writeNode n d = .error e ⟨d.options, f, d.metaPage, d.freelistFor n, d.written⟩ := by
  have hfile := onFile_error (d := { d with freelist := d.freelistFor n })
    (x := fun o => PageStore.save o (d.placed n)) h
  rw [writeNode_eq, Prog.bind_error hfile]

theorem writeNode_stop_of_save {why : Stop}
    (h : PageStore.save d.options (d.placed n) d.file = .stop why) : writeNode n d = .stop why := by
  have hfile := onFile_stop (d := { d with freelist := d.freelistFor n })
    (x := fun o => PageStore.save o (d.placed n)) h
  rw [writeNode_eq, Prog.bind_stop hfile]

theorem writeNode_eq_ok_iff {r : Node} {d' : Dal φ} : writeNode n d = .ok r d' ↔
    ∃ f, PageStore.save d.options (d.placed n) d.file = .ok () f ∧ r = d.placed n ∧
      d' = ⟨d.options, f, d.metaPage, d.freelistFor n, d.pageFor n :: d.written⟩ := by
  cases hs : PageStore.save d.options (d.placed n) d.file with
  | ok a f =>
    rw [writeNode_ok_of_save hs]
    constructor
    · intro h
      obtain ⟨hr, hd⟩ := Outcome.ok.inj h
      exact ⟨f, rfl, hr.symm, hd.symm⟩
    · rintro ⟨f', hf, rfl, rfl⟩
      obtain ⟨-, rfl⟩ := Outcome.ok.inj hf
      rfl
  | error e f =>
    rw [writeNode_error_of_save hs]
    simp
  | stop c =>
    rw [writeNode_stop_of_save hs]
    simp

end WriteNode

end Toocal.Dal
