import Toocal.Store.Simulation
import Toocal.Tree.PageTree

/-!
# A store that keeps its past

`Journal φ` is the store `φ` with a record of what it was before each page that was saved.
A process that ends between two page writes leaves one of these behind, so what is said
of all of them is said of every place where a run can be cut off.

`Simulates.journal`: stores that do the same do the same with a journal, and what stands in
the one journal was related to what stands in the other.
-/

namespace Toocal

open Outcomes

/-- The store `φ`, and what it was before each save, latest first. -/
structure Journal (φ : Type) where
  now : φ
  past : List φ

namespace Journal

section OnNow

variable {φ α : Type} {x : Prog Error φ α} {f f' : φ} {past : List φ}

/-- Run a program on the store as it is now. -/
def onNow (x : Prog Error φ α) : Prog Error (Journal φ) α :=
  Prog.zoom Journal.now (fun f j => ⟨f, j.past⟩) x

theorem onNow_ok {a : α} (h : x f = .ok a f') : onNow x ⟨f, past⟩ = .ok a ⟨f', past⟩ :=
  Prog.zoom_ok h

theorem onNow_error {e : Error} (h : x f = .error e f') : onNow x ⟨f, past⟩ = .error e ⟨f', past⟩ :=
  Prog.zoom_error h

theorem onNow_stop {c : Stop} (h : x f = .stop c) : onNow x ⟨f, past⟩ = .stop c := Prog.zoom_stop h

end OnNow

end Journal

instance {φ : Type} [PageStore φ] : PageStore (Journal φ) where
  load o pageNum := Journal.onNow (PageStore.load o pageNum)
  save o node := do
    let before ← Prog.get
    Journal.onNow (PageStore.save o node)
    Prog.modify fun j => ⟨j.now, before.now :: j.past⟩
  pageCount o j := PageStore.pageCount o j.now

namespace Dal

variable {φ : Type}

/-- The layer over a journal with the entries `past`. -/
def journal (past : List φ) (d : Dal φ) : Dal (Journal φ) :=
  ⟨d.options, ⟨d.file, past⟩, d.metaPage, d.freelist, d.written⟩

/-- The layer without its journal. -/
def plain (d : Dal (Journal φ)) : Dal φ :=
  ⟨d.options, d.file.now, d.metaPage, d.freelist, d.written⟩

@[simp] theorem plain_journal (d : Dal φ) (past : List φ) : (d.journal past).plain = d := rfl

theorem journal_plain (d : Dal (Journal φ)) : d.plain.journal d.file.past = d := rfl

theorem getNextPage_journal (d : Dal φ) (past : List φ) :
    getNextPage (d.journal past) = (getNextPage d).mapState (journal past) := rfl

theorem deleteNode_journal (p : Nat) (d : Dal φ) (past : List φ) :
    deleteNode p (d.journal past) = (deleteNode p d).mapState (journal past) := rfl

theorem newNode_journal {items : List Item} {children : List Nat} {n : Node} {d d' : Dal φ}
    (h : newNode items children d = .ok n d') (past : List φ) :
    newNode items children (d.journal past) = .ok n (d'.journal past) := by
  obtain ⟨rfl, rfl⟩ := Outcome.ok.inj h
  rfl

variable [PageStore φ] {d d' : Dal φ}

theorem getNode_journal (p : Nat) (d : Dal φ) (past : List φ) :
    getNode p (d.journal past) = (getNode p d).mapState (journal past) := by
  cases h : PageStore.load d.options p d.file with
  | ok c f =>
    rw [getNode_ok_of_load h]
    exact getNode_ok_of_load (d := d.journal past) (Journal.onNow_ok h)
  | error e f =>
    rw [getNode_error_of_load h]
    exact getNode_error_of_load (d := d.journal past) (Journal.onNow_error h)
  | stop c =>
    rw [getNode_stop_of_load h]
    exact getNode_stop_of_load (d := d.journal past) (Journal.onNow_stop h)

theorem Reads.journal {t : PTree} (h : d.Reads t) (past : List φ) : (d.journal past).Reads t := by
  intro u hu
  rw [getNode_journal, h u hu]
  rfl

section Save

variable {o : Options} {n : Node} {f f' : φ} {past : List φ}

theorem save_journal_ok (h : PageStore.save o n f = .ok () f') :
    PageStore.save o n (⟨f, past⟩ : Journal φ) = .ok () ⟨f', f :: past⟩ :=
  (Prog.get_bind _ _).trans (Prog.bind_ok (Journal.onNow_ok h))

theorem save_journal_error {e : Error} (h : PageStore.save o n f = .error e f') :
    PageStore.save o n (⟨f, past⟩ : Journal φ) = .error e ⟨f', past⟩ :=
  (Prog.get_bind _ _).trans (Prog.bind_error (Journal.onNow_error h))

theorem save_journal_stop {c : Stop} (h : PageStore.save o n f = .stop c) :
    PageStore.save o n (⟨f, past⟩ : Journal φ) = .stop c :=
  (Prog.get_bind _ _).trans (Prog.bind_stop (Journal.onNow_stop h))

end Save

/-- **A node that is written is entered into the journal with what stood there before.** -/
theorem writeNode_journal {n m : Node} (h : writeNode n d = .ok m d') (past : List φ) :
    writeNode n (d.journal past) = .ok m (d'.journal (d.file :: past)) := by
  obtain ⟨f, hf, rfl, rfl⟩ := writeNode_eq_ok_iff.mp h
  exact writeNode_ok_of_save (d := d.journal past) (save_journal_ok hf)

theorem writeNode_journal_error {n : Node} {e : Error} (h : writeNode n d = .error e d')
    (past : List φ) : writeNode n (d.journal past) = .error e (d'.journal past) := by
  cases hs : PageStore.save d.options (d.placed n) d.file with
  | ok a f =>
    rw [writeNode_ok_of_save hs] at h
    cases h
  | error e' f =>
    rw [writeNode_error_of_save hs] at h
    obtain ⟨rfl, rfl⟩ := Outcome.error.inj h
    exact writeNode_error_of_save (d := d.journal past) (save_journal_error hs)
  | stop c =>
    rw [writeNode_stop_of_save hs] at h
    cases h

theorem writeNode_journal_stop {n : Node} {c : Stop} (h : writeNode n d = .stop c)
    (past : List φ) : writeNode n (d.journal past) = .stop c := by
  cases hs : PageStore.save d.options (d.placed n) d.file with
  | ok a f =>
    rw [writeNode_ok_of_save hs] at h
    cases h
  | error e f =>
    rw [writeNode_error_of_save hs] at h
    cases h
  | stop c' =>
    rw [writeNode_stop_of_save hs] at h
    obtain rfl := Outcome.stop.inj h
    exact writeNode_stop_of_save (d := d.journal past) (save_journal_stop hs)

/-! ### What has been written -/

theorem written_writeNode {n : Node} (h : (writeNode n d).state? = some d') :
    d.written ⊆ d'.written := by
  cases hs : PageStore.save d.options (d.placed n) d.file with
  | ok a f =>
    rw [writeNode_ok_of_save hs] at h
    obtain rfl := Option.some.inj h
    exact List.subset_cons_self _ _
  | error e f =>
    rw [writeNode_error_of_save hs] at h
    obtain rfl := Option.some.inj h
    exact List.Subset.refl _
  | stop c =>
    rw [writeNode_stop_of_save hs] at h
    cases h

theorem written_getNode {p : Nat} (h : (getNode p d).state? = some d') : d'.written = d.written := by
  cases hl : PageStore.load d.options p d.file with
  | ok c f =>
    rw [getNode_ok_of_load hl] at h
    obtain rfl := Option.some.inj h
    rfl
  | error e f =>
    rw [getNode_error_of_load hl] at h
    obtain rfl := Option.some.inj h
    rfl
  | stop c =>
    rw [getNode_stop_of_load hl] at h
    cases h

end Dal

/-- The collection over a journal with the entries `past`. -/
def Collection.journal {φ : Type} (past : List φ) (c : Collection φ) : Collection (Journal φ) :=
  ⟨c.dal.journal past, c.name, c.root⟩

/-- The collection without its journal. -/
def Collection.plain {φ : Type} (c : Collection (Journal φ)) : Collection φ :=
  ⟨c.dal.plain, c.name, c.root⟩

@[simp] theorem Collection.plain_journal {φ : Type} (c : Collection φ) (past : List φ) :
    (c.journal past).plain = c := rfl

/-! ## Two stores with journals -/

section Simulation

variable {φ ψ : Type} {R : Dal φ → Dal ψ → Prop} {S : Collection φ → Collection ψ → Prop}

/-- What stands in two journals was the store of related layers, and these had written no other
pages than have been written by now. -/
def Was (R : Dal φ → Dal ψ → Prop) (written : List Nat) (f : φ) (g : ψ) : Prop :=
  ∃ d e, R d e ∧ d.file = f ∧ e.file = g ∧ d.written ⊆ written

theorem Was.mono {written written' : List Nat} (hw : written ⊆ written') {f : φ} {g : ψ}
    (h : Was R written f g) : Was R written' f g := by
  obtain ⟨d, e, hR, hf, hg, hsub⟩ := h
  exact ⟨d, e, hR, hf, hg, List.Subset.trans hsub hw⟩

/-- The layers are related, and so is their past. -/
structure Journaled (R : Dal φ → Dal ψ → Prop) (d : Dal (Journal φ)) (e : Dal (Journal ψ)) :
    Prop where
  now : R d.plain e.plain
  past : List.Forall₂ (Was R d.written) d.file.past e.file.past

theorem Journaled.next {d : Dal (Journal φ)} {e : Dal (Journal ψ)} (h : Journaled R d e)
    {d' : Dal φ} {e' : Dal ψ} (hR : R d' e') (hw : d.written ⊆ d'.written) :
    Journaled R (d'.journal d.file.past) (e'.journal e.file.past) :=
  ⟨hR, h.past.imp fun _ _ => Was.mono hw⟩

theorem Journaled.enter {d : Dal (Journal φ)} {e : Dal (Journal ψ)} (h : Journaled R d e)
    {d' : Dal φ} {e' : Dal ψ} (hR : R d' e') (hw : d.written ⊆ d'.written) :
    Journaled R (d'.journal (d.file.now :: d.file.past)) (e'.journal (e.file.now :: e.file.past)) :=
  ⟨hR, .cons ⟨d.plain, e.plain, h.now, rfl, rfl, hw⟩ (h.past.imp fun _ _ => Was.mono hw)⟩

variable [PageStore φ] [PageStore ψ]

/-- **With a journal stores do the same that do the same without.** -/
theorem Simulates.journal (hs : Simulates R S) : Simulates (Journaled R)
    fun c e => Journaled R c.dal e.dal ∧ S c.plain e.plain where
  options h := hs.options h.now
  fuel_le h := hs.fuel_le h.now
  sim_getNode p := by
    intro d e h
    rw [← d.journal_plain, ← e.journal_plain, Dal.getNode_journal, Dal.getNode_journal]
    refine ((hs.sim_getNode p h.now).and_left fun d' hd' => ?_).mapState
      fun d' e' h' => h.next h'.1 h'.2
    rw [Dal.written_getNode hd']
    exact List.Subset.refl _
  sim_getNextPage := by
    intro d e h
    rw [← d.journal_plain, ← e.journal_plain, Dal.getNextPage_journal, Dal.getNextPage_journal]
    refine ((hs.sim_getNextPage h.now).and_left fun d' hd' => ?_).mapState
      fun d' e' h' => h.next h'.1 h'.2
    obtain rfl := Option.some.inj hd'
    exact List.Subset.refl _
  sim_writeNode n := by
    intro d e h
    rw [← d.journal_plain, ← e.journal_plain]
    have hagree := hs.sim_writeNode n h.now
    cases hd : Dal.writeNode n d.plain with
    | ok m d' =>
      have hw : d.written ⊆ d'.written := Dal.written_writeNode (congrArg Outcome.state? hd)
      rw [Dal.writeNode_journal hd]
      cases he : Dal.writeNode n e.plain with
      | ok m' e' =>
        rw [hd, he] at hagree
        rw [Dal.writeNode_journal he]
        cases hagree with
        | ok hR => exact .ok (h.enter hR hw)
      | error err e' => rw [hd, he] at hagree; cases hagree
      | stop c =>
        rw [hd, he] at hagree
        rw [Dal.writeNode_journal_stop he]
        cases hagree <;> constructor
    | error err d' =>
      have hw : d.written ⊆ d'.written := Dal.written_writeNode (congrArg Outcome.state? hd)
      rw [Dal.writeNode_journal_error hd]
      cases he : Dal.writeNode n e.plain with
      | ok m' e' => rw [hd, he] at hagree; cases hagree
      | error err' e' =>
        rw [hd, he] at hagree
        rw [Dal.writeNode_journal_error he]
        cases hagree with
        | error hR => exact .error (h.next hR hw)
      | stop c =>
        rw [hd, he] at hagree
        rw [Dal.writeNode_journal_stop he]
        cases hagree <;> constructor
    | stop c =>
      rw [Dal.writeNode_journal_stop hd]
      cases he : Dal.writeNode n e.plain with
      | ok m' e' => rw [hd, he] at hagree; cases hagree
      | error err' e' => rw [hd, he] at hagree; cases hagree
      | stop c' =>
        rw [hd, he] at hagree
        rw [Dal.writeNode_journal_stop he]
        cases hagree <;> constructor
  sim_deleteNode p := by
    intro d e h
    rw [← d.journal_plain, ← e.journal_plain, Dal.deleteNode_journal, Dal.deleteNode_journal]
    refine ((hs.sim_deleteNode p h.now).and_left fun d' hd' => ?_).mapState
      fun d' e' h' => h.next h'.1 h'.2
    obtain rfl := Option.some.inj hd'
    exact List.Subset.refl _
  dal h := h.1
  root h := hs.root h.2
  setDal h hd := ⟨hd, hs.setDal h.2 hd.now⟩
  setRoot p h := ⟨h.1, hs.setRoot p h.2⟩

end Simulation

/-! ## A journal changes nothing -/

/-- What the store was at first. -/
def Journal.first {φ : Type} (j : Journal φ) : φ := j.past.getLastD j.now

theorem first_congr {φ β : Type} {part : φ → β} (past : List φ) {f f' : φ} (h : part f' = part f) :
    part (Journal.first ⟨f', past⟩) = part (Journal.first ⟨f, past⟩) := by
  cases past with
  | nil => exact h
  | cons g past => rfl

/-- A part of the store that is changed only where a page is saved. -/
structure OnlySaved {φ β : Type} [PageStore φ] (part : φ → β) : Prop where
  load : ∀ {o p f f'}, (PageStore.load o p f).state? = some f' → part f' = part f
  save_error : ∀ {o n f e f'}, PageStore.save o n f = .error e f' → part f' = part f

section Projection

variable {φ β : Type} [PageStore φ] {part : φ → β} {v : β}

theorem OnlySaved.getNode (hp : OnlySaved part) {p : Nat} {d d' : Dal φ}
    (h : (Dal.getNode p d).state? = some d') : part d'.file = part d.file := by
  cases hl : PageStore.load d.options p d.file with
  | ok c f =>
    rw [Dal.getNode_ok_of_load hl] at h
    obtain rfl := Option.some.inj h
    exact hp.load (congrArg Outcome.state? hl)
  | error e f =>
    rw [Dal.getNode_error_of_load hl] at h
    obtain rfl := Option.some.inj h
    exact hp.load (congrArg Outcome.state? hl)
  | stop c =>
    rw [Dal.getNode_stop_of_load hl] at h
    cases h

theorem OnlySaved.writeNode_error (hp : OnlySaved part) {n : Node} {e : Error} {d d' : Dal φ}
    (h : Dal.writeNode n d = .error e d') : part d'.file = part d.file := by
  cases hs : PageStore.save d.options (d.placed n) d.file with
  | ok a f =>
    rw [Dal.writeNode_ok_of_save hs] at h
    cases h
  | error e' f =>
    rw [Dal.writeNode_error_of_save hs] at h
    obtain ⟨-, rfl⟩ := Outcome.error.inj h
    exact hp.save_error hs
  | stop c =>
    rw [Dal.writeNode_stop_of_save hs] at h
    cases h

/-- The layer is what is left without the journal, and the journal goes back to `v`. -/
def Plain (part : φ → β) (v : β) (j : Dal (Journal φ)) (d : Dal φ) : Prop :=
  j.plain = d ∧ part j.file.first = v

/-- **With a journal a store does what it does without**, and the journal goes back to where
it began. -/
theorem OnlySaved.simulates (hp : OnlySaved part) (v : β) : Simulates (Plain part v)
    fun c e => c.plain = e ∧ part c.dal.file.first = v where
  options := by rintro j _ ⟨rfl, -⟩; rfl
  fuel_le := by rintro j _ ⟨rfl, -⟩; exact Nat.le_refl _
  sim_getNode p := by
    rintro j d ⟨rfl, hv⟩
    have hrun := Dal.getNode_journal p j.plain j.file.past
    rw [j.journal_plain] at hrun
    rw [hrun]
    cases hg : Dal.getNode p j.plain with
    | ok n d' => exact .ok ⟨rfl, (first_congr _ (hp.getNode (congrArg Outcome.state? hg))).trans hv⟩
    | error e d' =>
      exact .error ⟨rfl, (first_congr _ (hp.getNode (congrArg Outcome.state? hg))).trans hv⟩
    | stop c => exact .stop
  sim_getNextPage := by
    rintro j d ⟨rfl, hv⟩
    exact .ok ⟨rfl, hv⟩
  sim_writeNode n := by
    rintro j d ⟨rfl, hv⟩
    cases hw : Dal.writeNode n j.plain with
    | ok m d' =>
      have hrun := Dal.writeNode_journal hw j.file.past
      rw [j.journal_plain] at hrun
      rw [hrun]
      refine .ok ⟨rfl, Eq.trans ?_ hv⟩
      exact congrArg part (List.getLastD_cons ..)
    | error e d' =>
      have hrun := Dal.writeNode_journal_error hw j.file.past
      rw [j.journal_plain] at hrun
      rw [hrun]
      exact .error ⟨rfl, (first_congr _ (hp.writeNode_error hw)).trans hv⟩
    | stop c =>
      have hrun := Dal.writeNode_journal_stop hw j.file.past
      rw [j.journal_plain] at hrun
      rw [hrun]
      exact .stop
  sim_deleteNode p := by
    rintro j d ⟨rfl, hv⟩
    exact .ok ⟨rfl, hv⟩
  dal h := ⟨congrArg Collection.dal h.1, h.2⟩
  root := by rintro c _ ⟨rfl, -⟩; rfl
  setDal := by rintro c _ j _ ⟨rfl, -⟩ ⟨rfl, hv⟩; exact ⟨rfl, hv⟩
  setRoot := by rintro c _ p ⟨rfl, hv⟩; exact ⟨rfl, hv⟩

end Projection

/-- A read leaves the bytes of the file as they are, and so does a write that fails. -/
theorem onlySaved_bytes [System] : OnlySaved File.bytes where
  load := by
    intro o p f f' h
    rcases File.readPage_cases o p f with ⟨data, hread⟩ | hread
    · rw [show PageStore.load o p f = _ from Prog.bind_ok hread] at h
      cases hdec : NodeSerializer.deserialize data with
      | none => rw [hdec] at h; cases h
      | some c => rw [hdec] at h; cases h; rfl
    · rw [show PageStore.load o p f = _ from Prog.bind_error hread] at h
      cases h
      rfl
  save_error := by
    intro o n f e f' h
    cases hser : NodeSerializer.serialize n.items n.children defaultPageSize with
    | none =>
      rw [Dal.save_none hser] at h
      cases h
    | some data =>
      rw [Dal.save_some hser] at h
      by_cases hle : data.length ≤ o.pageSize
      · rw [Dal.writeData_eq hle] at h
        by_cases hbad : f.failed = true ∨ File.offset o n.pageNum = none
        · rw [File.writePage_error _ hbad] at h
          cases h
          rfl
        · rw [not_or, Bool.not_eq_true, ← ne_eq, Option.ne_none_iff_exists'] at hbad
          obtain ⟨hsound, pos, hpos⟩ := hbad
          rw [File.writePage_at _ hsound hpos] at h
          cases h
      · rw [Dal.writeData_undefined (Nat.lt_of_not_le hle)] at h
        cases h

end Toocal
