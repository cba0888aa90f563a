import Toocal.Store.Simulation
import Toocal.Tree.Prices

/-!
# A store that counts its pages

`Tally φ` is the store `φ` with a count of the pages that have been read and of those that
have been written.  Counting changes nothing (`tally_simulates`), and by each of the two
counts the functions of the layer have their prices (`priced_reads`, `priced_writes`).
-/

namespace Toocal

open Outcomes

/-- The store `φ`, and how many pages have been read and written. -/
structure Tally (φ : Type) where
  store : φ
  reads : Nat
  writes : Nat

namespace Tally

variable {φ α : Type}

/-- Run a program on the store. -/
def onStore (x : Prog Error φ α) : Prog Error (Tally φ) α :=
  Prog.zoom Tally.store (fun f t => { t with store := f }) x

end Tally

instance {φ : Type} [PageStore φ] : PageStore (Tally φ) where
  load o pageNum := do
    Prog.modify fun t => { t with reads := t.reads + 1 }
    Tally.onStore (PageStore.load o pageNum)
  save o node := do
    Prog.modify fun t => { t with writes := t.writes + 1 }
    Tally.onStore (PageStore.save o node)
  pageCount o t := PageStore.pageCount o t.store

/-- The layer with its pages counted from zero. -/
def Dal.counted {φ : Type} (d : Dal φ) : Dal (Tally φ) :=
  ⟨d.options, ⟨d.file, 0, 0⟩, d.metaPage, d.freelist, d.written⟩

/-- The layer without the counts. -/
def Dal.uncounted {φ : Type} (d : Dal (Tally φ)) : Dal φ :=
  ⟨d.options, d.file.store, d.metaPage, d.freelist, d.written⟩

/-- The collection with its pages counted from zero. -/
def Collection.counted {φ : Type} (c : Collection φ) : Collection (Tally φ) :=
  ⟨c.dal.counted, c.name, c.root⟩

/-- The collection without the counts. -/
def Collection.uncounted {φ : Type} (c : Collection (Tally φ)) : Collection φ :=
  ⟨c.dal.uncounted, c.name, c.root⟩

@[simp] theorem Collection.uncounted_counted {φ : Type} (c : Collection φ) :
    c.counted.uncounted = c := rfl

/-! ## Counting changes nothing -/

section Plain

variable {φ : Type}

theorem sim_onStore {α : Type} (count : Tally φ → Tally φ) (hcount : ∀ t, (count t).store = t.store)
    (x : Prog Error φ α) : Sim (fun (t : Tally φ) s => t.store = s)
      (do
        Prog.modify count
        Tally.onStore x) x := by
  rintro t _ rfl
  rw [Prog.modify_bind, Tally.onStore, Prog.zoom, hcount]
  cases x t.store with
  | ok a s => exact .ok rfl
  | error e s => exact .error rfl
  | stop c => exact .stop

namespace Dal

theorem sim_onFile_counted {α : Type} {x : Options → Prog Error (Tally φ) α}
    {y : Options → Prog Error φ α}
    (h : ∀ o, Sim (fun (t : Tally φ) s => t.store = s) (x o) (y o)) :
    Sim (fun (d : Dal (Tally φ)) e => d.uncounted = e) (onFile x) (onFile y) := by
  apply Sim.get_bind
  rintro d _ rfl
  refine Sim.zoom (h d.options) ?_ ?_
  · rintro d _ rfl
    rfl
  · rintro d _ f _ rfl rfl
    rfl

theorem sim_getNextPage_counted :
    Sim (fun (d : Dal (Tally φ)) e => d.uncounted = e) getNextPage getNextPage := by
  rintro d _ rfl
  exact .ok rfl

variable [PageStore φ]

theorem sim_getNode_counted (p : Nat) :
    Sim (fun (d : Dal (Tally φ)) e => d.uncounted = e) (getNode p) (getNode p) :=
  Sim.bind (sim_onFile_counted fun o => sim_onStore (fun t => { t with reads := t.reads + 1 })
    (fun _ => rfl) (PageStore.load o p)) fun _ => .ret _

theorem sim_writeNode_counted (n : Node) :
    Sim (fun (d : Dal (Tally φ)) e => d.uncounted = e) (writeNode n) (writeNode n) := by
  have htail : ∀ pageNum : Nat, Sim (fun (d : Dal (Tally φ)) e => d.uncounted = e)
      (do
        onFile fun o => PageStore.save o { n with pageNum := pageNum }
        Prog.modify fun d => { d with written := pageNum :: d.written }
        return { n with pageNum := pageNum })
      (do
        onFile fun o => PageStore.save o { n with pageNum := pageNum }
        Prog.modify fun d => { d with written := pageNum :: d.written }
        return { n with pageNum := pageNum }) := fun pageNum =>
    Sim.bind (sim_onFile_counted fun o => sim_onStore (fun t => { t with writes := t.writes + 1 })
      (fun _ => rfl) (PageStore.save o { n with pageNum := pageNum })) fun _ =>
    Sim.bind (Sim.modify (by rintro d _ rfl; rfl)) fun _ => .ret _
  exact Sim.ite (fun _ => Sim.bind sim_getNextPage_counted htail) fun _ => Sim.bind (Sim.ret _) htail

end Dal

/-- **With its pages counted a store does what it does without.** -/
theorem tally_simulates [PageStore φ] : Simulates (fun (d : Dal (Tally φ)) e => d.uncounted = e)
    (fun (c : Collection (Tally φ)) e => c.uncounted = e) where
  options := by rintro d _ rfl; rfl
  fuel_le := by rintro d _ rfl; exact Nat.le_refl _
  sim_getNode := Dal.sim_getNode_counted
  sim_getNextPage := Dal.sim_getNextPage_counted
  sim_writeNode := Dal.sim_writeNode_counted
  sim_deleteNode _ := Sim.modify (by rintro d _ rfl; rfl)
  dal := by rintro c _ rfl; rfl
  root := by rintro c _ rfl; rfl
  setDal := by rintro c _ d _ rfl rfl; rfl
  setRoot := by rintro c _ p rfl; rfl

end Plain

/-! ## Prices -/

section Counts

variable {φ : Type}

/-- `n` more pages by this count. -/
def Tally.More (count : Tally φ → Nat) (n : Nat) (t t' : Tally φ) : Prop := count t' = count t + n

/-- The same of the file of a layer. -/
def More (count : Tally φ → Nat) (n : Nat) (d d' : Dal (Tally φ)) : Prop :=
  Tally.More count n d.file d'.file

theorem Tally.graded_more (count : Tally φ → Nat) : Graded (Tally.More count) where
  zero _ := rfl
  add := by
    intro m n s t u hst htu
    rw [Tally.More] at hst htu ⊢
    omega

theorem graded_more (count : Tally φ → Nat) : Graded (More count) :=
  ⟨fun d => (Tally.graded_more count).zero d.file, fun h h' => (Tally.graded_more count).add h h'⟩

theorem costs_counted {α : Type} {count : Tally φ → Nat} {n : Nat} (tick : Tally φ → Tally φ)
    (htick : ∀ t, count (tick t) = count t + n)
    (hown : ∀ (t : Tally φ) (f : φ), count { t with store := f } = count t)
    (x : Options → Prog Error φ α) :
    Costs (More count) (fun m _ => m ≤ n) (· ≤ n) (Dal.onFile fun o => do
      Prog.modify tick
      Tally.onStore (x o)) := by
  have hT := Tally.graded_more count
  have hstore : ∀ o, Costs (Tally.More count) (fun m _ => m = 0) (· = 0) (Tally.onStore (x o)) := by
    intro o t
    rw [Tally.onStore, Prog.zoom]
    cases x o t.store with
    | ok a f => exact ⟨0, hown t f, rfl⟩
    | error e f => exact ⟨0, hown t f, rfl⟩
    | stop c => trivial
  refine .get_bind fun d => .zoom (fun h => h) (.bind hT (.modify htick ?_))
  exact (hstore _).mono (fun m _ hm => by omega) fun m hm => by omega

theorem priced_more [PageStore φ] {count : Tally φ → Nat} {read write : Nat}
    (hread : ∀ t : Tally φ, count { t with reads := t.reads + 1 } = count t + read)
    (hwrite : ∀ t : Tally φ, count { t with writes := t.writes + 1 } = count t + write)
    (hown : ∀ (t : Tally φ) (f : φ), count { t with store := f } = count t) :
    Priced (More count) ⟨read, 0, write, 0⟩ where
  graded := graded_more count
  getNode page := by
    have hT := graded_more count
    refine .bind hT ((costs_counted _ hread hown fun o => PageStore.load o page).mono
      (fun n content hn => ?_) fun _ => id)
    exact .ret hT hn
  getNextPage := fun d => ⟨0, rfl, Nat.le_refl 0⟩
  writeNode node := by
    have hT := graded_more count
    have htail : ∀ pageNum : Nat, Costs (More count) (fun n _ => n ≤ write) (· ≤ write)
        (do
          Dal.onFile fun o => PageStore.save o { node with pageNum := pageNum }
          Prog.modify fun d => { d with written := pageNum :: d.written }
          return { node with pageNum := pageNum } : Prog Error (Dal (Tally φ)) Node) := by
      intro pageNum
      refine .bind hT ((costs_counted _ hwrite hown fun o =>
        PageStore.save o { node with pageNum := pageNum }).mono (fun n _ hn => ?_) fun _ => id)
      exact .bind hT (.modify (n := 0) (fun d => rfl) (.ret hT hn))
    refine .ite (fun _ => .bind hT ?_) fun _ => ?_
    · exact fun d => ⟨0, rfl, (htail _).mono (fun n _ hn => by rwa [Nat.zero_add]) fun n hn => by rwa [Nat.zero_add]⟩
    · rw [Prog.ret_bind]
      exact htail _

theorem releases_more (count : Tally φ → Nat) (p : Prices) : Releases (More count) p :=
  fun _ => .modify (n := 0) (fun _ => rfl) (Nat.zero_le _)

end Counts

section Prices

variable (φ : Type) [PageStore φ]

theorem priced_reads : Priced (More (φ := φ) Tally.reads) ⟨1, 0, 0, 0⟩ :=
  priced_more (fun _ => rfl) (fun _ => rfl) fun _ _ => rfl

theorem priced_writes : Priced (More (φ := φ) Tally.writes) ⟨0, 0, 1, 0⟩ :=
  priced_more (fun _ => rfl) (fun _ => rfl) fun _ _ => rfl

end Prices

end Toocal
