import Toocal.Tree.Replay
import Toocal.Tree.Tenants

/-!
# Collections on one database do not interfere

A collection on a database with others answers as if it had a database of its own, in every
interleaving of safe calls (`isolated`).

A page that one of them has released and still names as a child goes to another
(`danglingChild_interferes`).
-/

namespace Toocal

open Outcomes Multiway Multiway.Tree Traces Collection Pages4096

/-! ## Replaying calls on a database -/

namespace Database

variable {ι : Type} [DecidableEq ι]

/-- The state after a list of proper calls. -/
def replay {φ : Type} [PageStore φ] : List (ι × Op) → Database φ ι → Option (Database φ ι) :=
  Traces.replay (fun call w => (run call w).state?) fun w call => (w.collection call.1).Proper call.2

/-- The state after a list of safe calls. -/
def safeReplay {cap : Capacity} :
    List (ι × Op) → Database (Shelf cap) ι → Option (Database (Shelf cap) ι) :=
  Traces.replay (fun call w => (run call w).state?) fun w call => (w.collection call.1).SafeOn call.2

section Mirrored

variable [System] {pageSize : Nat} {base : Bytes} {w : Database File ι}
  {e e' : Database (Shelf (Capacity.page pageSize)) ι} {calls : List (ι × Op)}

/-- Two databases with the same collections over layers that mirror each other. -/
structure Mirrored (base : Bytes) (w : Database File ι)
    (e : Database (Shelf (Capacity.page pageSize)) ι) : Prop where
  dal : Mirrors base w.dal e.dal
  handle : w.handle = e.handle

omit [DecidableEq ι] in
theorem Mirrored.collection (h : Mirrored base w e) (i : ι) :
    Mirror base (w.collection i) (e.collection i) :=
  ⟨h.dal, congrArg Handle.name (congrFun h.handle i), congrArg Handle.root (congrFun h.handle i)⟩

theorem sim_zoom {α : Type} {x : Prog Error (Collection File) α}
    {y : Prog Error (Collection (Shelf (Capacity.page pageSize))) α} (i : ι)
    (h : Sim (@Mirror pageSize _ base) x y) :
    Sim (@Mirrored ι _ pageSize base) (Prog.zoom (Database.collection i) (setCollection i) x)
      (Prog.zoom (Database.collection i) (setCollection i) y) := by
  refine Sim.zoom h (fun w e hwe => hwe.collection i) fun w e c e' hwe hc => ⟨hc.dal, ?_⟩
  rw [setCollection, setCollection, hwe.handle, hc.name, hc.root]

theorem sim_run (call : ι × Op) :
    Sim (@Mirrored ι _ pageSize base) (Database.run call) (Database.run call) :=
  sim_zoom call.1 (Collection.sim_run call.2)

theorem Mirrored.replay (h : Mirrored base w e) (he : Database.replay calls e = some e') :
    ∃ w', Database.replay calls w = some w' ∧ Mirrored base w' e' :=
  Traces.replay_of_replay (fun h hp => (h.collection _).proper hp)
    (fun h hrun => (sim_run _).state? h hrun) h he

/-- **A safe replay is a safe run of the file.** -/
theorem Mirrored.safeReplay (h : Mirrored base w e) (he : Database.safeReplay calls e = some e') :
    ∃ w', Trace (Database.Call (SafeAt (Capacity.page pageSize))) w calls w' ∧
      Mirrored base w' e' := by
  refine Trace.of_replay (fun h hp hrun => ?_) h he
  obtain ⟨w', hw', h'⟩ := (sim_run _).state? h hrun
  exact ⟨w', ⟨(h.collection _).safeAt hp.safeAt, hw'⟩, h'⟩

omit [DecidableEq ι] in
theorem mirrored_start {o : Options} (handle : ι → Handle) (hlarge : defaultPageSize ≤ o.pageSize)
    (hwidth : o.pageSize < 2 ^ 32) : ∃ d, Dal.create o = .ok () d ∧
      @Mirrored ι _ o.pageSize d.file.bytes ⟨d, handle⟩ ⟨Dal.begun o, handle⟩ := by
  obtain ⟨d, hd, hm, -⟩ := Dal.create_ok hlarge (by omega)
  exact ⟨d, hd, hm, rfl⟩

end Mirrored

end Database

/-! ## Isolation -/

variable {ι : Type} {o : Options} {d d' : Dal File} {w : Database File ι} {c : Collection File}
  {name : ι → Bytes} {own : Bytes} {calls : List (ι × Op)} {i : ι}

/-- **Isolation**: after its first put, what a collection answers depends on its own calls
only. -/
theorem isolated [System] [DecidableEq ι] (hwidth : o.pageSize < 2 ^ 32)
    (hd : Dal.create o = .ok () d)
    (htogether : Trace (Database.Call (SafeAt (Capacity.page o.pageSize)))
      ⟨d, fun i => ⟨name i, 0⟩⟩ calls w)
    (hd' : Dal.create o = .ok () d')
    (halone : Trace (Call (SafeAt (Capacity.page o.pageSize))) ⟨d', own, 0⟩ (ownCalls i calls) c)
    (hput : (w.collection i).root ≠ 0) (key : Bytes) :
    (find key (w.collection i)).answer = (find key c).answer := by
  obtain ⟨trees, hs, he⟩ := Tenants.of_trace hwidth hd htogether
  obtain ⟨t, hown, he'⟩ := Session.of_trace hwidth hd' halone
  have hsame : (trees i).map Tree.erase = t.map Tree.erase := (he i).trans he'.symm
  have hserves := hs.serves i
  have hw := hs.wellFormed i
  cases htrees : trees i with
  | none =>
    rw [htrees] at hserves
    exact absurd hserves.root hput
  | some u =>
    rw [htrees] at hserves hw hsame
    cases t with
    | none => cases hsame
    | some v =>
      rw [hserves.find hw, hown.serves.find hown.wellFormed, ← valueAt_erase, hsame, valueAt_erase]
      rfl

/-- The first collection grows to three leaves, and its remove merges two of them.  The leaf it
gives up goes to the second one, whose puts split its root. -/
def sharedPages : List (Bool × Op) :=
  [1, 2, 3, 4, 5, 6, 7].map (fun k => (false, putByte k)) ++ [(false, removeByte 3)] ++
    [20, 21, 22, 23].map (fun k => (true, putByte k)) ++ [(false, removeByte 1), (true, removeByte 23)]

theorem isolated_sharedPages : ∃ d w c, Dal.create smallNodes = .ok () d ∧
    Trace (Database.Call (SafeAt (Capacity.page 4096))) ⟨d, fun _ => ⟨[], 0⟩⟩ sharedPages w ∧
    Trace (Call (SafeAt (Capacity.page 4096))) ⟨d, [], 0⟩ (ownCalls false sharedPages) c ∧
    (w.collection true).Shows (some (.node 7 [] [leafOf 5 [20, 21, 22]])) ∧
    (find [6] (w.collection false)).answer = (find [6] c).answer := by
  have htogether : ∃ e ∈ Database.safeReplay sharedPages
      (⟨Dal.begun smallNodes, fun _ => ⟨[], 0⟩⟩ : Database (Shelf (Capacity.page 4096)) Bool),
      (e.collection false).root ≠ 0 ∧ (e.collection true).root = 7 ∧
      e.dal.Holds (.node 7 [] [leafOf 5 [20, 21, 22]]) := by decide +kernel
  have halone : ∃ e, Collection.safeReplay (ownCalls false sharedPages)
      (⟨Dal.begun smallNodes, [], 0⟩ : Collection (Shelf (Capacity.page 4096))) = some e :=
    Option.isSome_iff_exists.mp (by decide +kernel)
  obtain ⟨e, he, hroot, hroot', hholds⟩ := htogether
  obtain ⟨e', he'⟩ := halone
  obtain ⟨d, hd, hm⟩ := Database.mirrored_start (o := smallNodes) (fun _ : Bool => ⟨[], 0⟩)
    (by decide) (by decide)
  obtain ⟨w, hw, hmw⟩ := hm.safeReplay he
  obtain ⟨c, hc, -⟩ := (hm.collection false).safeReplay he'
  have hput : (w.collection false).root ≠ 0 := by
    rw [(hmw.collection false).root]
    exact hroot
  exact ⟨d, w, c, hd, hw, hc, (hmw.collection true).shows hroot' (by decide) hholds,
    isolated (o := smallNodes) (by decide) hd hw hd hc hput [6]⟩

/-- The last two pages that the first collection releases go to the second: page 10, and
page 8, which the first one still names. -/
def danglingChild : List (Bool × Op) :=
  staleRepair.map (false, ·) ++ [20, 21, 22, 23].map fun k => (true, putByte k)

/-- **A released page that is still a child lets one collection see the other.** -/
theorem danglingChild_interferes : ∃ d w c, Dal.create smallNodes = .ok () d ∧
    Database.replay danglingChild ⟨d, fun _ => ⟨[], 0⟩⟩ = some w ∧
    Collection.replay (ownCalls false danglingChild) ⟨d, [], 0⟩ = some c ∧
    (w.collection false).root ≠ 0 ∧
    (find [22] (w.collection false)).answer ≠ (find [22] c).answer := by
  have htogether : ∃ e ∈ Database.replay danglingChild
      (⟨Dal.begun smallNodes, fun _ => ⟨[], 0⟩⟩ : Database (Shelf (Capacity.page 4096)) Bool),
      (e.collection false).root ≠ 0 ∧
      (find [22] (e.collection false)).answer = .ok (some ⟨[22], [22]⟩) := by decide +kernel
  have halone : ∃ e ∈ Collection.replay (ownCalls false danglingChild)
      (⟨Dal.begun smallNodes, [], 0⟩ : Collection (Shelf (Capacity.page 4096))),
      (find [22] e).answer = .ok none := by decide +kernel
  obtain ⟨e, he, hroot, hfind⟩ := htogether
  obtain ⟨e', he', hfind'⟩ := halone
  obtain ⟨d, hd, hm⟩ := Database.mirrored_start (o := smallNodes) (fun _ : Bool => ⟨[], 0⟩)
    (by decide) (by decide)
  obtain ⟨w, hw, hmw⟩ := hm.replay he
  obtain ⟨c, hc, hmc⟩ := (hm.collection false).replay he'
  refine ⟨d, w, c, hd, hw, hc, ?_, ?_⟩
  · rw [(hmw.collection false).root]
    exact hroot
  · rw [(hmw.collection false).find hfind, hmc.find hfind']
    decide

end Toocal
