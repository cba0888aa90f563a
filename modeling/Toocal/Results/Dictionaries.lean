import Toocal.Results.Isolation

/-!
# A database is a family of dictionaries

`Collection.serve` is what a caller sees of `find`, `put` and `remove`.  However the
requests to any number of collections on one database interleave, they are answered as by
as many dictionaries, one for each collection (`served_as_dictionaries`).

The requests are those of `Provided`: a collection is searched after its first put, a put is
of a new key and leaves no two over-populated neighbours, and every call is safe.
-/

namespace Toocal

open Outcomes Multiway Multiway.Tree Traces Dictionaries Collection Pages4096

/-! ## Requests -/

namespace Collection

variable {φ : Type} [PageStore φ]

/-- What a caller sees of a call. -/
def serve (pastEnd : Item) : Query Bytes Bytes → Prog Error (Collection φ) (Reply Bytes)
  | .find key => do
    let item ← find key
    Prog.ret (.found (item.map Item.value))
  | .put key value => do
    put pastEnd key value
    Prog.ret .done
  | .remove key => do
    match ← Prog.attempt (remove key) with
    | .ok _ => Prog.ret .done
    | .error e => if e = keyNotFound key then Prog.ret .missing else Prog.fail e

/-- The collection is in a state to serve the request. -/
def Provided (cap : Capacity) (c : Collection φ) : Query Bytes Bytes → Prop
  | .find _ => c.root ≠ 0
  | .put key value => ∀ pastEnd, SafeAt cap c (.put key value pastEnd) ∧
      c.CalmAt (.put key value pastEnd)
  | .remove key => SafeAt cap c (.remove key)

theorem serve_find {c c' : Collection φ} {pastEnd : Item} {key : Bytes} {item : Option Item}
    (h : find key c = .ok item c') :
    serve pastEnd (.find key) c = .ok (.found (item.map Item.value)) c' := Prog.bind_ok h

theorem serve_put {c c' : Collection φ} {pastEnd : Item} {key value : Bytes}
    (h : put pastEnd key value c = .ok () c') : serve pastEnd (.put key value) c = .ok .done c' :=
  Prog.bind_ok h

theorem serve_remove {c c' : Collection φ} {pastEnd : Item} {key : Bytes}
    (h : remove key c = .ok () c') : serve pastEnd (.remove key) c = .ok .done c' :=
  Prog.bind_ok (Prog.attempt_ok h)

theorem serve_remove_missing {c c' : Collection φ} {pastEnd : Item} {key : Bytes}
    (h : remove key c = .error (keyNotFound key) c') :
    serve pastEnd (.remove key) c = .ok .missing c' := by
  have hattempt : Prog.attempt (remove key) c = .ok (.error (keyNotFound key)) c' := by
    rw [Prog.attempt, h]
  refine (Prog.bind_ok hattempt).trans ?_
  show (if keyNotFound key = keyNotFound key then Prog.ret Reply.missing
    else Prog.fail (keyNotFound key)) c' = _
  rw [if_pos rfl]
  rfl

end Collection

namespace Database

variable {φ ι : Type} [PageStore φ] [DecidableEq ι]

/-- A request to the collection `i`. -/
def serve (pastEnd : Item) (call : ι × Query Bytes Bytes) :
    Prog Error (Database φ ι) (Reply Bytes) :=
  Prog.zoom (collection call.1) (setCollection call.1) (Collection.serve pastEnd call.2)

/-- One request of a run, with its reply. -/
def Step (cap : Capacity) (w : Database φ ι) (label : (ι × Query Bytes Bytes) × Reply Bytes)
    (w' : Database φ ι) : Prop :=
  (w.collection label.1.1).Provided cap label.1.2 ∧
    ∃ pastEnd, serve pastEnd label.1 w = .ok label.2 w'

end Database

/-! ## The simulation -/

open Database

variable {ι : Type} {o : Options} {base : Bytes} {w : Database File ι}
  {m : ι → Bytes → Option Bytes}

/-- Each collection has a tree whose items are the entries of its dictionary. -/
def Shelved [System] (o : Options) (base : Bytes) (w : Database File ι) (m : ι → Bytes → Option Bytes) :
    Prop :=
  ∃ trees, Tenants o base w trees ∧ ∀ i key, m i key = (valueAt (trees i) key).map Item.value

theorem Shelved.of_update [System] [DecidableEq ι] {trees : ι → Option PTree} {i : ι} {c' : Collection File}
    {t' : Option PTree} {m' : Bytes → Option Bytes}
    (hs : Tenants o base (w.setCollection i c') (Function.update trees i t'))
    (hm : ∀ i key, m i key = (valueAt (trees i) key).map Item.value)
    (hm' : ∀ key, m' key = (valueAt t' key).map Item.value) :
    Shelved o base (w.setCollection i c') (Function.update m i m') := by
  refine ⟨_, hs, fun j key => ?_⟩
  by_cases hj : j = i
  · subst hj
    rw [Function.update_self, Function.update_self]
    exact hm' key
  · rw [Function.update_of_ne hj, Function.update_of_ne hj]
    exact hm j key

/-- **A provided request is answered by the dictionary of its collection.** -/
theorem Shelved.serve [System] [DecidableEq ι] (h : Shelved o base w m) (call : ι × Query Bytes Bytes)
    (hp : (w.collection call.1).Provided (Capacity.page o.pageSize) call.2) (pastEnd : Item) :
    ∃ w', Database.serve pastEnd call w = .ok (reply (m call.1) call.2) w' ∧
      Shelved o base w' (nextAt m call) := by
  obtain ⟨trees, hs, hm⟩ := h
  obtain ⟨i, request⟩ := call
  have hserves := hs.serves i
  have hw := hs.wellFormed i
  cases request with
  | find key =>
    have hfind : find key (w.collection i) = .ok (valueAt (trees i) key) (w.collection i) := by
      cases ht : trees i with
      | none =>
        rw [ht] at hserves
        exact absurd hserves.root hp
      | some u =>
        rw [ht] at hserves hw
        exact hserves.find hw key
    refine ⟨w, ?_, ?_⟩
    · rw [Database.serve, Prog.zoom_ok (serve_find hfind), setCollection_same, reply, ← hm]
    · rw [nextAt, next, Function.update_eq_self]
      exact ⟨trees, hs, hm⟩
  | put key value =>
    obtain ⟨hsafe, t, ht, hcalm⟩ := hp pastEnd
    obtain rfl := ht.unique hserves.toShows
    obtain ⟨c', t', hends, hs', he⟩ := hs.step hsafe
    obtain ⟨u, hu, hfresh, hroom, -⟩ := hsafe
    obtain rfl := hu.unique hserves.toShows
    have hop : (w.collection i).dal.options = o := hs.options
    rw [hop] at hcalm hroom
    refine ⟨_, Prog.zoom_ok (serve_put hends), Shelved.of_update hs' hm fun j => ?_⟩
    rw [← valueAt_erase t', he, valueAt_put (wellFormed_erase.mpr hw)
      ((valueAt_erase _ _).trans hfresh) hroom hcalm, next, Function.update_apply]
    split
    · rfl
    · rw [valueAt_erase]
      exact hm i j
  | remove key =>
    obtain ⟨c', t', hends, hs', he⟩ := hs.step hp
    obtain ⟨u, hu, -, hroom, -⟩ := hp
    obtain rfl := hu.unique hserves.toShows
    have hop : (w.collection i).dal.options = o := hs.options
    rw [hop] at hroom
    by_cases hkey : valueAt (trees i) key = none
    · rw [Op.Ends, if_pos hkey] at hends
      obtain ⟨hremove, rfl⟩ := hends
      have habsent : m i key = none := by rw [hm, hkey]; rfl
      refine ⟨w, ?_, trees, hs, ?_⟩
      · rw [Database.serve, Prog.zoom_ok (serve_remove_missing hremove), setCollection_same,
          reply_remove_absent habsent]
      · rw [nextAt, next_remove_absent habsent, Function.update_eq_self]
        exact hm
    · rw [Op.Ends, if_neg hkey] at hends
      have hpresent : m i key ≠ none := by rwa [hm, ne_eq, Option.map_eq_none_iff]
      refine ⟨_, ?_, Shelved.of_update hs' hm fun j => ?_⟩
      · rw [Database.serve, Prog.zoom_ok (serve_remove hends), reply_remove_present hpresent]
      · rw [← valueAt_erase t', he, valueAt_remove (wellFormed_erase.mpr hw)
          (by rwa [valueAt_erase]) hroom, next, Function.update_apply]
        split
        · rfl
        · rw [valueAt_erase]
          exact hm i j

/-! ## The theorem -/

variable {d : Dal File} {name : ι → Bytes} {labels : List ((ι × Query Bytes Bytes) × Reply Bytes)}

/-- **A database answers as a family of dictionaries**: the replies of a run are theirs, and
whatever request is provided next gets the reply they give. -/
theorem served_as_dictionaries [System] [DecidableEq ι] (hwidth : o.pageSize < 2 ^ 32)
    (hd : Dal.create o = .ok () d)
    (h : Trace (Database.Step (Capacity.page o.pageSize)) ⟨d, fun i => ⟨name i, 0⟩⟩ labels w) :
    labels.map Prod.snd = served (fun _ _ => none) (labels.map Prod.fst) ∧
    ∀ call pastEnd, (w.collection call.1).Provided (Capacity.page o.pageSize) call.2 →
      ∃ w', Database.serve pastEnd call w = .ok
        (reply ((labels.map Prod.fst).foldl nextAt (fun _ _ => none) call.1) call.2) w' := by
  have hstart : Shelved o d.file.bytes ⟨d, fun i => ⟨name i, 0⟩⟩ fun _ _ => none :=
    ⟨_, Tenants.start name hwidth hd, fun _ _ => rfl⟩
  obtain ⟨hreplies, hend⟩ := replies_of_simulation (R := Shelved o d.file.bytes) (by
    rintro s m call answer t hs ⟨hp, pastEnd, hrun⟩
    obtain ⟨w', hrun', hs'⟩ := hs.serve call hp pastEnd
    obtain ⟨hreply, rfl⟩ := Outcome.ok.inj (hrun'.symm.trans hrun)
    exact ⟨hreply.symm, hs'⟩) hstart h
  refine ⟨hreplies, fun call pastEnd hp => ?_⟩
  obtain ⟨w', hrun, -⟩ := hend.serve call hp pastEnd
  exact ⟨w', hrun⟩

/-! ## Replaying requests -/

section Replay

variable [System] {pageSize : Nat} {base : Bytes} {w : Database File ι}
  {e e' : Database (Shelf (Capacity.page pageSize)) ι}

theorem sim_serve (pastEnd : Item) (request : Query Bytes Bytes) :
    Sim (@Mirror pageSize _ base) (Collection.serve pastEnd request)
      (Collection.serve pastEnd request) := by
  cases request with
  | find key => exact (sim_find key).bind fun item => .ret _
  | put key value => exact (sim_put pastEnd key value).bind fun _ => .ret _
  | remove key =>
    refine (sim_remove key).attempt.bind fun result => ?_
    cases result with
    | ok _ => exact .ret _
    | error err => exact .ite (fun _ => .ret _) fun _ => .fail err

/-- The shelf is in a state to serve the request. -/
def ProvidedOn {cap : Capacity} (c : Collection (Shelf cap)) : Query Bytes Bytes → Prop
  | .find _ => c.root ≠ 0
  | .put key value => c.SafeOn (.put key value ⟨[], []⟩) ∧ c.CalmOn (.put key value ⟨[], []⟩)
  | .remove key => c.SafeOn (.remove key)

instance {cap : Capacity} (c : Collection (Shelf cap)) :
    ∀ request, Decidable (ProvidedOn c request)
  | .find _ => inferInstanceAs (Decidable (_ ≠ _))
  | .put _ _ => inferInstanceAs (Decidable (_ ∧ _))
  | .remove _ => inferInstanceAs (Decidable (SafeOn _ _))

theorem provided_of_mirror {c : Collection File} {e : Collection (Shelf (Capacity.page pageSize))}
    (h : Mirror base c e) {request : Query Bytes Bytes} (hp : ProvidedOn e request) :
    c.Provided (Capacity.page pageSize) request := by
  cases request with
  | find key => exact fun h0 => hp (h.root.symm.trans h0)
  | put key value => exact fun _ => ⟨(h.safeAt hp.1.safeAt).pastEnd, (h.calmAt hp.2.calmAt).pastEnd⟩
  | remove key => exact h.safeAt hp.safeAt

/-- The state after a list of requests, each of them provided and with this reply. -/
def serveAll [DecidableEq ι] {cap : Capacity} :
    List ((ι × Query Bytes Bytes) × Reply Bytes) → Database (Shelf cap) ι →
      Option (Database (Shelf cap) ι) :=
  Traces.replay (fun label w => match Database.serve ⟨[], []⟩ label.1 w with
    | .ok answer w' => if answer = label.2 then some w' else none
    | _ => none) fun w label => ProvidedOn (w.collection label.1.1) label.1.2

theorem trace_of_serveAll [DecidableEq ι] {labels : List ((ι × Query Bytes Bytes) × Reply Bytes)}
    (h : Mirrored base w e) (he : serveAll labels e = some e') :
    ∃ w', Trace (Database.Step (Capacity.page pageSize)) w labels w' ∧ Mirrored base w' e' := by
  refine Trace.of_replay (fun {w e label e'} h hp hrun => ?_) h he
  cases hserve : Database.serve ⟨[], []⟩ label.1 e with
  | ok answer e₁ =>
    obtain ⟨w', hw', h'⟩ := (sim_zoom label.1.1 (sim_serve ⟨[], []⟩ label.1.2)).ok h hserve
    simp only [hserve] at hrun
    split at hrun
    next hanswer =>
      obtain rfl := Option.some.inj hrun
      exact ⟨w', ⟨provided_of_mirror (h.collection _) hp, _, hanswer ▸ hw'⟩, h'⟩
    next => cases hrun
  | error err e₁ => simp only [hserve] at hrun; cases hrun
  | stop why => simp only [hserve] at hrun; cases hrun

end Replay

/-- Two collections by turns: each of them splits its root, the first one merges two leaves,
and the second one takes the page. -/
def turns : List ((Bool × Query Bytes Bytes) × Reply Bytes) :=
  [1, 2, 3, 4].flatMap (fun k => [((false, .put [k] [k]), .done), ((true, .put [k] [k, k]), .done)]) ++
    [((false, .remove [4]), .done), ((false, .remove [4]), .missing), ((true, .put [5] [6]), .done),
      ((true, .put [6] [6]), .done), ((true, .put [7] [7]), .done), ((false, .remove [2]), .done),
      ((true, .remove [3]), .done), ((false, .find [1]), .found (some [1])),
      ((false, .find [2]), .found none), ((true, .find [2]), .found (some [2, 2]))]

theorem served_turns : ∃ d w, Dal.create smallNodes = .ok () d ∧
    Trace (Database.Step (Capacity.page 4096)) ⟨d, fun _ => ⟨[], 0⟩⟩ turns w ∧
    turns.map Prod.snd = served (fun _ _ => none) (turns.map Prod.fst) := by
  have hserved : ∃ e, serveAll turns
      (⟨Dal.begun smallNodes, fun _ => ⟨[], 0⟩⟩ : Database (Shelf (Capacity.page 4096)) Bool) =
      some e := Option.isSome_iff_exists.mp (by decide +kernel)
  obtain ⟨e, he⟩ := hserved
  obtain ⟨d, hd, hm⟩ := Database.mirrored_start (o := smallNodes) (fun _ : Bool => ⟨[], 0⟩)
    (by decide) (by decide)
  obtain ⟨w, hrun, -⟩ := trace_of_serveAll hm he
  exact ⟨d, w, hd, hrun, (served_as_dictionaries (o := smallNodes) (by decide) hd hrun).1⟩

end Toocal
