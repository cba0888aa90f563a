import Toocal.Tree.FileRuns

/-!
# Replaying a run on the shelf

`Proper c op` says that the call is one a caller makes by the book: a put of a key that
is not there, a remove of a key that is.  A list of such calls can be replayed on a
shelf, and the file then has a run of its own that ends in a mirror image of the shelf
(`exists_session`): what the shelf computes is what the file does.

`SafeOn` reads the tree off the shelf and asks what `SafeAt` asks of it; a replay of such
calls is a safe run on the file (`exists_safeRun`).

`staleRepair` is a run that ends with the repair of a leaf and, in the same call, of its
parent.  The second repair works on a copy of the parent that the first one has changed
on its page.
-/

namespace Toocal

open Outcomes Multiway Multiway.Tree Traces Pages4096

namespace Collection

/-- A put of a key that is not there, or a remove of one that is. -/
def Proper {φ : Type} [PageStore φ] (c : Collection φ) : Op → Prop
  | .put key _ _ => c.root = 0 ∨ (find key c).answer = .ok none
  | .remove key => ∃ item, (find key c).answer = .ok (some item)

instance {φ : Type} [PageStore φ] (c : Collection φ) : ∀ op : Op, Decidable (c.Proper op)
  | .put key _ _ => inferInstanceAs (Decidable (c.root = 0 ∨ (find key c).answer = .ok none))
  | .remove key =>
    match h : (find key c).answer with
    | .ok (some item) => isTrue ⟨item, h⟩
    | .ok none => isFalse fun ⟨_, hi⟩ => by rw [h] at hi; cases hi
    | .error _ => isFalse fun ⟨_, hi⟩ => by rw [h] at hi; cases hi

/-- The state after a list of proper calls. -/
def replay {φ : Type} [PageStore φ] : List Op → Collection φ → Option (Collection φ) :=
  Traces.replay (fun op c => (op.run c).state?) Proper

section Replay

variable [System] {pageSize : Nat} {base : Bytes} {c : Collection File}
  {e e' : Collection (Shelf (Capacity.page pageSize))}

theorem sim_run (op : Op) : Sim (@Mirror pageSize _ base) op.run op.run := by
  cases op with
  | put key value pastEnd => exact sim_put pastEnd key value
  | remove key => exact sim_remove key

/-- What `find` answers on the shelf it answers on the file. -/
theorem Mirror.find (h : Mirror base c e) {key : Bytes} {a : Option Item}
    (ha : (find key e).answer = .ok a) : (find key c).answer = .ok a := by
  cases he : Collection.find key e with
  | ok b e' =>
    obtain ⟨c', hc, -⟩ := (sim_find key).ok h he
    rw [he] at ha
    rw [hc]
    exact ha
  | error err e' => rw [he] at ha; cases ha
  | stop why => rw [he] at ha; cases ha

theorem Mirror.proper (h : Mirror base c e) {op : Op} (he : e.Proper op) : c.Proper op := by
  cases op with
  | put key value pastEnd => exact he.imp (fun hr => h.root.trans hr) h.find
  | remove key =>
    obtain ⟨item, ha⟩ := he
    exact ⟨item, h.find ha⟩

/-- **What is replayed on the shelf can be replayed on the file.** -/
theorem Mirror.replay {ops : List Op} (h : Mirror base c e) (he : replay ops e = some e') :
    ∃ c', Collection.replay ops c = some c' ∧ Mirror base c' e' :=
  Traces.replay_of_replay (fun h hp => h.proper hp) (fun h hrun => (sim_run _).state? h hrun) h he

theorem Mirror.shows (h : Mirror base c e) {t : PTree} (hroot : e.root = t.tag)
    (h0 : t.tag ≠ 0) (ht : e.dal.Holds t) : c.Shows (some t) where
  root := h.root.trans hroot
  reads u hu := by
    obtain rfl := Option.some.inj hu
    exact ⟨h0, h.reads ht⟩

theorem exists_session {o : Options} {name : Bytes} {ops : List Op}
    {e' : Collection (Shelf (Capacity.page o.pageSize))} (hlarge : defaultPageSize ≤ o.pageSize)
    (hwidth : o.pageSize < 2 ^ 32) (he : replay ops ⟨Dal.begun o, name, 0⟩ = some e') :
    ∃ d c, Dal.create o = .ok () d ∧ replay ops ⟨d, name, 0⟩ = some c ∧ Mirror d.file.bytes c e' := by
  obtain ⟨d, hd, hm, -⟩ := Dal.create_ok hlarge (by omega)
  have hstart : Mirror d.file.bytes ⟨d, name, 0⟩ ⟨Dal.begun o, name, 0⟩ := ⟨hm, rfl, rfl⟩
  obtain ⟨c, hrun, hm'⟩ := hstart.replay he
  exact ⟨d, c, hd, hrun, hm'⟩

/-- A replayed run and one more call, with the trees before and after it: the file goes the
same way. -/
theorem exists_step (o : Options) (name : Bytes) (ops : List Op) (op : Op) (t t' : PTree)
    (fl : Freelist) (hlarge : defaultPageSize ≤ o.pageSize) (hwidth : o.pageSize < 2 ^ 32)
    (h0 : t.tag ≠ 0) (h0' : t'.tag ≠ 0)
    (hshelf : ∃ e ∈ replay ops
      (⟨Dal.begun o, name, 0⟩ : Collection (Shelf (Capacity.page o.pageSize))),
      (e.root = t.tag ∧ e.dal.Holds t) ∧ ∃ p ∈ (op.run e).result?,
      (p.2.root = t'.tag ∧ p.2.dal.Holds t') ∧ p.2.dal.freelist = fl) :
    ∃ d c c', Dal.create o = .ok () d ∧ replay ops ⟨d, name, 0⟩ = some c ∧ c.Shows (some t) ∧
      op.run c = .ok () c' ∧ c'.Shows (some t') ∧ c'.dal.freelist = fl := by
  obtain ⟨e, he, ⟨hroot, hholds⟩, ⟨⟨⟩, e'⟩, hp, ⟨hroot', hholds'⟩, hfl⟩ := hshelf
  obtain ⟨d, c, hd, hrun, hm⟩ := exists_session hlarge hwidth he
  obtain ⟨c', hcall, hm'⟩ := (sim_run op).ok hm (Outcome.eq_ok_of_result? hp)
  exact ⟨d, c, c', hd, hrun, hm.shows hroot h0 hholds, hcall, hm'.shows hroot' h0' hholds',
    hm'.dal.freelist.trans hfl⟩

end Replay

/-! ## Safe runs -/

section Shelf

variable {cap : Capacity}

/-- The tree under a page of a shelf, in at most `height` levels. -/
def treeAt (d : Dal (Shelf cap)) : Nat → Nat → Option PTree
  | 0, _ => none
  | height + 1, page => do
    let content ← d.at? page
    let children ← content.2.mapM (treeAt d height)
    return .node page content.1 children

theorem children_of_mapM {d : Dal (Shelf cap)} {f : Nat → Option PTree} {pages : List Nat}
    {children : List PTree} (hf : ∀ {p t}, f p = some t → t.tag = p ∧ d.Holds t)
    (h : pages.mapM f = some children) :
    children.map Tree.tag = pages ∧ ∀ t ∈ children, d.Holds t := by
  induction pages generalizing children with
  | nil =>
    obtain rfl := Option.some.inj h
    exact ⟨rfl, by simp⟩
  | cons p pages ih =>
    rw [List.mapM_cons] at h
    obtain ⟨t, ht, hrest⟩ := Option.bind_eq_some_iff.mp h
    obtain ⟨ts, hts, he⟩ := Option.bind_eq_some_iff.mp hrest
    obtain rfl := Option.some.inj he
    obtain ⟨htags, hholds⟩ := ih hts
    exact ⟨List.cons_eq_cons.mpr ⟨(hf ht).1, htags⟩,
      List.forall_mem_cons.mpr ⟨(hf ht).2, hholds⟩⟩

theorem treeAt_spec {d : Dal (Shelf cap)} {height page : Nat} {t : PTree}
    (h : treeAt d height page = some t) : t.tag = page ∧ d.Holds t := by
  induction height generalizing page t with
  | zero => cases h
  | succ height ih =>
    obtain ⟨content, hat, hrest⟩ := Option.bind_eq_some_iff.mp h
    obtain ⟨children, hmap, he⟩ := Option.bind_eq_some_iff.mp hrest
    obtain rfl := Option.some.inj he
    obtain ⟨htags, hholds⟩ := children_of_mapM ih hmap
    exact ⟨rfl, Dal.holds_node.mpr ⟨by rw [hat, htags], hholds⟩⟩

/-- The tree under the root. -/
def tree? (c : Collection (Shelf cap)) : Option (Option PTree) :=
  if c.root = 0 then some none else (treeAt c.dal c.dal.fuel c.root).map some

theorem shows_of_tree? {c : Collection (Shelf cap)} {t : Option PTree} (h : t ∈ c.tree?) :
    c.Shows t := by
  rw [tree?] at h
  split at h
  next h0 =>
    obtain rfl := Option.some.inj h
    exact ⟨h0, by simp⟩
  next h0 =>
    obtain ⟨u, hu, rfl⟩ := Option.map_eq_some_iff.mp h
    obtain ⟨htag, hholds⟩ := treeAt_spec hu
    refine ⟨htag.symm, fun v hv => ?_⟩
    obtain rfl := Option.some.inj hv
    exact ⟨htag ▸ h0, Dal.reads_iff_holds.mpr hholds⟩

/-- The call meets `Q` on the tree under the root, with the options and the last page number. -/
def MeetsOn (Q : Options → Nat → Op → Option PTree → Prop) (c : Collection (Shelf cap)) (op : Op) :
    Prop :=
  ∃ t ∈ c.tree?, Q c.dal.options c.dal.freelist.maxPage op t

instance {Q : Options → Nat → Op → Option PTree → Prop} [∀ o m op t, Decidable (Q o m op t)]
    (c : Collection (Shelf cap)) (op : Op) : Decidable (c.MeetsOn Q op) :=
  inferInstanceAs (Decidable (∃ t ∈ c.tree?, _))

theorem MeetsOn.meetsAt {Q : Options → Nat → Op → Option PTree → Prop} {c : Collection (Shelf cap)}
    {op : Op} (h : c.MeetsOn Q op) : c.MeetsAt Q op := by
  obtain ⟨t, ht, hmeets⟩ := h
  exact ⟨t, shows_of_tree? ht, hmeets⟩

/-- What `SafeAt` asks of the tree. -/
def safely (cap : Capacity) (o : Options) (maxPage : Nat) (op : Op) (t : Option PTree) : Prop :=
  op.Fresh t ∧ op.Safe cap o (t.map Tree.erase) ∧ op.Numbers cap maxPage t

instance (o : Options) (maxPage : Nat) (op : Op) (t : Option PTree) :
    Decidable (safely cap o maxPage op t) := inferInstanceAs (Decidable (_ ∧ _ ∧ _))

/-- What `CalmAt` asks of it. -/
def calmly (o : Options) (_ : Nat) (op : Op) (t : Option PTree) : Prop :=
  op.Calm o (t.map Tree.erase)

instance (o : Options) (maxPage : Nat) (op : Op) (t : Option PTree) :
    Decidable (calmly o maxPage op t) := inferInstanceAs (Decidable (op.Calm _ _))

/-- The call is fresh and safe on the tree under the root. -/
abbrev SafeOn : Collection (Shelf cap) → Op → Prop := MeetsOn (safely cap)

/-- The put is calm on the tree under the root. -/
abbrev CalmOn : Collection (Shelf cap) → Op → Prop := MeetsOn calmly

theorem SafeOn.safeAt {c : Collection (Shelf cap)} {op : Op} (h : c.SafeOn op) : SafeAt cap c op :=
  MeetsOn.meetsAt h

theorem CalmOn.calmAt {c : Collection (Shelf cap)} {op : Op} (h : c.CalmOn op) : c.CalmAt op :=
  MeetsOn.meetsAt h

end Shelf

section SafeRuns

variable [System] {pageSize : Nat} {base : Bytes} {c : Collection File} {cap : Capacity}
  {e e' : Collection (Shelf (Capacity.page pageSize))} {op : Op} {ops : List Op}
  {Q : Options → Nat → Op → Option PTree → Prop}

theorem Mirror.toShows (h : Mirror base c e) {t : Option PTree} (ht : e.Shows t) : c.Shows t where
  root := h.root.trans ht.root
  reads u hu := ⟨(ht.reads u hu).1, h.reads (Dal.reads_iff_holds.mp (ht.reads u hu).2)⟩

theorem Mirror.meetsAt (h : Mirror base c e) (hmeets : e.MeetsAt Q op) : c.MeetsAt Q op := by
  obtain ⟨t, ht, hmeets⟩ := hmeets
  rw [← h.dal.options, ← h.dal.freelist] at hmeets
  exact ⟨t, h.toShows ht, hmeets⟩

/-- The state after a list of calls that each meet `Q`. -/
def replayMeeting (Q : Options → Nat → Op → Option PTree → Prop)
    [∀ o m op t, Decidable (Q o m op t)] :
    List Op → Collection (Shelf cap) → Option (Collection (Shelf cap)) :=
  Traces.replay (fun op c => (op.run c).state?) (MeetsOn Q)

/-- **Such a replay is a run of the file.** -/
theorem Mirror.replayMeeting [∀ o m op t, Decidable (Q o m op t)] (h : Mirror base c e)
    (he : replayMeeting Q ops e = some e') :
    ∃ c', Trace (Call (MeetsAt Q)) c ops c' ∧ Mirror base c' e' := by
  refine Trace.of_replay (fun h hp hrun => ?_) h he
  obtain ⟨c', hc', h'⟩ := (sim_run _).state? h hrun
  exact ⟨c', ⟨h.meetsAt hp.meetsAt, hc'⟩, h'⟩

theorem exists_meetingRun [∀ o m op t, Decidable (Q o m op t)] {o : Options}
    {e' : Collection (Shelf (Capacity.page o.pageSize))}
    (hlarge : defaultPageSize ≤ o.pageSize) (hwidth : o.pageSize < 2 ^ 32)
    (he : Collection.replayMeeting Q ops ⟨Dal.begun o, [], 0⟩ = some e') :
    ∃ d c, Dal.create o = .ok () d ∧ Trace (Call (MeetsAt Q)) ⟨d, [], 0⟩ ops c ∧
      Mirror d.file.bytes c e' := by
  obtain ⟨d, hd, hm, -⟩ := Dal.create_ok hlarge (by omega)
  have hstart : Mirror d.file.bytes ⟨d, [], 0⟩ ⟨Dal.begun o, [], 0⟩ := ⟨hm, rfl, rfl⟩
  obtain ⟨c, hrun, hm'⟩ := hstart.replayMeeting he
  exact ⟨d, c, hd, hrun, hm'⟩

theorem Mirror.safeAt (h : Mirror base c e) (hsafe : SafeAt (Capacity.page pageSize) e op) :
    SafeAt (Capacity.page pageSize) c op := h.meetsAt (Q := safely _) hsafe

theorem Mirror.calmAt (h : Mirror base c e) (hcalm : e.CalmAt op) : c.CalmAt op :=
  h.meetsAt (Q := calmly) hcalm

/-- The state after a list of safe calls. -/
abbrev safeReplay : List Op → Collection (Shelf cap) → Option (Collection (Shelf cap)) :=
  replayMeeting (safely cap)

omit [System] in
theorem trace_of_safeReplay {c c' : Collection (Shelf cap)} (h : safeReplay ops c = some c') :
    Trace (Call (SafeAt cap)) c ops c' := by
  have hstep : ∀ {s t : Collection (Shelf cap)} {op t'}, s = t → t.SafeOn op →
      (op.run t).state? = some t' → ∃ s', Call (SafeAt cap) s op s' ∧ s' = t' := by
    rintro s _ op t' rfl hsafe hrun
    exact ⟨t', ⟨MeetsOn.meetsAt hsafe, hrun⟩, rfl⟩
  obtain ⟨s, hs, rfl⟩ := Trace.of_replay hstep rfl h
  exact hs

/-- **A safe replay is a safe run of the file.** -/
theorem Mirror.safeReplay (h : Mirror base c e) (he : safeReplay ops e = some e') :
    ∃ c', Trace (Call (SafeAt (Capacity.page pageSize))) c ops c' ∧ Mirror base c' e' :=
  h.replayMeeting he

theorem exists_safeRun {o : Options} {e' : Collection (Shelf (Capacity.page o.pageSize))}
    (hlarge : defaultPageSize ≤ o.pageSize) (hwidth : o.pageSize < 2 ^ 32)
    (he : Collection.safeReplay ops ⟨Dal.begun o, [], 0⟩ = some e') :
    ∃ d c, Dal.create o = .ok () d ∧
      Trace (Call (SafeAt (Capacity.page o.pageSize))) ⟨d, [], 0⟩ ops c ∧
      Mirror d.file.bytes c e' := exists_meetingRun hlarge hwidth he

end SafeRuns

/-! ## A repair with an outdated copy -/

/-- A node is under-populated with one item of two bytes, and over-populated with four. -/
def smallNodes : Options := ⟨4096, 14 / 4096, 18 / 4096⟩

/-- A put and a remove of a key of one byte. -/
def putByte (key : UInt8) : Op := .put [key] [key] ⟨[], []⟩

def removeByte (key : UInt8) : Op := .remove [key]

/-- Fourteen puts build a tree of three levels; the remove leaves the last leaf and its
parent with one item each. -/
def staleRepair : List Op :=
  [1, 2, 3, 4, 5, 6, 7, 8, 9, 10, 11, 12, 13, 14].map putByte ++ [removeByte 14]

def leafOf (page : Nat) (keys : List UInt8) : PTree := .node page (keys.map fun k => ⟨[k], [k]⟩) []

/-- What the run leaves: the leaf on page 7 has taken in its right neighbour, page 8, and
the old copy of its parent names both of them. -/
def afterStaleRepair : PTree :=
  .node 9 [] [.node 4 ([3, 6, 9, 12].map fun k => ⟨[k], [k]⟩)
    [leafOf 3 [1, 2], leafOf 5 [4, 5], leafOf 6 [7, 8], leafOf 7 [10, 11, 12, 13], leafOf 8 [13]]]

theorem replay_staleRepair :
    ∃ e ∈ replay staleRepair (⟨Dal.begun smallNodes, [], 0⟩ : Collection (Shelf (Capacity.page 4096))),
      e.root = afterStaleRepair.tag ∧ e.dal.Holds afterStaleRepair ∧
      e.dal.freelist = ⟨10, [8, 10]⟩ := by decide +kernel

/-- The run on a created database. -/
theorem exists_staleRepair : ∃ d c, Dal.create smallNodes = .ok () d ∧
    replay staleRepair ⟨d, [], 0⟩ = some c ∧ c.Shows (some afterStaleRepair) ∧
    c.dal.freelist = ⟨10, [8, 10]⟩ := by
  obtain ⟨e, he, hroot, hholds, hfl⟩ := replay_staleRepair
  obtain ⟨d, c, hd, hrun, hm⟩ := exists_session (o := smallNodes) (by decide) (by decide) he
  exact ⟨d, c, hd, hrun, hm.shows hroot (by decide) hholds, hm.dal.freelist.trans hfl⟩

/-! ## A safe run through three levels -/

/-- Fifteen puts build a tree of three levels.  The first remove takes the predecessor of its
key and merges two leaves, the second one merges two nodes above the leaves, and the third
one makes their page the root. -/
def threeLevels : List Op :=
  [1, 2, 3, 4, 5, 6, 7, 8, 9, 10, 11, 12, 13, 14, 15].map putByte ++ [3, 1, 2].map removeByte

def afterThreeLevels : PTree :=
  .node 4 ([6, 9, 12].map fun k => ⟨[k], [k]⟩)
    [leafOf 3 [4, 5], leafOf 6 [7, 8], leafOf 7 [10, 11], leafOf 8 [13, 14, 15]]

/-- The tree after one more remove: a rotation from the right, and a merge with the left. -/
def afterRotation : PTree :=
  .node 4 ([6, 13].map fun k => ⟨[k], [k]⟩)
    [leafOf 3 [4, 5], leafOf 6 [7, 8, 9, 11, 12], leafOf 8 [14, 15]]

/-- The run on a created database, and the remove. -/
theorem exists_threeLevels : ∃ d c c', Dal.create smallNodes = .ok () d ∧
    Trace (Call (SafeAt (Capacity.page 4096))) ⟨d, [], 0⟩ threeLevels c ∧
    c.Shows (some afterThreeLevels) ∧ c.dal.freelist = ⟨10, [5, 10]⟩ ∧
    SafeAt (Capacity.page 4096) c (removeByte 10) ∧ remove [10] c = .ok () c' ∧
    c'.Shows (some afterRotation) ∧ c'.dal.freelist = ⟨10, [5, 10, 7]⟩ := by
  have hshelf : ∃ e ∈ safeReplay threeLevels
      (⟨Dal.begun smallNodes, [], 0⟩ : Collection (Shelf (Capacity.page 4096))),
      (e.root = afterThreeLevels.tag ∧ e.dal.Holds afterThreeLevels) ∧
      e.dal.freelist = ⟨10, [5, 10]⟩ ∧ e.SafeOn (removeByte 10) ∧
      ∃ p ∈ (remove [10] e).result?, (p.2.root = afterRotation.tag ∧
        p.2.dal.Holds afterRotation) ∧ p.2.dal.freelist = ⟨10, [5, 10, 7]⟩ := by
    decide +kernel
  obtain ⟨e, he, ⟨hroot, hholds⟩, hfl, hsafe, ⟨⟨⟩, e'⟩, hp, ⟨hroot', hholds'⟩, hfl'⟩ := hshelf
  obtain ⟨d, c, hd, hrun, hm⟩ := exists_safeRun (o := smallNodes) (by decide) (by decide) he
  obtain ⟨c', hc', hm'⟩ := (sim_remove [10]).ok hm (Outcome.eq_ok_of_result? hp)
  exact ⟨d, c, c', hd, hrun, hm.shows hroot (by decide) hholds, hm.dal.freelist.trans hfl,
    hm.safeAt hsafe.safeAt, hc', hm'.shows hroot' (by decide) hholds', hm'.dal.freelist.trans hfl'⟩

/-- A node is over-populated with two items of two bytes. -/
def thinNodes : Options := ⟨4096, 3 / 4096, 13 / 4096⟩

/-- Four puts build a tree of two levels whose root is over-populated. -/
def fourPuts : List Op := [10, 20, 30, 35].map putByte

def afterFourPuts : PTree :=
  .node 4 ([20, 35].map fun k => ⟨[k], [k]⟩) [leafOf 3 [10], leafOf 5 [30], leafOf 6 []]

/-- The run on a created database. -/
theorem exists_fourPuts : ∃ d c, Dal.create thinNodes = .ok () d ∧
    replay fourPuts ⟨d, [], 0⟩ = some c ∧ c.Shows (some afterFourPuts) := by
  have hshelf : ∃ e ∈ replay fourPuts
      (⟨Dal.begun thinNodes, [], 0⟩ : Collection (Shelf (Capacity.page 4096))),
      e.root = afterFourPuts.tag ∧ e.dal.Holds afterFourPuts := by decide +kernel
  obtain ⟨e, he, hroot, hholds⟩ := hshelf
  obtain ⟨d, c, hd, hrun, hm⟩ := exists_session (o := thinNodes) (by decide) (by decide) he
  exact ⟨d, c, hd, hrun, hm.shows hroot (by decide) hholds⟩

def afterTwoPuts : PTree := .node 4 ([20].map fun k => ⟨[k], [k]⟩) [leafOf 3 [10], leafOf 5 []]

/-- The first two of them: the second one splits the root. -/
theorem exists_twoPuts : ∃ d c c', Dal.create thinNodes = .ok () d ∧
    Runs (SafeAt (Capacity.page 4096)) ⟨d, [], 0⟩ c ∧
    put ⟨[], []⟩ [10] [10] ⟨d, [], 0⟩ = .ok () c ∧ c.Shows (some (leafOf 3 [10])) ∧
    SafeAt (Capacity.page 4096) c (.put [20] [20] ⟨[], []⟩) ∧ c.CalmAt (.put [20] [20] ⟨[], []⟩) ∧
    put ⟨[], []⟩ [20] [20] c = .ok () c' ∧ c'.Shows (some afterTwoPuts) := by
  obtain ⟨d, c, t, hd, hrun, hput, hs, -⟩ := exists_first_put thinNodes [10] [10]
    (by decide) (by decide) (by decide) (by decide)
  have hshelf : ∃ p ∈ (put ⟨[], []⟩ [10] [10] (⟨Dal.begun thinNodes, [], 0⟩ :
      Collection (Shelf (Capacity.page 4096)))).result?, p.2.root = (leafOf 3 [10]).tag ∧
      p.2.dal.Holds (leafOf 3 [10]) ∧ p.2.dal.freelist = ⟨3, []⟩ ∧
      ∃ q ∈ (put ⟨[], []⟩ [20] [20] p.2).result?, q.2.root = afterTwoPuts.tag ∧
      q.2.dal.Holds afterTwoPuts := by decide +kernel
  obtain ⟨⟨⟨⟩, e⟩, he, hroot, hholds, hfreelist, ⟨⟨⟩, e'⟩, he', hroot', hholds'⟩ := hshelf
  have hstart : Mirror d.file.bytes ⟨d, [], 0⟩ ⟨Dal.begun thinNodes, [], 0⟩ :=
    ⟨(Dal.of_create (by decide) hd).1, rfl, rfl⟩
  obtain ⟨c₁, hc₁, hm⟩ := (sim_put _ _ _).ok hstart (Outcome.eq_ok_of_result? he)
  obtain ⟨-, rfl⟩ := Outcome.ok.inj (hc₁.symm.trans hput)
  obtain ⟨c', hc', hm'⟩ := (sim_put _ _ _).ok hm (Outcome.eq_ok_of_result? he')
  have hshows : c₁.Shows (some (leafOf 3 [10])) := hm.shows hroot (by decide) hholds
  have hfl : c₁.dal.freelist = ⟨3, []⟩ := hm.dal.freelist.trans hfreelist
  have hlocate : locate (findKeyInNode [20]) (leafOf 3 [10]) =
      some ⟨[], leafOf 3 [10], 1, false⟩ := by rfl
  have hlocate' : locate (findKeyInNode [20]) (leafOf 3 [10]).erase =
      some ⟨[], (leafOf 3 [10]).erase, 1, false⟩ := by rfl
  refine ⟨d, c₁, c', hd, hrun, hput, hshows, ⟨_, hshows, rfl, fun x hx => ?_, fun x hx => ?_⟩,
    ⟨_, hshows, fun x hx => ?_⟩, hc', hm'.shows hroot' (by decide) hholds'⟩
  · obtain rfl := Option.some.inj (hlocate'.symm.trans hx)
    rw [hs.options]
    exact ⟨by decide, trivial, fun _ => by decide +kernel⟩
  · obtain rfl := Option.some.inj (hlocate.symm.trans hx)
    rw [hfl]
    decide
  · obtain rfl := Option.some.inj (hlocate'.symm.trans hx)
    exact List.IsChain.singleton _

theorem wellFormed_afterFourPuts : WellFormed (some afterFourPuts) :=
  wellFormed_overLeaves rfl (by decide) (by decide)

end Collection

end Toocal
