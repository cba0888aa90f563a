import Toocal.Library.Invariants
import Toocal.Store.Tally
import Toocal.Tree.Replay

/-!
# How many pages a call reads and writes

On a tree of height `h` a search reads at most `h + 1` pages and writes none.  A put goes
along the path twice and writes at most three pages for each of its nodes; a remove goes
along the path twice, repairs each of its nodes, and searches once more
(`page_costs`).  This is counted on the store itself, call by call, and holds after every
run of safe calls.
-/

namespace Toocal

open Outcomes Multiway Multiway.Tree Collection Pages4096

/-! ## Searching -/

section Search

variable {φ : Type} [PageStore φ] {c : Collection φ} {j : Collection (Tally φ)} {t : PTree}
  {key : Bytes} {x : Path Nat Item}

theorem search_counted (exact : Bool) (hj : j.uncounted = c) (hr : c.dal.Reads t)
    (hroot : c.root = t.tag) (hx : IsPath (findKeyInNode key) t x)
    (hfuel : x.frames.length < c.dal.fuel) :
    ∃ d₁ d₂, Dal.getNode j.root j.dal = .ok (nodeOf t) d₁ ∧
      Dal.findKey (nodeOf t) key exact d₁ =
        .ok (if x.found || !exact then some (x.index, nodeOf x.focus) else none,
          0 :: pathIndexes x.frames) d₂ ∧
      d₂.uncounted = c.dal ∧ d₂.file.reads ≤ j.dal.file.reads + (x.frames.length + 1) ∧
      d₂.file.writes = j.dal.file.writes := by
  subst hj
  obtain ⟨d₁, h₁, hd₁⟩ := (tally_simulates.sim_getNode j.root).ok (s := j.dal) rfl
    ((congrArg (fun p => Dal.getNode p j.uncounted.dal) hroot).trans hr.getNode)
  obtain ⟨d₂, h₂, hd₂⟩ := (tally_simulates.sim_findKey (nodeOf t) key exact).ok hd₁
    (Dal.findKey_ok exact hr hx hfuel)
  refine ⟨d₁, d₂, h₁, h₂, hd₂, ?_, ?_⟩
  · obtain ⟨m, hm, hm'⟩ := ((priced_reads φ).getNode j.root).result h₁
    obtain ⟨n, hn, k, hk, hn'⟩ := ((priced_reads φ).findKey (nodeOf t) key exact).result h₂
    simp only [List.length_cons, pathIndexes, List.length_map] at hk
    simp only [More, Tally.More, Nat.one_mul] at hm hm' hn hn'
    omega
  · obtain ⟨m, hm, hm'⟩ := ((priced_writes φ).getNode j.root).result h₁
    obtain ⟨n, hn, k, hk, hn'⟩ := ((priced_writes φ).findKey (nodeOf t) key exact).result h₂
    simp only [More, Tally.More, Nat.zero_mul] at hm hm' hn hn'
    omega

theorem find_counted (hj : j.uncounted = c) (hr : c.dal.Reads t) (hroot : c.root = t.tag)
    (hx : IsPath (findKeyInNode key) t x) (hfuel : x.frames.length < c.dal.fuel) :
    ∃ item j', find key j = .ok item j' ∧ find key c = .ok item j'.uncounted ∧
      j'.dal.file.reads ≤ j.dal.file.reads + (x.frames.length + 1) ∧
      j'.dal.file.writes = j.dal.file.writes := by
  obtain ⟨d₁, d₂, h₁, h₂, -, hreads, hwrites⟩ := search_counted true hj hr hroot hx hfuel
  have hplain := find_of_path hr hroot hx hfuel
  obtain ⟨j', hj', hc⟩ := (tally_simulates.sim_find key).ok hj hplain
  refine ⟨_, j', hj', hplain.trans (by rw [hc]), ?_⟩
  -- the last step of `find` leaves the layer alone
  suffices j'.dal = d₂ by rw [this]; exact ⟨hreads, hwrites⟩
  rw [find, Prog.get_bind, Prog.bind_ok (onDal_ok h₁), Prog.bind_ok (onDal_ok h₂)] at hj'
  cases hfound : x.found with
  | false =>
    rw [hfound] at hj'
    obtain ⟨-, rfl⟩ := Outcome.ok.inj hj'
    rfl
  | true =>
    rw [hfound] at hj'
    obtain ⟨a, _, helement, hret⟩ := Prog.bind_eq_ok.mp hj'
    obtain ⟨-, rfl⟩ := Prog.demand_eq_ok.mp helement
    obtain ⟨-, rfl⟩ := Outcome.ok.inj hret
    rfl

theorem remove_absent_counted (hj : j.uncounted = c) (hr : c.dal.Reads t) (hroot : c.root = t.tag)
    (hx : IsPath (findKeyInNode key) t x) (hfuel : x.frames.length < c.dal.fuel)
    (hf : x.found = false) :
    ∃ j', remove key j = .error (keyNotFound key) j' ∧ j'.uncounted = c ∧
      j'.dal.file.reads ≤ j.dal.file.reads + (x.frames.length + 1) ∧
      j'.dal.file.writes = j.dal.file.writes := by
  obtain ⟨d₁, d₂, h₁, h₂, hd₂, hreads, hwrites⟩ := search_counted true hj hr hroot hx hfuel
  refine ⟨{ j with dal := d₂ }, ?_, ?_, hreads, hwrites⟩
  · refine Prog.bind_error ?_
    rw [removeItem, Prog.get_bind, Prog.bind_ok (onDal_ok h₁), Prog.bind_ok (onDal_ok h₂), hf]
    rfl
  · rw [← hj] at hd₂ ⊢
    exact congrArg (fun d => (⟨d, j.name, j.root⟩ : Collection φ)) hd₂

end Search

/-! ## Putting -/

section Put

variable {φ : Type} [PageStore φ] {c c' c₁ : Collection φ} {key value : Bytes} {pastEnd : Item}
  {ancestors : List Node} {indexes : List Nat}

theorem put_counted (hroot : c.root ≠ 0)
    (hitem : putItem pastEnd ⟨key, value⟩ c = .ok (ancestors, indexes) c₁)
    (hput : put pastEnd key value c = .ok () c') :
    ∃ j, put pastEnd key value c.counted = .ok () j ∧ j.uncounted = c' ∧
      j.dal.file.reads ≤ 2 * ancestors.length ∧ j.dal.file.writes ≤ 3 * ancestors.length + 2 := by
  obtain ⟨j, hj, hc⟩ := (tally_simulates.sim_put pastEnd key value).ok
    (s := c.counted) (t := c) rfl hput
  obtain ⟨j₁, hj₁, hc₁⟩ := (tally_simulates.sim_putItem pastEnd ⟨key, value⟩).ok
    (s := c.counted) (t := c) rfl hitem
  refine ⟨j, hj, hc, ?_⟩
  rw [put, Prog.get_bind, if_neg (show c.counted.root ≠ 0 from hroot), Prog.bind_ok hj₁] at hj
  constructor
  · obtain ⟨m, hm, hm'⟩ := ((priced_reads φ).putItem pastEnd ⟨key, value⟩).result hj₁
    obtain ⟨n, hn, hn'⟩ := ((priced_reads φ).splitUp ancestors indexes).result hj
    simp only [onLayer, More, Tally.More, Prices.split, Collection.counted, Dal.counted,
      Nat.one_mul, Nat.mul_zero] at hm hm' hn hn'
    omega
  · obtain ⟨m, hm, hm'⟩ := ((priced_writes φ).putItem pastEnd ⟨key, value⟩).result hj₁
    obtain ⟨n, hn, hn'⟩ := ((priced_writes φ).splitUp ancestors indexes).result hj
    simp only [onLayer, More, Tally.More, Prices.split, Collection.counted, Dal.counted,
      Nat.mul_one, Nat.zero_mul] at hm hm' hn hn'
    omega

/-- The first `put` writes one page. -/
theorem put_first_counted (hroot : c.root = 0) (hput : put pastEnd key value c = .ok () c') :
    ∃ j, put pastEnd key value c.counted = .ok () j ∧ j.uncounted = c' ∧
      j.dal.file.reads = 0 ∧ j.dal.file.writes ≤ 1 := by
  obtain ⟨j, hj, hc⟩ := (tally_simulates.sim_put pastEnd key value).ok
    (s := c.counted) (t := c) rfl hput
  refine ⟨j, hj, hc, ?_⟩
  rw [put, Prog.get_bind, if_pos (show c.counted.root = 0 from hroot)] at hj
  obtain ⟨root, _, hdal, hset⟩ := Prog.bind_eq_ok.mp hj
  obtain ⟨d, hprog, rfl⟩ := Prog.zoom_eq_ok.mp hdal
  obtain ⟨-, rfl⟩ := Outcome.ok.inj hset
  obtain ⟨new, d₁, hnew, hwrite⟩ := Prog.bind_eq_ok.mp hprog
  constructor
  · obtain ⟨m, hm, hm'⟩ := ((priced_reads φ).newNode _ _).result hnew
    obtain ⟨n, hn, hn'⟩ := ((priced_reads φ).writeNode _).result hwrite
    simp only [More, Tally.More, Collection.counted, Dal.counted] at hm hm' hn hn' ⊢
    omega
  · obtain ⟨m, hm, hm'⟩ := ((priced_writes φ).newNode _ _).result hnew
    obtain ⟨n, hn, hn'⟩ := ((priced_writes φ).writeNode _).result hwrite
    simp only [More, Tally.More, Collection.counted, Dal.counted] at hm hm' hn hn' ⊢
    omega

end Put

/-! ## Removing -/

section Remove

variable {φ : Type} [PageStore φ] {c c' c₁ : Collection φ} {key : Bytes} {t : PTree}
  {x : Path Nat Item} {ancestors : List Node} {indexes : List Nat}

/-- The rounds of `remove` and the collapse of the root. -/
def rebalanceUp (ancestors : List Node) (indexes : List Nat) : Prog Error (Collection φ) Unit := do
  onDal (Prog.forEach (rebalanceRound ancestors indexes) (rounds ancestors))
  collapseRoot ancestors

theorem sim_rebalanceUp {ψ : Type} [PageStore ψ] {R : Dal ψ → Dal φ → Prop}
    {S : Collection ψ → Collection φ → Prop} (hs : Simulates R S) (ancestors : List Node)
    (indexes : List Nat) : Sim S (rebalanceUp ancestors indexes) (rebalanceUp ancestors indexes) :=
  Sim.bind (hs.sim_onDal (Sim.forEach (hs.sim_rebalanceRound _ _) _)) fun _ => hs.sim_collapseRoot _

/-- `remove` ends with a search. -/
theorem remove_eq {item : Option Item} {c₂ : Collection φ}
    (hitem : removeItem key c = .ok (ancestors, indexes) c₁)
    (hup : rebalanceUp ancestors indexes c₁ = .ok () c₂) (hfind : find key c₂ = .ok item c') :
    remove key c = .ok () c' := by
  obtain ⟨_, d, hrounds, hcollapse⟩ := Prog.bind_eq_ok.mp hup
  exact (Prog.bind_ok hitem).trans <| (Prog.bind_ok hrounds).trans <|
    (Prog.bind_ok hcollapse).trans <| (Prog.bind_ok hfind).trans rfl

theorem remove_counted (hitem : removeItem key c = .ok (ancestors, indexes) c₁)
    (hup : rebalanceUp ancestors indexes c₁ = .ok () c') (hr : c'.dal.Reads t)
    (hroot : c'.root = t.tag) (hx : IsPath (findKeyInNode key) t x)
    (hfuel : x.frames.length < c'.dal.fuel) :
    ∃ j, remove key c.counted = .ok () j ∧ j.uncounted = c' ∧
      j.dal.file.reads ≤ 2 * ancestors.length + 4 * (ancestors.length - 1) + (x.frames.length + 1) ∧
      j.dal.file.writes ≤ 2 + 8 * (ancestors.length - 1) := by
  obtain ⟨j₁, hj₁, hc₁⟩ := (tally_simulates.sim_removeItem key).ok
    (s := c.counted) (t := c) rfl hitem
  obtain ⟨j₂, hj₂, hc₂⟩ := (sim_rebalanceUp tally_simulates ancestors indexes).ok hc₁ hup
  obtain ⟨item, j, hj, hplain, hreads, hwrites⟩ := find_counted hc₂ hr hroot hx hfuel
  have hsame : j.uncounted = c' :=
    (Outcome.ok.inj (hplain.symm.trans (find_of_path hr hroot hx hfuel))).2
  refine ⟨j, remove_eq hj₁ hj₂ hj, hsame, ?_, ?_⟩
  · obtain ⟨m, hm, hm'⟩ := ((priced_reads φ).removeItem key).result hj₁
    obtain ⟨n, hn, hn'⟩ :=
      ((priced_reads φ).rebalanceUp (releases_more _ _) ancestors indexes).result hj₂
    simp only [onLayer, More, Tally.More, Prices.rebalance, Collection.counted, Dal.counted,
      Nat.one_mul, Nat.mul_one, Nat.mul_zero] at hm hm' hn hn'
    omega
  · obtain ⟨m, hm, hm'⟩ := ((priced_writes φ).removeItem key).result hj₁
    obtain ⟨n, hn, hn'⟩ :=
      ((priced_writes φ).rebalanceUp (releases_more _ _) ancestors indexes).result hj₂
    simp only [onLayer, More, Tally.More, Prices.rebalance, Collection.counted, Dal.counted,
      Nat.mul_one, Nat.zero_mul, Nat.mul_zero] at hm hm' hn hn'
    omega

end Remove

/-! ## On a shelf -/

theorem uniform_collapse {π : Type} {h : Nat} {u : Tree π Item} (its : List Item)
    (hu : Uniform h u) : ∃ h' ≤ h, Uniform h' (collapse its u) := by
  rw [collapse]
  split
  · cases hc : u.children with
    | nil => exact ⟨h, Nat.le_refl h, hu⟩
    | cons v vs =>
      obtain ⟨k, rfl, hk⟩ := hu.of_mem (hc ▸ List.mem_cons_self : v ∈ u.children)
      exact ⟨k, Nat.le_succ k, hk⟩
  · exact ⟨h, Nat.le_refl h, hu⟩

theorem length_frames_of_leaf {π : Type} {h : Nat} {fs : List (Frame π Item)} {u : Tree π Item}
    (hu : Uniform h (plugAll fs u)) (hleaf : u.children = []) : fs.length = h := by
  obtain ⟨k, hk, hfocus⟩ := uniform_of_plugAll hu
  obtain rfl : k = 0 := hfocus.zero_of_children hleaf
  omega

theorem length_frames_le {π : Type} {h : Nat} {t : Tree π Item} {p : List Item → Bool × Nat}
    {x : Path π Item} (hu : Uniform h t) (hx : IsPath p t x) : x.frames.length ≤ h := by
  obtain ⟨k, hk, -⟩ := uniform_of_plugAll (hx.eq.symm ▸ hu : Uniform h (plugAll x.frames x.focus))
  omega

section Reading

variable {cap : Capacity}

theorem maintains_getNode (P : Dal (Shelf cap) → Prop) (p : Nat) :
    Maintains P (fun n => n.pageNum = p) (Dal.getNode p) := by
  intro d hd
  cases hp : d.at? p with
  | none =>
    have hload : PageStore.load d.options p d.file = .stop .outside := by
      have hnone : d.file.lookup p = none := hp
      simp only [PageStore.load, hnone]
    have hrun : Dal.getNode p d = .stop .outside := by
      rw [Dal.getNode, Prog.bind_stop]
      rw [Dal.onFile, Prog.get_bind]
      exact Prog.zoom_stop hload
    rw [hrun]
    trivial
  | some c =>
    rw [Dal.getNode_ok hp]
    exact ⟨hd, rfl⟩

theorem maintains_findKeyHelper (P : Dal (Shelf cap) → Prop) (key : Bytes) (exact : Bool)
    (fuel : Nat) (node : Node) (ancestorsIndexes : List Nat) :
    Maintains P (fun _ => True) (Dal.findKeyHelper key exact fuel node ancestorsIndexes) := by
  induction fuel generalizing node ancestorsIndexes with
  | zero => exact .halt _
  | succ fuel ih =>
    unfold Dal.findKeyHelper
    obtain ⟨wasFound, index⟩ := findKeyInNode key node.items
    cases wasFound with
    | true => exact .ret trivial
    | false =>
      refine Maintains.ite (fun _ => Maintains.ite (fun _ => .ret trivial) fun _ => .ret trivial) ?_
      intro _
      refine (Maintains.element _ _).bind fun child _ => ?_
      exact (maintains_getNode P child).bind fun nextChild _ => ih _ _

theorem maintains_find (P : Collection (Shelf cap) → Prop) (key : Bytes) :
    Maintains P (fun _ => True) (find key) := by
  refine Maintains.get_bind fun c _ => ?_
  refine (Maintains.zoom (fun _ => rfl) fun c _ => maintains_getNode _ _).bind fun node _ => ?_
  refine (Maintains.zoom (fun _ => rfl) fun c _ => Maintains.get_bind fun d _ =>
    maintains_findKeyHelper _ key true d.fuel node [0]).bind fun p _ => ?_
  match p with
  | (none, _) => exact .ret trivial
  | (some (index, containingNode), _) => exact (Maintains.element _ _).bind fun _ _ => .ret trivial

end Reading

section Shelves

variable {cap : Capacity} {e : Collection (Shelf cap)} {F : Set Nat} {t : PTree} {h : Nat}
  {key : Bytes} {x : Path Nat Item}

theorem remove_halves (hs : e.Stands F (some t)) (hu : Uniform h t)
    (hx : locate (findKeyInNode key) t = some x) (hpath : IsPath (findKeyInNode key) t x)
    (hf : x.found = true) (hsafe : RemoveSafe cap e.dal.options key t) :
    ∃ ancestors indexes e₁ e' t' h', ancestors.length = h + 1 ∧
      removeItem key e = .ok (ancestors, indexes) e₁ ∧
      rebalanceUp ancestors indexes e₁ = .ok () e' ∧ e'.Stands F (some t') ∧
      Uniform h' t' ∧ h' ≤ h := by
  obtain ⟨ho, hroot⟩ := stands_some.mp hs
  obtain ⟨p, hp, hroom, -⟩ := hsafe x hx hf
  obtain ⟨-, hup, hleaf⟩ := takeOut_spec hu hpath hf hp
  obtain ⟨d₁, hitem, -⟩ := removeItem_ok ho hroot hu hpath hf hp hroom
  obtain ⟨e', hrun, ho', hroot', -⟩ := remove_ok ho hroot hu hx hpath hf hsafe
  -- the run in two halves and a search
  rw [remove, Prog.bind_ok hitem] at hrun
  obtain ⟨_, e₂, hrounds, hrest⟩ := Prog.bind_eq_ok.mp hrun
  obtain ⟨_, e₃, hcollapse, hsearch⟩ := Prog.bind_eq_ok.mp hrest
  obtain ⟨item, e₄, hfind, hend⟩ := Prog.bind_eq_ok.mp hsearch
  obtain rfl : e₄ = e' := by cases hend; rfl
  obtain ⟨rfl, -⟩ := (maintains_find (fun c => c = e₃) key).result rfl hfind
  obtain ⟨h', hle, hu'⟩ := uniform_collapse (topItems p.1 p.2.items)
    (shrinkPath_spec (o := e.dal.options) hup).1
  refine ⟨_, _, _, e₄, _, h', ?_, hitem, (Prog.bind_ok hrounds).trans hcollapse,
    stands_some.mpr ⟨ho', hroot'⟩, removeOutline_eq hx hf hp ▸ hu', hle⟩
  rw [length_pathNodes, length_frames_of_leaf hup hleaf]

end Shelves

/-! ## The theorem -/

/-- How many pages a call reads at most on a tree of height `h`. -/
def Op.readsAtMost (h : Nat) : Op → Nat
  | .put _ _ _ => 2 * (h + 1)
  | .remove _ => 7 * h + 3

/-- How many pages a call writes at most on a tree of height `h`. -/
def Op.writesAtMost (h : Nat) : Op → Nat
  | .put _ _ _ => 3 * h + 5
  | .remove _ => 8 * h + 2

/-- No call on the collection costs more than on a tree of height `h`; counting the pages changes
nothing else. -/
structure CostsAtMost [System] (cap : Capacity) (h : Nat) (c : Collection File) : Prop where
  find : c.root ≠ 0 → ∀ key, ∃ item j, find key c.counted = .ok item j ∧
    find key c = .ok item j.uncounted ∧ j.dal.file.reads ≤ h + 1 ∧ j.dal.file.writes = 0
  call : ∀ op : Op, SafeAt cap c op → ∃ j, (op.run c.counted).state? = some j ∧
    (op.run c.counted).mapState Collection.uncounted = op.run c ∧
    j.dal.file.reads ≤ op.readsAtMost h ∧ j.dal.file.writes ≤ op.writesAtMost h

section File

variable {o : Options} {base : Bytes} {d : Dal File} {name : Bytes} {c : Collection File}
  {t : Option PTree} {u : PTree} {h : Nat}

theorem Collection.Session.find_costs [System] (hsession : Session o base c (some u)) (hu : Uniform h u) (key : Bytes) :
    ∃ item j, find key c.counted = .ok item j ∧ find key c = .ok item j.uncounted ∧
      j.dal.file.reads ≤ h + 1 ∧ j.dal.file.writes = 0 := by
  have hserves := hsession.serves
  obtain ⟨x, -, hx⟩ := exists_path key hu.regular
  obtain ⟨item, j, hj, hplain, hreads, hwrites⟩ := find_counted (j := c.counted) rfl
    (hserves.reads u rfl).2 hserves.root hx ((length_frames_lt_tags hx).trans hserves.fuel)
  refine ⟨item, j, hj, hplain, hreads.trans ?_, hwrites⟩
  have := length_frames_le hu hx
  simp only [Collection.counted, Dal.counted]
  omega

theorem Collection.Session.put_costs [System] {key value : Bytes} {pastEnd : Item} {c' : Collection File}
    (hsession : Session o base c (some u)) (hu : Uniform h u)
    (hsafe : SafeAt (Capacity.page o.pageSize) c (.put key value pastEnd))
    (hput : put pastEnd key value c = .ok () c') :
    ∃ j, put pastEnd key value c.counted = .ok () j ∧ j.uncounted = c' ∧
      j.dal.file.reads ≤ 2 * (h + 1) ∧ j.dal.file.writes ≤ 3 * h + 5 := by
  have hroot := hsession.root_ne_zero
  have hserves := hsession.serves
  obtain ⟨e, hm, hs, hw, -⟩ := hsession
  obtain ⟨v, hv, hf, hroom, -⟩ := hsafe
  obtain rfl := hv.unique hserves.toShows
  obtain ⟨-, hsorted⟩ := wellFormed_some.mp hw
  obtain ⟨x, hx, hpath⟩ := exists_path key hu.regular
  have hfound : x.found = false := by
    rw [← Bool.not_eq_true, found_iff hpath hsorted]
    exact fun hne => hne hf
  have hxe : locate (findKeyInNode key) u.erase = some x.erase := by rw [locate_erase, hx]; rfl
  obtain ⟨hroom, -⟩ := hroom _ hxe
  simp only [Path.erase, items_erase] at hroom
  obtain ⟨ho, hroot'⟩ := stands_some.mp hs
  have hroom' : (Capacity.page o.pageSize).room (insertAt x.focus.items x.index ⟨key, value⟩)
      x.focus.children.length = true := by rw [hpath.leaf hfound]; exact hroom
  obtain ⟨d', hitem, -⟩ := putItem_ok pastEnd ho hroot' hpath hroom'
  obtain ⟨c₁, hitem', -⟩ := (sim_putItem pastEnd ⟨key, value⟩).ok hm hitem
  obtain ⟨j, hj, hc, hreads, hwrites⟩ := put_counted hroot hitem' hput
  have hlen : x.frames.length = h := length_frames_of_leaf (u := x.focus)
    (hpath.eq.symm ▸ hu) (hpath.leaf hfound)
  rw [length_pathNodes, hlen] at hreads hwrites
  exact ⟨j, hj, hc, by omega, by omega⟩

theorem Collection.Session.remove_costs [System] {key : Bytes} (hsession : Session o base c (some u))
    (hu : Uniform h u) (hsafe : SafeAt (Capacity.page o.pageSize) c (.remove key)) :
    ∃ j, (remove key c.counted).state? = some j ∧
      (remove key c.counted).mapState Collection.uncounted = remove key c ∧
      j.dal.file.reads ≤ 7 * h + 3 ∧ j.dal.file.writes ≤ 8 * h + 2 := by
  have hserves := hsession.serves
  obtain ⟨e, hm, hs, hw, -⟩ := hsession
  obtain ⟨v, hv, -, hsafe, -⟩ := hsafe
  obtain rfl := hv.unique hserves.toShows
  obtain ⟨-, hsorted⟩ := wellFormed_some.mp hw
  obtain ⟨x, hx, hpath⟩ := exists_path key hu.regular
  have hreads' := (hserves.reads u rfl).2
  have hfuel := (length_frames_lt_tags hpath).trans hserves.fuel
  cases hfound : x.found with
  | false =>
    obtain ⟨j, hj, hc, hreads, hwrites⟩ := remove_absent_counted (j := c.counted) rfl hreads'
      hserves.root hpath hfuel hfound
    have hkey : valueAt (some u) key = none := by
      by_contra hne
      rw [(found_iff hpath hsorted).mpr hne] at hfound
      cases hfound
    refine ⟨j, congrArg Outcome.state? hj, ?_, ?_, ?_⟩
    · rw [hj, hserves.remove_absent hw hkey, Outcome.mapState, hc]
      rfl
    · have := length_frames_le hu hpath
      simp only [Collection.counted, Dal.counted] at hreads
      omega
    · rw [hwrites]
      exact Nat.zero_le _
  | true =>
    rw [hm.dal.options] at hsafe
    obtain ⟨ancestors, indexes, e₁, e', t', h', hlen, hitem, hup, hs', hu', hle⟩ :=
      remove_halves hs hu hx hpath hfound ((removeSafe_erase u).mp hsafe)
    obtain ⟨c₁, hitem', hm₁⟩ := (mirrors_simulates.sim_removeItem key).ok hm hitem
    obtain ⟨c', hup', hm'⟩ := (sim_rebalanceUp mirrors_simulates ancestors indexes).ok hm₁ hup
    have hserves' := hm'.serves hs'
    obtain ⟨y, -, hy⟩ := exists_path key hu'.regular
    have hfuel' := (length_frames_lt_tags hy).trans hserves'.fuel
    obtain ⟨j, hj, hc, hreads, hwrites⟩ := remove_counted hitem' hup'
      (hserves'.reads t' rfl).2 hserves'.root hy hfuel'
    have hy' := length_frames_le hu' hy
    rw [hlen] at hreads hwrites
    refine ⟨j, congrArg Outcome.state? hj, ?_, by omega, by omega⟩
    have hfind := find_of_path (hserves'.reads t' rfl).2 hserves'.root hy hfuel'
    rw [hj, remove_eq hitem' hup' hfind, Outcome.mapState, hc]

/-- **What a call costs**: on a tree of height `h` a search reads at most `h + 1` pages, and a
put or a remove reads and writes a fixed number of pages for each level. -/
theorem page_costs [System] (hwidth : o.pageSize < 2 ^ 32) (hd : Dal.create o = .ok () d)
    (hrun : Runs (SafeAt (Capacity.page o.pageSize)) ⟨d, name, 0⟩ c) (ht : c.Shows t)
    (hh : ∀ u ∈ t, Uniform h u) : CostsAtMost (Capacity.page o.pageSize) h c := by
  obtain ⟨t', hsession⟩ := Session.of_run hwidth hd hrun
  obtain rfl : t' = t := hsession.serves.toShows.unique ht
  refine ⟨fun hroot key => ?_, fun op hsafe => ?_⟩
  · cases t' with
    | none => exact absurd hsession.serves.root hroot
    | some u => exact hsession.find_costs (hh u rfl) key
  · obtain ⟨c', t'', hends, -⟩ := hsession.step hsafe
    cases op with
    | put key value pastEnd =>
      have hput : put pastEnd key value c = .ok () c' := hends
      suffices ∃ j, put pastEnd key value c.counted = .ok () j ∧ j.uncounted = c' ∧
          j.dal.file.reads ≤ 2 * (h + 1) ∧ j.dal.file.writes ≤ 3 * h + 5 by
        obtain ⟨j, hj, hc, hreads, hwrites⟩ := this
        refine ⟨j, congrArg Outcome.state? hj, ?_, hreads, hwrites⟩
        rw [Op.run, Op.run, hj, hput, Outcome.mapState, hc]
      cases t' with
      | none =>
        obtain ⟨j, hj, hc, hreads, hwrites⟩ := put_first_counted hsession.serves.root hput
        exact ⟨j, hj, hc, by omega, by omega⟩
      | some u => exact hsession.put_costs (hh u rfl) hsafe hput
    | remove key =>
      cases t' with
      | none =>
        obtain ⟨v, hv, -, hsafe, -⟩ := hsafe
        obtain rfl := hv.unique hsession.serves.toShows
        exact hsafe.elim
      | some u => exact hsession.remove_costs (hh u rfl) hsafe

end File

/-- Two puts have made a tree of height 1. -/
theorem page_costs_twoPuts : ∃ d c, Dal.create thinNodes = .ok () d ∧
    c.Shows (some afterTwoPuts) ∧ CostsAtMost (Capacity.page thinNodes.pageSize) 1 c := by
  obtain ⟨d, c, c', hd, hrun, -, -, hsafe, -, hput, hshows⟩ := exists_twoPuts
  have hstep : Step (SafeAt (Capacity.page 4096)) c c' := ⟨_, hsafe, congrArg Outcome.state? hput⟩
  refine ⟨d, c', hd, hshows, page_costs (o := thinNodes) (by decide) hd (hrun.tail hstep) hshows ?_⟩
  rintro u ⟨⟩
  exact .inner _ _ _ rfl (by
    intro u hu
    simp only [List.mem_cons, List.not_mem_nil, or_false] at hu
    rcases hu with rfl | rfl <;> exact .leaf _ _)

end Toocal
