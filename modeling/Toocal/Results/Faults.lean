import Toocal.Store.Faulty
import Toocal.Tree.Replay

/-!
# A failing access is reported

`Reaches c op left`: the call makes more than `left` page accesses.  What it does up to the
next one is what it does on the file (`run_of_not_reached`).

* `fault_reported`: if that access fails, and with it every later one, the call returns an
  error or ends the process.
-/

namespace Toocal

open Outcomes Traces Collection Pages4096

/-- The call comes to the page access after the first `left` ones. -/
def Reaches [System] (c : Collection File) (op : Op) (left : Nat) : Prop :=
  op.run (c.faulty left none) = .stop .outside

theorem sim_run_faulty [System] (op : Op) :
    Sim (fun c e => ∃ left, e = Collection.faulty c left none) op.run op.run := by
  cases op with
  | put key value pastEnd => exact faulty_simulates.sim_put pastEnd key value
  | remove key => exact faulty_simulates.sim_remove key

/-- A call that ends before this access ends as it does on the file. -/
theorem run_of_not_reached [System] {c : Collection File} {op : Op} {left : Nat}
    {c' : Collection FaultyFile} (hrun : (op.run (c.faulty left none)).state? = some c') :
    ∃ c₁ left', (op.run c).state? = some c₁ ∧ c' = c₁.faulty left' none := by
  obtain ⟨c₁, hc₁, left', rfl⟩ := (sim_run_faulty op).state? ⟨left, rfl⟩ hrun
  exact ⟨c₁, left', hc₁, rfl⟩

theorem reports_run [System] {w : Bytes} (op : Op) : Collection.Reports w (fun _ => True) op.run := by
  cases op with
  | put key value pastEnd => exact reports_put pastEnd key value
  | remove key => exact reports_remove key

/-- **A failed access is never reported as success**: on whatever pages a call runs, if the
stream fails at one of its accesses and from there on, the call returns an error or ends the
process. -/
theorem fault_reported [System] (c : Collection File) (op : Op) (left : Nat) (wreck : Bytes)
    (h : Reaches c op left) :
    (∃ e c', op.run (c.faulty left (some wreck)) = .error e c') ∨
      op.run (c.faulty left (some wreck)) = .stop .terminated := by
  have hfollows := reports_run (w := wreck) op (twin_faulty c left wreck)
  rw [Reaches] at h
  rw [h] at hfollows
  generalize op.run (c.faulty left (some wreck)) = o at hfollows
  cases hfollows with
  | stop hc => exact absurd rfl hc
  | struck hs =>
    cases o with
    | ok a c' => exact hs.2.elim
    | error e c' => exact .inl ⟨e, c', rfl⟩
    | stop c' => exact .inr (congrArg Outcome.stop hs)

/-! ## A write whose outcome is dropped -/

section Dropped

variable [System] {o : Options} {f f' : File} {d d' : Dal File} {p left : Nat} {n m : Node}
  {wreck : Option Bytes}

omit [System] in
theorem access_ok {α : Type} {x : Prog Error File α} {a : α} (h : x f = .ok a f') :
    FaultyFile.access x ⟨f, left + 1, wreck⟩ = .ok a ⟨f', left, wreck⟩ := by
  simp only [FaultyFile.access, Prog.zoom, h]

theorem load_faulty {content : List Item × List Nat} (h : PageStore.load o p f = .ok content f') :
    PageStore.load o p (⟨f, left + 1, wreck⟩ : FaultyFile) = .ok content ⟨f', left, wreck⟩ := by
  obtain ⟨data, f₁, hread, hdemand⟩ := Prog.bind_eq_ok.mp h
  obtain ⟨hdecode, rfl⟩ := Prog.demand_eq_ok.mp hdemand
  exact (Prog.bind_ok (access_ok hread)).trans (Prog.demand_eq_ok.mpr ⟨hdecode, rfl⟩)

theorem save_faulty (h : PageStore.save o n f = .ok () f') :
    PageStore.save o n (⟨f, left + 1, wreck⟩ : FaultyFile) = .ok () ⟨f', left, wreck⟩ := by
  obtain ⟨data, f₁, hdemand, hrest⟩ := Prog.bind_eq_ok.mp h
  obtain ⟨hserialize, rfl⟩ := Prog.demand_eq_ok.mp hdemand
  obtain ⟨_, f₂, hlimit, hwrite⟩ := Prog.bind_eq_ok.mp hrest
  obtain ⟨hrequire, rfl⟩ := Prog.require_eq_ok.mp hlimit
  refine (Prog.bind_ok (Prog.demand_eq_ok.mpr ⟨hserialize, rfl⟩)).trans ?_
  rw [Prog.require_bind hrequire]
  exact access_ok hwrite

theorem save_spent (h : PageStore.save o n f = .ok () f') :
    PageStore.save o n (⟨f, 0, none⟩ : FaultyFile) = .stop .outside := by
  obtain ⟨data, f₁, hdemand, hrest⟩ := Prog.bind_eq_ok.mp h
  obtain ⟨hserialize, rfl⟩ := Prog.demand_eq_ok.mp hdemand
  obtain ⟨_, f₂, hlimit, -⟩ := Prog.bind_eq_ok.mp hrest
  obtain ⟨hrequire, rfl⟩ := Prog.require_eq_ok.mp hlimit
  refine (Prog.bind_ok (Prog.demand_eq_ok.mpr ⟨hserialize, rfl⟩)).trans ?_
  rw [Prog.require_bind hrequire]
  rfl

theorem getNode_faulty (h : Dal.getNode p d = .ok n d') :
    Dal.getNode p (d.faulty (left + 1) wreck) = .ok n (d'.faulty left wreck) := by
  obtain ⟨content, d₁, hload, hret⟩ := Prog.bind_eq_ok.mp h
  obtain ⟨rfl, rfl⟩ := Outcome.ok.inj hret
  obtain ⟨f, hread, rfl⟩ := Prog.zoom_eq_ok.mp ((Prog.get_bind _ d).symm.trans hload)
  exact Dal.getNode_ok_of_load (d := d.faulty (left + 1) wreck) (load_faulty hread)

theorem writeNode_faulty (h : Dal.writeNode n d = .ok m d') :
    Dal.writeNode n (d.faulty (left + 1) wreck) = .ok m (d'.faulty left wreck) := by
  obtain ⟨f, hsave, rfl, rfl⟩ := Dal.writeNode_eq_ok_iff.mp h
  exact Dal.writeNode_ok_of_save (d := d.faulty (left + 1) wreck) (save_faulty hsave)

theorem writeNode_spent (h : Dal.writeNode n d = .ok m d') :
    Dal.writeNode n (d.faulty 0 none) = .stop .outside := by
  obtain ⟨f, hsave, -⟩ := Dal.writeNode_eq_ok_iff.mp h
  exact Dal.writeNode_stop_of_save (d := d.faulty 0 none) (save_spent hsave)

/-- Where a `remove` takes the item of the root over a leaf, its fourth access is the write of the
root, whose outcome `remove_item_from_internal` drops. -/
theorem reaches_droppedWrite {c : Collection File} {key : Bytes} {root child : Node} {i page : Nat}
    {back : Item} (hroot : Dal.getNode c.root c.dal = .ok root c.dal)
    (hkey : findKeyInNode key root.items = (true, i)) (hinner : root.isLeaf = false)
    (hpage : root.children[i]? = some page) (hchild : Dal.getNode page c.dal = .ok child c.dal)
    (hleaf : child.isLeaf = true) (hback : child.items.getLast? = some back)
    (hi : i < root.items.length)
    (hleafWrite : Dal.writeNode { child with items := child.items.dropLast } c.dal = .ok n d)
    (hrootWrite : Dal.writeNode { root with items := root.items.set i back } d = .ok m d') :
    Reaches c (.remove key) 3 := by
  have hitem : Dal.removeItemFromInternal root i (c.dal.faulty 2 none) = .stop .outside := by
    rw [Dal.removeItemFromInternal, Prog.element_bind hpage, Prog.bind_ok (getNode_faulty hchild),
      Prog.get_bind, Dal.fuel, Dal.descendRightmost, if_pos hleaf, Prog.ret_bind]
    dsimp only
    rw [hback]
    refine (Prog.bind_ok (Prog.demand_eq_ok.mpr ⟨rfl, rfl⟩)).trans ?_
    rw [Prog.require_bind hi, Prog.bind_ok (writeNode_faulty hleafWrite)]
    exact Prog.bind_stop (Prog.attempt_stop (writeNode_spent hrootWrite))
  have hfind : Dal.findKey root key true (c.dal.faulty 2 none) =
      .ok (some (i, root), [0]) (c.dal.faulty 2 none) := by
    rw [Dal.findKey, Prog.get_bind, Dal.fuel, Dal.findKeyHelper, hkey]
    rfl
  rw [Reaches, Op.run, remove]
  refine Prog.bind_stop ?_
  rw [removeItem, Prog.get_bind, Prog.bind_ok (onDal_ok (getNode_faulty hroot)),
    Prog.bind_ok (onDal_ok hfind)]
  dsimp only
  rw [hinner]
  exact Prog.bind_stop (Prog.zoom_stop (Prog.orPanic_stop hitem))

end Dropped

/-- A node whose items are one byte each. -/
def byteNode (page : Nat) (keys : List UInt8) (children : List Nat) : Node :=
  ⟨page, keys.map fun k => ⟨[k], [k]⟩, children⟩

/-- A `remove` from the root, over a leaf that gives it its last item.  The stream fails at the
write of the root. -/
theorem fault_reported_dropped : ∃ d c, Dal.create smallNodes = .ok () d ∧
    Trace (Call (SafeAt (Capacity.page 4096))) ⟨d, [], 0⟩ threeLevels c ∧
    Reaches c (.remove [9]) 3 ∧
    ((∃ e c', (Op.remove [9]).run (c.faulty 3 (some [])) = .error e c') ∨
      (Op.remove [9]).run (c.faulty 3 (some [])) = .stop .terminated) := by
  have hshelf : ∃ e ∈ safeReplay threeLevels
      (⟨Dal.begun smallNodes, [], 0⟩ : Collection (Shelf (Capacity.page 4096))),
      e.root = 4 ∧ e.dal.at? 4 = some ([6, 9, 12].map fun k => ⟨[k], [k]⟩, [3, 6, 7, 8]) ∧
      e.dal.at? 6 = some ([7, 8].map fun k => ⟨[k], [k]⟩, []) ∧
      ∃ q ∈ (Dal.writeNode (byteNode 6 [7] []) e.dal).result?,
      ∃ r ∈ (Dal.writeNode (byteNode 4 [6, 8, 12] [3, 6, 7, 8]) q.2).result?, True := by
    decide +kernel
  obtain ⟨e, he, hroot, hat, hat', ⟨m, e₁⟩, hleaf, ⟨m', e₂⟩, hrewrite, -⟩ := hshelf
  obtain ⟨d, c, hd, hrun, hm⟩ := exists_safeRun (o := smallNodes) (by decide) (by decide) he
  obtain ⟨d₁, hleaf', hm₁⟩ := (Dal.sim_writeNode _).ok hm.dal (Outcome.eq_ok_of_result? hleaf)
  obtain ⟨d₂, hrewrite', -⟩ := (Dal.sim_writeNode _).ok hm₁ (Outcome.eq_ok_of_result? hrewrite)
  have hget : Dal.getNode c.root c.dal = .ok (byteNode 4 [6, 9, 12] [3, 6, 7, 8]) c.dal := by
    rw [hm.root, hroot]
    exact hm.dal.getNode_ok hat
  have hget' : Dal.getNode 6 c.dal = .ok (byteNode 6 [7, 8] []) c.dal := hm.dal.getNode_ok hat'
  have hkey : findKeyInNode [9] (byteNode 4 [6, 9, 12] [3, 6, 7, 8]).items = (true, 1) := by decide
  have hpage : (byteNode 4 [6, 9, 12] [3, 6, 7, 8]).children[1]? = some 6 := by decide
  have hback : (byteNode 6 [7, 8] []).items.getLast? = some ⟨[8], [8]⟩ := by decide
  have hreaches : Reaches c (.remove [9]) 3 := reaches_droppedWrite hget hkey (by decide) hpage hget'
    (by decide) hback (by decide) hleaf' hrewrite'
  exact ⟨d, c, hd, hrun, hreaches, fault_reported c (.remove [9]) 3 [] hreaches⟩

end Toocal
