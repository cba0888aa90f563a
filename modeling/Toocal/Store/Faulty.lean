import Toocal.Library.Faults
import Toocal.Store.Simulation

/-!
# A stream that fails

A `FaultyFile` is the database file with a number of page accesses that still work.  At the
next one the seek, the read or the write fails: the function returns its error, the file
holds whatever the access has left of it, and the stream has failed for good.  Without a
`wreck` the run ends there instead, so `Stop.outside` says that a run comes to this access.

* `faulty_simulates`: up to that access `core/` does what it does on the file itself.
* `reports_put`, `reports_remove`: no failure is lost.  Three blocks of `node.cpp` drop an
  error.  After each of them the next access is one whose error is looked at, and nothing
  before it is undefined.
-/

namespace Toocal

open Outcomes

structure FaultyFile where
  file : File
  /-- how many accesses still work -/
  left : Nat
  /-- the bytes of the file after the one that fails -/
  wreck : Option Bytes

namespace FaultyFile

/-- One seek with its read or write. -/
def access {α : Type} (x : Prog Error File α) : Prog Error FaultyFile α := fun f =>
  match f.left, f.wreck with
  | left + 1, _ => Prog.zoom FaultyFile.file (fun file f => { f with file := file, left := left }) x f
  | 0, none => .stop .outside
  | 0, some bytes => .error .strerror { f with file := ⟨bytes, true⟩ }

/-- The stream has failed. -/
def Failed (f : FaultyFile) : Prop := f.left = 0 ∧ f.wreck.isSome

/-- `g` is `f` where an access fails that ends the run in `f`. -/
def Twin (wreck : Bytes) (f g : FaultyFile) : Prop :=
  f.wreck = none ∧ g = { f with wreck := some wreck }

end FaultyFile

instance [System] : PageStore FaultyFile where
  load o pageNum := do
    let data ← FaultyFile.access (File.readPage o pageNum)
    Prog.demand (NodeSerializer.deserialize data)
  save o node := do
    let data ← Prog.demand (NodeSerializer.serialize node.items node.children defaultPageSize)
    Prog.require (data.length ≤ o.pageSize)
    FaultyFile.access
      (File.writePage o node.pageNum (data ++ List.replicate (o.pageSize - data.length) 0))
  pageCount _ f := f.file.bytes.length

/-- The layer on a stream whose accesses fail after the first `left`. -/
def Dal.faulty (d : Dal File) (left : Nat) (wreck : Option Bytes) : Dal FaultyFile :=
  ⟨d.options, ⟨d.file, left, wreck⟩, d.metaPage, d.freelist, d.written⟩

/-- The collection on a stream whose accesses fail after the first `left`. -/
def Collection.faulty (c : Collection File) (left : Nat) (wreck : Option Bytes) :
    Collection FaultyFile := ⟨c.dal.faulty left wreck, c.name, c.root⟩

/-! ## Up to the failure -/

/-- The file under a stream that ends the run at its last access. -/
def FaultyFile.Serves (f : File) (g : FaultyFile) : Prop := g.file = f ∧ g.wreck = none

/-- The layers on them. -/
def Dal.Serves (d : Dal File) (e : Dal FaultyFile) : Prop := ∃ left, e = d.faulty left none

theorem sim_access {α : Type} (x : Prog Error File α) :
    Sim FaultyFile.Serves x (FaultyFile.access x) := by
  rintro _ ⟨f, left, _⟩ ⟨rfl, rfl⟩
  cases left with
  | zero => exact .outside
  | succ left =>
    simp only [FaultyFile.access, Prog.zoom]
    cases x f with
    | ok a f' => exact .ok ⟨rfl, rfl⟩
    | error e f' => exact .error ⟨rfl, rfl⟩
    | stop c => exact .stop

theorem sim_load_faulty [System] (o : Options) (p : Nat) :
    Sim FaultyFile.Serves (PageStore.load o p) (PageStore.load o p) :=
  Sim.bind (sim_access _) fun _ => Sim.demand _

theorem sim_save_faulty [System] (o : Options) (n : Node) :
    Sim FaultyFile.Serves (PageStore.save o n) (PageStore.save o n) :=
  Sim.bind (Sim.demand _) fun _ => Sim.bind (Sim.require _) fun _ => sim_access _

namespace Dal

theorem sim_onFile_faulty {α : Type} {x : Options → Prog Error File α}
    {y : Options → Prog Error FaultyFile α} (h : ∀ o, Sim FaultyFile.Serves (x o) (y o)) :
    Sim Serves (onFile x) (onFile y) := by
  apply Sim.get_bind
  rintro d _ ⟨left, rfl⟩
  refine Sim.zoom (h d.options) ?_ ?_
  · rintro d _ ⟨left, rfl⟩
    exact ⟨rfl, rfl⟩
  · rintro d _ f ⟨g, left', _⟩ ⟨left, rfl⟩ ⟨rfl, rfl⟩
    exact ⟨left', rfl⟩

theorem sim_getNextPage_faulty : Sim Serves getNextPage getNextPage := by
  rintro d _ ⟨left, rfl⟩
  exact .ok ⟨left, rfl⟩

theorem sim_writeNode_faulty [System] (n : Node) : Sim Serves (writeNode n) (writeNode n) := by
  have htail : ∀ pageNum : Nat, Sim Serves
      (do
        onFile fun o => PageStore.save o { n with pageNum := pageNum }
        Prog.modify fun d => { d with written := pageNum :: d.written }
        return { n with pageNum := pageNum })
      (do
        onFile fun o => PageStore.save o { n with pageNum := pageNum }
        Prog.modify fun d => { d with written := pageNum :: d.written }
        return { n with pageNum := pageNum }) := by
    intro pageNum
    refine Sim.bind (sim_onFile_faulty fun o => sim_save_faulty o _) fun _ => Sim.bind ?_ fun _ => .ret _
    apply Sim.modify
    rintro d _ ⟨left, rfl⟩
    exact ⟨left, rfl⟩
  exact Sim.ite (fun _ => Sim.bind sim_getNextPage_faulty htail) fun _ => Sim.bind (Sim.ret _) htail

end Dal

/-- **Up to the access that fails, the file and the faulty stream do the same.** -/
theorem faulty_simulates [System] : Simulates Dal.Serves (fun c e => ∃ left, e = c.faulty left none) where
  options := by rintro d _ ⟨left, rfl⟩; rfl
  fuel_le := by rintro d _ ⟨left, rfl⟩; exact Nat.le_refl _
  sim_getNode p := Sim.bind (Dal.sim_onFile_faulty fun o => sim_load_faulty o p) fun _ => .ret _
  sim_getNextPage := Dal.sim_getNextPage_faulty
  sim_writeNode := Dal.sim_writeNode_faulty
  sim_deleteNode p := Sim.modify (by rintro d _ ⟨left, rfl⟩; exact ⟨left, rfl⟩)
  dal := by rintro c _ ⟨left, rfl⟩; exact ⟨left, rfl⟩
  root := by rintro c _ ⟨left, rfl⟩; rfl
  setDal := by rintro c _ d _ ⟨left, rfl⟩ ⟨left', rfl⟩; exact ⟨left', rfl⟩
  setRoot := by rintro c _ p ⟨left, rfl⟩; exact ⟨left, rfl⟩

/-! ## The access that fails -/

section Accesses

variable {w : Bytes}

theorem exposes_access {α : Type} {x : Prog Error File α} (hx : ∀ f, x f ≠ .stop .outside) :
    Exposes (FaultyFile.Twin w) FaultyFile.Failed (fun _ => True) Lost (FaultyFile.access x) := by
  rintro ⟨f, left, _⟩ _ ⟨rfl, rfl⟩
  cases left with
  | zero => exact .struck ⟨rfl, rfl⟩
  | succ left =>
    simp only [FaultyFile.access, Prog.zoom]
    have hxf := hx f
    cases h : x f with
    | ok a f' => exact .ok ⟨rfl, rfl⟩ trivial
    | error e f' => exact .error ⟨rfl, rfl⟩
    | stop c => exact .stop fun hc => hxf (hc ▸ h)

theorem struck_access {α : Type} (x : Prog Error File α) {f : FaultyFile} (hf : f.Failed) :
    Struck FaultyFile.Failed Lost (FaultyFile.access x f) := by
  obtain ⟨f, left, _ | bytes⟩ := f
  · exact absurd hf.2 (by simp)
  · obtain rfl : left = 0 := hf.1
    exact ⟨rfl, rfl⟩

theorem exposes_load [System] (o : Options) (p : Nat) :
    Exposes (FaultyFile.Twin w) FaultyFile.Failed (fun _ => True) Lost (PageStore.load o p) := by
  refine Exposes.bind (exposes_access fun f => ?_) fun data _ =>
    (Exposes.demand _).mono (fun _ _ => trivial) fun _ h => h
  rw [File.readPage, Prog.get_bind]
  generalize (File.offset o p).bind _ = data
  generalize f.failed = failed
  intro hstop
  cases failed with
  | false => cases data <;> cases hstop
  | true => cases hstop

theorem exposes_save [System] (o : Options) (n : Node) :
    Exposes (FaultyFile.Twin w) FaultyFile.Failed (fun _ => True) Lost (PageStore.save o n) := by
  refine Exposes.bind (Exposes.demand _) fun data _ => Exposes.bind (Exposes.require _) fun _ _ =>
    exposes_access fun f => ?_
  rw [File.writePage, Prog.get_bind]
  generalize File.offset o n.pageNum = pos
  generalize f.failed = failed
  intro hstop
  cases failed with
  | false => cases pos <;> cases hstop
  | true => cases hstop

end Accesses

/-! ## The data access layer -/

namespace Dal

/-- The stream under the layer has failed. -/
def Failed (d : Dal FaultyFile) : Prop := d.file.Failed

/-- `e` is `d` where an access fails that ends the run in `d`. -/
def Twin (w : Bytes) (d e : Dal FaultyFile) : Prop :=
  d.file.wreck = none ∧ e = { d with file := { d.file with wreck := some w } }

/-- No failure under the program is lost, and every result is one of `Q`. -/
abbrev Reports {α : Type} (w : Bytes) (Q : α → Prop) (x : Prog Error (Dal FaultyFile) α) : Prop :=
  Exposes (Twin w) Failed Q Lost x

variable {w : Bytes}

theorem exposes_onFile {α : Type} {Q H : α → Prop} {x : Options → Prog Error FaultyFile α}
    (h : ∀ o, Exposes (FaultyFile.Twin w) FaultyFile.Failed Q H (x o)) :
    Exposes (Twin w) Failed Q H (onFile x) := by
  refine Exposes.get_bind ?_ fun d => (h d.options).zoom ?_ ?_ ?_
  · rintro d _ ⟨_, rfl⟩
    rfl
  · rintro d _ ⟨hw, rfl⟩
    exact ⟨hw, rfl⟩
  · rintro d _ f _ ⟨_, rfl⟩ ⟨hw, rfl⟩
    exact ⟨hw, rfl⟩
  · intro d f hf
    exact hf

theorem reports_getNode [System] (p : Nat) : Reports w (fun _ => True) (getNode p) :=
  Exposes.bind (exposes_onFile fun o => exposes_load o p) fun _ _ => .ret trivial

theorem struck_getNode [System] (p : Nat) {d : Dal FaultyFile} (hd : d.Failed) :
    Struck Failed Lost (getNode p d) := by
  apply Struck.bind'
  rw [onFile, Prog.get_bind]
  refine Struck.zoom (fun _ h => h) ?_
  exact Struck.bind' (struck_access _ hd)

theorem reports_getNextPage : Reports w (fun _ => True) getNextPage := by
  rintro d _ ⟨hw, rfl⟩
  exact .ok ⟨hw, rfl⟩ trivial

theorem reports_modify {f : Dal FaultyFile → Dal FaultyFile}
    (h : ∀ ⦃d e⦄, Twin w d e → Twin w (f d) (f e)) :
    Reports w (fun _ => True) (Prog.modify f) := Exposes.modify h trivial

theorem reports_deleteNode (p : Nat) : Reports w (fun _ => True) (deleteNode p) :=
  reports_modify (by rintro d _ ⟨hw, rfl⟩; exact ⟨hw, rfl⟩)

theorem reports_writeNode [System] (n : Node) : Reports w (fun _ => True) (writeNode n) := by
  have htail : ∀ pageNum : Nat, Reports w (fun _ => True)
      (do
        onFile fun o => PageStore.save o { n with pageNum := pageNum }
        Prog.modify fun d => { d with written := pageNum :: d.written }
        return { n with pageNum := pageNum }) := by
    intro pageNum
    refine Exposes.bind (exposes_onFile fun o => exposes_save o _) fun _ _ => ?_
    refine Exposes.bind (reports_modify ?_) fun _ _ => .ret trivial
    rintro d _ ⟨hw, rfl⟩
    exact ⟨hw, rfl⟩
  exact Exposes.ite (fun _ => Exposes.bind reports_getNextPage fun p _ => htail p) fun _ =>
    Exposes.bind (.ret trivial) fun p (_ : True) => htail p

theorem reports_newNode (items : List Item) (children : List Nat) :
    Reports w (fun _ => True) (newNode items children) :=
  Exposes.bind reports_getNextPage fun _ _ => .ret trivial

/-! ## Nodes -/

theorem reports_findKeyHelper [System] (key : Bytes) (exact : Bool) (fuel : Nat) (node : Node)
    (ancestorsIndexes : List Nat) :
    Reports w (fun _ => True) (findKeyHelper key exact fuel node ancestorsIndexes) := by
  induction fuel generalizing node ancestorsIndexes with
  | zero => exact .halt (by decide)
  | succ fuel ih =>
    unfold findKeyHelper
    obtain ⟨wasFound, index⟩ := findKeyInNode key node.items
    cases wasFound with
    | true => exact .ret trivial
    | false =>
      refine Exposes.ite (fun _ => Exposes.ite (fun _ => .ret trivial) fun _ => .ret trivial) ?_
      intro _
      refine Exposes.bind (Exposes.element _ _) fun child _ => ?_
      exact Exposes.bind (reports_getNode child) fun nextChild _ => ih _ _

theorem reports_findKey [System] (node : Node) (key : Bytes) (exact : Bool) :
    Reports w (fun _ => True) (findKey node key exact) := by
  refine Exposes.get_bind ?_ fun d => reports_findKeyHelper key exact d.fuel node [0]
  rintro d _ ⟨_, rfl⟩
  rfl

theorem reports_split [System] (this nodeToSplit : Node) (nodeToSplitIndex : Nat) :
    Reports w (fun _ => True) (split this nodeToSplit nodeToSplitIndex) := by
  refine Exposes.get_bind (by rintro d _ ⟨_, rfl⟩; rfl) fun d => ?_
  refine Exposes.bind (Exposes.demand _) fun splitIndex _ => ?_
  refine Exposes.bind (Exposes.element _ _) fun middleItem _ => ?_
  have hrest : ∀ _ : Unit, Reports w (fun _ => True) (do
      let newNode ← newNode (nodeToSplit.items.drop (splitIndex + 1))
        (nodeToSplit.children.drop (splitIndex + 1))
      let newNode ← Prog.orPanic (writeNode newNode)
      let nodeToSplit := { nodeToSplit with
        items := nodeToSplit.items.take splitIndex
        children := nodeToSplit.children.take (splitIndex + 1) }
      Prog.require (nodeToSplitIndex ≤ this.items.length)
      let this := this.addItem middleItem nodeToSplitIndex
      Prog.require (nodeToSplitIndex + 1 ≤ this.children.length)
      let this := { this with
        children := insertAt this.children (nodeToSplitIndex + 1) newNode.pageNum }
      Prog.orPanic do
        let this ← writeNode this
        let nodeToSplit ← writeNode nodeToSplit
        return (this, nodeToSplit)) := by
    intro _
    refine Exposes.bind (reports_newNode _ _) fun newNode _ => ?_
    refine Exposes.bind (reports_writeNode _).orPanic fun newNode _ => ?_
    refine Exposes.bind (Exposes.require _) fun _ _ => ?_
    refine Exposes.bind (Exposes.require _) fun _ _ => Exposes.orPanic ?_
    exact Exposes.bind (reports_writeNode _) fun this _ =>
      Exposes.bind (reports_writeNode _) fun _ _ => .ret trivial
  exact Exposes.ite (fun _ => Exposes.bind (.ret trivial) fun u (_ : True) => hrest u) fun _ =>
    Exposes.bind (Exposes.require _) fun u _ => hrest u

theorem reports_removeItemFromLeaf [System] (this : Node) (index : Nat) :
    Reports w (fun _ => True) (removeItemFromLeaf this index) :=
  Exposes.bind (Exposes.require _) fun _ _ => (reports_writeNode _).orPanic

theorem reports_descendRightmost [System] (fuel : Nat) (node : Node) (affectedNodes : List Nat) :
    Reports w (fun _ => True) (descendRightmost fuel node affectedNodes) := by
  induction fuel generalizing node affectedNodes with
  | zero => exact .halt (by decide)
  | succ fuel ih =>
    unfold descendRightmost
    refine Exposes.ite (fun _ => .ret trivial) fun _ => ?_
    refine Exposes.bind (Exposes.element _ _) fun child _ => ?_
    exact Exposes.bind (reports_getNode child).orPanic fun anode _ => ih _ _

theorem exposes_removeItemFromInternal [System] (this : Node) (index : Nat) :
    Exposes (Twin w) Failed (fun _ => True) (fun _ => True) (removeItemFromInternal this index) := by
  refine Exposes.bind (Exposes.element _ _) fun child _ => ?_
  refine Exposes.bind (reports_getNode child) fun node _ => ?_
  refine Exposes.get_bind (by rintro d _ ⟨_, rfl⟩; rfl) fun d => ?_
  refine Exposes.bind (reports_descendRightmost d.fuel node [index]) fun p _ => ?_
  refine Exposes.bind (Exposes.demand _) fun back _ => Exposes.bind (Exposes.require _) fun _ _ => ?_
  refine Exposes.bind (reports_writeNode _) fun _ _ => ?_
  refine Exposes.bind_lost (reports_writeNode _).attempt (fun _ _ => .ret trivial) ?_
  intro _ d _ hd
  exact ⟨hd, trivial⟩

/-! ## Rebalancing -/

theorem reports_writeThree [System] (a b c : Node) : Reports w (fun _ => True)
    (do
      let _ ← writeNode a
      let _ ← writeNode b
      writeNode c) :=
  Exposes.bind (reports_writeNode a) fun _ _ => Exposes.bind (reports_writeNode b) fun _ _ =>
    reports_writeNode c

theorem exposes_rightRotateBlock [System] (pnode unbalancedNode : Node) (unbalancedNodeIndex : Nat) :
    Exposes (Twin w) Failed (fun p => p.1.children = pnode.children)
      (fun p => p.1.children = pnode.children ∧ unbalancedNodeIndex ≠ 0)
      (rightRotateBlock pnode unbalancedNode unbalancedNodeIndex) := by
  refine Exposes.ite (fun _ => .ret rfl) fun hne => ?_
  refine Exposes.get_bind (by rintro d _ ⟨_, rfl⟩; rfl) fun d => ?_
  refine Exposes.bind (Exposes.element _ _) fun child _ => ?_
  refine Exposes.bind_lost (reports_getNode child).attempt (fun answer _ => ?_) ?_
  · cases answer with
    | error _ => exact .ret rfl
    | ok leftNode =>
      refine Exposes.ite (fun _ => ?_) fun _ => .ret rfl
      refine Exposes.bind (Exposes.demand _) fun rotated hrotated => ?_
      have hkeep := (rotateRight_keeps hrotated).2.2.2.1
      refine Exposes.bind_lost (reports_writeThree _ _ _).attempt (fun _ _ => .ret hkeep) ?_
      intro _ e _ he
      exact ⟨he, hkeep, hne⟩
  · rintro _ e ⟨error, rfl⟩ he
    exact ⟨he, rfl, hne⟩

theorem exposes_leftBalanceBlock [System] (pnode unbalancedNode : Node) (unbalancedNodeIndex : Nat) :
    Exposes (Twin w) Failed (fun _ => True)
      (fun p => p.1.children = pnode.children ∧ unbalancedNodeIndex + 1 < pnode.children.length)
      (leftBalanceBlock pnode unbalancedNode unbalancedNodeIndex) := by
  refine Exposes.ite (fun _ => .ret trivial) fun _ => ?_
  refine Exposes.get_bind (by rintro d _ ⟨_, rfl⟩; rfl) fun d => ?_
  refine Exposes.bind (Exposes.element _ _) fun child hchild => ?_
  have hlt : unbalancedNodeIndex + 1 < pnode.children.length :=
    (List.getElem?_eq_some_iff.mp hchild).1
  refine Exposes.bind_lost (reports_getNode child).attempt (fun answer _ => ?_) ?_
  · cases answer with
    | error _ => exact .ret trivial
    | ok rightNode =>
      refine Exposes.ite (fun _ => ?_) fun _ => .ret trivial
      refine Exposes.bind (Exposes.demand _) fun rotated hrotated => ?_
      have hkeep := (rotateLeft_keeps hrotated).2.2.2.1
      refine Exposes.bind_lost (reports_writeThree _ _ _).attempt (fun _ _ => .ret trivial) ?_
      intro _ e _ he
      exact ⟨he, hkeep, hlt⟩
  · rintro _ e ⟨error, rfl⟩ he
    exact ⟨he, rfl, hlt⟩

/-- After a failure the block reads its sibling in vain, and changes nothing. -/
theorem struck_leftBalanceBlock [System] (pnode unbalancedNode : Node) {unbalancedNodeIndex : Nat}
    (hlt : unbalancedNodeIndex < pnode.children.length) {d : Dal FaultyFile} (hd : d.Failed) :
    Struck Failed (fun p => p.1.children = pnode.children)
      (leftBalanceBlock pnode unbalancedNode unbalancedNodeIndex d) := by
  rw [leftBalanceBlock]
  split
  · exact ⟨hd, rfl⟩
  · rw [Prog.get_bind, Prog.element_bind (List.getElem?_eq_getElem (by omega))]
    refine Struck.bind (struck_getNode _ hd).attempt ?_
    rintro _ e ⟨error, rfl⟩ he
    exact ⟨he, rfl⟩

theorem reports_merge [System] (this bnode : Node) (bnodeIndex : Nat) :
    Reports w (fun _ => True) (merge this bnode bnodeIndex) := by
  refine Exposes.bind (Exposes.element _ _) fun child _ => ?_
  refine Exposes.bind (reports_getNode child) fun node _ => ?_
  refine Exposes.bind (Exposes.element _ _) fun pnodeItem _ => ?_
  refine Exposes.bind (Exposes.require _) fun _ _ => Exposes.bind (reports_writeNode _) fun _ _ => ?_
  exact Exposes.bind (reports_writeNode _) fun _ _ => reports_deleteNode _

theorem struck_merge [System] (this bnode : Node) {bnodeIndex : Nat}
    (hlt : bnodeIndex - 1 < this.children.length) {d : Dal FaultyFile} (hd : d.Failed) :
    Struck Failed Lost (merge this bnode bnodeIndex d) := by
  rw [merge, Prog.element_bind (List.getElem?_eq_getElem hlt)]
  exact Struck.bind' (struck_getNode _ hd)

/-- The end of `rebalance_remove`, after the two rotation blocks. -/
def mergeBlock [System] (this pnode unbalancedNode : Node) (unbalancedNodeIndex : Nat) :
    Prog Error (Dal FaultyFile) Unit :=
  if unbalancedNodeIndex = 0 then do
    let child ← Prog.element this.children (unbalancedNodeIndex + 1)
    let node ← getNode child
    merge pnode node (unbalancedNodeIndex + 1)
  else merge pnode unbalancedNode unbalancedNodeIndex

theorem reports_mergeBlock [System] (this pnode unbalancedNode : Node) (unbalancedNodeIndex : Nat) :
    Reports w (fun _ => True) (mergeBlock this pnode unbalancedNode unbalancedNodeIndex) := by
  refine Exposes.ite (fun _ => ?_) fun _ => reports_merge _ _ _
  refine Exposes.bind (Exposes.element _ _) fun child _ => ?_
  exact Exposes.bind (reports_getNode child) fun node _ => reports_merge _ _ _

theorem struck_mergeBlock [System] (this : Node) {pnode : Node} (unbalancedNode : Node) {unbalancedNodeIndex : Nat}
    (hzero : unbalancedNodeIndex = 0 → 1 < this.children.length)
    (hlt : unbalancedNodeIndex < pnode.children.length) {d : Dal FaultyFile} (hd : d.Failed) :
    Struck Failed Lost (mergeBlock this pnode unbalancedNode unbalancedNodeIndex d) := by
  rw [mergeBlock]
  split
  · have hlen := hzero ‹_›
    rw [Prog.element_bind (List.getElem?_eq_getElem (by omega))]
    exact Struck.bind' (struck_getNode _ hd)
  · exact struck_merge _ _ (by omega) hd

/-- **The two rotation blocks drop their errors; the merge after them runs into the failure.** -/
theorem reports_rebalanceRemove [System] (this unbalancedNode : Node) {unbalancedNodeIndex : Nat}
    (hlt : unbalancedNodeIndex < this.children.length) :
    Reports w (fun _ => True) (rebalanceRemove this unbalancedNode unbalancedNodeIndex) := by
  refine Exposes.bind_lost (exposes_rightRotateBlock this unbalancedNode unbalancedNodeIndex) ?_ ?_
  · intro p hp
    refine Exposes.bind_lost (exposes_leftBalanceBlock p.1 p.2 unbalancedNodeIndex)
      (fun q _ => reports_mergeBlock this q.1 q.2 unbalancedNodeIndex) ?_
    rintro q d ⟨hq, hright⟩ hd
    have hthis : unbalancedNodeIndex + 1 < this.children.length := hp ▸ hright
    exact struck_mergeBlock this q.2 (by omega) (by rw [hq]; omega) hd
  · rintro p d ⟨hp, hne⟩ hd
    refine Struck.bind (struck_leftBalanceBlock p.1 p.2 (hp ▸ hlt) hd) ?_
    intro q e hq he
    exact struck_mergeBlock this q.2 (fun h => absurd h hne) (by rw [hq, hp]; exact hlt) he

end Dal

/-! ## Collections -/

namespace Collection

open Dal

/-- The stream under the collection has failed. -/
def Failed (c : Collection FaultyFile) : Prop := c.dal.Failed

/-- `e` is `c` where an access fails that ends the run in `c`. -/
def Twin (w : Bytes) (c e : Collection FaultyFile) : Prop :=
  c.dal.file.wreck = none ∧
    e = { c with dal := { c.dal with file := { c.dal.file with wreck := some w } } }

/-- No failure under the program is lost, and every result is one of `Q`. -/
abbrev Reports {α : Type} (w : Bytes) (Q : α → Prop) (x : Prog Error (Collection FaultyFile) α) :
    Prop := Exposes (Twin w) Failed Q Lost x

variable {w : Bytes}

theorem exposes_onDal {α : Type} {Q H : α → Prop} {x : Prog Error (Dal FaultyFile) α}
    (h : Exposes (Dal.Twin w) Dal.Failed Q H x) : Exposes (Twin w) Failed Q H (onDal x) := by
  apply h.zoom
  · rintro c _ ⟨hw, rfl⟩
    exact ⟨hw, rfl⟩
  · rintro c _ d _ ⟨_, rfl⟩ ⟨hw, rfl⟩
    exact ⟨hw, rfl⟩
  · intro c d hd
    exact hd

theorem reports_setRoot (p : Nat) :
    Reports w (fun _ => True) (Prog.modify fun c => { c with root := p }) :=
  Exposes.modify (by rintro c _ ⟨hw, rfl⟩; exact ⟨hw, rfl⟩) trivial

theorem reports_find [System] (key : Bytes) : Reports w (fun _ => True) (find key) := by
  refine Exposes.get_bind (by rintro c _ ⟨_, rfl⟩; rfl) fun c => ?_
  refine Exposes.bind (exposes_onDal (reports_getNode c.root)) fun node _ => ?_
  refine Exposes.bind (exposes_onDal (reports_findKey node key true)) fun p _ => ?_
  match p with
  | (none, _) => exact .ret trivial
  | (some (index, containingNode), _) =>
    exact Exposes.bind (Exposes.element _ _) fun _ _ => .ret trivial

/-- Each index is one of a child of its node. -/
def IndexesChildren (nodes : List Node) (indexes : List Nat) : Prop :=
  ∀ (i : Nat) (node : Node) (index : Nat), nodes[i]? = some node → indexes[i]? = some index →
    index < node.children.length

theorem reports_getNodesFrom [System] (child : Node) (indexes : List Nat) :
    Dal.Reports w (fun nodes => IndexesChildren (child :: nodes) indexes)
      (getNodesFrom child indexes) := by
  induction indexes generalizing child with
  | nil => exact .ret fun i node index _ h => by simp at h
  | cons index indexes ih =>
    refine Exposes.bind (Exposes.element _ _) fun page hpage => ?_
    refine Exposes.bind (reports_getNode page).orPanic fun newChild _ => ?_
    refine Exposes.bind (ih newChild) fun nodes hnodes => .ret ?_
    intro i node k hnode hk
    cases i with
    | zero =>
      cases hnode
      cases hk
      exact (List.getElem?_eq_some_iff.mp hpage).1
    | succ i => exact hnodes i node k hnode hk

theorem reports_getNodes [System] (indexes : List Nat) :
    Reports w (fun nodes => IndexesChildren nodes indexes.tail) (getNodes indexes) := by
  refine Exposes.get_bind (by rintro c _ ⟨_, rfl⟩; rfl) fun c => exposes_onDal ?_
  refine Exposes.bind (reports_getNode c.root) fun root _ => ?_
  exact Exposes.bind (reports_getNodesFrom root indexes.tail) fun nodes hnodes => .ret hnodes

theorem struck_getNodes [System] (indexes : List Nat) {c : Collection FaultyFile} (hc : c.Failed) :
    Struck Failed Lost (getNodes indexes c) := by
  rw [getNodes, Prog.get_bind]
  refine Struck.zoom (fun _ h => h) ?_
  exact Struck.bind' (struck_getNode _ hc)

/-! ### put -/

theorem reports_splitRound [System] (ancestors : List Node) (ancestorsIndexes : List Nat) (i : Nat) :
    Dal.Reports w (fun _ => True) (splitRound ancestors ancestorsIndexes i) := by
  refine Exposes.get_bind (by rintro d _ ⟨_, rfl⟩; rfl) fun d => ?_
  refine Exposes.bind (Exposes.element _ _) fun previousNode _ => ?_
  refine Exposes.bind (Exposes.element _ _) fun node _ => Exposes.ite (fun _ => ?_) fun _ => .ret trivial
  refine Exposes.bind (Exposes.element _ _) fun index _ => ?_
  exact Exposes.bind (reports_split _ _ _) fun _ _ => .ret trivial

theorem reports_splitRoot [System] (ancestors : List Node) :
    Reports w (fun _ => True) (splitRoot ancestors) := by
  refine Exposes.get_bind (by rintro c _ ⟨_, rfl⟩; rfl) fun c => ?_
  refine Exposes.bind (Exposes.element _ _) fun rootNode _ =>
    Exposes.ite (fun _ => ?_) fun _ => .ret trivial
  refine Exposes.bind (exposes_onDal (Q := fun _ => True) ?_) fun newRoot _ => reports_setRoot _
  refine Exposes.bind (reports_newNode _ _) fun newRoot _ => ?_
  exact Exposes.bind (reports_split _ _ _) fun _ _ => (reports_writeNode _).orPanic

theorem reports_putItem [System] (pastEnd item : Item) :
    Reports w (fun _ => True) (putItem pastEnd item) := by
  refine Exposes.get_bind (by rintro c _ ⟨_, rfl⟩; rfl) fun c => ?_
  refine Exposes.bind (exposes_onDal (reports_getNode _).orPanic) fun root _ => ?_
  refine Exposes.bind (exposes_onDal (reports_findKey _ _ _)) fun p _ => ?_
  match p with
  | (none, _) => exact .halt (by decide)
  | (some (insertionIndex, node), _) =>
    refine Exposes.bind (exposes_onDal (reports_writeNode _).orPanic) fun _ _ => ?_
    exact Exposes.bind (reports_getNodes _) fun _ _ => .ret trivial

/-- **`put` loses no failure.** -/
theorem reports_put [System] (pastEnd : Item) (key value : Bytes) :
    Reports w (fun _ => True) (put pastEnd key value) := by
  refine Exposes.get_bind (by rintro c _ ⟨_, rfl⟩; rfl) fun c => ?_
  refine Exposes.ite (fun _ => ?_) fun _ => ?_
  · refine Exposes.bind (exposes_onDal ?_) fun root (_ : True) => reports_setRoot _
    exact Exposes.bind (reports_newNode _ _) fun root _ => reports_writeNode _
  · refine Exposes.bind (reports_putItem _ _) fun p _ => ?_
    refine Exposes.bind (exposes_onDal (.forEach fun i _ => reports_splitRound p.1 p.2 i)) fun _ _ => ?_
    exact reports_splitRoot _

/-! ### remove -/

theorem reports_rebalanceRound [System] {ancestors : List Node} {ancestorsIndexes : List Nat}
    (hpath : IndexesChildren ancestors ancestorsIndexes.tail) (i : Nat) :
    Dal.Reports w (fun _ => True) (rebalanceRound ancestors ancestorsIndexes i) := by
  refine Exposes.get_bind (by rintro d _ ⟨_, rfl⟩; rfl) fun d => ?_
  refine Exposes.bind (Exposes.element _ _) fun pnode hpnode => ?_
  refine Exposes.bind (Exposes.element _ _) fun node _ => Exposes.ite (fun _ => ?_) fun _ => .ret trivial
  refine Exposes.bind (Exposes.element _ _) fun index hindex => Exposes.orPanic ?_
  exact reports_rebalanceRemove pnode node
    (hpath i pnode index hpnode (List.getElem?_tail.trans hindex))

theorem reports_collapseRoot (ancestors : List Node) :
    Reports w (fun _ => True) (collapseRoot ancestors) := by
  refine Exposes.bind (Exposes.element _ _) fun root _ =>
    Exposes.ite (fun _ => ?_) fun _ => .ret trivial
  exact Exposes.bind (Exposes.element _ _) fun child _ => reports_setRoot _

/-- The failure a removal from an internal node has lost is met where the path is read again. -/
theorem reports_removeItem [System] (key : Bytes) :
    Reports w (fun p => IndexesChildren p.1 p.2.tail) (removeItem key) := by
  refine Exposes.get_bind (by rintro c _ ⟨_, rfl⟩; rfl) fun c => ?_
  refine Exposes.bind (exposes_onDal (reports_getNode c.root)) fun root _ => ?_
  refine Exposes.bind (exposes_onDal (reports_findKey root key true)) fun p _ => ?_
  match p with
  | (none, _) => exact .fail _
  | (some (removeItemIndex, node), ancestorsIndexes) =>
    refine Exposes.bind_lost (exposes_onDal (Q := fun _ => True) (H := fun _ => True) ?_) ?_ ?_
    · refine Exposes.ite (fun _ => ?_) fun _ => (exposes_removeItemFromInternal _ _).orPanic
      exact Exposes.bind (reports_removeItemFromLeaf _ _) fun _ _ => .ret trivial
    · intro affectedNodes _
      refine Exposes.bind (reports_getNodes _) fun nodes hnodes => .ret hnodes
    · intro affectedNodes e _ he
      exact Struck.bind' (struck_getNodes _ he)

/-- **`remove` loses no failure.** -/
theorem reports_remove [System] (key : Bytes) : Reports w (fun _ => True) (remove key) := by
  refine Exposes.bind (reports_removeItem key) fun p hp => ?_
  refine Exposes.bind (exposes_onDal (.forEach fun i _ => reports_rebalanceRound hp i)) fun _ _ => ?_
  refine Exposes.bind (reports_collapseRoot _) fun _ _ => ?_
  exact Exposes.bind (reports_find key) fun _ _ => .ret trivial

theorem twin_faulty (c : Collection File) (left : Nat) (w : Bytes) :
    Twin w (c.faulty left none) (c.faulty left (some w)) := ⟨rfl, rfl⟩

end Collection

end Toocal
