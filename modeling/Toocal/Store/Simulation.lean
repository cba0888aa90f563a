import Toocal.Store.Mirror

/-!
# `core/` on one store simulates `core/` on another

`Simulates R S` is what two page stores have to do alike: `R` relates layers on them and `S`
collections, the functions that reach the pages simulate each other, and nothing is read of
a layer but its options and its fuel.  Every function of `core/` is put together from these,
so its simulation follows the program constructor by constructor, up to `find`, `put` and
`remove`.

The file and the shelf are such stores (`mirrors_simulates`).
-/

namespace Toocal

open Outcomes

/-- The layers and collections on two page stores that `R` and `S` relate do the same. -/
structure Simulates {φ ψ : Type} [PageStore φ] [PageStore ψ] (R : Dal φ → Dal ψ → Prop)
    (S : Collection φ → Collection ψ → Prop) : Prop where
  options : ∀ {d e}, R d e → d.options = e.options
  fuel_le : ∀ {d e}, R d e → e.fuel ≤ d.fuel
  sim_getNode : ∀ p, Sim R (Dal.getNode p) (Dal.getNode p)
  sim_getNextPage : Sim R Dal.getNextPage Dal.getNextPage
  sim_writeNode : ∀ n, Sim R (Dal.writeNode n) (Dal.writeNode n)
  sim_deleteNode : ∀ p, Sim R (Dal.deleteNode p) (Dal.deleteNode p)
  dal : ∀ {c e}, S c e → R c.dal e.dal
  root : ∀ {c e}, S c e → c.root = e.root
  setDal : ∀ {c e d d'}, S c e → R d d' → S { c with dal := d } { e with dal := d' }
  setRoot : ∀ {c e} (p : Nat), S c e → S { c with root := p } { e with root := p }

namespace Simulates

variable {φ ψ : Type} [PageStore φ] [PageStore ψ] {R : Dal φ → Dal ψ → Prop}
  {S : Collection φ → Collection ψ → Prop} (hs : Simulates R S)
include hs

section Layers

open Dal

theorem sim_newNode (items : List Item) (children : List Nat) :
    Sim R (Dal.newNode items children) (Dal.newNode items children) :=
  Sim.bind hs.sim_getNextPage fun _ => Sim.pure _

/-- A descent on the file has at least the fuel of the same descent on the shelf. -/
theorem sim_findKeyHelper (key : Bytes) (exact : Bool) {n m : Nat} (hle : m ≤ n) (node : Node)
    (ancestorsIndexes : List Nat) : Sim R
      (findKeyHelper key exact n node ancestorsIndexes)
      (findKeyHelper key exact m node ancestorsIndexes) := by
  induction m generalizing n node ancestorsIndexes with
  | zero => exact .diverged
  | succ m ih =>
    cases n with
    | zero => omega
    | succ n =>
      unfold findKeyHelper
      match findKeyInNode key node.items with
      | (true, index) => exact .ret _
      | (false, index) =>
        refine Sim.ite (fun _ => Sim.ite (fun _ => .ret _) fun _ => .ret _) fun _ => ?_
        refine Sim.bind (Sim.element _ _) fun child => ?_
        refine Sim.bind (hs.sim_getNode child) fun nextChild => ?_
        exact ih (by omega) _ _

theorem sim_findKey (node : Node) (key : Bytes) (exact : Bool) :
    Sim R (findKey node key exact) (findKey node key exact) :=
  Sim.get_bind fun _ _ h => hs.sim_findKeyHelper key exact (hs.fuel_le h) node [0]

theorem sim_split (this nodeToSplit : Node) (nodeToSplitIndex : Nat) : Sim R
    (split this nodeToSplit nodeToSplitIndex) (split this nodeToSplit nodeToSplitIndex) := by
  refine Sim.get_bind fun d e h => ?_
  rw [hs.options h]
  refine Sim.bind (Sim.demand _) fun splitIndex => Sim.bind (Sim.element _ _) fun middleItem => ?_
  refine Sim.ite_bind (Sim.ret _) (Sim.require _) fun _ => ?_
  refine Sim.bind (hs.sim_newNode _ _) fun newNode => ?_
  refine Sim.bind (hs.sim_writeNode _).orPanic fun newNode => ?_
  refine Sim.bind (Sim.require _) fun _ => Sim.bind (Sim.require _) fun _ => Sim.orPanic ?_
  exact Sim.bind (hs.sim_writeNode _) fun this => Sim.bind (hs.sim_writeNode _) fun _ => Sim.pure _

theorem sim_removeItemFromLeaf (this : Node) (index : Nat) : Sim R
    (removeItemFromLeaf this index) (removeItemFromLeaf this index) :=
  Sim.bind (Sim.require _) fun _ => (hs.sim_writeNode _).orPanic

theorem sim_descendRightmost {n m : Nat} (hle : m ≤ n) (node : Node) (affectedNodes : List Nat) :
    Sim R (descendRightmost n node affectedNodes)
      (descendRightmost m node affectedNodes) := by
  induction m generalizing n node affectedNodes with
  | zero => exact .diverged
  | succ m ih =>
    cases n with
    | zero => omega
    | succ n =>
      unfold descendRightmost
      refine Sim.ite (fun _ => .ret _) fun _ => ?_
      refine Sim.bind (Sim.element _ _) fun child => ?_
      refine Sim.bind (hs.sim_getNode child).orPanic fun anode => ?_
      exact ih (by omega) _ _

theorem sim_removeItemFromInternal (this : Node) (index : Nat) : Sim R
    (removeItemFromInternal this index) (removeItemFromInternal this index) := by
  refine Sim.bind (Sim.element _ _) fun child => Sim.bind (hs.sim_getNode child) fun node => ?_
  refine Sim.get_bind fun d e h => ?_
  refine Sim.bind (hs.sim_descendRightmost (hs.fuel_le h) node [index]) fun p => ?_
  refine Sim.bind (Sim.demand _) fun back => Sim.bind (Sim.require _) fun _ => ?_
  refine Sim.bind (hs.sim_writeNode _) fun _ => ?_
  exact Sim.bind (hs.sim_writeNode _).attempt fun _ => Sim.pure _

theorem sim_merge (this bnode : Node) (bnodeIndex : Nat) : Sim R
    (merge this bnode bnodeIndex) (merge this bnode bnodeIndex) := by
  refine Sim.bind (Sim.element _ _) fun child => Sim.bind (hs.sim_getNode child) fun node => ?_
  refine Sim.bind (Sim.element _ _) fun pnodeItem => Sim.bind (Sim.require _) fun _ => ?_
  refine Sim.bind (hs.sim_writeNode _) fun _ => Sim.bind (hs.sim_writeNode _) fun _ => ?_
  exact hs.sim_deleteNode _

theorem sim_writeThree (a b c : Node) : Sim R
    (Prog.attempt do
      let _ ← writeNode a
      let _ ← writeNode b
      writeNode c)
    (Prog.attempt do
      let _ ← writeNode a
      let _ ← writeNode b
      writeNode c) :=
  Sim.attempt <| Sim.bind (hs.sim_writeNode a) fun _ => Sim.bind (hs.sim_writeNode b) fun _ =>
    hs.sim_writeNode c

theorem sim_rightRotateBlock (pnode unbalancedNode : Node) (unbalancedNodeIndex : Nat) :
    Sim R (rightRotateBlock pnode unbalancedNode unbalancedNodeIndex)
      (rightRotateBlock pnode unbalancedNode unbalancedNodeIndex) := by
  refine Sim.ite (fun _ => .ret _) fun _ => Sim.get_bind fun d e h => ?_
  rw [hs.options h]
  refine Sim.bind (Sim.element _ _) fun child => ?_
  refine Sim.bind (hs.sim_getNode child).attempt fun answer => ?_
  cases answer with
  | error _ => exact .ret _
  | ok leftNode =>
    refine Sim.ite (fun _ => ?_) fun _ => .ret _
    exact Sim.bind (Sim.demand _) fun _ => Sim.bind (hs.sim_writeThree _ _ _) fun _ => .ret _

theorem sim_leftBalanceBlock (pnode unbalancedNode : Node) (unbalancedNodeIndex : Nat) :
    Sim R (leftBalanceBlock pnode unbalancedNode unbalancedNodeIndex)
      (leftBalanceBlock pnode unbalancedNode unbalancedNodeIndex) := by
  refine Sim.ite (fun _ => .ret _) fun _ => Sim.get_bind fun d e h => ?_
  rw [hs.options h]
  refine Sim.bind (Sim.element _ _) fun child => ?_
  refine Sim.bind (hs.sim_getNode child).attempt fun answer => ?_
  cases answer with
  | error _ => exact .ret _
  | ok rightNode =>
    refine Sim.ite (fun _ => ?_) fun _ => .ret _
    exact Sim.bind (Sim.demand _) fun _ => Sim.bind (hs.sim_writeThree _ _ _) fun _ => .ret _

theorem sim_rebalanceRemove (this unbalancedNode : Node) (unbalancedNodeIndex : Nat) :
    Sim R (rebalanceRemove this unbalancedNode unbalancedNodeIndex)
      (rebalanceRemove this unbalancedNode unbalancedNodeIndex) := by
  refine Sim.bind (hs.sim_rightRotateBlock _ _ _) fun p => ?_
  refine Sim.bind (hs.sim_leftBalanceBlock _ _ _) fun p => ?_
  refine Sim.ite (fun _ => ?_) fun _ => hs.sim_merge _ _ _
  refine Sim.bind (Sim.element _ _) fun child => Sim.bind (hs.sim_getNode child) fun node => ?_
  exact hs.sim_merge _ _ _

end Layers

/-! ## Collections -/

section Collections

open Dal Collection

theorem sim_onDal {α : Type} {x : Prog Error (Dal φ) α} {y : Prog Error (Dal ψ) α}
    (h : Sim R x y) : Sim S (onDal x) (onDal y) :=
  Sim.zoom h (fun _ _ hm => hs.dal hm) fun _ _ _ _ hm hd => hs.setDal hm hd

theorem sim_setRoot (p : Nat) : Sim (ε := Error) S
    (Prog.modify fun c => { c with root := p }) (Prog.modify fun c => { c with root := p }) :=
  Sim.modify fun _ _ hm => hs.setRoot p hm

theorem sim_find (key : Bytes) : Sim S (find key) (find key) := by
  refine Sim.get_bind fun c e h => ?_
  rw [hs.root h]
  refine Sim.bind (hs.sim_onDal (hs.sim_getNode _)) fun node => ?_
  refine Sim.bind (hs.sim_onDal (hs.sim_findKey _ _ _)) fun p => ?_
  match p with
  | (none, _) => exact .ret _
  | (some (index, containingNode), _) => exact Sim.bind (Sim.element _ _) fun _ => .ret _

theorem sim_getNodesFrom (child : Node) (indexes : List Nat) :
    Sim R (getNodesFrom child indexes) (getNodesFrom child indexes) := by
  induction indexes generalizing child with
  | nil => exact .ret _
  | cons index indexes ih =>
    refine Sim.bind (Sim.element _ _) fun page => ?_
    refine Sim.bind (hs.sim_getNode page).orPanic fun newChild => ?_
    exact Sim.bind (ih newChild) fun _ => .ret _

theorem sim_getNodes (indexes : List Nat) :
    Sim S (getNodes indexes) (getNodes indexes) := by
  refine Sim.get_bind fun c e h => ?_
  rw [hs.root h]
  refine hs.sim_onDal (Sim.bind (hs.sim_getNode _) fun root => ?_)
  exact Sim.bind (hs.sim_getNodesFrom _ _) fun _ => .ret _

/-! ### put -/

theorem sim_splitRound (ancestors : List Node) (ancestorsIndexes : List Nat) (i : Nat) :
    Sim R (splitRound ancestors ancestorsIndexes i)
      (splitRound ancestors ancestorsIndexes i) := by
  refine Sim.get_bind fun d e h => ?_
  rw [hs.options h]
  refine Sim.bind (Sim.element _ _) fun previousNode => Sim.bind (Sim.element _ _) fun node => ?_
  refine Sim.ite (fun _ => ?_) fun _ => .ret _
  exact Sim.bind (Sim.element _ _) fun index => Sim.bind (hs.sim_split _ _ _) fun _ => .ret _

theorem sim_splitRoot (ancestors : List Node) :
    Sim S (splitRoot ancestors) (splitRoot ancestors) := by
  refine Sim.get_bind fun c e h => ?_
  rw [hs.options (hs.dal h)]
  refine Sim.bind (Sim.element _ _) fun rootNode => Sim.ite (fun _ => ?_) fun _ => .ret _
  refine Sim.bind (hs.sim_onDal ?_) fun newRoot => hs.sim_setRoot _
  refine Sim.bind (hs.sim_newNode _ _) fun newRoot => Sim.bind (hs.sim_split _ _ _) fun p => ?_
  exact (hs.sim_writeNode _).orPanic

theorem sim_putItem (pastEnd item : Item) :
    Sim S (putItem pastEnd item) (putItem pastEnd item) := by
  refine Sim.get_bind fun c e h => ?_
  rw [hs.root h]
  refine Sim.bind (hs.sim_onDal (hs.sim_getNode _).orPanic) fun root => ?_
  refine Sim.bind (hs.sim_onDal (hs.sim_findKey _ _ _)) fun p => ?_
  match p with
  | (none, _) => exact .halt _
  | (some (insertionIndex, node), _) =>
    refine Sim.bind (hs.sim_onDal (hs.sim_writeNode _).orPanic) fun _ => ?_
    exact Sim.bind (hs.sim_getNodes _) fun _ => .ret _

theorem sim_put (pastEnd : Item) (key value : Bytes) :
    Sim S (put pastEnd key value) (put pastEnd key value) := by
  refine Sim.get_bind fun c e h => ?_
  rw [hs.root h]
  refine Sim.ite (fun _ => ?_) fun _ => ?_
  · refine Sim.bind (hs.sim_onDal ?_) fun root => hs.sim_setRoot _
    exact Sim.bind (hs.sim_newNode _ _) fun root => hs.sim_writeNode _
  · refine Sim.bind (hs.sim_putItem _ _) fun p => ?_
    refine Sim.bind (hs.sim_onDal (Sim.forEach (hs.sim_splitRound _ _) _)) fun _ => ?_
    exact hs.sim_splitRoot _

/-! ### remove -/

theorem sim_rebalanceRound (ancestors : List Node) (ancestorsIndexes : List Nat) (i : Nat) :
    Sim R (rebalanceRound ancestors ancestorsIndexes i)
      (rebalanceRound ancestors ancestorsIndexes i) := by
  refine Sim.get_bind fun d e h => ?_
  rw [hs.options h]
  refine Sim.bind (Sim.element _ _) fun pnode => Sim.bind (Sim.element _ _) fun node => ?_
  refine Sim.ite (fun _ => ?_) fun _ => .ret _
  exact Sim.bind (Sim.element _ _) fun index => (hs.sim_rebalanceRemove _ _ _).orPanic

theorem sim_collapseRoot (ancestors : List Node) :
    Sim S (collapseRoot ancestors) (collapseRoot ancestors) := by
  refine Sim.bind (Sim.element _ _) fun root => Sim.ite (fun _ => ?_) fun _ => .ret _
  exact Sim.bind (Sim.element _ _) fun child => hs.sim_setRoot _

theorem sim_removeItem (key : Bytes) :
    Sim S (removeItem key) (removeItem key) := by
  refine Sim.get_bind fun c e h => ?_
  rw [hs.root h]
  refine Sim.bind (hs.sim_onDal (hs.sim_getNode _)) fun root => ?_
  refine Sim.bind (hs.sim_onDal (hs.sim_findKey _ _ _)) fun p => ?_
  match p with
  | (none, _) => exact .fail _
  | (some (removeItemIndex, node), _) =>
    refine Sim.bind (hs.sim_onDal (Sim.ite (fun _ => ?_) fun _ => ?_)) fun affectedNodes => ?_
    · exact Sim.bind (hs.sim_removeItemFromLeaf _ _) fun _ => .ret _
    · exact (hs.sim_removeItemFromInternal _ _).orPanic
    · exact Sim.bind (hs.sim_getNodes _) fun _ => .ret _

theorem sim_remove (key : Bytes) : Sim S (remove key) (remove key) := by
  refine Sim.bind (hs.sim_removeItem key) fun p => ?_
  refine Sim.bind (hs.sim_onDal (Sim.forEach (hs.sim_rebalanceRound _ _) _)) fun _ => ?_
  exact Sim.bind (hs.sim_collapseRoot _) fun _ => Sim.bind (hs.sim_find key) fun _ => .ret _

end Collections

end Simulates

/-! ## The file and the shelf -/

namespace Collection

variable {pageSize : Nat} {base : Bytes}

/-- Two collections with the same root and name over layers that mirror each other. -/
structure Mirror [System] (base : Bytes) (c : Collection File)
    (e : Collection (Shelf (Capacity.page pageSize))) : Prop where
  dal : Mirrors base c.dal e.dal
  name : c.name = e.name
  root : c.root = e.root

theorem mirrors_simulates [System] : Simulates (@Mirrors pageSize _ base) (@Mirror pageSize _ base) where
  options h := h.options
  fuel_le h := h.fuel_le
  sim_getNode := Dal.sim_getNode
  sim_getNextPage := Dal.sim_getNextPage
  sim_writeNode := Dal.sim_writeNode
  sim_deleteNode := Dal.sim_deleteNode
  dal h := h.dal
  root h := h.root
  setDal h hd := ⟨hd, h.name, h.root⟩
  setRoot _ h := ⟨h.dal, h.name, rfl⟩

theorem sim_find [System] (key : Bytes) : Sim (@Mirror pageSize _ base) (find key) (find key) :=
  mirrors_simulates.sim_find key

theorem sim_splitRound [System] (ancestors : List Node) (ancestorsIndexes : List Nat) (i : Nat) :
    Sim (@Mirrors pageSize _ base) (splitRound ancestors ancestorsIndexes i)
      (splitRound ancestors ancestorsIndexes i) :=
  mirrors_simulates.sim_splitRound ancestors ancestorsIndexes i

theorem sim_putItem [System] (pastEnd item : Item) :
    Sim (@Mirror pageSize _ base) (putItem pastEnd item) (putItem pastEnd item) :=
  mirrors_simulates.sim_putItem pastEnd item

theorem sim_put [System] (pastEnd : Item) (key value : Bytes) :
    Sim (@Mirror pageSize _ base) (put pastEnd key value) (put pastEnd key value) :=
  mirrors_simulates.sim_put pastEnd key value

theorem sim_remove [System] (key : Bytes) : Sim (@Mirror pageSize _ base) (remove key) (remove key) :=
  mirrors_simulates.sim_remove key

end Collection

end Toocal
