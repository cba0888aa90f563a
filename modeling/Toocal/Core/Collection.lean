import Toocal.Core.Node

/-!
# Collections

`core/collection.cpp`: `find`, `put` and `remove` on the tree under
`Collection::root`.  A `Collection` holds a pointer to its `Data_access_layer`;
here it holds the layer itself, and `Database.run` of `Tree/Tenants.lean` passes one layer
between the collections that are open on it.
-/

namespace Toocal

open Outcomes

structure Collection (φ : Type) where
  dal : Dal φ
  name : Bytes
  root : Nat

namespace Collection

variable {φ : Type} [PageStore φ]

/-- Run a program on the data access layer. -/
def onDal {α : Type} (x : Prog Error (Dal φ) α) : Prog Error (Collection φ) α :=
  Prog.zoom Collection.dal (fun d c => { c with dal := d }) x

def find (key : Bytes) : Prog Error (Collection φ) (Option Item) := do
  let this ← Prog.get
  let node ← onDal (Dal.getNode this.root)
  let (result, _) ← onDal (Dal.findKey node key true)
  match result with
  | none => Prog.ret none
  | some (index, containingNode) => do
    let item ← Prog.element containingNode.items index
    Prog.ret (some item)

/-- The loop of `get_nodes`, from the node `child` on. -/
def getNodesFrom (child : Node) : List Nat → Prog Error (Dal φ) (List Node)
  | [] => Prog.ret []
  | index :: indexes => do
    let page ← Prog.element child.children index
    let newChild ← Prog.orPanic (Dal.getNode page)
    let nodes ← getNodesFrom newChild indexes
    Prog.ret (newChild :: nodes)

/-- `get_nodes`; the loop starts at the second index. -/
def getNodes (indexes : List Nat) : Prog Error (Collection φ) (List Node) := do
  let this ← Prog.get
  onDal do
    let root ← Dal.getNode this.root
    let nodes ← getNodesFrom root indexes.tail
    Prog.ret (root :: nodes)

/-! ## put -/

/-- One round of the loop of `put`: split `ancestors[i + 1]` if it is over-populated. -/
def splitRound (ancestors : List Node) (ancestorsIndexes : List Nat) (i : Nat) :
    Prog Error (Dal φ) Unit := do
  let d ← Prog.get
  let previousNode ← Prog.element ancestors i
  let node ← Prog.element ancestors (i + 1)
  if d.options.isOverPopulated node.items then do
    let index ← Prog.element ancestorsIndexes (i + 1)
    let _ ← Dal.split previousNode node index
    Prog.ret ()
  else Prog.ret ()

/-- The counter of the two rebalancing loops: from one before the last ancestor to the root. -/
def rounds (ancestors : List Node) : List Nat := (List.range (ancestors.length - 1)).reverse

/-- The end of `put`: a new root over an over-populated one. -/
def splitRoot (ancestors : List Node) : Prog Error (Collection φ) Unit := do
  let this ← Prog.get
  let rootNode ← Prog.element ancestors 0
  if this.dal.options.isOverPopulated rootNode.items then do
    let newRoot ← onDal do
      let newRoot ← Dal.newNode [] [rootNode.pageNum]
      let (newRoot, _) ← Dal.split newRoot rootNode 0
      Prog.orPanic (Dal.writeNode newRoot)
    Prog.modify fun c => { c with root := newRoot.pageNum }
  else Prog.ret ()

/-- What `put` does on the node its search ends in.  `key` has been moved into the
item, so it is empty when it is compared.  `items[insertion_index]` may lie one past
the end; `pastEnd` is what that slot holds.  Both branches insert. -/
def placeItem (pastEnd item : Item) (node : Node) (insertionIndex : Nat) : Node :=
  if ¬ node.items.isEmpty ∧ bytescmp (node.items.getD insertionIndex pastEnd).key [] = 0 then
    { node with items := insertAt node.items insertionIndex item }
  else node.addItem item insertionIndex

/-- The first half of `put` on an existing root: search, insert, and read the path again. -/
def putItem (pastEnd item : Item) : Prog Error (Collection φ) (List Node × List Nat) := do
  let this ← Prog.get
  let root ← onDal (Prog.orPanic (Dal.getNode this.root))
  let (result, ancestorsIndexes) ← onDal (Dal.findKey root item.key false)
  match result with
  | none => Prog.halt .terminated
  | some (insertionIndex, node) => do
    let _ ← onDal (Prog.orPanic (Dal.writeNode (placeItem pastEnd item node insertionIndex)))
    let ancestors ← getNodes ancestorsIndexes
    Prog.ret (ancestors, ancestorsIndexes)

def put (pastEnd : Item) (key value : Bytes) : Prog Error (Collection φ) Unit := do
  let item : Item := ⟨key, value⟩
  let this ← Prog.get
  if this.root = 0 then do
    let root ← onDal do
      let root ← Dal.newNode [item] []
      Dal.writeNode root
    Prog.modify fun c => { c with root := root.pageNum }
  else do
    let (ancestors, ancestorsIndexes) ← putItem pastEnd item
    onDal (Prog.forEach (splitRound ancestors ancestorsIndexes) (rounds ancestors))
    splitRoot ancestors

/-! ## remove -/

/-- One round of the loop of `remove`: rebalance `ancestors[i + 1]` if it is
under-populated. -/
def rebalanceRound (ancestors : List Node) (ancestorsIndexes : List Nat) (i : Nat) :
    Prog Error (Dal φ) Unit := do
  let d ← Prog.get
  let pnode ← Prog.element ancestors i
  let node ← Prog.element ancestors (i + 1)
  if d.options.isUnderPopulated node.items then do
    let index ← Prog.element ancestorsIndexes (i + 1)
    Prog.orPanic (Dal.rebalanceRemove pnode node index)
  else Prog.ret ()

/-- The end of `remove`: a root without items gives way to its child. -/
def collapseRoot (ancestors : List Node) : Prog Error (Collection φ) Unit := do
  let root ← Prog.element ancestors 0
  if root.items.isEmpty ∧ ¬ root.children.isEmpty then do
    let child ← Prog.element ancestors 1
    Prog.modify fun c => { c with root := child.pageNum }
  else Prog.ret ()

def keyNotFound (key : Bytes) : Error :=
  .message ("key " ++ String.ofList (key.map fun b => Char.ofNat b.toNat) ++
    " not found in Collection::remove")

/-- The first half of `remove`: search, take the item out, and read the path again. -/
def removeItem (key : Bytes) : Prog Error (Collection φ) (List Node × List Nat) := do
  let this ← Prog.get
  let root ← onDal (Dal.getNode this.root)
  let (result, ancestorsIndexes) ← onDal (Dal.findKey root key true)
  match result with
  | none => Prog.fail (keyNotFound key)
  | some (removeItemIndex, node) => do
    let affectedNodes ← onDal <|
      if node.isLeaf then do
        let _ ← Dal.removeItemFromLeaf node removeItemIndex
        Prog.ret []
      else Prog.orPanic (Dal.removeItemFromInternal node removeItemIndex)
    let ancestors ← getNodes (ancestorsIndexes ++ affectedNodes)
    Prog.ret (ancestors, ancestorsIndexes ++ affectedNodes)

/-- `remove`; the last `find` only decides whether a warning is logged. -/
def remove (key : Bytes) : Prog Error (Collection φ) Unit := do
  let (ancestors, ancestorsIndexes) ← removeItem key
  onDal (Prog.forEach (rebalanceRound ancestors ancestorsIndexes) (rounds ancestors))
  collapseRoot ancestors
  let _ ← find key
  Prog.ret ()

end Collection

end Toocal
