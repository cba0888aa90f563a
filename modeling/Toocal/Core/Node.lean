import Toocal.Core.DataAccessLayer

/-!
# Nodes

`core/node.cpp`.  An access outside `items` or `children` ends the run with
`Stop.undefined`; `error.panic()` ends it with `Stop.terminated`.

Where the C++ functions change a `Node&`, these hand the changed node back.
-/

namespace Toocal

open Outcomes

/-- The loop of `find_key_in_node`; `index` is its counter. -/
def findKeyInNodeFrom (key : Bytes) (index : Nat) : List Item → Bool × Nat
  | [] => (false, index)
  | item :: rest =>
    if bytescmp item.key key = 0 then (true, index)
    else if bytescmp item.key key = 1 then (false, index)
    else findKeyInNodeFrom key (index + 1) rest

def findKeyInNode (key : Bytes) (items : List Item) : Bool × Nat := findKeyInNodeFrom key 0 items

/-- The same loop with the `uint32_t` counter of the source; behind it the number of items
is cut to 32 bits. -/
def findKeyInNodeFrom32 (key : Bytes) (size : Nat) (index : UInt32) : List Item → Bool × UInt32
  | [] => (false, UInt32.ofNat size)
  | item :: rest =>
    if bytescmp item.key key = 0 then (true, index)
    else if bytescmp item.key key = 1 then (false, index)
    else findKeyInNodeFrom32 key size (index + 1) rest

/-- `find_key_in_node` at its own width.  A node that is read from a page has fewer than
2^16 items, and there `findKeyInNode` is the same. -/
def findKeyInNode32 (key : Bytes) (items : List Item) : Bool × UInt32 :=
  findKeyInNodeFrom32 key items.length 0 items

/-- `insert(begin() + index, a)`; with `index` the size it is `push_back`. -/
def insertAt {α : Type} (l : List α) (index : Nat) (a : α) : List α :=
  l.take index ++ a :: l.drop index

theorem insertAt_perm {α : Type} (l : List α) (i : Nat) (a : α) : (insertAt l i a).Perm (a :: l) := by
  have h : (insertAt l i a).Perm (a :: (l.take i ++ l.drop i)) := List.perm_middle
  rwa [List.take_append_drop] at h

theorem mem_insertAt {α : Type} {l : List α} {i : Nat} {a b : α} :
    b ∈ insertAt l i a ↔ b = a ∨ b ∈ l := by
  rw [(insertAt_perm l i a).mem_iff, List.mem_cons]

theorem length_insertAt {α : Type} (l : List α) (i : Nat) (a : α) :
    (insertAt l i a).length = l.length + 1 := by
  rw [(insertAt_perm l i a).length_eq, List.length_cons]

/-- `Node::add_item`. -/
def Node.addItem (n : Node) (item : Item) (insertionIndex : Nat) : Node :=
  { n with items := insertAt n.items insertionIndex item }

namespace Dal

variable {φ : Type} [PageStore φ]

/-! ## Searching -/

/-- `find_key_helper`.  The answer is the index and the node; `none` stands for its
`(-1, nullopt)`.  `ancestorsIndexes` grows along the way. -/
def findKeyHelper (key : Bytes) (exact : Bool) :
    Nat → Node → List Nat → Prog Error (Dal φ) (Option (Nat × Node) × List Nat)
  | 0, _, _ => Prog.halt .diverged
  | fuel + 1, node, ancestorsIndexes =>
    match findKeyInNode key node.items with
    | (true, index) => Prog.ret (some (index, node), ancestorsIndexes)
    | (false, index) =>
      if node.isLeaf then
        if exact then Prog.ret (none, ancestorsIndexes)
        else Prog.ret (some (index, node), ancestorsIndexes)
      else do
        let child ← Prog.element node.children index
        let nextChild ← getNode child
        findKeyHelper key exact fuel nextChild (ancestorsIndexes ++ [index])

/-- `find_key`; the path starts with the index of the root, 0. -/
def findKey (node : Node) (key : Bytes) (exact : Bool) :
    Prog Error (Dal φ) (Option (Nat × Node) × List Nat) := do
  let d ← Prog.get
  findKeyHelper key exact d.fuel node [0]

/-! ## Splitting -/

/-- `split`.  Without a split index the source reads `items[4294967295]`.  A leaf
has no children to move, so the two cases of the source are one here. -/
def split (this nodeToSplit : Node) (nodeToSplitIndex : Nat) :
    Prog Error (Dal φ) (Node × Node) := do
  let d ← Prog.get
  let splitIndex ← Prog.demand (d.options.getSplitIndex nodeToSplit.items)
  let middleItem ← Prog.element nodeToSplit.items splitIndex
  if nodeToSplit.isLeaf then Prog.ret () else
    Prog.require (splitIndex + 1 ≤ nodeToSplit.children.length)
  let newNode ← newNode (nodeToSplit.items.drop (splitIndex + 1))
    (nodeToSplit.children.drop (splitIndex + 1))
  let newNode ← Prog.orPanic (writeNode newNode)
  let nodeToSplit := { nodeToSplit with
    items := nodeToSplit.items.take splitIndex
    children := nodeToSplit.children.take (splitIndex + 1) }
  Prog.require (nodeToSplitIndex ≤ this.items.length)
  let this := this.addItem middleItem nodeToSplitIndex
  Prog.require (nodeToSplitIndex + 1 ≤ this.children.length)
  let this := { this with
    children := insertAt this.children (nodeToSplitIndex + 1) newNode.pageNum }
  Prog.orPanic do
    let this ← writeNode this
    let nodeToSplit ← writeNode nodeToSplit
    return (this, nodeToSplit)

/-! ## Removing an item -/

def removeItemFromLeaf (this : Node) (index : Nat) : Prog Error (Dal φ) Node := do
  Prog.require (index < this.items.length)
  Prog.orPanic (writeNode { this with items := this.items.eraseIdx index })

/-- The `while` loop of `remove_item_from_internal`: descend to the rightmost leaf. -/
def descendRightmost : Nat → Node → List Nat → Prog Error (Dal φ) (Node × List Nat)
  | 0, _, _ => Prog.halt .diverged
  | fuel + 1, node, affectedNodes =>
    if node.isLeaf then Prog.ret (node, affectedNodes)
    else do
      let traversingIndex := node.children.length - 1
      let child ← Prog.element node.children traversingIndex
      let anode ← Prog.orPanic (getNode child)
      descendRightmost fuel anode (affectedNodes ++ [traversingIndex])

/-- `remove_item_from_internal`.  The outcome of the second `write_node` sits inside
the `expected` of the first and is dropped. -/
def removeItemFromInternal (this : Node) (index : Nat) : Prog Error (Dal φ) (List Nat) := do
  let child ← Prog.element this.children index
  let node ← getNode child
  let d ← Prog.get
  let (node, affectedNodes) ← descendRightmost d.fuel node [index]
  let back ← Prog.demand node.items.getLast?
  Prog.require (index < this.items.length)
  let this := { this with items := this.items.set index back }
  let node := { node with items := node.items.dropLast }
  let _ ← writeNode node
  let _ ← Prog.attempt (writeNode this)
  return affectedNodes

/-! ## Rebalancing after a removal -/

/-- `rotate_right`.  A leaf `anode` has no last child, and none is moved then. -/
def rotateRight (anode pnode bnode : Node) (bnodeIndex : Nat) : Option (Node × Node × Node) := do
  let anodeItem ← anode.items.getLast?
  let pnodeItemIndex := if bnodeIndex = 0 then 0 else bnodeIndex - 1
  let pnodeItem ← pnode.items[pnodeItemIndex]?
  let childToShift := anode.children.getLast?.toList
  return ({ anode with items := anode.items.dropLast, children := anode.children.dropLast },
    { pnode with items := pnode.items.set pnodeItemIndex anodeItem },
    { bnode with items := pnodeItem :: bnode.items, children := childToShift ++ bnode.children })

/-- `rotate_left`; `bnodeIndex` is the index of `anode`, as its caller passes it. -/
def rotateLeft (anode pnode bnode : Node) (bnodeIndex : Nat) : Option (Node × Node × Node) := do
  let bnodeItem ← bnode.items.head?
  let pnodeItemIndex := if bnodeIndex = pnode.items.length then pnode.items.length - 1
    else bnodeIndex
  let pnodeItem ← pnode.items[pnodeItemIndex]?
  let childToShift := bnode.children.head?.toList
  return ({ anode with items := anode.items ++ [pnodeItem],
                       children := anode.children ++ childToShift },
    { pnode with items := pnode.items.set pnodeItemIndex bnodeItem },
    { bnode with items := bnode.items.tail, children := bnode.children.tail })

theorem rotateRight_keeps {anode pnode bnode anode' pnode' bnode' : Node} {bnodeIndex : Nat}
    (h : rotateRight anode pnode bnode bnodeIndex = some (anode', pnode', bnode')) :
    anode'.pageNum = anode.pageNum ∧ bnode'.pageNum = bnode.pageNum ∧
      pnode'.pageNum = pnode.pageNum ∧ pnode'.children = pnode.children ∧
      pnode'.items.length = pnode.items.length := by
  simp only [rotateRight, Option.bind_eq_bind, Option.bind_eq_some_iff] at h
  obtain ⟨anodeItem, -, pnodeItem, -, h⟩ := h
  cases h
  exact ⟨rfl, rfl, rfl, rfl, List.length_set⟩

theorem rotateLeft_keeps {anode pnode bnode anode' pnode' bnode' : Node} {bnodeIndex : Nat}
    (h : rotateLeft anode pnode bnode bnodeIndex = some (anode', pnode', bnode')) :
    anode'.pageNum = anode.pageNum ∧ bnode'.pageNum = bnode.pageNum ∧
      pnode'.pageNum = pnode.pageNum ∧ pnode'.children = pnode.children ∧
      pnode'.items.length = pnode.items.length := by
  simp only [rotateLeft, Option.bind_eq_bind, Option.bind_eq_some_iff] at h
  obtain ⟨bnodeItem, -, pnodeItem, -, h⟩ := h
  cases h
  exact ⟨rfl, rfl, rfl, rfl, List.length_set⟩

/-- `merge`: `bnode` goes into the sibling to its left. -/
def merge (this bnode : Node) (bnodeIndex : Nat) : Prog Error (Dal φ) Unit := do
  let child ← Prog.element this.children (bnodeIndex - 1)
  let node ← getNode child
  let pnodeItem ← Prog.element this.items (bnodeIndex - 1)
  Prog.require (bnodeIndex < this.children.length)
  let this := { this with
    items := this.items.eraseIdx (bnodeIndex - 1)
    children := this.children.eraseIdx bnodeIndex }
  let node := { node with
    items := node.items ++ [pnodeItem] ++ bnode.items
    children := if node.isLeaf then node.children else node.children ++ bnode.children }
  let _ ← writeNode node
  let _ ← writeNode this
  deleteNode bnode.pageNum

/-- The block "right rotate" of `rebalance_remove`.  Its `expected` is dropped, so an
error ends the block and nothing else; what it did to its two nodes stays. -/
def rightRotateBlock (pnode unbalancedNode : Node) (unbalancedNodeIndex : Nat) :
    Prog Error (Dal φ) (Node × Node) := do
  if unbalancedNodeIndex = 0 then Prog.ret (pnode, unbalancedNode)
  else do
    let d ← Prog.get
    let child ← Prog.element pnode.children (unbalancedNodeIndex - 1)
    match ← Prog.attempt (getNode child) with
    | .error _ => Prog.ret (pnode, unbalancedNode)
    | .ok leftNode =>
      if d.options.canSpareAnElement leftNode.items then do
        let (leftNode, pnode, unbalancedNode) ←
          Prog.demand (rotateRight leftNode pnode unbalancedNode unbalancedNodeIndex)
        let _ ← Prog.attempt do
          let _ ← writeNode leftNode
          let _ ← writeNode pnode
          writeNode unbalancedNode
        Prog.ret (pnode, unbalancedNode)
      else Prog.ret (pnode, unbalancedNode)

/-- The block "left balance" of `rebalance_remove`. -/
def leftBalanceBlock (pnode unbalancedNode : Node) (unbalancedNodeIndex : Nat) :
    Prog Error (Dal φ) (Node × Node) := do
  if unbalancedNodeIndex + 1 = pnode.children.length then Prog.ret (pnode, unbalancedNode)
  else do
    let d ← Prog.get
    let child ← Prog.element pnode.children (unbalancedNodeIndex + 1)
    match ← Prog.attempt (getNode child) with
    | .error _ => Prog.ret (pnode, unbalancedNode)
    | .ok rightNode =>
      if d.options.canSpareAnElement rightNode.items then do
        let (unbalancedNode, pnode, rightNode) ←
          Prog.demand (rotateLeft unbalancedNode pnode rightNode unbalancedNodeIndex)
        let _ ← Prog.attempt do
          let _ ← writeNode unbalancedNode
          let _ ← writeNode pnode
          writeNode rightNode
        Prog.ret (pnode, unbalancedNode)
      else Prog.ret (pnode, unbalancedNode)

/-- `rebalance_remove`.  The `return` inside a rotation block leaves the block only:
the merge at the end is always reached. -/
def rebalanceRemove (this unbalancedNode : Node) (unbalancedNodeIndex : Nat) :
    Prog Error (Dal φ) Unit := do
  let (pnode, unbalancedNode) ← rightRotateBlock this unbalancedNode unbalancedNodeIndex
  let (pnode, unbalancedNode) ← leftBalanceBlock pnode unbalancedNode unbalancedNodeIndex
  if unbalancedNodeIndex = 0 then do
    let child ← Prog.element this.children (unbalancedNodeIndex + 1)
    let node ← getNode child
    merge pnode node (unbalancedNodeIndex + 1)
  else merge pnode unbalancedNode unbalancedNodeIndex

end Dal

end Toocal
