import Toocal.Core.DataAccessLayer
import Toocal.Library.Buffer

/-!
# The byte layouts

`Serializer<Node>`, `Serializer<Meta>` and `Serializer<Freelist>` of `core/node.h`,
`core/meta.h` and `core/freelist.h`.  `none` stands for an access outside of a buffer
or a container; the stream library asserts its bounds, and without its assertions such
an access is undefined.

The slots of a node page grow from the left, its cells from the right.  Nothing keeps
them apart, and the sizes are cut to the width of their fields.
-/

namespace Toocal

open Buffers

namespace NodeSerializer

/-- The variables of `serialize`. -/
structure Slots where
  buffer : Bytes
  left : Nat
  right : Nat

/-- The page number of a child, in front of its item. -/
def writeChild (isLeaf : Bool) (children : List Nat) (i : Nat) (s : Slots) : Option Slots :=
  if isLeaf then some s
  else do
    let child ← children[i]?
    let buffer ← write s.buffer s.left (toLE 8 child)
    some { s with buffer := buffer, left := s.left + pageNumSize }

/-- The offset of an item and its cell.  Where `right` passes the front of the buffer
the next access is outside of it. -/
def writeItem (item : Item) (s : Slots) : Option Slots := do
  let keySize := item.key.length % 2 ^ 8
  let valueSize := item.value.length % 2 ^ 8
  let offset ← if keySize + valueSize + 2 ≤ s.right then
    some (s.right - keySize - valueSize - 2) else none
  let buffer ← write s.buffer s.left (toLE 2 offset)
  let buffer ← write buffer (s.right - valueSize) (item.value.take valueSize)
  let buffer ← write buffer (s.right - valueSize - 1) [UInt8.ofNat valueSize]
  let buffer ← write buffer (s.right - valueSize - 1 - keySize) (item.key.take keySize)
  let buffer ← write buffer offset [UInt8.ofNat keySize]
  some ⟨buffer, s.left + 2, offset⟩

/-- The loop of `serialize`. -/
def writeItems (isLeaf : Bool) (children : List Nat) : Nat → List Item → Slots → Option Slots
  | _, [], s => some s
  | i, item :: items, s => do
    let s ← writeChild isLeaf children i s
    let s ← writeItem item s
    writeItems isLeaf children (i + 1) items s

/-- `serialize`; `write_node` leaves `buffer_size` at its default, `defaultPageSize`. -/
def serialize (items : List Item) (children : List Nat) (bufferSize : Nat) : Option Bytes := do
  let isLeaf := children.isEmpty
  let itemsCount := items.length % 2 ^ 16
  let buffer ← write (List.replicate bufferSize 0) 0
    ((if isLeaf then 1 else 0) :: toLE 2 itemsCount)
  let s ← writeItems isLeaf children 0 (items.take itemsCount)
    ⟨buffer, headerSize, bufferSize - 1⟩
  if isLeaf then some s.buffer
  else do
    let last ← children.getLast?
    write s.buffer s.left (toLE 8 last)

/-- A byte with a size and as many bytes; the offset behind them has 16 bits. -/
def readSized (buffer : Bytes) (offset : Nat) : Option (Bytes × Nat) := do
  let size ← buffer[offset]?
  let start := (offset + 1) % 2 ^ 16
  let data ← read buffer start size.toNat
  some (data, (start + size.toNat) % 2 ^ 16)

def readChild (isLeaf : Bool) (buffer : Bytes) (left : Nat) : Option (List Nat × Nat) :=
  if isLeaf then some ([], left)
  else do
    let pageNum ← read buffer left 8
    some ([ofLE pageNum], left + pageNumSize)

/-- The loop of `deserialize`. -/
def readItems (isLeaf : Bool) (buffer : Bytes) :
    Nat → Nat → Option (List Item × List Nat × Nat)
  | 0, left => some ([], [], left)
  | count + 1, left => do
    let (child, left) ← readChild isLeaf buffer left
    let offset ← read buffer left 2
    let (key, offset) ← readSized buffer (ofLE offset)
    let (value, _) ← readSized buffer offset
    let (items, children, left) ← readItems isLeaf buffer count (left + 2)
    some (⟨key, value⟩ :: items, child ++ children, left)

def deserialize (buffer : Bytes) : Option (List Item × List Nat) := do
  let flag ← buffer[0]?
  let itemsCount ← read buffer 1 2
  let isLeaf := flag ≠ 0
  let (items, children, left) ← readItems isLeaf buffer (ofLE itemsCount) headerSize
  if isLeaf then some (items, children)
  else do
    let pageNum ← read buffer left 8
    some (items, children ++ [ofLE pageNum])

end NodeSerializer

namespace MetaSerializer

def serialize (self : Meta) : Bytes := toLE 8 self.root ++ toLE 8 self.freelistPage

def deserialize (buffer : Bytes) : Option Meta := do
  let root ← read buffer 0 8
  let freelistPage ← read buffer 8 8
  some ⟨ofLE root, ofLE freelistPage⟩

end MetaSerializer

namespace FreelistSerializer

/-- `max_page` and the number of released pages are cut to 16 bits; the released pages
are all written. -/
def serialize (self : Freelist) : Bytes :=
  toLE 2 self.maxPage ++ toLE 2 self.releasedPages.length ++ self.releasedPages.flatMap (toLE 8)

def readPages (buffer : Bytes) : Nat → Nat → Option (List Nat)
  | 0, _ => some []
  | count + 1, pos => do
    let page ← read buffer pos 8
    let pages ← readPages buffer count (pos + 8)
    some (ofLE page :: pages)

def deserialize (buffer : Bytes) : Option Freelist := do
  let maxPage ← read buffer 0 2
  let releasedPagesCount ← read buffer 2 2
  let releasedPages ← readPages buffer (ofLE releasedPagesCount) 4
  some ⟨ofLE maxPage, releasedPages⟩

end FreelistSerializer

end Toocal
