import Toocal.Core.Endian
import Toocal.Core.Serializer

/-!
# The serializers over the streams

`Serializer<Node>`, `Serializer<Meta>` and `Serializer<Freelist>` once more, as they are
written: every number passes through a stream, and `left` and `right` have 32 bits.
`Core/Serializer.lean` says the same in terms of the buffer; `Results/Streams.lean` compares
the two.
-/

namespace Toocal.Streamed

open Buffers Endian

/-- `uint8_t`. -/
def uint8 : Format := ⟨1, true, 1, by decide, by decide, by decide, by decide⟩

/-- `uint16_t`. -/
def uint16 : Format := ⟨2, true, 2, by decide, by decide, by decide, by decide⟩

/-- `uint64_t`, the type of a `Page_num`. -/
def uint64 : Format := ⟨8, true, 8, by decide, by decide, by decide, by decide⟩

/-- A number that is cut to the width of its type, as a field of a stream. -/
def field (F : Format) (n : Nat) : Field := .integer F (BitVec.ofNat _ n)

/-- A chain of `<<`. -/
def put (fields : List Field) : Stream → Option Stream := Field.writeAll .littleEndian fields

/-- `>>`. -/
def get (F : Format) (s : Stream) : Option (Nat × Stream) :=
  (s.readBytes .littleEndian F).map fun r => (r.1.toNat, r.2)

/-- A difference of two `uint32_t`. -/
def sub32 (m n : Nat) : Nat := (m + 2 ^ 32 - n % 2 ^ 32) % 2 ^ 32

/-- What is done to a stream on `span(buffer.begin() + pos, buffer.end())` is done to the
buffer. -/
def onSpan (buffer : Bytes) (pos : Nat) (f : Stream → Option Stream) : Option Bytes :=
  if pos ≤ buffer.length then
    (f (.start (buffer.drop pos))).map fun s => buffer.take pos ++ s.data
  else none

/-- A stream on `span(buffer.begin() + pos, buffer.end())`. -/
def span (buffer : Bytes) (pos : Nat) : Option Stream :=
  if pos ≤ buffer.length then some (.start (buffer.drop pos)) else none

namespace Node

open NodeSerializer (Slots)

/-- The page number of a child, in front of its item. -/
def writeChild (isLeaf : Bool) (children : List Nat) (i : Nat) (s : Slots) : Option Slots :=
  if isLeaf then some s
  else do
    let child ← children[i]?
    let buffer ← onSpan s.buffer s.left (put [field uint64 child])
    some { s with buffer := buffer, left := (s.left + pageNumSize) % 2 ^ 32 }

/-- The offset of an item and its cell. -/
def writeItem (item : Item) (s : Slots) : Option Slots := do
  let keySize := item.key.length % 2 ^ 8
  let valueSize := item.value.length % 2 ^ 8
  let offset := sub32 (sub32 (sub32 s.right keySize) valueSize) 2
  let buffer ← onSpan s.buffer s.left (put [field uint16 offset])
  let left := (s.left + 2) % 2 ^ 32
  let right := sub32 s.right valueSize
  let buffer ← onSpan buffer right (put [.raw (item.value.take valueSize)])
  let right := sub32 right 1
  let buffer ← write buffer right [UInt8.ofNat valueSize]
  let right := sub32 right keySize
  let buffer ← onSpan buffer right (put [.raw (item.key.take keySize)])
  let right := sub32 right 1
  let buffer ← write buffer right [UInt8.ofNat keySize]
  some ⟨buffer, left, right⟩

/-- The loop of `serialize`. -/
def writeItems (isLeaf : Bool) (children : List Nat) : Nat → List Item → Slots → Option Slots
  | _, [], s => some s
  | i, item :: items, s => do
    let s ← writeChild isLeaf children i s
    let s ← writeItem item s
    writeItems isLeaf children (i + 1) items s

def serialize (items : List Item) (children : List Nat) (bufferSize : Nat) : Option Bytes := do
  let isLeaf := children.isEmpty
  let itemsCount := items.length % 2 ^ 16
  let header ← put [field uint8 (if isLeaf then 1 else 0), field uint16 itemsCount]
    (.start (List.replicate bufferSize 0))
  let s ← writeItems isLeaf children 0 (items.take itemsCount)
    ⟨header.data, headerSize, sub32 bufferSize 1⟩
  if isLeaf then some s.buffer
  else do
    let last ← children.getLast?
    onSpan s.buffer s.left (put [field uint64 last])

/-- A byte with a size and as many bytes, read through a stream on
`span(buffer.begin() + offset, buffer.begin() + offset + size)`. -/
def readSized (buffer : Bytes) (offset : Nat) : Option (Bytes × Nat) := do
  let size ← buffer[offset]?
  let offset := (offset + 1) % 2 ^ 16
  let piece ← read buffer offset size.toNat
  let (data, _) ← (Stream.start piece).readRaw size.toNat
  some (data, (offset + size.toNat) % 2 ^ 16)

def readChild (isLeaf : Bool) (buffer : Bytes) (left : Nat) : Option (List Nat × Nat) :=
  if isLeaf then some ([], left)
  else do
    let s ← span buffer left
    let (pageNum, _) ← get uint64 s
    some ([pageNum], (left + pageNumSize) % 2 ^ 32)

/-- The loop of `deserialize`. -/
def readItems (isLeaf : Bool) (buffer : Bytes) :
    Nat → Nat → Option (List Item × List Nat × Nat)
  | 0, left => some ([], [], left)
  | count + 1, left => do
    let (child, left) ← readChild isLeaf buffer left
    let s ← span buffer left
    let (offset, _) ← get uint16 s
    let left := (left + 2) % 2 ^ 32
    let (key, offset) ← readSized buffer offset
    let (value, _) ← readSized buffer offset
    let (items, children, left) ← readItems isLeaf buffer count left
    some (⟨key, value⟩ :: items, child ++ children, left)

def deserialize (buffer : Bytes) : Option (List Item × List Nat) := do
  let (flag, s) ← get uint8 (.start buffer)
  let (itemsCount, _) ← get uint16 s
  let isLeaf := flag ≠ 0
  let (items, children, left) ← readItems isLeaf buffer itemsCount headerSize
  if isLeaf then some (items, children)
  else do
    let s ← span buffer left
    let (pageNum, _) ← get uint64 s
    some (items, children ++ [pageNum])

end Node

namespace Meta

def serialize (self : Toocal.Meta) : Option Bytes := do
  let s ← put [field uint64 self.root, field uint64 self.freelistPage]
    (.start (List.replicate (8 + 8) 0))
  some s.data

def deserialize (buffer : Bytes) : Option Toocal.Meta := do
  let (root, s) ← get uint64 (.start buffer)
  let (freelistPage, _) ← get uint64 s
  some ⟨root, freelistPage⟩

end Meta

namespace Freelist

def serialize (self : Toocal.Freelist) : Option Bytes := do
  let s ← put (field uint16 self.maxPage :: field uint16 self.releasedPages.length ::
      self.releasedPages.map (field uint64))
    (.start (List.replicate (2 + 2 + 8 * self.releasedPages.length) 0))
  some s.data

def readPages : Nat → Stream → Option (List Nat)
  | 0, _ => some []
  | count + 1, s => do
    let (page, s) ← get uint64 s
    let pages ← readPages count s
    some (page :: pages)

def deserialize (buffer : Bytes) : Option Toocal.Freelist := do
  let (maxPage, s) ← get uint16 (.start buffer)
  let (releasedPagesCount, s) ← get uint16 s
  let releasedPages ← readPages releasedPagesCount s
  some ⟨maxPage, releasedPages⟩

end Freelist

end Toocal.Streamed
