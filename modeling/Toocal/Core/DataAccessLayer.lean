import Toocal.Core.Utils
import Toocal.Library.Binary32
import Toocal.Library.Outcome

/-!
# Pages, nodes and the data access layer

The data of `core/node.h`, `core/freelist.h`, `core/meta.h` and
`core/data_access_layer.h`, and the member functions of `Data_access_layer` that
work on nodes.

A `PageStore` is what `read_page` and `write_page` together with the node codec
come to: `load` reads the node of a page, `save` writes a node to its page.  The
file store of `Core/File.lean` is the one of the source; `Store/Shelf.lean` has an
ideal one.  All code above this line is generic in the store.

`page::Page_num` is `Nat`: page numbers are handed out by counting up, and the
64-bit bound is stated where a page number is written to a page.  Sizes are
`uint32_t`, so sums of them are cut to 32 bits.  A `float` is the rational number it
stands for, and `nearest` is what the source computes with it; there are no
infinities, which a size never reaches, and no NaNs.
-/

namespace Toocal

open Outcomes Multiway Binary32

structure Item where
  key : Bytes
  value : Bytes
  deriving DecidableEq, Repr

/-- A node; the `dal` pointer is the state of the programs below. -/
structure Node where
  pageNum : Nat
  items : List Item
  children : List Nat
  deriving DecidableEq, Repr

/-- `errors::Error`; the text of `strerror(errno)` is the system's. -/
inductive Error where
  | strerror
  | message (text : String)
  deriving DecidableEq, Repr

structure Options where
  pageSize : Nat
  minFillPercent : ℚ
  maxFillPercent : ℚ
  deriving DecidableEq

structure Meta where
  root : Nat
  freelistPage : Nat
  deriving DecidableEq, Repr

/-! ## The freelist -/

structure Freelist where
  maxPage : Nat
  releasedPages : List Nat
  deriving DecidableEq, Repr

/-- Take the last released page; without one, count up. -/
def Freelist.getNextPage (f : Freelist) : Nat × Freelist :=
  match f.releasedPages.getLast? with
  | some back => (back, { f with releasedPages := f.releasedPages.dropLast })
  | none => (f.maxPage + 1, { f with maxPage := f.maxPage + 1 })

def Freelist.releasePage (f : Freelist) (page : Nat) : Freelist :=
  { f with releasedPages := f.releasedPages ++ [page] }

/-- What `get_next_page` does: it takes a released page, or one page more. -/
theorem Freelist.getNextPage_cases (f : Freelist) :
    (∃ page rest, f.releasedPages = rest ++ [page] ∧
      f.getNextPage = (page, { f with releasedPages := rest })) ∨
    (f.releasedPages = [] ∧
      f.getNextPage = (f.maxPage + 1, { f with maxPage := f.maxPage + 1 })) := by
  cases hl : f.releasedPages.getLast? with
  | some back =>
    obtain ⟨rest, hlast⟩ := List.getLast?_eq_some_iff.mp hl
    refine Or.inl ⟨back, rest, hlast, ?_⟩
    rw [getNextPage, hl, hlast, List.dropLast_concat]
  | none =>
    refine Or.inr ⟨List.getLast?_eq_none_iff.mp hl, ?_⟩
    rw [getNextPage, hl]

/-! ## Sizes and thresholds -/

/-- `Item::size`. -/
def Item.size (i : Item) : Nat := (i.key.length + i.value.length) % 2 ^ 32

/-- `sizeof(page::Page_num)`. -/
def pageNumSize : Nat := 8

/-- `Node::HEADER_SIZE`. -/
def headerSize : Nat := 3

/-- `Node::item_size` of the item at a given index. -/
def itemSize (i : Item) : Nat := (i.key.length + i.value.length + pageNumSize) % 2 ^ 32

/-- `Node::size`, which depends on the items only. -/
def nodeSize (items : List Item) : Nat :=
  items.foldl (fun size item => (size + item.size) % 2 ^ 32) (headerSize + pageNumSize)

def Node.isLeaf (n : Node) : Bool := n.children.isEmpty

namespace Options

def maxThreshold (o : Options) : ℚ := nearest (o.maxFillPercent * nearest o.pageSize)

def minThreshold (o : Options) : ℚ := nearest (o.minFillPercent * nearest o.pageSize)

def isUnderPopulated (o : Options) (items : List Item) : Prop :=
  nearest (nodeSize items) < o.minThreshold

def isOverPopulated (o : Options) (items : List Item) : Prop :=
  o.maxThreshold < nearest (nodeSize items)

instance (o : Options) (items) : Decidable (o.isUnderPopulated items) :=
  inferInstanceAs (Decidable (_ < _))

instance (o : Options) (items) : Decidable (o.isOverPopulated items) :=
  inferInstanceAs (Decidable (_ < _))

/-- The loop of `get_split_index`; `size` and `i` are its variables.  The last
item is the one with nothing after it. -/
def getSplitIndexFrom (o : Options) (size i : Nat) : List Item → Option Nat
  | [] => none
  | item :: rest =>
    let size : Nat := (size + itemSize item) % 2 ^ 32
    if o.minThreshold < nearest size ∧ rest ≠ [] then some (i + 1)
    else getSplitIndexFrom o size (i + 1) rest

/-- `get_split_index`, with `none` for its `-1`. -/
def getSplitIndex (o : Options) (items : List Item) : Option Nat :=
  o.getSplitIndexFrom headerSize 0 items

/-- `Node::can_spare_an_element`. -/
def canSpareAnElement (o : Options) (items : List Item) : Bool := (o.getSplitIndex items).isSome

end Options

/-- The system the program runs on: `getpagesize()`, which is between 4 and 64 kilobytes. -/
class System where
  pageSize : Nat
  large : 4096 ≤ pageSize
  small : pageSize ≤ 2 ^ 16

/-- `Page::DEFAULT_PAGE_SIZE`. -/
def defaultPageSize [System] : Nat := System.pageSize

theorem le_defaultPageSize [System] : 4096 ≤ defaultPageSize := System.large

theorem defaultPageSize_le [System] : defaultPageSize ≤ 2 ^ 16 := System.small

theorem le_of_large [System] {n size : Nat} (hn : n ≤ 4096) (hlarge : defaultPageSize ≤ size) :
    n ≤ size := hn.trans (le_defaultPageSize.trans hlarge)

theorem defaultPageSize_pos [System] : 0 < defaultPageSize :=
  Nat.lt_of_lt_of_le (by decide) le_defaultPageSize

namespace Pages4096

/-- A system with pages of 4096 bytes. -/
scoped instance (priority := low) system : System := ⟨4096, Nat.le_refl _, by decide⟩

end Pages4096

namespace BuiltinOptions

variable [System]

/-- `0.0125f` and `0.025f` are the binary fractions nearest to the decimals. -/
def balance : Options := ⟨defaultPageSize, 13421773 / 2 ^ 30, 13421773 / 2 ^ 29⟩

def bestFileSize : Options := ⟨defaultPageSize, 3 / 4, 3 / 4⟩

def bestPerformance : Options := ⟨defaultPageSize, 1 / 8, 1 / 8⟩

end BuiltinOptions

/-! ## Page stores -/

/-- A store of nodes on pages. -/
class PageStore (φ : Type) where
  /-- `read_page` and `Serializer<Node>::deserialize` -/
  load : Options → Nat → Prog Error φ (List Item × List Nat)
  /-- `Serializer<Node>::serialize` and `write_page` -/
  save : Options → Node → Prog Error φ Unit
  /-- how many pages the store has -/
  pageCount : Options → φ → Nat

/-- `Data_access_layer`.  `written` is a ghost: the pages `write_node` has written,
latest first.  No function reads it. -/
structure Dal (φ : Type) where
  options : Options
  file : φ
  metaPage : Meta
  freelist : Freelist
  written : List Nat

namespace Dal

variable {φ : Type} [PageStore φ]

/-- Run a program on the file. -/
def onFile {α : Type} (x : Options → Prog Error φ α) : Prog Error (Dal φ) α := do
  let d ← Prog.get
  Prog.zoom Dal.file (fun f d => { d with file := f }) (x d.options)

def getNode (pageNum : Nat) : Prog Error (Dal φ) Node := do
  let (items, children) ← onFile fun o => PageStore.load o pageNum
  return ⟨pageNum, items, children⟩

def getNextPage : Prog Error (Dal φ) Nat := fun d =>
  let (page, freelist) := d.freelist.getNextPage
  .ok page { d with freelist := freelist }

/-- `write_node`; page number 0 stands for a node that has no page yet.  The node
is handed back with its page number. -/
def writeNode (node : Node) : Prog Error (Dal φ) Node := do
  let pageNum ← if node.pageNum = 0 then getNextPage else Prog.ret node.pageNum
  let node := { node with pageNum := pageNum }
  onFile fun o => PageStore.save o node
  Prog.modify fun d => { d with written := pageNum :: d.written }
  return node

def newNode (items : List Item) (children : List Nat) : Prog Error (Dal φ) Node := do
  let pageNum ← getNextPage
  return ⟨pageNum, items, children⟩

def deleteNode (pageNum : Nat) : Prog Error (Dal φ) Unit :=
  Prog.modify fun d => { d with freelist := d.freelist.releasePage pageNum }

/-- A descent longer than the number of pages comes to a page twice, and then it
never ends: every descent below runs on this much fuel. -/
def fuel (d : Dal φ) : Nat := PageStore.pageCount d.options d.file + 1

end Dal

end Toocal
