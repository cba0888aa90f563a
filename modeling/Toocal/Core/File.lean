import Toocal.Core.Collection
import Toocal.Core.Serializer

/-!
# The database file

`read_page` and `write_page` of `core/data_access_layer.cpp` on a `std::fstream`, the
page store they make with the node codec, and `initialize_database`, `load_database`
and `close`.

A stream is its bytes and its fail bit.  A read past the end sets the bit; nothing
clears it, and from then on every seek fails.  `std::strerror(errno)` is the system's.
-/

namespace Toocal

open Outcomes Buffers

/-- `std::fstream` on the database file. -/
structure File where
  bytes : Bytes
  failed : Bool
  deriving DecidableEq

namespace File

/-- The offset of a page, a 64-bit product that is cast to `int64_t`; a stream does not
seek to a negative offset. -/
def offset (o : Options) (pageNum : Nat) : Option Nat :=
  let product := pageNum * o.pageSize % 2 ^ 64
  if product < 2 ^ 63 then some product else none

/-- The stream fails, and with it the function. -/
def failure {α : Type} : Prog Error File α := fun f => .error .strerror { f with failed := true }

/-- The bytes of a file after a write at an offset; a gap before it reads as zeros. -/
def put (bytes : Bytes) (pos : Nat) (data : Bytes) : Bytes :=
  let padded := bytes ++ List.replicate (pos - bytes.length) 0
  padded.take pos ++ data ++ padded.drop (pos + data.length)

/-- `write_page` of a page with the given data. -/
def writePage (o : Options) (pageNum : Nat) (data : Bytes) : Prog Error File Unit := do
  let f ← Prog.get
  match f.failed, offset o pageNum with
  | false, some pos => Prog.modify fun f => { f with bytes := put f.bytes pos data }
  | _, _ => failure

/-- `read_page`. -/
def readPage (o : Options) (pageNum : Nat) : Prog Error File Bytes := do
  let f ← Prog.get
  match f.failed, (offset o pageNum).bind fun pos => read f.bytes pos o.pageSize with
  | false, some data => Prog.ret data
  | _, _ => failure

/-- The copy of serialized data into an empty page, which it must fit. -/
def writeData (o : Options) (pageNum : Nat) (data : Bytes) : Prog Error File Unit := do
  Prog.require (data.length ≤ o.pageSize)
  writePage o pageNum (data ++ List.replicate (o.pageSize - data.length) 0)

end File

instance [System] : PageStore File where
  load o pageNum := do
    let data ← File.readPage o pageNum
    Prog.demand (NodeSerializer.deserialize data)
  save o node := do
    let data ← Prog.demand (NodeSerializer.serialize node.items node.children defaultPageSize)
    File.writeData o node.pageNum data
  -- a descent through more pages than there are bytes reads one offset twice
  pageCount _ f := f.bytes.length

namespace Dal

def writeFreelist : Prog Error (Dal File) Unit := do
  let d ← Prog.get
  onFile fun o => File.writeData o d.metaPage.freelistPage (FreelistSerializer.serialize d.freelist)

def writeMeta (self : Meta) : Prog Error (Dal File) Unit :=
  onFile fun o => File.writeData o 0 (MetaSerializer.serialize self)

def readMeta : Prog Error (Dal File) Meta := do
  let data ← onFile fun o => File.readPage o 0
  Prog.demand (MetaSerializer.deserialize data)

def readFreelist : Prog Error (Dal File) Freelist := do
  let d ← Prog.get
  let data ← onFile fun o => File.readPage o d.metaPage.freelistPage
  Prog.demand (FreelistSerializer.deserialize data)

/-- A layer before its constructor has run on a file with the given bytes. -/
def unopened (options : Options) (bytes : Bytes) : Dal File :=
  ⟨options, ⟨bytes, false⟩, ⟨0, 0⟩, ⟨0, []⟩, []⟩

def initializeDatabase [System] : Prog Error (Dal File) Unit := do
  Prog.modify fun d => { d with freelist := ⟨0, []⟩ }
  let freelistPage ← getNextPage
  Prog.modify fun d => { d with metaPage := { d.metaPage with freelistPage := freelistPage },
                                file := ⟨[], false⟩ }
  writeFreelist
  let _ ← writeNode ⟨0, [], []⟩
  let d ← Prog.get
  writeMeta d.metaPage

def loadDatabase : Prog Error (Dal File) Unit := do
  let metaPage ← readMeta
  Prog.modify fun d => { d with metaPage := metaPage }
  let freelist ← readFreelist
  Prog.modify fun d => { d with freelist := freelist }

/-- The constructor where no file exists. -/
def create [System] (options : Options) : Outcome Error (Dal File) Unit :=
  Prog.orPanic initializeDatabase (unopened options [])

/-- The constructor on a file that `close` has left behind. -/
def reopen (options : Options) (bytes : Bytes) : Outcome Error (Dal File) Unit :=
  Prog.orPanic loadDatabase (unopened options bytes)

/-- `close` leaves the bytes of the stream in the file. -/
def close (d : Dal File) : Bytes := d.file.bytes

end Dal

end Toocal
