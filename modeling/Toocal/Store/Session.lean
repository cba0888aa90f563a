import Toocal.Store.Simulation

/-!
# Creating and reopening a database

`create_ok`: where the pages are large enough for a node and the first three of them
have an offset, the constructor makes a layer that mirrors an empty shelf, `begun`.  The
meta page is page 0, the freelist page 1, and page 2 holds a node that belongs to no
collection.

`reopen_ok`: the constructor on a file whose first two pages are those reads this meta
page and this freelist, whatever has become of the others.
-/

namespace Toocal

open Outcomes Buffers

namespace Dal

/-- A layer over an empty shelf after `initialize_database`. -/
def begun {cap : Capacity} (o : Options) : Dal (Shelf cap) :=
  ⟨o, Shelf.empty cap, ⟨0, 1⟩, ⟨2, []⟩, [2]⟩

theorem newNode_next {φ : Type} {d : Dal φ} {n : Nat} (h : d.freelist = ⟨n, []⟩) (items : List Item)
    (children : List Nat) : newNode items children d =
      .ok ⟨n + 1, items, children⟩ ⟨d.options, d.file, d.metaPage, ⟨n + 1, []⟩, d.written⟩ := by
  have hnext : getNextPage d = .ok (n + 1) ⟨d.options, d.file, d.metaPage, ⟨n + 1, []⟩, d.written⟩ := by
    rw [getNextPage, h]
    rfl
  exact Prog.bind_ok hnext

/-- The meta page after `initialize_database`. -/
def firstMeta (o : Options) : Bytes := filled o (MetaSerializer.serialize ⟨0, 1⟩)

/-- The freelist page after `initialize_database`. -/
def firstFreelist (o : Options) : Bytes := filled o (FreelistSerializer.serialize ⟨1, []⟩)

theorem length_serialize_meta (m : Meta) : (MetaSerializer.serialize m).length = 16 := by
  rw [MetaSerializer.serialize, List.length_append, length_toLE, length_toLE]

section Pages

variable {o : Options}

theorem length_firstMeta [System] (hlarge : defaultPageSize ≤ o.pageSize) :
    (firstMeta o).length = o.pageSize := length_filled (by
  rw [length_serialize_meta]
  exact le_of_large (by decide) hlarge)

theorem writeData_ok {p : Nat} {data : Bytes} {f : File} (hf : f.failed = false)
    (hlen : data.length ≤ o.pageSize) (hp : p * o.pageSize < 2 ^ 63) :
    File.writeData o p data f =
      .ok () { f with bytes := File.put f.bytes (p * o.pageSize) (filled o data) } := by
  rw [writeData_eq hlen]
  exact File.writePage_ok _ hf hp

end Pages

/-! ## The constructor on a new file -/

section Create

variable {o : Options}

/-- **A database is created** where a page has room for a node and the first three pages
have an offset. -/
theorem create_ok [System] (hlarge : defaultPageSize ≤ o.pageSize) (hlimit : 2 * o.pageSize < 2 ^ 63) :
    ∃ d, create o = .ok () d ∧ @Mirrors o.pageSize _ d.file.bytes d (begun o) ∧
      d.file.bytes.length = 3 * o.pageSize ∧
      Has d.file.bytes (0 * o.pageSize) (firstMeta o) ∧
      Has d.file.bytes (1 * o.pageSize) (firstFreelist o) := by
  obtain ⟨data, -, hser, hdata, -⟩ := NodeSerializer.serialize_ok defaultPageSize_le
    (show PageRoom [] ([] : List Nat).length from
      ⟨Or.inl rfl, by simp, le_trans (by decide) (Nat.sub_le_sub_right le_defaultPageSize 1)⟩)
  have hlen : data.length ≤ o.pageSize := hdata.symm ▸ hlarge
  have hlen₁ : (FreelistSerializer.serialize ⟨1, []⟩).length ≤ o.pageSize :=
    le_of_large (by decide) hlarge
  have hlen₀ : (MetaSerializer.serialize ⟨0, 1⟩).length ≤ o.pageSize := by
    rw [length_serialize_meta]
    exact le_of_large (by decide) hlarge
  have hp₁ : 1 * o.pageSize < 2 ^ 63 := by omega
  have hp₀ : 0 * o.pageSize < 2 ^ 63 := by omega
  have hsize : (firstFreelist o).length = o.pageSize := length_filled hlen₁
  have hsize₀ : (firstMeta o).length = o.pageSize := length_filled hlen₀
  -- the three pages, in the order they are written
  set f₁ : File := ⟨File.put [] (1 * o.pageSize) (firstFreelist o), false⟩ with hf₁
  set f₂ : File := ⟨File.put f₁.bytes (2 * o.pageSize) (filled o data), false⟩ with hf₂
  set f₃ : File := ⟨File.put f₂.bytes (0 * o.pageSize) (firstMeta o), false⟩ with hf₃
  have h₁ : writeFreelist ⟨o, ⟨[], false⟩, ⟨0, 1⟩, ⟨1, []⟩, []⟩ =
      .ok () ⟨o, f₁, ⟨0, 1⟩, ⟨1, []⟩, []⟩ :=
    (Prog.get_bind _ _).trans (Dal.onFile_ok
      (x := fun o => File.writeData o 1 (FreelistSerializer.serialize ⟨1, []⟩))
      (writeData_ok rfl hlen₁ hp₁))
  have h₂ : writeNode ⟨0, [], []⟩ ⟨o, f₁, ⟨0, 1⟩, ⟨1, []⟩, []⟩ =
      .ok ⟨2, [], []⟩ ⟨o, f₂, ⟨0, 1⟩, ⟨2, []⟩, [2]⟩ := by
    have hsave : PageStore.save o ⟨2, [], []⟩ f₁ = .ok () f₂ := by
      rw [save_large hlarge (by exact hser)]
      exact File.writePage_ok _ rfl hlimit
    exact writeNode_ok_of_save (d := ⟨o, f₁, ⟨0, 1⟩, ⟨1, []⟩, []⟩) hsave
  have h₃ : writeMeta ⟨0, 1⟩ ⟨o, f₂, ⟨0, 1⟩, ⟨2, []⟩, [2]⟩ =
      .ok () ⟨o, f₃, ⟨0, 1⟩, ⟨2, []⟩, [2]⟩ :=
    Dal.onFile_ok (x := fun o => File.writeData o 0 (MetaSerializer.serialize ⟨0, 1⟩))
      (writeData_ok rfl hlen₀ hp₀)
  have hrun : initializeDatabase (unopened o []) = .ok () ⟨o, f₃, ⟨0, 1⟩, ⟨2, []⟩, [2]⟩ :=
    (Prog.bind_ok h₁).trans ((Prog.bind_ok h₂).trans h₃)
  refine ⟨_, Prog.orPanic_ok hrun, ⟨rfl, rfl, hlarge, rfl, rfl, rfl, rfl, Nat.zero_le _, ?_, ?_,
      fun _ hle _ => hle⟩, ?_, File.has_put _ _ _, ?_⟩
  · intro p c hp
    cases hp
  · exact fun p _ data' _ h => h
  · simp only [hf₃, hf₂, hf₁, File.length_put, hsize, hsize₀, length_filled hlen, List.length_nil]
    omega
  · -- the freelist page is left alone by the two writes after it
    refine File.has_put_of_has (File.has_put_of_has (File.has_put _ _ _) ?_) ?_
    · rw [hsize]
      omega
    · rw [hsize, hsize₀]
      omega

/-- **Where a page has no room for a node, no database is created.** -/
theorem large_of_create [System] {d : Dal File} (hwidth : o.pageSize < 2 ^ 32) (h : create o = .ok () d) :
    defaultPageSize ≤ o.pageSize := by
  by_contra hsmall
  have hd₁ : initializeDatabase (unopened o []) = .stop .undefined := by
    by_cases hfour : (FreelistSerializer.serialize ⟨1, []⟩).length ≤ o.pageSize
    · -- the node page does not take the data of a node
      have hp₁ : 1 * o.pageSize < 2 ^ 63 := by omega
      have h₁ : writeFreelist ⟨o, ⟨[], false⟩, ⟨0, 1⟩, ⟨1, []⟩, []⟩ =
          .ok () ⟨o, _, ⟨0, 1⟩, ⟨1, []⟩, []⟩ :=
        (Prog.get_bind _ _).trans (Dal.onFile_ok
          (x := fun o => File.writeData o 1 (FreelistSerializer.serialize ⟨1, []⟩))
          (writeData_ok rfl hfour hp₁))
      refine (Prog.bind_ok h₁).trans (Prog.bind_stop ?_)
      exact writeNode_stop_of_save (save_small (Nat.lt_of_not_le hsmall))
    · -- nor does the freelist page take the freelist
      have hfreelist : writeFreelist ⟨o, ⟨[], false⟩, ⟨0, 1⟩, ⟨1, []⟩, []⟩ = .stop .undefined := by
        rw [writeFreelist, Prog.get_bind]
        exact onFile_stop (writeData_undefined (Nat.lt_of_not_le hfour))
      exact Prog.bind_stop (x := writeFreelist) hfreelist
  rw [create, Prog.orPanic_stop hd₁] at h
  cases h

theorem of_create [System] {d : Dal File} (hwidth : o.pageSize < 2 ^ 32) (h : create o = .ok () d) :
    @Mirrors o.pageSize _ d.file.bytes d (begun o) ∧ d.file.bytes.length = 3 * o.pageSize ∧
      Has d.file.bytes (0 * o.pageSize) (firstMeta o) ∧
      Has d.file.bytes (1 * o.pageSize) (firstFreelist o) := by
  obtain ⟨d', hd', hspec⟩ := create_ok (large_of_create hwidth h) (by omega)
  obtain rfl : d' = d := by
    rw [hd'] at h
    injection h
  exact hspec

end Create

/-! ## The constructor on a file that is there -/

section Reopen

variable {o : Options} {bytes : Bytes}

theorem deserialize_firstMeta : MetaSerializer.deserialize (firstMeta o) = some ⟨0, 1⟩ := by
  obtain ⟨hroot, hpage⟩ := has_append.mp (has_filled o (MetaSerializer.serialize ⟨0, 1⟩))
  have h₁ := hroot.read (hroot.le (by simp [toLE]))
  have h₂ := hpage.read (hpage.le (by simp [toLE]))
  simp only [length_toLE, Nat.zero_add] at h₁ h₂
  simp only [MetaSerializer.deserialize, firstMeta, h₁, h₂, Option.bind_eq_bind, Option.bind_some]
  rfl

theorem deserialize_firstFreelist (hlarge : 4 ≤ o.pageSize) :
    FreelistSerializer.deserialize (firstFreelist o) = some ⟨1, []⟩ := by
  have hlen : (FreelistSerializer.serialize ⟨1, []⟩).length ≤ o.pageSize := hlarge
  refine FreelistSerializer.deserialize_serialize (f := ⟨1, []⟩) (by simp) ?_ (has_filled o _)
  rw [firstFreelist, length_filled hlen]
  exact hlen

/-- What `load_database` makes of a file with the first two pages of a new one. -/
def reopened (o : Options) (bytes : Bytes) : Dal File := ⟨o, ⟨bytes, false⟩, ⟨0, 1⟩, ⟨1, []⟩, []⟩

/-- **A file with the first two pages of a new database is opened as if nothing had been
done since.** -/
theorem reopen_ok [System] (hlarge : defaultPageSize ≤ o.pageSize) (hwidth : o.pageSize < 2 ^ 32)
    (hmeta : Has bytes (0 * o.pageSize) (firstMeta o))
    (hfreelist : Has bytes (1 * o.pageSize) (firstFreelist o)) :
    reopen o bytes = .ok () (reopened o bytes) := by
  have hpos : 0 < o.pageSize := Nat.lt_of_lt_of_le defaultPageSize_pos hlarge
  have hlen₀ : (firstMeta o).length = o.pageSize := length_firstMeta hlarge
  have hlen₁ : (firstFreelist o).length = o.pageSize :=
    length_filled (le_of_large (by decide) hlarge)
  have hp₀ : 0 * o.pageSize < 2 ^ 63 := by omega
  have hp₁ : 1 * o.pageSize < 2 ^ 63 := by omega
  have h₀ : onFile (fun o => File.readPage o 0) (unopened o bytes) =
      .ok (firstMeta o) (unopened o bytes) :=
    Dal.onFile_ok (x := fun o => File.readPage o 0)
      (File.readPage_ok rfl hp₀ hmeta hlen₀ hpos)
  have h₁ : onFile (fun o => File.readPage o 1) ⟨o, ⟨bytes, false⟩, ⟨0, 1⟩, ⟨0, []⟩, []⟩ =
      .ok (firstFreelist o) ⟨o, ⟨bytes, false⟩, ⟨0, 1⟩, ⟨0, []⟩, []⟩ :=
    Dal.onFile_ok (x := fun o => File.readPage o 1)
      (File.readPage_ok rfl hp₁ hfreelist hlen₁ hpos)
  have hreadMeta : readMeta (unopened o bytes) = .ok ⟨0, 1⟩ (unopened o bytes) := by
    rw [readMeta, Prog.bind_ok h₀, deserialize_firstMeta]
    rfl
  have hreadFreelist : readFreelist ⟨o, ⟨bytes, false⟩, ⟨0, 1⟩, ⟨0, []⟩, []⟩ =
      .ok ⟨1, []⟩ ⟨o, ⟨bytes, false⟩, ⟨0, 1⟩, ⟨0, []⟩, []⟩ := by
    rw [readFreelist, Prog.get_bind, Prog.bind_ok h₁,
      deserialize_firstFreelist (le_of_large (by decide) hlarge)]
    rfl
  apply Prog.orPanic_ok
  rw [loadDatabase, Prog.bind_ok hreadMeta, Prog.modify_bind]
  exact Prog.bind_ok hreadFreelist

end Reopen

end Dal

end Toocal
