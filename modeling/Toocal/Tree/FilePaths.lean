import Toocal.Core.File
import Toocal.Tree.Paths

/-!
# Paths on the file

A tree on the pages of a file need not be one the program has built: its leaves may stand at
different depths, and two of its pages may be one and the same.  As long as the counts are
right (`Regular`) every search ends: a path from the root has each place of the file once,
for a place that came again would come again without end (`Reads.length_frames_lt`).
-/

namespace Toocal

open Outcomes Buffers Multiway Multiway.Tree

/-! ## Where a page is read -/

namespace File

theorem readPage_eq_ok {o : Options} {p : Nat} {f f' : File} {data : Bytes}
    (h : readPage o p f = .ok data f') : f.failed = false ∧
    ∃ pos, offset o p = some pos ∧ read f.bytes pos o.pageSize = some data := by
  rw [readPage, Prog.get_bind] at h
  cases hf : f.failed with
  | true =>
    rw [hf] at h
    cases h
  | false =>
    cases hp : offset o p with
    | none =>
      rw [hf, hp] at h
      cases h
    | some pos =>
      cases hr : read f.bytes pos o.pageSize with
      | none =>
        rw [hf, hp, Option.bind_some, hr] at h
        cases h
      | some data' =>
        rw [hf, hp, Option.bind_some, hr] at h
        obtain ⟨rfl, -⟩ : data' = data ∧ f = f' := by simpa using h
        exact ⟨rfl, pos, rfl, hr⟩

end File

namespace Dal

theorem getNode_eq_ok [System] {d d' : Dal File} {p : Nat} {n : Node} (h : getNode p d = .ok n d') :
    d.file.failed = false ∧ ∃ pos data, File.offset d.options p = some pos ∧
      read d.file.bytes pos d.options.pageSize = some data ∧
      NodeSerializer.deserialize data = some (n.items, n.children) := by
  obtain ⟨a, d₁, hload, hret⟩ := Prog.bind_eq_ok.mp h
  obtain ⟨f, hload, -⟩ := Prog.zoom_eq_ok.mp ((Prog.get_bind _ d).symm.trans hload)
  obtain ⟨data, f₁, hread, hdecode⟩ := Prog.bind_eq_ok.mp hload
  obtain ⟨hdecode, -⟩ := Prog.demand_eq_ok.mp hdecode
  obtain ⟨hsound, pos, hpos, hdata⟩ := File.readPage_eq_ok hread
  obtain ⟨rfl, -⟩ : ⟨p, a.1, a.2⟩ = n ∧ d₁ = d' := by simpa using hret
  exact ⟨hsound, pos, data, hpos, hdata, hdecode⟩

/-- Where the stream looks for a page. -/
def slot (d : Dal File) (p : Nat) : Nat := p * d.options.pageSize % 2 ^ 64

theorem offset_eq_slot {d : Dal File} {p pos : Nat} (h : File.offset d.options p = some pos) :
    pos = d.slot p := by
  rw [File.offset] at h
  split at h
  next => exact (Option.some.inj h).symm
  next => cases h

section Slots

variable {d : Dal File} {t u v : PTree}

theorem Reads.read_slot [System] (h : d.Reads t) : ∃ data,
    read d.file.bytes (d.slot t.tag) d.options.pageSize = some data ∧
      NodeSerializer.deserialize data = some ((nodeOf t).items, (nodeOf t).children) := by
  obtain ⟨-, pos, data, hpos, hdata, hdecode⟩ := getNode_eq_ok h.getNode
  obtain rfl := offset_eq_slot hpos
  exact ⟨data, hdata, hdecode⟩

theorem Reads.slot_lt [System] (h : d.Reads t) : d.slot t.tag < d.file.bytes.length := by
  obtain ⟨data, hdata, hdecode⟩ := h.read_slot
  unfold Buffers.read at hdata
  split at hdata
  next hle =>
    -- an empty page has no flag to read
    have hpos : d.options.pageSize ≠ 0 := by
      intro h0
      rw [h0, List.take_zero] at hdata
      cases hdata
      cases hdecode
    omega
  next => cases hdata

theorem Reads.children_of_slot [System] (hu : d.Reads u) (hv : d.Reads v)
    (h : d.slot u.tag = d.slot v.tag) : u.children = v.children := by
  obtain ⟨data, hdata, hdecode⟩ := hu.read_slot
  obtain ⟨data', hdata', hdecode'⟩ := hv.read_slot
  rw [h, hdata'] at hdata
  cases hdata
  rw [hdecode'] at hdecode
  exact hu.children_eq hv (congrArg Prod.snd (Option.some.inj hdecode)).symm

end Slots

end Dal

/-! ## A path has each page once -/

/-- The trees a path passes, the focus last. -/
def pathTrees : List (Frame Nat Item) → PTree → List PTree
  | [], u => [u]
  | f :: fs, u => f.plug (plugAll fs u) :: pathTrees fs u

theorem length_pathTrees (fs : List (Frame Nat Item)) (u : PTree) :
    (pathTrees fs u).length = fs.length + 1 := by
  induction fs with
  | nil => rfl
  | cons f fs ih => rw [pathTrees, List.length_cons, List.length_cons, ih]

theorem mem_subtrees_of_pathTrees {fs : List (Frame Nat Item)} {u v : PTree}
    (h : v ∈ pathTrees fs u) : v ∈ (plugAll fs u).subtrees := by
  induction fs with
  | nil =>
    obtain rfl : v = u := List.mem_singleton.mp h
    exact mem_subtrees_self v
  | cons f fs ih =>
    rcases List.mem_cons.mp h with rfl | h
    · exact mem_subtrees_self _
    · exact subtrees_child (by simp) (ih h)

namespace Dal

variable {d : Dal File} {fs : List (Frame Nat Item)} {u : PTree}

theorem Reads.nodup_slots [System] (h : d.Reads (plugAll fs u)) :
    ((pathTrees fs u).map fun v => d.slot v.tag).Nodup := by
  induction fs with
  | nil => exact List.nodup_singleton _
  | cons f fs ih =>
    refine List.nodup_cons.mpr ⟨fun hmem => ?_, ih h.tail⟩
    obtain ⟨v, hv, hslot⟩ := List.mem_map.mp hmem
    have hsub := mem_subtrees_of_pathTrees hv
    have hchild : plugAll fs u ∈ (f.plug (plugAll fs u)).children := by simp
    exact children_ne_of_mem_subtrees hchild hsub
      ((h.tail.of_mem hsub).children_of_slot h hslot)

/-- **A path is shorter than the file.** -/
theorem Reads.length_frames_lt [System] (h : d.Reads (plugAll fs u)) : fs.length < d.fuel := by
  have hsub : (pathTrees fs u).map (fun v => d.slot v.tag) ⊆ List.range d.file.bytes.length := by
    intro pos hpos
    obtain ⟨v, hv, rfl⟩ := List.mem_map.mp hpos
    exact List.mem_range.mpr (h.of_mem (mem_subtrees_of_pathTrees hv)).slot_lt
  have hle := (List.subperm_of_subset h.nodup_slots hsub).length_le
  rw [List.length_map, length_pathTrees, List.length_range] at hle
  exact Nat.lt_succ_of_lt hle

end Dal

/-- The path of a search on a tree with the right counts, with fuel for it. -/
theorem Dal.Reads.exists_path [System] {d : Dal File} {t : PTree} (hr : d.Reads t) (hregular : Regular t)
    (key : Bytes) : ∃ x, locate (findKeyInNode key) t = some x ∧ IsPath (findKeyInNode key) t x ∧
      x.frames.length < d.fuel := by
  obtain ⟨x, hloc, hx⟩ := Toocal.exists_path key hregular
  rw [← hx.eq] at hr
  exact ⟨x, hloc, hx, hr.length_frames_lt⟩

/-- **A search on a tree with the right counts ends**, and leaves everything as it was. -/
theorem Collection.find_of_regular [System] {c : Collection File} {t : PTree} (key : Bytes)
    (hr : c.dal.Reads t) (hroot : c.root = t.tag) (hregular : Regular t) :
    ∃ x, IsPath (findKeyInNode key) t x ∧ x.frames.length < c.dal.fuel ∧
      Collection.find key c = .ok (if x.found then x.focus.items[x.index]? else none) c := by
  obtain ⟨x, -, hx, hfuel⟩ := hr.exists_path hregular key
  exact ⟨x, hx, hfuel, Collection.find_of_path hr hroot hx hfuel⟩

end Toocal
