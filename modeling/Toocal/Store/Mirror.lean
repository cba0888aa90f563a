import Toocal.Store.PageCodec

/-!
# The file does what the shelf does

`Mirrors base d e` says that the layer `d` on a file and the layer `e` on a shelf of pages
have the same data, and that every node on the shelf is read from the file.  A node that
fits is read back after it is written, and other pages are left alone: `sim_getNode` and
`sim_writeNode`.  The pages that `write_node` has never written are those of the bytes
`base`.
-/

namespace Toocal

open Outcomes Buffers

/-! ## Pages of the file -/

namespace File

theorem length_put (bytes : Bytes) (pos : Nat) (data : Bytes) :
    (put bytes pos data).length = max bytes.length (pos + data.length) := by
  simp only [put, List.length_append, List.length_take, List.length_drop, List.length_replicate]
  omega

theorem getElem?_put (bytes : Bytes) (pos : Nat) (data : Bytes) (i : Nat) :
    (put bytes pos data)[i]? = if pos ≤ i ∧ i < pos + data.length then data[i - pos]?
      else (bytes ++ List.replicate (pos - bytes.length) 0)[i]? := by
  set padded := bytes ++ List.replicate (pos - bytes.length) 0 with hp
  have hlen : padded.length = max bytes.length pos := by
    rw [hp, List.length_append, List.length_replicate]
    omega
  have htake : (padded.take pos).length = pos := by rw [List.length_take]; omega
  rw [put, ← hp, List.getElem?_append, List.getElem?_append, List.length_append, htake]
  split
  next h1 =>
    split
    next h2 => rw [if_neg (by omega), List.getElem?_take, if_pos h2]
    next h2 => rw [if_pos (by omega)]
  next h1 =>
    rw [if_neg (by omega), List.getElem?_drop]
    congr 1
    omega

theorem has_put (bytes : Bytes) (pos : Nat) (data : Bytes) : Has (put bytes pos data) pos data := by
  intro i hi
  rw [getElem?_put, if_pos (by omega)]
  congr 1
  omega

theorem has_put_of_has {bytes data data' : Bytes} {pos pos' : Nat} (h : Has bytes pos' data')
    (hd : pos' + data'.length ≤ pos ∨ pos + data.length ≤ pos') :
    Has (put bytes pos data) pos' data' := by
  intro i hi
  rw [getElem?_put, if_neg (by omega)]
  exact (h.append_right _) i hi

theorem offset_eq {o : Options} {p : Nat} (hp : p * o.pageSize < 2 ^ 63) :
    offset o p = some (p * o.pageSize) := by
  rw [offset, Nat.mod_eq_of_lt (by omega), if_pos hp]

theorem readPage_at {o : Options} {p pos : Nat} {data : Bytes} {f : File} (hf : f.failed = false)
    (hoff : offset o p = some pos) (h : Has f.bytes pos data) (hlen : data.length = o.pageSize)
    (hpos : 0 < o.pageSize) : readPage o p f = .ok data f := by
  have hle := h.le (by
    rintro rfl
    exact Nat.ne_of_lt hpos hlen)
  have hread := h.read hle
  rw [hlen] at hread
  rw [readPage, Prog.get_bind, hf, hoff, Option.bind_some, hread]
  rfl

theorem readPage_ok {o : Options} {p : Nat} {data : Bytes} {f : File} (hf : f.failed = false)
    (hp : p * o.pageSize < 2 ^ 63) (h : Has f.bytes (p * o.pageSize) data)
    (hlen : data.length = o.pageSize) (hpos : 0 < o.pageSize) : readPage o p f = .ok data f :=
  readPage_at hf (offset_eq hp) h hlen hpos

theorem writePage_at {o : Options} {p pos : Nat} (data : Bytes) {f : File} (hf : f.failed = false)
    (hoff : offset o p = some pos) :
    writePage o p data f = .ok () { f with bytes := put f.bytes pos data } := by
  obtain ⟨bytes, failed⟩ := f
  obtain rfl : failed = false := hf
  rw [writePage, Prog.get_bind, hoff]
  rfl

theorem writePage_ok {o : Options} {p : Nat} (data : Bytes) {f : File} (hf : f.failed = false)
    (hp : p * o.pageSize < 2 ^ 63) :
    writePage o p data f = .ok () { f with bytes := put f.bytes (p * o.pageSize) data } :=
  writePage_at data hf (offset_eq hp)

theorem readPage_cases (o : Options) (p : Nat) (f : File) :
    (∃ data, readPage o p f = .ok data f) ∨
      readPage o p f = .error .strerror { f with failed := true } := by
  rw [readPage, Prog.get_bind]
  cases (offset o p).bind fun pos => read f.bytes pos o.pageSize with
  | none =>
    cases f.failed with
    | true => exact Or.inr rfl
    | false => exact Or.inr rfl
  | some data =>
    cases f.failed with
    | true => exact Or.inr rfl
    | false => exact Or.inl ⟨data, rfl⟩

/-- A failed stream or a page without an offset: the write ends in an error. -/
theorem writePage_error {o : Options} {p : Nat} (data : Bytes) {f : File}
    (h : f.failed = true ∨ offset o p = none) :
    writePage o p data f = .error .strerror { f with failed := true } := by
  rw [writePage, Prog.get_bind]
  rcases h with h | h
  · rw [h]
    rfl
  · rw [h]
    cases f.failed <;> rfl

end File

namespace Dal

section Reading

variable {d : Dal File} {p : Nat} {data : Bytes}

theorem getNode_ok_of_read [System] {c : List Item × List Nat}
    (h : File.readPage d.options p d.file = .ok data d.file)
    (hc : NodeSerializer.deserialize data = some c) : getNode p d = .ok ⟨p, c.1, c.2⟩ d := by
  refine getNode_ok_of_load ((Prog.bind_ok h).trans ?_)
  rw [hc]
  rfl

theorem getNode_stop_of_read [System] (h : File.readPage d.options p d.file = .ok data d.file)
    (hc : NodeSerializer.deserialize data = none) : getNode p d = .stop .undefined := by
  refine getNode_stop_of_load ((Prog.bind_ok h).trans ?_)
  rw [hc]
  rfl

theorem getNode_error_of_read [System] {e : Error} {f : File}
    (h : File.readPage d.options p d.file = .error e f) :
    getNode p d = .error e { d with file := f } := getNode_error_of_load (Prog.bind_error h)

/-- What `get_node` answers is decided by what is read from the stream. -/
theorem answer_getNode_congr [System] {d' : Dal File} {q : Nat} (ho : d'.options = d.options)
    (hfailed : d'.file.failed = d.file.failed)
    (hread : ∀ pos, File.offset d.options q = some pos →
      read d'.file.bytes pos d.options.pageSize = read d.file.bytes pos d.options.pageSize) :
    (getNode q d').answer = (getNode q d).answer := by
  have hpage : (File.readPage d.options q d'.file).answer =
      (File.readPage d.options q d.file).answer := by
    rw [File.readPage, Prog.get_bind, Prog.get_bind, hfailed]
    cases hoff : File.offset d.options q with
    | none => cases d.file.failed <;> rfl
    | some pos =>
      rw [Option.bind_some, Option.bind_some, hread pos hoff]
      cases d.file.failed <;> cases read d.file.bytes pos d.options.pageSize <;> rfl
  rcases File.readPage_cases d.options q d.file with ⟨data, h⟩ | h
  · rcases File.readPage_cases d.options q d'.file with ⟨data', h'⟩ | h'
    · rw [h, h'] at hpage
      obtain rfl : data' = data := by simpa using hpage
      have h'' : File.readPage d'.options q d'.file = .ok data' d'.file := ho ▸ h'
      cases hdecode : NodeSerializer.deserialize data' with
      | none => rw [getNode_stop_of_read h hdecode, getNode_stop_of_read h'' hdecode]
      | some c => rw [getNode_ok_of_read h hdecode, getNode_ok_of_read h'' hdecode]; rfl
    · rw [h, h'] at hpage
      cases hpage
  · rcases File.readPage_cases d.options q d'.file with ⟨data', h'⟩ | h'
    · rw [h, h'] at hpage
      cases hpage
    · rw [getNode_error_of_read h, getNode_error_of_read (d := d') (ho ▸ h')]
      rfl

theorem within_of_answer [System] (d' : Dal File) (hd : d.file.failed = false)
    (hd' : d'.file.failed = false) (ho : d'.options = d.options) (hp : p * d.options.pageSize < 2 ^ 63)
    (h : ∀ q, q + 1 = p → (getNode q d').answer = (getNode q d).answer)
    (hle : p * d.options.pageSize ≤ d'.file.bytes.length) :
    p * d.options.pageSize ≤ d.file.bytes.length := by
  cases p with
  | zero => rw [Nat.zero_mul]; exact Nat.zero_le _
  | succ q =>
    specialize h q rfl
    rw [Nat.succ_mul] at hp hle ⊢
    have hq : q * d.options.pageSize < 2 ^ 63 := by omega
    by_contra hout
    have hread : File.readPage d.options q d.file = .error .strerror { d.file with failed := true } := by
      rw [File.readPage, Prog.get_bind, hd, File.offset_eq hq, Option.bind_some, Buffers.read,
        if_neg hout]
      rfl
    have hread' : File.readPage d'.options q d'.file =
        .ok ((d'.file.bytes.drop (q * d.options.pageSize)).take d.options.pageSize) d'.file := by
      rw [File.readPage, Prog.get_bind, hd', ho, File.offset_eq hq, Option.bind_some, Buffers.read,
        if_pos hle]
      rfl
    rw [getNode_error_of_read hread] at h
    cases hdecode : NodeSerializer.deserialize
        ((d'.file.bytes.drop (q * d.options.pageSize)).take d.options.pageSize) with
    | none => cases (congrArg Outcome.answer (getNode_stop_of_read hread' hdecode)).symm.trans h
    | some c => cases (congrArg Outcome.answer (getNode_ok_of_read hread' hdecode)).symm.trans h

end Reading

/-! ## The data of a page -/

/-- The data of a page, filled up with zeros. -/
def filled (o : Options) (data : Bytes) : Bytes :=
  data ++ List.replicate (o.pageSize - data.length) 0

theorem length_filled {o : Options} {data : Bytes} (h : data.length ≤ o.pageSize) :
    (filled o data).length = o.pageSize := by
  rw [filled, List.length_append, List.length_replicate]
  omega

theorem has_filled (o : Options) (data : Bytes) : Has (filled o data) 0 data := by
  intro i hi
  rw [filled, List.getElem?_append_left (by omega), Nat.zero_add]

section Copy

variable {o : Options} {p : Nat} {n : Node} {data : Bytes} {f : File}

theorem writeData_eq (h : data.length ≤ o.pageSize) :
    File.writeData o p data f = File.writePage o p (filled o data) f := by
  rw [File.writeData, Prog.require_bind h]
  rfl

theorem writeData_undefined (h : o.pageSize < data.length) :
    File.writeData o p data f = .stop .undefined := by
  rw [File.writeData, Prog.require, if_neg (by omega)]
  rfl

theorem save_none [System] (h : NodeSerializer.serialize n.items n.children defaultPageSize = none) :
    PageStore.save o n f = .stop .undefined := by
  refine Prog.bind_stop ?_
  rw [h]
  rfl

theorem save_some [System] (h : NodeSerializer.serialize n.items n.children defaultPageSize = some data) :
    PageStore.save o n f = File.writeData o n.pageNum data f := by
  have hdata : (Prog.demand (NodeSerializer.serialize n.items n.children defaultPageSize) :
      Prog Error File Bytes) f = .ok data f := by
    rw [h]
    rfl
  exact Prog.bind_ok hdata

theorem save_small [System] (hsmall : o.pageSize < defaultPageSize) :
    PageStore.save o n f = .stop .undefined := by
  cases hser : NodeSerializer.serialize n.items n.children defaultPageSize with
  | none => exact save_none hser
  | some data =>
    rw [save_some hser]
    exact writeData_undefined (NodeSerializer.length_of_serialize hser ▸ hsmall)

theorem save_large [System] (hlarge : defaultPageSize ≤ o.pageSize)
    (h : NodeSerializer.serialize n.items n.children defaultPageSize = some data) :
    PageStore.save o n f = File.writePage o n.pageNum (filled o data) f := by
  rw [save_some h]
  exact writeData_eq (NodeSerializer.length_of_serialize h ▸ hlarge)

theorem save_sound [System] {pos : Nat} (hsound : f.failed = false)
    (hpos : File.offset o n.pageNum = some pos) : PageStore.save o n f = .stop .undefined ∨
      ∃ data, NodeSerializer.serialize n.items n.children defaultPageSize = some data ∧
        data.length ≤ o.pageSize ∧
        PageStore.save o n f = .ok () { f with bytes := File.put f.bytes pos (filled o data) } := by
  cases hser : NodeSerializer.serialize n.items n.children defaultPageSize with
  | none => exact Or.inl (save_none hser)
  | some data =>
    rw [save_some hser]
    by_cases hle : data.length ≤ o.pageSize
    · rw [writeData_eq hle]
      exact Or.inr ⟨data, rfl, hle, File.writePage_at _ hsound hpos⟩
    · exact Or.inl (writeData_undefined (Nat.lt_of_not_le hle))

theorem save_eq_ok [System] {f' : File} (h : PageStore.save o n f = .ok () f') :
    f.failed = false ∧ ∃ data pos,
      NodeSerializer.serialize n.items n.children defaultPageSize = some data ∧
      data.length ≤ o.pageSize ∧ File.offset o n.pageNum = some pos ∧
      f' = { f with bytes := File.put f.bytes pos (filled o data) } := by
  by_cases hbad : f.failed = true ∨ File.offset o n.pageNum = none
  · cases hser : NodeSerializer.serialize n.items n.children defaultPageSize with
    | none =>
      rw [save_none hser] at h
      cases h
    | some data =>
      rw [save_some hser] at h
      by_cases hle : data.length ≤ o.pageSize
      · rw [writeData_eq hle, File.writePage_error _ hbad] at h
        cases h
      · rw [writeData_undefined (Nat.lt_of_not_le hle)] at h
        cases h
  · rw [not_or, Bool.not_eq_true, ← ne_eq, Option.ne_none_iff_exists'] at hbad
    obtain ⟨hsound, pos, hpos⟩ := hbad
    rcases save_sound hsound hpos with hstop | ⟨data, hser, hle, hok⟩
    · rw [hstop] at h
      cases h
    · rw [hok] at h
      exact ⟨hsound, data, pos, hser, hle, hpos, (Outcome.ok.inj h).2.symm⟩

end Copy

theorem writeNode_overflows [System] {d : Dal File} {n : Node} (hshort : ∀ item ∈ n.items, item.Short)
    (hcount : n.items.length < 2 ^ 16) (hsize : defaultPageSize - 1 < cellsSize n.items) :
    writeNode n d = .stop .undefined :=
  writeNode_stop_of_save (save_none (NodeSerializer.serialize_overflows hshort hcount hsize))

end Dal

theorem pages_apart {p q n : Nat} (h : p ≠ q) : p * n + n ≤ q * n ∨ q * n + n ≤ p * n := by
  rw [← Nat.succ_mul, ← Nat.succ_mul]
  rcases Nat.lt_or_gt_of_ne h with h | h
  · exact Or.inl (Nat.mul_le_mul_right n h)
  · exact Or.inr (Nat.mul_le_mul_right n h)

variable {pageSize : Nat} {base : Bytes}

/-- **The file and the shelf agree.** -/
structure Mirrors [System] (base : Bytes) (d : Dal File) (e : Dal (Shelf (Capacity.page pageSize))) :
    Prop where
  options : d.options = e.options
  size : d.options.pageSize = pageSize
  large : defaultPageSize ≤ pageSize
  metaPage : d.metaPage = e.metaPage
  freelist : d.freelist = e.freelist
  written : d.written = e.written
  sound : d.file.failed = false
  count : e.file.pages.length ≤ d.file.bytes.length
  page : ∀ p c, e.at? p = some c → ∃ data, data.length = pageSize ∧
    Has d.file.bytes (p * pageSize) data ∧ NodeSerializer.deserialize data = some c
  rest : ∀ p ∉ d.written, ∀ data : Bytes, data.length = pageSize →
    Has base (p * pageSize) data → Has d.file.bytes (p * pageSize) data
  length_le : ∀ n, base.length ≤ n → (∀ p ∈ d.written, p * pageSize + pageSize ≤ n) →
    d.file.bytes.length ≤ n

namespace Mirrors

variable [System] {d : Dal File} {e : Dal (Shelf (Capacity.page pageSize))}

theorem fuel_le (h : Mirrors base d e) : e.fuel ≤ d.fuel := Nat.succ_le_succ h.count

theorem load {p : Nat} {c : List Item × List Nat} (h : Mirrors base d e) (hp : e.at? p = some c) :
    PageStore.load d.options p d.file = .ok c d.file := by
  obtain ⟨data, hlen, hhas, hdec⟩ := h.page p c hp
  obtain ⟨hoff, -⟩ := names_page.mp ((Dal.fits_of_at? hp).2 p List.mem_cons_self)
  have hpos : 0 < pageSize := Nat.lt_of_lt_of_le defaultPageSize_pos h.large
  rw [← h.size] at hoff hhas hlen hpos
  have hread := File.readPage_ok h.sound hoff hhas hlen hpos
  refine (Prog.bind_ok hread).trans ?_
  rw [hdec]
  rfl

theorem getNode_ok {p : Nat} {c : List Item × List Nat} (h : Mirrors base d e) (hp : e.at? p = some c) :
    Dal.getNode p d = .ok ⟨p, c.1, c.2⟩ d := Dal.getNode_ok_of_load (h.load hp)

theorem store {n : Node} (h : Mirrors base d e) (hfit : (Capacity.page pageSize).Fits n) :
    ∃ f, PageStore.save d.options n d.file = .ok () f ∧
      Mirrors base { d with file := f, written := n.pageNum :: d.written } (e.store n hfit) := by
  have hroom := hfit.1
  have hnames := hfit.2
  obtain ⟨data, hser, hlen, hdec⟩ := NodeSerializer.deserialize_serialize defaultPageSize_le (room_page.mp hroom)
    fun c hc => (names_page.mp (hnames c (List.mem_cons_of_mem _ hc))).2
  obtain ⟨hoff, -⟩ := names_page.mp (hnames n.pageNum List.mem_cons_self)
  have hlarge := h.large
  have hlarge' : defaultPageSize ≤ d.options.pageSize := h.size.symm ▸ hlarge
  set page := Dal.filled d.options data with hpage
  have hpagelen : page.length = pageSize :=
    (Dal.length_filled (hlen.symm ▸ hlarge')).trans h.size
  have hwrite := File.writePage_ok (o := d.options) (p := n.pageNum) page h.sound
    (by rw [h.size]; exact hoff)
  refine ⟨{ d.file with bytes := File.put d.file.bytes (n.pageNum * d.options.pageSize) page }, ?_,
    ⟨h.options, h.size, h.large, h.metaPage, h.freelist, congrArg (n.pageNum :: ·) h.written,
      h.sound, ?_, ?_, ?_, ?_⟩⟩
  · rw [Dal.save_large hlarge' hser]
    exact hwrite
  · have hpos : 0 < pageSize := Nat.lt_of_lt_of_le defaultPageSize_pos hlarge
    have hcount := h.count
    have hmul : n.pageNum ≤ n.pageNum * pageSize := Nat.le_mul_of_pos_right _ hpos
    simp only [Dal.store, File.length_put, hpagelen, h.size, Shelf.set, List.length_set, Shelf.extend,
      List.length_append, List.length_replicate]
    omega
  · intro p c hp
    have hp' : (if p = n.pageNum then some (n.items, n.children) else e.at? p) = some c :=
      (Shelf.lookup_set e.file n hfit p).symm.trans hp
    split at hp'
    next heq =>
      cases hp'
      rw [heq]
      refine ⟨page, hpagelen, ?_, hdec _⟩
      exact h.size ▸ File.has_put d.file.bytes (n.pageNum * d.options.pageSize) page
    next hne =>
      obtain ⟨data', hlen', hhas, hdec'⟩ := h.page p c hp'
      refine ⟨data', hlen', File.has_put_of_has hhas ?_, hdec'⟩
      rw [hlen', hpagelen, h.size]
      exact pages_apart hne
  · intro p hp data' hlen' hhas
    have hne : p ≠ n.pageNum := fun he => hp (he ▸ List.mem_cons_self)
    refine File.has_put_of_has (h.rest p (fun hm => hp (List.mem_cons_of_mem _ hm)) data' hlen' hhas) ?_
    rw [hlen', hpagelen, h.size]
    exact pages_apart hne
  · intro k hbase hwritten
    have hold := h.length_le k hbase fun p hp => hwritten p (List.mem_cons_of_mem _ hp)
    rw [File.length_put, hpagelen, h.size]
    exact Nat.max_le.mpr ⟨hold, hwritten _ List.mem_cons_self⟩

end Mirrors

/-! ## The functions of the data access layer -/

namespace Dal

section Stores

variable {φ : Type} [PageStore φ] {cap : Capacity} {R : Dal φ → Dal (Shelf cap) → Prop}

/-- Where a store loads what is on the shelf, `get_node` does. -/
theorem sim_getNode_of (hload : ∀ {d e p c}, R d e → e.at? p = some c →
      PageStore.load d.options p d.file = .ok c d.file) (p : Nat) :
    Sim R (getNode p) (getNode p) := by
  intro d e h
  cases hp : e.at? p with
  | some c =>
    rw [getNode_ok_of_load (hload h hp), Dal.getNode_ok hp]
    exact .ok h
  | none =>
    have hl : PageStore.load e.options p e.file = .stop .outside := by
      simp only [PageStore.load]
      rw [show e.file.lookup p = none from hp]
    rw [getNode_stop_of_load hl]
    exact .outside

/-- Where a store saves every node that fits the shelf, `write_node` does. -/
theorem sim_writeNode_of (hnext : Sim R getNextPage getNextPage)
    (hsave : ∀ {d e n} (hfit : cap.Fits n), R d e → ∃ f,
      PageStore.save d.options n d.file = .ok () f ∧
        R { d with file := f, written := n.pageNum :: d.written } (e.store n hfit)) (n : Node) :
    Sim R (writeNode n) (writeNode n) := by
  -- once the page number is known
  have htail : ∀ pageNum : Nat, Sim R
      (do
        onFile fun o => PageStore.save o { n with pageNum := pageNum }
        Prog.modify fun d => { d with written := pageNum :: d.written }
        return { n with pageNum := pageNum })
      (do
        onFile fun o => PageStore.save o { n with pageNum := pageNum }
        Prog.modify fun d => { d with written := pageNum :: d.written }
        return { n with pageNum := pageNum }) := by
    intro pageNum d e h
    by_cases hfit : cap.Fits { n with pageNum := pageNum }
    · obtain ⟨f, hf, hm⟩ := hsave hfit h
      have hs : PageStore.save e.options { n with pageNum := pageNum } e.file =
          .ok () (e.file.set _ hfit) := by simp only [PageStore.save, dif_pos hfit]
      rw [Prog.bind_ok (onFile_ok (x := fun o => PageStore.save o { n with pageNum := pageNum }) hf),
        Prog.bind_ok (onFile_ok (x := fun o => PageStore.save o { n with pageNum := pageNum }) hs)]
      exact .ok hm
    · have hs : PageStore.save e.options { n with pageNum := pageNum } e.file = .stop .outside := by
        simp only [PageStore.save, dif_neg hfit]
      rw [Prog.bind_stop (onFile_stop
        (x := fun o => PageStore.save o { n with pageNum := pageNum }) hs)]
      exact .outside
  exact Sim.ite (fun _ => Sim.bind hnext htail) fun _ => Sim.bind (Sim.ret _) htail

end Stores

/-- Two nodes that are written alike: where `write_node` ends with one, it ends in the same
state with the other. -/
theorem writeNode_of_save {φ : Type} [PageStore φ] {d d' : Dal φ} {m n r : Node}
    (hm : m.pageNum ≠ 0) (hpage : n.pageNum = m.pageNum)
    (hsave : ∀ o : Options, PageStore.save o n = (PageStore.save o m : Prog Error φ Unit))
    (h : writeNode m d = .ok r d') : r = m ∧ writeNode n d = .ok n d' := by
  have hn : n.pageNum ≠ 0 := hpage ▸ hm
  obtain ⟨f, hf, rfl, rfl⟩ := writeNode_eq_ok_iff.mp h
  rw [placed_of_ne hm] at hf ⊢
  refine ⟨rfl, writeNode_eq_ok_iff.mpr ⟨f, ?_, (placed_of_ne hn).symm, ?_⟩⟩
  · rw [placed_of_ne hn, hsave]
    exact hf
  · rw [freelistFor_of_ne hm, freelistFor_of_ne hn, pageFor_of_ne hm, pageFor_of_ne hn, hpage]

theorem sim_getNode [System] (p : Nat) : Sim (@Mirrors pageSize _ base) (getNode p) (getNode p) :=
  sim_getNode_of Mirrors.load p

theorem sim_getNextPage [System] : Sim (@Mirrors pageSize _ base) getNextPage getNextPage := by
  intro d e h
  simp only [getNextPage, h.freelist]
  exact .ok ⟨h.options, h.size, h.large, h.metaPage, rfl, h.written, h.sound, h.count, h.page, h.rest,
    h.length_le⟩

theorem sim_writeNode [System] (n : Node) : Sim (@Mirrors pageSize _ base) (writeNode n) (writeNode n) :=
  sim_writeNode_of sim_getNextPage (fun hfit h => h.store hfit) n

theorem sim_deleteNode [System] (p : Nat) :
    Sim (@Mirrors pageSize _ base) (deleteNode p) (deleteNode p) := by
  refine Sim.modify fun d e h => ?_
  exact ⟨h.options, h.size, h.large, h.metaPage, congrArg (Freelist.releasePage · p) h.freelist,
    h.written, h.sound, h.count, h.page, h.rest,
    h.length_le⟩

end Dal

end Toocal
