import Toocal.Tree.Bytes
import Toocal.Tree.FilePaths
import Toocal.Tree.Replay

/-!
# What a put accepts

`put` never rejects an item: what it writes with `write_node` it panics on, and what it reads
it has read before (`put_ne_error`).  The serializer cuts both sizes of an item to a byte and
says nothing.  So a put of an absent key keeps the promise to store or to reject
(`StoresOrRejects`) for no item whose sizes do not fit a byte, and for one that finds room
unless it is lost in a double overflow; past the size of a page it does not return
(`storesOrRejects_cases`).  What is stored of a longer item is its cut (`serialize_cut`).
-/

namespace Toocal

open Outcomes Buffers Multiway Multiway.Tree Traces Collection Pages4096

/-! ## What a page can hold -/

namespace NodeSerializer

theorem length_of_readSized {buffer data : Bytes} {offset next : Nat}
    (h : readSized buffer offset = some (data, next)) : data.length ≤ 255 := by
  obtain ⟨size, -, h⟩ := Option.bind_eq_some_iff.mp h
  obtain ⟨data', hread, h⟩ := Option.bind_eq_some_iff.mp h
  obtain ⟨rfl, -⟩ := Prod.mk.inj (Option.some.inj h)
  have hlt := size.toNat_lt
  rw [length_of_read hread]
  omega

theorem short_of_readItems {isLeaf : Bool} {buffer : Bytes} {count left next : Nat}
    {items : List Item} {children : List Nat}
    (h : readItems isLeaf buffer count left = some (items, children, next)) :
    ∀ item ∈ items, item.Short := by
  induction count generalizing left items children next with
  | zero =>
    obtain ⟨rfl, -⟩ := Prod.mk.inj (Option.some.inj h)
    simp
  | succ count ih =>
    obtain ⟨child, bytes, key, offset, value, behind, items', children', -, -, hkey, hvalue, hrest,
      rfl, rfl⟩ := readItems_succ_iff.mp h
    intro item hmem
    rcases List.mem_cons.mp hmem with rfl | hmem
    · exact ⟨length_of_readSized hkey, length_of_readSized hvalue⟩
    · exact ih hrest item hmem

theorem short_of_deserialize {buffer : Bytes} {items : List Item} {children : List Nat}
    (h : deserialize buffer = some (items, children)) : ∀ item ∈ items, item.Short := by
  obtain ⟨isLeaf, count, children', left, -, hitems, -⟩ := readItems_of_deserialize h
  exact short_of_readItems hitems

end NodeSerializer

/-- Some page holds the item. -/
def Storable (item : Item) : Prop :=
  ∃ data items children, NodeSerializer.deserialize data = some (items, children) ∧ item ∈ items

/-- **A page can hold an item exactly if its sizes fit a byte each.** -/
theorem storable_iff [System] {item : Item} : Storable item ↔ item.Short := by
  constructor
  · rintro ⟨data, items, children, hdata, hmem⟩
    exact NodeSerializer.short_of_deserialize hdata item hmem
  · intro hshort
    have hroom : PageRoom [item] ([] : List Nat).length := by
      refine ⟨Or.inl rfl, by simpa using hshort, ?_⟩
      have hcell := length_cell item
      obtain ⟨hk, hv⟩ := hshort
      have hpage := le_defaultPageSize
      simp only [cellsSize_cons, cellsSize_nil, List.length_cons, List.length_nil, headerSize,
        pageNumSize]
      omega
    obtain ⟨data, -, -, hdata⟩ :=
      NodeSerializer.deserialize_serialize defaultPageSize_le hroom (by simp)
    exact ⟨data ++ [], [item], [], hdata [], List.mem_singleton_self item⟩

/-! ## Programs that never return an error -/

section NeverFails

variable {φ : Type}

theorem Dal.newNode_neverFails (items : List Item) (children : List Nat) :
    NeverFails (Dal.newNode items children : Prog Error (Dal φ) Node) := by
  refine .bind ?_ fun _ => .pure _
  intro d e d' h
  cases h

variable [PageStore φ]

theorem Dal.split_neverFails (this nodeToSplit : Node) (nodeToSplitIndex : Nat) :
    NeverFails (Dal.split this nodeToSplit nodeToSplitIndex : Prog Error (Dal φ) (Node × Node)) := by
  refine .bind .get fun d => .bind (.demand _) fun splitIndex => .bind (.element _ _) fun m => ?_
  refine .ite_bind (.ret _) (.require _) fun _ => .bind (newNode_neverFails _ _) fun newNode => ?_
  refine .bind (.orPanic _) fun newNode => .bind (.require _) fun _ => ?_
  exact .bind (.require _) fun _ => .orPanic _

theorem Collection.splitRound_neverFails (ancestors : List Node) (ancestorsIndexes : List Nat)
    (i : Nat) : NeverFails (splitRound ancestors ancestorsIndexes i : Prog Error (Dal φ) Unit) := by
  refine .bind .get fun d => .bind (.element _ _) fun previousNode => ?_
  refine .bind (.element _ _) fun node => .ite ?_ (.ret _)
  exact .bind (.element _ _) fun index => .bind (Dal.split_neverFails _ _ _) fun _ => .ret _

theorem Collection.splitRoot_neverFails (ancestors : List Node) :
    NeverFails (splitRoot ancestors : Prog Error (Collection φ) Unit) := by
  refine .bind .get fun c => .bind (.element _ _) fun rootNode => .ite ?_ (.ret _)
  refine .bind (.zoom ?_) fun newRoot => .modify _
  refine .bind (Dal.newNode_neverFails _ _) fun newRoot => ?_
  exact .bind (Dal.split_neverFails _ _ _) fun p => .orPanic _

theorem Collection.getNodesFrom_neverFails (child : Node) (indexes : List Nat) :
    NeverFails (getNodesFrom child indexes : Prog Error (Dal φ) (List Node)) := by
  induction indexes generalizing child with
  | nil => exact .ret _
  | cons index indexes ih =>
    refine .bind (.element _ _) fun page => .bind (.orPanic _) fun newChild => ?_
    exact .bind (ih newChild) fun _ => .ret _

end NeverFails

/-! ## Pages that can be read -/

namespace Dal

/-- The stream is sound, and the page is within the file. -/
def Within (d : Dal File) (p : Nat) : Prop :=
  d.file.failed = false ∧ ∃ pos, File.offset d.options p = some pos ∧
    pos + d.options.pageSize ≤ d.file.bytes.length

section Within

variable {d d' : Dal File} {p : Nat} {n n' : Node}

theorem within_of_getNode [System] (h : getNode p d = .ok n d') : d.Within p := by
  obtain ⟨hsound, pos, data, hpos, hdata, -⟩ := getNode_eq_ok h
  unfold Buffers.read at hdata
  split at hdata
  next hle => exact ⟨hsound, pos, hpos, hle⟩
  next => cases hdata

theorem Within.getNode_ne_error [System] (h : d.Within p) (e : Error) : getNode p d ≠ .error e d' := by
  obtain ⟨hsound, pos, hpos, hle⟩ := h
  have hread : File.readPage d.options p d.file =
      .ok ((d.file.bytes.drop pos).take d.options.pageSize) d.file := by
    rw [File.readPage, Prog.get_bind, hsound, hpos, Option.bind_some, Buffers.read, if_pos hle]
    rfl
  intro he
  cases hdecode : NodeSerializer.deserialize ((d.file.bytes.drop pos).take d.options.pageSize) with
  | none =>
    rw [getNode_stop_of_read hread hdecode] at he
    cases he
  | some c =>
    rw [getNode_ok_of_read hread hdecode] at he
    cases he

theorem Within.writeNode [System] (h : d.Within p) (hw : writeNode n d = .ok n' d') : d'.Within p := by
  obtain ⟨f, hsave, -, rfl⟩ := writeNode_eq_ok_iff.mp hw
  obtain ⟨hsound, data, place, -, -, -, rfl⟩ := save_eq_ok hsave
  obtain ⟨-, pos, hpos, hle⟩ := h
  refine ⟨hsound, pos, hpos, Nat.le_trans hle ?_⟩
  show d.file.bytes.length ≤ (File.put d.file.bytes place (filled d.options data)).length
  rw [File.length_put]
  exact Nat.le_max_left _ _

theorem writeNode_ne_error [System] {pos : Nat} (hsound : d.file.failed = false)
    (hpos : File.offset d.options n.pageNum = some pos) (hpage : n.pageNum ≠ 0) (e : Error) :
    Dal.writeNode n d ≠ .error e d' := by
  have hplaced : d.placed n = n := placed_of_ne hpage
  intro he
  rcases save_sound hsound hpos with hstop | ⟨data, -, -, hok⟩
  · rw [writeNode_stop_of_save (hplaced.symm ▸ hstop)] at he
    cases he
  · rw [writeNode_ok_of_save (hplaced.symm ▸ hok)] at he
    cases he

end Within

end Dal

/-! ## Put as a whole -/

namespace Collection

variable {o : Options} {base : Bytes} {c c' : Collection File} {d : Dal File} {name : Bytes}

theorem getNodes_ne_error [System] (h : c.dal.Within c.root) (indexes : List Nat) (e : Error) :
    getNodes indexes c ≠ .error e c' := by
  intro he
  rw [getNodes, Prog.get_bind] at he
  obtain ⟨d', he, -⟩ := Prog.zoom_eq_error.mp he
  rcases Prog.bind_eq_error.mp he with hroot | ⟨root, d₁, -, hrest⟩
  · exact h.getNode_ne_error e hroot
  · exact NeverFails.bind (getNodesFrom_neverFails _ _) (fun _ => .ret _) _ _ _ hrest

theorem Session.putItem_path [System] {u : PTree} (h : Session o base c (some u)) (pastEnd : Item)
    {item : Item} {x : Path Nat Item} (hx : IsPath (findKeyInNode item.key) u x) :
    putItem pastEnd item c = (do
      let _ ← onDal (Prog.orPanic (Dal.writeNode (nodeOf (place item x.index x.focus))))
      let ancestors ← getNodes (0 :: pathIndexes x.frames)
      Prog.ret (ancestors, 0 :: pathIndexes x.frames) : Prog Error (Collection File) _) c :=
  Collection.putItem_path pastEnd (h.serves.reads u rfl).2 h.serves.root hx
    ((length_frames_lt_tags hx).trans h.serves.fuel)

/-- **A put on a tree returns no error**, whatever the item. -/
theorem Session.put_ne_error [System] {u : PTree} (h : Session o base c (some u)) (pastEnd : Item)
    (key value : Bytes) (e : Error) : put pastEnd key value c ≠ .error e c' := by
  have hroot : c.root = u.tag := h.serves.root
  have hget : Dal.getNode c.root c.dal = .ok (nodeOf u) c.dal :=
    hroot ▸ (h.serves.reads u rfl).2.getNode
  obtain ⟨⟨k, hu⟩, -⟩ := wellFormed_some.mp h.wellFormed
  obtain ⟨x, -, hx⟩ := exists_path key hu.regular
  intro he
  rw [put, Prog.get_bind, if_neg h.root_ne_zero] at he
  rcases Prog.bind_eq_error.mp he with hput | ⟨⟨ancestors, indexes⟩, c₁, -, hrest⟩
  · rw [h.putItem_path pastEnd hx] at hput
    rcases Prog.bind_eq_error.mp hput with hwrite | ⟨n, c₂, hwrite, hrest⟩
    · exact NeverFails.zoom (.orPanic _) _ _ _ hwrite
    obtain ⟨d', hwritten, rfl⟩ := Prog.zoom_eq_ok.mp hwrite
    rcases Prog.bind_eq_error.mp hrest with hnodes | ⟨nodes, c₃, -, hret⟩
    · have hwithin : d'.Within c.root := (Dal.within_of_getNode hget).writeNode
        (Prog.orPanic_eq_ok.mp hwritten)
      exact getNodes_ne_error hwithin _ _ hnodes
    · cases hret
  · exact NeverFails.bind (.zoom (.forEach (splitRound_neverFails _ _) _))
      (fun _ => splitRoot_neverFails _) _ _ _ hrest

/-- **A put whose leaf does not fit the buffer does not return**: its cells are written past the
front. -/
theorem Session.put_overflows [System] {u : PTree} (h : Session o base c (some u)) (pastEnd : Item)
    {item : Item} {x : Path Nat Item} (hx : IsPath (findKeyInNode item.key) u x)
    (hshort : item.Short)
    (hsize : defaultPageSize - 1 < cellsSize (insertAt x.focus.items x.index item)) :
    put pastEnd item.key item.value c = .stop .undefined := by
  have hfocus : x.focus ∈ u.subtrees := by
    rw [← hx.eq]
    exact mem_subtrees_plugAll x.frames x.focus
  have hroom := h.room rfl hfocus
  have hwrite : Dal.writeNode (nodeOf (place item x.index x.focus)) c.dal = .stop .undefined := by
    refine Dal.writeNode_overflows (fun a ha => ?_) ?_ hsize
    · rcases mem_insertAt.mp ha with rfl | ha
      · exact hshort
      · exact hroom.2.1 a ha
    · show (insertAt x.focus.items x.index item).length < 2 ^ 16
      rw [length_insertAt]
      have hle := hroom.2.2
      have hpage := defaultPageSize_le
      rw [headerSize] at hle
      omega
  rw [put, Prog.get_bind, if_neg h.root_ne_zero]
  refine Prog.bind_stop ?_
  rw [h.putItem_path pastEnd hx]
  exact Prog.bind_stop (Prog.zoom_stop (Prog.orPanic_stop hwrite))

theorem put_start_ne_error [System] (hwidth : o.pageSize < 2 ^ 32) (hd : Dal.create o = .ok () d)
    (pastEnd : Item) (key value : Bytes) (e : Error) :
    put pastEnd key value ⟨d, name, 0⟩ ≠ .error e c' := by
  have hm := (Dal.of_create hwidth hd).1
  have hoptions : d.options = o := hm.options
  have hfreelist : d.freelist = ⟨2, []⟩ := hm.freelist
  intro he
  rw [put, Prog.get_bind, if_pos rfl] at he
  rcases Prog.bind_eq_error.mp he with hnode | ⟨root, c₁, -, hrest⟩
  · obtain ⟨d', hnode, -⟩ := Prog.zoom_eq_error.mp hnode
    rcases Prog.bind_eq_error.mp hnode with hnew | ⟨n, d₁, hnew, hwrite⟩
    · exact Dal.newNode_neverFails _ _ _ _ _ hnew
    · obtain ⟨rfl, rfl⟩ := Outcome.ok.inj (hnew.symm.trans (Dal.newNode_next hfreelist _ _))
      have hoffset : File.offset d.options 3 = some (3 * o.pageSize) := by
        rw [hoptions, File.offset, Nat.mod_eq_of_lt (by omega), if_pos (by omega)]
      exact Dal.writeNode_ne_error (d := ⟨d.options, d.file, d.metaPage, ⟨3, []⟩, d.written⟩)
        (n := ⟨3, [⟨key, value⟩], []⟩) hm.sound hoffset (Nat.succ_ne_zero 2) e hwrite
  · cases hrest

end Collection

/-- A put stores its item, or rejects one that no page can hold and leaves every answer of
`find` as it was. -/
def StoresOrRejects [System] (c : Collection File) (item pastEnd : Item) : Prop :=
  (∀ c', put pastEnd item.key item.value c = .ok () c' →
    (find item.key c').answer = .ok (some item)) ∧
  (¬Storable item → ∃ e c', put pastEnd item.key item.value c = .error e c' ∧
    ∀ key, (find key c').answer = (find key c).answer)

/-- The put does not lose its own item in a double overflow. -/
def KeepsItem (o : Options) (item : Item) (t : Option Outline) : Prop :=
  ∀ u ∈ t, ∀ x ∈ locate (findKeyInNode item.key) u,
    KeyStays o x.frames (insertAt x.focus.items x.index item) item.key

instance (o : Options) (item : Item) (t : Option Outline) : Decidable (KeepsItem o item t) :=
  inferInstanceAs (Decidable (∀ u ∈ t, ∀ x ∈ locate (findKeyInNode item.key) u, KeyStays o _ _ _))

section Storing

variable {o : Options} {base : Bytes} {d : Dal File} {c : Collection File} {name : Bytes}
  {t : Option PTree} {u : PTree} {item : Item}

/-- After a safe put, `find` answers with the item exactly if it has not been lost. -/
theorem find_put_iff [System] (h : Session o base c t) (pastEnd : Item) (habsent : valueAt t item.key = none)
    (hsafe : SafeAt (Capacity.page o.pageSize) c (.put item.key item.value pastEnd)) :
    ∃ c', put pastEnd item.key item.value c = .ok () c' ∧
      ((find item.key c').answer = .ok (some item) ↔ KeepsItem o item (t.map Tree.erase)) := by
  obtain ⟨c', t', hends, h', he, -⟩ := h.step hsafe
  obtain ⟨u, hu, -, hsafe', -⟩ := hsafe
  obtain rfl := hu.unique h.serves.toShows
  rw [h.options] at hsafe'
  refine ⟨c', hends, ?_⟩
  cases t' with
  | none => cases u <;> cases he
  | some u' =>
    have hfind : (find item.key c').answer = .ok (valueAt (some u') item.key) := by
      rw [h'.serves.find h'.wellFormed]
      rfl
    have hmem : valueAt (some u') item.key = some item ↔ item ∈ contents (some u'.erase) := by
      rw [valueAt, itemOf_eq_some h'.wellFormed.sorted, ← contents_erase]
      exact ⟨fun hm => hm.1, fun hm => ⟨hm, rfl⟩⟩
    rw [hfind, Except.ok.injEq, hmem]
    have hcontents := congrArg contents he
    rw [Option.map_some] at hcontents
    rw [hcontents]
    cases u with
    | none =>
      have hin : (Multiway.Tree.node () [item] [] : Outline).inorder = [item] := inorder_leaf () [item]
      refine iff_of_true ?_ (by simp [KeepsItem])
      show item ∈ (Multiway.Tree.node () [item] [] : Outline).inorder
      rw [hin]
      exact List.mem_singleton_self item
    | some u =>
      have hw := wellFormed_erase.mpr h.wellFormed
      obtain ⟨⟨k, hk⟩, hs⟩ := wellFormed_some.mp hw
      obtain ⟨x, hx, hpath⟩ := exists_path item.key hk.regular
      have hf : x.found = false := by
        rw [← Bool.not_eq_true, found_iff hpath hs]
        refine fun hne => hne ?_
        have := (valueAt_erase (some u) item.key).trans habsent
        exact this
      have hkeeps : KeepsItem o item (some u.erase) ↔
          KeyStays o x.frames (insertAt x.focus.items x.index item) item.key :=
        ⟨fun hk => hk _ rfl x hx, fun hk v hv y hy => by
          obtain rfl := Option.some.inj hv
          obtain rfl := Option.some.inj (hx.symm.trans hy)
          exact hk⟩
      rw [Option.map_some, hkeeps]
      exact mem_putOutline_iff hk hs hx hpath hf hsafe'

theorem not_storesOrRejects [System] (h : Session o base c (some u)) (pastEnd : Item)
    (hlong : ¬item.Short) : ¬StoresOrRejects c item pastEnd := by
  rintro ⟨-, hrejects⟩
  obtain ⟨e, c', herror, -⟩ := hrejects (mt storable_iff.mp hlong)
  exact h.put_ne_error pastEnd _ _ e herror

theorem not_storesOrRejects_start [System] (hwidth : o.pageSize < 2 ^ 32) (hd : Dal.create o = .ok () d)
    (pastEnd : Item) (hlong : ¬item.Short) : ¬StoresOrRejects ⟨d, name, 0⟩ item pastEnd := by
  rintro ⟨-, hrejects⟩
  obtain ⟨e, c', herror, -⟩ := hrejects (mt storable_iff.mp hlong)
  exact put_start_ne_error hwidth hd pastEnd _ _ e herror

/-- The cells of the leaf and the new item do not fit the buffer. -/
def Overflows [System] (item : Item) (t : Option PTree) : Prop :=
  ∃ u ∈ t, ∃ x ∈ locate (findKeyInNode item.key) u,
    defaultPageSize - 1 < cellsSize (insertAt x.focus.items x.index item)

/-- **A put that finds room stores its item exactly if the item is not lost in a double
overflow.**  An item that no page can hold is neither stored nor rejected, and where the leaf
overflows the buffer the put does not return. -/
theorem storesOrRejects_cases [System] (hwidth : o.pageSize < 2 ^ 32) (hd : Dal.create o = .ok () d)
    (hrun : Runs (SafeAt (Capacity.page o.pageSize)) ⟨d, name, 0⟩ c) (hshows : c.Shows t)
    (pastEnd : Item) (habsent : valueAt t item.key = none) :
    (FitsAt c (.put item.key item.value pastEnd) →
      (StoresOrRejects c item pastEnd ↔ KeepsItem o item (t.map Tree.erase))) ∧
    (¬item.Short → ¬StoresOrRejects c item pastEnd) ∧
    (item.Short → Overflows item t → put pastEnd item.key item.value c = .stop .undefined) := by
  obtain ⟨u, h⟩ := Session.of_run hwidth hd hrun
  obtain rfl := hshows.unique h.serves.toShows
  refine ⟨fun hfits => ?_, fun hlong => ?_, ?_⟩
  · have hshort : item.Short := by
      obtain ⟨u, hu, -, hfit, -⟩ := hfits
      obtain rfl := hu.unique hshows
      cases u with
      | none => exact hfit
      | some u => exact hfit.1
    obtain ⟨c', hput, hiff⟩ := find_put_iff h pastEnd habsent (h.safeAt_of_fitsAt hfits)
    rw [← hiff]
    refine ⟨fun hstores => hstores.1 c' hput, fun hfind => ⟨fun c'' hput' => ?_, ?_⟩⟩
    · obtain ⟨-, rfl⟩ := Outcome.ok.inj (hput.symm.trans hput')
      exact hfind
    · exact fun hnot => absurd (storable_iff.mpr hshort) hnot
  · cases t with
    | some u => exact not_storesOrRejects h pastEnd hlong
    | none =>
      rcases eq_start_or_root hwidth hd hrun with rfl | hroot
      · exact not_storesOrRejects_start hwidth hd pastEnd hlong
      · exact absurd h.serves.root hroot
  · rintro hshort ⟨u, rfl, x, hx, hsize⟩
    obtain ⟨⟨k, hu⟩, -⟩ := wellFormed_some.mp h.wellFormed
    obtain ⟨x', hx', hpath⟩ := exists_path item.key hu.regular
    obtain rfl := Option.some.inj (hx.symm.trans hx')
    exact h.put_overflows pastEnd hpath hshort hsize

end Storing

/-- An item at the limit of what a page can tell, and one past it. -/
def limitItem : Item := ⟨List.replicate 255 7, List.replicate 255 7⟩

def pastLimitItem : Item := ⟨List.replicate 256 7, [7]⟩

/-- The tree has two levels, and the put of the first one splits a leaf; the second one is neither
stored nor rejected. -/
theorem storesOrRejects_limit : ∃ d c, Dal.create smallNodes = .ok () d ∧
    Trace (Call (SafeAt (Capacity.page 4096))) ⟨d, [], 0⟩ threeLevels c ∧
    StoresOrRejects c limitItem ⟨[], []⟩ ∧ ¬StoresOrRejects c pastLimitItem ⟨[], []⟩ := by
  have hshelf : ∃ e ∈ safeReplay threeLevels
      (⟨Dal.begun smallNodes, [], 0⟩ : Collection (Shelf (Capacity.page 4096))),
      e.MeetsOn fittingly (.put limitItem.key limitItem.value ⟨[], []⟩) ∧ ∃ t ∈ e.tree?,
      KeepsItem smallNodes limitItem (t.map Tree.erase) ∧ valueAt t limitItem.key = none ∧
      valueAt t pastLimitItem.key = none := by decide +kernel
  obtain ⟨e, he, hfits, t, ht, hkeeps, hlimit, hpast⟩ := hshelf
  obtain ⟨d, c, hd, hrun, hm⟩ := exists_safeRun (o := smallNodes) (by decide) (by decide) he
  have hshows : c.Shows t := hm.toShows (shows_of_tree? ht)
  refine ⟨d, c, hd, hrun, ?_, ?_⟩
  · exact ((storesOrRejects_cases (o := smallNodes) (by decide) hd (.of_trace hrun) hshows _
      hlimit).1 (hm.meetsAt (Q := fittingly) hfits.meetsAt)).mpr hkeeps
  · have hlen : pastLimitItem.key.length = 256 := List.length_replicate
    have hlong : ¬pastLimitItem.Short := fun hshort => absurd hshort.1 (by rw [hlen]; decide)
    exact (storesOrRejects_cases (o := smallNodes) (by decide) hd (.of_trace hrun) hshows _
      hpast).2.1 hlong

/-! ## What becomes of a long item -/

/-- The item with its sizes cut to a byte each. -/
def Item.cut (item : Item) : Item :=
  ⟨item.key.take (item.key.length % 2 ^ 8), item.value.take (item.value.length % 2 ^ 8)⟩

theorem length_take_mod (l : Bytes) : (l.take (l.length % 2 ^ 8)).length = l.length % 2 ^ 8 := by
  rw [List.length_take]
  exact Nat.min_eq_left (Nat.mod_le _ _)

namespace NodeSerializer

theorem writeItem_cut (item : Item) (s : Slots) : writeItem item.cut s = writeItem item s := by
  have htake : ∀ l : Bytes, (l.take (l.length % 2 ^ 8)).take (l.length % 2 ^ 8) =
      l.take (l.length % 2 ^ 8) := fun l => by rw [List.take_take, Nat.min_self]
  simp only [writeItem, Item.cut, length_take_mod, htake, Nat.mod_mod]

theorem writeItems_cut (isLeaf : Bool) (children : List Nat) (i : Nat) (items : List Item)
    (s : Slots) : writeItems isLeaf children i (items.map Item.cut) s =
      writeItems isLeaf children i items s := by
  induction items generalizing i s with
  | nil => rfl
  | cons item items ih =>
    simp only [List.map_cons, writeItems, writeItem_cut, ih]

/-- **The serializer makes no difference between an item and its cut.** -/
theorem serialize_cut (items : List Item) (children : List Nat) (bufferSize : Nat) :
    serialize (items.map Item.cut) children bufferSize = serialize items children bufferSize := by
  simp only [serialize, List.length_map, ← List.map_take, writeItems_cut]

end NodeSerializer

theorem save_cut [System] (o : Options) (p : Nat) (items : List Item) (children : List Nat) :
    PageStore.save o ⟨p, items.map Item.cut, children⟩ =
      (PageStore.save o ⟨p, items, children⟩ : Prog Error File Unit) := by
  simp only [PageStore.save, NodeSerializer.serialize_cut]

/-- So the first put of a collection stores the cut of its item, and says nothing. -/
theorem put_start_cut [System] {d : Dal File} {c : Collection File} {name : Bytes}
    (hfreelist : d.freelist = ⟨2, []⟩) (item pastEnd : Item)
    (h : put pastEnd item.cut.key item.cut.value ⟨d, name, 0⟩ = .ok () c) :
    put pastEnd item.key item.value ⟨d, name, 0⟩ = .ok () c := by
  rw [put, Prog.get_bind, if_pos rfl] at h ⊢
  obtain ⟨root, c₁, hnode, hmodify⟩ := Prog.bind_eq_ok.mp h
  obtain ⟨d', hwrite, rfl⟩ := Prog.zoom_eq_ok.mp hnode
  obtain ⟨n, d₁, hnew, hwrite⟩ := Prog.bind_eq_ok.mp hwrite
  obtain ⟨rfl, rfl⟩ := Outcome.ok.inj (hnew.symm.trans (Dal.newNode_next hfreelist _ _))
  obtain ⟨rfl, hwrite'⟩ := Dal.writeNode_of_save (m := ⟨3, [item].map Item.cut, []⟩)
    (n := ⟨3, [item], []⟩) (Nat.succ_ne_zero 2) rfl (fun o => (save_cut o 3 [item] []).symm) hwrite
  have hnode' : (do
      let root ← Dal.newNode [item] []
      Dal.writeNode root) d = .ok ⟨3, [item], []⟩ d' :=
    Prog.bind_eq_ok.mpr ⟨_, _, Dal.newNode_next hfreelist _ _, hwrite'⟩
  exact Prog.bind_eq_ok.mpr ⟨_, _, Prog.zoom_eq_ok.mpr ⟨d', hnode', rfl⟩, hmodify⟩

/-- **A key of 256 bytes is accepted and not found again.** -/
theorem long_key_not_stored : ∃ d c, Dal.create BuiltinOptions.balance = .ok () d ∧
    put ⟨[], []⟩ (List.replicate 256 7) [8] ⟨d, [], 0⟩ = .ok () c ∧
    (find (List.replicate 256 7) c).answer = .ok none ∧
    ¬StoresOrRejects ⟨d, [], 0⟩ ⟨List.replicate 256 7, [8]⟩ ⟨[], []⟩ := by
  obtain ⟨d, c, t, hd, -, hput, hs, he⟩ := exists_first_put BuiltinOptions.balance [] [8]
    (by decide) (by decide) (by decide) (by decide)
  have hfreelist : d.freelist = ⟨2, []⟩ := (Dal.of_create (by decide) hd).1.freelist
  have hcut : Item.cut ⟨List.replicate 256 7, [8]⟩ = ⟨[], [8]⟩ := by
    have hmod : 256 % 2 ^ 8 = 0 := rfl
    simp only [Item.cut, List.length_replicate, hmod, List.take_zero]
    rfl
  have hlong : put ⟨[], []⟩ (List.replicate 256 7) [8] ⟨d, [], 0⟩ = .ok () c := by
    refine put_start_cut hfreelist ⟨List.replicate 256 7, [8]⟩ ⟨[], []⟩ ?_
    rw [hcut]
    exact hput
  have hfind : (find (List.replicate 256 7) c).answer = .ok none := by
    have habsent : valueAt (some t) (List.replicate 256 7) = none := by
      rw [← valueAt_erase, Option.map_some, he]
      decide
    rw [hs.serves.find hs.wellFormed, habsent]
    rfl
  refine ⟨d, c, hd, hlong, hfind, fun hstores => ?_⟩
  have hfound := hstores.1 c hlong
  rw [hfind] at hfound
  cases hfound

end Toocal
