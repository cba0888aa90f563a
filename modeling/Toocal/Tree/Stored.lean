import Toocal.Tree.CurrentCopies
import Toocal.Tree.FilePaths
import Toocal.Tree.FileRuns
import Toocal.Tree.Filling

/-!
# Trees on a file

A database of which no more is known than that its stream is sound and that the nodes of a
tree are on their pages, each with room for it: `Dal.Usable` and `Dal.Stores`.

* `Stores.exists_mirror`: a shelf with the pages of the tree mirrors the database, so what a
  function does on shelves it does there.
* `Dal.Wrote d d' ws` says that the pages `ws` have been written between `d` and `d'` and no
  others: `get_node` answers for every other page as before, whether it can be read or not.
* `wrote_of_shelf`: a function that returns on the shelf returns on the file, having written
  the same pages.
-/

namespace Toocal

open Outcomes Buffers Multiway Multiway.Tree

namespace Dal

/-- The stream is sound, and a page has room for the data of a node. -/
structure Usable [System] (d : Dal File) : Prop where
  sound : d.file.failed = false
  large : defaultPageSize ≤ d.options.pageSize

/-- Every node of the tree is read from its page, which has room for it. -/
structure Stores [System] (d : Dal File) (t : PTree) : Prop where
  reads : d.Reads t
  fits : ∀ u ∈ t.subtrees, (Capacity.page d.options.pageSize).Fits (nodeOf u)

section Stores

variable [System] {d : Dal File} {t : PTree}

theorem Stores.room (h : d.Stores t) {u : PTree} (hu : u ∈ t.subtrees) :
    PageRoom u.items u.children.length := by
  have hfit := (h.fits u hu).1
  rwa [room_page, children_nodeOf, List.length_map] at hfit

theorem Stores.short (h : d.Stores t) {u : PTree} (hu : u ∈ t.subtrees) :
    (∀ item ∈ u.items, item.Short) ∧ u.items.length + 1 < 2 ^ 16 := by
  obtain ⟨-, hshort, hsize⟩ := h.room hu
  have hpage : defaultPageSize ≤ 2 ^ 16 := defaultPageSize_le
  simp only [headerSize] at hsize
  exact ⟨hshort, by omega⟩

theorem Stores.narrow (h : d.Stores t) : t.Each Narrow := fun _ hu => (h.short hu).2

theorem Stores.of_plugAll {fs : List (Frame Nat Item)} (h : d.Stores (plugAll fs t)) : d.Stores t where
  reads := h.reads.focus
  fits u hu := h.fits u (subtrees_subset (mem_subtrees_plugAll fs t) hu)

theorem Stores.room_frame {fs : List (Frame Nat Item)} (h : d.Stores (plugAll fs t)) :
    ∀ f ∈ fs, PageRoom f.items (f.items.length + 1) := by
  intro f hf
  obtain ⟨gs, hs, rfl⟩ := List.append_of_mem hf
  rw [plugAll_append, plugAll_cons] at h
  have hroom := h.of_plugAll.room (mem_subtrees_self _)
  rw [Frame.items_plug] at hroom
  have hlen : (f.plug (plugAll hs t)).children.length = f.items.length + 1 := by
    simp [Frame.children_plug, Frame.length_items]
    omega
  rwa [hlen] at hroom

end Stores

/-! ## A shelf for a tree -/

section Learn

variable [System] {pageSize : Nat} {base : Bytes} {d : Dal File}

theorem Usable.mirrors_empty (h : d.Usable) : Mirrors d.file.bytes d
    (⟨d.options, Shelf.empty (Capacity.page d.options.pageSize), d.metaPage, d.freelist, d.written⟩ :
      Dal (Shelf (Capacity.page d.options.pageSize))) where
  options := rfl
  size := rfl
  large := h.large
  metaPage := rfl
  freelist := rfl
  written := rfl
  sound := h.sound
  count := Nat.zero_le _
  page _ _ hp := by cases hp
  rest _ _ _ _ hhas := hhas
  length_le _ hle _ := hle

end Learn

end Dal

open Dal

section Learn

variable [System] {pageSize : Nat} {base : Bytes} {d : Dal File}

theorem Mirrors.learn {e : Dal (Shelf (Capacity.page pageSize))} (h : Mirrors base d e) {n : Node}
    (hfit : (Capacity.page pageSize).Fits n) (hread : getNode n.pageNum d = .ok n d) :
    Mirrors base d { e with file := e.file.set n hfit } := by
  obtain ⟨-, pos, data, hpos, hdata, hdecode⟩ := getNode_eq_ok hread
  obtain ⟨hoff, -⟩ := names_page.mp (hfit.2 n.pageNum List.mem_cons_self)
  rw [← h.size] at hoff
  obtain rfl := Option.some.inj (hpos.symm.trans (File.offset_eq hoff))
  rw [h.size] at hdata
  have hlen := length_of_read hdata
  have hlarge : 0 < pageSize := Nat.lt_of_lt_of_le defaultPageSize_pos h.large
  refine { h with count := ?_, page := fun p c hp => ?_ }
  · have hle := (has_of_read hdata).le (List.ne_nil_of_length_pos (hlen ▸ hlarge))
    have hmul : n.pageNum ≤ n.pageNum * pageSize := Nat.le_mul_of_pos_right _ hlarge
    have hcount := h.count
    simp only [Shelf.set, List.length_set, Shelf.extend, List.length_append, List.length_replicate]
    omega
  · have hp' : (if p = n.pageNum then some (n.items, n.children) else e.at? p) = some c :=
      (Shelf.lookup_set e.file n hfit p).symm.trans hp
    split at hp'
    next heq =>
      cases hp'
      exact ⟨data, hlen, heq ▸ has_of_read hdata, hdecode⟩
    next => exact h.page p c hp'

theorem Dal.exists_learned (h : d.Usable) (us : List PTree)
    (hus : ∀ u ∈ us, getNode u.tag d = .ok (nodeOf u) d ∧
      (Capacity.page d.options.pageSize).Fits (nodeOf u)) :
    ∃ e : Dal (Shelf (Capacity.page d.options.pageSize)), Mirrors d.file.bytes d e ∧
      ∀ u ∈ us, e.at? u.tag = some (u.items, u.children.map Tree.tag) := by
  induction us with
  | nil => exact ⟨_, h.mirrors_empty, by simp⟩
  | cons u us ih =>
    obtain ⟨⟨hread, hfit⟩, hus⟩ := List.forall_mem_cons.mp hus
    obtain ⟨e, hm, hat⟩ := ih hus
    refine ⟨_, hm.learn hfit hread, fun v hv => ?_⟩
    have hset : ({ e with file := e.file.set (nodeOf u) hfit } :
        Dal (Shelf (Capacity.page d.options.pageSize))).at? v.tag =
        if v.tag = u.tag then some (u.items, u.children.map Tree.tag) else e.at? v.tag :=
      Shelf.lookup_set e.file (nodeOf u) hfit v.tag
    rw [hset]
    split
    next htag =>
      -- one page is read one way
      rcases List.mem_cons.mp hv with rfl | hv
      · rfl
      · have hsame := (hus v hv).1
        rw [htag, hread] at hsame
        have hnode := (Outcome.ok.inj hsame).1
        exact congrArg some (Prod.ext (congrArg Node.items hnode) (congrArg Node.children hnode))
    next htag =>
      rcases List.mem_cons.mp hv with rfl | hv
      · exact absurd rfl htag
      · exact hat v hv

/-- **A shelf with the pages of the tree mirrors the database.** -/
theorem Dal.Stores.exists_mirror {t : PTree} (h : d.Usable) (ht : d.Stores t) :
    ∃ e : Dal (Shelf (Capacity.page d.options.pageSize)), Mirrors d.file.bytes d e ∧ e.Holds t :=
  exists_learned h t.subtrees fun u hu => ⟨ht.reads u hu, ht.fits u hu⟩

theorem Mirrors.stores {e : Dal (Shelf (Capacity.page pageSize))} (h : Mirrors base d e) {t : PTree}
    (ht : e.Holds t) : d.Stores t where
  reads u hu := h.getNode_ok (ht u hu)
  fits u hu := h.size.symm ▸ fits_of_at? (ht u hu)

theorem Mirrors.usable {e : Dal (Shelf (Capacity.page pageSize))} (h : Mirrors base d e) :
    d.Usable := ⟨h.sound, h.size.symm ▸ h.large⟩

end Learn

/-! ## What has been written -/

/-- From `d` to `d'` the pages `ws` have been written and no others.  A write past the end of the
file makes the pages in between readable, so the frame asks that there was none. -/
structure Dal.Wrote [System] (d d' : Dal File) (ws : List Nat) : Prop where
  usable : d'.Usable
  options : d'.options = d.options
  written : d'.written = ws ++ d.written
  others : (∀ p ∈ ws, p * d.options.pageSize ≤ d.file.bytes.length) → ∀ q ∉ ws,
    q * d.options.pageSize < 2 ^ 64 → (getNode q d').answer = (getNode q d).answer

section Frame

variable [System] {pageSize : Nat} {d d' : Dal File} {e : Dal (Shelf (Capacity.page pageSize))}

theorem Mirrors.read_other (h : Mirrors d.file.bytes d' e)
    (hreach : ∀ p ∈ d'.written, p * pageSize ≤ d.file.bytes.length) {q : Nat} (hq : q ∉ d'.written) :
    read d'.file.bytes (q * pageSize) pageSize = read d.file.bytes (q * pageSize) pageSize := by
  have hpos : 0 < pageSize := Nat.lt_of_lt_of_le defaultPageSize_pos h.large
  by_cases hin : q * pageSize + pageSize ≤ d.file.bytes.length
  · have hread : read d.file.bytes (q * pageSize) pageSize =
        some ((d.file.bytes.drop (q * pageSize)).take pageSize) := if_pos hin
    have hlen := length_of_read hread
    have hhas := h.rest q hq _ hlen (has_of_read hread)
    have hle := hhas.le (List.ne_nil_of_length_pos (hlen.symm ▸ hpos))
    have hback := hhas.read hle
    rw [hlen] at hback
    rw [hback, hread]
  · -- no page at or behind `q` was written, so the file still ends before the end of `q`
    have hend : d'.file.bytes.length ≤ q * pageSize + pageSize - 1 := by
      refine h.length_le _ (by omega) fun p hp => ?_
      have hlt : p < q := by
        have hp' := hreach p hp
        have hmul : p * pageSize < (q + 1) * pageSize := by rw [Nat.succ_mul]; omega
        have hle := Nat.lt_of_mul_lt_mul_right hmul
        have hne : p ≠ q := fun he => hq (he ▸ hp)
        omega
      have hmul := Nat.mul_le_mul_right pageSize (Nat.succ_le_of_lt hlt)
      rw [Nat.succ_mul] at hmul
      omega
    rw [Buffers.read, Buffers.read, if_neg hin, if_neg (by omega)]

end Frame

/-! ## Without the record of what was written before -/

/-- The layer, with more pages written before it. -/
def Dal.since {φ : Type} (w : List Nat) (d : Dal φ) : Dal φ := { d with written := d.written ++ w }

/-- The collection, with more pages written before it. -/
def Collection.since {φ : Type} (w : List Nat) (c : Collection φ) : Collection φ :=
  { c with dal := c.dal.since w }

/-- **No function of `core/` looks at what has been written before**, and none changes the
options. -/
theorem since_simulates {φ : Type} [PageStore φ] (o : Options) (w : List Nat) :
    Simulates (fun (d e : Dal φ) => d = e.since w ∧ e.options = o)
      (fun (c e : Collection φ) => c = e.since w ∧ e.dal.options = o) where
  options := by rintro _ e ⟨rfl, -⟩; rfl
  fuel_le := by rintro _ e ⟨rfl, -⟩; exact Nat.le_refl _
  sim_getNode p := by
    rintro _ e ⟨rfl, ho⟩
    cases h : PageStore.load e.options p e.file with
    | ok c f =>
      rw [Dal.getNode_ok_of_load h, Dal.getNode_ok_of_load (d := e.since w) h]
      exact .ok ⟨rfl, ho⟩
    | error err f =>
      rw [Dal.getNode_error_of_load h, Dal.getNode_error_of_load (d := e.since w) h]
      exact .error ⟨rfl, ho⟩
    | stop why =>
      rw [Dal.getNode_stop_of_load h, Dal.getNode_stop_of_load (d := e.since w) h]
      exact .stop
  sim_getNextPage := by
    rintro _ e ⟨rfl, ho⟩
    exact .ok ⟨rfl, ho⟩
  sim_writeNode n := by
    rintro _ e ⟨rfl, ho⟩
    cases h : PageStore.save e.options (e.placed n) e.file with
    | ok a f =>
      rw [Dal.writeNode_ok_of_save h, Dal.writeNode_ok_of_save (d := e.since w) h]
      exact .ok ⟨rfl, ho⟩
    | error err f =>
      rw [Dal.writeNode_error_of_save h, Dal.writeNode_error_of_save (d := e.since w) h]
      exact .error ⟨rfl, ho⟩
    | stop why =>
      rw [Dal.writeNode_stop_of_save h, Dal.writeNode_stop_of_save (d := e.since w) h]
      exact .stop
  sim_deleteNode p := Sim.modify (by rintro _ e ⟨rfl, ho⟩; exact ⟨rfl, ho⟩)
  dal := by rintro _ e ⟨rfl, ho⟩; exact ⟨rfl, ho⟩
  root := by rintro _ e ⟨rfl, -⟩; rfl
  setDal := by rintro _ e _ e' ⟨rfl, -⟩ ⟨rfl, ho⟩; exact ⟨rfl, ho⟩
  setRoot := by rintro _ e p ⟨rfl, ho⟩; exact ⟨rfl, ho⟩

theorem Dal.getNode_written {φ : Type} [PageStore φ] {d : Dal φ} {p : Nat} {n : Node}
    (h : getNode p d = .ok n d) (w : List Nat) :
    getNode p { d with written := w } = .ok n { d with written := w } := by
  cases hload : PageStore.load d.options p d.file with
  | ok c f =>
    rw [getNode_ok_of_load hload] at h
    obtain ⟨rfl, hd⟩ := Outcome.ok.inj h
    have hf : f = d.file := congrArg Dal.file hd
    rw [hf] at hload
    exact getNode_ok_of_load (d := { d with written := w }) hload
  | error err f => cases (getNode_error_of_load hload).symm.trans h
  | stop why => cases (getNode_stop_of_load hload).symm.trans h

section Run

variable [System] {d : Dal File} {t : PTree}

theorem Dal.Stores.exists_shelf (ht : d.Stores t) (h : d.Usable) :
    ∃ e : Dal (Shelf (Capacity.page d.options.pageSize)),
      Mirrors d.file.bytes { d with written := [] } e ∧ e.Holds t :=
  Stores.exists_mirror (d := { d with written := [] }) ⟨h.sound, h.large⟩
    ⟨fun u hu => getNode_written (ht.reads u hu) [], ht.fits⟩

/-- **A function that returns on the shelf returns on the file**, and has written the same
pages. -/
theorem wrote_of_shelf {α : Type} {x : Prog Error (Dal File) α}
    {y : Prog Error (Dal (Shelf (Capacity.page d.options.pageSize))) α}
    {e e' : Dal (Shelf (Capacity.page d.options.pageSize))} {a : α}
    (he : Mirrors d.file.bytes { d with written := [] } e)
    (hsince : Sim (fun d₁ e₁ : Dal File => d₁ = e₁.since d.written ∧ e₁.options = d.options) x x)
    (hsim : Sim (Mirrors d.file.bytes) x y) (hrun : y e = .ok a e') :
    ∃ d', x d = .ok a d' ∧ d.Wrote d' e'.written ∧ (∀ u, e'.Holds u → d'.Stores u) ∧
      d'.freelist = e'.freelist := by
  obtain ⟨d₁, hd₁, hm⟩ := hsim.ok he hrun
  obtain ⟨_, hd', rfl, hoptions⟩ := hsince.ok (s := d) (t := { d with written := [] })
    ⟨rfl, rfl⟩ hd₁
  have hwritten : d₁.written = e'.written := hm.written
  refine ⟨_, hd', ⟨⟨hm.sound, hm.usable.large⟩, hoptions, congrArg (· ++ d.written) hwritten,
    fun hreach q hq hlt => ?_⟩, fun u hu => ⟨fun v hv =>
      getNode_written ((hm.stores hu).reads v hv) _, (hm.stores hu).fits⟩, hm.freelist⟩
  rw [← hwritten] at hreach hq
  refine answer_getNode_congr hoptions (hm.sound.trans he.sound.symm) fun pos hpos => ?_
  rw [File.offset, Nat.mod_eq_of_lt hlt] at hpos
  split at hpos
  next =>
    obtain rfl := Option.some.inj hpos
    exact hm.read_other hreach hq
  next => cases hpos

end Run

/-! ## A database with a tree -/

section Exists

variable [System] {o : Options}

theorem exists_written (fl : Freelist) (hlarge : defaultPageSize ≤ o.pageSize) (hlimit : 2 * o.pageSize < 2 ^ 63)
    (us : List PTree) (hnd : (us.map Tree.tag).Nodup)
    (hfits : ∀ u ∈ us, (Capacity.page o.pageSize).Fits (nodeOf u)) :
    ∃ (base : Bytes) (d : Dal File) (e : Dal (Shelf (Capacity.page o.pageSize))),
      Mirrors base d e ∧ d.options = o ∧ d.freelist = fl ∧
      ∀ u ∈ us, e.at? u.tag = some (u.items, u.children.map Tree.tag) := by
  induction us with
  | nil =>
    obtain ⟨d, -, hm, -⟩ := Dal.create_ok hlarge hlimit
    refine ⟨d.file.bytes, { d with freelist := fl }, { Dal.begun o with freelist := fl },
      { hm with freelist := rfl }, hm.options, rfl, by simp⟩
  | cons u us ih =>
    obtain ⟨hu, hnd⟩ := List.nodup_cons.mp hnd
    obtain ⟨hfit, hfits⟩ := List.forall_mem_cons.mp hfits
    obtain ⟨base, d, e, hm, ho, hfl, hat⟩ := ih hnd hfits
    obtain ⟨f, -, hm'⟩ := hm.store hfit
    refine ⟨base, _, _, hm', ho, hfl, fun v hv => ?_⟩
    rcases List.mem_cons.mp hv with rfl | hv
    · exact at?_store_self e (nodeOf v) hfit
    · have hne : v.tag ≠ (nodeOf u).pageNum := fun he =>
        hu (List.mem_map.mpr ⟨v, hv, he⟩)
      exact (at?_store_ne hne).trans (hat v hv)

/-- **There is a database with a given tree and freelist**, if the nodes of the tree fit. -/
theorem exists_stores (fl : Freelist) (hlarge : defaultPageSize ≤ o.pageSize)
    (hlimit : 2 * o.pageSize < 2 ^ 63) (t : PTree) (hnd : t.tags.Nodup)
    (hfits : ∀ u ∈ t.subtrees, (Capacity.page o.pageSize).Fits (nodeOf u)) :
    ∃ d : Dal File, d.options = o ∧ d.freelist = fl ∧ d.Usable ∧ d.Stores t := by
  obtain ⟨base, d, e, hm, ho, hfl, hat⟩ := exists_written fl hlarge hlimit t.subtrees hnd hfits
  exact ⟨d, ho, hfl, hm.usable, hm.stores hat⟩

theorem Dal.Stores.within {d : Dal File} {t u : PTree} (h : d.Stores t) (hu : u ∈ t.subtrees) :
    u.tag * d.options.pageSize + d.options.pageSize ≤ d.file.bytes.length := by
  obtain ⟨-, pos, data, hpos, hdata, -⟩ := getNode_eq_ok (h.reads u hu)
  obtain ⟨hoff, -⟩ := names_page.mp ((h.fits u hu).2 u.tag List.mem_cons_self)
  obtain rfl := Option.some.inj (hpos.symm.trans (File.offset_eq hoff))
  unfold Buffers.read at hdata
  split at hdata
  next hle => exact hle
  next => cases hdata

end Exists

/-! ## Collections -/

/-- The tree stands under the root of the collection, each node on its page with room for it, and
its pages are kept apart from the released pages and from the pages `F` of others. -/
structure Collection.Stored [System] (c : Collection File) (F : Set Nat) (t : Option PTree) :
    Prop where
  usable : c.dal.Usable
  stores : ∀ u ∈ t, c.dal.Stores u
  layout : Layout c.dal.freelist F (pagesOf t)
  root : c.root = rootOf t

namespace Collection

variable [System] {c : Collection File} {F : Set Nat} {t : Option PTree}

theorem Stored.exists_shelf (h : c.Stored F t) :
    ∃ e : Collection (Shelf (Capacity.page c.dal.options.pageSize)),
      Mirror c.dal.file.bytes c e ∧ e.Stands F t := by
  obtain ⟨d, hm, hat⟩ := exists_learned h.usable (t.elim [] subtrees) fun u hu => by
    cases t with
    | none => cases hu
    | some t => exact ⟨(h.stores t rfl).reads u hu, (h.stores t rfl).fits u hu⟩
  refine ⟨⟨d, c.name, c.root⟩, ⟨hm, rfl, rfl⟩, ⟨fun u hu => ?_, hm.freelist ▸ h.layout, h.root⟩⟩
  obtain rfl := Option.mem_def.mp hu
  exact hat

theorem Mirror.stored {pageSize : Nat} {base : Bytes}
    {e : Collection (Shelf (Capacity.page pageSize))} (h : Mirror base c e) (hs : e.Stands F t) :
    c.Stored F t where
  usable := h.dal.usable
  stores u hu := h.dal.stores (hs.holds u hu)
  layout := h.dal.freelist ▸ hs.layout
  root := h.root.trans hs.root

theorem Stored.shows (h : c.Stored F t) : c.Shows t where
  root := h.root
  reads u hu := ⟨h.layout.ne_zero (by obtain rfl := Option.mem_def.mp hu; exact tag_mem_tags u),
    (h.stores u hu).reads⟩

end Collection

namespace Collection

theorem Stored.run_ok [System] {c : Collection File} {F : Set Nat} {t : Option PTree} {op : Op}
    (hs : c.Stored F t) (hw : WellFormed t) (hf : op.Fresh t)
    (hsafe : op.Safe (Capacity.page c.dal.options.pageSize) c.dal.options (t.map Tree.erase))
    (hn : op.Numbers (Capacity.page c.dal.options.pageSize) c.dal.freelist.maxPage t) :
    ∃ c' t', op.Ends t c c' ∧ c'.Stored F t' ∧
      t'.map Tree.erase = op.outline c.dal.options (t.map Tree.erase) := by
  obtain ⟨e, hm, he⟩ := hs.exists_shelf
  obtain ⟨c', e', t', hends, hm', hs', hout, -⟩ := Op.run_file hm he hw hf hsafe hn
  exact ⟨c', t', hends, hm'.stored hs', hout⟩

section Remove

variable [System] {c : Collection File} {F : Set Nat} {t : PTree} {x : Path Nat Item} {h : Nat}
  {key : Bytes}

theorem Stored.remove_ok (hs : c.Stored F (some t)) (hu : Uniform h t)
    (hx : locate (findKeyInNode key) t = some x) (hpath : IsPath (findKeyInNode key) t x)
    (hf : x.found = true)
    (hsafe : RemoveSafe (Capacity.page c.dal.options.pageSize) c.dal.options key t) :
    ∃ c', remove key c = .ok () c' ∧ c'.Stored F (some (removeOutline c.dal.options key t)) := by
  obtain ⟨e, hm, he⟩ := hs.exists_shelf
  obtain ⟨ho, hroot⟩ := stands_some.mp he
  have hsafe' : RemoveSafe (Capacity.page c.dal.options.pageSize) e.dal.options key t :=
    hm.dal.options ▸ hsafe
  obtain ⟨e', hrun, ho', hroot', -⟩ := Collection.remove_ok ho hroot hu hx hpath hf hsafe'
  obtain ⟨c', hc', hm'⟩ := (mirrors_simulates.sim_remove key).ok hm hrun
  rw [← hm.dal.options] at ho' hroot'
  exact ⟨c', hc', hm'.stored (stands_some.mpr ⟨ho', hroot'⟩)⟩

theorem Stored.remove_stuck (hs : c.Stored F (some t)) (hu : Uniform h t)
    (hpath : IsPath (findKeyInNode key) t x) (hf : x.found = true)
    (hroom : ∀ q ∈ takeOut x, ∀ f ∈ q.1, PageRoom f.items (f.items.length + 1))
    (honly : ∀ q ∈ takeOut x, c.dal.options.isUnderPopulated q.2.items ∧
      ∃ f ∈ q.1.getLast?, f.siblings = []) : remove key c = .stop .undefined := by
  obtain ⟨e, hm, he⟩ := hs.exists_shelf
  obtain ⟨ho, hroot⟩ := stands_some.mp he
  rw [hm.dal.options] at honly
  have hstop : remove key e = .stop .undefined := Collection.remove_stuck ho hroot hu hpath hf
    (fun q hq f hfq => room_page.mpr (hroom q hq f hfq)) honly
  exact (mirrors_simulates.sim_remove key).undefined hm hstop

end Remove

end Collection

theorem layout_of_lt {ps : List Nat} {last : Nat} (hnd : ps.Nodup) (hps : ∀ p ∈ ps, 2 < p ∧ p ≤ last)
    (hlast : 2 ≤ last) : Layout ⟨last, []⟩ {q | q ≤ 2} ps where
  nodup := by rwa [List.append_nil]
  le_max p hp := (hps p (by rwa [List.append_nil] at hp)).2
  outside p hp hle := Nat.not_lt.mpr hle (hps p (by rwa [List.append_nil] at hp)).1
  frame_le _ hp := Nat.le_trans hp hlast
  zero := Nat.zero_le 2

theorem exists_stored [System] {o : Options} (last : Nat) (hlarge : defaultPageSize ≤ o.pageSize)
    (hlimit : 2 * o.pageSize < 2 ^ 63) (t : PTree) (hnd : t.tags.Nodup)
    (htags : ∀ p ∈ t.tags, 2 < p ∧ p ≤ last) (hlast : 2 ≤ last)
    (hfits : ∀ u ∈ t.subtrees, (Capacity.page o.pageSize).Fits (nodeOf u)) :
    ∃ c : Collection File, c.dal.options = o ∧ c.dal.freelist = ⟨last, []⟩ ∧
      c.Stored {q | q ≤ 2} (some t) := by
  obtain ⟨d, ho, hfl, hd, ht⟩ := exists_stores ⟨last, []⟩ hlarge hlimit t hnd hfits
  refine ⟨⟨d, [], t.tag⟩, ho, hfl, hd, fun u hu => ?_, hfl ▸ layout_of_lt hnd htags hlast, rfl⟩
  cases hu
  exact ht

/-- A parent of two leaves. -/
def pairOf (left right : List Item) : PTree :=
  .node 3 [⟨[5], []⟩] [.node 4 left [], .node 5 right []]

theorem wellFormed_pairOf {left right : List Item}
    (hs : Sorted KeyLt Item.key (left ++ ⟨[5], []⟩ :: right)) : WellFormed (some (pairOf left right)) := by
  refine wellFormed_overLeaves rfl (by simp) ?_
  rw [inorder_node, weave_cons, weave_nil_cons, inorder_leaf, inorder_leaf]
  simpa using hs

end Toocal
