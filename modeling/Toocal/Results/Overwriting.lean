import Toocal.Results.Removal
import Toocal.Tree.FilePaths
import Toocal.Tree.Overwriting

/-!
# When a put overwrites

A `put` overwrites where a key that is there gets the new value: it is found with it, it is
there once, and every other key is as it was (`Overwrites`).  `put` inserts instead, so this
holds of the puts that drop the old item by a double overflow, and of no others
(`overwrites_iff`).

On the file the node the item goes into is written with a child too few, and the page is
that of the node with its last child twice (`serialize_again`).
-/

namespace Toocal

open Outcomes Multiway Multiway.Tree Collection Pages4096

/-! ## The page of a node with a child too few -/

namespace NodeSerializer

theorem writeItems_append {isLeaf : Bool} {children more : List Nat} {items : List Item} {i : Nat}
    {s : Slots} (h : i + items.length ≤ children.length) :
    writeItems isLeaf (children ++ more) i items s = writeItems isLeaf children i items s := by
  induction items generalizing i s with
  | nil => rfl
  | cons item items ih =>
    rw [List.length_cons] at h
    have hchild : (children ++ more)[i]? = children[i]? := List.getElem?_append_left (by omega)
    have hrest : i + 1 + items.length ≤ children.length := by omega
    simp only [writeItems, writeChild, hchild, ih hrest]

/-- **The serializer fills up a node with its last child.** -/
theorem serialize_again {items : List Item} {children : List Nat} (bufferSize : Nat)
    (h : children = [] ∨ items.length ≤ children.length) :
    serialize items (children ++ children.getLast?.toList) bufferSize =
      serialize items children bufferSize := by
  cases hlast : children.getLast? with
  | none => rw [Option.toList_none, List.append_nil]
  | some last =>
    have hne : children ≠ [] := by rintro rfl; cases hlast
    have hlen : 0 + (items.take (items.length % 2 ^ 16)).length ≤ children.length := by
      rw [Nat.zero_add]
      exact Nat.le_trans (List.length_take_le' _ _) (h.resolve_left hne)
    have hleaf : (children ++ [last]).isEmpty = children.isEmpty := by
      cases children with
      | nil => cases hlast
      | cons => rfl
    simp only [serialize, Option.toList_some, hleaf, writeItems_append hlen, List.getLast?_concat,
      hlast]

end NodeSerializer

theorem nodeOf_placeAgain (item : Item) (i : Nat) (u : PTree) : nodeOf (placeAgain item i u) =
    ⟨u.tag, insertAt u.items i item,
      u.children.map Tree.tag ++ (u.children.map Tree.tag).getLast?.toList⟩ := by
  rw [nodeOf, placeAgain, tag_node, items_node, children_node, List.map_append, List.getLast?_map]
  cases u.children.getLast? <;> rfl

theorem save_again [System] {u : PTree} {h i : Nat} (item : Item) (hu : Uniform h u)
    (hi : i < u.items.length) (o : Options) : PageStore.save o (nodeOf (place item i u)) =
      (PageStore.save o (nodeOf (placeAgain item i u)) : Prog Error File Unit) := by
  have hcount : u.children.map Tree.tag = [] ∨
      (insertAt u.items i item).length ≤ (u.children.map Tree.tag).length := by
    rw [List.length_map]
    cases hu with
    | leaf p its => exact Or.inl rfl
    | inner p its cs hl hcs =>
      right
      simp only [items_node] at hi ⊢
      simp only [insertAt, List.length_append, List.length_take, List.length_cons, List.length_drop,
        children_node]
      omega
  rw [nodeOf_placeAgain]
  simp only [PageStore.save, NodeSerializer.serialize_again _ hcount]
  rfl

/-! ## Put on the file -/

namespace Collection

section Put

variable [System] {pageSize : Nat} {base : Bytes} {c : Collection File}
  {e : Collection (Shelf (Capacity.page pageSize))} {F : Set Nat} {t : PTree} {h : Nat}
  {item : Item} {x : Path Nat Item}

/-- The first half of `put`: what is read back is the node with its last child twice. -/
theorem putItem_again (pastEnd : Item) (hm : Mirror base c e) (hs : e.Stands F (some t))
    (hu : Uniform h t) (hx : IsPath (findKeyInNode item.key) t x) (hf : x.found = true)
    (hroom : (Capacity.page pageSize).room (insertAt x.focus.items x.index item)
      (placeAgain item x.index x.focus).children.length = true) :
    ∃ c' e', putItem pastEnd item c =
        .ok (pathNodes x.frames (placeAgain item x.index x.focus), 0 :: pathIndexes x.frames) c' ∧
      Mirror base c' e' ∧ e'.root = e.root ∧
      e'.dal.Hangs F x.frames (placeAgain item x.index x.focus) (x.focus.children.flatMap tags) ∧
      Dal.Keeps F e.dal e'.dal ∧ e'.dal.freelist = e.dal.freelist := by
  obtain ⟨ho, hroot⟩ := stands_some.mp hs
  have hreads : c.dal.Reads t := hm.reads ho.holds
  have hfuel : x.frames.length < c.dal.fuel := by
    have hpath := hreads
    rw [← hx.eq] at hpath
    exact hpath.length_frames_lt
  obtain ⟨old, hold, -⟩ := hx.mem (scans_findKeyInNode item.key) hf
  have hi := (List.getElem?_eq_some_iff.mp hold).1
  rw [← hx.eq] at hu ho
  obtain ⟨k, -, hfocus⟩ := uniform_of_plugAll hu
  have hchildren : (placeAgain item x.index x.focus).children ⊆ x.focus.children := by
    intro s hs
    rcases List.mem_append.mp hs with hs | hs
    · exact hs
    · exact List.mem_of_getLast? (Option.mem_toList.mp hs)
  obtain ⟨e', hwrite, hg, hk, hfl⟩ := ho.writeOver (v := placeAgain item x.index x.focus) rfl
    hchildren hroom
  obtain ⟨d', hwrite', hm'⟩ := (Dal.sim_writeNode _).ok hm.dal hwrite
  have h0 : x.focus.tag ≠ 0 := hg.tag_ne_zero
  obtain ⟨-, hplaced⟩ := Dal.writeNode_of_save (m := nodeOf (placeAgain item x.index x.focus))
    (n := nodeOf (place item x.index x.focus)) h0 rfl (save_again item hfocus hi) hwrite'
  have hm'' : Mirror base { c with dal := d' } { e with dal := e' } := ⟨hm', hm.name, hm.root⟩
  refine ⟨{ c with dal := d' }, { e with dal := e' }, ?_, hm'', rfl, hg, hk, hfl⟩
  have htag : t.tag = (plugAll x.frames (placeAgain item x.index x.focus)).tag := by
    rw [← hx.eq, Dal.tag_plugAll, Dal.tag_plugAll]; rfl
  have hroot' : c.root = t.tag := hm.root.trans hroot
  rw [putItem_path pastEnd hreads hroot' hx hfuel]
  refine (Prog.bind_ok (onDal_ok (Prog.orPanic_ok hplaced))).trans ?_
  have hnodes := getNodes_ok (c := { c with dal := d' }) (hm''.reads hg.holds) (hroot'.trans htag)
  exact (Prog.bind_ok hnodes).trans rfl

omit [System] in
theorem leftNeat_of_dropsOld {o : Options} (hu : Uniform h t)
    (hx : locate (findKeyInNode item.key) t = some x) (hpath : IsPath (findKeyInNode item.key) t x)
    (hf : x.found = true) (hdrops : DropsOld o item t.erase) :
    LeftNeat o (placeAgain item x.index x.focus) x.frames (x.focus.children.flatMap tags) := by
  obtain ⟨y, hy, gs, f, hfs, hover, -, hover', hsplit, -⟩ := hdrops
  have hxe : locate (findKeyInNode item.key) t.erase = some x.erase := by rw [locate_erase, hx]; rfl
  obtain rfl := Option.some.inj (hxe.symm.trans hy)
  obtain ⟨gs', hs, hframes, -, hlast⟩ := List.map_eq_append_iff.mp hfs
  obtain ⟨f', rfl, rfl⟩ := List.map_eq_singleton_iff.mp hlast
  obtain ⟨old, hold, -⟩ := hpath.mem (scans_findKeyInNode item.key) hf
  rw [← hpath.eq] at hu
  obtain ⟨k, -, hfocus⟩ := uniform_of_plugAll hu
  simp only [Path.erase, items_erase, Frame.items_erase] at hover hover' hsplit
  refine ⟨f', by rw [hframes]; simp, hover, hover', _, hsplit, ?_⟩
  rw [splitLeft_placeAgain hold hfocus.jointed (Nat.le_refl _)]
  exact ((List.take_sublist _ _).flatMap _).subperm

/-- **`put` of a key that is there does what `overwriteOutline` says.**  The pages of the tree
are each used once if the old item is dropped. -/
theorem put_again (pastEnd : Item) {key value : Bytes} (hm : Mirror base c e)
    (hs : e.Stands F (some t)) (hw : WellFormed (some t)) (hkey : valueAt (some t) key ≠ none)
    (hsafe : OverwriteSafe (Capacity.page pageSize) c.dal.options ⟨key, value⟩ t.erase)
    (hn : (Op.put key value pastEnd).Numbers (Capacity.page pageSize) c.dal.freelist.maxPage
      (some t)) :
    ∃ c' e' t', put pastEnd key value c = .ok () c' ∧ Mirror base c' e' ∧ c'.Shows (some t') ∧
      t'.erase = overwriteOutline c.dal.options ⟨key, value⟩ t.erase ∧
      Dal.Keeps F e.dal e'.dal ∧
      (DropsOld c.dal.options ⟨key, value⟩ t.erase → e'.Stands F (some t')) := by
  rw [hm.dal.options] at hsafe ⊢
  rw [hm.dal.freelist] at hn
  set item : Item := ⟨key, value⟩ with hitem
  obtain ⟨ho, hroot⟩ := stands_some.mp hs
  obtain ⟨⟨h, hu⟩, hsorted⟩ := wellFormed_some.mp hw
  obtain ⟨x, hx, hpath⟩ := exists_path item.key hu.regular
  have hf : x.found = true := (found_iff hpath hsorted).mpr hkey
  have hxe : locate (findKeyInNode item.key) t.erase = some x.erase := by rw [locate_erase, hx]; rfl
  obtain ⟨hroom, hsplit, htop⟩ := hsafe _ hxe
  simp only [Path.erase, items_erase, splitSafe_erase, topItems_erase, ← erase_placeAgain,
    children_erase, List.length_map] at hroom hsplit htop
  set leaf := placeAgain item x.index x.focus with hleaf
  obtain ⟨c₁, e₁, hrun₁, hm₁, hroot₁, hg₁, hk₁, hfl₁⟩ :=
    putItem_again pastEnd hm hs hu hpath hf hroom
  have hup : Uniform h (plugAll x.frames leaf) := by
    obtain ⟨old, hold, -⟩ := hpath.mem (scans_findKeyInNode item.key) hf
    rw [← hpath.eq] at hu
    obtain ⟨k, hk, hfocus⟩ := uniform_of_plugAll hu
    exact uniform_plugAll hu hk (uniform_placeAgain hold hfocus)
  have htag : e₁.root = (plugAll x.frames leaf).tag := by
    rw [hroot₁, hroot, ← hpath.eq, Dal.tag_plugAll, Dal.tag_plugAll]; rfl
  obtain ⟨e₂, t', rest, hrun₂, hg₂, hneat₂, hroot₂, -, he₂, hk₂, -⟩ := splitUp_ok hg₁ hup htag
    (by rw [hk₁.options]; exact hsplit) (by rw [hk₁.options]; exact htop)
    (by rw [hfl₁]; exact hn x hx)
  rw [hk₁.options] at hneat₂ he₂
  obtain ⟨c₂, hrun₂', hm₂⟩ := (Sim.bind
    (mirrors_simulates.sim_onDal (Sim.forEach (sim_splitRound _ _) _))
    fun _ => mirrors_simulates.sim_splitRoot _).ok hm₁ hrun₂
  refine ⟨c₂, e₂, t', ?_, hm₂, hm₂.shows hroot₂ hg₂.tag_ne_zero hg₂.hole, ?_, hk₁.trans hk₂,
    fun hdrops => ?_⟩
  · have hne : c.root ≠ 0 := by rw [hm.root, hroot]; exact ho.tag_ne_zero
    rw [put, Prog.get_bind, if_neg hne, Prog.bind_ok hrun₁]
    exact hrun₂'
  · rw [he₂, overwriteOutline_eq hxe, erase_placeAgain]
    rfl
  · refine stands_some.mpr ⟨hg₂.owns (hneat₂ (.inr ?_)), hroot₂⟩
    exact leftNeat_of_dropsOld hu hx hpath hf hdrops

end Put

end Collection

/-! ## Overwriting -/

/-- What a put of a key that is there is to do: the key has the new value and is there once,
and every other key is as it was. -/
structure Overwrites [System] (c c' : Collection File) (item : Item) : Prop where
  found : (find item.key c').answer = .ok (some item)
  others : ∀ key, key ≠ item.key → (find key c').answer = (find key c).answer
  once : ∃ t, c'.Shows (some t) ∧ occurrences item.key t.inorder = 1

theorem occurrences_of_sorted {l₁ l₂ : List Item} {a : Item}
    (hs : Sorted KeyLt Item.key (l₁ ++ a :: l₂)) : occurrences a.key (l₁ ++ a :: l₂) = 1 := by
  obtain ⟨-, hs₂, hlt⟩ := Sorted.append_iff.mp hs
  have h₁ : l₁.countP (fun b => b.key = a.key) = 0 := List.countP_eq_zero.mpr fun b hb hk =>
    irrefl (r := KeyLt) _ (of_decide_eq_true hk ▸ hlt b hb a List.mem_cons_self)
  have h₂ : l₂.countP (fun b => b.key = a.key) = 0 := List.countP_eq_zero.mpr fun b hb hk =>
    irrefl (r := KeyLt) _ (of_decide_eq_true hk ▸ (List.pairwise_cons.mp hs₂).1 b hb)
  rw [occurrences, List.countP_append, List.countP_cons, h₁, h₂]
  simp

section Overwriting

variable {o : Options} {base : Bytes} {c c' : Collection File} {t t' : PTree} {item : Item}

/-- What `find` answers is in the tree, also where the tree is not sorted. -/
theorem mem_of_find [System] (hshows : c.Shows (some t)) (hregular : Regular t) {key : Bytes} {a : Item}
    (hfind : (find key c).answer = .ok (some a)) : a ∈ t.inorder := by
  obtain ⟨x, hpath, -, hrun⟩ := find_of_regular key (hshows.reads t rfl).2 hshows.root hregular
  have ha : (if x.found then x.focus.items[x.index]? else none) = some a := by
    rw [hrun] at hfind
    exact Except.ok.inj hfind
  split at ha
  next hf =>
    obtain ⟨b, hb, -, hmem⟩ := hpath.mem (scans_findKeyInNode key) hf
    obtain rfl := Option.some.inj (hb.symm.trans ha)
    exact hmem
  next => cases ha

section Replaced

variable {l₁ l₂ : List Item} {old : Item} (hin : t.inorder = l₁ ++ old :: l₂)
  (hold : old.key = item.key) (hin' : t'.inorder = l₁ ++ item :: l₂)
include hin hold hin'

theorem valueAt_replaced (hw : WellFormed (some t)) (hw' : WellFormed (some t')) (key : Bytes) :
    valueAt (some t') key = if key = item.key then some item else valueAt (some t) key := by
  have hs := hw.sorted
  have hs' := hw'.sorted
  rw [contents_some, hin] at hs
  rw [contents_some, hin'] at hs'
  rw [valueAt, valueAt, contents_some, contents_some, hin, hin', itemOf_insert hs', itemOf_insert hs,
    hold]
  split <;> rfl

theorem overwrites_of_replaced [System] (h : Session o base c (some t)) (h' : Session o base c' (some t')) :
    Overwrites c c' item := by
  have hvalue := valueAt_replaced hin hold hin' h.wellFormed h'.wellFormed
  have hs' := h'.wellFormed.sorted
  rw [contents_some, hin'] at hs'
  refine ⟨?_, fun key hne => ?_, t', h'.serves.toShows, ?_⟩
  · rw [h'.serves.find h'.wellFormed, hvalue, if_pos rfl]
    rfl
  · rw [h'.serves.find h'.wellFormed, h.serves.find h.wellFormed, hvalue, if_neg hne]
    rfl
  · rw [hin']
    exact occurrences_of_sorted hs'

end Replaced

/-- **A put overwrites an item exactly if it drops it**; where it does, a safe remove takes
the key away. -/
theorem overwrites_iff [System] (h : Session o base c (some t)) (pastEnd : Item)
    (hkey : valueAt (some t) item.key ≠ none)
    (hsafe : OverwriteSafe (Capacity.page o.pageSize) o item t.erase)
    (hn : (Op.put item.key item.value pastEnd).Numbers (Capacity.page o.pageSize)
      c.dal.freelist.maxPage (some t)) :
    ∃ c', put pastEnd item.key item.value c = .ok () c' ∧
      (Overwrites c c' item ↔ DropsOld o item t.erase) ∧
      (DropsOld o item t.erase → SafeAt (Capacity.page o.pageSize) c' (.remove item.key) →
        ∃ c'', remove item.key c' = .ok () c'' ∧ (find item.key c'').answer = .ok none) := by
  have hop := h.options
  have hw := h.wellFormed
  obtain ⟨e, hm, hs, -, hk⟩ := id h
  obtain ⟨c', e', t', hput, hm', hshows, he, hk', hstands⟩ := put_again pastEnd hm hs hw hkey
    (hop ▸ hsafe) hn
  rw [hop] at he hstands
  -- the tree before the put, page numbers left out
  obtain ⟨⟨k, hu⟩, hsorted⟩ := wellFormed_some.mp (wellFormed_erase.mpr hw)
  obtain ⟨x, hx, hpath⟩ := exists_path item.key hu.regular
  have hf : x.found = true := by
    refine (found_iff hpath hsorted).mpr ?_
    have := (valueAt_erase (some t) item.key).symm ▸ hkey
    exact this
  have hsession : DropsOld o item t.erase → Session o base c' (some t') ∧
      ∃ l₁ old l₂, t.inorder = l₁ ++ old :: l₂ ∧ old.key = item.key ∧
        t'.inorder = l₁ ++ item :: l₂ := by
    intro hdrops
    obtain ⟨hw', l₁, old, l₂, hin, hold, hin'⟩ :=
      contents_of_dropsOld hu hsorted hx hpath hf hsafe hdrops
    rw [← he] at hw' hin'
    rw [inorder_erase] at hin hin'
    exact ⟨⟨e', hm', hstands hdrops, wellFormed_erase.mp hw', hk.trans hk'⟩, l₁, old, l₂, hin, hold,
      hin'⟩
  refine ⟨c', hput, ⟨fun hover => ?_, fun hdrops => ?_⟩, fun hdrops hremove => ?_⟩
  · obtain ⟨u, hu', hone⟩ := hover.once
    obtain rfl := Option.some.inj (hu'.unique hshows)
    refine dropsOld_of_once hu hsorted hx hpath hf hsafe ?_ fun a ha hne => ?_
    · rw [← he, inorder_erase]
      exact hone
    · rw [inorder_erase] at ha
      rw [← he, inorder_erase]
      have hregular : Regular u := by
        obtain ⟨h', hu'⟩ := overwriteOutline_uniform (o := o) hu hx hpath hf
        exact (he ▸ hu').of_erase.regular
      have hfind : (find a.key c').answer = .ok (some a) := by
        rw [hover.others a.key hne, h.serves.find hw]
        exact congrArg Except.ok ((itemOf_eq_some hw.sorted).mpr ⟨ha, rfl⟩)
      exact mem_of_find hshows hregular hfind
  · obtain ⟨h', l₁, old, l₂, hin, hold, hin'⟩ := hsession hdrops
    exact overwrites_of_replaced hin hold hin' h h'
  · obtain ⟨h', l₁, old, l₂, hin, hold, hin'⟩ := hsession hdrops
    have hthere : valueAt (some t') item.key ≠ none := by
      rw [valueAt_replaced hin hold hin' hw h'.wellFormed, if_pos rfl]
      exact Option.some_ne_none item
    obtain ⟨c'', hrun, hnone, -⟩ := (removesExactly_of_session h' hremove).present hthere
    exact ⟨c'', hrun, hnone⟩

end Overwriting

/-! ## A put that overwrites, and one that does not -/

/-- The search for 30 after `fourPuts` ends in the middle leaf, under an over-populated root. -/
def pathToThirty : Path Unit Item :=
  ⟨[Frame.ofNode () ([20, 35].map fun k => ⟨[k], [k]⟩)
      [.node () [⟨[10], [10]⟩] [], .node () [⟨[30], [30]⟩] [], .node () [] []] 1],
    .node () [⟨[30], [30]⟩] [], 0, true⟩

theorem locate_thirty :
    locate (findKeyInNode [30]) afterFourPuts.erase = some pathToThirty := rfl

theorem overwriteSafe_thirty :
    OverwriteSafe (Capacity.page 4096) thinNodes ⟨[30], [31]⟩ afterFourPuts.erase := by
  intro x hx
  obtain rfl := Option.some.inj (locate_thirty.symm.trans hx)
  refine ⟨by decide +kernel, ⟨trivial, fun _ => ⟨⟨[30], [30]⟩, ?_, ?_⟩⟩, ?_⟩
  · decide +kernel
  · decide +kernel
  · decide +kernel

theorem dropsOld_thirty : DropsOld thinNodes ⟨[30], [31]⟩ afterFourPuts.erase := by
  refine ⟨pathToThirty, locate_thirty, [], _, rfl, ?_, .singleton _, ?_, ?_, rfl⟩
  · decide +kernel
  · decide +kernel
  · decide +kernel

/-- What the put leaves: the old item went with the separators of the outdated root. -/
def afterThirtyAgain : PTree :=
  .node 8 [⟨[35], [35]⟩]
    [.node 4 [⟨[20], [20]⟩] [leafOf 3 [10], .node 5 [⟨[30], [31]⟩] []], .node 9 [] [leafOf 6 []]]

theorem removeSafe_thirty :
    RemoveSafe (Capacity.page 4096) thinNodes [30] afterThirtyAgain.erase := by
  intro x hx _
  have hloc : locate (findKeyInNode [30]) afterThirtyAgain.erase =
      some ⟨[Frame.ofNode () [⟨[35], [35]⟩] (afterThirtyAgain.children.map Tree.erase) 0,
        Frame.ofNode () [⟨[20], [20]⟩]
          [.node () [⟨[10], [10]⟩] [], .node () [⟨[30], [31]⟩] []] 1],
        .node () [⟨[30], [31]⟩] [], 0, true⟩ := rfl
  obtain rfl := Option.some.inj (hloc.symm.trans hx)
  refine ⟨_, takeOut_leaf rfl, by decide +kernel, ?_⟩
  -- an empty node is not under-populated
  refine ⟨⟨trivial, fun h => absurd h ?_⟩, fun h => absurd h ?_⟩
  · decide +kernel
  · decide +kernel

theorem layout_afterFourPuts : Layout ⟨6, []⟩ firstPages (pagesOf (some afterFourPuts)) := by
  refine ⟨by decide, by decide, fun p hp hle => ?_, fun p hp => Nat.le_trans hp (by decide),
    Nat.zero_le 2⟩
  have hlarge : ∀ p ∈ pagesOf (some afterFourPuts) ++ [], ¬p ≤ 2 := by decide
  exact hlarge p hp hle

theorem exists_thirtyAgain : ∃ d c c', Dal.create thinNodes = .ok () d ∧
    replay fourPuts ⟨d, [], 0⟩ = some c ∧ Session thinNodes d.file.bytes c (some afterFourPuts) ∧
    c.dal.freelist = ⟨6, []⟩ ∧ put ⟨[], []⟩ [30] [31] c = .ok () c' ∧
    c'.Shows (some afterThirtyAgain) ∧ c'.dal.options = thinNodes := by
  have hshelf : ∃ e ∈ replay fourPuts
      (⟨Dal.begun thinNodes, [], 0⟩ : Collection (Shelf (Capacity.page 4096))),
      (e.root = afterFourPuts.tag ∧ e.dal.Holds afterFourPuts) ∧ e.dal.freelist = ⟨6, []⟩ ∧
      (e.dal.options = thinNodes ∧ e.dal.metaPage = ⟨0, 1⟩ ∧ ∀ p < 3, e.dal.at? p = none) ∧
      e.dal.written = [5, 4, 6, 5, 5, 4, 3, 4, 5, 3, 3] ++ [2] ∧
      ∃ r ∈ (put ⟨[], []⟩ [30] [31] e).result?, (r.2.root = afterThirtyAgain.tag ∧
        r.2.dal.Holds afterThirtyAgain) ∧ r.2.dal.options = thinNodes := by decide +kernel
  obtain ⟨e, he, ⟨hroot, hholds⟩, hfl, ⟨hop, hmeta, hat⟩, hwritten, ⟨⟨⟩, e'⟩, hput,
    ⟨hroot', hholds'⟩, hop'⟩ := hshelf
  obtain ⟨d, c, hd, hrun, hm⟩ := exists_session (o := thinNodes) (by decide) (by decide) he
  obtain ⟨c', hput', hm'⟩ := (sim_put _ _ _).ok hm (Outcome.eq_ok_of_result? hput)
  have hstands : e.Stands firstPages (some afterFourPuts) :=
    stands_some.mpr ⟨⟨hholds, hfl ▸ layout_afterFourPuts⟩, hroot⟩
  have hempty : ∀ p < 3, (Dal.begun thinNodes : Dal (Shelf (Capacity.page 4096))).at? p = none := by
    decide +kernel
  have hlarge : ∀ p ∈ [5, 4, 6, 5, 5, 4, 3, 4, 5, 3, 3], ¬p ≤ 2 := by decide
  have hkeeps : Dal.Keeps firstPages (Dal.begun thinNodes) e.dal :=
    ⟨hop, hmeta, fun p hp => (hat p (Nat.lt_succ_of_le hp)).trans
      (hempty p (Nat.lt_succ_of_le hp)).symm, _, hwritten, hlarge⟩
  exact ⟨d, c, c', hd, hrun, ⟨e, hm, hstands, wellFormed_afterFourPuts, hkeeps⟩,
    hm.dal.freelist.trans hfl, hput', hm'.shows hroot' (by decide) hholds',
    hm'.dal.options.trans hop'⟩

theorem overwrites_iff_thirty : ∃ d c c', Dal.create thinNodes = .ok () d ∧
    replay fourPuts ⟨d, [], 0⟩ = some c ∧ put ⟨[], []⟩ [30] [31] c = .ok () c' ∧
    Overwrites c c' ⟨[30], [31]⟩ ∧
    ∃ c'', remove [30] c' = .ok () c'' ∧ (find [30] c'').answer = .ok none := by
  obtain ⟨d, c, c', hd, hrun, hsession, hfl, hput, hshows, hop⟩ := exists_thirtyAgain
  have hn : (Op.put [30] [31] ⟨[], []⟩).Numbers (Capacity.page 4096) c.dal.freelist.maxPage
      (some afterFourPuts) := by
    intro x hx
    obtain rfl : _ = x := Option.some.inj ((show locate (findKeyInNode [30]) afterFourPuts = some
      ⟨[Frame.ofNode 4 ([20, 35].map fun k => ⟨[k], [k]⟩) afterFourPuts.children 1],
        leafOf 5 [30], 0, true⟩ from rfl).symm.trans hx)
    rw [hfl]
    decide
  have hthere : valueAt (some afterFourPuts) [30] ≠ none := by decide
  obtain ⟨c₁, hput₁, hiff, hremove⟩ :=
    overwrites_iff hsession ⟨[], []⟩ hthere overwriteSafe_thirty hn
  obtain rfl : c' = c₁ := (Outcome.ok.inj (hput.symm.trans hput₁)).2
  have hsafe : SafeAt (Capacity.page 4096) c' (.remove [30]) :=
    ⟨some afterThirtyAgain, hshows, trivial, hop ▸ removeSafe_thirty, trivial⟩
  exact ⟨d, c, c', hd, hrun, hput, hiff.mpr dropsOld_thirty, hremove dropsOld_thirty hsafe⟩

/-- **A second put of a key leaves it there twice**, and a remove takes only one of the two. -/
theorem key_there_twice : ∃ d c c' c'', Dal.create BuiltinOptions.balance = .ok () d ∧
    put ⟨[], []⟩ [7] [8] ⟨d, [], 0⟩ = .ok () c ∧ put ⟨[], []⟩ [7] [9] c = .ok () c' ∧
    ¬Overwrites c c' ⟨[7], [9]⟩ ∧ remove [7] c' = .ok () c'' ∧
    (find [7] c'').answer = .ok (some ⟨[7], [8]⟩) := by
  have hshelf : ∃ r ∈ (put ⟨[], []⟩ [7] [8]
      (⟨Dal.begun BuiltinOptions.balance, [], 0⟩ :
        Collection (Shelf (Capacity.page 4096)))).result?,
      ∃ r' ∈ (put ⟨[], []⟩ [7] [9] r.2).result?,
      (r'.2.root = 3 ∧ r'.2.dal.Holds (.node 3 [⟨[7], [9]⟩, ⟨[7], [8]⟩] [])) ∧
      ∃ r'' ∈ (remove [7] r'.2).result?, (find [7] r''.2).answer = .ok (some ⟨[7], [8]⟩) := by
    decide +kernel
  obtain ⟨⟨⟨⟩, e⟩, hput, ⟨⟨⟩, e'⟩, hput', ⟨hroot, hholds⟩, ⟨⟨⟩, e''⟩, hremove, hfind⟩ := hshelf
  obtain ⟨d, hd, hm₀, -⟩ := Dal.create_ok (o := BuiltinOptions.balance) (by decide) (by decide)
  have hstart : Mirror d.file.bytes ⟨d, [], 0⟩
      (⟨Dal.begun BuiltinOptions.balance, [], 0⟩ : Collection (Shelf (Capacity.page 4096))) :=
    ⟨hm₀, rfl, rfl⟩
  obtain ⟨c, hrun, hm⟩ := (sim_put _ _ _).ok hstart (Outcome.eq_ok_of_result? hput)
  obtain ⟨c', hrun', hm'⟩ := (sim_put _ _ _).ok hm (Outcome.eq_ok_of_result? hput')
  obtain ⟨c'', hrun'', hm''⟩ := (sim_remove _).ok hm' (Outcome.eq_ok_of_result? hremove)
  refine ⟨d, c, c', c'', hd, hrun, hrun', fun hover => ?_, hrun'', hm''.find hfind⟩
  obtain ⟨t, ht, hone⟩ := hover.once
  have hshows : c'.Shows (some (.node 3 [⟨[7], [9]⟩, ⟨[7], [8]⟩] [])) :=
    hm'.shows hroot (by decide) hholds
  obtain rfl := Option.some.inj (ht.unique hshows)
  exact absurd hone (by decide)

end Toocal
