import Toocal.Library.Seeking
import Toocal.Store.Journal
import Toocal.Tree.Runs

/-!
# `put`, cut off between two writes

`Shelf.Offers s r l` says that a search from page `r` on ends, on the shelf `s`, as it does in
the sequence `l`.  A split writes the right half, the parent and the left half, in this
order: once the parent is written the node that has been cut still stands on its page as a
whole, but the new item of the parent keeps every search away from what moved
(`offers_uncut`).
-/

namespace Toocal

open Outcomes Multiway Multiway.Tree

/-! ## The writes of a split -/

namespace Dal

section Writes

variable {φ : Type} [PageStore φ] {d d' : Dal φ}

theorem split_writes_three {this node : Node} {index : Nat} {r : Node × Node}
    (h : split this node index d = .ok r d') : ∃ items children new right parent left d₀ d₁ d₂,
      newNode items children d = .ok new d₀ ∧ writeNode new d₀ = .ok right d₁ ∧
      (parent.pageNum = this.pageNum ∧ writeNode parent d₁ = .ok r.1 d₂) ∧
      (left.pageNum = node.pageNum ∧ writeNode left d₂ = .ok r.2 d') ∧
      ∀ past, split this node index (d.journal past) =
        .ok r (d'.journal (d₂.file :: d₁.file :: d₀.file :: past)) := by
  rw [split, Prog.get_bind] at h
  obtain ⟨s, _, hdemand, h⟩ := Prog.bind_eq_ok.mp h
  obtain ⟨hs, rfl⟩ := Prog.demand_eq_ok.mp hdemand
  obtain ⟨m, _, helement, h⟩ := Prog.bind_eq_ok.mp h
  obtain ⟨hm, rfl⟩ := Prog.demand_eq_ok.mp helement
  -- what follows the check of the children is the same for a leaf and an inner node
  have hguard : node.isLeaf = true ∨ s + 1 ≤ node.children.length := by
    by_cases hleaf : node.isLeaf = true
    · exact .inl hleaf
    · rw [if_neg hleaf] at h
      obtain ⟨_, _, hrequire, -⟩ := Prog.bind_eq_ok.mp h
      exact .inr (Prog.require_eq_ok.mp hrequire).1
  rw [Prog.guard_bind hguard] at h
  obtain ⟨new, d₀, hnew, h⟩ := Prog.bind_eq_ok.mp h
  obtain ⟨right, d₁, hright, h⟩ := Prog.bind_eq_ok.mp h
  obtain ⟨_, _, hrequire, h⟩ := Prog.bind_eq_ok.mp h
  obtain ⟨hitems, rfl⟩ := Prog.require_eq_ok.mp hrequire
  obtain ⟨_, _, hrequire', h⟩ := Prog.bind_eq_ok.mp h
  obtain ⟨hchildren, rfl⟩ := Prog.require_eq_ok.mp hrequire'
  obtain ⟨parent, d₂, hparent, h⟩ := Prog.bind_eq_ok.mp (Prog.orPanic_eq_ok.mp h)
  obtain ⟨left, d₃, hleft, h⟩ := Prog.bind_eq_ok.mp h
  obtain ⟨rfl, rfl⟩ := Outcome.ok.inj h
  have hwritten := Prog.orPanic_eq_ok.mp hright
  refine ⟨_, _, new, right,
    { this.addItem m index with
      children := insertAt (this.addItem m index).children (index + 1) right.pageNum },
    { node with items := node.items.take s, children := node.children.take (s + 1) },
    d₀, d₁, d₂, hnew, hwritten, ⟨rfl, hparent⟩, ⟨rfl, hleft⟩, fun past => ?_⟩
  have hs' : (d.journal past).options.getSplitIndex node.items = some s := hs
  rw [split, Prog.get_bind, hs', Prog.demand_some, Prog.ret_bind, Prog.element_bind hm]
  refine (congrFun (Prog.guard_bind hguard _) _).trans ?_
  refine (Prog.bind_ok (newNode_journal hnew past)).trans ?_
  rw [Prog.bind_ok (Prog.orPanic_ok (writeNode_journal hwritten past)),
    Prog.require_bind hitems, Prog.require_bind hchildren]
  apply Prog.orPanic_ok
  rw [Prog.bind_ok (writeNode_journal hparent _), Prog.bind_ok (writeNode_journal hleft _)]
  rfl

end Writes

section Shelves

variable {cap : Capacity} {d : Dal (Shelf cap)} {F : Set Nat} {f : Frame Nat Item} {t : PTree}
  {c : Cut Nat} {h : Nat} {rest : List Nat}

/-- **Between the writes of a split.**  After the first one only the new page is another.
After the second one the parent has its new item, and the whole node stands to the left of
it. -/
theorem split_between (ha : d.Around F f t rest) (hu : Uniform h t)
    (hc : cut d.options d.freelist.getNextPage.1 t = some c)
    (hroom : cap.room (insertAt f.items f.left.length c.middle) (f.items.length + 2) = true)
    (hnames : cap.names (d.freelist.maxPage + 1) = true) :
    ∃ d₁ d₂ d' : Dal (Shelf cap),
      split (nodeOf (f.plug t)) (nodeOf t) f.left.length d =
        .ok (nodeOf ((f.addRight c.middle c.right).plug c.left), nodeOf c.left) d' ∧
      (∀ past, split (nodeOf (f.plug t)) (nodeOf t) f.left.length (d.journal past) =
        .ok (nodeOf ((f.addRight c.middle c.right).plug c.left), nodeOf c.left)
          (d'.journal (d₂.file :: d₁.file :: d.file :: past))) ∧
      (∀ p, p ≠ d.freelist.getNextPage.1 → d₁.at? p = d.at? p) ∧
      (∀ p, p ≠ d.freelist.getNextPage.1 → p ≠ f.tag → d₂.at? p = d.at? p) ∧
      d₂.Holds ((f.addRight c.middle c.right).plug t) ∧
      d'.Holds ((f.addRight c.middle c.right).plug c.left) := by
  set q := d.freelist.getNextPage.1 with hq
  set g := f.addRight c.middle c.right with hg
  have hap : Apart F q f t := .of_places ha.layout.nextPage.places ha.below
  obtain ⟨d', rest', hrun, hhangs, -⟩ :=
    split_ok (x := ⟨t, t⟩) ha (.same hu) hc hroom hnames
  obtain ⟨items, children, new, right, parent, left, d₀, d₁, d₂, hnew, hright, ⟨hp, hparent⟩,
    ⟨hl, hleft⟩, hjournal⟩ := split_writes_three hrun
  obtain ⟨rfl, rfl⟩ := Outcome.ok.inj ((newNode_ok d items children).symm.trans hnew)
  have hqm : q ∈ [q, f.tag, t.tag] := by simp
  have hfm : f.tag ∈ [q, f.tag, t.tag] := by simp
  have htm : t.tag ∈ [q, f.tag, t.tag] := by simp
  have hne0 : ∀ p ∈ [q, f.tag, t.tag], p ≠ 0 := fun p hm h0 => hap.outside p hm (h0 ▸ hap.zero)
  obtain ⟨⟨hqf, hqt⟩, hft⟩ : (q ≠ f.tag ∧ q ≠ t.tag) ∧ f.tag ≠ t.tag := by simpa using hap.nodup
  have h₁ : ∀ p, p ≠ q → d₁.at? p = d.at? p := (of_writeNode (hne0 q hqm) hright).2
  have h₂ : ∀ p, p ≠ f.tag → d₂.at? p = d₁.at? p := by
    have hpage : parent.pageNum = f.tag := hp
    rw [← hpage]
    exact (of_writeNode (hpage ▸ hne0 _ hfm) hparent).2
  have h₃ : ∀ p, p ≠ t.tag → d'.at? p = d₂.at? p := by
    have hpage : left.pageNum = t.tag := hl
    rw [← hpage]
    exact (of_writeNode (hpage ▸ hne0 _ htm) hleft).2
  have h₂' : ∀ p, p ≠ q → p ≠ f.tag → d₂.at? p = d.at? p := fun p hpq hpf =>
    (h₂ p hpf).trans (h₁ p hpq)
  refine ⟨d₁, d₂, d', hrun, hjournal, h₁, h₂', ?_, hhangs.hole⟩
  -- what was held before and is none of the two pages is held still
  have hkeep : ∀ s ∈ f.siblings ++ t.children, d.Holds s → d₂.Holds s := fun s hs hh =>
    hh.congr fun p hm => h₂' p (fun he => hap.beside q hqm s hs (he ▸ hm))
      (fun he => hap.beside f.tag hfm s hs (he ▸ hm))
  obtain ⟨hroot, hsibs, -⟩ := holds_plug.mp hhangs.hole
  refine holds_plug.mpr ⟨?_, fun s hs => ?_, holds_iff.mpr ⟨?_, fun s hs => ?_⟩⟩
  · have htag : g.tag = f.tag := rfl
    rw [htag, ← h₃ f.tag hft, ← cut_tag_left hc]
    exact hroot
  · by_cases hold : s ∈ f.siblings
    · exact hkeep s (List.mem_append_left _ hold) (ha.siblings s hold)
    · -- the right half is on the new page, above pages of the node
      obtain rfl : s = c.right := by
        simp only [hg, Frame.siblings, Frame.left_addRight, Frame.right_addRight, List.map_cons,
          List.mem_append, List.mem_cons, not_or] at hs hold
        tauto
      obtain ⟨i, -, -, -, hr⟩ := cut_eq_some.mp hc
      refine (hsibs _ hs).congr fun p hm => (h₃ p fun he => ?_).symm
      rw [tags_eq, cut_tag_right hc, List.mem_cons] at hm
      rcases hm with rfl | hm
      · exact hqt he
      · obtain ⟨u, hu, hm⟩ := List.mem_flatMap.mp hm
        rw [hr] at hu
        exact hap.beside t.tag htm u (List.mem_append_right _ (List.mem_of_mem_drop hu)) (he ▸ hm)
  · rw [h₂' t.tag (Ne.symm hqt) (Ne.symm hft)]
    exact ha.hole.root
  · exact hkeep s (List.mem_append_right _ hs) (ha.hole.child hs)

end Shelves

end Dal

/-! ## What a search finds meanwhile -/

section Offers

variable {cap : Capacity}

/-- The pages of the shelf hold the tree `t`. -/
def Shelf.Holds (s : Shelf cap) (t : PTree) : Prop :=
  ∀ u ∈ t.subtrees, s.lookup u.tag = some (u.items, u.children.map Tree.tag)

/-- From page `r` on every search ends as it does in the sequence `l`. -/
def Shelf.Offers (s : Shelf cap) (r : Nat) (l : List Item) : Prop :=
  ∃ t : PTree, t.tag = r ∧ s.Holds t ∧ Regular t ∧
    ∀ key, seek (findKeyInNode key) t = itemOf key l

theorem seek_eq_itemOf {π : Type} {t : Tree π Item} (hr : Regular t)
    (hs : Sorted KeyLt Item.key t.inorder) (key : Bytes) :
    seek (findKeyInNode key) t = itemOf key t.inorder := by
  obtain ⟨x, hx, hpath⟩ := exists_path key hr
  rw [seek_of_locate hx, item_of_path hpath hs]

theorem stopsAt_of_lt {key : Bytes} {m : Item} (h : KeyLt key m.key) :
    StopsAt (findKeyInNode key) m := by
  have hone : bytescmp m.key key = 1 := bytescmp_eq_one_iff.mpr h
  intro l r
  rw [findKeyInNode, findKeyInNode]
  generalize 0 = index
  induction l generalizing index with
  | nil => simp [findKeyInNodeFrom, hone]
  | cons a l ih => rw [List.cons_append, findKeyInNodeFrom, findKeyInNodeFrom, ih]

theorem stopsAt_of_down {π : Type} {key : Bytes} {f : Frame π Item} {m : Item} {r : Tree π Item}
    (h : findKeyInNode key (f.addRight m r).items = (false, f.left.length)) :
    StopsAt (findKeyInNode key) m := by
  obtain ⟨j, hj, -, -, -, hmiss⟩ := findKeyInNodeFrom_spec h
  obtain rfl : f.left.length = j := by omega
  refine stopsAt_of_lt (hmiss rfl m ?_)
  rw [Frame.items, Frame.left_addRight, List.getElem?_append_right (by simp)]
  simp

theorem findKeyInNode_lt {key : Bytes} {its : List Item} (h : (findKeyInNode key its).1 = true) :
    (findKeyInNode key its).2 < its.length := by
  obtain ⟨a, ha, -⟩ := (scans_findKeyInNode key).hit (Prod.ext h rfl)
  exact (List.getElem?_eq_some_iff.mp ha).1

variable {d : Dal (Shelf cap)} {t : PTree} {H : Nat}

theorem Dal.Holds.offers (hh : d.Holds t) (hu : Uniform H t)
    (hs : Sorted KeyLt Item.key t.inorder) : d.file.Offers t.tag t.inorder :=
  ⟨t, rfl, hh, hu.regular, seek_eq_itemOf hu.regular hs⟩

/-- **With the whole node beside its right half every search ends as before the split.** -/
theorem Dal.Holds.offers_uncut {gs : List (Frame Nat Item)} {f : Frame Nat Item} {c : Cut Nat}
    {o : Options} {q : Nat} (hh : d.Holds (plugAll gs ((f.addRight c.middle c.right).plug t)))
    (hc : cut o q t = some c)
    (hu : Uniform H (plugAll gs (f.plug t)))
    (hs : Sorted KeyLt Item.key (plugAll gs (f.plug t)).inorder) :
    d.file.Offers (plugAll gs (f.plug t)).tag (plugAll gs (f.plug t)).inorder := by
  obtain ⟨k, hk, hplug⟩ := uniform_of_plugAll hu
  obtain ⟨k', rfl, hsibs, ht⟩ := Frame.uniform_of_plug hplug
  obtain ⟨hleft, hright⟩ := cut_uniform hc ht
  have hsibs' : ∀ s ∈ (f.addRight c.middle c.right).siblings, Uniform k' s := by
    intro s hs
    simp only [Frame.siblings, Frame.left_addRight, Frame.right_addRight, List.map_cons,
      List.mem_append, List.mem_cons] at hs
    rcases hs with hs | rfl | hs
    · exact hsibs s (List.mem_append_left _ hs)
    · exact hright
    · exact hsibs s (List.mem_append_right _ hs)
  have hafter := uniform_plugAll hu hk (Frame.uniform_plug hsibs' hleft)
  have hin : (plugAll gs ((f.addRight c.middle c.right).plug c.left)).inorder =
      (plugAll gs (f.plug t)).inorder := by
    rw [inorder_plugAll, inorder_plugAll, inorder_plug_cut, cut_inorder hc ht.jointed,
      Frame.inorder_plug]
  refine ⟨_, ?_, hh, (uniform_plugAll hu hk (Frame.uniform_plug hsibs' ht)).regular, fun key => ?_⟩
  · rw [tag_plugAll, tag_plugAll]
    rfl
  · obtain ⟨i, -, hm, hl, -⟩ := cut_eq_some.mp hc
    have hsame : seek (findKeyInNode key) ((f.addRight c.middle c.right).plug t) =
        seek (findKeyInNode key) ((f.addRight c.middle c.right).plug c.left) := by
      rw [hl]
      exact (seek_plug_splitLeft stopsAt_of_down hm (fun _ => findKeyInNode_lt)
        (scans_findKeyInNode key).le).symm
    rw [seek_plugAll gs hsame, ← hin]
    exact seek_eq_itemOf hafter.regular (hin.symm ▸ hs) key

end Offers

/-! ## The rounds of the loop -/

namespace Collection

open Dal

variable {cap : Capacity} {d d' : Dal (Shelf cap)} {F : Set Nat}

/-- The run from `d` to `d'` goes the same way with a journal, and enters `new` into it. -/
def Enters {φ α : Type} [PageStore φ] (x : Prog Error (Dal (Journal φ)) α) (d : Dal φ) (a : α)
    (d' : Dal φ) (new : List φ) : Prop :=
  ∀ past, x (d.journal past) = .ok a (d'.journal (new ++ past))

section Rounds

variable {f : Frame Nat Item} {gs : List (Frame Nat Item)} {x : Copies Nat} {h H : Nat}
  {l : List Item} {ancestors : List Node} {indexes : List Nat} {i : Nat} {rest : List Nat}

/-- **In a round every search ends as before it.** -/
theorem splitRound_offers (hg : d.Hangs F (gs ++ [f]) x.page rest) (hx : Coherent h l x)
    (hcurrent : d.options.isOverPopulated x.copy.items → x.copy = x.page)
    (hsafe : d.options.isOverPopulated x.copy.items → ∃ m ∈ middleItem d.options x.copy.items,
      cap.room (insertAt f.items f.left.length m) (f.items.length + 2) = true)
    (hnames : cap.names (d.freelist.maxPage + 1) = true)
    (hi : ancestors[i]? = some (nodeOf (f.plug x.copy)))
    (hi' : ancestors[i + 1]? = some (nodeOf x.copy)) (hidx : indexes[i + 1]? = some f.left.length)
    (hu : Uniform H (plugAll (gs ++ [f]) x.page))
    (hs : Sorted KeyLt Item.key (plugAll (gs ++ [f]) x.page).inorder)
    (hrun : splitRound ancestors indexes i d = .ok () d') :
    ∃ new, Enters (splitRound ancestors indexes i) d () d' new ∧ new.length ≤ 3 ∧
      ∀ s ∈ new, s.Offers (plugAll (gs ++ [f]) x.page).tag (plugAll (gs ++ [f]) x.page).inorder := by
  rw [splitRound, Prog.get_bind, Prog.element_bind hi, Prog.element_bind hi'] at hrun
  have hjournal : ∀ past, splitRound ancestors indexes i (d.journal past) =
      (if d.options.isOverPopulated (nodeOf x.copy).items then do
        let index ← Prog.element indexes (i + 1)
        let _ ← split (nodeOf (f.plug x.copy)) (nodeOf x.copy) index
        Prog.ret ()
      else Prog.ret () : Prog Error (Dal (Journal (Shelf cap))) Unit) (d.journal past) := by
    intro past
    rw [splitRound, Prog.get_bind, Prog.element_bind hi, Prog.element_bind hi']
    rfl
  by_cases hover : d.options.isOverPopulated x.copy.items
  · obtain ⟨m, hm, hroom⟩ := hsafe hover
    obtain ⟨c, hc, rfl⟩ := exists_cut d.freelist.getNextPage.1 hm
    obtain ⟨copy, page⟩ := x
    obtain rfl : copy = page := hcurrent hover
    obtain ⟨d₁, d₂, d₃, hsplit, hpast, h₁, h₂, hholds, -⟩ :=
      split_between hg.around hx.page_uniform hc hroom hnames
    rw [items_nodeOf, if_pos hover, Prog.element_bind hidx, Prog.bind_ok hsplit] at hrun
    obtain ⟨-, rfl⟩ := Outcome.ok.inj hrun
    refine ⟨[d₂.file, d₁.file, d.file], fun past => ?_, Nat.le_refl _, fun s hs' => ?_⟩
    · rw [hjournal, items_nodeOf, if_pos hover, Prog.element_bind hidx, Prog.bind_ok (hpast past)]
      rfl
    · -- the new page is none of the tree
      have hfresh : ∀ p ∈ (plugAll (gs ++ [f]) copy).tags, p ≠ d.freelist.getNextPage.1 := by
        rintro p hp rfl
        refine (List.nodup_cons.mp hg.layout.nextPage.places.nodup).1 ?_
        have hmem := (tags_plugAll (gs ++ [f]) copy).subset hp
        rw [tags_eq copy] at hmem
        exact List.append_subset.mpr ⟨List.subset_append_left _ _, List.Subset.trans
          (List.cons_subset_cons _ hg.below) (List.subset_append_right _ _)⟩ hmem
      have hh : plugAll (gs ++ [f]) copy = plugAll gs (f.plug copy) := by simp
      simp only [List.mem_cons, List.not_mem_nil, or_false] at hs'
      rcases hs' with rfl | rfl | rfl
      · rw [hh] at hu hs ⊢
        refine Holds.offers_uncut (holds_plugAll.mpr ⟨?_, hholds⟩) hc hu hs
        have hpath : HoldsPath d gs f.tag := by
          have := hg.holds
          rw [hh, holds_plugAll] at this
          exact this.1
        have hpages : pathTags (gs ++ [f]) = pathTags gs ++ f.tags := by simp [pathTags]
        refine hpath.congr fun p hp => h₂ p (hfresh p ?_) fun he => ?_
        · refine (tags_plugAll (gs ++ [f]) copy).symm.subset (List.mem_append_left _ ?_)
          rw [hpages]
          exact List.mem_append_left _ hp
        · have hnodup := hg.layout.places.nodup.of_append_left
          rw [hpages] at hnodup
          exact List.disjoint_of_nodup_append hnodup hp (he ▸ List.mem_cons_self)
      · exact (hg.holds.congr fun p hp => h₁ p (hfresh p hp)).offers hu hs
      · exact hg.holds.offers hu hs
  · rw [items_nodeOf, if_neg hover] at hrun
    obtain ⟨-, rfl⟩ := Outcome.ok.inj hrun
    refine ⟨[], fun past => ?_, Nat.zero_le _, by simp⟩
    rw [hjournal, items_nodeOf, if_neg hover]
    rfl

theorem Risen.page_eq {hs : List (Frame Nat Item)} {leaf : PTree} {d' : Dal (Shelf cap)}
    {rest' : List Nat} (hr : Risen d d' F gs hs leaf h x rest rest') (hu : Uniform h (plugAll hs leaf))
    (hno : NoDoubleOverflow d.options hs leaf.items) :
    x.page.inorder = (plugAll hs leaf).inorder ∧
      (d.options.isOverPopulated x.copy.items → x.copy = x.page) := by
  refine ⟨?_, fun hover => ?_⟩
  · have houtline : x.page.erase = (growPath d.options leaf.erase (hs.map Frame.erase)).page :=
      congrArg Copies.page hr.outline
    have hue := hu.erase
    rw [erase_plugAll] at hue
    rw [← inorder_erase, houtline, (growPath_inorder hue ?_).1, ← erase_plugAll, inorder_erase]
    rw [NoDoubleOverflow, pathItems_erase, items_erase]
    exact hno
  · have hcurrent := (hr.calm hno).1
    rwa [current, if_pos hover] at hcurrent

/-- **In the loop every search ends as before it**: no write of its rounds hides an item. -/
theorem splitRounds_offers {leaf : PTree} :
    ∀ hs gs : List (Frame Nat Item), d.Hangs F (gs ++ hs) leaf rest →
    Uniform H (plugAll (gs ++ hs) leaf) → Sorted KeyLt Item.key (plugAll (gs ++ hs) leaf).inorder →
    SplitSafe cap d.options hs leaf.items → NoDoubleOverflow d.options hs leaf.items →
    cap.names (d.freelist.maxPage + hs.length) = true →
    ∃ d' x rest' new h, H = h + gs.length ∧
      Prog.forEach (splitRound (pathNodes (gs ++ hs) leaf) (0 :: pathIndexes (gs ++ hs)))
        (roundsFrom gs.length hs.length) d = .ok () d' ∧
      Enters (Prog.forEach (splitRound (pathNodes (gs ++ hs) leaf) (0 :: pathIndexes (gs ++ hs)))
        (roundsFrom gs.length hs.length)) d () d' new ∧
      new.length ≤ 3 * hs.length ∧
      (∀ s ∈ new, s.Offers (plugAll (gs ++ hs) leaf).tag (plugAll (gs ++ hs) leaf).inorder) ∧
      Risen d d' F gs hs leaf h x rest rest' := by
  intro hs
  induction hs with
  | nil =>
    intro gs hg hu _ _ _ _
    obtain ⟨h, hH, hleaf⟩ := uniform_of_plugAll hu
    rw [List.append_nil] at hg hH
    exact ⟨d, ⟨leaf, leaf⟩, rest, [], h, hH, rfl, fun _ => rfl, Nat.le_refl _, by simp, .nil hg hleaf⟩
  | cons f hs ih =>
    intro gs hg hu hsorted hsafe hno hnames
    have hassoc : gs ++ f :: hs = (gs ++ [f]) ++ hs := by simp
    rw [hassoc] at hg hu hsorted
    obtain ⟨hboth, hno'⟩ := noDoubleOverflow_cons.mp hno
    obtain ⟨d₁, x, rest₁, new, k, hH, hrun, henters, hlen, hoffers, hr⟩ :=
      ih (gs ++ [f]) hg hu hsorted hsafe.1 hno' (cap.names_mono (by simp) hnames)
    have hplugged : Uniform H (plugAll (gs ++ [f]) (plugAll hs leaf)) := by
      rwa [plugAll_append] at hu
    obtain ⟨m, hm, hwhole⟩ := uniform_of_plugAll hplugged
    obtain rfl : m = k := by omega
    obtain ⟨hin, hcurrent⟩ := hr.page_eq hwhole hno'
    have hparent : (pathNodes (gs ++ f :: hs) leaf)[gs.length]? = some (nodeOf (f.plug x.copy)) := by
      rw [pathNodes_at, hr.node_plug]
    have hnode : (pathNodes (gs ++ f :: hs) leaf)[gs.length + 1]? = some (nodeOf x.copy) := by
      have := pathNodes_at (gs ++ [f]) hs leaf
      rw [List.length_append, List.length_singleton, ← hassoc] at this
      rw [this, hr.node]
    have hmax := hr.maxPage_le
    have hsplits := hsafe.2
    rw [← hr.keeps.options, ← hr.items] at hsplits
    rw [← hr.keeps.options] at hcurrent
    have hnames' : cap.names (d₁.freelist.maxPage + 1) = true :=
      cap.names_mono (by simp only [List.length_cons]; omega) hnames
    obtain ⟨d₂, q, rest₂, hrun₂, hround⟩ := splitRound_ok hr.hangs hr.coherent hsplits hnames'
      hparent hnode (pathIndexes_at gs hs f)
    -- the tree before the round
    have htag : (plugAll (gs ++ [f]) x.page).tag = (plugAll ((gs ++ [f]) ++ hs) leaf).tag := by
      rw [plugAll_append _ hs]
      cases gs <;> rfl
    have hinorder : (plugAll (gs ++ [f]) x.page).inorder =
        (plugAll ((gs ++ [f]) ++ hs) leaf).inorder := by
      rw [plugAll_append (gs ++ [f]), inorder_plugAll, inorder_plugAll, hin]
    rw [plugAll_append (gs ++ [f])] at hu
    obtain ⟨new₂, henters₂, hlen₂, hoffers₂⟩ := splitRound_offers hr.hangs hr.coherent hcurrent
      hsplits hnames' hparent hnode (pathIndexes_at gs hs f)
      (uniform_plugAll hu hm hr.coherent.page_uniform) (hinorder ▸ hsorted) hrun₂
    have hsib : ∀ c ∈ f.siblings, Uniform m c := by
      rw [plugAll_append] at hu
      obtain ⟨k, hk, hplug⟩ := uniform_of_plugAll hu
      obtain ⟨k', rfl, hsib, -⟩ := Frame.uniform_of_plug hplug
      rw [List.length_append, List.length_singleton] at hm
      obtain rfl : m = k' := by omega
      exact hsib
    refine ⟨d₂, growRound d.options q f x, rest₂, new₂ ++ new, m + 1, ?_, ?_, fun past => ?_, ?_, ?_,
      hr.cons hround hsib⟩
    · rw [hm, List.length_append, List.length_singleton]
      omega
    · rw [List.length_cons, roundsFrom_succ, Prog.forEach_append]
      rw [List.length_append, List.length_singleton, ← hassoc] at hrun
      exact (Prog.bind_ok hrun).trans (Prog.bind_ok hrun₂)
    · rw [List.length_cons, roundsFrom_succ, Prog.forEach_append]
      rw [List.length_append, List.length_singleton, ← hassoc] at henters
      refine (Prog.bind_ok (henters past)).trans ((Prog.bind_ok (henters₂ _)).trans ?_)
      rw [List.append_assoc]
      rfl
    · rw [List.length_append, List.length_cons]
      omega
    · rw [hassoc]
      intro s hs'
      rcases List.mem_append.mp hs' with hs' | hs'
      · rw [← htag, ← hinorder]
        exact hoffers₂ s hs'
      · exact hoffers s hs'

end Rounds

/-! ## The new root -/

section Root

variable {c c' : Collection (Shelf cap)} {x : Copies Nat} {h : Nat} {l : List Item} {rest : List Nat}

/-- **While the root is split every search ends as before**, from the old root or from the new
one. -/
theorem splitRoot_offers (hg : c.dal.Hangs F [] x.page rest) (hx : Coherent h l x)
    (hcurrent : c.dal.options.isOverPopulated x.copy.items → x.copy = x.page)
    (hsafe : c.dal.options.isOverPopulated x.copy.items →
      (middleItem c.dal.options x.copy.items).isSome)
    (hnames : cap.names (c.dal.freelist.maxPage + 2) = true) {ancestors : List Node}
    (h0 : ancestors[0]? = some (nodeOf x.copy)) (hroot : c.root = x.page.tag)
    (hs : Sorted KeyLt Item.key x.page.inorder) (hrun : splitRoot ancestors c = .ok () c') :
    ∃ new, (∀ past, splitRoot ancestors (c.journal past) = .ok () (c'.journal (new ++ past))) ∧
      new.length ≤ 4 ∧
      ∀ s ∈ new, s.Offers c.root x.page.inorder ∨ s.Offers c'.root x.page.inorder := by
  rw [splitRoot, Prog.get_bind, Prog.element_bind h0] at hrun
  by_cases hover : c.dal.options.isOverPopulated x.copy.items
  · obtain ⟨m, hm⟩ := Option.isSome_iff_exists.mp (hsafe hover)
    set fl := c.dal.freelist.getNextPage.2 with hfl
    set q' := c.dal.freelist.getNextPage.1 with hq'
    set f : Frame Nat Item := ⟨q', [], []⟩ with hf
    obtain ⟨cu, hcut, rfl⟩ := exists_cut fl.getNextPage.1 hm
    obtain ⟨copy, page⟩ := x
    obtain rfl : copy = page := hcurrent hover
    have hmax : fl.maxPage ≤ c.dal.freelist.maxPage + 1 := (Freelist.maxPage_getNextPage _).2
    have ha : ({ c.dal with freelist := fl } : Dal (Shelf cap)).Around F f copy rest :=
      ⟨hg.layout.nextPage, hg.below, by simp [hf, Frame.siblings], hg.holds⟩
    have hmid : cu.middle ∈ copy.items := mem_of_middleItem hm
    have hroom : cap.room (insertAt f.items f.left.length cu.middle) (f.items.length + 2) = true :=
      cap.room_root hmid (cap.room_mono (.refl _) (Nat.zero_le _) (Or.inl rfl)
        (fits_of_at? hg.hole.root).1)
    obtain ⟨d₁, d₂, d₃, hsplit, hpast, h₁, h₂, hholds, hholds'⟩ := split_between ha hx.page_uniform
      hcut hroom (cap.names_mono (by show fl.maxPage + 1 ≤ _; omega) hnames)
    rw [items_nodeOf, if_pos hover] at hrun
    obtain ⟨root, c₁, hdal, hset⟩ := Prog.bind_eq_ok.mp hrun
    obtain ⟨d₄, hprog, rfl⟩ := Prog.zoom_eq_ok.mp hdal
    obtain ⟨-, rfl⟩ := Outcome.ok.inj hset
    have hwrite := Prog.orPanic_eq_ok.mp ((Prog.bind_ok hsplit).symm.trans
      ((Prog.bind_ok (newNode_ok c.dal _ _)).symm.trans hprog))
    -- the page of the new root
    have hq0 : q' ≠ 0 := ha.layout.ne_zero (by simp [hf, Frame.tags])
    obtain ⟨_, -, hplaced, -⟩ := writeNode_eq_ok_iff.mp hwrite
    have hpage : root.pageNum = q' := by
      rw [hplaced]
      exact pageFor_of_ne (d := d₃) (n := nodeOf ((f.addRight cu.middle cu.right).plug cu.left)) hq0
    refine ⟨[d₃.file, d₂.file, d₁.file, c.dal.file], fun past => ?_, Nat.le_refl _, fun s hs' => ?_⟩
    · rw [splitRoot, Prog.get_bind, Prog.element_bind h0, items_nodeOf]
      refine (congrFun (if_pos hover) _).trans ((Prog.bind_ok (onDal_ok (?_ : _ =
        Outcome.ok root (d₄.journal (d₃.file :: d₂.file :: d₁.file :: c.dal.file :: past))))).trans rfl)
      refine (Prog.bind_ok (newNode_journal (newNode_ok c.dal _ _) past)).trans ?_
      refine (Prog.bind_ok (hpast past)).trans ?_
      exact Prog.orPanic_ok (writeNode_journal hwrite _)
    · have hbefore : Uniform (h + 1) (f.plug copy) :=
        Frame.uniform_plug (by simp [hf, Frame.siblings]) hx.page_uniform
      have hin : (f.plug copy).inorder = copy.inorder := by
        simp [Frame.inorder_plug, hf, Frame.before, Frame.after]
      have hnew : ({ dal := d₄, name := c.name, root := root.pageNum } : Collection _).root = q' :=
        hpage
      simp only [List.mem_cons, List.not_mem_nil, or_false] at hs'
      rcases hs' with rfl | rfl | rfl | rfl
      · right
        have hu' : Uniform (h + 1) ((f.addRight cu.middle cu.right).plug cu.left) := by
          obtain ⟨hl, hr⟩ := cut_uniform hcut hx.page_uniform
          exact Frame.uniform_plug (by simp [hf, Frame.siblings, hr]) hl
        have hin' : ((f.addRight cu.middle cu.right).plug cu.left).inorder = copy.inorder := by
          rw [inorder_plug_cut, cut_inorder hcut hx.page_uniform.jointed]
          simp [hf, Frame.before, Frame.after]
        have hoffers := hholds'.offers hu' (hin'.symm ▸ hs)
        rw [hin'] at hoffers
        rw [hnew]
        exact hoffers
      · right
        have hoffers : d₂.file.Offers (plugAll [] (f.plug copy)).tag
            (plugAll [] (f.plug copy)).inorder := hholds.offers_uncut hcut hbefore (hin.symm ▸ hs)
        rw [plugAll_nil, hin] at hoffers
        rw [hnew]
        exact hoffers
      · left
        rw [hroot]
        refine (hg.holds.congr fun p hp => h₁ p ?_).offers hx.page_uniform hs
        rintro rfl
        refine (List.nodup_cons.mp ha.layout.nextPage.places.nodup).1 (List.mem_append_right _ ?_)
        rw [plugAll_nil, tags_eq] at hp
        exact List.cons_subset_cons _ hg.below hp
      · left
        rw [hroot]
        exact hg.holds.offers hx.page_uniform hs
  · rw [items_nodeOf, if_neg hover] at hrun
    obtain ⟨-, rfl⟩ := Outcome.ok.inj hrun
    refine ⟨[], fun past => ?_, Nat.zero_le _, by simp⟩
    rw [splitRoot, Prog.get_bind, Prog.element_bind h0, items_nodeOf]
    exact congrFun (if_neg hover) _

end Root

/-! ## `put` as a whole -/

section Run

variable {φ : Type} [PageStore φ] {c : Collection φ} {d' : Dal φ} {t : PTree} {x : Path Nat Item}

/-- The first half of `put` on any store: it reads, writes the node it found, and reads. -/
theorem putItem_run (pastEnd item : Item) {n : Node} (hreads : c.dal.Reads t) (hroot : c.root = t.tag)
    (hx : IsPath (findKeyInNode item.key) t x) (hfuel : x.frames.length < c.dal.fuel)
    (hwrite : writeNode (nodeOf (place item x.index x.focus)) c.dal = .ok n d')
    (hreads' : d'.Reads (plugAll x.frames (place item x.index x.focus))) :
    putItem pastEnd item c =
      .ok (pathNodes x.frames (place item x.index x.focus), 0 :: pathIndexes x.frames)
        { c with dal := d' } := by
  have hroot' : ({ c with dal := d' } : Collection φ).root =
      (plugAll x.frames (place item x.index x.focus)).tag := by
    rw [tag_plugAll]
    exact hroot.trans (by rw [← hx.eq, tag_plugAll]; rfl)
  rw [putItem_path pastEnd hreads hroot hx hfuel]
  refine (Prog.bind_ok (onDal_ok (Prog.orPanic_ok hwrite))).trans ?_
  exact (Prog.bind_ok (getNodes_ok hreads' hroot')).trans rfl

end Run

section Put

variable {c c' : Collection (Shelf cap)} {t : PTree} {h : Nat} {x : Path Nat Item}

/-- **In the second half of `put` every search ends as after its first write.** -/
theorem splitUp_offers {leaf : PTree} {fs : List (Frame Nat Item)} {rest : List Nat}
    (hg : c.dal.Hangs F fs leaf rest) (hu : Uniform h (plugAll fs leaf))
    (hs : Sorted KeyLt Item.key (plugAll fs leaf).inorder) (hroot : c.root = (plugAll fs leaf).tag)
    (hsplit : SplitSafe cap c.dal.options fs leaf.items)
    (htop : c.dal.options.isOverPopulated (topItems fs leaf.items) →
      (middleItem c.dal.options (topItems fs leaf.items)).isSome)
    (hno : NoDoubleOverflow c.dal.options fs leaf.items)
    (hnames : cap.names (c.dal.freelist.maxPage + fs.length + 2) = true) :
    ∃ c' new, (do
        onDal (Prog.forEach (splitRound (pathNodes fs leaf) (0 :: pathIndexes fs))
          (rounds (pathNodes fs leaf)))
        splitRoot (pathNodes fs leaf) : Prog Error (Collection (Shelf cap)) Unit) c = .ok () c' ∧
      (∀ past, (do
        onDal (Prog.forEach (splitRound (pathNodes fs leaf) (0 :: pathIndexes fs))
          (rounds (pathNodes fs leaf)))
        splitRoot (pathNodes fs leaf) : Prog Error (Collection (Journal (Shelf cap))) Unit)
          (c.journal past) = .ok () (c'.journal (new ++ past))) ∧
      new.length ≤ 3 * fs.length + 4 ∧
      ∀ s ∈ new, s.Offers c.root (plugAll fs leaf).inorder ∨
        s.Offers c'.root (plugAll fs leaf).inorder := by
  obtain ⟨d₂, y, rest₂, new, k, rfl, hrun₂, henters, hlen, hoffers, hr⟩ :=
    splitRounds_offers fs [] hg hu hs hsplit hno (cap.names_mono (by omega) hnames)
  simp only [List.nil_append] at hrun₂ henters hoffers
  obtain ⟨hin, hcurrent⟩ := hr.page_eq hu hno
  have hmax := hr.maxPage_le
  have hyroot : c.root = y.page.tag := by
    rw [← hr.coherent.tag, show y.copy.tag = _ from congrArg Node.pageNum hr.node]
    exact hroot
  have htop' := htop
  rw [← hr.keeps.options, ← hr.items] at htop'
  rw [← hr.keeps.options] at hcurrent
  have hnames' : cap.names (d₂.freelist.maxPage + 2) = true := cap.names_mono (by omega) hnames
  have hhead : (pathNodes fs leaf)[0]? = some (nodeOf y.copy) := by rw [pathNodes_head, hr.node]
  obtain ⟨c₃, q, q', rest₃, hrun₃, -⟩ := splitRoot_ok (c := { c with dal := d₂ }) (x := y) hr.hangs
    hr.coherent htop' hyroot hnames' hhead
  obtain ⟨new₃, henters₃, hlen₃, hoffers₃⟩ := splitRoot_offers (c := { c with dal := d₂ }) hr.hangs
    hr.coherent hcurrent htop' hnames' hhead hyroot (hin.symm ▸ hs) hrun₃
  have hrounds : rounds (pathNodes fs leaf) = roundsFrom ([] : List (Frame Nat Item)).length fs.length := by
    rw [rounds_eq, length_pathNodes]
    rfl
  rw [hrounds]
  refine ⟨c₃, new₃ ++ new, (Prog.bind_ok (onDal_ok hrun₂)).trans hrun₃, fun past => ?_, ?_,
    fun s hs' => ?_⟩
  · refine (Prog.bind_ok (onDal_ok (henters past))).trans ((henters₃ (new ++ past)).trans ?_)
    rw [List.append_assoc]
  · rw [List.length_append]
    omega
  · rcases List.mem_append.mp hs' with hs' | hs'
    · rw [← hin]
      exact hoffers₃ s hs'
    · exact .inl (hroot ▸ hoffers s hs')

/-- **`put`, write by write**: until its first write the pages are what they were, and after it
every search ends as in the new sequence, from the root there was or from the root there will
be. -/
theorem put_offers (pastEnd : Item) {key value : Bytes} (ho : c.dal.Owns F t) (hroot : c.root = t.tag)
    (hu : Uniform h t) (hs : Sorted KeyLt Item.key t.inorder)
    (hsafe : PutSafe cap c.dal.options ⟨key, value⟩ t.erase)
    (hx : locate (findKeyInNode key) t = some x) (hpath : IsPath (findKeyInNode key) t x)
    (hf : x.found = false)
    (hno : NoDoubleOverflow c.dal.options x.frames (insertAt x.focus.items x.index ⟨key, value⟩))
    (hnames : cap.names (c.dal.freelist.maxPage + x.frames.length + 2) = true) :
    ∃ c' later, put pastEnd key value c = .ok () c' ∧
      (∀ past, put pastEnd key value (c.journal past) =
        .ok () (c'.journal (later ++ c.dal.file :: past))) ∧
      later.length ≤ 3 * x.frames.length + 4 ∧
      ∀ s ∈ later,
        s.Offers c.root (plugAll x.frames (place ⟨key, value⟩ x.index x.focus)).inorder ∨
        s.Offers c'.root (plugAll x.frames (place ⟨key, value⟩ x.index x.focus)).inorder := by
  have hxe : locate (findKeyInNode key) t.erase = some x.erase := by rw [locate_erase, hx]; rfl
  obtain ⟨hroom, hsplit, htop⟩ := hsafe _ hxe
  simp only [Path.erase, items_erase, splitSafe_erase, topItems_erase] at hroom hsplit htop
  set item : Item := ⟨key, value⟩ with hitem
  set leaf := place item x.index x.focus with hleaf
  have hupath : Uniform h (plugAll x.frames x.focus) := by rw [hpath.eq]; exact hu
  obtain ⟨k, hk, hfocus⟩ := uniform_of_plugAll hupath
  obtain rfl : k = 0 := hfocus.zero_of_children (hpath.leaf hf)
  have hup : Uniform h (plugAll x.frames leaf) :=
    uniform_plugAll hupath hk (uniform_place item x.index hfocus)
  have hsorted : Sorted KeyLt Item.key (plugAll x.frames leaf).inorder := by
    rw [inorder_plugAll, hleaf, place, hpath.leaf hf, inorder_leaf]
    exact hpath.sorted_insert (scans_findKeyInNode _) hs hf rfl
  have hroom' : cap.room (insertAt x.focus.items x.index item) x.focus.children.length = true := by
    rw [hpath.leaf hf]
    exact hroom
  have ho' : c.dal.Owns F (plugAll x.frames x.focus) := by rw [hpath.eq]; exact ho
  obtain ⟨d₁, hwrite, ho₁, hk₁, hfl₁⟩ := ho'.writeItems hroom'
  have hroot₁ : c.root = (plugAll x.frames leaf).tag := by
    rw [hroot, ← hpath.eq, tag_plugAll, tag_plugAll]; rfl
  obtain ⟨c₂, new, hrun₂, hpast₂, hlen₂, hoffers₂⟩ := splitUp_offers (c := { c with dal := d₁ })
    ho₁.hangs hup hsorted hroot₁ (by rw [hk₁.options]; exact hsplit)
    (by rw [hk₁.options]; exact htop) (by rw [hk₁.options]; exact hno)
    (by rw [hfl₁]; exact hnames)
  have hne : c.root ≠ 0 := by rw [hroot]; exact ho.tag_ne_zero
  have hreads : c.dal.Reads t := reads_iff_holds.mpr ho.holds
  have hreads₁ : d₁.Reads (plugAll x.frames leaf) := reads_iff_holds.mpr ho₁.holds
  have hfuel := ho.length_frames_lt hpath
  refine ⟨c₂, new, ?_, fun past => ?_, hlen₂, hoffers₂⟩
  · rw [put, Prog.get_bind, if_neg hne,
      Prog.bind_ok (putItem_run pastEnd item hreads hroot hpath hfuel hwrite hreads₁)]
    exact hrun₂
  · have hrun := putItem_run (c := c.journal past) pastEnd item (hreads.journal past) hroot hpath hfuel
      (writeNode_journal hwrite past) (hreads₁.journal _)
    rw [put, Prog.get_bind, show (c.journal past).root = c.root from rfl, if_neg hne, Prog.bind_ok hrun]
    exact hpast₂ (c.dal.file :: past)

/-- The first `put` writes one page. -/
theorem put_first_journal (pastEnd : Item) {key value : Bytes} (hroot : c.root = 0)
    (hrun : put pastEnd key value c = .ok () c') (past : List (Shelf cap)) :
    put pastEnd key value (c.journal past) = .ok () (c'.journal (c.dal.file :: past)) := by
  rw [put, Prog.get_bind, if_pos hroot] at hrun
  obtain ⟨n, c₁, hdal, hset⟩ := Prog.bind_eq_ok.mp hrun
  obtain ⟨d₁, hprog, rfl⟩ := Prog.zoom_eq_ok.mp hdal
  obtain ⟨-, rfl⟩ := Outcome.ok.inj hset
  have hwrite := (Prog.bind_ok (newNode_ok c.dal _ _)).symm.trans hprog
  rw [put, Prog.get_bind, show (c.journal past).root = c.root from rfl, if_pos hroot]
  refine (Prog.bind_ok (onDal_ok (?_ : _ = Outcome.ok n (d₁.journal (c.dal.file :: past))))).trans rfl
  exact (Prog.bind_ok (newNode_journal (newNode_ok c.dal _ _) past)).trans (writeNode_journal hwrite past)

end Put

section Stands

variable {c : Collection (Shelf cap)} {t : Option PTree} {key value : Bytes} {pastEnd : Item}

/-- **A calm put on a shelf, write by write**: after the first one every search ends as after
the call. -/
theorem Stands.put_offers (hs : c.Stands F t) (hw : WellFormed t)
    (hf : (Op.put key value pastEnd).Fresh t)
    (hsafe : (Op.put key value pastEnd).Safe cap c.dal.options (t.map Tree.erase))
    (hn : (Op.put key value pastEnd).Numbers cap c.dal.freelist.maxPage t)
    (hcalm : (Op.put key value pastEnd).Calm c.dal.options (t.map Tree.erase)) :
    ∃ c' later, put pastEnd key value c = .ok () c' ∧
      (∀ past, put pastEnd key value (c.journal past) =
        .ok () (c'.journal (later ++ c.dal.file :: past))) ∧
      ∀ s ∈ later,
        s.Offers c.root
          (contents ((Op.put key value pastEnd).outline c.dal.options (t.map Tree.erase))) ∨
        s.Offers c'.root
          (contents ((Op.put key value pastEnd).outline c.dal.options (t.map Tree.erase))) := by
  cases t with
  | none =>
    obtain ⟨c', -, hends, -⟩ := Op.run_ok hs hw hf hsafe hn
    exact ⟨c', [], hends, fun past => put_first_journal pastEnd hs.root hends past, by simp⟩
  | some u =>
    obtain ⟨ho, hroot⟩ := stands_some.mp hs
    obtain ⟨⟨h, hu⟩, hsorted⟩ := wellFormed_some.mp hw
    obtain ⟨x, hx, hpath⟩ := exists_path key hu.regular
    have hfound : x.found = false := by
      rw [← Bool.not_eq_true, found_iff hpath hsorted]
      exact fun hne => hne hf
    have hxe : locate (findKeyInNode key) u.erase = some x.erase := by rw [locate_erase, hx]; rfl
    have hno : NoDoubleOverflow c.dal.options x.frames
        (insertAt x.focus.items x.index ⟨key, value⟩) := by
      have := hcalm x.erase hxe
      rwa [Path.erase, NoDoubleOverflow, pathItems_erase, items_erase] at this
    -- the sequence after the first write is that of the outline
    set placed := plugAll x.frames (place ⟨key, value⟩ x.index x.focus) with hplaced
    have hup : Uniform h placed := by
      have hupath : Uniform h (plugAll x.frames x.focus) := hpath.eq.symm ▸ hu
      obtain ⟨k, hk, hfocus⟩ := uniform_of_plugAll hupath
      obtain rfl : k = 0 := hfocus.zero_of_children (hpath.leaf hfound)
      exact uniform_plugAll hupath hk (uniform_place _ _ hfocus)
    have herase : placed.erase =
        plugAll (x.frames.map Frame.erase) (place ⟨key, value⟩ x.index x.focus.erase) := by
      rw [hplaced, erase_plugAll, erase_place]
    have hsequence : contents ((Op.put key value pastEnd).outline c.dal.options (some u.erase)) =
        placed.inorder := by
      show (putOutline c.dal.options ⟨key, value⟩ u.erase).inorder = _
      have hue := hup.erase
      rw [herase] at hue
      rw [putOutline_eq hxe, ← inorder_erase placed, herase]
      refine growRoot_growPath_inorder hue ?_
      rw [Path.erase, NoDoubleOverflow, pathItems_erase, ← erase_place, items_erase]
      exact hno
    obtain ⟨c', later, hrun, hpast, -, hoffers⟩ :=
      Collection.put_offers pastEnd ho hroot hu hsorted hsafe hx hpath hfound hno (hn x hx)
    exact ⟨c', later, hrun, hpast, hsequence ▸ hoffers⟩

end Stands

end Collection

end Toocal
