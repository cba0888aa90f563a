import Toocal.Tree.Operations

/-!
# What `put` does to a key that is there

`put` inserts in front of the item with its key, and never replaces it.  In a node with
children it leaves as many children as items; `serialize` writes such a node as if it had its
last child twice (`placeAgain`).  From there on the rounds are those of any `put`:
`overwriteOutline`.

The old item goes away in one way only: the node is split at the old item and this is its
last item, its parent is over-populated and is split from an outdated copy, which has
neither the old item nor the right half, and no node above loses anything (`DropsOld`).
`dropsOld_of_once`: a put after which the key is there once and all others are there is
such a put; `contents_of_dropsOld`: such a put replaces the item.
-/

namespace Toocal

open Outcomes Multiway Multiway.Tree

variable {π : Type}

/-- How often a key is in a sequence. -/
def occurrences (key : Bytes) (l : List Item) : Nat := l.countP fun a => a.key = key

/-- Put an item into a node that has its key; the last child, if there is one, is there twice
then. -/
def placeAgain (item : Item) (index : Nat) (u : Tree π Item) : Tree π Item :=
  .node u.tag (insertAt u.items index item) (u.children ++ u.children.getLast?.toList)

/-- Put an item in the place of another. -/
def replaceItem (item : Item) (index : Nat) (u : Tree π Item) : Tree π Item :=
  .node u.tag (u.items.set index item) u.children

theorem erase_placeAgain (item : Item) (index : Nat) (u : Tree π Item) :
    (placeAgain item index u).erase = placeAgain item index u.erase := by
  cases u with
  | node p its cs =>
    simp only [placeAgain, tag_node, items_node, children_node, erase_node, List.map_append]
    cases h : cs.getLast? <;> simp [h]

/-- **`put` of a key that is there, on the tree.** -/
def overwriteOutline (o : Options) (item : Item) (t : Outline) : Outline :=
  match locate (findKeyInNode item.key) t with
  | some x => growRoot o () () (growPath o (placeAgain item x.index x.focus) x.frames)
  | none => t

/-- `put` of an item whose key is there stays defined and within the pages. -/
def OverwriteSafe (cap : Capacity) (o : Options) (item : Item) (t : Outline) : Prop :=
  ∀ x ∈ locate (findKeyInNode item.key) t,
    cap.room (insertAt x.focus.items x.index item)
      (placeAgain item x.index x.focus).children.length = true ∧
    SplitSafe cap o x.frames (insertAt x.focus.items x.index item) ∧
    (o.isOverPopulated (topItems x.frames (insertAt x.focus.items x.index item)) →
      (middleItem o (topItems x.frames (insertAt x.focus.items x.index item))).isSome)

/-- The put splits the node at the old item, its last one, under an over-populated parent, and
no two neighbours above are over-populated. -/
def DropsOld (o : Options) (item : Item) (t : Outline) : Prop :=
  ∃ x ∈ locate (findKeyInNode item.key) t, ∃ gs f, x.frames = gs ++ [f] ∧
    o.isOverPopulated f.items ∧ NoDoubleOverflow o gs f.items ∧
    o.isOverPopulated (insertAt x.focus.items x.index item) ∧
    o.getSplitIndex (insertAt x.focus.items x.index item) = some (x.index + 1) ∧
    x.focus.items.length = x.index + 1

/-! ## The node with the item put in -/

section Node

variable {u : Tree π Item} {item old : Item} {i s h : Nat}

theorem insertAt_eq_append {α : Type} {l : List α} {a b : α} (hb : l[i]? = some b) :
    insertAt l i a = l.take i ++ a :: b :: l.drop (i + 1) := by
  obtain ⟨hi, rfl⟩ := List.getElem?_eq_some_iff.mp hb
  rw [insertAt, ← List.drop_eq_getElem_cons hi]

theorem uniform_placeAgain (hold : u.items[i]? = some old) (hu : Uniform h u) :
    Uniform h (placeAgain item i u) := by
  have hi := (List.getElem?_eq_some_iff.mp hold).1
  cases hu with
  | leaf p its => exact .leaf p _
  | inner p its cs hl hcs =>
    obtain ⟨c, hc⟩ : ∃ c, cs.getLast? = some c := by
      cases hg : cs.getLast? with
      | some c => exact ⟨c, rfl⟩
      | none =>
        rw [List.getLast?_eq_none_iff.mp hg] at hl
        simp at hl
    simp only [items_node] at hi
    refine .inner p _ _ ?_ fun d hd => ?_
    · simp only [children_node, items_node, hc, Option.toList_some, List.length_append,
        List.length_nil, insertAt, List.length_take, List.length_cons, List.length_drop]
      omega
    · rw [children_node, hc, Option.toList_some, List.mem_append, List.mem_singleton] at hd
      rcases hd with hd | rfl
      · exact hcs d hd
      · exact hcs d (List.mem_of_getLast? hc)

theorem uniform_replaceItem (hu : Uniform h u) : Uniform h (replaceItem item i u) := by
  cases hu with
  | leaf p its => exact .leaf p _
  | inner p its cs hl hcs =>
    exact .inner p _ _ (by simpa only [items_node, List.length_set, children_node] using hl) hcs

theorem occurrences_sublist {key : Bytes} {l₁ l₂ : List Item} (h : l₁.Sublist l₂) :
    occurrences key l₁ ≤ occurrences key l₂ := h.countP_le

theorem two_le_occurrences (hold : u.items[i]? = some old) (hkey : old.key = item.key)
    (hs : i + 2 ≤ s) : 2 ≤ occurrences item.key ((insertAt u.items i item).take s) := by
  have hi := (List.getElem?_eq_some_iff.mp hold).1
  have htake : (insertAt u.items i item).take (i + 2) = u.items.take i ++ [item, old] := by
    rw [insertAt_eq_append hold, List.take_append, List.length_take, Nat.min_eq_left (by omega)]
    simp
  calc 2 ≤ occurrences item.key (u.items.take i ++ [item, old]) := by
        simp [occurrences, hkey]
    _ ≤ occurrences item.key ((insertAt u.items i item).take s) := by
        rw [← htake]
        exact occurrences_sublist (List.take_prefix_take_left hs).sublist

/-- Left of the old item, and at it, the cut is that of the node it should be. -/
theorem splitLeft_placeAgain (hold : u.items[i]? = some old) (hj : Jointed h u) (hs : s ≤ i + 1) :
    (placeAgain item i u).splitLeft s = (replaceItem item i u).splitLeft s := by
  have hi := (List.getElem?_eq_some_iff.mp hold).1
  have hitems : (insertAt u.items i item).take s = (u.items.set i item).take s := by
    rw [insertAt_eq_append hold, List.set_eq_take_append_cons_drop, if_pos hi,
      List.take_append, List.take_append, List.length_take, Nat.min_eq_left (by omega)]
    congr 1
    obtain hz | hz : s - i = 0 ∨ s - i = 1 := by omega
    · rw [hz]; rfl
    · rw [hz]; rfl
  have hchildren : (u.children ++ u.children.getLast?.toList).take (s + 1) =
      u.children.take (s + 1) := by
    cases h with
    | zero => rw [hj.children_eq_nil]; rfl
    | succ h => exact List.take_append_of_le_length (by rw [hj.length_children]; omega)
  simp only [splitLeft, placeAgain, replaceItem, tag_node, items_node, children_node, hitems,
    hchildren]

end Node

/-! ## The tree after the put -/

section Overwrite

variable {cap : Capacity} {o : Options} {item : Item} {t : Outline} {x : Path Unit Item} {h : Nat}

theorem overwriteOutline_eq (hx : locate (findKeyInNode item.key) t = some x) :
    overwriteOutline o item t =
      growRoot o () () (growPath o (placeAgain item x.index x.focus) x.frames) := by
  rw [overwriteOutline, hx]

theorem exists_old (hpath : IsPath (findKeyInNode item.key) t x) (hf : x.found = true) :
    ∃ old, x.focus.items[x.index]? = some old ∧ old.key = item.key := by
  obtain ⟨old, hold, hkey, -⟩ := hpath.mem (scans_findKeyInNode item.key) hf
  exact ⟨old, hold, hkey⟩

theorem uniform_placedAgain (hu : Uniform h t) (hpath : IsPath (findKeyInNode item.key) t x)
    (hf : x.found = true) :
    Uniform h (plugAll x.frames (placeAgain item x.index x.focus)) := by
  obtain ⟨old, hold, -⟩ := exists_old hpath hf
  rw [← hpath.eq] at hu
  obtain ⟨k, hk, hfocus⟩ := uniform_of_plugAll hu
  exact uniform_plugAll hu hk (uniform_placeAgain hold hfocus)

theorem overwriteOutline_uniform (hu : Uniform h t)
    (hx : locate (findKeyInNode item.key) t = some x)
    (hpath : IsPath (findKeyInNode item.key) t x) (hf : x.found = true) :
    ∃ h', Uniform h' (overwriteOutline o item t) := by
  rw [overwriteOutline_eq hx]
  exact (growPath_coherent (uniform_placedAgain hu hpath hf)).growRoot.2

theorem sorted_congr {l l' : List Item} (h : l.map Item.key = l'.map Item.key) :
    Sorted KeyLt Item.key l ↔ Sorted KeyLt Item.key l' := by
  rw [Sorted, Sorted, ← List.pairwise_map (f := Item.key) (R := KeyLt),
    ← List.pairwise_map (f := Item.key) (R := KeyLt), h]

/-- The sequence as it should be: the item stands where the old one was. -/
theorem inorder_replaced (hpath : IsPath (findKeyInNode item.key) t x) (hf : x.found = true) :
    ∃ l₁ old l₂, t.inorder = l₁ ++ old :: l₂ ∧ old.key = item.key ∧
      (plugAll x.frames (replaceItem item x.index x.focus)).inorder = l₁ ++ item :: l₂ := by
  obtain ⟨old, hold, hkey⟩ := exists_old hpath hf
  obtain ⟨l₁, l₂, hin, hset⟩ := weave_set x.focus.children hold
  refine ⟨beforeAll x.frames ++ l₁, old, l₂ ++ afterAll x.frames, ?_, hkey, ?_⟩
  · rw [hpath.inorder, ← eta x.focus, inorder_node, hin]
    simp only [List.append_assoc, List.cons_append]
  · rw [inorder_plugAll, replaceItem, inorder_node, hset]
    simp only [List.append_assoc, List.cons_append]

theorem sorted_replaced (hs : Sorted KeyLt Item.key t.inorder)
    (hpath : IsPath (findKeyInNode item.key) t x) (hf : x.found = true) :
    Sorted KeyLt Item.key (plugAll x.frames (replaceItem item x.index x.focus)).inorder := by
  obtain ⟨l₁, old, l₂, hin, hkey, hnew⟩ := inorder_replaced hpath hf
  rw [hnew]
  refine (sorted_congr ?_).mp (hin ▸ hs)
  rw [List.map_append, List.map_append, List.map_cons, List.map_cons, hkey]

/-- **A double overflow at the node leaves what is left of the cut.** -/
theorem overwriteOutline_inorder {gs : List (Frame Unit Item)} {f : Frame Unit Item} {s : Nat}
    (hu : Uniform h t) (hx : locate (findKeyInNode item.key) t = some x)
    (hpath : IsPath (findKeyInNode item.key) t x) (hf : x.found = true)
    (hsafe : OverwriteSafe cap o item t) (hfs : x.frames = gs ++ [f])
    (hno : NoDoubleOverflow o gs f.items) (hover : o.isOverPopulated f.items)
    (hover' : o.isOverPopulated (insertAt x.focus.items x.index item))
    (hs : o.getSplitIndex (insertAt x.focus.items x.index item) = some s) :
    (overwriteOutline o item t).inorder =
      (plugAll x.frames ((placeAgain item x.index x.focus).splitLeft s)).inorder := by
  obtain ⟨-, hsplit, htop⟩ := hsafe x hx
  have hup := uniform_placedAgain hu hpath hf
  rw [hfs] at hsplit htop hup
  obtain ⟨m, hm⟩ := exists_middle_top hsplit htop hover
  obtain ⟨m', hm', -⟩ := exists_middleItem hs
  obtain ⟨c, hc, -⟩ := exists_cut () (s := placeAgain item x.index x.focus) hm'
  have hleft : c.left = (placeAgain item x.index x.focus).splitLeft s := by
    obtain ⟨i, hi, -, hl, -⟩ := cut_eq_some.mp hc
    obtain rfl := Option.some.inj (hi.symm.trans hs)
    exact hl
  have hround : growRound o () f
      ⟨placeAgain item x.index x.focus, placeAgain item x.index x.focus⟩ =
        ⟨f.plug c.left, (f.addRight c.middle c.right).plug c.left⟩ := growRound_cut hover' hc
  have hgrow : overwriteOutline o item t = growRoot o () () (growPath o (f.plug c.left) gs) := by
    rw [overwriteOutline_eq hx, hfs, growPath_snoc, hround]
    exact growRoot_growFrom_over (x := ⟨f.plug c.left, _⟩) hover hm
  -- the path with the left half in its hole
  have hupath : Uniform h (plugAll gs (f.plug c.left)) := by
    rw [plugAll_append] at hup
    obtain ⟨k, hk, hplug⟩ := uniform_of_plugAll hup
    obtain ⟨j, rfl, hsib, hj⟩ := Frame.uniform_of_plug hplug
    exact uniform_plugAll hup hk (Frame.uniform_plug hsib (cut_uniform hc hj).1)
  rw [hgrow, growRoot_growPath_inorder hupath hno, hfs, plugAll_append, plugAll_cons, plugAll_nil,
    hleft]

theorem frames_items (hs : Sorted KeyLt Item.key t.inorder)
    (hpath : IsPath (findKeyInNode item.key) t x) {a : Item}
    (ha : a ∈ x.frames.flatMap Frame.items) :
    a.key ≠ item.key ∧ a ∉ (placeAgain item x.index x.focus).inorder := by
  obtain ⟨hb, haft⟩ := hpath.separates (scans_findKeyInNode item.key) hs
  have hside : a ∈ beforeAll x.frames ∨ a ∈ afterAll x.frames := by
    obtain ⟨f, hf, ha⟩ := List.mem_flatMap.mp ha
    exact List.mem_append.mp (items_subset_aroundAll hf ha)
  have hne : a.key ≠ item.key := by
    intro he
    rcases hside with h | h
    · exact irrefl (r := KeyLt) _ (he ▸ hb a h)
    · exact irrefl (r := KeyLt) _ (he ▸ haft a h)
  refine ⟨hne, fun hin => ?_⟩
  -- what the node has besides the item it had before
  have hold : a ∈ x.focus.inorder := by
    rw [mem_inorder_iff] at hin ⊢
    rcases hin with hin | ⟨c, hc, hin⟩
    · left
      rcases List.mem_append.mp hin with hin | hin
      · exact List.mem_of_mem_take hin
      · rcases List.mem_cons.mp hin with rfl | hin
        · exact absurd rfl hne
        · exact List.mem_of_mem_drop hin
    · refine Or.inr ⟨c, ?_, hin⟩
      rcases List.mem_append.mp hc with hc | hc
      · exact hc
      · exact List.mem_of_getLast? (Option.mem_toList.mp hc)
  rw [hpath.inorder] at hs
  obtain ⟨hba, -, hafter⟩ := Sorted.append_iff.mp hs
  rcases hside with h | h
  · exact irrefl (r := KeyLt) _ ((Sorted.append_iff.mp hba).2.2 a h a hold)
  · exact irrefl (r := KeyLt) _ (hafter a (List.mem_append_right _ hold) a h)

/-- An item of the nodes on the path. -/
def onPath (fs : List (Frame Unit Item)) (a : Item) : Bool := decide (a ∈ fs.flatMap Frame.items)

theorem countP_onPath_lt {gs : List (Frame Unit Item)} {f : Frame Unit Item} (hu : Uniform h t)
    (hs : Sorted KeyLt Item.key t.inorder) (hx : locate (findKeyInNode item.key) t = some x)
    (hpath : IsPath (findKeyInNode item.key) t x) (hf : x.found = true)
    (hsafe : OverwriteSafe cap o item t) (hfs : x.frames = gs ++ [f])
    (hno : ¬NoDoubleOverflow o gs f.items) :
    (overwriteOutline o item t).inorder.countP (onPath x.frames) <
      (beforeAll x.frames ++ afterAll x.frames).countP (onPath x.frames) := by
  obtain ⟨-, hsplit, htop⟩ := hsafe x hx
  have hup := uniform_placedAgain hu hpath hf
  set leaf := placeAgain item x.index x.focus with hleaf
  rw [hfs] at hsplit htop hup
  -- the copies after the first round, from which the rounds above go on
  set y := growRound o () f ⟨leaf, leaf⟩ with hy
  have hgrow : overwriteOutline o item t = growRoot o () () (growFrom o y gs) := by
    rw [overwriteOutline_eq hx, hfs, growPath_snoc]
  rw [plugAll_append] at hup
  obtain ⟨k, rfl, hplug⟩ := uniform_of_plugAll hup
  obtain ⟨j, rfl, hsib, hj⟩ := Frame.uniform_of_plug hplug
  have hitems : y.copy.items = f.items := items_copy_growRound
  have hin : y.page.inorder = (f.plug leaf).inorder := by
    rw [Frame.inorder_plug]
    exact growRound_inorder hj fun _ => rfl
  have hcoherent : Coherent (j + 1) y.page.inorder y := by
    rw [hin, Frame.inorder_plug]
    exact (Coherent.same hj).growRound hsib
  have huy : Uniform (j + 1 + gs.length) (plugAll gs y.page) :=
    uniform_plugAll hup rfl hcoherent.page_uniform
  have hfull : (plugAll gs y.page).inorder =
      beforeAll x.frames ++ leaf.inorder ++ afterAll x.frames := by
    rw [inorder_plugAll, hin, ← inorder_plugAll, hfs, ← inorder_plugAll, plugAll_append]
    rfl
  have hframes : ∀ g ∈ x.frames, ∀ a ∈ g.items, onPath x.frames a = true := fun g hg a ha =>
    decide_eq_true (List.mem_flatMap.mpr ⟨g, hg, ha⟩)
  have hloss := growRoot_loss (onPath x.frames) huy hcoherent (hitems ▸ (splitSafe_snoc.mp hsplit).1)
    (by rw [hitems, ← topItems_snoc gs f (insertAt x.focus.items x.index item)]; exact htop)
    hcoherent.copy_inorder.countP_le (by rw [hitems]; exact hframes f (by simp [hfs]))
    (fun g hg => hframes g (by simp [hfs, hg])) (hitems ▸ hno)
  -- none of them is in the node
  have hnone : leaf.inorder.countP (onPath x.frames) = 0 := List.countP_eq_zero.mpr fun a ha hpa =>
    (frames_items hs hpath (of_decide_eq_true hpa)).2 ha
  rw [hfull, List.countP_append, List.countP_append, hnone, Nat.add_zero, ← List.countP_append,
    ← hgrow] at hloss
  exact hloss

/-- **A double overflow above the node loses an item.** -/
theorem exists_lost_above {gs : List (Frame Unit Item)} {f : Frame Unit Item} (hu : Uniform h t)
    (hs : Sorted KeyLt Item.key t.inorder) (hx : locate (findKeyInNode item.key) t = some x)
    (hpath : IsPath (findKeyInNode item.key) t x) (hf : x.found = true)
    (hsafe : OverwriteSafe cap o item t) (hfs : x.frames = gs ++ [f])
    (hno : ¬NoDoubleOverflow o gs f.items) :
    ∃ a ∈ t.inorder, a.key ≠ item.key ∧ a ∉ (overwriteOutline o item t).inorder := by
  have hlt := countP_onPath_lt hu hs hx hpath hf hsafe hfs hno
  rw [List.countP_eq_length_filter, List.countP_eq_length_filter] at hlt
  by_contra hall
  push Not at hall
  have hsub : ((beforeAll x.frames ++ afterAll x.frames).filter (onPath x.frames)).Sublist
      t.inorder := by
    rw [hpath.inorder]
    exact List.filter_sublist.trans ((List.sublist_append_left _ _).append_right _)
  have hkept : ((beforeAll x.frames ++ afterAll x.frames).filter (onPath x.frames)) ⊆
      (overwriteOutline o item t).inorder.filter (onPath x.frames) := by
    intro a ha
    have hpa := (List.mem_filter.mp ha).2
    have hne := (frames_items hs hpath (of_decide_eq_true hpa)).1
    exact List.mem_filter.mpr ⟨hall a (hsub.subset ha) hne, hpa⟩
  have hle := (List.subperm_of_subset ((hs.sublist hsub).nodup) hkept).length_le
  exact absurd hlt (Nat.not_lt_of_le hle)

theorem occurrences_plugged (key : Bytes) (fs : List (Frame Unit Item)) (u : Outline) :
    occurrences key u.items ≤ occurrences key (plugAll fs u).inorder := by
  rw [inorder_plugAll]
  exact occurrences_sublist ((items_sublist_inorder u).trans
    ((List.sublist_append_right _ _).trans (List.sublist_append_left _ _)))

theorem two_le_of_placed (hpath : IsPath (findKeyInNode item.key) t x) (hf : x.found = true) :
    2 ≤ occurrences item.key (plugAll x.frames (placeAgain item x.index x.focus)).inorder := by
  obtain ⟨old, hold, hkey⟩ := exists_old hpath hf
  have hi := (List.getElem?_eq_some_iff.mp hold).1
  calc 2 ≤ occurrences item.key
        ((insertAt x.focus.items x.index item).take (x.focus.items.length + 1)) :=
      two_le_occurrences hold hkey (by omega)
    _ ≤ occurrences item.key (placeAgain item x.index x.focus).items :=
      occurrences_sublist (List.take_sublist _ _)
    _ ≤ _ := occurrences_plugged _ _ _

theorem key_lost {s : Nat} {m : Item} (hs : Sorted KeyLt Item.key t.inorder) (hu : Uniform h t)
    (hpath : IsPath (findKeyInNode item.key) t x) (hf : x.found = true)
    (hm : (x.focus.items.set x.index item)[s]? = some m) :
    m ∈ (plugAll x.frames (replaceItem item x.index x.focus)).inorder ∧
    ∀ a ∈ (plugAll x.frames ((replaceItem item x.index x.focus).splitLeft s)).inorder,
      a.key ≠ m.key := by
  have hsorted := sorted_replaced hs hpath hf
  rw [← hpath.eq] at hu
  obtain ⟨k, -, hfocus⟩ := uniform_of_plugAll hu
  have hnew : Uniform k (replaceItem item x.index x.focus) := uniform_replaceItem hfocus
  have hcut := inorder_split hnew.jointed
    (show (replaceItem item x.index x.focus).items[s]? = some m from hm) ()
  rw [inorder_plugAll, ← hcut] at hsorted ⊢
  refine ⟨by simp, fun a ha he => ?_⟩
  rw [inorder_plugAll] at ha
  obtain ⟨hba, -, hafter⟩ := Sorted.append_iff.mp hsorted
  obtain ⟨-, hnode, hbefore⟩ := Sorted.append_iff.mp hba
  rcases List.mem_append.mp ha with ha | ha
  · rcases List.mem_append.mp ha with ha | ha
    · exact irrefl (r := KeyLt) _ (he ▸ hbefore a ha m (by simp))
    · exact irrefl (r := KeyLt) _ (he ▸ (Sorted.append_iff.mp hnode).2.2 a ha m List.mem_cons_self)
  · exact irrefl (r := KeyLt) _ (he ▸ hafter m (by simp) a ha)

theorem lost_of_cut {s : Nat} (hs : Sorted KeyLt Item.key t.inorder) (hu : Uniform h t)
    (hpath : IsPath (findKeyInNode item.key) t x) (hf : x.found = true) (hle : s ≤ x.index + 1)
    (hlt : s < x.focus.items.length) :
    occurrences item.key
        (plugAll x.frames ((placeAgain item x.index x.focus).splitLeft s)).inorder = 0 ∨
      ∃ a ∈ t.inorder, a.key ≠ item.key ∧
        a ∉ (plugAll x.frames ((placeAgain item x.index x.focus).splitLeft s)).inorder := by
  obtain ⟨old, hold, -⟩ := exists_old hpath hf
  obtain ⟨m, hm⟩ : ∃ m, (x.focus.items.set x.index item)[s]? = some m :=
    ⟨_, List.getElem?_eq_getElem (by rw [List.length_set]; exact hlt)⟩
  obtain ⟨hmem, hlost⟩ := key_lost hs hu hpath hf hm
  rw [← hpath.eq] at hu
  obtain ⟨k, -, hfocus⟩ := uniform_of_plugAll hu
  rw [← splitLeft_placeAgain hold hfocus.jointed hle] at hlost
  by_cases hk : m.key = item.key
  · exact Or.inl (List.countP_eq_zero.mpr fun a ha hak =>
      hlost a ha ((of_decide_eq_true hak).trans hk.symm))
  · obtain ⟨l₁, old', l₂, hin, -, hnew⟩ := inorder_replaced hpath hf
    refine Or.inr ⟨m, ?_, hk, fun ha => hlost m ha rfl⟩
    -- the item itself has its key, so `m` is one of the others
    rw [hnew, List.mem_append, List.mem_cons] at hmem
    rw [hin, List.mem_append, List.mem_cons]
    rcases hmem with hmem | rfl | hmem
    · exact Or.inl hmem
    · exact absurd rfl hk
    · exact Or.inr (Or.inr hmem)

/-- **A put after which the key is there once, and no other key is gone, has dropped the old
item.** -/
theorem dropsOld_of_once (hu : Uniform h t) (hs : Sorted KeyLt Item.key t.inorder)
    (hx : locate (findKeyInNode item.key) t = some x)
    (hpath : IsPath (findKeyInNode item.key) t x) (hf : x.found = true)
    (hsafe : OverwriteSafe cap o item t)
    (hone : occurrences item.key (overwriteOutline o item t).inorder = 1)
    (hkept : ∀ a ∈ t.inorder, a.key ≠ item.key → a ∈ (overwriteOutline o item t).inorder) :
    DropsOld o item t := by
  have hup := uniform_placedAgain hu hpath hf
  obtain ⟨old, hold, hkey⟩ := exists_old hpath hf
  have hi := (List.getElem?_eq_some_iff.mp hold).1
  -- without a double overflow the key is there twice
  have hdouble : ¬NoDoubleOverflow o x.frames (insertAt x.focus.items x.index item) := by
    intro hno
    have htwice := two_le_of_placed hpath hf
    rw [overwriteOutline_eq hx, growRoot_growPath_inorder hup hno] at hone
    omega
  rcases List.eq_nil_or_concat' x.frames with hnil | ⟨gs, f, hfs⟩
  · rw [hnil] at hdouble
    exact absurd (.singleton _) hdouble
  rw [hfs, noDoubleOverflow_snoc] at hdouble
  have hno : NoDoubleOverflow o gs f.items := by
    by_contra hno
    obtain ⟨a, ha, hne, hlost⟩ := exists_lost_above hu hs hx hpath hf hsafe hfs hno
    exact hlost (hkept a ha hne)
  obtain ⟨hover, hover'⟩ := not_not.mp fun h => hdouble ⟨hno, h⟩
  obtain ⟨s, hsplit⟩ : ∃ s, o.getSplitIndex (insertAt x.focus.items x.index item) = some s := by
    have hsafe' := (hsafe x hx).2.1
    rw [hfs] at hsafe'
    obtain ⟨m, hm, -⟩ := (splitSafe_snoc.mp hsafe').2 hover'
    obtain ⟨s, hs', -⟩ := Option.bind_eq_some_iff.mp hm
    exact ⟨s, hs'⟩
  have hin := overwriteOutline_inorder hu hx hpath hf hsafe hfs hno hover hover' hsplit
  rw [hin] at hone hkept
  -- a later cut keeps both items with the key, an earlier one leaves something out
  have hle : s ≤ x.index + 1 := by
    by_contra hlt
    have htwo := two_le_occurrences hold hkey (s := s) (by omega)
    have hplugged := occurrences_plugged item.key x.frames
      ((placeAgain item x.index x.focus).splitLeft s)
    rw [hone] at hplugged
    exact absurd (htwo.trans hplugged) (by decide)
  have hend : x.focus.items.length ≤ s := by
    by_contra hlt
    rcases lost_of_cut hs hu hpath hf hle (Nat.lt_of_not_le hlt) with hzero | ⟨a, ha, hne, hlost⟩
    · omega
    · exact hlost (hkept a ha hne)
  obtain rfl : s = x.index + 1 := by omega
  exact ⟨x, hx, gs, f, hfs, hover, hno, hover', hsplit, by omega⟩

/-- **A put that drops the old item replaces it.** -/
theorem contents_of_dropsOld (hu : Uniform h t) (hs : Sorted KeyLt Item.key t.inorder)
    (hx : locate (findKeyInNode item.key) t = some x)
    (hpath : IsPath (findKeyInNode item.key) t x) (hf : x.found = true)
    (hsafe : OverwriteSafe cap o item t) (hdrops : DropsOld o item t) :
    WellFormed (some (overwriteOutline o item t)) ∧ ∃ l₁ old l₂, t.inorder = l₁ ++ old :: l₂ ∧
      old.key = item.key ∧ (overwriteOutline o item t).inorder = l₁ ++ item :: l₂ := by
  obtain ⟨x', hx', gs, f, hfs, hover, hno, hover', hsplit, hlen⟩ := hdrops
  obtain rfl := Option.some.inj (hx.symm.trans hx')
  obtain ⟨old, hold, -⟩ := exists_old hpath hf
  have hin := overwriteOutline_inorder hu hx hpath hf hsafe hfs hno hover hover' hsplit
  have hu' := overwriteOutline_uniform (o := o) hu hx hpath hf
  rw [← hpath.eq] at hu
  obtain ⟨k, -, hfocus⟩ := uniform_of_plugAll hu
  -- nothing of the node is right of the cut
  have hwhole : (placeAgain item x.index x.focus).splitLeft (x.index + 1) =
      replaceItem item x.index x.focus := by
    rw [splitLeft_placeAgain hold hfocus.jointed (Nat.le_refl _)]
    have hchildren : x.focus.children.length ≤ x.index + 1 + 1 := by
      cases k with
      | zero => rw [hfocus.children_eq_nil]; exact Nat.zero_le _
      | succ k => rw [hfocus.length_children, hlen]
    simp only [splitLeft, replaceItem, tag_node, items_node, children_node]
    rw [List.take_of_length_le (by rw [List.length_set, hlen]),
      List.take_of_length_le hchildren]
  rw [hwhole] at hin
  exact ⟨wellFormed_some.mpr ⟨hu', hin ▸ sorted_replaced hs hpath hf⟩,
    hin ▸ inorder_replaced hpath hf⟩

end Overwrite

end Toocal
