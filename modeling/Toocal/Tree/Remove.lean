import Toocal.Tree.Rebalance

/-!
# `remove` on pages

On a shelf, the first half of `remove` does what `takeOut` says (`removeItem_ok`), the
loop what `shrinkPath` says (`rebalanceRounds_ok`), the end what `collapse` says, and
`remove` as a whole what `removeOutline` says: `remove_ok`.
-/

namespace Toocal

open Outcomes Multiway Multiway.Tree

namespace Collection

open Dal

variable {cap : Capacity} {d d' : Dal (Shelf cap)} {F : Set Nat}

/-! ## The loop of `remove` -/

section Rounds

variable {leaf : PTree} {o : Options}

theorem nodeOf_shrinkPath {hs : List (Frame Nat Item)} (h : ¬Outdated o hs leaf.items) :
    nodeOf (shrinkPath o leaf hs) = nodeOf (plugAll hs leaf) := by
  cases hs with
  | nil => rfl
  | cons f hs =>
    rw [Outdated] at h
    rw [shrinkPath, if_neg h]
    exact nodeOf_plug_congr tag_shrinkPath

/-- **The loop of `remove` does what `shrinkPath` says**: by induction on the frames its
rounds pass, innermost first, with the frames `gs` above them left alone. -/
theorem rebalanceRounds_ok : ∀ (hs gs : List (Frame Nat Item)) {h : Nat},
    d.Owns F (plugAll (gs ++ hs) leaf) → Uniform h (plugAll hs leaf) →
    ShrinkSafe cap d.options leaf hs →
    ∃ d', Prog.forEach (rebalanceRound (pathNodes (gs ++ hs) leaf) (0 :: pathIndexes (gs ++ hs)))
        (roundsFrom gs.length hs.length) d = .ok () d' ∧
      d'.Owns F (plugAll gs (shrinkPath d.options leaf hs)) ∧ Keeps F d d' ∧
      d'.freelist.maxPage = d.freelist.maxPage ∧
      Allots d.freelist d'.freelist (plugAll hs leaf).tags
        (shrinkPath d.options leaf hs).tags := by
  intro hs
  induction hs with
  | nil =>
    intro gs h ho _ _
    rw [List.append_nil] at ho ⊢
    exact ⟨d, rfl, ho, Keeps.refl F d, rfl, Allots.refl _ _⟩
  | cons f hs ih =>
    intro gs h ho hu hsafe
    obtain ⟨k, rfl, hsib, hk⟩ := Frame.uniform_of_plug hu
    have hassoc : gs ++ f :: hs = (gs ++ [f]) ++ hs := by simp
    obtain ⟨d₁, hrun, ho₁, hk₁, hmax₁, hal₁⟩ := ih (gs ++ [f]) (hassoc ▸ ho) hk hsafe.1
    rw [plugAll_append] at ho₁
    rw [List.length_append, List.length_singleton, ← hassoc] at hrun
    set D := shrinkPath d.options leaf hs with hD
    have hDtag : D.tag = (plugAll hs leaf).tag := tag_shrinkPath
    -- what the round reads from the path
    have hi : (pathNodes (gs ++ f :: hs) leaf)[gs.length]? = some (nodeOf (f.plug D)) := by
      rw [pathNodes_at, plugAll_cons, nodeOf_plug_congr hDtag]
    have hi' : (pathNodes (gs ++ f :: hs) leaf)[gs.length + 1]? =
        some (nodeOf (plugAll hs leaf)) := by
      have := pathNodes_at (gs ++ [f]) hs leaf
      rwa [List.length_append, List.length_singleton, ← hassoc] at this
    have hitems : (nodeOf (plugAll hs leaf)).items = topItems hs leaf.items := by
      rw [items_nodeOf, topItems_plugAll]
    have hround : ∃ d₂, rebalanceRound (pathNodes (gs ++ f :: hs) leaf)
          (0 :: pathIndexes (gs ++ f :: hs)) gs.length d₁ = .ok () d₂ ∧
        d₂.Owns F (plugAll gs (shrinkPath d.options leaf (f :: hs))) ∧ Keeps F d₁ d₂ ∧
        d₂.freelist.maxPage = d₁.freelist.maxPage ∧
        Allots d₁.freelist d₂.freelist (f.plug D).tags
          (shrinkPath d.options leaf (f :: hs)).tags := by
      rw [rebalanceRound, Prog.get_bind, Prog.element_bind hi, Prog.element_bind hi', hk₁.options,
        hitems, shrinkPath]
      by_cases hunder : d.options.isUnderPopulated (topItems hs leaf.items)
      · obtain ⟨hfit, hstale⟩ := hsafe.2 hunder
        have hn : nodeOf (plugAll hs leaf) = nodeOf D ∨ f.left = [] ∧
            ∀ x ∈ f.right.head?, d₁.options.canSpareAnElement x.2.items = false := by
          by_cases hout : Outdated d.options hs leaf.items
          · rw [hk₁.options]
            exact Or.inr (hstale hout)
          · exact Or.inl (nodeOf_shrinkPath hout).symm
        obtain ⟨d₂, hrun₂, ho₂, hk₂, hmax₂, hal₂⟩ := rebalanceRemove_ok ho₁.zoom hsib
          (shrinkPath_spec hk).1 (by rw [hk₁.options]; exact hfit) hn
        rw [hk₁.options] at ho₂ hal₂
        rw [if_pos hunder, if_pos hunder, Prog.element_bind (pathIndexes_at gs hs f)]
        exact ⟨d₂, Prog.orPanic_ok hrun₂, ho₁.unzoom hk₂ ho₂ tag_rebalance,
          hk₂.mono Set.subset_union_left, hmax₂, hal₂⟩
      · rw [if_neg hunder, if_neg hunder]
        exact ⟨d₁, rfl, ho₁, Keeps.refl F d₁, rfl, Allots.refl _ _⟩
    obtain ⟨d₂, hrun₂, ho₂, hk₂, hmax₂, hal₂⟩ := hround
    refine ⟨d₂, ?_, ho₂, hk₁.trans hk₂, hmax₂.trans hmax₁, hal₁.plug.trans hal₂⟩
    rw [List.length_cons, roundsFrom_succ, Prog.forEach_append, Prog.bind_ok hrun]
    exact Prog.bind_ok hrun₂

end Rounds

/-! ## Taking the item out -/

section TakeOut

variable {c : Collection (Shelf cap)} {t : PTree} {h : Nat} {key : Bytes} {x : Path Nat Item}
  {p : List (Frame Nat Item) × PTree}

theorem removeItem_leaf (ho : c.dal.Owns F t) (hroot : c.root = t.tag)
    (hx : IsPath (findKeyInNode key) t x) (hf : x.found = true) (hleaf : x.focus.children = []) :
    ∃ d', removeItem key c = .ok (pathNodes x.frames
          (.node x.focus.tag (x.focus.items.eraseIdx x.index) x.focus.children),
          0 :: pathIndexes x.frames) { c with dal := d' } ∧
      d'.Owns F (plugAll x.frames
        (.node x.focus.tag (x.focus.items.eraseIdx x.index) x.focus.children)) ∧
      Keeps F c.dal d' ∧ d'.freelist = c.dal.freelist := by
  have hreads : c.dal.Reads t := reads_iff_holds.mpr ho.holds
  obtain ⟨a, ha, -⟩ := (scans_findKeyInNode key).hit (hf ▸ hx.stop)
  obtain ⟨hi, -⟩ := List.getElem?_eq_some_iff.mp ha
  have ho' : c.dal.Owns F (plugAll x.frames x.focus) := by rw [hx.eq]; exact ho
  obtain ⟨d', hwrite, hfin, hk, hfl⟩ := ho'.writeItems
    (cap.room_mono (List.eraseIdx_sublist _ _) (by simp) (Or.inl (by rw [hleaf]; rfl))
      (fits_of_at? ho'.zoom.holds.root).1)
  refine ⟨d', ?_, hfin, hk, hfl⟩
  have hget : Dal.getNode c.root c.dal = .ok (nodeOf t) c.dal := hroot ▸ hreads.getNode
  have hroot' : ({ c with dal := d' } : Collection (Shelf cap)).root = (plugAll x.frames
      (.node x.focus.tag (x.focus.items.eraseIdx x.index) x.focus.children)).tag := by
    rw [tag_plugAll]
    exact hroot.trans (by rw [← hx.eq, tag_plugAll]; rfl)
  have hlf : (nodeOf x.focus).isLeaf = true := by rw [isLeaf_nodeOf, hleaf]; rfl
  have hrem : removeItemFromLeaf (nodeOf x.focus) x.index c.dal =
      .ok (nodeOf (.node x.focus.tag (x.focus.items.eraseIdx x.index) x.focus.children)) d' := by
    rw [removeItemFromLeaf,
      Prog.require_bind (show x.index < (nodeOf x.focus).items.length from hi)]
    exact Prog.orPanic_ok hwrite
  have hinner : (if (nodeOf x.focus).isLeaf then do
        let _ ← Dal.removeItemFromLeaf (nodeOf x.focus) x.index
        Prog.ret []
      else Prog.orPanic (Dal.removeItemFromInternal (nodeOf x.focus) x.index) :
        Prog Error (Dal (Shelf cap)) (List Nat)) c.dal = .ok [] d' := by
    rw [if_pos hlf, Prog.bind_ok hrem]; rfl
  rw [removeItem, Prog.get_bind, Prog.bind_ok (onDal_ok_self hget),
    Prog.bind_ok (onDal_ok_self (findKey_ok true hreads hx (ho.length_frames_lt hx))), hf]
  simp only [Bool.true_or, if_true]
  rw [Prog.bind_ok (onDal_ok hinner), List.append_nil]
  refine (Prog.bind_ok (getNodes_ok (reads_iff_holds.mpr hfin.holds) hroot')).trans ?_
  rfl

section Internal

variable {gs : List (Frame Nat Item)} {u s : PTree} {i m : Nat} {y : Path Nat Item} {pred : Item}

theorem descent_ok {φ : Type} [PageStore φ] {d : Dal φ} (hr : d.Reads u) (hu : Uniform (m + 1) u)
    (hdown : LeadsDown u i s y) (hfuel : y.frames.length < d.fuel) :
    (nodeOf u).children[i]? = some s.tag ∧ Dal.getNode s.tag d = .ok (nodeOf s) d ∧
    descendRightmost d.fuel (nodeOf s) [i] d =
      .ok (nodeOf y.focus, [i] ++ pathIndexes y.frames) d := by
  obtain ⟨hys, hyright, hyleaf⟩ := hdown.spec hu
  have hsr : d.Reads (plugAll y.frames y.focus) := by
    rw [hys]
    exact hr.child (List.mem_of_getElem? hdown.child)
  have hdesc := descendRightmost_ok hsr hyright hyleaf d.fuel [i] hfuel
  rw [hys] at hdesc hsr
  exact ⟨by rw [children_nodeOf, List.getElem?_map, hdown.child]; rfl, hsr.getNode, hdesc⟩

/-- A descent in a tree of the shelf has fuel enough. -/
theorem length_descent_lt (ho : d.Owns F (plugAll gs u)) (hu : Uniform (m + 1) u)
    (hdown : LeadsDown u i s y) : y.frames.length < d.fuel := by
  obtain ⟨hys, -⟩ := hdown.spec hu
  have hplug : (Frame.ofNode u.tag u.items u.children i).plug s = u :=
    (Frame.plug_ofNode hu.length_children hdown.child).trans (eta _)
  have h1 := length_frames_lt (gs ++ Frame.ofNode u.tag u.items u.children i :: y.frames) y.focus
  rw [plugAll_append, plugAll_cons, hys, hplug] at h1
  have h2 := ho.length_tags_lt
  simp only [List.length_append, List.length_cons] at h1
  omega

theorem pathIndexes_pulledPath (hu : Uniform (m + 1) u) (hi : i < u.items.length) :
    pathIndexes (pulledPath u i y pred) = [i] ++ pathIndexes y.frames := by
  have hlen : (Frame.ofNode u.tag (u.items.set i pred) u.children i).left.length = i :=
    Frame.length_left_ofNode (by simpa using hu.length_children) (by simpa using hi.le)
  rw [pulledPath, pathIndexes_cons, hlen]
  rfl

/-- The node after the change: only its item has become another. -/
theorem nodeOf_pulled (hu : Uniform (m + 1) u) (hdown : LeadsDown u i s y) (pred : Item) :
    nodeOf (plugAll (pulledPath u i y pred) (pulledLeaf y)) =
      ⟨u.tag, u.items.set i pred, u.children.map Tree.tag⟩ := by
  have hlen := hu.length_children
  have htag : (plugAll y.frames (pulledLeaf y)).tag = s.tag := by
    rw [← (hdown.spec hu).1, tag_plugAll, tag_plugAll]
    rfl
  have hplug : plugAll (pulledPath u i y pred) (pulledLeaf y) = .node u.tag (u.items.set i pred)
      (u.children.set i (plugAll y.frames (pulledLeaf y))) :=
    Frame.plug_ofNode_set _ (by simpa using hlen) (List.getElem?_eq_some_iff.mp hdown.child).1
  have hcs : (u.children.map Tree.tag).set i s.tag = u.children.map Tree.tag := by
    obtain ⟨hlt, rfl⟩ := List.getElem?_eq_some_iff.mp hdown.child
    refine List.ext_getElem? fun j => ?_
    rw [List.getElem?_set]
    split
    next hj => simp [← hj, hlt]
    next => rfl
  rw [hplug, nodeOf, tag_node, items_node, children_node, List.map_set, htag, hcs]

/-- The two writes of `remove_item_from_internal`: the leaf, and then the node. -/
theorem removeItemFromInternal_eq {φ : Type} [PageStore φ] {d : Dal φ} (hr : d.Reads u)
    (hu : Uniform (m + 1) u) (hpull : PullsUp u i s y pred) (hi : i < u.items.length)
    (hfuel : y.frames.length < d.fuel) :
    removeItemFromInternal (nodeOf u) i d = (do
      let _ ← writeNode (nodeOf (pulledLeaf y))
      let _ ← Prog.attempt (writeNode ⟨u.tag, u.items.set i pred, u.children.map Tree.tag⟩)
      Prog.ret (pathIndexes (pulledPath u i y pred)) : Prog Error (Dal φ) (List Nat)) d := by
  obtain ⟨hchild, hgets, hdesc⟩ := descent_ok hr hu hpull.toLeadsDown hfuel
  rw [removeItemFromInternal, Prog.element_bind hchild, Prog.bind_ok hgets,
    Prog.get_bind, Prog.bind_ok hdesc]
  dsimp only
  rw [items_nodeOf, hpull.last, Prog.demand_some, Prog.ret_bind,
    Prog.require_bind (show i < (nodeOf u).items.length from hi), pathIndexes_pulledPath hu hi]
  rfl

theorem write_pulledLeaf (ho : d.Owns F (plugAll gs u)) (hu : Uniform (m + 1) u)
    (hpull : PullsUp u i s y pred) :
    ∃ d', writeNode (nodeOf (pulledLeaf y)) d = .ok (nodeOf (pulledLeaf y)) d' ∧
      d'.Owns F (plugAll (gs ++ Frame.ofNode u.tag u.items u.children i :: y.frames)
        (pulledLeaf y)) ∧ Keeps F d d' ∧ d'.freelist = d.freelist ∧
      d'.written = y.focus.tag :: d.written ∧ ∀ q, q ≠ y.focus.tag → d'.at? q = d.at? q := by
  obtain ⟨hys, -, hyleaf⟩ := hpull.spec hu
  have hgplug : (Frame.ofNode u.tag u.items u.children i).plug (plugAll y.frames y.focus) = u := by
    rw [hys]
    exact (Frame.plug_ofNode hu.length_children hpull.child).trans (eta _)
  have ho' : d.Owns F
      (plugAll (gs ++ Frame.ofNode u.tag u.items u.children i :: y.frames) y.focus) := by
    rw [plugAll_append, plugAll_cons, hgplug]
    exact ho
  obtain ⟨d', hwrite, ho₁, hk, hfl⟩ := ho'.writeItems
    (cap.room_mono (List.dropLast_sublist _) (by simp) (Or.inl (by rw [hyleaf]; rfl))
      (fits_of_at? ho'.zoom.holds.root).1)
  have hw := of_writeNode ho'.zoom.tag_ne_zero hwrite
  exact ⟨d', hwrite, ho₁, hk, hfl, hw.1, hw.2⟩

/-- **`remove_item_from_internal` puts the predecessor in the place of the item**, and
writes the leaf and the node. -/
theorem removeItemFromInternal_ok (ho : d.Owns F (plugAll gs u)) (hu : Uniform (m + 1) u)
    (hpull : PullsUp u i s y pred) (hi : i < u.items.length)
    (hroom : cap.room (u.items.set i pred) (u.items.length + 1) = true) :
    ∃ d', removeItemFromInternal (nodeOf u) i d =
        .ok (pathIndexes (pulledPath u i y pred)) d' ∧
      d'.Owns F (plugAll (gs ++ pulledPath u i y pred) (pulledLeaf y)) ∧ Keeps F d d' ∧
      d'.freelist = d.freelist ∧ d'.written = u.tag :: y.focus.tag :: d.written ∧
      ∀ q, q ≠ u.tag → q ≠ y.focus.tag → d'.at? q = d.at? q := by
  have hlen := hu.length_children
  have hr : d.Reads u := (reads_iff_holds.mpr ho.holds).focus
  have hfuel := length_descent_lt ho hu hpull.toLeadsDown
  obtain ⟨hys, -⟩ := hpull.spec hu
  set g := Frame.ofNode u.tag u.items u.children i with hg
  set g' := Frame.ofNode u.tag (u.items.set i pred) u.children i with hg'
  -- the leaf loses its last item
  obtain ⟨d₁, hwrite₁, ho₁, hk₁, hfl₁, hw₁⟩ := write_pulledLeaf ho hu hpull
  rw [plugAll_append, plugAll_cons, ← hg] at ho₁
  -- the node takes it in
  have hnode : nodeOf (g.plug (plugAll y.frames (pulledLeaf y))) = nodeOf u := by
    have hgplug : g.plug (plugAll y.frames y.focus) = u := by
      rw [hys]
      exact (Frame.plug_ofNode hlen hpull.child).trans (eta _)
    rw [← hgplug]
    apply nodeOf_plug_congr
    rw [tag_plugAll, tag_plugAll]
    rfl
  have htag : (g.plug (plugAll y.frames (pulledLeaf y))).tag = u.tag := congrArg Node.pageNum hnode
  have hcs : (g.plug (plugAll y.frames (pulledLeaf y))).children.map Tree.tag =
      u.children.map Tree.tag := congrArg Node.children hnode
  have hset : g'.plug (plugAll y.frames (pulledLeaf y)) =
      .node (g.plug (plugAll y.frames (pulledLeaf y))).tag (u.items.set i pred)
        (g.plug (plugAll y.frames (pulledLeaf y))).children := by
    have hlt : i < u.children.length := by omega
    rw [hg, hg', Frame.plug_ofNode_set _ hlen hlt, Frame.plug_ofNode_set _ (by simpa using hlen) hlt]
    rfl
  have hroomset : cap.room (u.items.set i pred)
      (g.plug (plugAll y.frames (pulledLeaf y))).children.length = true := by
    have hcl := congrArg List.length hcs
    rw [List.length_map, List.length_map] at hcl
    rw [hcl, hlen]
    exact hroom
  obtain ⟨d₂, hwrite₂, ho₂, hk₂, hfl₂⟩ := ho₁.writeItems hroomset
  have hw₂ := of_writeNode (ho₁.zoom.tag_ne_zero) hwrite₂
  rw [pageNum_nodeOf, tag_node, htag] at hw₂
  rw [← hset] at hwrite₂ ho₂
  refine ⟨d₂, ?_, ?_, hk₁.trans hk₂, hfl₂.trans hfl₁, ?_, fun q hq hq' => ?_⟩
  · rw [removeItemFromInternal_eq hr hu hpull hi hfuel, Prog.bind_ok hwrite₁,
      ← nodeOf_pulled hu hpull.toLeadsDown pred]
    exact Prog.bind_ok (Prog.attempt_ok hwrite₂)
  · rw [plugAll_append, pulledPath, plugAll_cons]
    exact ho₂
  · rw [hw₂.1, hw₁.1]
  · rw [hw₂.2 q hq, hw₁.2 q hq']

/-- Out of an empty leaf no item comes: the end of `items` is read. -/
theorem removeItemFromInternal_stuck {φ : Type} [PageStore φ] {d : Dal φ} (hr : d.Reads u)
    (hu : Uniform (m + 1) u) (hdown : LeadsDown u i s y) (hempty : y.focus.items.getLast? = none)
    (hfuel : y.frames.length < d.fuel) :
    removeItemFromInternal (nodeOf u) i d = .stop .undefined := by
  obtain ⟨hchild, hgets, hdesc⟩ := descent_ok hr hu hdown hfuel
  rw [removeItemFromInternal, Prog.element_bind hchild, Prog.bind_ok hgets, Prog.get_bind,
    Prog.bind_ok hdesc]
  dsimp only
  rw [items_nodeOf, hempty]
  rfl

end Internal

theorem removeItem_inner (ho : c.dal.Owns F t) (hroot : c.root = t.tag) (hu : Uniform h t)
    (hx : IsPath (findKeyInNode key) t x) (hf : x.found = true) (hne : x.focus.children ≠ [])
    (hp : takeOut x = some p)
    (hroom : ∀ f ∈ p.1, cap.room f.items (f.items.length + 1) = true) :
    ∃ d', removeItem key c =
        .ok (pathNodes p.1 p.2, 0 :: pathIndexes p.1) { c with dal := d' } ∧
      d'.Owns F (plugAll p.1 p.2) ∧ Keeps F c.dal d' ∧ d'.freelist = c.dal.freelist := by
  have hreads : c.dal.Reads t := reads_iff_holds.mpr ho.holds
  obtain ⟨a, ha, -⟩ := (scans_findKeyInNode key).hit (hf ▸ hx.stop)
  obtain ⟨hi, -⟩ := List.getElem?_eq_some_iff.mp ha
  have hupath : Uniform h (plugAll x.frames x.focus) := by rw [hx.eq]; exact hu
  obtain ⟨k, -, hfocus⟩ := uniform_of_plugAll hupath
  obtain ⟨m, rfl⟩ : ∃ m, k = m + 1 := by
    cases k with
    | zero => exact absurd hfocus.children_eq_nil hne
    | succ m => exact ⟨m, rfl⟩
  obtain ⟨s, y, pred, hpull, rfl⟩ := takeOut_inner hne hp
  have hroomset : cap.room (x.focus.items.set x.index pred) (x.focus.items.length + 1) = true := by
    have hroom' := hroom (Frame.ofNode x.focus.tag (x.focus.items.set x.index pred)
      x.focus.children x.index) (by simp [pulledPath])
    rwa [Frame.items_ofNode (by simpa using hfocus.length_children) hpull.child,
      List.length_set] at hroom'
  have ho' : c.dal.Owns F (plugAll x.frames x.focus) := by rw [hx.eq]; exact ho
  obtain ⟨d', hinternal, hfin, hk, hfl, -⟩ :=
    removeItemFromInternal_ok ho' hfocus hpull hi hroomset
  refine ⟨d', ?_, hfin, hk, hfl⟩
  have hget : Dal.getNode c.root c.dal = .ok (nodeOf t) c.dal := hroot ▸ hreads.getNode
  have hroot' : ({ c with dal := d' } : Collection (Shelf cap)).root =
      (plugAll (x.frames ++ pulledPath x.focus x.index y pred) (pulledLeaf y)).tag := by
    rw [plugAll_append, tag_plugAll]
    exact hroot.trans (by rw [← hx.eq, tag_plugAll]; rfl)
  have hlf : (nodeOf x.focus).isLeaf = false := by
    rw [isLeaf_nodeOf]
    simpa using hne
  have hinner : (if (nodeOf x.focus).isLeaf then do
        let _ ← Dal.removeItemFromLeaf (nodeOf x.focus) x.index
        Prog.ret []
      else Prog.orPanic (Dal.removeItemFromInternal (nodeOf x.focus) x.index) :
        Prog Error (Dal (Shelf cap)) (List Nat)) c.dal =
      .ok (pathIndexes (pulledPath x.focus x.index y pred)) d' := by
    rw [hlf]
    exact Prog.orPanic_ok hinternal
  rw [removeItem, Prog.get_bind, Prog.bind_ok (onDal_ok_self hget),
    Prog.bind_ok (onDal_ok_self (findKey_ok true hreads hx (ho.length_frames_lt hx))), hf]
  simp only [Bool.true_or, if_true]
  rw [Prog.bind_ok (onDal_ok hinner), List.cons_append, ← pathIndexes_append]
  refine (Prog.bind_ok (getNodes_ok (reads_iff_holds.mpr hfin.holds) hroot')).trans ?_
  rfl

/-- **The first half of `remove` does what `takeOut` says.** -/
theorem removeItem_ok (ho : c.dal.Owns F t) (hroot : c.root = t.tag) (hu : Uniform h t)
    (hx : IsPath (findKeyInNode key) t x) (hf : x.found = true) (hp : takeOut x = some p)
    (hroom : ∀ f ∈ p.1, cap.room f.items (f.items.length + 1) = true) :
    ∃ d', removeItem key c =
        .ok (pathNodes p.1 p.2, 0 :: pathIndexes p.1) { c with dal := d' } ∧
      d'.Owns F (plugAll p.1 p.2) ∧ Keeps F c.dal d' ∧ d'.freelist = c.dal.freelist := by
  by_cases hleaf : x.focus.children = []
  · have h := removeItem_leaf ho hroot hx hf hleaf
    rw [hleaf] at h
    obtain rfl := Option.some.inj ((takeOut_leaf hleaf).symm.trans hp)
    exact h
  · exact removeItem_inner ho hroot hu hx hf hleaf hp hroom

end TakeOut

/-! ## `remove` as a whole -/

section Remove

variable {c : Collection (Shelf cap)} {t leaf : PTree} {fs : List (Frame Nat Item)} {h : Nat}
  {key : Bytes} {x : Path Nat Item}

/-- **The end of `remove` does what `collapse` says.** -/
theorem collapseRoot_ok (hleaf : leaf.children = [])
    (hsafe : ShrinkSafe cap c.dal.options leaf fs)
    (ho : c.dal.Owns F (shrinkPath c.dal.options leaf fs))
    (hroot : c.root = (shrinkPath c.dal.options leaf fs).tag) :
    ∃ c', collapseRoot (pathNodes fs leaf) c = .ok () c' ∧
      c'.dal.Owns F (collapse (topItems fs leaf.items) (shrinkPath c.dal.options leaf fs)) ∧
      c'.root = (collapse (topItems fs leaf.items) (shrinkPath c.dal.options leaf fs)).tag ∧
      c'.name = c.name ∧ c'.dal = c.dal := by
  have hitems : (nodeOf (plugAll fs leaf)).items = topItems fs leaf.items := by
    rw [items_nodeOf, topItems_plugAll]
  rw [collapseRoot, Prog.element_bind (pathNodes_head fs leaf), hitems]
  cases fs with
  | nil =>
    have hno : ¬((topItems ([] : List (Frame Nat Item)) leaf.items).isEmpty = true ∧
        ¬(nodeOf (plugAll [] leaf)).children.isEmpty = true) := by
      simp [hleaf]
    rw [if_neg hno, topItems, shrinkPath, collapse_leaf hleaf]
    exact ⟨c, rfl, ho, hroot, rfl, rfl⟩
  | cons f fs =>
    by_cases hf : f.items = []
    · obtain ⟨-, hplug, hc⟩ := shrinkPath_collapsed hsafe hf
      have hyes : (topItems (f :: fs) leaf.items).isEmpty = true ∧
          ¬(nodeOf (plugAll (f :: fs) leaf)).children.isEmpty = true := by
        simp [topItems, hf]
      have h1 : (pathNodes (f :: fs) leaf)[1]? = some (nodeOf (plugAll fs leaf)) := pathNodes_head fs leaf
      rw [hplug] at ho
      rw [if_pos hyes, Prog.element_bind h1, hc]
      refine ⟨_, rfl, ⟨(holds_plug.mp ho.holds).2.2, ho.layout.subperm ?_⟩, tag_shrinkPath.symm, rfl,
        rfl⟩
      exact ((List.sublist_append_right _ _).subperm).trans (f.tags_plug _).symm.subperm
    · have hno : ¬((topItems (f :: fs) leaf.items).isEmpty = true ∧
          ¬(nodeOf (plugAll (f :: fs) leaf)).children.isEmpty = true) := by
        simp [topItems, hf]
      have hc : ¬(topItems (f :: fs) leaf.items).isEmpty = true := by simpa [topItems] using hf
      rw [if_neg hno, collapse, if_neg hc]
      exact ⟨c, rfl, ho, hroot, rfl, rfl⟩

theorem find_runs (ho : c.dal.Owns F t) (hroot : c.root = t.tag) (hu : Uniform h t) (key : Bytes) :
    ∃ r, find key c = .ok r c := by
  obtain ⟨x, -, hx⟩ := exists_path key hu.regular
  exact ⟨_, find_of_path (reads_iff_holds.mpr ho.holds) hroot hx (ho.length_frames_lt hx)⟩

/-- **`remove` of a present key does what `removeOutline` says**, and leaves the pages
of others alone. -/
theorem remove_ok (ho : c.dal.Owns F t) (hroot : c.root = t.tag) (hu : Uniform h t)
    (hx : locate (findKeyInNode key) t = some x) (hpath : IsPath (findKeyInNode key) t x)
    (hf : x.found = true) (hsafe : RemoveSafe cap c.dal.options key t) :
    ∃ c', remove key c = .ok () c' ∧ c'.dal.Owns F (removeOutline c.dal.options key t) ∧
      c'.root = (removeOutline c.dal.options key t).tag ∧ c'.name = c.name ∧
      Keeps F c.dal c'.dal ∧ c'.dal.freelist.maxPage = c.dal.freelist.maxPage ∧
      (t.children = [] ∨ t.items ≠ [] → Allots c.dal.freelist c'.dal.freelist t.tags
        (removeOutline c.dal.options key t).tags) := by
  obtain ⟨p, hp, hroom, hshrink⟩ := hsafe x hx hf
  obtain ⟨-, hup, hleaf⟩ := takeOut_spec hu hpath hf hp
  obtain ⟨d₁, hrun₁, ho₁, hk₁, hfl₁⟩ := removeItem_ok ho hroot hu hpath hf hp hroom
  rw [← hk₁.options] at hshrink
  obtain ⟨d₂, hrun₂, ho₂, hk₂, hmax₂, hal⟩ := rebalanceRounds_ok p.1 [] ho₁ hup hshrink
  have hoptions : d₂.options = c.dal.options := hk₂.options.trans hk₁.options
  have hroot₂ : c.root = (shrinkPath d₂.options p.2 p.1).tag := by
    rw [tag_shrinkPath, hroot, tag_takeOut hpath hp]
  rw [hk₁.options, ← hoptions] at ho₂
  rw [hk₁.options, ← hoptions] at hshrink
  obtain ⟨c₃, hrun₃, ho₃, hroot₃, hname₃, hdal₃⟩ := collapseRoot_ok
    (c := { c with dal := d₂ }) hleaf hshrink ho₂ hroot₂
  rw [hoptions] at ho₃ hroot₃
  rw [hoptions] at hshrink
  obtain ⟨⟨h', hu'⟩, -⟩ := collapse_spec hup hshrink hleaf
  obtain ⟨r, hfind⟩ := find_runs ho₃ hroot₃ hu' key
  rw [← removeOutline_eq hx hf hp] at ho₃ hroot₃
  refine ⟨c₃, ?_, ho₃, hroot₃, hname₃, ?_, ?_, fun hkeeps => ?_⟩
  · have hrounds : Prog.forEach (rebalanceRound (pathNodes p.1 p.2) (0 :: pathIndexes p.1))
        (rounds (pathNodes p.1 p.2)) d₁ = .ok () d₂ := by
      rw [rounds_eq, length_pathNodes]
      exact hrun₂
    refine (Prog.bind_ok hrun₁).trans ?_
    refine (Prog.bind_ok (onDal_ok hrounds)).trans ?_
    exact (Prog.bind_ok hrun₃).trans ((Prog.bind_ok hfind).trans rfl)
  · rw [hdal₃]
    exact hk₁.trans hk₂
  · rw [hdal₃]
    exact hmax₂.trans (congrArg Freelist.maxPage hfl₁)
  · rw [removeOutline_eq hx hf hp, collapse_kept hu hpath hf hp hkeeps, hdal₃]
    rw [hfl₁, hk₁.options] at hal
    exact (Allots.of_subset (tags_takeOut hu hpath hp).symm.subset).trans hal

end Remove

end Collection

end Toocal
