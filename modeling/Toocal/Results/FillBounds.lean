import Toocal.Tree.Stored
import Toocal.Tree.Thinning
import Toocal.Tree.Replay

/-!
# The fill bounds after a removal

`rebalance_remove` merges after a rotation too, so the merged node may be over-populated,
and the loop of `remove` tests the parent as it was before it lost the separator:
`fillBounds_iff` says when every node below the root has between `m` and `M` items
afterwards, and `overfullMerge` is a run on the database file that ends with a node of
more than `M`.
-/

namespace Toocal

open Outcomes Multiway Multiway.Tree Collection Pages4096

/-- The removal of the key takes an item from a leaf that can do without it, or whose repair
and whose parent can. -/
def KeepsFillBounds (o : Options) (m M : Nat) (key : Bytes) (t : PTree) : Prop :=
  ∃ x ∈ locate (findKeyInNode key) t, ∃ p ∈ losingPath x, KeepsBounds o m M p

/-- A page has room for the leaf that the removal of the key makes of two others, if it comes to
that. -/
def RoomToMerge [System] (o : Options) (s m : Nat) (key : Bytes) (t : PTree) : Prop :=
  ∀ x ∈ locate (findKeyInNode key) t, ∀ p ∈ losingPath x, p.2.items.length = m →
    ∀ f ∈ (p.1.map Frame.around).getLast?,
      headerSize + repairedLength o (m - 1) f * (s + 4) ≤ defaultPageSize - 1

/-- `remove` returns, and every node below the root of the tree it leaves has between `m` and `M`
items. -/
def RemovesWithin [System] (c : Collection File) (F : Set Nat) (m M : Nat) (key : Bytes) : Prop :=
  ∃ c' t', remove key c = .ok () c' ∧ c'.Stored F (some t') ∧ t'.Below (Ranged m M)

section Room

variable [System] {t : PTree} {d : Dal File} {o : Options} {s h : Nat} {f : Frame Nat Item}
  {leaf : PTree}

theorem roomy_frames {fs fs' : List (Frame Nat Item)}
    (haround : fs.map Frame.around = fs'.map Frame.around) (hold : d.Stores (plugAll fs' t))
    (hsized : Sized s (plugAll fs' t).inorder)
    (hgood : ∀ f ∈ fs, Sized s f.items) :
    ∀ f ∈ fs, PageRoom f.items (f.items.length + 1) := by
  intro f hf
  obtain ⟨f', hf', he⟩ := exists_around haround hf
  have hlen : f.items.length = f'.items.length := by
    rw [← Frame.length_around, ← he, Frame.length_around]
  have hroom := hold.room_frame f' hf'
  rw [← hlen] at hroom
  exact pageRoom_congr (hsized.mono (items_subset_inorder hf' t)) (hgood f hf) hlen hroom

theorem rebalanceFits_sized (hu : Uniform h (f.plug leaf)) (hleaf : leaf.children = [])
    (hgood : (f.plug leaf).Each (Sized s))
    (hroom : PageRoom f.items (f.items.length + 1)) (hsib : f.siblings ≠ [])
    (hmerge : headerSize + repairedLength o leaf.items.length f.around * (s + 4) ≤
      defaultPageSize - 1) (pageSize : Nat) : RebalanceFits (Capacity.page pageSize) o f leaf := by
  obtain ⟨hitems, hsiblings, -⟩ := Frame.each_plug.mp hgood
  have hmoved : ∀ its : List Item, its.length = f.items.length →
      (∀ b ∈ its, b ∈ f.items ∨ ∃ c ∈ f.siblings, b ∈ c.items) →
      PageRoom its (f.items.length + 1) := by
    intro its hlen hits
    refine pageRoom_congr hitems (fun b hb => ?_) hlen hroom
    rcases hits b hb with hb | ⟨v, hv, hb⟩
    · exact hitems b hb
    · exact (each_iff.mp (hsiblings v hv)).1 b hb
  refine ⟨hsib, room_page.mpr (hmoved _ length_afterRightRotation fun b => mem_afterRightRotation),
    room_page.mpr (hmoved _ length_afterRotations fun b => mem_afterRotations), room_page.mpr ?_⟩
  have hleaves : ∀ c ∈ f.siblings, c.children = [] := 
    leaves_beside (show Uniform h (plugAll ([] ++ [f]) leaf) from hu) hleaf
  obtain ⟨hchildren, hcount⟩ := mergedNode_leaf (o := o) hleaf hleaves hsib
  rw [pageRoom_sized (forall_mergedNode (o := o) hu hgood), hchildren, hcount]
  exact ⟨.inl rfl, by simpa using hmerge⟩

end Room

section Remove

variable [System] {c : Collection File} {F : Set Nat} {t : PTree} {key : Bytes} {s m M h : Nat}
  {x : Path Nat Item}

/-- What the removal writes has room: all items have one size, so it is a matter of how many a
node has. -/
theorem roomToRemove (hst : c.dal.Stores t) (hb : Bounds c.dal.options s m M) (hu : Uniform h t)
    (hsize : Sized s t.inorder) (hfill : t.Below (Ranged m M))
    (hx : locate (findKeyInNode key) t = some x) (hpath : IsPath (findKeyInNode key) t x)
    (hf : x.found = true) (hmerge : RoomToMerge c.dal.options s m key t) (pageSize : Nat) :
    RoomToRemove (Capacity.page pageSize) c.dal.options x := by
  rintro ⟨fs, leaf⟩ hq
  obtain ⟨p, hp, hplug, hleafp, -, htaken⟩ := losingPath_spec hu hpath hf
  obtain ⟨haround, hlen⟩ : fs.map Frame.around = p.1.map Frame.around ∧
      leaf.items.length + 1 = p.2.items.length := htaken _ hq
  obtain ⟨⟨l₁, a, l₂, hin, -, hin'⟩, huq, hleaf⟩ := takeOut_spec hu hpath hf hq
  have hgood : (plugAll fs leaf).Each (Sized s) := by
    refine each_forall_iff.mpr (hsize.mono ?_)
    rw [hin', hin]
    exact ((List.sublist_cons_self a l₂).append_left l₁).subset
  have hrooms : ∀ f ∈ fs, PageRoom f.items (f.items.length + 1) := by
    rw [← hplug] at hst hsize
    exact roomy_frames haround hst hsize fun f hf => ((each_plugAll.mp hgood).1 f hf).1
  refine ⟨fun f hf => room_page.mpr (hrooms f hf), fun hunder f hlast hsib => ?_⟩
  obtain ⟨gs, rfl⟩ : ∃ gs, fs = gs ++ [f] := List.getLast?_eq_some_iff.mp hlast
  -- the leaf has had the fewest items
  have hne : p.1 ≠ [] := fun hnil => by simp [hnil] at haround
  have hrange : Ranged m M p.2.items := (each_iff.mp (below_focus hne (hplug ▸ hfill))).1
  have hlt := (takeOut_ranged hb hu hsize hst.narrow hfill hpath hf hq).2.2.2.mp hunder
  have hm : p.2.items.length = m := by
    have := hrange.1
    omega
  have hroom := hmerge x hx p hp hm f.around (by rw [← haround]; simp)
  have hcount : leaf.items.length = m - 1 := by omega
  rw [plugAll_append] at huq hgood
  obtain ⟨k, -, hk⟩ := uniform_of_plugAll huq
  exact rebalanceFits_sized hk hleaf (each_plugAll.mp hgood).2 (hrooms f (by simp)) hsib
    (hcount ▸ hroom) pageSize

theorem removeSafe_of_returns (hs : c.Stored F (some t)) (hb : Bounds c.dal.options s m M)
    (hu : Uniform h t) (hsize : Sized s t.inorder) (hfill : t.Below (Ranged m M))
    (hx : locate (findKeyInNode key) t = some x) (hpath : IsPath (findKeyInNode key) t x)
    (hf : x.found = true)
    (hroom : RoomToRemove (Capacity.page c.dal.options.pageSize) c.dal.options x)
    {c' : Collection File} (hrun : remove key c = .ok () c') :
    RemoveSafe (Capacity.page c.dal.options.pageSize) c.dal.options key t := by
  have hrooms : ∀ q ∈ takeOut x, ∀ f ∈ q.1, PageRoom f.items (f.items.length + 1) :=
    fun q hq f hf => room_page.mp ((hroom q hq).1 f hf)
  have hreturns : ¬∀ q ∈ takeOut x, c.dal.options.isUnderPopulated q.2.items ∧
      ∃ f ∈ q.1.getLast?, f.siblings = [] := fun hstuck => by
    cases (hs.remove_stuck hu hpath hf hrooms hstuck).symm.trans hrun
  cases hq : takeOut x with
  | none => exact absurd (fun q hq' => by rw [hq] at hq'; cases hq') hreturns
  | some q =>
    obtain ⟨fs, leaf⟩ := q
    obtain ⟨hrooms, hfits⟩ := hroom _ hq
    rw [removeSafe_iff hx hf hq]
    refine ⟨hrooms, ?_⟩
    rcases List.eq_nil_or_concat' fs with rfl | ⟨gs, f, rfl⟩
    · trivial
    · have hcalm := (takeOut_ranged hb hu hsize (hs.stores t rfl).narrow hfill hpath hf hq).2.2.1
      rw [shrinkSafe_snoc hcalm]
      refine fun hunder => hfits hunder f (by simp) fun hsib => hreturns fun q hq' => ?_
      obtain rfl := Option.some.inj (hq.symm.trans hq')
      exact ⟨hunder, f, by simp, hsib⟩

/-- **After a removal every node below the root has between `m` and `M` items exactly if**
the leaf that loses an item can do without it, or its repair keeps the bounds; where the leaf
that the repair makes has room on its page. -/
theorem fillBounds_iff (hb : Bounds c.dal.options s m M) (hs : c.Stored F (some t))
    (hw : WellFormed (some t)) (hsize : Sized s t.inorder) (hfill : t.Below (Ranged m M))
    (hkey : valueAt (some t) key ≠ none) :
    (RoomToMerge c.dal.options s m key t ∧ KeepsFillBounds c.dal.options m M key t →
      RemovesWithin c F m M key) ∧
    (RoomToMerge c.dal.options s m key t → ¬KeepsFillBounds c.dal.options m M key t →
      ¬RemovesWithin c F m M key) := by
  have hst := hs.stores t rfl
  obtain ⟨⟨h, hu⟩, hsorted⟩ := wellFormed_some.mp hw
  obtain ⟨x, hx, hpath⟩ := exists_path key hu.regular
  have hf : x.found = true := (found_iff hpath hsorted).mpr hkey
  obtain ⟨p, hp, -⟩ := losingPath_spec hu hpath hf
  have hkeeps : KeepsFillBounds c.dal.options m M key t ↔ KeepsBounds c.dal.options m M p := by
    constructor
    · rintro ⟨y, hy, q, hq, hbounds⟩
      obtain rfl := Option.some.inj (hx.symm.trans hy)
      obtain rfl := Option.some.inj (hp.symm.trans hq)
      exact hbounds
    · exact fun hbounds => ⟨x, hx, p, hp, hbounds⟩
  have hiff : RoomToMerge c.dal.options s m key t →
      (RemovesWithin c F m M key ↔ KeepsFillBounds c.dal.options m M key t) := by
    intro hmerge
    have hroom := roomToRemove hst hb hu hsize hfill hx hpath hf hmerge c.dal.options.pageSize
    rw [hkeeps, ← below_removeOutline_iff hb hu hsize hst.narrow hfill hx hpath hf hp hroom]
    constructor
    · rintro ⟨c', t', hrun, hs', hfill'⟩
      have hsafe := removeSafe_of_returns hs hb hu hsize hfill hx hpath hf hroom hrun
      obtain ⟨c'', hrun', hs''⟩ := hs.remove_ok hu hx hpath hf hsafe
      obtain ⟨-, rfl⟩ := Outcome.ok.inj (hrun.symm.trans hrun')
      obtain rfl := Option.some.inj (hs'.shows.unique hs''.shows)
      exact ⟨hsafe, hfill'⟩
    · rintro ⟨hsafe, hfill'⟩
      obtain ⟨c', hrun, hs'⟩ := hs.remove_ok hu hx hpath hf hsafe
      exact ⟨c', _, hrun, hs', hfill'⟩
  exact ⟨fun ⟨hmerge, hk⟩ => (hiff hmerge).mpr hk, fun hmerge => mt (hiff hmerge).mp⟩

end Remove

/-! ## Nodes of one to two items -/

/-- A node is under-populated without items, and over-populated with three of two bytes, or with
five of one byte. -/
def shortNodes : Options := ⟨4096, 12 / 4096, 15 / 4096⟩

theorem thresholds_shortNodes :
    shortNodes.minThreshold = (12 : ℕ) ∧ shortNodes.maxThreshold = (15 : ℕ) := by
  decide +kernel

theorem bounds_shortNodes {s m M : Nat} (hs : s ≤ 255) (hm : ∀ n, 11 + n * s < 12 ↔ n < m)
    (hM : ∀ n, 15 < 11 + n * s ↔ M < n) : Bounds shortNodes s m M :=
  bounds_of_thresholds hs thresholds_shortNodes.1 thresholds_shortNodes.2 hm hM

/-- The leaf with the single item 9 is merged into its neighbour, which has two of four. -/
theorem fillBounds_iff_pair : ∃ c : Collection File,
    c.Stored {q | q ≤ 2} (some (pairOf [⟨[1], []⟩, ⟨[2], []⟩] [⟨[9], []⟩])) ∧
      RemovesWithin c {q | q ≤ 2} 1 4 [9] := by
  obtain ⟨c, ho, -, hs⟩ := exists_stored (o := shortNodes) 5 (by decide) (by decide)
    (pairOf [⟨[1], []⟩, ⟨[2], []⟩] [⟨[9], []⟩]) (by decide) (by decide) (by decide) (by decide +kernel)
  have hb : Bounds c.dal.options 1 1 4 := by
    rw [ho]
    exact bounds_shortNodes (by decide) (fun n => by omega) fun n => by omega
  refine ⟨c, hs, (fillBounds_iff hb hs (wellFormed_pairOf (by decide)) (by decide) (by decide)
    (by decide)).1 ?_⟩
  rw [ho]
  refine ⟨?_, _, rfl, _, rfl, by decide, .inr (.inr ⟨[], _, rfl, ?_, .inl (by simp)⟩)⟩
  · rintro x hx p hp - f hf
    obtain rfl := Option.some.inj hx
    obtain rfl := Option.some.inj hp
    obtain rfl := Option.some.inj hf
    decide
  · show 2 + 1 ≤ 4
    decide

/-- Four puts build a leaf with two items and one with one item, under one item. -/
def twoAndOne : List Op := [1, 3, 4, 2].map putByte

def afterTwoAndOne : PTree := .node 4 ([3].map fun k => ⟨[k], [k]⟩) [leafOf 3 [1, 2], leafOf 5 [4]]

/-- **The removal of the single item merges its leaf into the full one**, with the item of the
root: three items, where two are the most. -/
theorem overfullMerge : 2 * 1 ≤ 2 ∧ Bounds shortNodes 2 1 2 ∧ WellFormed (some afterTwoAndOne) ∧
    Sized 2 afterTwoAndOne.inorder ∧ afterTwoAndOne.Below (Ranged 1 2) ∧
    valueAt (some afterTwoAndOne) [4] ≠ none ∧
    ∃ d c c', Dal.create shortNodes = .ok () d ∧ replay twoAndOne ⟨d, [], 0⟩ = some c ∧
      c.Shows (some afterTwoAndOne) ∧ remove [4] c = .ok () c' ∧
      c'.Shows (some (.node 4 [] [leafOf 3 [1, 2, 3]])) ∧
      ¬(Multiway.Tree.node 4 [] [leafOf 3 [1, 2, 3]]).Below (Ranged 1 2) := by
  have hb : Bounds shortNodes 2 1 2 := bounds_shortNodes (by decide) (fun n => by omega)
    fun n => by omega
  have hw : WellFormed (some afterTwoAndOne) :=
    wellFormed_overLeaves rfl (by decide) (by decide)
  obtain ⟨d, c, c', hd, hrun, hshows, hremove, hshows', -⟩ := exists_step shortNodes []
    twoAndOne (removeByte 4) afterTwoAndOne (.node 4 [] [leafOf 3 [1, 2, 3]]) ⟨5, [5]⟩ (by decide)
    (by decide) (by decide) (by decide) (by decide +kernel)
  exact ⟨by decide, hb, hw, by decide, by decide, by decide, d, c, c', hd, hrun, hshows, hremove,
    hshows', by decide⟩

end Toocal
