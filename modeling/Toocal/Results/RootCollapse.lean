import Toocal.Tree.Stored

/-!
# The root after a removal

`remove` looks for a root without items in the list of ancestors it has read before its
rounds, so a root that loses its last item in a round stays the root.

* `root_removeOutline`: a safe removal takes an item from the root exactly if the child of the
  root on the path is repaired.
* `rootCollapses_iff`: the root is fit to stay, or the merged child has taken its place,
  except where that repair takes the last item of the root.
* `emptyRoot_stays`: two leaves under one item.
-/

namespace Toocal

open Outcomes Multiway Multiway.Tree Collection Pages4096

/-- The root that a removal from `t` leaves is a leaf or has an item; and where the last two
children of the old root have been merged, the root is the merged node and a tree one level
shorter stands there. -/
structure RootCollapses {φ : Type} [PageStore φ] (t : PTree) (c : Collection φ) : Prop where
  root : ∃ root, Dal.getNode c.root c.dal = .ok root c.dal ∧ (root.isLeaf = true ∨ root.items ≠ [])
  merged : ∀ its merged, t.children.length = 2 →
    Dal.getNode t.tag c.dal = .ok ⟨t.tag, its, [merged]⟩ c.dal →
    c.root = merged ∧ ∃ h t', Uniform (h + 1) t ∧ Uniform h t' ∧ c.Shows (some t')

/-- `remove` returns, and the root has collapsed or need not. -/
def RemoveCollapses [System] (c : Collection File) (key : Bytes) (t : PTree) : Prop :=
  ∃ c', remove key c = .ok () c' ∧ RootCollapses t c'

/-- The child of the root on the path is under-populated once the item is taken out. -/
def RootChildRepaired {π : Type} (o : Options) (key : Bytes) (t : Tree π Item) : Prop :=
  ∃ x ∈ locate (findKeyInNode key) t, ∃ f fs leaf, takeOut x = some (f :: fs, leaf) ∧
    o.isUnderPopulated (topItems fs leaf.items)

/-- Its repair takes the only item of the root. -/
def LosesLastItem {π : Type} (o : Options) (key : Bytes) (t : Tree π Item) : Prop :=
  t.items.length = 1 ∧ RootChildRepaired o key t

section Outline

variable {π : Type} {cap : Capacity} {o : Options} {t leaf : Tree π Item} {x : Path π Item} {h : Nat}
  {key : Bytes} {f : Frame π Item} {fs : List (Frame π Item)}

theorem rootChildRepaired_iff (hx : locate (findKeyInNode key) t = some x)
    (hp : takeOut x = some (f :: fs, leaf)) :
    RootChildRepaired o key t ↔ o.isUnderPopulated (topItems fs leaf.items) := by
  constructor
  · rintro ⟨y, hy, g, gs, leaf', hp', hunder⟩
    obtain rfl := Option.some.inj (hx.symm.trans hy)
    rw [hp] at hp'
    cases hp'
    exact hunder
  · exact fun hunder => ⟨x, hx, f, fs, leaf, hp, hunder⟩

/-- **What a safe removal leaves of the root**: it keeps its height, and loses an item exactly if
the child on the path is repaired. -/
theorem root_removeOutline (hu : Uniform h t) (hx : locate (findKeyInNode key) t = some x)
    (hpath : IsPath (findKeyInNode key) t x) (hf : x.found = true) (hsafe : RemoveSafe cap o key t)
    (hroot : t.children = [] ∨ t.items ≠ []) :
    Uniform h (removeOutline o key t) ∧ (removeOutline o key t).tag = t.tag ∧
      (RootChildRepaired o key t →
        t.children ≠ [] ∧ (removeOutline o key t).items.length + 1 = t.items.length) ∧
      (¬RootChildRepaired o key t → t.children ≠ [] →
        (removeOutline o key t).items.length = t.items.length) := by
  obtain ⟨⟨fs, leaf⟩, hp, -, hshrink⟩ := hsafe x hx hf
  obtain ⟨-, huniform, -⟩ := takeOut_spec hu hpath hf hp
  rw [removeOutline_eq hx hf hp, collapse_kept hu hpath hf hp hroot]
  refine ⟨(shrinkPath_spec huniform).1, tag_shrinkPath.trans (tag_takeOut hpath hp), ?_, ?_⟩
  · rintro ⟨y, hy, f, gs, leaf', hp', hunder⟩
    obtain rfl := Option.some.inj (hx.symm.trans hy)
    rw [hp] at hp'
    cases hp'
    have hlen := length_takeOut hu hpath hp
    have hsib := (hshrink.2 hunder).1.sibling
    refine ⟨fun hnil => ?_, ?_⟩
    · obtain rfl : h = 0 := hu.zero_of_children hnil
      exact absurd huniform.children_eq_nil (by simp)
    · show (shrinkPath o leaf (f :: gs)).items.length + 1 = t.items.length
      rw [shrinkPath, if_pos hunder, length_rebalance hsib, hlen]
  · intro hcalm hne
    cases fs with
    | nil => exact absurd (takeOut_nil hpath hp) hne
    | cons f fs =>
      rw [rootChildRepaired_iff hx hp] at hcalm
      rw [shrinkPath, if_neg hcalm, Frame.items_plug, length_takeOut hu hpath hp]

end Outline

section Root

variable [System] {c : Collection File} {F : Set Nat} {t : PTree} {key : Bytes}

theorem not_rootCollapses {c' : Collection File} {t' : PTree} {h : Nat} (hs : c'.Stored F (some t'))
    (hu : Uniform (h + 1) t') (hitems : t'.items = []) : ¬RootCollapses t c' := by
  rintro ⟨⟨root, hread, hstands⟩, -⟩
  have hroot : c'.root = t'.tag := hs.root
  rw [hroot, (hs.stores t' rfl).reads.getNode] at hread
  obtain ⟨rfl, -⟩ := Outcome.ok.inj hread
  have hlen := hu.length_children
  rcases hstands with hleaf | hne
  · have hnil : t'.children = [] := by simpa [isLeaf_nodeOf] using hleaf
    rw [hnil, List.length_nil] at hlen
    omega
  · exact hne hitems

theorem rootCollapses_of_fit {c' : Collection File} {t' : PTree} {h : Nat}
    (hs : c'.Stored F (some t')) (htag : t'.tag = t.tag) (hu : Uniform h t) (hu' : Uniform h t')
    (hfit : t'.children = [] ∨ t'.items ≠ []) : RootCollapses t c' := by
  have hread := (hs.stores t' rfl).reads.getNode
  have hroot : c'.root = t'.tag := hs.root
  refine ⟨⟨nodeOf t', hroot ▸ hread, ?_⟩, fun its merged htwo hmerged => ?_⟩
  · exact hfit.imp_left fun hnil => by rw [isLeaf_nodeOf, hnil]; rfl
  · -- a root that stays has as many children as before, or is a leaf
    exfalso
    rw [← htag, hread] at hmerged
    have hone := congrArg (fun n : Node => n.children.length) (Outcome.ok.inj hmerged).1
    rw [children_nodeOf, List.length_map] at hone
    obtain ⟨k, rfl⟩ : ∃ k, h = k + 1 := by
      cases h with
      | zero => rw [hu.children_eq_nil] at htwo; cases htwo
      | succ k => exact ⟨k, rfl⟩
    have hlen := hu'.length_children
    simp only [List.length_singleton] at hone
    have hchildren : t'.children ≠ [] := List.ne_nil_of_length_pos (by rw [hone]; exact Nat.one_pos)
    have hitems := List.length_pos_iff.mpr (hfit.resolve_left hchildren)
    omega

theorem not_removeCollapses (hs : c.Stored F (some t)) (hw : WellFormed (some t))
    (hroot : t.children = [] ∨ t.items ≠ []) (hkey : valueAt (some t) key ≠ none)
    (hsafe : RemoveSafe (Capacity.page c.dal.options.pageSize) c.dal.options key t)
    (hloses : LosesLastItem c.dal.options key t) : ¬RemoveCollapses c key t := by
  obtain ⟨⟨h, hu⟩, hsorted⟩ := wellFormed_some.mp hw
  obtain ⟨x, hx, hpath⟩ := exists_path key hu.regular
  have hf : x.found = true := (found_iff hpath hsorted).mpr hkey
  obtain ⟨hone, hrep⟩ := hloses
  rintro ⟨c', hrun, hcollapses⟩
  obtain ⟨c'', hrun', hs'⟩ := hs.remove_ok hu hx hpath hf hsafe
  obtain ⟨-, rfl⟩ := Outcome.ok.inj (hrun.symm.trans hrun')
  obtain ⟨hu', -, hrepaired, -⟩ := root_removeOutline hu hx hpath hf hsafe hroot
  obtain ⟨hne, hitems⟩ := hrepaired hrep
  obtain ⟨k, rfl⟩ : ∃ k, h = k + 1 := by
    cases h with
    | zero => exact absurd hu.children_eq_nil hne
    | succ k => exact ⟨k, rfl⟩
  exact not_rootCollapses hs' hu' (List.length_eq_zero_iff.mp (by omega)) hcollapses

/-- **The root collapses, or need not, exactly where its last item stays**: a repair of the
child on the path that takes the only item of the root leaves a root without items. -/
theorem rootCollapses_iff (hs : c.Stored F (some t)) (hw : WellFormed (some t))
    (hroot : t.children = [] ∨ t.items ≠ []) (hkey : valueAt (some t) key ≠ none) :
    (RemoveSafe (Capacity.page c.dal.options.pageSize) c.dal.options key t ∧
      ¬LosesLastItem c.dal.options key t → RemoveCollapses c key t) ∧
    (RemoveSafe (Capacity.page c.dal.options.pageSize) c.dal.options key t →
      LosesLastItem c.dal.options key t → ¬RemoveCollapses c key t) := by
  obtain ⟨⟨h, hu⟩, hsorted⟩ := wellFormed_some.mp hw
  obtain ⟨x, hx, hpath⟩ := exists_path key hu.regular
  have hf : x.found = true := (found_iff hpath hsorted).mpr hkey
  constructor
  · rintro ⟨hsafe, hkept⟩
    obtain ⟨c', hrun, hs'⟩ := hs.remove_ok hu hx hpath hf hsafe
    obtain ⟨hu', htag, hrepaired, hsame⟩ := root_removeOutline hu hx hpath hf hsafe hroot
    refine ⟨c', hrun, rootCollapses_of_fit hs' htag hu hu' (by_contra fun hnot => hkept ?_)⟩
    rw [not_or] at hnot
    obtain ⟨hinner', hnil⟩ := hnot
    have hne : t.children ≠ [] := fun hnil => by
      obtain rfl : h = 0 := hu.zero_of_children hnil
      exact hinner' hu'.children_eq_nil
    have hzero := congrArg List.length (not_not.mp hnil)
    rw [List.length_nil] at hzero
    have hitems := List.length_pos_iff.mpr (hroot.resolve_left hne)
    by_cases hrep : RootChildRepaired c.dal.options key t
    · obtain ⟨-, hlen⟩ := hrepaired hrep
      exact ⟨by omega, hrep⟩
    · have hlen := hsame hrep hne
      omega
  · exact fun hsafe hloses => not_removeCollapses hs hw hroot hkey hsafe hloses

end Root

/-! ## Leaves under a root -/

/-- Three leaves with an item each. -/
def threeLeaves : PTree :=
  .node 3 [⟨[5], []⟩, ⟨[8], []⟩]
    [.node 4 [⟨[1], []⟩] [], .node 5 [⟨[6], []⟩] [], .node 6 [⟨[9], []⟩] []]

/-- The repair of the first leaf takes one of two items of the root. -/
theorem rootCollapses_iff_three : ∃ c : Collection File, c.Stored {q | q ≤ 2} (some threeLeaves) ∧
    RootChildRepaired c.dal.options [1] threeLeaves ∧ RemoveCollapses c [1] threeLeaves := by
  obtain ⟨c, ho, -, hs⟩ := exists_stored (o := BuiltinOptions.balance) 6 (by decide)
    (by decide) threeLeaves (by decide) (by decide) (by decide) (by decide +kernel)
  refine ⟨c, hs, ⟨_, rfl, _, _, _, rfl, ?_⟩, (rootCollapses_iff hs
    (wellFormed_of_uniform 1 (by decide) (by decide)) (.inr (by simp [threeLeaves])) (by decide)).1
    ⟨?_, fun hloses => ?_⟩⟩
  · rw [ho]
    decide +kernel
  · rw [ho]
    decide +kernel
  · exact absurd hloses.1 (by decide)

/-- **The root has no items, and stays the root**: the leaf on page 4 loses its only item, and its
repair the item of the root. -/
theorem emptyRoot_stays :
    ¬∀ (c : Collection File) (F : Set Nat) (t : PTree) (key : Bytes), c.Stored F (some t) →
      WellFormed (some t) → t.children = [] ∨ t.items ≠ [] → valueAt (some t) key ≠ none →
      RemoveCollapses c key t := by
  intro h
  obtain ⟨c, ho, -, hs⟩ := exists_stored (o := BuiltinOptions.balance) 5 (by decide)
    (by decide) (pairOf [⟨[1], []⟩] [⟨[9], []⟩]) (by decide) (by decide) (by decide)
    (by decide +kernel)
  have hw : WellFormed (some (pairOf [⟨[1], []⟩] [⟨[9], []⟩])) := wellFormed_pairOf (by decide)
  have hroot : (pairOf [⟨[1], []⟩] [⟨[9], []⟩]).items ≠ [] := by simp [pairOf]
  have hkey : valueAt (some (pairOf [⟨[1], []⟩] [⟨[9], []⟩])) [1] ≠ none := by decide
  refine not_removeCollapses hs hw (.inr hroot) hkey ?_ ⟨rfl, _, rfl, _, _, _, rfl, ?_⟩
    (h c _ _ [1] hs hw (.inr hroot) hkey)
  · rw [ho]
    decide +kernel
  · rw [ho]
    decide +kernel

end Toocal
