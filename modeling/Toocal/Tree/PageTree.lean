import Mathlib.Data.List.Nodup
import Mathlib.Data.List.Perm.Subperm
import Toocal.Store.Shelf

/-!
# Trees on pages

A `PTree` is a multiway tree of items whose tags are page numbers; `nodeOf` is its
root as a `Node`.  `Dal.Reads d t` says that `get_node` reads `t` off the pages.

`Owns d F t` is the invariant of one tree on a shelf: the pages hold `t`, no page
of `t` is used twice or released, and no page of `t` and no released page is one
of `F`, the pages that belong to others.  `Keeps F d d'` says that a run from `d`
to `d'` left `F` alone.  The two fit together as in separation logic:
`Owns.zoom` turns the path above a subtree into pages of others, and
`Owns.unzoom` puts the path back around whatever the subtree has become.
-/

namespace Toocal

open Outcomes Multiway Multiway.Tree

abbrev PTree := Tree Nat Item

/-- A tree without its page numbers. -/
abbrev Outline := Tree Unit Item

/-- The node at the root of a tree. -/
def nodeOf (t : PTree) : Node := ⟨t.tag, t.items, t.children.map Tree.tag⟩

@[simp] theorem pageNum_nodeOf (t : PTree) : (nodeOf t).pageNum = t.tag := rfl
@[simp] theorem items_nodeOf (t : PTree) : (nodeOf t).items = t.items := rfl
@[simp] theorem children_nodeOf (t : PTree) : (nodeOf t).children = t.children.map Tree.tag := rfl

theorem nodeOf_subset (t : PTree) : (nodeOf t).pageNum :: (nodeOf t).children ⊆ t.tags := by
  refine List.cons_subset.mpr ⟨tag_mem_tags t, fun p hp => ?_⟩
  obtain ⟨c, hc, rfl⟩ := List.mem_map.mp hp
  exact tags_child hc (tag_mem_tags c)

theorem counted_nodeOf {h : Nat} {t : PTree} (hj : Jointed h t) :
    Counted (nodeOf t).items.length (nodeOf t).children.length := by
  rw [children_nodeOf, List.length_map]
  cases h with
  | zero => exact Or.inl (by rw [hj.children_eq_nil]; rfl)
  | succ h => exact Or.inr hj.length_children

theorem isLeaf_nodeOf (t : PTree) : (nodeOf t).isLeaf = t.children.isEmpty := by
  simp [Node.isLeaf]

/-- `get_node` reads the tree `t` off the pages. -/
def Dal.Reads {φ : Type} [PageStore φ] (d : Dal φ) (t : PTree) : Prop :=
  ∀ u ∈ t.subtrees, Dal.getNode u.tag d = .ok (nodeOf u) d

theorem Dal.Reads.child {φ : Type} [PageStore φ] {d : Dal φ} {t c : PTree} (h : d.Reads t)
    (hc : c ∈ t.children) : d.Reads c := fun u hu => h u (subtrees_child hc hu)

theorem Dal.Reads.of_mem {φ : Type} [PageStore φ] {d : Dal φ} {t u : PTree} (h : d.Reads t)
    (hu : u ∈ t.subtrees) : d.Reads u := fun v hv => h v (subtrees_subset hu hv)

theorem eq_of_map_tag {cs cs' : List PTree} (htags : cs.map Tree.tag = cs'.map Tree.tag)
    (hc : ∀ c ∈ cs, ∀ c' ∈ cs', c.tag = c'.tag → c = c') : cs = cs' := by
  induction cs generalizing cs' with
  | nil => exact (List.map_eq_nil_iff.mp htags.symm).symm
  | cons c cs ih =>
    cases cs' with
    | nil => cases htags
    | cons c' cs' =>
      obtain ⟨htag, htags⟩ := List.cons.inj htags
      rw [hc c List.mem_cons_self c' List.mem_cons_self htag,
        ih htags fun x hx y hy => hc x (List.mem_cons_of_mem c hx) y (List.mem_cons_of_mem c' hy)]

theorem Dal.Reads.unique {φ : Type} [PageStore φ] {d : Dal φ} {t u : PTree} (ht : d.Reads t)
    (hu : d.Reads u) (htag : t.tag = u.tag) : t = u := by
  induction t using Tree.ind generalizing u with
  | h p its cs ih =>
    obtain ⟨q, its', cs'⟩ := u
    obtain rfl : p = q := htag
    have h1 := ht _ (mem_subtrees_self _)
    have h2 := hu _ (mem_subtrees_self _)
    rw [tag_node] at h1 h2
    rw [h1] at h2
    simp only [Outcome.ok.injEq, and_true, nodeOf, Node.mk.injEq, tag_node, items_node,
      children_node, true_and] at h2
    obtain ⟨rfl, htags⟩ := h2
    rw [eq_of_map_tag htags fun c hc c' hc' => ih c hc (ht.child hc) (hu.child hc')]

theorem Dal.Reads.children_eq {φ : Type} [PageStore φ] {d : Dal φ} {t u : PTree} (ht : d.Reads t)
    (hu : d.Reads u) (h : (nodeOf t).children = (nodeOf u).children) : t.children = u.children :=
  eq_of_map_tag h fun _ hc _ hc' => (ht.child hc).unique (hu.child hc')

/-! ## Who owns which page -/

/-- The pages `ps` in use, the released pages and the pages `F` of others are kept
apart, and the freelist counts past all of them. -/
structure Layout (fl : Freelist) (F : Set Nat) (ps : List Nat) : Prop where
  nodup : (ps ++ fl.releasedPages).Nodup
  le_max : ∀ p ∈ ps ++ fl.releasedPages, p ≤ fl.maxPage
  outside : ∀ p ∈ ps ++ fl.releasedPages, p ∉ F
  frame_le : ∀ p ∈ F, p ≤ fl.maxPage
  zero : 0 ∈ F

namespace Layout

variable {fl : Freelist} {F : Set Nat} {ps qs : List Nat}

theorem ne_zero (h : Layout fl F ps) {p : Nat} (hp : p ∈ ps) : p ≠ 0 := fun h0 =>
  h.outside p (List.mem_append_left _ hp) (h0 ▸ h.zero)

/-- Fewer pages in use: the rest is lost, but to nobody's harm. -/
theorem subperm (h : Layout fl F ps) (hs : qs.Subperm ps) : Layout fl F qs where
  nodup := by
    obtain ⟨l, hl, hsub⟩ := hs
    exact ((hl.append_right _).nodup_iff).mp (h.nodup.sublist (hsub.append_right _))
  le_max p hp := h.le_max p (by
    rcases List.mem_append.mp hp with hp | hp
    · exact List.mem_append_left _ (hs.subset hp)
    · exact List.mem_append_right _ hp)
  outside p hp := h.outside p (by
    rcases List.mem_append.mp hp with hp | hp
    · exact List.mem_append_left _ (hs.subset hp)
    · exact List.mem_append_right _ hp)
  frame_le := h.frame_le
  zero := h.zero

theorem perm (h : Layout fl F ps) (hp : qs.Perm ps) : Layout fl F qs := h.subperm hp.subperm

/-- **`get_next_page` hands out a page that nobody has.** -/
theorem nextPage (h : Layout fl F ps) :
    Layout fl.getNextPage.2 F (fl.getNextPage.1 :: ps) := by
  rcases fl.getNextPage_cases with ⟨back, rest, hrel, he⟩ | ⟨-, he⟩
  · have hperm : (back :: ps ++ rest).Perm (ps ++ fl.releasedPages) := by
      rw [hrel, ← List.append_assoc]
      exact (List.perm_append_singleton _ _).symm
    rw [he]
    exact ⟨hperm.nodup_iff.mpr h.nodup, fun p hp => h.le_max p (hperm.mem_iff.mp hp),
      fun p hp => h.outside p (hperm.mem_iff.mp hp), h.frame_le, h.zero⟩
  · rw [he]
    refine ⟨?_, ?_, ?_, fun p hp => Nat.le_succ_of_le (h.frame_le p hp), h.zero⟩
    · refine List.nodup_cons.mpr ⟨fun hm => ?_, h.nodup⟩
      have := h.le_max _ hm
      omega
    · intro p hp
      rcases List.mem_cons.mp hp with rfl | hp
      · exact Nat.le_refl _
      · exact Nat.le_succ_of_le (h.le_max p hp)
    · intro p hp hF
      rcases List.mem_cons.mp hp with rfl | hp
      · have := h.frame_le _ hF
        omega
      · exact h.outside p hp hF

theorem release {p : Nat} (h : Layout fl F (p :: ps)) : Layout (fl.releasePage p) F ps := by
  have hperm : (ps ++ (fl.releasedPages ++ [p])).Perm (p :: ps ++ fl.releasedPages) := by
    rw [← List.append_assoc]
    exact List.perm_append_singleton _ _
  exact ⟨hperm.nodup_iff.mpr h.nodup, fun q hq => h.le_max q (hperm.mem_iff.mp hq),
    fun q hq => h.outside q (hperm.mem_iff.mp hq), h.frame_le, h.zero⟩

theorem zoom (h : Layout fl F (ps ++ qs)) : Layout fl (F ∪ {p | p ∈ ps}) qs where
  nodup := by
    have := h.nodup
    rw [List.append_assoc] at this
    exact this.of_append_right
  le_max p hp := h.le_max p (by rw [List.append_assoc]; exact List.mem_append_right _ hp)
  outside p hp := by
    have hnd := h.nodup
    rw [List.append_assoc] at hnd
    rintro (hF | hps)
    · exact h.outside p (by rw [List.append_assoc]; exact List.mem_append_right _ hp) hF
    · exact List.disjoint_of_nodup_append hnd hps hp
  frame_le p hp := by
    rcases hp with hF | hps
    · exact h.frame_le p hF
    · exact h.le_max p (List.mem_append_left _ (List.mem_append_left _ hps))
  zero := Or.inl h.zero

theorem unzoom {fl' : Freelist} {qs' : List Nat} (h : Layout fl F (ps ++ qs))
    (h' : Layout fl' (F ∪ {p | p ∈ ps}) qs') : Layout fl' F (ps ++ qs') where
  nodup := by
    rw [List.append_assoc]
    refine List.Nodup.append ?_ h'.nodup fun p hp hq => h'.outside p hq (Or.inr hp)
    have := h.nodup
    rw [List.append_assoc] at this
    exact this.of_append_left
  le_max p hp := by
    rw [List.append_assoc] at hp
    rcases List.mem_append.mp hp with hp | hp
    · exact h'.frame_le p (Or.inr hp)
    · exact h'.le_max p hp
  outside p hp := by
    rw [List.append_assoc] at hp
    rcases List.mem_append.mp hp with hp | hp
    · exact h.outside p (List.mem_append_left _ (List.mem_append_left _ hp))
    · exact fun hF => h'.outside p hp (Or.inl hF)
  frame_le p hp := h'.frame_le p (Or.inl hp)
  zero := h.zero

end Layout

/-- What of a `Layout` is about the pages in use alone. -/
structure Places (F : Set Nat) (ps : List Nat) : Prop where
  nodup : ps.Nodup
  outside : ∀ p ∈ ps, p ∉ F
  zero : 0 ∈ F

theorem Layout.places {fl : Freelist} {F : Set Nat} {ps : List Nat} (h : Layout fl F ps) :
    Places F ps :=
  ⟨h.nodup.of_append_left, fun p hp => h.outside p (List.mem_append_left _ hp), h.zero⟩

theorem Places.ne_zero {F : Set Nat} {ps : List Nat} (h : Places F ps) {p : Nat} (hp : p ∈ ps) :
    p ≠ 0 := fun h0 => h.outside p hp (h0 ▸ h.zero)

theorem Places.perm {F : Set Nat} {ps qs : List Nat} (h : Places F ps) (hp : qs.Perm ps) :
    Places F qs :=
  ⟨hp.nodup_iff.mpr h.nodup, fun p hq => h.outside p (hp.mem_iff.mp hq), h.zero⟩

theorem Freelist.maxPage_getNextPage (fl : Freelist) :
    fl.maxPage ≤ fl.getNextPage.2.maxPage ∧ fl.getNextPage.2.maxPage ≤ fl.maxPage + 1 := by
  unfold Freelist.getNextPage
  split <;> simp

/-- Every page number that has been counted is that of a page in `ps` or of a released one. -/
def Accounted (fl : Freelist) (ps : List Nat) : Prop :=
  ∀ p ≤ fl.maxPage, p ∈ ps ∨ p ∈ fl.releasedPages

/-- No page is lost on the way from `ps` to `ps'`, whatever other pages are in use. -/
structure Allots (fl fl' : Freelist) (ps ps' : List Nat) : Prop where
  maxPage_le : fl.maxPage ≤ fl'.maxPage
  accounted : ∀ qs, Accounted fl (qs ++ ps) → Accounted fl' (qs ++ ps')

namespace Allots

variable {fl fl' fl'' : Freelist} {ps ps' ps'' : List Nat}

theorem of_subset (h : ps ⊆ ps') : Allots fl fl ps ps' where
  maxPage_le := Nat.le_refl _
  accounted _ ha p hp := (ha p hp).imp_left fun hm => List.append_subset.mpr
    ⟨List.subset_append_left _ _, List.Subset.trans h (List.subset_append_right _ _)⟩ hm

theorem refl (fl : Freelist) (ps : List Nat) : Allots fl fl ps ps := ⟨Nat.le_refl _, fun _ h => h⟩

theorem trans (h : Allots fl fl' ps ps') (h' : Allots fl' fl'' ps' ps'') :
    Allots fl fl'' ps ps'' :=
  ⟨Nat.le_trans h.maxPage_le h'.maxPage_le, fun qs ha => h'.accounted qs (h.accounted qs ha)⟩

theorem append (h : Allots fl fl' ps ps') (qs : List Nat) : Allots fl fl' (qs ++ ps) (qs ++ ps') :=
  ⟨h.maxPage_le, fun rs ha => by
    rw [← List.append_assoc] at ha ⊢
    exact h.accounted (rs ++ qs) ha⟩

theorem nextPage (fl : Freelist) (ps : List Nat) :
    Allots fl fl.getNextPage.2 ps (fl.getNextPage.1 :: ps) := by
  refine ⟨fl.maxPage_getNextPage.1, fun qs ha p hp => ?_⟩
  have hmem : p ∈ qs ++ ps → p ∈ qs ++ fl.getNextPage.1 :: ps := fun hm =>
    (List.mem_append.mp hm).elim (List.mem_append_left _) fun hm =>
      List.mem_append_right _ (List.mem_cons_of_mem _ hm)
  have hnew : p = fl.getNextPage.1 → p ∈ qs ++ fl.getNextPage.1 :: ps := fun he =>
    List.mem_append_right _ (he ▸ List.mem_cons_self)
  rcases fl.getNextPage_cases with ⟨back, rest, hrel, he⟩ | ⟨-, he⟩
  · rw [he] at hp hmem hnew ⊢
    rcases ha p hp with hm | hm
    · exact .inl (hmem hm)
    · rw [hrel, List.mem_append, List.mem_singleton] at hm
      rcases hm with hm | rfl
      · exact .inr hm
      · exact .inl (hnew rfl)
  · rw [he] at hp hmem hnew ⊢
    rcases Nat.lt_or_ge fl.maxPage p with hlt | hle
    · simp only at hp
      exact .inl (hnew (by omega))
    · exact (ha p hle).imp_left hmem

theorem release (fl : Freelist) (p : Nat) (ps : List Nat) :
    Allots fl (fl.releasePage p) (p :: ps) ps := by
  refine ⟨Nat.le_refl _, fun qs ha q hq => ?_⟩
  rcases ha q hq with hm | hm
  · rcases List.mem_append.mp hm with hm | hm
    · exact .inl (List.mem_append_left _ hm)
    · rcases List.mem_cons.mp hm with rfl | hm
      · exact .inr (List.mem_append_right _ List.mem_cons_self)
      · exact .inl (List.mem_append_right _ hm)
  · exact .inr (List.mem_append_left _ hm)

/-- **In one node of a path.** -/
theorem plug {f : Frame Nat Item} {t t' : PTree} (h : Allots fl fl' t.tags t'.tags) :
    Allots fl fl' (f.plug t).tags (f.plug t').tags :=
  (of_subset (f.tags_plug t).subset).trans
    ((h.append f.tags).trans (of_subset (f.tags_plug t').symm.subset))

end Allots

namespace Dal

variable {cap : Capacity} {d d' d'' : Dal (Shelf cap)} {F G : Set Nat}

/-! ## What the pages hold -/

/-- The pages hold the tree `t`. -/
def Holds (d : Dal (Shelf cap)) (t : PTree) : Prop :=
  ∀ u ∈ t.subtrees, d.at? u.tag = some (u.items, u.children.map Tree.tag)

instance (d : Dal (Shelf cap)) (t : PTree) : Decidable (d.Holds t) :=
  inferInstanceAs (Decidable (∀ u ∈ t.subtrees, _))

theorem reads_iff_holds {t : PTree} : d.Reads t ↔ d.Holds t := by
  constructor
  · intro h u hu
    exact (at?_of_getNode (h u hu)).1
  · intro h u hu
    rw [getNode_ok (h u hu)]; rfl

theorem holds_node {p : Nat} {its : List Item} {cs : List PTree} :
    d.Holds (.node p its cs) ↔
      d.at? p = some (its, cs.map Tree.tag) ∧ ∀ c ∈ cs, d.Holds c := by
  unfold Holds
  rw [subtrees_node]
  constructor
  · intro h
    exact ⟨h _ List.mem_cons_self,
      fun c hc u hu => h u (List.mem_cons_of_mem _ (List.mem_flatMap.mpr ⟨c, hc, hu⟩))⟩
  · rintro ⟨h1, h2⟩ u hu
    rcases List.mem_cons.mp hu with rfl | hu
    · exact h1
    · obtain ⟨c, hc, hu⟩ := List.mem_flatMap.mp hu
      exact h2 c hc u hu

theorem holds_iff {t : PTree} :
    d.Holds t ↔ d.at? t.tag = some (t.items, t.children.map Tree.tag) ∧
      ∀ c ∈ t.children, d.Holds c := by
  cases t; exact holds_node

theorem Holds.root {t : PTree} (h : d.Holds t) :
    d.at? t.tag = some (t.items, t.children.map Tree.tag) := (holds_iff.mp h).1

theorem Holds.child {t c : PTree} (h : d.Holds t) (hc : c ∈ t.children) : d.Holds c :=
  (holds_iff.mp h).2 c hc

theorem Holds.congr {t : PTree} (h : d.Holds t) (heq : ∀ p ∈ t.tags, d'.at? p = d.at? p) :
    d'.Holds t := by
  intro u hu
  rw [heq u.tag (List.mem_map_of_mem hu)]
  exact h u hu

theorem Holds.store {t : PTree} {n : Node} {hfit} (h : d.Holds t) (hn : n.pageNum ∉ t.tags) :
    (d.store n hfit).Holds t :=
  h.congr fun _ hp => at?_store_ne fun he => hn (he ▸ hp)

theorem Holds.getNode {t : PTree} (h : d.Holds t) : Dal.getNode t.tag d = .ok (nodeOf t) d := by
  rw [getNode_ok h.root]; rfl

/-- The tag at the top of a plugged path. -/
def topTag : List (Frame Nat Item) → Nat → Nat
  | [], q => q
  | f :: _, _ => f.tag

/-- The children of a frame's node when the child in the hole has page `q`. -/
def childTags (f : Frame Nat Item) (q : Nat) : List Nat :=
  (f.left.map fun x => x.1.tag).reverse ++ q :: f.right.map fun x => x.2.tag

theorem map_tag_children_plug (f : Frame Nat Item) (t : PTree) :
    (f.plug t).children.map Tree.tag = childTags f t.tag := by
  simp [childTags, Function.comp_def]

theorem tag_plugAll (fs : List (Frame Nat Item)) (t : PTree) :
    (plugAll fs t).tag = topTag fs t.tag := by cases fs <;> rfl

/-- The pages hold a path of frames whose hole is page `q`, with all siblings. -/
def HoldsPath (d : Dal (Shelf cap)) : List (Frame Nat Item) → Nat → Prop
  | [], _ => True
  | f :: fs, q => d.at? f.tag = some (f.items, childTags f (topTag fs q)) ∧
      (∀ c ∈ f.siblings, d.Holds c) ∧ HoldsPath d fs q

theorem holds_plug {f : Frame Nat Item} {t : PTree} :
    d.Holds (f.plug t) ↔ d.at? f.tag = some (f.items, childTags f t.tag) ∧
      (∀ c ∈ f.siblings, d.Holds c) ∧ d.Holds t := by
  rw [holds_iff, map_tag_children_plug, Frame.tag_plug, Frame.items_plug, Frame.children_plug,
    Frame.siblings]
  simp only [List.mem_append, List.mem_reverse, List.mem_cons]
  constructor
  · rintro ⟨h1, h2⟩
    exact ⟨h1, fun c hc => h2 c (by tauto), h2 t (by tauto)⟩
  · rintro ⟨h1, h2, h3⟩
    refine ⟨h1, fun c hc => ?_⟩
    rcases hc with hc | rfl | hc
    · exact h2 c (Or.inl hc)
    · exact h3
    · exact h2 c (Or.inr hc)

theorem holds_plugAll {fs : List (Frame Nat Item)} {t : PTree} :
    d.Holds (plugAll fs t) ↔ HoldsPath d fs t.tag ∧ d.Holds t := by
  induction fs with
  | nil => simp [HoldsPath]
  | cons f fs ih =>
    rw [plugAll_cons, holds_plug, ih, HoldsPath, tag_plugAll]
    tauto

theorem HoldsPath.congr {fs : List (Frame Nat Item)} {q : Nat} (h : HoldsPath d fs q)
    (heq : ∀ p ∈ pathTags fs, d'.at? p = d.at? p) : HoldsPath d' fs q := by
  induction fs with
  | nil => trivial
  | cons f fs ih =>
    obtain ⟨h1, h2, h3⟩ := h
    rw [pathTags, List.flatMap_cons] at heq
    refine ⟨?_, fun c hc => (h2 c hc).congr fun p hp => heq p ?_, ih h3 fun p hp => heq p ?_⟩
    · rw [heq f.tag (List.mem_append_left _ (by simp [Frame.tags]))]; exact h1
    · refine List.mem_append_left _ (List.mem_cons_of_mem _ (List.mem_flatMap.mpr ⟨c, hc, hp⟩))
    · exact List.mem_append_right _ hp

/-! ## Runs that leave pages alone -/

/-- The run from `d` to `d'` neither changed nor wrote a page of `F`. -/
structure Keeps (F : Set Nat) (d d' : Dal (Shelf cap)) : Prop where
  options : d'.options = d.options
  metaPage : d'.metaPage = d.metaPage
  at? : ∀ p ∈ F, d'.at? p = d.at? p
  written : ∃ w, d'.written = w ++ d.written ∧ ∀ p ∈ w, p ∉ F

theorem Keeps.refl (F : Set Nat) (d : Dal (Shelf cap)) : Keeps F d d :=
  ⟨rfl, rfl, fun _ _ => rfl, [], rfl, by simp⟩

theorem Keeps.trans (h : Keeps F d d') (h' : Keeps F d' d'') : Keeps F d d'' := by
  obtain ⟨w, hw, hwF⟩ := h.written
  obtain ⟨w', hw', hwF'⟩ := h'.written
  refine ⟨h'.options.trans h.options, h'.metaPage.trans h.metaPage,
    fun p hp => (h'.at? p hp).trans (h.at? p hp), w' ++ w, by rw [hw', hw, List.append_assoc], ?_⟩
  intro p hp
  rcases List.mem_append.mp hp with hp | hp
  · exact hwF' p hp
  · exact hwF p hp

theorem Keeps.mono (h : Keeps G d d') (hFG : F ⊆ G) : Keeps F d d' := by
  obtain ⟨w, hw, hwG⟩ := h.written
  exact ⟨h.options, h.metaPage, fun p hp => h.at? p (hFG hp), w, hw,
    fun p hp hF => hwG p hp (hFG hF)⟩

theorem Keeps.store {n : Node} (hn : n.pageNum ∉ F) (hfit) : Keeps F d (d.store n hfit) := by
  refine ⟨rfl, rfl, fun p hp => at?_store_ne fun h => hn (h ▸ hp), [n.pageNum], rfl, ?_⟩
  intro p hp
  rw [List.mem_singleton.mp hp]
  exact hn

theorem Keeps.setFreelist (fl : Freelist) : Keeps F d { d with freelist := fl } :=
  ⟨rfl, rfl, fun _ _ => rfl, [], rfl, by simp⟩

theorem Keeps.holds {t : PTree} (hk : Keeps F d d') (h : d.Holds t) (hF : ∀ p ∈ t.tags, p ∈ F) :
    d'.Holds t := h.congr fun p hp => hk.at? p (hF p hp)

/-! ## Owning a tree -/

/-- The pages hold `t`, and its pages are kept apart from the released pages and
from the pages `F` of others. -/
structure Owns (d : Dal (Shelf cap)) (F : Set Nat) (t : PTree) : Prop where
  holds : d.Holds t
  layout : Layout d.freelist F t.tags

theorem Owns.zoom {fs : List (Frame Nat Item)} {t : PTree} (h : d.Owns F (plugAll fs t)) :
    d.Owns (F ∪ {p | p ∈ pathTags fs}) t :=
  ⟨(holds_plugAll.mp h.holds).2, (h.layout.perm (tags_plugAll fs t).symm).zoom⟩

/-- **The frame rule.**  Whatever has become of the subtree in the hole, it stands
under the old path again, if it kept its page and the path was left alone. -/
theorem Owns.unzoom {fs : List (Frame Nat Item)} {t t' : PTree} (h : d.Owns F (plugAll fs t))
    (hk : Keeps (F ∪ {p | p ∈ pathTags fs}) d d')
    (h' : d'.Owns (F ∪ {p | p ∈ pathTags fs}) t') (htag : t'.tag = t.tag) :
    d'.Owns F (plugAll fs t') := by
  refine ⟨holds_plugAll.mpr ⟨?_, h'.holds⟩, ?_⟩
  · rw [htag]
    exact (holds_plugAll.mp h.holds).1.congr fun p hp => hk.at? p (Or.inr hp)
  · exact ((h.layout.perm (tags_plugAll fs t).symm).unzoom h'.layout).perm (tags_plugAll fs t')

theorem Owns.tag_ne_zero {t : PTree} (h : d.Owns F t) : t.tag ≠ 0 :=
  h.layout.ne_zero (tag_mem_tags t)

theorem Owns.tags_notMem {t : PTree} (h : d.Owns F t) {p : Nat} (hp : p ∈ t.tags) : p ∉ F :=
  h.layout.outside p (List.mem_append_left _ hp)

theorem Owns.nodup {t : PTree} (h : d.Owns F t) : t.tags.Nodup := h.layout.nodup.of_append_left

theorem Owns.length_tags_lt {t : PTree} (h : d.Owns F t) : t.tags.length < d.fuel := by
  have hsub : t.tags ⊆ List.range d.file.pages.length := by
    intro p hp
    obtain ⟨u, hu, rfl⟩ := List.mem_map.mp hp
    exact List.mem_range.mpr (Shelf.lt_of_lookup (h.holds u hu))
  have := (List.subperm_of_subset h.nodup hsub).length_le
  rw [List.length_range] at this
  rw [fuel_eq]
  omega

end Dal

end Toocal
