import Toocal.Library.Multiway

/-!
# What holds of every node

`Each P t` says `P` of the items of every node of `t`, and `Below P t` of every node but
the root.  Along a path both come apart into the nodes of the path, what stands beside
them, and the tree in the hole: `each_plugAll`, `below_plugAll`.

`Frame.around` is what stands on the two sides of a hole.  It says how many items the node
has, but not which.
-/

namespace Multiway

variable {π α : Type} {P : List α → Prop}

namespace Tree

def Each (P : List α → Prop) (t : Tree π α) : Prop := ∀ u ∈ t.subtrees, P u.items

def Below (P : List α → Prop) (t : Tree π α) : Prop := ∀ c ∈ t.children, c.Each P

instance [DecidablePred P] (t : Tree π α) : Decidable (t.Each P) :=
  inferInstanceAs (Decidable (∀ u ∈ t.subtrees, P u.items))

instance [DecidablePred P] (t : Tree π α) : Decidable (t.Below P) :=
  inferInstanceAs (Decidable (∀ c ∈ t.children, c.Each P))

theorem each_node {p : π} {its : List α} {cs : List (Tree π α)} :
    (node p its cs).Each P ↔ P its ∧ ∀ c ∈ cs, c.Each P := by
  simp only [Each, subtrees_node, List.mem_cons, List.mem_flatMap, forall_eq_or_imp, items_node]
  exact and_congr_right fun _ => ⟨fun h c hc u hu => h u ⟨c, hc, hu⟩,
    fun h u ⟨c, hc, hu⟩ => h c hc u hu⟩

theorem each_iff {t : Tree π α} : t.Each P ↔ P t.items ∧ t.Below P := by
  cases t
  exact each_node

theorem Each.below {t : Tree π α} (h : t.Each P) : t.Below P := (each_iff.mp h).2

theorem below_leaf {t : Tree π α} (h : t.children = []) : t.Below P := fun c hc => by
  rw [h] at hc
  cases hc

theorem each_leaf {t : Tree π α} (h : t.children = []) : t.Each P ↔ P t.items :=
  each_iff.trans (and_iff_left (below_leaf h))

theorem each_forall_iff {Q : α → Prop} {t : Tree π α} :
    (t.Each fun its => ∀ a ∈ its, Q a) ↔ ∀ a ∈ t.inorder, Q a := by
  induction t using Tree.ind with
  | h p its cs ih =>
    rw [each_node]
    constructor
    · rintro ⟨hits, hcs⟩ a ha
      rcases mem_inorder_iff.mp ha with ha | ⟨c, hc, ha⟩
      · exact hits a ha
      · exact (ih c hc).mp (hcs c hc) a ha
    · exact fun h => ⟨fun a ha => h a (mem_inorder_iff.mpr (.inl ha)), fun c hc =>
        (ih c hc).mpr fun a ha => h a (mem_inorder_iff.mpr (.inr ⟨c, hc, ha⟩))⟩

theorem each_erase {t : Tree π α} : t.erase.Each P ↔ t.Each P := by
  induction t using Tree.ind with
  | h p its cs ih =>
    rw [erase_node, each_node, each_node]
    refine and_congr_right fun _ => ?_
    rw [List.forall_mem_map]
    exact forall₂_congr ih

end Tree

open Multiway.Tree

namespace Frame

variable {f : Frame π α} {t : Tree π α}

/-- What stands on the two sides of the hole, the nearest tree first. -/
def around (f : Frame π α) : List (Tree π α) × List (Tree π α) :=
  (f.left.map Prod.fst, f.right.map Prod.snd)

theorem siblings_eq_around : f.siblings = f.around.1 ++ f.around.2 := rfl

theorem length_around : f.around.1.length + f.around.2.length = f.items.length := by
  rw [length_items, around, List.length_map, List.length_map]

theorem around_eq_nil : f.around = ([], []) ↔ f.items = [] := by
  simp [around, items, Prod.ext_iff]

theorem around_ofNode {p : π} {its : List α} {cs : List (Tree π α)} {i : Nat}
    (hl : cs.length = its.length + 1) (hi : i ≤ its.length) :
    (ofNode p its cs i).around = ((cs.take i).reverse, cs.drop (i + 1)) := by
  rw [around, ofNode, List.map_reverse, List.map_fst_zip, List.map_snd_zip]
  · rw [List.length_drop, List.length_drop]
    omega
  · rw [List.length_take, List.length_take]
    omega

theorem below_plug : (f.plug t).Below P ↔ (∀ c ∈ f.siblings, c.Each P) ∧ t.Each P := by
  simp only [Below, children_plug, siblings, List.mem_append, List.mem_reverse, List.mem_cons]
  constructor
  · exact fun h => ⟨fun c hc => h c (hc.imp_right .inr), h t (.inr (.inl rfl))⟩
  · rintro ⟨hs, ht⟩ c (hc | rfl | hc)
    · exact hs c (.inl hc)
    · exact ht
    · exact hs c (.inr hc)

theorem each_plug : (f.plug t).Each P ↔ P f.items ∧ (∀ c ∈ f.siblings, c.Each P) ∧ t.Each P :=
  each_iff.trans (and_congr_right fun _ => below_plug)

end Frame

theorem each_plugAll {fs : List (Frame π α)} {t : Tree π α} : (plugAll fs t).Each P ↔
    (∀ f ∈ fs, P f.items ∧ ∀ c ∈ f.siblings, c.Each P) ∧ t.Each P := by
  induction fs with
  | nil => simp
  | cons f fs ih =>
    rw [plugAll_cons, Frame.each_plug, ih, List.forall_mem_cons]
    tauto

theorem below_plugAll {f : Frame π α} {fs : List (Frame π α)} {t : Tree π α} :
    (plugAll (f :: fs) t).Below P ↔ (∀ g ∈ fs, P g.items) ∧
      (∀ g ∈ f :: fs, ∀ c ∈ g.siblings, c.Each P) ∧ t.Each P := by
  rw [plugAll_cons, Frame.below_plug, each_plugAll, List.forall_mem_cons]
  constructor
  · exact fun ⟨hs, hfs, ht⟩ => ⟨fun g hg => (hfs g hg).1, ⟨hs, fun g hg => (hfs g hg).2⟩, ht⟩
  · exact fun ⟨hP, ⟨hs, hfs⟩, ht⟩ => ⟨hs, fun g hg => ⟨hP g hg, hfs g hg⟩, ht⟩

end Multiway
