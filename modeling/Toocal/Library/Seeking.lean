import Toocal.Library.Search

/-!
# What a search finds

`seek p t` is the item that the search for which the node search `p` stands ends at, if it
ends at one.  It depends on the nodes it passes only:

* `seek_plugAll`: what stands in the hole of a path may be exchanged for a tree in which the
  search finds the same.
* `seek_splitLeft`: from an item on that the search does not pass, a node may lose
  everything.  So a node that has been cut is searched like the node before the cut, as long
  as its parent leads nothing else to it.
-/

namespace Multiway

open Multiway.Tree

variable {π α κ : Type}

section Seek

variable (p : List α → Bool × Nat)

/-- The item a search ends at. -/
def seek (t : Tree π α) : Option α :=
  (locate p t).bind fun x => if x.found then x.focus.items[x.index]? else none

variable {p}

theorem seek_of_locate {t : Tree π α} {x : Path π α} (h : locate p t = some x) :
    seek p t = if x.found then x.focus.items[x.index]? else none := by
  rw [seek, h]
  rfl

theorem seek_node (q : π) (its : List α) (cs : List (Tree π α)) : seek p (.node q its cs) =
    if (p its).1 then its[(p its).2]? else cs[(p its).2]?.bind (seek p) := by
  rcases hp : p its with ⟨found, i⟩
  cases found with
  | true => rw [seek_of_locate (locate_hit hp)]; rfl
  | false =>
    rw [if_neg Bool.false_ne_true]
    cases cs with
    | nil => rw [seek_of_locate (locate_leaf hp)]; rfl
    | cons c cs =>
      rw [seek, locate, hp]
      show ((locateAt p i (c :: cs)).map _).bind _ = _
      rw [locateAt_eq]
      cases (c :: cs)[i]? with
      | none => rfl
      | some d =>
        show ((locate p d).map _).bind _ = (locate p d).bind _
        cases locate p d <;> rfl

theorem child_plug_of_ne {f : Frame π α} {i : Nat} (t u : Tree π α) (hi : i ≠ f.left.length) :
    (f.plug t).children[i]? = (f.plug u).children[i]? := by
  have hlen : (f.left.map Prod.fst).reverse.length = f.left.length := by simp
  rw [Frame.children_plug, Frame.children_plug]
  rcases Nat.lt_or_gt_of_ne hi with hi | hi
  · rw [List.getElem?_append_left (hlen ▸ hi), List.getElem?_append_left (hlen ▸ hi)]
  · rw [List.getElem?_append_right (by omega), List.getElem?_append_right (by omega)]
    obtain ⟨k, hk⟩ : ∃ k, i - (f.left.map Prod.fst).reverse.length = k + 1 :=
      ⟨i - (f.left.map Prod.fst).reverse.length - 1, by omega⟩
    rw [hk, List.getElem?_cons_succ, List.getElem?_cons_succ]

theorem seek_eq (t : Tree π α) : seek p t =
    if (p t.items).1 then t.items[(p t.items).2]?
      else t.children[(p t.items).2]?.bind (seek p) := by
  obtain ⟨q, its, cs⟩ := t
  exact seek_node q its cs

/-- **What the search finds in a hole is all it sees of it.** -/
theorem seek_plug (f : Frame π α) {t u : Tree π α} (h : seek p t = seek p u) :
    seek p (f.plug t) = seek p (f.plug u) := by
  rw [seek_eq (f.plug t), seek_eq (f.plug u), Frame.items_plug, Frame.items_plug]
  congr 1
  by_cases hi : (p f.items).2 = f.left.length
  · rw [hi, Frame.child_hole, Frame.child_hole]
    exact h
  · rw [child_plug_of_ne t u hi]

theorem seek_plugAll (fs : List (Frame π α)) {t u : Tree π α} (h : seek p t = seek p u) :
    seek p (plugAll fs t) = seek p (plugAll fs u) := by
  induction fs with
  | nil => exact h
  | cons f fs ih => exact seek_plug f ih

/-- The search stops at the item `m`, or before it. -/
def StopsAt (p : List α → Bool × Nat) (m : α) : Prop := ∀ l r, p (l ++ m :: r) = p l

/-- **A search that stops at an item sees nothing of a node from this item on.** -/
theorem seek_splitLeft {t : Tree π α} {m : α} {i : Nat} (hstop : StopsAt p m)
    (hm : t.items[i]? = some m) (hhit : ∀ its, (p its).1 = true → (p its).2 < its.length)
    (hle : ∀ its, (p its).2 ≤ its.length) : seek p (t.splitLeft i) = seek p t := by
  obtain ⟨q, its, cs⟩ := t
  rw [items_node] at hm
  obtain ⟨hi, hget⟩ := List.getElem?_eq_some_iff.mp hm
  have hlen : (its.take i).length = i := List.length_take_of_le (Nat.le_of_lt hi)
  have hsplit : its = its.take i ++ m :: its.drop (i + 1) := by
    rw [← hget, List.getElem_cons_drop, List.take_append_drop]
  have hsame : p its = p (its.take i) := by
    conv_lhs => rw [hsplit]
    exact hstop _ _
  have hbound := hle (its.take i)
  rw [hlen] at hbound
  rw [splitLeft, seek_node, seek_node, items_node, children_node, hsame]
  split
  next hfound =>
    have hlt := hhit _ hfound
    rw [hlen] at hlt
    exact List.getElem?_take_of_lt hlt
  next => rw [List.getElem?_take_of_lt (Nat.lt_succ_of_le hbound)]

/-- A node that has been cut may still stand in its place uncut, if the item after the hole
keeps the search away from what was cut off. -/
theorem seek_plug_splitLeft {f : Frame π α} {m : α} {r t : Tree π α} {i : Nat}
    (hstop : p (f.addRight m r).items = (false, f.left.length) → StopsAt p m)
    (hm : t.items[i]? = some m) (hhit : ∀ its, (p its).1 = true → (p its).2 < its.length)
    (hle : ∀ its, (p its).2 ≤ its.length) :
    seek p ((f.addRight m r).plug (t.splitLeft i)) = seek p ((f.addRight m r).plug t) := by
  set g := f.addRight m r with hg
  by_cases hdown : p g.items = (false, f.left.length)
  · exact seek_plug g (seek_splitLeft (hstop hdown) hm hhit hle)
  · -- the search does not come to the hole
    rw [seek_eq (g.plug _), seek_eq (g.plug t), Frame.items_plug, Frame.items_plug]
    cases hfound : (p g.items).1 with
    | true => rfl
    | false =>
      have hne : (p g.items).2 ≠ g.left.length := by
        rw [hg, Frame.left_addRight, ← hg]
        exact fun he => hdown (Prod.ext hfound he)
      rw [child_plug_of_ne _ t hne]

end Seek

end Multiway
