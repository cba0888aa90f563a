import Mathlib.Data.List.Pairwise
import Toocal.Tree.Shrinking
import Toocal.Tree.Put

/-!
# `rebalance_remove` on pages

On a shelf, `rebalanceRemove` does what `rebalance` says: `rebalanceRemove_ok`.  Its
stages are taken one by one: the right rotation (`rightRotateBlock_ok`), the left
rotation (`leftBalanceBlock_ok`), and the merge that is always reached (`merge_ok`).
-/

namespace Toocal

open Outcomes Multiway Multiway.Tree

/-! ## The lists of a frame's node -/

section Lists

variable {p q : Nat} {l r : PTree} {a b z : Item} {ls left : List (PTree × Item)}
  {rs right : List (Item × PTree)}

theorem items_at_left :
    (Frame.mk p ((l, a) :: ls) right).items[ls.length]? = some a := by
  simp [Frame.items]

theorem items_at_right :
    (Frame.mk p left ((b, r) :: rs)).items[left.length]? = some b := by
  simp [Frame.items]

theorem childTags_at_left :
    (Dal.childTags (Frame.mk p ((l, a) :: ls) right) q)[ls.length]? = some l.tag := by
  simp [Dal.childTags]

theorem childTags_at_right :
    (Dal.childTags (Frame.mk p left ((b, r) :: rs)) q)[left.length + 1]? = some r.tag := by
  simp [Dal.childTags]

theorem items_set_left : (Frame.mk p ((l, a) :: ls) right).items.set ls.length z =
    (Frame.mk p ((l, z) :: ls) right).items := by
  simp [Frame.items]

theorem items_set_right : (Frame.mk p left ((b, r) :: rs)).items.set left.length z =
    (Frame.mk p left ((z, r) :: rs)).items := by
  simp [Frame.items]

theorem items_erase_left : (Frame.mk p ((l, a) :: ls) right).items.eraseIdx ls.length =
    (Frame.mk p ls right).items := by
  simp [Frame.items, List.eraseIdx_append_of_length_le]

theorem childTags_erase_left :
    (Dal.childTags (Frame.mk p ((l, a) :: ls) right) q).eraseIdx (ls.length + 1) =
      Dal.childTags (Frame.mk p ls right) l.tag := by
  simp [Dal.childTags, List.eraseIdx_append_of_length_le]

theorem length_childTags (f : Frame Nat Item) (q : Nat) :
    (Dal.childTags f q).length = f.left.length + f.right.length + 1 := by
  simp [Dal.childTags]; omega

end Lists

namespace Dal

variable {cap : Capacity} {d d' : Dal (Shelf cap)} {F : Set Nat}

theorem Holds.names {t : PTree} (h : d.Holds t) :
    ∀ q ∈ t.tag :: t.children.map Tree.tag, cap.names q = true := (fits_of_at? h.root).2

theorem canSpare_length {o : Options} {its : List Item} (h : o.canSpareAnElement its = true) :
    2 ≤ its.length := by
  obtain ⟨i, hi⟩ := Option.isSome_iff_exists.mp h
  have := getSplitIndex_lt hi
  omega

theorem dropLast_append_getLast? {α : Type} (l : List α) : l.dropLast ++ l.getLast?.toList = l := by
  cases hl : l.getLast? with
  | none => rw [List.getLast?_eq_none_iff.mp hl]; rfl
  | some a =>
    obtain ⟨init, rfl⟩ := List.getLast?_eq_some_iff.mp hl
    simp

theorem writeThree_ok {n₁ n₂ n₃ : Node} (h₁ : n₁.pageNum ≠ 0) (h₂ : n₂.pageNum ≠ 0)
    (h₃ : n₃.pageNum ≠ 0) (hfit₁ : cap.Fits n₁) (hfit₂ : cap.Fits n₂) (hfit₃ : cap.Fits n₃) :
    Prog.attempt (do
      let _ ← writeNode n₁
      let _ ← writeNode n₂
      writeNode n₃) d = .ok (.ok n₃) (((d.store n₁ hfit₁).store n₂ hfit₂).store n₃ hfit₃) := by
  apply Prog.attempt_ok
  rw [Prog.bind_ok (writeNode_ok h₁ hfit₁), Prog.bind_ok (writeNode_ok h₂ hfit₂)]
  exact writeNode_ok h₃ hfit₃

/-! ## The right rotation -/

section RightRotation

variable {p : Nat} {l D : PTree} {a : Item} {ls : List (PTree × Item)}
  {right : List (Item × PTree)} {h : Nat}

/-- What the right rotation leaves: the node of the parent has the separator `s`, the
left neighbour holds `its` and `cs`, and put together they are what they were. -/
structure RightRotated (d d' : Dal (Shelf cap)) (l D : PTree) (a s : Item) (u : Node)
    (its : List Item) (cs : List Nat) : Prop where
  page : d'.at? l.tag = some (its, cs)
  pageNum : u.pageNum = D.tag
  items : its ++ s :: u.items = l.items ++ a :: D.items
  children : cs ++ u.children = l.children.map Tree.tag ++ D.children.map Tree.tag
  leaf : cs = [] → u.children = []
  counted : D.children ≠ [] → u.children.length = u.items.length + 1

/-! The two nodes after the last item `z` of the left neighbour has gone up and the separator
has come down. -/

def shiftedLeft (l : PTree) (init : List Item) : Node :=
  ⟨l.tag, init, (l.children.map Tree.tag).dropLast⟩

def shiftedRight (l D : PTree) (a : Item) : Node :=
  ⟨D.tag, a :: D.items, (l.children.map Tree.tag).getLast?.toList ++ D.children.map Tree.tag⟩

section Shifted

variable {init : List Item} {z : Item}

theorem fits_shiftedLeft (hl : d.Holds l) (hlu : Jointed h l) (hz : l.items = init ++ [z]) :
    cap.Fits (shiftedLeft l init) := by
  refine (fits_of_at? hl.root).sublist rfl ?_ (List.dropLast_sublist _) ?_
  · rw [hz]
    exact List.sublist_append_left _ _
  · have hcounted := counted_nodeOf hlu
    rw [items_nodeOf, hz, children_nodeOf] at hcounted
    simp only [Counted, List.length_append, List.length_singleton, List.length_map, shiftedLeft,
      List.length_dropLast] at hcounted ⊢
    omega

theorem children_shifted (l D : PTree) (a : Item) : (shiftedLeft l init).children ++
    (shiftedRight l D a).children = l.children.map Tree.tag ++ D.children.map Tree.tag := by
  rw [shiftedLeft, shiftedRight, ← List.append_assoc, dropLast_append_getLast?]

theorem counted_shiftedRight (hlu : Jointed h l) (hDu : Jointed h D) (hne : D.children ≠ []) :
    (shiftedRight l D a).children.length = (shiftedRight l D a).items.length + 1 := by
  cases h with
  | zero => exact absurd hDu.children_eq_nil hne
  | succ h =>
    have hl := congrArg List.length (dropLast_append_getLast? (l.children.map Tree.tag))
    have h1 := hlu.length_children
    have h2 := hDu.length_children
    simp only [List.length_append, List.length_dropLast, List.length_map] at hl
    simp only [shiftedRight, List.length_append, List.length_cons, List.length_map]
    omega

theorem fits_shiftedRight (hl : d.Holds l) (hD : d.Holds D) (hlu : Jointed h l) (hDu : Jointed h D)
    (hfit : cap.room (l.items ++ a :: D.items) (l.children.length + D.children.length) = true) :
    cap.Fits (shiftedRight l D a) := by
  have hsplit := dropLast_append_getLast? (l.children.map Tree.tag)
  refine ⟨cap.room_mono (List.sublist_append_right _ _) ?_ ?_ hfit, fun c hc => ?_⟩
  · have hlen := congrArg List.length hsplit
    simp only [List.length_append, List.length_map] at hlen
    simp only [shiftedRight, List.length_append, List.length_map]
    omega
  · by_cases hne : D.children = []
    · apply Or.inl
      obtain rfl : h = 0 := hDu.zero_of_children hne
      simp [shiftedRight, hne, hlu.children_eq_nil]
    · exact Or.inr (counted_shiftedRight hlu hDu hne)
  · rcases List.mem_cons.mp hc with rfl | hc
    · exact hD.names _ List.mem_cons_self
    rcases List.mem_append.mp hc with hc | hc
    · refine hl.names c (List.mem_cons_of_mem _ ?_)
      rw [← hsplit]
      exact List.mem_append_right _ hc
    · exact hD.names c (List.mem_cons_of_mem _ hc)

theorem rightRotated_shifted (hlu : Jointed h l) (hDu : Jointed h D) (hz : l.items = init ++ [z])
    (hpage : d'.at? l.tag = some (init, (shiftedLeft l init).children)) :
    RightRotated d d' l D a z (shiftedRight l D a) init (shiftedLeft l init).children := by
  refine ⟨hpage, rfl, by simp [hz, shiftedRight], children_shifted l D a, fun hnil => ?_,
    counted_shiftedRight hlu hDu⟩
  cases h with
  | zero => simp [shiftedRight, hlu.children_eq_nil, hDu.children_eq_nil]
  | succ h =>
    -- an inner node with an item has two children, so one stays
    have hlen := congrArg List.length hnil
    have hcount := hlu.length_children
    rw [hz, List.length_append, List.length_singleton] at hcount
    simp only [shiftedLeft, List.length_dropLast, List.length_map, List.length_nil] at hlen
    omega

theorem rotateRight_shifted (hz : l.items = init ++ [z]) :
    rotateRight (nodeOf l) ⟨p, (Frame.mk p ((l, a) :: ls) right).items,
      childTags ⟨p, (l, a) :: ls, right⟩ D.tag⟩ (nodeOf D) (ls.length + 1) =
      some (shiftedLeft l init, ⟨p, (Frame.mk p ((l, z) :: ls) right).items,
        childTags ⟨p, (l, a) :: ls, right⟩ D.tag⟩, shiftedRight l D a) := by
  simp only [rotateRight, items_nodeOf, hz, children_nodeOf, Nat.succ_ne_zero, if_false,
    Nat.add_sub_cancel, items_at_left, items_set_left, List.getLast?_concat, List.dropLast_concat]
  rfl

end Shifted

theorem rightRotateBlock_ok (hl : d.Holds l) (hD : d.Holds D) (hlu : Jointed h l)
    (hDu : Jointed h D) (hl0 : l.tag ≠ 0) (hp0 : p ≠ 0) (hD0 : D.tag ≠ 0) (hlp : l.tag ≠ p)
    (hlD : l.tag ≠ D.tag)
    (hfitp : cap.Fits ⟨p, afterRightRotation d.options ⟨p, (l, a) :: ls, right⟩,
      childTags ⟨p, (l, a) :: ls, right⟩ D.tag⟩)
    (hfitu : cap.room (l.items ++ a :: D.items) (l.children.length + D.children.length) = true) :
    ∃ s u its cs d', rightRotateBlock (nodeOf (Frame.plug ⟨p, (l, a) :: ls, right⟩ D)) (nodeOf D)
        (ls.length + 1) d =
        .ok (⟨p, (Frame.mk p ((l, s) :: ls) right).items,
          childTags ⟨p, (l, a) :: ls, right⟩ D.tag⟩, u) d' ∧
      afterRightRotation d.options ⟨p, (l, a) :: ls, right⟩ =
        (Frame.mk p ((l, s) :: ls) right).items ∧
      RightRotated d d' l D a s u its cs ∧
      Keeps {q | q ≠ l.tag ∧ q ≠ p ∧ q ≠ D.tag} d d' ∧ d'.freelist = d.freelist := by
  have hget : Prog.attempt (getNode l.tag) d = .ok (.ok (nodeOf l)) d :=
    Prog.attempt_ok hl.getNode
  rw [nodeOf_plug, rightRotateBlock, if_neg (Nat.succ_ne_zero _), Prog.get_bind, Nat.add_sub_cancel,
    Prog.element_bind childTags_at_left, Prog.bind_ok hget]
  by_cases hs : d.options.canSpareAnElement l.items = true
  · -- the last item of the left neighbour goes up, the separator comes down
    have hlen := canSpare_length hs
    have hne : l.items ≠ [] := fun he => by rw [he] at hlen; simp at hlen
    obtain ⟨init, z, hz⟩ : ∃ init z, l.items = init ++ [z] :=
      ⟨_, _, (List.dropLast_append_getLast hne).symm⟩
    have hafter : afterRightRotation d.options ⟨p, (l, a) :: ls, right⟩ =
        (Frame.mk p ((l, z) :: ls) right).items := by
      simp only [afterRightRotation, hs, if_true, List.length_cons, Nat.add_sub_cancel,
        items_set_left]
      simp [hz]
    rw [hafter] at hfitp
    have hfl := fits_shiftedLeft hl hlu hz
    have hfu := fits_shiftedRight hl hD hlu hDu hfitu
    refine ⟨z, shiftedRight l D a, init, (shiftedLeft l init).children,
      ((d.store _ hfl).store _ hfitp).store _ hfu, ?_, hafter, rightRotated_shifted hlu hDu hz ?_,
      ?_, rfl⟩
    · dsimp only
      rw [if_pos (show d.options.canSpareAnElement (nodeOf l).items = true from hs),
        rotateRight_shifted hz, Prog.demand_some, Prog.ret_bind,
        Prog.bind_ok (writeThree_ok hl0 hp0 hD0 hfl hfitp hfu)]
      rfl
    · rw [at?_store_ne hlD, at?_store_ne hlp]
      exact at?_store_self _ _ _
    · exact ((Keeps.store (fun hm => hm.1 rfl) hfl).trans
        (Keeps.store (fun hm => hm.2.1 rfl) hfitp)).trans (Keeps.store (fun hm => hm.2.2 rfl) hfu)
  · refine ⟨a, nodeOf D, _, _, d, ?_, ?_, ⟨hl.root, rfl, rfl, rfl, ?_, ?_⟩, Keeps.refl _ d, rfl⟩
    · dsimp only
      rw [if_neg (show ¬d.options.canSpareAnElement (nodeOf l).items = true from hs)]; rfl
    · rw [afterRightRotation]
      simp only
      rw [if_neg hs]
    · intro hnil
      have hz : h = 0 := hlu.zero_of_children (by simpa using hnil)
      subst hz
      simp [hDu.children_eq_nil]
    · intro hne
      cases h with
      | zero => exact absurd hDu.children_eq_nil hne
      | succ h => rw [children_nodeOf, List.length_map]; exact hDu.length_children

end RightRotation

/-! ## The left rotation -/

section LeftRotation

variable {p : Nat} {r : PTree} {b : Item} {left : List (PTree × Item)} {rs : List (Item × PTree)}
  {u : Node} {cs : List Nat}

theorem leftBalanceBlock_last (its : List Item) (hcs : left.length + 1 = cs.length) :
    leftBalanceBlock ⟨p, its, cs⟩ u left.length d = .ok (⟨p, its, cs⟩, u) d := by
  rw [leftBalanceBlock, if_pos hcs]; rfl

theorem leftBalanceBlock_rest (its : List Item) (hr : d.Holds r)
    (hcs : left.length + 1 < cs.length) (hchild : cs[left.length + 1]? = some r.tag)
    (hs : d.options.canSpareAnElement r.items = false) :
    leftBalanceBlock ⟨p, its, cs⟩ u left.length d = .ok (⟨p, its, cs⟩, u) d := by
  have hget : Prog.attempt (getNode r.tag) d = .ok (.ok (nodeOf r)) d := Prog.attempt_ok hr.getNode
  rw [leftBalanceBlock, if_neg (by simp only; omega), Prog.get_bind, Prog.element_bind hchild,
    Prog.bind_ok hget]
  dsimp only
  rw [if_neg (show ¬d.options.canSpareAnElement (nodeOf r).items = true by simpa using hs)]; rfl

/-- The left rotation: the separator `b` goes to the end of `u`, and the first item of
the right neighbour comes up. -/
theorem leftBalanceBlock_rotate {z : Item} {zs : List Item} {h : Nat} (hr : d.Holds r)
    (hru' : Jointed h r)
    (hs : d.options.canSpareAnElement r.items = true) (hz : r.items = z :: zs)
    (hcs : left.length + 1 < cs.length) (hchild : cs[left.length + 1]? = some r.tag)
    (hr0 : r.tag ≠ 0) (hp0 : p ≠ 0) (hu0 : u.pageNum ≠ 0)
    (hru : r.tag ≠ u.pageNum) (hup : u.pageNum ≠ p)
    (hfitp : cap.Fits ⟨p, (Frame.mk p left ((z, r) :: rs)).items, cs⟩)
    (hfitu : cap.Fits ⟨u.pageNum, u.items ++ [b],
      u.children ++ (r.children.map Tree.tag).take 1⟩) :
    ∃ d', leftBalanceBlock ⟨p, (Frame.mk p left ((b, r) :: rs)).items, cs⟩ u left.length d =
        .ok (⟨p, (Frame.mk p left ((z, r) :: rs)).items, cs⟩,
          ⟨u.pageNum, u.items ++ [b], u.children ++ (r.children.map Tree.tag).take 1⟩) d' ∧
      d'.at? r.tag = some (r.dropFirst.items, r.dropFirst.children.map Tree.tag) ∧
      d'.at? u.pageNum = some (u.items ++ [b], u.children ++ (r.children.map Tree.tag).take 1) ∧
      Keeps {q | q ≠ r.tag ∧ q ≠ p ∧ q ≠ u.pageNum} d d' ∧ d'.freelist = d.freelist := by
  have hget : Prog.attempt (getNode r.tag) d = .ok (.ok (nodeOf r)) d := Prog.attempt_ok hr.getNode
  set u2 : Node := ⟨u.pageNum, u.items ++ [b], u.children ++ (r.children.map Tree.tag).take 1⟩
    with hu2
  set p2 : Node := ⟨p, (Frame.mk p left ((z, r) :: rs)).items, cs⟩ with hp2
  set r2 : Node := ⟨r.tag, r.dropFirst.items, r.dropFirst.children.map Tree.tag⟩ with hr2
  have htail : (r.children.map Tree.tag).tail = r.dropFirst.children.map Tree.tag := by
    rw [children_dropFirst, List.map_tail]
  have htake : (r.children.map Tree.tag).head?.toList = (r.children.map Tree.tag).take 1 := by
    cases r.children <;> rfl
  have hindex : left.length ≠ (Frame.mk p left ((b, r) :: rs)).items.length := by
    rw [Frame.length_items]
    simp
  have hrot : rotateLeft u ⟨p, (Frame.mk p left ((b, r) :: rs)).items, cs⟩ (nodeOf r) left.length =
      some (u2, p2, r2) := by
    simp only [rotateLeft, items_nodeOf, hz, children_nodeOf, List.head?_cons, if_neg hindex,
      items_at_right, items_set_right, htail, htake, List.tail_cons]
    simp [hu2, hp2, hr2, hz]
  have hfr : cap.Fits r2 := (fits_of_at? hr.root).sublist rfl (List.tail_sublist _)
    (by rw [hr2, ← htail]; exact List.tail_sublist _)
    (counted_nodeOf (hru'.dropFirst (by rw [hz]; exact List.cons_ne_nil _ _)))
  have hfu : cap.Fits u2 := hfitu
  have hfp : cap.Fits p2 := hfitp
  refine ⟨((d.store u2 hfu).store p2 hfp).store r2 hfr, ?_, at?_store_self _ _ _, ?_, ?_, rfl⟩
  · rw [leftBalanceBlock, if_neg (by simp only; omega), Prog.get_bind, Prog.element_bind hchild,
      Prog.bind_ok hget]
    dsimp only
    rw [if_pos (show d.options.canSpareAnElement (nodeOf r).items = true from hs), hrot,
      Prog.demand_some, Prog.ret_bind,
      Prog.bind_ok (writeThree_ok (show u2.pageNum ≠ 0 from hu0) (show p2.pageNum ≠ 0 from hp0) hr0
        hfu hfp hfr)]
    rfl
  · rw [at?_store_ne (Ne.symm hru), at?_store_ne hup]
    exact at?_store_self _ _ _
  · exact ((Keeps.store (fun hm => hm.2.2 rfl) hfu).trans
      (Keeps.store (fun hm => hm.2.1 rfl) hfp)).trans (Keeps.store (fun hm => hm.1 rfl) hfr)

/-- What the left rotation takes over from the right neighbour. -/
def takenItems (o : Options) : List (Item × PTree) → List Item
  | (b, r) :: _ => if o.canSpareAnElement r.items then [b] else []
  | [] => []

def takenChildren (o : Options) : List (Item × PTree) → List PTree
  | (_, r) :: _ => if o.canSpareAnElement r.items then r.children.take 1 else []
  | [] => []

theorem takeFromRight_eq (o : Options) (D : PTree) (right : List (Item × PTree)) :
    takeFromRight o D right =
      .node D.tag (D.items ++ takenItems o right) (D.children ++ takenChildren o right) := by
  cases right with
  | nil => simp [takeFromRight, takenItems, takenChildren, eta]
  | cons x rs =>
    simp only [takeFromRight, takenItems, takenChildren]
    split
    · rfl
    · simp [eta]

/-- The right neighbours after a left rotation: the first one is on its page without its first
item and child, and the others are left alone. -/
theorem holds_rightAfter_rotate {z : Item} {q' : Nat} (hright : ∀ x ∈ (b, r) :: rs, d.Holds x.2)
    (hnd : (((b, r) :: rs).flatMap fun x => x.2.tags).Nodup)
    (hp : ∀ x ∈ (b, r) :: rs, p ∉ x.2.tags) (hq' : ∀ x ∈ (b, r) :: rs, q' ∉ x.2.tags)
    (hat : d'.at? r.tag = some (r.dropFirst.items, r.dropFirst.children.map Tree.tag))
    (hk : Keeps {q | q ≠ r.tag ∧ q ≠ p ∧ q ≠ q'} d d') :
    ∀ x ∈ (z, r.dropFirst) :: rs, d'.Holds x.2 := by
  rw [List.flatMap_cons, List.nodup_append] at hnd
  obtain ⟨hrnd, -, hdisj⟩ := hnd
  rw [tags_eq] at hrnd
  intro x hx
  rcases List.mem_cons.mp hx with rfl | hx
  · refine holds_iff.mpr ⟨hat, fun c hc => ?_⟩
    have hc : c ∈ r.children := List.mem_of_mem_tail hc
    refine hk.holds ((hright (b, r) List.mem_cons_self).child hc) fun q hq => ⟨?_, ?_, ?_⟩
    · rintro rfl
      exact (List.nodup_cons.mp hrnd).1 (List.mem_flatMap.mpr ⟨c, hc, hq⟩)
    · rintro rfl
      exact hp (b, r) List.mem_cons_self (tags_child hc hq)
    · rintro rfl
      exact hq' (b, r) List.mem_cons_self (tags_child hc hq)
  · have hmem := List.mem_cons_of_mem (b, r) hx
    refine hk.holds (hright x hmem) fun q hq => ⟨?_, ?_, ?_⟩
    · rintro rfl
      exact hdisj r.tag (tag_mem_tags r) r.tag (List.mem_flatMap.mpr ⟨x, hx, hq⟩) rfl
    · rintro rfl
      exact hp x hmem hq
    · rintro rfl
      exact hq' x hmem hq

theorem leftBalanceBlock_ok {right : List (Item × PTree)} {h : Nat}
    (hright : ∀ x ∈ right, d.Holds x.2) (hru : ∀ x ∈ right.head?, Jointed h x.2)
    (hnd : (right.flatMap fun x => x.2.tags).Nodup)
    (hp : ∀ x ∈ right, p ∉ x.2.tags) (hu : ∀ x ∈ right, u.pageNum ∉ x.2.tags)
    (h0 : ∀ x ∈ right, x.2.tag ≠ 0) (hp0 : p ≠ 0) (hu0 : u.pageNum ≠ 0) (hup : u.pageNum ≠ p)
    (hcs : cs = childTags ⟨p, left, right⟩ u.pageNum)
    (hfitp : cap.Fits ⟨p, (Frame.mk p left (rightAfter d.options right)).items, cs⟩)
    (hfitu : cap.Fits ⟨u.pageNum, u.items ++ takenItems d.options right,
      u.children ++ (takenChildren d.options right).map Tree.tag⟩) :
    ∃ d', leftBalanceBlock ⟨p, (Frame.mk p left right).items, cs⟩ u left.length d =
        .ok (⟨p, (Frame.mk p left (rightAfter d.options right)).items, cs⟩,
          ⟨u.pageNum, u.items ++ takenItems d.options right,
            u.children ++ (takenChildren d.options right).map Tree.tag⟩) d' ∧
      (∀ x ∈ rightAfter d.options right, d'.Holds x.2) ∧
      (d.at? u.pageNum = some (u.items, u.children) →
        d'.at? u.pageNum = some (u.items ++ takenItems d.options right,
          u.children ++ (takenChildren d.options right).map Tree.tag)) ∧
      Keeps {q | q ∉ right.map (fun x => x.2.tag) ∧ q ≠ p ∧ q ≠ u.pageNum} d d' ∧
      d'.freelist = d.freelist := by
  cases right with
  | nil =>
    have hlen : left.length + 1 = cs.length := by rw [hcs, length_childTags]; simp
    refine ⟨d, ?_, by simp [rightAfter], ?_, Keeps.refl _ d, rfl⟩
    · rw [leftBalanceBlock_last _ hlen]
      simp [rightAfter, takenItems, takenChildren]
    · simp [takenItems, takenChildren]
  | cons x rs =>
    obtain ⟨b, r⟩ := x
    have hr : d.Holds r := hright (b, r) List.mem_cons_self
    have hlen : left.length + 1 < cs.length := by rw [hcs, length_childTags]; simp
    have hchild : cs[left.length + 1]? = some r.tag := by rw [hcs]; exact childTags_at_right
    by_cases hs : d.options.canSpareAnElement r.items = true
    · obtain ⟨z, zs, hz⟩ := canSpare_ne_nil hs
      have hafter : rightAfter d.options ((b, r) :: rs) = (z, r.dropFirst) :: rs := by
        rw [rightAfter, if_pos hs, hz]; rfl
      have hti : takenItems d.options ((b, r) :: rs) = [b] := if_pos hs
      have htc : (takenChildren d.options ((b, r) :: rs)).map Tree.tag =
          (r.children.map Tree.tag).take 1 := by
        rw [takenChildren, if_pos hs, List.map_take]
      have hitems : (Frame.mk p left ((z, r.dropFirst) :: rs)).items =
          (Frame.mk p left ((z, r) :: rs)).items := rfl
      rw [hafter, hitems] at hfitp
      rw [hti, htc] at hfitu ⊢
      have hru' : r.tag ≠ u.pageNum := fun he =>
        hu (b, r) List.mem_cons_self (he ▸ tag_mem_tags r)
      obtain ⟨d', hrun, hatr, hatu, hk, hfl⟩ := leftBalanceBlock_rotate (b := b) hr
        (hru (b, r) rfl) hs hz hlen hchild (h0 (b, r) List.mem_cons_self) hp0 hu0
        hru' hup hfitp hfitu
      refine ⟨d', by rw [hafter, hitems]; exact hrun, ?_, fun _ => hatu, hk.mono ?_, hfl⟩
      · rw [hafter]
        exact holds_rightAfter_rotate hright hnd hp hu hatr hk
      · rintro q ⟨hq, hqp, hqu⟩
        exact ⟨fun he => hq (by simp [he]), hqp, hqu⟩
    · have hs' : d.options.canSpareAnElement r.items = false := by simpa using hs
      have hafter : rightAfter d.options ((b, r) :: rs) = (b, r) :: rs := by
        rw [rightAfter, if_neg hs]
      have hti : takenItems d.options ((b, r) :: rs) = [] := if_neg hs
      have htc : takenChildren d.options ((b, r) :: rs) = [] := if_neg hs
      rw [hafter, hti, htc, List.map_nil, List.append_nil, List.append_nil]
      exact ⟨d, leftBalanceBlock_rest _ hr hlen hchild hs', hright, id, Keeps.refl _ d, rfl⟩

end LeftRotation

/-! ## The merge -/

section Merge

variable {g : Frame Nat Item} {l v : PTree} {a s : Item} {its : List Item} {cs : List Nat}

/-- The layer before a merge: the node on the page of `l` and `bnode` make up `l.join a v`,
and the node `this` of the parent still has them both, with `s` between them. -/
structure Mergeable (d : Dal (Shelf cap)) (g : Frame Nat Item) (l v : PTree) (a s : Item)
    (this bnode : Node) (index : Nat) (its : List Item) (cs : List Nat) : Prop where
  siblings : ∀ c ∈ g.siblings, d.Holds c
  leftChildren : ∀ c ∈ l.children, d.Holds c
  rightChildren : ∀ c ∈ v.children, d.Holds c
  page : d.at? l.tag = some (its, cs)
  items : its ++ s :: bnode.items = l.items ++ a :: v.items
  children : cs ++ bnode.children = l.children.map Tree.tag ++ v.children.map Tree.tag
  leaf : cs = [] → bnode.children = []
  bnodePage : bnode.pageNum = v.tag
  thisPage : this.pageNum = g.tag
  child : this.children[index]? = some l.tag
  separator : this.items[index]? = some s
  lt : index + 1 < this.children.length
  thisItems : this.items.eraseIdx index = g.items
  thisChildren : this.children.eraseIdx (index + 1) = childTags g l.tag

/-- The node that `merge` writes to the page of `l`. -/
theorem Mergeable.merged {this bnode : Node} {index : Nat}
    (hm : Mergeable d g l v a s this bnode index its cs) :
    (⟨l.tag, its ++ [s] ++ bnode.items,
      if (Node.mk l.tag its cs).isLeaf then cs else cs ++ bnode.children⟩ : Node) =
      nodeOf (l.join a v) := by
  have hi : its ++ [s] ++ bnode.items = (l.join a v).items := by
    rw [List.append_assoc]; exact hm.items
  have hc : (if (Node.mk l.tag its cs).isLeaf then cs else cs ++ bnode.children) =
      (l.join a v).children.map Tree.tag := by
    rw [children_join, List.map_append, ← hm.children]
    split
    next hlf =>
      have hcs : cs = [] := by simpa [Node.isLeaf] using hlf
      rw [hm.leaf hcs, List.append_nil]
    next => rfl
  rw [hi, hc]; rfl

theorem merge_run {this bnode : Node} {index : Nat}
    (hm : Mergeable d g l v a s this bnode index its cs) (hl0 : l.tag ≠ 0) (hg0 : g.tag ≠ 0)
    (hfitl : cap.Fits (nodeOf (l.join a v)))
    (hfitg : cap.Fits ⟨g.tag, g.items, childTags g l.tag⟩) :
    merge this bnode (index + 1) d =
      .ok () { (d.store (nodeOf (l.join a v)) hfitl).store _ hfitg with
        freelist := d.freelist.releasePage v.tag } := by
  rw [merge]
  simp only [Nat.add_sub_cancel]
  rw [Prog.element_bind hm.child, Prog.bind_ok (getNode_ok hm.page),
    Prog.element_bind hm.separator, Prog.require_bind hm.lt]
  dsimp only
  rw [hm.merged, hm.thisItems, hm.thisChildren, hm.thisPage,
    Prog.bind_ok (writeNode_ok hl0 hfitl), Prog.bind_ok (writeNode_ok hg0 hfitg), hm.bnodePage]
  rfl

theorem Mergeable.holds {this bnode : Node} {index : Nat}
    (hm : Mergeable d g l v a s this bnode index its cs)
    (hnd : (g.plug (l.join a v)).tags.Nodup) (hfitl : cap.Fits (nodeOf (l.join a v)))
    (hfitg : cap.Fits ⟨g.tag, g.items, childTags g l.tag⟩) :
    ((d.store (nodeOf (l.join a v)) hfitl).store _ hfitg).Holds (g.plug (l.join a v)) := by
  obtain ⟨hgnd, hjnd, hdisj⟩ := List.nodup_append.mp ((g.tags_plug (l.join a v)).nodup_iff.mp hnd)
  rw [tags_eq, tag_join] at hjnd
  have hgl : g.tag ≠ l.tag := fun he =>
    hdisj g.tag List.mem_cons_self l.tag (tag_mem_tags (l.join a v)) he
  have hkeep : ∀ {w : PTree}, d.Holds w → l.tag ∉ w.tags → g.tag ∉ w.tags →
      ((d.store (nodeOf (l.join a v)) hfitl).store _ hfitg).Holds w :=
    fun hw h1 h2 => (hw.store h1).store h2
  refine holds_plug.mpr ⟨at?_store_self _ _ _, fun c hc => ?_, holds_iff.mpr ⟨?_, fun c hc => ?_⟩⟩
  · -- a sibling
    have hcg : c.tags ⊆ g.tags := fun q hq =>
      List.mem_cons_of_mem _ (List.mem_flatMap.mpr ⟨c, hc, hq⟩)
    exact hkeep (hm.siblings c hc)
      (fun hm => hdisj l.tag (hcg hm) l.tag (tag_mem_tags (l.join a v)) rfl)
      (fun hm => (List.nodup_cons.mp hgnd).1 (List.mem_flatMap.mpr ⟨c, hc, hm⟩))
  · show ((d.store (nodeOf (l.join a v)) hfitl).store _ hfitg).at? l.tag = _
    rw [at?_store_ne (Ne.symm hgl)]
    exact at?_store_self _ _ _
  · -- a child of one of the two
    have hct : c.tags ⊆ (l.join a v).tags := tags_child hc
    refine hkeep ?_ (fun hm => (List.nodup_cons.mp hjnd).1 (List.mem_flatMap.mpr ⟨c, hc, hm⟩))
      (fun hm => hdisj g.tag List.mem_cons_self g.tag (hct hm) rfl)
    rcases List.mem_append.mp hc with hc | hc
    · exact hm.leftChildren c hc
    · exact hm.rightChildren c hc

/-- **The merge**: the node on the page of `l` and `bnode` become `l.join a v`, and the
page of `bnode` is released. -/
theorem merge_ok {this bnode : Node} {index : Nat} (hm : Mergeable d g l v a s this bnode index its cs)
    (hplace : Places F (v.tag :: (g.plug (l.join a v)).tags))
    (hfitl : cap.Fits (nodeOf (l.join a v)))
    (hfitg : cap.Fits ⟨g.tag, g.items, childTags g l.tag⟩) :
    ∃ d', merge this bnode (index + 1) d = .ok () d' ∧ d'.Holds (g.plug (l.join a v)) ∧
      Keeps F d d' ∧ d'.freelist = d.freelist.releasePage v.tag := by
  have hg : g.tag ∈ v.tag :: (g.plug (l.join a v)).tags :=
    List.mem_cons_of_mem _ (tag_mem_tags (g.plug (l.join a v)))
  have hl : l.tag ∈ v.tag :: (g.plug (l.join a v)).tags :=
    List.mem_cons_of_mem _ ((g.tags_plug _).mem_iff.mpr
      (List.mem_append_right _ (tag_mem_tags (l.join a v))))
  refine ⟨_, merge_run hm (hplace.ne_zero hl) (hplace.ne_zero hg) hfitl hfitg,
    hm.holds (List.nodup_cons.mp hplace.nodup).2 hfitl hfitg, ?_, rfl⟩
  refine Keeps.trans (Keeps.trans (Keeps.store ?_ hfitl) (Keeps.store ?_ hfitg))
    (Keeps.setFreelist _)
  · exact hplace.outside _ hl
  · exact hplace.outside _ hg

end Merge

/-! ## The repair as a whole -/

section Rebalance

variable {p : Nat} {l r D : PTree} {a b : Item} {ls left : List (PTree × Item)}
  {rs right : List (Item × PTree)} {h : Nat}

/-- The pages of the neighbours on one side of a hole. -/
def leftTags (left : List (PTree × Item)) : List Nat := left.flatMap fun x => x.1.tags
def rightTags (right : List (Item × PTree)) : List Nat := right.flatMap fun x => x.2.tags

theorem tags_plug_mk (p : Nat) (left : List (PTree × Item)) (right : List (Item × PTree))
    (t : PTree) : (Frame.plug ⟨p, left, right⟩ t).tags.Perm
      (p :: (leftTags left ++ rightTags right) ++ t.tags) := by
  refine (Frame.tags_plug _ t).trans (List.Perm.of_eq ?_)
  simp [Frame.tags, Frame.siblings, List.flatMap_append, List.flatMap_map, leftTags, rightTags]

theorem leftTags_cons : leftTags ((l, a) :: ls) = l.tags ++ leftTags ls := rfl
theorem rightTags_cons : rightTags ((b, r) :: rs) = r.tags ++ rightTags rs := rfl

theorem tags_leftRotation (o : Options) (D : PTree) (right : List (Item × PTree)) :
    ((takeFromRight o D right).tags ++ rightTags (rightAfter o right)).Perm
      (D.tags ++ rightTags right) := by
  rcases leftRotation_cases o D right with ⟨b, r, z, zs, rs, rfl, -, -, h1, h2⟩ | ⟨h1, h2, -⟩
  · rw [h1, h2, rightTags_cons, rightTags_cons, ← List.append_assoc, ← List.append_assoc]
    exact (tags_shift D b r).append_right _
  · rw [h1, h2]

theorem tags_merge_left (o : Options) : (D.tag :: (Frame.plug ⟨p, ls, rightAfter o right⟩
    (l.join a (takeFromRight o D right))).tags).Perm (Frame.plug ⟨p, (l, a) :: ls, right⟩ D).tags := by
  refine List.perm_iff_count.mpr fun q => ?_
  have h1 := (tags_plug_mk p ls (rightAfter o right) (l.join a (takeFromRight o D right))).count_eq q
  have h2 := (tags_plug_mk p ((l, a) :: ls) right D).count_eq q
  have h3 := (tags_leftRotation o D right).count_eq q
  have h4 := (tags_join l a (takeFromRight o D right)).count_eq q
  rw [tag_takeFromRight] at h4
  simp only [List.count_append, List.count_cons, leftTags_cons, List.cons_append] at *
  omega

theorem tags_merge_right : (r.tag :: (Frame.plug ⟨p, [], rs⟩ (D.join b r)).tags).Perm
    (Frame.plug ⟨p, [], (b, r) :: rs⟩ D).tags := by
  refine List.perm_iff_count.mpr fun q => ?_
  have h1 := (tags_plug_mk p [] rs (D.join b r)).count_eq q
  have h2 := (tags_plug_mk p [] ((b, r) :: rs) D).count_eq q
  have h4 := (tags_join D b r).count_eq q
  simp only [List.count_append, List.count_cons, rightTags_cons, leftTags, List.flatMap_nil,
    List.cons_append, List.nil_append] at *
  omega

theorem afterRotations_eq {o : Options} {f : Frame Nat Item} (left' : List (PTree × Item))
    (hlen : left'.length = f.left.length)
    (hafter : afterRightRotation o f = (Frame.mk f.tag left' f.right).items) :
    afterRotations o f = (Frame.mk f.tag left' (rightAfter o f.right)).items := by
  obtain ⟨p, left, right⟩ := f
  unfold afterRotations
  simp only at hlen hafter ⊢
  rw [hafter]
  cases right with
  | nil => rfl
  | cons x rs =>
    obtain ⟨b, r⟩ := x
    simp only [rightAfter]
    split
    · rw [← hlen, items_set_right]; rfl
    · rfl

theorem childTags_rightAfter (o : Options) (left : List (PTree × Item))
    (right : List (Item × PTree)) (q : Nat) :
    childTags ⟨p, left, rightAfter o right⟩ q = childTags ⟨p, left, right⟩ q := by
  cases right with
  | nil => rfl
  | cons x rs =>
    simp only [rightAfter]
    split <;> rfl

theorem takenChildren_leaf {o : Options} (hright : ∀ x ∈ right.head?, Jointed 0 x.2) :
    takenChildren o right = [] := by
  cases right with
  | nil => rfl
  | cons x rs =>
    simp [takenChildren, (hright x rfl).children_eq_nil]

theorem counted_taken {o : Options} {its : List Item} {m : Nat} (hD : Jointed h D)
    (hright : ∀ x ∈ right.head?, Jointed h x.2) (hleaf : D.children = [] → m = 0)
    (hinner : D.children ≠ [] → m = its.length + 1) :
    Counted (its ++ takenItems o right).length (m + (takenChildren o right).length) := by
  cases h with
  | zero => exact Or.inl (by rw [takenChildren_leaf hright, hleaf hD.children_eq_nil]; rfl)
  | succ h =>
    have hlen : (takenChildren o right).length = (takenItems o right).length := by
      cases right with
      | nil => rfl
      | cons x rs =>
        have := (hright x rfl).length_children
        simp only [takenChildren, takenItems]
        split
        · rw [List.length_take, List.length_singleton]; omega
        · rfl
    have := hinner hD.children_ne_nil
    rw [Counted, List.length_append]
    omega

theorem mem_takenChildren {o : Options} {c : PTree} (hc : c ∈ takenChildren o right) :
    ∃ x ∈ right, c ∈ x.2.children := by
  cases right with
  | nil => cases hc
  | cons x rs =>
    simp only [takenChildren] at hc
    split at hc
    · exact ⟨x, List.mem_cons_self, List.mem_of_mem_take hc⟩
    · cases hc

theorem child_apart {t c : PTree} (hnd : t.tags.Nodup) (hc : c ∈ t.children) : t.tag ∉ c.tags := by
  rw [tags_eq] at hnd
  exact fun hm => (List.nodup_cons.mp hnd).1 (List.mem_flatMap.mpr ⟨c, hc, hm⟩)

/-! ### The node and its neighbours -/

/-- The node in the hole, its left neighbour and all it has to the right: a repair writes
the topmost nodes of these, and the parent. -/
def neighbourhood (f : Frame Nat Item) (D : PTree) : List PTree :=
  D :: ((f.left.head?.map Prod.fst).toList ++ f.right.map Prod.snd)

def neighbourTags (f : Frame Nat Item) (D : PTree) : List Nat :=
  f.tag :: (neighbourhood f D).map Tree.tag

section Neighbours

variable {f : Frame Nat Item}

theorem tags_neighbourhood : (f.plug D).tags.Perm
    (f.tag :: (neighbourhood f D).flatMap tags ++ leftTags f.left.tail) := by
  obtain ⟨p, left, right⟩ := f
  have hright : (right.map Prod.snd).flatMap tags = rightTags right := by
    rw [List.flatMap_map]; rfl
  refine (tags_plug_mk p left right D).trans (List.perm_iff_count.mpr fun q => ?_)
  rw [neighbourhood, List.flatMap_cons, List.flatMap_append, hright]
  cases left with
  | nil =>
    simp only [leftTags, List.head?_nil, List.tail_nil, Option.map_none, Option.toList_none,
      List.flatMap_nil, List.nil_append, List.cons_append, List.count_cons, List.count_append,
      List.append_nil]
    omega
  | cons x ls =>
    simp only [leftTags, List.head?_cons, List.tail_cons, Option.map_some, Option.toList_some,
      List.flatMap_cons, List.flatMap_nil, List.append_nil, List.cons_append, List.count_cons,
      List.count_append]
    omega

theorem mem_neighbourhood_right {x : Item × PTree} (hx : x ∈ f.right) : x.2 ∈ neighbourhood f D :=
  List.mem_cons_of_mem _ (List.mem_append_right _ (List.mem_map_of_mem hx))

theorem tag_mem_neighbourTags {t : PTree} (ht : t ∈ neighbourhood f D) :
    t.tag ∈ neighbourTags f D := List.mem_cons_of_mem _ (List.mem_map_of_mem ht)

theorem tag_mem_flatMap_neighbourhood {t : PTree} (ht : t ∈ neighbourhood f D) :
    t.tag ∈ (neighbourhood f D).flatMap tags := List.mem_flatMap.mpr ⟨t, ht, tag_mem_tags t⟩

theorem mem_tags_of_neighbourTags {q : Nat} (hq : q ∈ neighbourTags f D) :
    q ∈ (f.plug D).tags := by
  refine tags_neighbourhood.mem_iff.mpr (List.mem_append_left _ ?_)
  rcases List.mem_cons.mp hq with rfl | hq
  · exact List.mem_cons_self
  · obtain ⟨t, ht, rfl⟩ := List.mem_map.mp hq
    exact List.mem_cons_of_mem _ (tag_mem_flatMap_neighbourhood ht)

theorem ne_zero_neighbour (hplace : Places F (f.plug D).tags) {t : PTree}
    (ht : t ∈ neighbourhood f D) : t.tag ≠ 0 :=
  hplace.ne_zero (mem_tags_of_neighbourTags (tag_mem_neighbourTags ht))

variable (hnd : (f.plug D).tags.Nodup)
include hnd

theorem nodup_neighbourhood : ((neighbourhood f D).flatMap tags).Nodup ∧
    (∀ q ∈ (neighbourhood f D).flatMap tags, q ≠ f.tag) ∧
    (∀ x ∈ f.left.tail, f.tag ∉ x.1.tags) ∧
    ∀ t ∈ neighbourhood f D, ∀ x ∈ f.left.tail, t.tags.Disjoint x.1.tags := by
  have h := tags_neighbourhood.nodup_iff.mp hnd
  rw [List.cons_append, List.nodup_cons, List.mem_append, not_or, List.nodup_append] at h
  obtain ⟨⟨hp, hpl⟩, hG, -, hdisj⟩ := h
  refine ⟨hG, fun q hq he => hp (he ▸ hq), fun x hx hm => hpl (List.mem_flatMap.mpr ⟨x, hx, hm⟩), ?_⟩
  intro t ht x hx q hq hqx
  exact hdisj q (List.mem_flatMap.mpr ⟨t, ht, hq⟩) q (List.mem_flatMap.mpr ⟨x, hx, hqx⟩) rfl

theorem tag_ne_parent {t : PTree} (ht : t ∈ neighbourhood f D) : t.tag ≠ f.tag :=
  (nodup_neighbourhood hnd).2.1 _ (tag_mem_flatMap_neighbourhood ht)

theorem left_ne_hole {y : PTree × Item} (hy : y ∈ f.left.head?) : y.1.tag ≠ D.tag := by
  obtain ⟨hG, -⟩ := nodup_neighbourhood hnd
  rw [neighbourhood, List.flatMap_cons, List.nodup_append] at hG
  have hmem : y.1 ∈ (f.left.head?.map Prod.fst).toList := by simpa using ⟨y.2, hy⟩
  exact fun he => hG.2.2 D.tag (tag_mem_tags D) y.1.tag (List.mem_flatMap.mpr
    ⟨y.1, List.mem_append_left _ hmem, tag_mem_tags y.1⟩) he.symm

theorem child_apart_neighbours {t c : PTree} (ht : t ∈ neighbourhood f D) (hc : c ∈ t.children) :
    ∀ q ∈ neighbourTags f D, q ∉ c.tags := by
  obtain ⟨hG, hp, -, -⟩ := nodup_neighbourhood hnd
  obtain ⟨hnodup, hpair⟩ := List.nodup_flatMap.mp hG
  intro q hq hm
  rcases List.mem_cons.mp hq with rfl | hq
  · exact hp f.tag (List.mem_flatMap.mpr ⟨t, ht, tags_child hc hm⟩) rfl
  · obtain ⟨u, hu, rfl⟩ := List.mem_map.mp hq
    by_cases he : u = t
    · subst he
      exact child_apart (hnodup u hu) hc hm
    · have hsymm : Std.Symm (Function.onFun List.Disjoint (tags (π := Nat) (α := Item))) :=
        ⟨fun _ _ h _ hq hq' => h hq' hq⟩
      exact hpair.forall hu ht he (tag_mem_tags u) (tags_child hc hm)

theorem left_apart_neighbours {x : PTree × Item} (hx : x ∈ f.left.tail) :
    ∀ q ∈ neighbourTags f D, q ∉ x.1.tags := by
  obtain ⟨-, -, hp, hdisj⟩ := nodup_neighbourhood hnd
  intro q hq hm
  rcases List.mem_cons.mp hq with rfl | hq
  · exact hp x hx hm
  · obtain ⟨t, ht, rfl⟩ := List.mem_map.mp hq
    exact hdisj t ht x hx (tag_mem_tags t) hm

theorem right_apart_neighbours : (rightTags f.right).Nodup ∧ ∀ x ∈ f.right,
    f.tag ∉ x.2.tags ∧ D.tag ∉ x.2.tags ∧ ∀ y ∈ f.left.head?, y.1.tag ∉ x.2.tags := by
  obtain ⟨hG, hp, -, -⟩ := nodup_neighbourhood hnd
  have hright : (f.right.map Prod.snd).flatMap tags = rightTags f.right := by
    rw [List.flatMap_map]; rfl
  rw [neighbourhood, List.flatMap_cons, List.flatMap_append, hright, List.nodup_append,
    List.nodup_append] at hG
  obtain ⟨-, ⟨-, hr, hlr⟩, hDr⟩ := hG
  refine ⟨hr, fun x hx => ⟨fun hm => ?_, fun hm => ?_, fun y hy hm => ?_⟩⟩
  · exact hp f.tag (List.mem_flatMap.mpr ⟨x.2, mem_neighbourhood_right hx, hm⟩) rfl
  · exact hDr D.tag (tag_mem_tags D) D.tag
      (List.mem_append_right _ (List.mem_flatMap.mpr ⟨x, hx, hm⟩)) rfl
  · have hmem : y.1 ∈ (f.left.head?.map Prod.fst).toList := by simpa using ⟨y.2, hy⟩
    exact hlr y.1.tag (List.mem_flatMap.mpr ⟨y.1, hmem, tag_mem_tags y.1⟩) y.1.tag
      (List.mem_flatMap.mpr ⟨x, hx, hm⟩) rfl

end Neighbours

/-! ### The nodes that are written fit -/

section Fits

variable {f : Frame Nat Item}

theorem names_childTags (hh : d.Holds (f.plug D)) :
    ∀ c ∈ f.tag :: childTags f D.tag, cap.names c = true := by
  have := hh.names
  rwa [map_tag_children_plug] at this

theorem fits_parent (hh : d.Holds (f.plug D)) (hfit : RebalanceFits cap d.options f D)
    (left' : List (PTree × Item)) (hlen : left'.length = f.left.length)
    (hafter : afterRightRotation d.options f = (Frame.mk f.tag left' f.right).items) :
    cap.Fits ⟨f.tag, (Frame.mk f.tag left' (rightAfter d.options f.right)).items,
      childTags f D.tag⟩ := by
  refine ⟨?_, names_childTags hh⟩
  have := hfit.left
  rw [afterRotations_eq left' hlen hafter] at this
  rw [length_childTags, ← Frame.length_items]
  exact this

theorem names_takenChildren {o : Options} (hright : ∀ x ∈ right, d.Holds x.2) :
    ∀ c ∈ (takenChildren o right).map Tree.tag, cap.names c = true := by
  intro c hc
  obtain ⟨w, hw, rfl⟩ := List.mem_map.mp hc
  obtain ⟨x, hx, hwx⟩ := mem_takenChildren hw
  exact (hright x hx).names _ (List.mem_cons_of_mem _ (List.mem_map_of_mem hwx))

end Fits

/-! ### Before the merge -/

theorem not_written_right {f : Frame Nat Item} {q : Nat} (hq : q ∉ neighbourTags f D) :
    q ∉ f.right.map (fun x => x.2.tag) ∧ q ≠ f.tag ∧ q ≠ D.tag := by
  refine ⟨fun hm => ?_, fun he => hq (he ▸ List.mem_cons_self),
    fun he => hq (he ▸ tag_mem_neighbourTags List.mem_cons_self)⟩
  obtain ⟨x, hx, rfl⟩ := List.mem_map.mp hm
  exact hq (tag_mem_neighbourTags (mem_neighbourhood_right hx))

theorem leftBalanceBlock_hole {f : Frame Nat Item} (left' : List (PTree × Item)) {u : Node}
    (hplace : Places F (f.plug D).tags) (hs : f.Beside h) (hright : ∀ x ∈ f.right, d.Holds x.2)
    (hu : u.pageNum = D.tag) (htags : childTags ⟨f.tag, left', f.right⟩ D.tag = childTags f D.tag)
    (hfitp : cap.Fits ⟨f.tag, (Frame.mk f.tag left' (rightAfter d.options f.right)).items,
      childTags f D.tag⟩)
    (hfitu : cap.Fits ⟨u.pageNum, u.items ++ takenItems d.options f.right,
      u.children ++ (takenChildren d.options f.right).map Tree.tag⟩) :
    ∃ d', leftBalanceBlock ⟨f.tag, (Frame.mk f.tag left' f.right).items, childTags f D.tag⟩ u
        left'.length d =
        .ok (⟨f.tag, (Frame.mk f.tag left' (rightAfter d.options f.right)).items,
            childTags f D.tag⟩,
          ⟨u.pageNum, u.items ++ takenItems d.options f.right,
            u.children ++ (takenChildren d.options f.right).map Tree.tag⟩) d' ∧
      (∀ x ∈ rightAfter d.options f.right, d'.Holds x.2) ∧
      (d.at? D.tag = some (u.items, u.children) →
        d'.at? D.tag = some (u.items ++ takenItems d.options f.right,
          u.children ++ (takenChildren d.options f.right).map Tree.tag)) ∧
      Keeps {q | q ∉ f.right.map (fun x => x.2.tag) ∧ q ≠ f.tag ∧ q ≠ D.tag} d d' ∧
      d'.freelist = d.freelist := by
  have hnd := hplace.nodup
  have hDmem : D ∈ neighbourhood f D := List.mem_cons_self
  obtain ⟨hrnd, hrapart⟩ := right_apart_neighbours hnd
  rw [← hu] at htags ⊢
  refine leftBalanceBlock_ok hright hs.2 hrnd (fun x hx => (hrapart x hx).1) (fun x hx => ?_)
    (fun x hx => ne_zero_neighbour hplace (mem_neighbourhood_right hx))
    (hplace.ne_zero (mem_tags_of_neighbourTags List.mem_cons_self)) ?_ ?_ htags.symm
    (by rw [hu]; exact hfitp) hfitu
  · rw [hu]
    exact (hrapart x hx).2.1
  · rw [hu]
    exact ne_zero_neighbour hplace hDmem
  · rw [hu]
    exact tag_ne_parent hnd hDmem

section LeftNeighbour

variable {s : Item} {u : Node} {its : List Item} {cs : List Nat}

theorem items_mergedNode_left (o : Options) : (mergedNode o ⟨p, (l, a) :: ls, right⟩ D).items =
    l.items ++ a :: (D.items ++ takenItems o right) := by
  show (l.join a (takeFromRight o D right)).items = _
  rw [items_join, takeFromRight_eq]; rfl

theorem children_mergedNode_left (o : Options) :
    (mergedNode o ⟨p, (l, a) :: ls, right⟩ D).children =
      l.children ++ (D.children ++ takenChildren o right) := by
  show (l.join a (takeFromRight o D right)).children = _
  rw [children_join, takeFromRight_eq]; rfl

/-- What the left rotation adds to the node the right rotation has left fits, because the
merged node does. -/
theorem fits_rotated {f : Frame Nat Item} (hf : f = ⟨p, (l, a) :: ls, right⟩)
    (hR : RightRotated d d' l D a s u its cs) (hh : d.Holds (f.plug D)) (hs : f.Beside h)
    (hD : Jointed h D) (hfit : RebalanceFits cap d.options f D) :
    cap.Fits ⟨u.pageNum, u.items ++ takenItems d.options right,
      u.children ++ (takenChildren d.options right).map Tree.tag⟩ := by
  subst hf
  obtain ⟨-, hsibs, hDh⟩ := holds_plug.mp hh
  have hlh : d.Holds l := hsibs l (siblings_left (f := ⟨p, (l, a) :: ls, right⟩) List.mem_cons_self)
  have hlu : Jointed h l := hs.1 (l, a) rfl
  have hroom := hfit.merged
  rw [items_mergedNode_left, children_mergedNode_left] at hroom
  have hclen : cs.length + u.children.length = l.children.length + D.children.length := by
    simpa using congrArg List.length hR.children
  refine ⟨cap.room_mono ?_ ?_ ?_ hroom, fun c hc => ?_⟩
  · rw [← List.cons_append, ← List.append_assoc, ← hR.items, List.append_assoc]
    exact (List.sublist_cons_self s _).trans (List.sublist_append_right its _)
  · simp only [List.length_append, List.length_map]
    omega
  · rw [show (u.children ++ (takenChildren d.options right).map Tree.tag).length =
      u.children.length + (takenChildren d.options right).length by simp]
    refine counted_taken hD hs.2 (fun hnil => ?_) hR.counted
    have hz : h = 0 := hD.zero_of_children hnil
    subst hz
    rw [hlu.children_eq_nil, hnil] at hclen
    simp only [List.length_nil] at hclen
    omega
  · rcases List.mem_cons.mp hc with rfl | hc
    · rw [hR.pageNum]
      exact hDh.names _ List.mem_cons_self
    rcases List.mem_append.mp hc with hc | hc
    · have hmem : c ∈ l.children.map Tree.tag ++ D.children.map Tree.tag :=
        hR.children ▸ List.mem_append_right cs hc
      rcases List.mem_append.mp hmem with hc | hc
      · exact hlh.names c (List.mem_cons_of_mem _ hc)
      · exact hDh.names c (List.mem_cons_of_mem _ hc)
    · exact names_takenChildren
        (fun x hx => hsibs x.2 (siblings_right (f := ⟨p, (l, a) :: ls, right⟩) hx)) c hc

theorem rotations_left {f : Frame Nat Item} (hf : f = ⟨p, (l, a) :: ls, right⟩)
    (hh : d.Holds (f.plug D)) (hplace : Places F (f.plug D).tags) (hs : f.Beside h)
    (hD : Jointed h D) (hfit : RebalanceFits cap d.options f D) :
    ∃ s u its cs d', rebalanceRemove (nodeOf (f.plug D)) (nodeOf D) (ls.length + 1) d =
        merge ⟨p, (Frame.mk p ((l, s) :: ls) (rightAfter d.options right)).items, childTags f D.tag⟩
          ⟨u.pageNum, u.items ++ takenItems d.options right,
            u.children ++ (takenChildren d.options right).map Tree.tag⟩ (ls.length + 1) d' ∧
      afterRightRotation d.options f = (Frame.mk p ((l, s) :: ls) right).items ∧
      RightRotated d d' l D a s u its cs ∧
      (∀ x ∈ rightAfter d.options right, d'.Holds x.2) ∧
      Keeps {q | q ∉ neighbourTags f D} d d' ∧ d'.freelist = d.freelist := by
  have hnd := hplace.nodup
  obtain ⟨-, hsibs, hDh⟩ := holds_plug.mp hh
  have hlmem : l ∈ neighbourhood f D := by simp [neighbourhood, hf]
  have hDmem : D ∈ neighbourhood f D := List.mem_cons_self
  have hlD : l.tag ≠ D.tag := left_ne_hole hnd (y := (l, a)) (by rw [hf]; rfl)
  obtain ⟨-, hrapart⟩ := right_apart_neighbours hnd
  have hlh : d.Holds l := hsibs l (siblings_left (f := f) (x := (l, a)) (by simp [hf]))
  have hlu : Jointed h l := hs.1 (l, a) (by rw [hf]; rfl)
  have hrh : ∀ x ∈ f.right, d.Holds x.2 := fun x hx => hsibs x.2 (siblings_right hx)
  have hlp : l.tag ≠ f.tag := tag_ne_parent hnd hlmem
  have hp0 : f.tag ≠ 0 := hplace.ne_zero (mem_tags_of_neighbourTags List.mem_cons_self)
  have hlenc : (childTags f D.tag).length = f.items.length + 1 := by
    rw [length_childTags, Frame.length_items]
  have hfitr : cap.Fits ⟨f.tag, afterRightRotation d.options f, childTags f D.tag⟩ :=
    ⟨by rw [hlenc]; exact hfit.right, names_childTags hh⟩
  have hroom : cap.room (l.items ++ a :: D.items) (l.children.length + D.children.length) = true := by
    have hmerged := hfit.merged
    rw [hf, items_mergedNode_left, children_mergedNode_left] at hmerged
    exact cap.room_mono (by simp) (by simp) (by simpa using counted_nodeOf (hlu.join a hD)) hmerged
  subst hf
  obtain ⟨s, u, its, cs, d₁, hrun₁, hafter, hR, hk₁, hfl₁⟩ := rightRotateBlock_ok (p := p) (a := a)
    hlh hDh hlu hD (ne_zero_neighbour hplace hlmem) hp0 (ne_zero_neighbour hplace hDmem) hlp hlD
    hfitr hroom
  have hrh₁ : ∀ x ∈ right, d₁.Holds x.2 := fun x hx => hk₁.holds (hrh x hx) fun q hq =>
    ⟨fun he => (hrapart x hx).2.2 (l, a) rfl (he ▸ hq),
      fun he => (hrapart x hx).1 (show p ∈ x.2.tags from he ▸ hq),
      fun he => (hrapart x hx).2.1 (he ▸ hq)⟩
  have hfitp := fits_parent hh hfit ((l, s) :: ls) rfl hafter
  have hfitu := fits_rotated rfl hR hh hs hD hfit
  obtain ⟨d₂, hrun₂, hra, -, hk₂, hfl₂⟩ := leftBalanceBlock_hole (d := d₁)
    ((l, s) :: ls) hplace hs hrh₁ hR.pageNum rfl
    (by rw [hk₁.options]; exact hfitp) (by rw [hk₁.options]; exact hfitu)
  rw [hk₁.options] at hrun₂ hra
  refine ⟨s, u, its, cs, d₂, ?_, hafter, { hR with page := ?_ }, hra, ?_, hfl₂.trans hfl₁⟩
  · refine (Prog.bind_ok hrun₁).trans ((Prog.bind_ok hrun₂).trans ?_)
    dsimp only
    rw [if_neg (Nat.succ_ne_zero _)]
  · refine (hk₂.at? l.tag ⟨fun hm => ?_, hlp, hlD⟩).trans hR.page
    obtain ⟨x, hx, he⟩ := List.mem_map.mp hm
    exact (hrapart x hx).2.2 (l, a) rfl (he ▸ tag_mem_tags x.2)
  · refine (hk₁.mono fun q hq => ?_).trans (hk₂.mono fun q hq => not_written_right hq)
    exact ⟨fun he => hq (he ▸ tag_mem_neighbourTags hlmem),
      fun he => hq (he ▸ List.mem_cons_self), fun he => hq (he ▸ tag_mem_neighbourTags hDmem)⟩

theorem beforeMerge_left {f : Frame Nat Item} (hf : f = ⟨p, (l, a) :: ls, right⟩)
    (hh : d.Holds (f.plug D)) (hplace : Places F (f.plug D).tags) (hs : f.Beside h)
    (hD : Jointed h D) (hfit : RebalanceFits cap d.options f D) :
    ∃ this bnode s its cs d', rebalanceRemove (nodeOf (f.plug D)) (nodeOf D) (ls.length + 1) d =
        merge this bnode (ls.length + 1) d' ∧
      Mergeable d' ⟨p, ls, rightAfter d.options right⟩ l (takeFromRight d.options D right) a s
        this bnode ls.length its cs ∧
      cap.Fits ⟨p, (Frame.mk p ls (rightAfter d.options right)).items,
        childTags ⟨p, ls, rightAfter d.options right⟩ l.tag⟩ ∧
      Keeps {q | q ∉ neighbourTags f D} d d' ∧ d'.freelist = d.freelist := by
  obtain ⟨s, u, its, cs, d₂, hrun, hafter, hR, hra, hk, hfl⟩ :=
    rotations_left hf hh hplace hs hD hfit
  subst hf
  set f : Frame Nat Item := ⟨p, (l, a) :: ls, right⟩ with hf
  have hnd := hplace.nodup
  have hfitp := fits_parent hh hfit ((l, s) :: ls) rfl hafter
  obtain ⟨-, hsibs, hDh⟩ := holds_plug.mp hh
  have hlh : d.Holds l := hsibs l (siblings_left (f := f) List.mem_cons_self)
  have hlmem : l ∈ neighbourhood f D := by simp [neighbourhood, hf]
  -- nothing is written below the neighbours, nor further to the left
  have hchild : ∀ {t w}, t ∈ neighbourhood f D → d.Holds t → w ∈ t.children → d₂.Holds w :=
    fun ht hheld hw => hk.holds (hheld.child hw) fun q hq hm =>
      child_apart_neighbours hnd ht hw q hm hq
  have hleft : ∀ x ∈ ls, d₂.Holds x.1 := fun x hx =>
    hk.holds (hsibs x.1 (siblings_left (f := f) (List.mem_cons_of_mem _ hx))) fun q hq hm =>
      left_apart_neighbours hnd hx q hm hq
  have herase : (Frame.mk p ((l, s) :: ls) (rightAfter d.options right)).items.eraseIdx ls.length =
      (Frame.mk p ls (rightAfter d.options right)).items := items_erase_left
  have heraseChildren : (childTags f D.tag).eraseIdx (ls.length + 1) =
      childTags ⟨p, ls, rightAfter d.options right⟩ l.tag := by
    rw [childTags_rightAfter]
    exact childTags_erase_left
  refine ⟨_, _, s, its, cs, d₂, hrun,
    { siblings := fun c hc => ?_, leftChildren := fun c hc => hchild hlmem hlh hc,
      rightChildren := fun c hc => ?_, page := hR.page, items := ?_, children := ?_,
      leaf := fun hnil => ?_, bnodePage := ?_, thisPage := rfl, child := childTags_at_left,
      separator := items_at_left, lt := ?_, thisItems := herase,
      thisChildren := heraseChildren }, ?_, hk, hfl⟩
  · rcases List.mem_append.mp hc with hc | hc
    · obtain ⟨x, hx, rfl⟩ := List.mem_map.mp hc
      exact hleft x hx
    · obtain ⟨x, hx, rfl⟩ := List.mem_map.mp hc
      exact hra x hx
  · rw [takeFromRight_eq] at hc
    rcases List.mem_append.mp hc with hc | hc
    · exact hchild List.mem_cons_self hDh hc
    · obtain ⟨x, hx, hcx⟩ := mem_takenChildren hc
      exact hchild (mem_neighbourhood_right hx) (hsibs x.2 (siblings_right (f := f) hx)) hcx
  · rw [takeFromRight_eq, items_node, ← List.cons_append, ← List.append_assoc, hR.items]
    simp
  · rw [takeFromRight_eq, children_node, ← List.append_assoc, hR.children]
    simp
  · have hu := hR.leaf hnil
    have hz : h = 0 := by
      apply hD.zero_of_children
      have := hR.children
      rw [hnil, hu] at this
      simpa using (List.append_eq_nil_iff.mp this.symm).2
    subst hz
    rw [hu, takenChildren_leaf hs.2]
    rfl
  · rw [tag_takeFromRight]
    exact hR.pageNum
  · rw [length_childTags, hf, List.length_cons]
    omega
  · refine hfitp.sublist rfl ?_ ?_ (Or.inr (by rw [length_childTags, Frame.length_items]))
    · rw [← herase]
      exact List.eraseIdx_sublist _ _
    · rw [← heraseChildren]
      exact List.eraseIdx_sublist _ _

end LeftNeighbour

theorem rightAfter_cons (o : Options) (b : Item) (r : PTree) (rs : List (Item × PTree)) :
    ∃ z r', rightAfter o ((b, r) :: rs) = (z, r') :: rs ∧ r'.tag = r.tag ∧
      takenItems o ((b, r) :: rs) ++ z :: r'.items = b :: r.items ∧
      takenChildren o ((b, r) :: rs) ++ r'.children = r.children := by
  by_cases hs : o.canSpareAnElement r.items = true
  · obtain ⟨z, zs, hz⟩ := canSpare_ne_nil hs
    refine ⟨z, r.dropFirst, by rw [rightAfter, if_pos hs, hz]; rfl, rfl, ?_, ?_⟩
    · rw [takenItems, if_pos hs, items_dropFirst, hz]; rfl
    · rw [takenChildren, if_pos hs, children_dropFirst, ← List.drop_one, List.take_append_drop]
  · exact ⟨b, r, by rw [rightAfter, if_neg hs], rfl, by rw [takenItems, if_neg hs]; rfl,
      by rw [takenChildren, if_neg hs]; rfl⟩

theorem rightRotateBlock_first (pnode u : Node) :
    rightRotateBlock pnode u 0 d = .ok (pnode, u) d := by
  rw [rightRotateBlock, if_pos rfl]; rfl

/-- What the left rotation makes of a leftmost child fits, because the merged node does. -/
theorem fits_firstTaken {f : Frame Nat Item} (hf : f = ⟨p, [], (b, r) :: rs⟩)
    (hh : d.Holds (f.plug D)) (hs : f.Beside h) (hD : Jointed h D)
    (hfit : RebalanceFits cap d.options f D) :
    cap.Fits ⟨D.tag, D.items ++ takenItems d.options f.right,
      D.children.map Tree.tag ++ (takenChildren d.options f.right).map Tree.tag⟩ := by
  obtain ⟨-, hsibs, hDh⟩ := holds_plug.mp hh
  obtain ⟨z, r', -, -, hti, htc⟩ := rightAfter_cons d.options b r rs
  have hroom : cap.room (D.items ++ b :: r.items) (D.children ++ r.children).length = true := by
    have := hfit.merged
    subst hf
    exact this
  refine ⟨cap.room_mono ?_ ?_ ?_ hroom, fun c hc => ?_⟩
  · rw [← hti, ← List.append_assoc, hf]
    exact List.sublist_append_left _ _
  · have := congrArg List.length htc
    rw [hf]
    simp only [List.length_append, List.length_map] at this ⊢
    omega
  · rw [show (D.children.map Tree.tag ++ (takenChildren d.options f.right).map
      Tree.tag).length = D.children.length + (takenChildren d.options f.right).length by simp]
    refine counted_taken hD hs.2 (fun hnil => by rw [hnil]; rfl) fun hne => ?_
    cases h with
    | zero => exact absurd hD.children_eq_nil hne
    | succ h => exact hD.length_children
  · rw [← List.cons_append] at hc
    rcases List.mem_append.mp hc with hc | hc
    · exact hDh.names c hc
    · exact names_takenChildren (fun x hx => hsibs x.2 (siblings_right (f := f) hx)) c hc

/-- The left rotation around a leftmost child.  Its copy `n` may be out of date if the right
neighbour can spare nothing: then it is not used. -/
theorem leftBalanceBlock_first {f : Frame Nat Item} {n : Node} (hf : f = ⟨p, [], (b, r) :: rs⟩)
    (hh : d.Holds (f.plug D)) (hplace : Places F (f.plug D).tags) (hs : f.Beside h)
    (hD : Jointed h D) (hfit : RebalanceFits cap d.options f D)
    (hn : n = nodeOf D ∨ d.options.canSpareAnElement r.items = false) :
    ∃ u d', leftBalanceBlock ⟨p, f.items, childTags f D.tag⟩ n 0 d =
        .ok (⟨p, (Frame.mk p [] (rightAfter d.options f.right)).items, childTags f D.tag⟩, u) d' ∧
      (∀ x ∈ rightAfter d.options f.right, d'.Holds x.2) ∧
      d'.at? D.tag = some (D.items ++ takenItems d.options f.right,
        D.children.map Tree.tag ++ (takenChildren d.options f.right).map Tree.tag) ∧
      Keeps {q | q ∉ neighbourTags f D} d d' ∧ d'.freelist = d.freelist := by
  obtain ⟨-, hsibs, hDh⟩ := holds_plug.mp hh
  have hrh : ∀ x ∈ f.right, d.Holds x.2 := fun x hx => hsibs x.2 (siblings_right (f := f) hx)
  have hfitu := fits_firstTaken hf hh hs hD hfit
  have hfitp := fits_parent hh hfit [] (by rw [hf]) (by rw [hf]; rfl)
  subst hf
  rcases hn with rfl | hspare
  · -- the copy is up to date
    obtain ⟨d', hrun, hh', hat, hk, hfl⟩ := leftBalanceBlock_hole [] (u := nodeOf D) hplace hs
      hrh rfl rfl hfitp hfitu
    exact ⟨_, d', hrun, hh', hat hDh.root, hk.mono fun q hq => not_written_right hq, hfl⟩
  · have hs' : ¬d.options.canSpareAnElement r.items = true := by simpa using hspare
    have hlen : ([] : List (PTree × Item)).length + 1 <
        (childTags ⟨p, [], (b, r) :: rs⟩ D.tag).length := by
      rw [length_childTags, List.length_cons, List.length_nil]
      omega
    have hrest := leftBalanceBlock_rest (d := d) (p := p) (u := n)
      (Frame.mk p [] ((b, r) :: rs)).items (hrh (b, r) List.mem_cons_self) hlen
      childTags_at_right hspare
    have hafter : rightAfter d.options ((b, r) :: rs) = (b, r) :: rs := by
      rw [rightAfter, if_neg hs']
    have hti : takenItems d.options ((b, r) :: rs) = [] := by rw [takenItems, if_neg hs']
    have htc : takenChildren d.options ((b, r) :: rs) = [] := by rw [takenChildren, if_neg hs']
    refine ⟨n, d, ?_, ?_, ?_, Keeps.refl _ d, rfl⟩
    · rw [hafter]
      exact hrest
    · rw [hafter]
      exact hrh
    · rw [hti, htc, List.append_nil, List.map_nil, List.append_nil]
      exact hDh.root

theorem beforeMerge_right {f : Frame Nat Item} {n : Node} (hf : f = ⟨p, [], (b, r) :: rs⟩)
    (hh : d.Holds (f.plug D)) (hplace : Places F (f.plug D).tags) (hs : f.Beside h)
    (hD : Jointed h D) (hfit : RebalanceFits cap d.options f D)
    (hn : n = nodeOf D ∨ d.options.canSpareAnElement r.items = false) :
    ∃ this bnode s its cs d', rebalanceRemove (nodeOf (f.plug D)) n 0 d = merge this bnode 1 d' ∧
      Mergeable d' ⟨p, [], rs⟩ D r b s this bnode 0 its cs ∧
      cap.Fits ⟨p, (Frame.mk p [] rs).items, childTags ⟨p, [], rs⟩ D.tag⟩ ∧
      Keeps {q | q ∉ neighbourTags f D} d d' ∧ d'.freelist = d.freelist := by
  obtain ⟨u, d₂, hrun₂, hrh₂, hpage, hk, hfl⟩ := leftBalanceBlock_first hf hh hplace hs hD hfit hn
  have hfitp := fits_parent hh hfit [] (by rw [hf]) (by rw [hf]; rfl)
  subst hf
  obtain ⟨-, hsibs, hDh⟩ := holds_plug.mp hh
  have hr : d.Holds r := hsibs r (by simp [Frame.siblings])
  have hru : Jointed h r := hs.2 (b, r) rfl
  obtain ⟨z, r', hra, hrtag, hti, htc⟩ := rightAfter_cons d.options b r rs
  rw [hra] at hrun₂ hrh₂ hfitp
  have hget : getNode r.tag d₂ = .ok (nodeOf r') d₂ :=
    hrtag ▸ (hrh₂ (z, r') List.mem_cons_self).getNode
  have hchild : ∀ {t w}, t ∈ neighbourhood ⟨p, [], (b, r) :: rs⟩ D → d.Holds t → w ∈ t.children →
      d₂.Holds w := fun ht hheld hw => hk.holds (hheld.child hw) fun q hq hm =>
    child_apart_neighbours hplace.nodup ht hw q hm hq
  refine ⟨⟨p, (Frame.mk p [] ((z, r') :: rs)).items, childTags ⟨p, [], (b, r) :: rs⟩ D.tag⟩,
    nodeOf r', z, _, _, d₂, ?_,
    { siblings := fun c hc => ?_, leftChildren := fun c hc => hchild List.mem_cons_self hDh hc,
      rightChildren := fun c hc => hchild (by simp [neighbourhood]) hr hc, page := hpage,
      items := ?_, children := ?_, leaf := fun hnil => ?_, bnodePage := hrtag, thisPage := rfl,
      child := rfl, separator := rfl, lt := ?_, thisItems := rfl,
      thisChildren := by simp [childTags] }, ?_, hk, hfl⟩
  · have hsnd : (nodeOf (Frame.plug ⟨p, [], (b, r) :: rs⟩ D)).children[0 + 1]? = some r.tag := by
      rw [nodeOf_plug]
      exact childTags_at_right
    refine (Prog.bind_ok (rightRotateBlock_first _ n)).trans ?_
    rw [nodeOf_plug] at hsnd ⊢
    refine (Prog.bind_ok hrun₂).trans ?_
    dsimp only
    rw [if_pos rfl, Prog.element_bind hsnd, Prog.bind_ok hget]
  · obtain ⟨x, hx, rfl⟩ : ∃ x ∈ rs, x.2 = c := by simpa [Frame.siblings] using hc
    exact hrh₂ x (List.mem_cons_of_mem _ hx)
  · rw [items_nodeOf, List.append_assoc, hti]
  · rw [children_nodeOf, List.append_assoc, ← List.map_append, htc]
  · have hDleaf : D.children = [] := by simpa using (List.append_eq_nil_iff.mp hnil).1
    have hz : h = 0 := hD.zero_of_children hDleaf
    subst hz
    have := hru.children_eq_nil
    rw [← htc] at this
    rw [children_nodeOf, (List.append_eq_nil_iff.mp this).2]; rfl
  · rw [length_childTags, List.length_cons]
    omega
  · exact hfitp.sublist rfl (by simp [Frame.items]) (by simp [childTags])
      (Or.inr (by rw [length_childTags, Frame.length_items]))

/-! ### The whole -/

theorem fits_mergedNode {f : Frame Nat Item} (hh : d.Holds (f.plug D))
    (hfit : RebalanceFits cap d.options f D) : cap.Fits (nodeOf (mergedNode d.options f D)) := by
  obtain ⟨-, hsibs, hDh⟩ := holds_plug.mp hh
  refine ⟨by rw [children_nodeOf, List.length_map]; exact hfit.merged, ?_⟩
  obtain ⟨p, left, right⟩ := f
  have hrh : ∀ x ∈ right, d.Holds x.2 := fun x hx =>
    hsibs x.2 (siblings_right (f := ⟨p, left, right⟩) hx)
  intro c hc
  rw [children_nodeOf] at hc
  cases left with
  | cons x ls =>
    have hlh : d.Holds x.1 := hsibs x.1 (siblings_left (f := ⟨p, x :: ls, right⟩) List.mem_cons_self)
    rcases List.mem_cons.mp hc with rfl | hc
    · exact hlh.names _ List.mem_cons_self
    · rw [children_mergedNode_left, List.map_append, List.map_append] at hc
      rcases List.mem_append.mp hc with hc | hc
      · exact hlh.names c (List.mem_cons_of_mem _ hc)
      · rcases List.mem_append.mp hc with hc | hc
        · exact hDh.names c (List.mem_cons_of_mem _ hc)
        · exact names_takenChildren hrh c hc
  | nil =>
    cases right with
    | nil => exact absurd rfl hfit.sibling
    | cons x rs =>
      rcases List.mem_cons.mp hc with rfl | hc
      · exact hDh.names _ List.mem_cons_self
      · have hchildren : (mergedNode d.options ⟨p, [], x :: rs⟩ D).children =
            D.children ++ x.2.children := children_join D x.1 x.2
        rw [hchildren, List.map_append] at hc
        rcases List.mem_append.mp hc with hc | hc
        · exact hDh.names c (List.mem_cons_of_mem _ hc)
        · exact (hrh x List.mem_cons_self).names c (List.mem_cons_of_mem _ hc)

/-- The page a merge gives up: that of the node, or that of its right neighbour. -/
def droppedPage (f : Frame Nat Item) (D : PTree) : Nat :=
  match f.left, f.right with
  | [], (_, r) :: _ => r.tag
  | _, _ => D.tag

theorem tags_rebalance (o : Options) {f : Frame Nat Item} (hsib : f.siblings ≠ []) :
    (droppedPage f D :: (rebalance o f D).tags).Perm (f.plug D).tags := by
  obtain ⟨p, left, right⟩ := f
  cases left with
  | cons x ls => exact tags_merge_left o
  | nil =>
    cases right with
    | nil => exact absurd rfl hsib
    | cons x rs => exact tags_merge_right

/-- **`rebalance_remove` does what `rebalance` says**, if its copy of the node is up to
date, or is not used. -/
theorem rebalanceRemove_holds {f : Frame Nat Item} {n : Node} (hh : d.Holds (f.plug D))
    (hplace : Places F (f.plug D).tags) (hs : f.Beside h) (hD : Jointed h D)
    (hfit : RebalanceFits cap d.options f D)
    (hn : n = nodeOf D ∨
      f.left = [] ∧ ∀ x ∈ f.right.head?, d.options.canSpareAnElement x.2.items = false) :
    ∃ d', rebalanceRemove (nodeOf (f.plug D)) n f.left.length d = .ok () d' ∧
      d'.Holds (rebalance d.options f D) ∧ Keeps F d d' ∧
      d'.freelist = d.freelist.releasePage (droppedPage f D) := by
  have hF : F ⊆ {q | q ∉ neighbourTags f D} := fun q hq hm =>
    hplace.outside q (mem_tags_of_neighbourTags hm) hq
  have hplace' := hplace.perm (tags_rebalance d.options hfit.sibling)
  have hfitm := fits_mergedNode hh hfit
  obtain ⟨p, left, right⟩ := f
  cases left with
  | cons x ls =>
    obtain ⟨l, a⟩ := x
    rcases hn with rfl | ⟨hl, -⟩
    · obtain ⟨this, bnode, s, its, cs, d₂, hrun, hm, hfitg, hk, hfl⟩ :=
        beforeMerge_left rfl hh hplace hs hD hfit
      have hdrop : droppedPage ⟨p, (l, a) :: ls, right⟩ D =
          (takeFromRight d.options D right).tag := by rw [tag_takeFromRight]; rfl
      rw [hdrop] at hplace' ⊢
      obtain ⟨d₃, hrun₃, hh₃, hk₃, hfl₃⟩ := merge_ok hm hplace' hfitm hfitg
      exact ⟨d₃, hrun.trans hrun₃, hh₃, (hk.mono hF).trans hk₃, by rw [hfl₃, hfl]⟩
    · cases hl
  | nil =>
    cases right with
    | nil => exact absurd rfl hfit.sibling
    | cons x rs =>
      obtain ⟨b, r⟩ := x
      obtain ⟨this, bnode, s, its, cs, d₂, hrun, hm, hfitg, hk, hfl⟩ :=
        beforeMerge_right rfl hh hplace hs hD hfit (hn.imp id fun h => h.2 (b, r) rfl)
      obtain ⟨d₃, hrun₃, hh₃, hk₃, hfl₃⟩ := merge_ok hm hplace' hfitm hfitg
      exact ⟨d₃, hrun.trans hrun₃, hh₃, (hk.mono hF).trans hk₃, by rw [hfl₃, hfl]; rfl⟩

theorem rebalanceRemove_ok {f : Frame Nat Item} {n : Node} (ho : d.Owns F (f.plug D))
    (hs : ∀ c ∈ f.siblings, Uniform h c) (hD : Uniform h D)
    (hfit : RebalanceFits cap d.options f D)
    (hn : n = nodeOf D ∨
      f.left = [] ∧ ∀ x ∈ f.right.head?, d.options.canSpareAnElement x.2.items = false) :
    ∃ d', rebalanceRemove (nodeOf (f.plug D)) n f.left.length d = .ok () d' ∧
      d'.Owns F (rebalance d.options f D) ∧ Keeps F d d' ∧
      d'.freelist.maxPage = d.freelist.maxPage ∧
      Allots d.freelist d'.freelist (f.plug D).tags (rebalance d.options f D).tags := by
  obtain ⟨d', hrun, hh', hk, hfl⟩ := rebalanceRemove_holds ho.holds ho.layout.places
    (Frame.beside_of_uniform hs) hD.jointed hfit hn
  have htags := tags_rebalance d.options (D := D) hfit.sibling
  refine ⟨d', hrun, ⟨hh', ?_⟩, hk, by rw [hfl]; rfl, ?_⟩
  · rw [hfl]
    exact (ho.layout.perm htags).release
  · rw [hfl]
    exact (Allots.of_subset htags.symm.subset).trans (Allots.release _ _ _)

end Rebalance

end Dal

end Toocal
