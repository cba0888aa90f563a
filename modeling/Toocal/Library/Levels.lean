import Mathlib.Data.List.Nodup
import Toocal.Library.Everywhere

/-!
# Nodes on pages, level by level

`Levelled l lev page`: every page to which `lev` gives a level holds a node with items that
meet `l`.  A node of level 0 has no children; above, a node has one child more than items, and
its children are of the level below (`Linked`).  No page has two levels, but a page may be the
child of many nodes, and need not be the child of one.

* `Levelled.write`: a node may be written where its level fits.
* `Levelled.exists_tree`: below a page of level `k` stands a tree all of whose leaves are at
  depth `k`.
* `levelled_of_tree`: a tree on pages of its own gives its nodes their levels.
-/

namespace Multiway

variable {ι α : Type}

/-- The children of a node of level `k` with `n` items. -/
def Linked (lev : ι → Nat → Prop) : Nat → Nat → List ι → Prop
  | 0, _, cs => cs = []
  | k + 1, n, cs => cs.length = n + 1 ∧ ∀ c ∈ cs, lev c k

/-- A node of level `k`. -/
structure Layered (l : α → Prop) (lev : ι → Nat → Prop) (k : Nat) (its : List α) (cs : List ι) :
    Prop where
  items : ∀ a ∈ its, l a
  linked : Linked lev k its.length cs

structure Levelled (l : α → Prop) (lev : ι → Nat → Prop)
    (page : ι → Option (List α × List ι)) : Prop where
  single : ∀ {p j k}, lev p j → lev p k → j = k
  node : ∀ {p k}, lev p k → ∃ its cs, page p = some (its, cs) ∧ Layered l lev k its cs

/-- The page `p` has level `k` besides. -/
def grow (lev : ι → Nat → Prop) (p : ι) (k : Nat) : ι → Nat → Prop :=
  fun q j => lev q j ∨ q = p ∧ j = k

variable {l l' : α → Prop} {lev lev' : ι → Nat → Prop} {k m n i : Nat} {cs ds : List ι}
  {its : List α} {p c : ι} {page page' : ι → Option (List α × List ι)}

theorem grow_of_lev (h : lev p k) : grow lev p k = lev := by
  funext q j
  refine propext ⟨fun hq => ?_, .inl⟩
  rcases hq with hq | ⟨rfl, rfl⟩
  · exact hq
  · exact h

theorem grow_single {lev : ι → Nat → Prop} (hp : ∀ j, lev p j → j = k)
    (hsingle : ∀ q i j, lev q i → lev q j → i = j) {q : ι} {i j : Nat} (hi : grow lev p k q i)
    (hj : grow lev p k q j) : i = j := by
  rcases hi with hi | ⟨rfl, rfl⟩
  · rcases hj with hj | ⟨rfl, rfl⟩
    · exact hsingle q i j hi hj
    · exact hp i hi
  · rcases hj with hj | ⟨-, rfl⟩
    · exact (hp j hj).symm
    · rfl

/-! ## The children of a node -/

namespace Linked

theorem mono (h : Linked lev k n cs) (hle : ∀ p j, lev p j → lev' p j) : Linked lev' k n cs := by
  cases k with
  | zero => exact h
  | succ k => exact ⟨h.1, fun c hc => hle c k (h.2 c hc)⟩

theorem zero_of_nil (h : Linked lev k n []) : k = 0 := by
  cases k with
  | zero => rfl
  | succ k => cases h.1

theorem child (h : Linked lev k n cs) (hc : c ∈ cs) : ∃ j, k = j + 1 ∧ lev c j := by
  cases k with
  | zero =>
    rw [show cs = [] from h] at hc
    cases hc
  | succ k => exact ⟨k, rfl, h.2 c hc⟩

theorem append (h : Linked lev k n cs) (h' : Linked lev k m ds) :
    Linked lev k (n + 1 + m) (cs ++ ds) := by
  cases k with
  | zero =>
    rw [show cs = [] from h, show ds = [] from h']
    rfl
  | succ k =>
    refine ⟨?_, fun c hc => (List.mem_append.mp hc).elim (h.2 c) (h'.2 c)⟩
    rw [List.length_append, h.1, h'.1]
    omega

theorem take (h : Linked lev k n cs) (hi : i < n) : Linked lev k i (cs.take (i + 1)) := by
  cases k with
  | zero =>
    rw [show cs = [] from h]
    exact List.take_nil
  | succ k =>
    refine ⟨?_, fun c hc => h.2 c (List.mem_of_mem_take hc)⟩
    rw [List.length_take, h.1]
    omega

theorem drop (h : Linked lev k n cs) (hi : i < n) :
    Linked lev k (n - (i + 1)) (cs.drop (i + 1)) := by
  cases k with
  | zero =>
    rw [show cs = [] from h]
    exact List.drop_nil
  | succ k =>
    refine ⟨?_, fun c hc => h.2 c (List.mem_of_mem_drop hc)⟩
    rw [List.length_drop, h.1]
    omega

theorem dropLast (h : Linked lev k (n + 1) cs) : Linked lev k n cs.dropLast := by
  cases k with
  | zero =>
    rw [show cs = [] from h]
    rfl
  | succ k =>
    refine ⟨?_, fun c hc => h.2 c ((List.dropLast_sublist cs).subset hc)⟩
    rw [List.length_dropLast, h.1]
    rfl

theorem tail (h : Linked lev k (n + 1) cs) : Linked lev k n cs.tail := by
  cases k with
  | zero =>
    rw [show cs = [] from h]
    rfl
  | succ k =>
    refine ⟨?_, fun c hc => h.2 c (List.mem_of_mem_tail hc)⟩
    rw [List.length_tail, h.1]
    rfl

theorem cons_last (h : Linked lev k n cs) (h' : Linked lev k m ds) :
    Linked lev k (n + 1) (ds.getLast?.toList ++ cs) := by
  cases k with
  | zero =>
    rw [show cs = [] from h, show ds = [] from h']
    rfl
  | succ k =>
    obtain ⟨c, hc⟩ : ∃ c, ds.getLast? = some c := by
      rw [← Option.ne_none_iff_exists', ne_eq, List.getLast?_eq_none_iff]
      rintro rfl
      cases h'.1
    rw [hc]
    refine ⟨by simp only [Option.toList_some, List.singleton_append, List.length_cons, h.1], ?_⟩
    simp only [Option.toList_some, List.singleton_append, List.mem_cons]
    rintro d (rfl | hd)
    · exact h'.2 d (List.mem_of_getLast? hc)
    · exact h.2 d hd

theorem snoc_first (h : Linked lev k n cs) (h' : Linked lev k m ds) :
    Linked lev k (n + 1) (cs ++ ds.head?.toList) := by
  cases k with
  | zero =>
    rw [show cs = [] from h, show ds = [] from h']
    rfl
  | succ k =>
    cases ds with
    | nil => cases h'.1
    | cons c ds =>
      refine ⟨by simp only [List.head?_cons, Option.toList_some, List.length_append,
        List.length_singleton, h.1], ?_⟩
      simp only [List.head?_cons, Option.toList_some, List.mem_append, List.mem_singleton]
      rintro d (hd | rfl)
      · exact h.2 d hd
      · exact h'.2 d List.mem_cons_self

theorem insert (h : Linked lev (k + 1) n cs) (hc : lev c k) (hi : i ≤ cs.length) :
    Linked lev (k + 1) (n + 1) (cs.take i ++ c :: cs.drop i) := by
  refine ⟨?_, fun d hd => ?_⟩
  · rw [List.length_append, List.length_cons, List.length_take, List.length_drop, h.1]
    have := h.1
    omega
  · rcases List.mem_append.mp hd with hd | hd
    · exact h.2 d (List.mem_of_mem_take hd)
    · rcases List.mem_cons.mp hd with rfl | hd
      · exact hc
      · exact h.2 d (List.mem_of_mem_drop hd)

theorem eraseIdx (h : Linked lev (k + 1) (n + 1) cs) (hi : i < cs.length) :
    Linked lev (k + 1) n (cs.eraseIdx i) := by
  refine ⟨?_, fun d hd => h.2 d (List.mem_of_mem_eraseIdx hd)⟩
  rw [List.length_eraseIdx_of_lt hi, h.1]
  rfl

end Linked

theorem Layered.mono (h : Layered l lev k its cs) (hl : ∀ a, l a → l' a)
    (hle : ∀ p j, lev p j → lev' p j) : Layered l' lev' k its cs :=
  ⟨fun a ha => hl a (h.items a ha), h.linked.mono hle⟩

/-! ## The pages -/

theorem exists_map_eq {β : Type} {f : β → ι} {P : β → Prop} (h : ∀ c ∈ cs, ∃ b, f b = c ∧ P b) :
    ∃ bs : List β, bs.map f = cs ∧ ∀ b ∈ bs, P b := by
  induction cs with
  | nil => exact ⟨[], rfl, fun b hb => by cases hb⟩
  | cons c cs ih =>
    obtain ⟨⟨b, rfl, hb⟩, hcs⟩ := List.forall_mem_cons.mp h
    obtain ⟨bs, rfl, hbs⟩ := ih hcs
    exact ⟨b :: bs, rfl, List.forall_mem_cons.mpr ⟨hb, hbs⟩⟩

theorem Tree.Uniform.unique {j k : Nat} {t : Tree ι α} (hj : Tree.Uniform j t)
    (hk : Tree.Uniform k t) : j = k := by
  induction hj generalizing k with
  | leaf p its => exact (hk.zero_of_children rfl).symm
  | inner p its cs hlen _ ih =>
    cases cs with
    | nil => cases hlen
    | cons c cs =>
      obtain ⟨m, rfl, hm⟩ := hk.of_mem List.mem_cons_self
      rw [ih c List.mem_cons_self hm]

namespace Levelled

theorem mono (h : Levelled l lev page) (hl : ∀ a, l a → l' a) : Levelled l' lev page where
  single := h.single
  node hp := by
    obtain ⟨its, cs, hpage, hnode⟩ := h.node hp
    exact ⟨its, cs, hpage, hnode.mono hl fun _ _ => id⟩

/-- **A node is written** to a page of its level, or to one that has none. -/
theorem write (h : Levelled l lev page) (hp : ∀ j, lev p j → j = k)
    (hnode : Layered l lev k its cs) (hwritten : page' p = some (its, cs))
    (hrest : ∀ q, q ≠ p → page' q = page q) : Levelled l (grow lev p k) page' where
  single hi hj := grow_single hp (fun _ _ _ => h.single) hi hj
  node := by
    intro q j hq
    by_cases hqp : q = p
    · subst hqp
      obtain rfl : j = k := hq.elim (hp j) (·.2)
      exact ⟨its, cs, hwritten, hnode.mono (fun _ => id) fun _ _ => .inl⟩
    · obtain ⟨its', cs', hpage, hnode'⟩ := h.node (hq.resolve_right fun hq => hqp hq.1)
      exact ⟨its', cs', (hrest q hqp).trans hpage, hnode'.mono (fun _ => id) fun _ _ => .inl⟩

/-- **Below a page of level `k` stands a tree.** -/
theorem exists_tree (h : Levelled l lev page) (hp : lev p k) : ∃ t : Tree ι α, t.tag = p ∧
    Tree.Uniform k t ∧ (∀ u ∈ t.subtrees, page u.tag = some (u.items, u.children.map Tree.tag)) ∧
    ∀ a ∈ t.inorder, l a := by
  induction k generalizing p with
  | zero =>
    obtain ⟨its, cs, hpage, hitems, hlinked⟩ := h.node hp
    obtain rfl : cs = [] := hlinked
    refine ⟨.node p its [], rfl, .leaf p its, ?_, ?_⟩
    · rw [Tree.subtrees_node]
      simpa using hpage
    · rwa [Tree.inorder_leaf]
  | succ k ih =>
    obtain ⟨its, cs, hpage, hitems, hlen, hcs⟩ := h.node hp
    obtain ⟨ts, rfl, hts⟩ := exists_map_eq fun c hc => ih (hcs c hc)
    refine ⟨.node p its ts, rfl, .inner p its ts ?_ fun t ht => (hts t ht).1, ?_, ?_⟩
    · rwa [List.length_map] at hlen
    · rw [Tree.subtrees_node]
      refine List.forall_mem_cons.mpr ⟨hpage, fun u hu => ?_⟩
      obtain ⟨t, ht, hut⟩ := List.mem_flatMap.mp hu
      exact (hts t ht).2.1 u hut
    · intro a ha
      rcases Tree.mem_inorder_iff.mp ha with ha | ⟨t, ht, ha⟩
      · exact hitems a ha
      · exact (hts t ht).2.2 a ha

end Levelled

/-- **A tree on pages of its own** gives its nodes their levels. -/
theorem levelled_of_tree {t : Tree ι α} (hnodup : t.tags.Nodup)
    (hpages : ∀ u ∈ t.subtrees, page u.tag = some (u.items, u.children.map Tree.tag)) :
    Levelled (· ∈ t.inorder) (fun p k => ∃ u ∈ t.subtrees, u.tag = p ∧ Tree.Uniform k u) page where
  single := by
    rintro p j k ⟨u, hu, rfl, hj⟩ ⟨v, hv, htag, hk⟩
    obtain rfl := List.inj_on_of_nodup_map hnodup hv hu htag
    exact hj.unique hk
  node := by
    rintro p k ⟨u, hu, rfl, hk⟩
    refine ⟨u.items, u.children.map Tree.tag, hpages u hu, fun a ha => ?_, ?_⟩
    · exact Tree.each_forall_iff.mpr (fun _ h => h) u hu a ha
    · cases hk with
      | leaf q its => rfl
      | inner q its cs hlen hcs =>
        refine ⟨by rw [Tree.children_node, List.length_map, hlen]; rfl, ?_⟩
        intro c hc
        obtain ⟨v, hv, rfl⟩ := List.mem_map.mp hc
        exact ⟨v, Tree.subtrees_subset hu (Tree.subtrees_child hv (Tree.mem_subtrees_self v)), rfl,
          hcs v hv⟩

end Multiway
