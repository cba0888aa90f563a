import Toocal.Tree.PageTree

/-!
# Searching and reading paths

`findKeyInNode` scans as a node search has to (`scans_findKeyInNode`), so the
search library applies to the searches of the program.  The rest says what the
descending programs read off the pages of a tree, for any store:

* `findKeyHelper` takes the path the library's `locate` takes (`findKeyHelper_ok`).
* `getNodes` reads the nodes of a path (`getNodes_ok`); `pathNodes` lists them.
* `descendRightmost` follows the last children (`descendRightmost_ok`).
* `find` answers by the in-order sequence (`find_ok`).
-/

namespace Toocal

open Outcomes Multiway Multiway.Tree

/-! ## Scanning a node -/

theorem findKeyInNodeFrom_spec {key : Bytes} : ∀ {its : List Item} {index i : Nat} {b : Bool},
    findKeyInNodeFrom key index its = (b, i) → ∃ j, i = index + j ∧ j ≤ its.length ∧
      (∀ a ∈ its.take j, KeyLt a.key key) ∧
      (b = true → ∃ a, its[j]? = some a ∧ a.key = key) ∧
      (b = false → ∀ a, its[j]? = some a → KeyLt key a.key) := by
  intro its
  induction its with
  | nil =>
    intro index i b h
    simp only [findKeyInNodeFrom, Prod.mk.injEq] at h
    obtain ⟨rfl, rfl⟩ := h
    exact ⟨0, by simp⟩
  | cons item rest ih =>
    intro index i b h
    rw [findKeyInNodeFrom] at h
    split at h
    next heq =>
      simp only [Prod.mk.injEq] at h
      obtain ⟨rfl, rfl⟩ := h
      exact ⟨0, rfl, by simp, by simp, fun _ => ⟨item, rfl, bytescmp_eq_zero_iff.mp heq⟩, by simp⟩
    next hne =>
      split at h
      next hgt =>
        simp only [Prod.mk.injEq] at h
        obtain ⟨rfl, rfl⟩ := h
        refine ⟨0, rfl, by simp, by simp, by simp, fun _ a ha => ?_⟩
        obtain rfl : item = a := by simpa using ha
        exact bytescmp_eq_one_iff.mp hgt
      next hngt =>
        obtain ⟨j, rfl, hj, htake, hhit, hmiss⟩ := ih h
        have hlt : KeyLt item.key key := by
          rcases bytescmp_range item.key key with h | h | h
          · exact h
          · exact absurd h hne
          · exact absurd h hngt
        refine ⟨j + 1, by omega, by simpa using hj, ?_, by simpa using hhit, by simpa using hmiss⟩
        intro a ha
        rw [List.take_succ_cons, List.mem_cons] at ha
        rcases ha with rfl | ha
        · exact hlt
        · exact htake a ha

/-- **`find_key_in_node` scans a sorted node for the key.** -/
theorem scans_findKeyInNode (key : Bytes) : Scans KeyLt Item.key key (findKeyInNode key) where
  le its := by
    obtain ⟨j, hj, hle, _⟩ := findKeyInNodeFrom_spec (Prod.mk.eta (p := findKeyInNode key its)).symm
    omega
  hit h := by
    obtain ⟨j, rfl, _, _, hhit, _⟩ := findKeyInNodeFrom_spec h
    obtain ⟨a, ha, hk⟩ := hhit rfl
    exact ⟨a, by rwa [Nat.zero_add], hk⟩
  miss {its i} hs h := by
    obtain ⟨j, rfl, _, htake, _, hmiss⟩ := findKeyInNodeFrom_spec h
    rw [Nat.zero_add]
    refine ⟨htake, fun a ha => ?_⟩
    -- the first item not passed is above the key, and the rest are above it
    cases hd : its.drop j with
    | nil => rw [hd] at ha; cases ha
    | cons b rest =>
      have hb : KeyLt key b.key := hmiss rfl b (by
        have := congrArg List.head? hd
        rwa [List.head?_drop] at this)
      have hs' : Sorted KeyLt Item.key (b :: rest) := hd ▸ hs.sublist (List.drop_sublist j its)
      rw [hd] at ha
      rcases List.mem_cons.mp ha with rfl | ha
      · exact hb
      · exact keyLt_trans hb ((List.pairwise_cons.mp hs').1 a ha)

/-! ## The item of a key -/

/-- The item of a key in a sequence, the first one if there are more. -/
def itemOf (key : Bytes) (l : List Item) : Option Item := l.find? fun a => a.key = key

theorem itemOf_eq_some {key : Bytes} {l : List Item} (hs : Sorted KeyLt Item.key l) {a : Item} :
    itemOf key l = some a ↔ a ∈ l ∧ a.key = key := by
  constructor
  · intro h
    exact ⟨List.mem_of_find?_eq_some h, by simpa using List.find?_some h⟩
  · rintro ⟨ha, hk⟩
    cases hf : itemOf key l with
    | none => exact absurd hk (by simpa using List.find?_eq_none.mp hf a ha)
    | some b =>
      have hb : b.key = key := by simpa using List.find?_some hf
      rw [hs.injOn (List.mem_of_find?_eq_some hf) ha (hb.trans hk.symm)]

theorem itemOf_eq_none {key : Bytes} {l : List Item} :
    itemOf key l = none ↔ ∀ a ∈ l, a.key ≠ key := by
  simp [itemOf, List.find?_eq_none]

theorem itemOf_insert {l₁ l₂ : List Item} {a : Item}
    (hs : Sorted KeyLt Item.key (l₁ ++ a :: l₂)) (key : Bytes) :
    itemOf key (l₁ ++ a :: l₂) = if key = a.key then some a else itemOf key (l₁ ++ l₂) := by
  split
  next h => exact (itemOf_eq_some hs).mpr ⟨by simp, h.symm⟩
  next h =>
    have ha : ¬a.key = key := fun he => h he.symm
    simp [itemOf, List.find?_append, ha]

theorem itemOf_removed {l₁ l₂ : List Item} {a : Item}
    (hs : Sorted KeyLt Item.key (l₁ ++ a :: l₂)) : itemOf a.key (l₁ ++ l₂) = none := by
  rw [itemOf_eq_none]
  intro b hb he
  obtain ⟨-, h2, h3⟩ := Sorted.append_iff.mp hs
  rcases List.mem_append.mp hb with hb | hb
  · exact irrefl (r := KeyLt) _ (he ▸ h3 b hb a List.mem_cons_self)
  · exact irrefl (r := KeyLt) _ (he ▸ (List.pairwise_cons.mp h2).1 b hb)

section Search

variable {π : Type} {t : Tree π Item} {key : Bytes} {x : Path π Item}

theorem exists_path (key : Bytes) (hr : Regular t) :
    ∃ x, locate (findKeyInNode key) t = some x ∧ IsPath (findKeyInNode key) t x :=
  locate_isPath (scans_findKeyInNode key).le hr

/-- **A search finds the item of its key.** -/
theorem item_of_path (hx : IsPath (findKeyInNode key) t x) (hs : Sorted KeyLt Item.key t.inorder) :
    (if x.found then x.focus.items[x.index]? else none) = itemOf key t.inorder := by
  cases hf : x.found with
  | false =>
    rw [if_neg (by simp)]
    exact (itemOf_eq_none.mpr (hx.not_mem (scans_findKeyInNode key) hs hf)).symm
  | true =>
    obtain ⟨a, ha, hk, hmem⟩ := hx.mem (scans_findKeyInNode key) hf
    rw [if_pos rfl, ha]
    exact ((itemOf_eq_some hs).mpr ⟨hmem, hk⟩).symm

theorem found_iff (hx : IsPath (findKeyInNode key) t x) (hs : Sorted KeyLt Item.key t.inorder) :
    x.found = true ↔ itemOf key t.inorder ≠ none := by
  rw [← item_of_path hx hs]
  cases hf : x.found with
  | false => simp
  | true =>
    obtain ⟨a, ha, -⟩ := hx.mem (scans_findKeyInNode key) hf
    simp [ha]

end Search

/-! ## The nodes of a path -/

/-- The nodes a path passes, the focus last. -/
def pathNodes : List (Frame Nat Item) → PTree → List Node
  | [], u => [nodeOf u]
  | f :: fs, u => nodeOf (f.plug (plugAll fs u)) :: pathNodes fs u

/-- The child indexes along a path. -/
def pathIndexes {π : Type} (fs : List (Frame π Item)) : List Nat := fs.map fun f => f.left.length

@[simp] theorem pathIndexes_nil {π : Type} : pathIndexes ([] : List (Frame π Item)) = [] := rfl
@[simp] theorem pathIndexes_cons {π : Type} (f : Frame π Item) (fs) :
    pathIndexes (f :: fs) = f.left.length :: pathIndexes fs := rfl
@[simp] theorem pathIndexes_append {π : Type} (fs gs : List (Frame π Item)) :
    pathIndexes (fs ++ gs) = pathIndexes fs ++ pathIndexes gs := List.map_append

@[simp] theorem length_pathNodes (fs : List (Frame Nat Item)) (u : PTree) :
    (pathNodes fs u).length = fs.length + 1 := by
  induction fs with
  | nil => rfl
  | cons f fs ih => simp [pathNodes, ih]

theorem pathNodes_head (fs : List (Frame Nat Item)) (u : PTree) :
    (pathNodes fs u)[0]? = some (nodeOf (plugAll fs u)) := by cases fs <;> rfl

theorem pathNodes_at (gs hs : List (Frame Nat Item)) (u : PTree) :
    (pathNodes (gs ++ hs) u)[gs.length]? = some (nodeOf (plugAll hs u)) := by
  induction gs with
  | nil => exact pathNodes_head hs u
  | cons g gs ih => exact ih

theorem pathNodes_eq_cons (fs : List (Frame Nat Item)) (u : PTree) :
    pathNodes fs u = nodeOf (plugAll fs u) :: (pathNodes fs u).tail := by cases fs <;> rfl

theorem mem_pathNodes {fs : List (Frame Nat Item)} {u : PTree} {n : Node}
    (hn : n ∈ pathNodes fs u) :
    ∃ v ∈ (plugAll fs u).subtrees, n = nodeOf v := by
  induction fs with
  | nil => exact ⟨u, mem_subtrees_self u, List.mem_singleton.mp hn⟩
  | cons f fs ih =>
    rcases List.mem_cons.mp hn with rfl | hn
    · exact ⟨_, mem_subtrees_self _, rfl⟩
    · obtain ⟨v, hv, rfl⟩ := ih hn
      exact ⟨v, subtrees_child (by simp) hv, rfl⟩

theorem nodeOf_plug_congr {f : Frame Nat Item} {t u : PTree} (h : t.tag = u.tag) :
    nodeOf (f.plug t) = nodeOf (f.plug u) := by
  simp [nodeOf, h]

theorem childAt_plug (f : Frame Nat Item) (t : PTree) :
    (nodeOf (f.plug t)).children[f.left.length]? = some t.tag := by
  simp

theorem isLeaf_plug (f : Frame Nat Item) (t : PTree) : (nodeOf (f.plug t)).isLeaf = false := by
  rw [isLeaf_nodeOf, Frame.children_plug]
  simp

theorem length_frames_lt (fs : List (Frame Nat Item)) (u : PTree) :
    fs.length < (plugAll fs u).tags.length := by
  induction fs with
  | nil => rw [plugAll_nil, tags_eq]; simp
  | cons f fs ih =>
    rw [plugAll_cons, (f.tags_plug _).length_eq, List.length_append, Frame.tags]
    simp only [List.length_cons]
    omega

theorem length_frames_lt_tags {p : List Item → Bool × Nat} {t : PTree} {x : Path Nat Item}
    (hx : IsPath p t x) : x.frames.length < t.tags.length := by
  have hlt := length_frames_lt x.frames x.focus
  rwa [hx.eq] at hlt

theorem Dal.Owns.length_frames_lt {cap : Capacity} {d : Dal (Shelf cap)} {F : Set Nat} {t : PTree}
    {p : List Item → Bool × Nat} {x : Path Nat Item} (ho : d.Owns F t) (hx : IsPath p t x) :
    x.frames.length < d.fuel :=
  (length_frames_lt_tags hx).trans ho.length_tags_lt

namespace Dal

variable {φ : Type} [PageStore φ] {d : Dal φ} {fs : List (Frame Nat Item)} {u : PTree}

theorem Reads.getNode {t : PTree} (h : d.Reads t) : Dal.getNode t.tag d = .ok (nodeOf t) d :=
  h t (mem_subtrees_self t)

theorem Reads.plug {f : Frame Nat Item} {t : PTree} (h : d.Reads (f.plug t)) : d.Reads t :=
  h.child (by simp)

theorem Reads.tail {f : Frame Nat Item} (h : d.Reads (plugAll (f :: fs) u)) :
    d.Reads (plugAll fs u) := h.plug

theorem Reads.focus (h : d.Reads (plugAll fs u)) : d.Reads u := by
  induction fs with
  | nil => exact h
  | cons f fs ih => exact ih h.tail

theorem findKeyHelper_ok {key : Bytes} (exact : Bool) {index : Nat} {found : Bool}
    (hr : d.Reads (plugAll fs u))
    (hdown : ∀ f ∈ fs, findKeyInNode key f.items = (false, f.left.length))
    (hstop : findKeyInNode key u.items = (found, index)) (hleaf : found = false → u.children = []) :
    ∀ (fuel : Nat) (anc : List Nat), fs.length < fuel →
      findKeyHelper key exact fuel (nodeOf (plugAll fs u)) anc d =
        .ok (if found || !exact then some (index, nodeOf u) else none, anc ++ pathIndexes fs) d := by
  induction fs with
  | nil =>
    intro fuel anc hfuel
    cases fuel with
    | zero => simp at hfuel
    | succ fuel =>
      rw [plugAll_nil, findKeyHelper, items_nodeOf, hstop]
      cases found with
      | true => simp
      | false => cases exact <;> simp [isLeaf_nodeOf, hleaf rfl]
  | cons f fs ih =>
    intro fuel anc hfuel
    cases fuel with
    | zero => simp at hfuel
    | succ fuel =>
      have hf := hdown f List.mem_cons_self
      have hdown' : ∀ g ∈ fs, findKeyInNode key g.items = (false, g.left.length) :=
        fun g hg => hdown g (List.mem_cons_of_mem f hg)
      rw [plugAll_cons, findKeyHelper, items_nodeOf, Frame.items_plug, hf]
      simp only [isLeaf_plug, Bool.false_eq_true, if_false]
      rw [Prog.element_bind (childAt_plug f _), Prog.bind_ok hr.tail.getNode,
        ih hr.tail hdown' fuel _ (by simpa using hfuel)]
      simp

theorem findKey_ok {key : Bytes} (exact : Bool) {t : PTree} {x : Path Nat Item} (hr : d.Reads t)
    (hx : IsPath (findKeyInNode key) t x) (hfuel : x.frames.length < d.fuel) :
    findKey (nodeOf t) key exact d =
      .ok (if x.found || !exact then some (x.index, nodeOf x.focus) else none,
        0 :: pathIndexes x.frames) d := by
  obtain ⟨fs, u, index, found⟩ := x
  obtain ⟨rfl, hdown, hstop, hleaf⟩ := hx
  exact findKeyHelper_ok exact hr hdown hstop hleaf d.fuel [0] hfuel

theorem descendRightmost_ok (hr : d.Reads (plugAll fs u))
    (hright : ∀ f ∈ fs, f.right = []) (hleaf : u.children = []) :
    ∀ (fuel : Nat) (aff : List Nat), fs.length < fuel →
      descendRightmost fuel (nodeOf (plugAll fs u)) aff d =
        .ok (nodeOf u, aff ++ pathIndexes fs) d := by
  induction fs with
  | nil =>
    intro fuel aff hfuel
    cases fuel with
    | zero => simp at hfuel
    | succ fuel => simp [descendRightmost, isLeaf_nodeOf, hleaf]
  | cons f fs ih =>
    intro fuel aff hfuel
    cases fuel with
    | zero => simp at hfuel
    | succ fuel =>
      have hf : f.right = [] := hright f List.mem_cons_self
      have hlast : (nodeOf (f.plug (plugAll fs u))).children.length - 1 =
          f.left.length := by simp [hf]
      rw [plugAll_cons, descendRightmost]
      simp only [isLeaf_plug, Bool.false_eq_true, if_false, hlast]
      rw [Prog.element_bind (childAt_plug f _),
        Prog.bind_ok (Prog.orPanic_ok hr.tail.getNode),
        ih hr.tail (fun g hg => hright g (List.mem_cons_of_mem f hg)) fuel _ (by simpa using hfuel)]
      simp

end Dal

namespace Collection

section

variable {φ : Type} {c : Collection φ}

theorem onDal_ok {α : Type} {x : Prog Error (Dal φ) α} {d : Dal φ} {a : α}
    (h : x c.dal = .ok a d) : onDal x c = .ok a { c with dal := d } := Prog.zoom_ok h

theorem onDal_ok_self {α : Type} {x : Prog Error (Dal φ) α} {a : α}
    (h : x c.dal = .ok a c.dal) : onDal x c = .ok a c := Prog.zoom_ok h

end

variable {φ : Type} [PageStore φ] {c : Collection φ} {fs : List (Frame Nat Item)} {u t : PTree}

theorem getNodesFrom_ok {d : Dal φ} (hr : d.Reads (plugAll fs u)) :
    getNodesFrom (nodeOf (plugAll fs u)) (pathIndexes fs) d = .ok (pathNodes fs u).tail d := by
  induction fs with
  | nil => rfl
  | cons f fs ih =>
    rw [pathIndexes_cons, getNodesFrom, plugAll_cons,
      Prog.element_bind (childAt_plug f _), Prog.bind_ok (Prog.orPanic_ok hr.tail.getNode),
      Prog.bind_ok (ih hr.tail), pathNodes, List.tail_cons]
    exact congrArg (Outcome.ok · d) (pathNodes_eq_cons fs u).symm

/-- `get_nodes` reads the nodes of a path. -/
theorem getNodes_ok (hr : c.dal.Reads (plugAll fs u)) (hroot : c.root = (plugAll fs u).tag) :
    getNodes (0 :: pathIndexes fs) c = .ok (pathNodes fs u) c := by
  rw [getNodes, Prog.get_bind]
  apply onDal_ok_self
  rw [hroot, Prog.bind_ok hr.getNode]
  refine (Prog.bind_ok (getNodesFrom_ok hr)).trans ?_
  exact congrArg (Outcome.ok · c.dal) (pathNodes_eq_cons fs u).symm

theorem find_of_path {key : Bytes} {x : Path Nat Item} (hr : c.dal.Reads t)
    (hroot : c.root = t.tag) (hx : IsPath (findKeyInNode key) t x)
    (hfuel : x.frames.length < c.dal.fuel) :
    find key c = .ok (if x.found then x.focus.items[x.index]? else none) c := by
  rw [find, Prog.get_bind, hroot, Prog.bind_ok (onDal_ok_self hr.getNode),
    Prog.bind_ok (onDal_ok_self (Dal.findKey_ok true hr hx hfuel))]
  cases hf : x.found with
  | false => rfl
  | true =>
    obtain ⟨a, ha, -⟩ := (scans_findKeyInNode key).hit (hf ▸ hx.stop)
    simp only [Bool.true_or, if_true, ha]
    exact Prog.bind_ok (Prog.element_ok ha c)

/-- **`find` answers by the in-order sequence** of a sorted tree of uniform depth. -/
theorem find_ok {h : Nat} (key : Bytes) (hr : c.dal.Reads t) (hroot : c.root = t.tag)
    (hfuel : t.tags.length < c.dal.fuel) (hu : Uniform h t)
    (hs : Sorted KeyLt Item.key t.inorder) : find key c = .ok (itemOf key t.inorder) c := by
  obtain ⟨x, -, hx⟩ := exists_path key hu.regular
  rw [find_of_path hr hroot hx ((length_frames_lt_tags hx).trans hfuel), item_of_path hx hs]

/-- **`remove` of an absent key returns its error and changes nothing.** -/
theorem remove_absent {h : Nat} {key : Bytes} (hr : c.dal.Reads t) (hroot : c.root = t.tag)
    (hfuel : t.tags.length < c.dal.fuel) (hu : Uniform h t)
    (hs : Sorted KeyLt Item.key t.inorder) (hkey : itemOf key t.inorder = none) :
    remove key c = .error (keyNotFound key) c := by
  obtain ⟨x, -, hx⟩ := exists_path key hu.regular
  have hpath : x.frames.length < c.dal.fuel := (length_frames_lt_tags hx).trans hfuel
  have hf : x.found = false := by
    rw [← Bool.not_eq_true, found_iff hx hs]
    exact fun hne => hne hkey
  have hget : Dal.getNode c.root c.dal = .ok (nodeOf t) c.dal := hroot ▸ hr.getNode
  have hitem : removeItem key c = .error (keyNotFound key) c := by
    rw [removeItem, Prog.get_bind, Prog.bind_ok (onDal_ok_self hget),
      Prog.bind_ok (onDal_ok_self (Dal.findKey_ok true hr hx hpath)), hf]
    rfl
  rw [remove]
  exact Prog.bind_error hitem

end Collection

end Toocal
