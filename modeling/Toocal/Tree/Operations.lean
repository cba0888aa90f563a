import Toocal.Tree.Shrinking

/-!
# The operations on the tree of a collection

`Op.outline` is what a call of `put` or `remove` makes of the tree under the root,
page numbers left out; a collection with root 0 has no tree.

* `Op.Fresh` is what a caller sees to: no key is put that is there already.
* `Op.Safe` is what keeps the call defined and its copies current: `PutSafe` and
  `RemoveSafe` on the tree.
* `WellFormed` is the shape and the order of a search tree, and every fresh and
  safe call keeps it (`WellFormed.outline`).
* `valueAt_remove` and `valueAt_put` say what a call does to the map from keys to
  items; a put with a double overflow is the one that loses items.
* `Op.KeepsPages` is what a call loses no page under.
-/

namespace Toocal

open Outcomes Multiway Multiway.Tree

variable {π : Type}

/-- A call of `put` or `remove`; `pastEnd` is what the slot after the last item holds. -/
inductive Op where
  | put (key value : Bytes) (pastEnd : Item)
  | remove (key : Bytes)
  deriving DecidableEq

/-- The items under a root, in order. -/
def contents (t : Option (Tree π Item)) : List Item := t.elim [] inorder

@[simp] theorem contents_none : contents (none : Option (Tree π Item)) = [] := rfl
@[simp] theorem contents_some (t : Tree π Item) : contents (some t) = t.inorder := rfl

theorem contents_erase (t : Option (Tree π Item)) : contents (t.map Tree.erase) = contents t := by
  cases t with
  | none => rfl
  | some t => exact inorder_erase t

/-- The item stored under a key. -/
def valueAt (t : Option (Tree π Item)) (key : Bytes) : Option Item := itemOf key (contents t)

theorem valueAt_erase (t : Option (Tree π Item)) (key : Bytes) :
    valueAt (t.map Tree.erase) key = valueAt t key := by rw [valueAt, valueAt, contents_erase]

/-- The shape and the order of a search tree. -/
structure WellFormed (t : Option (Tree π Item)) : Prop where
  uniform : ∀ u ∈ t, ∃ h, Uniform h u
  sorted : Sorted KeyLt Item.key (contents t)

theorem wellFormed_none : WellFormed (none : Option (Tree π Item)) :=
  ⟨by simp, List.Pairwise.nil⟩

theorem wellFormed_some {t : Tree π Item} :
    WellFormed (some t) ↔ (∃ h, Uniform h t) ∧ Sorted KeyLt Item.key t.inorder :=
  ⟨fun h => ⟨h.uniform t rfl, h.sorted⟩, fun h => ⟨by simpa using h.1, h.2⟩⟩

theorem wellFormed_of_uniform {t : Tree π Item} (h : Nat) (hu : Uniform h t)
    (hs : Sorted KeyLt Item.key t.inorder) : WellFormed (some t) :=
  wellFormed_some.mpr ⟨⟨h, hu⟩, hs⟩

theorem wellFormed_overLeaves {p : π} {its : List Item} {leaves : List (Tree π Item)}
    (hlen : leaves.length = its.length + 1) (hleaves : ∀ u ∈ leaves, u.children.isEmpty = true)
    (hs : Sorted KeyLt Item.key (Multiway.Tree.node p its leaves).inorder) :
    WellFormed (some (.node p its leaves)) := by
  refine wellFormed_some.mpr ⟨⟨1, .inner p its leaves hlen fun u hu => ?_⟩, hs⟩
  have hleaf := hleaves u hu
  cases u with
  | node q its' cs =>
    obtain rfl : cs = [] := List.isEmpty_iff.mp hleaf
    exact .leaf q its'

theorem wellFormed_erase {t : Option (Tree π Item)} :
    WellFormed (t.map Tree.erase) ↔ WellFormed t := by
  cases t with
  | none => exact ⟨fun _ => wellFormed_none, fun _ => wellFormed_none⟩
  | some t =>
    rw [Option.map_some, wellFormed_some, wellFormed_some, inorder_erase]
    constructor
    · rintro ⟨⟨h, hu⟩, hs⟩
      exact ⟨⟨h, hu.of_erase⟩, hs⟩
    · rintro ⟨⟨h, hu⟩, hs⟩
      exact ⟨⟨h, hu.erase⟩, hs⟩

namespace Op

/-- The tree under the root after a call. -/
def outline (o : Options) : Op → Option Outline → Option Outline
  | .put key value _, none => some (.node () [⟨key, value⟩] [])
  | .put key value _, some t => some (putOutline o ⟨key, value⟩ t)
  | .remove key, t => t.map (removeOutline o key)

/-- A key is put only when it is not there. -/
def Fresh : Op → Option (Tree π Item) → Prop
  | .put key _ _, t => valueAt t key = none
  | .remove _, _ => True

/-- The call stays defined and within the pages, and works on current copies.  This asks
nothing of a remove that does not find its key. -/
def Safe (cap : Capacity) (o : Options) : Op → Option Outline → Prop
  | .put key value _, none => cap.room [⟨key, value⟩] 0 = true
  | .put key value _, some t => PutSafe cap o ⟨key, value⟩ t
  | .remove key, some t => RemoveSafe cap o key t
  | .remove _, none => False

/-- The page numbers a call may hand out can be written down. -/
def Numbers (cap : Capacity) (maxPage : Nat) : Op → Option (Tree π Item) → Prop
  | .put key _ _, some t => ∀ x ∈ locate (findKeyInNode key) t,
      cap.names (maxPage + x.frames.length + 2) = true
  | .put _ _ _, none => cap.names (maxPage + 1) = true
  | .remove _, _ => True

/-- No two neighbours of the path of a put are over-populated after its insertion. -/
def Calm (o : Options) : Op → Option Outline → Prop
  | .put key value _, some t => ∀ x ∈ locate (findKeyInNode key) t,
      NoDoubleOverflow o x.frames (insertAt x.focus.items x.index ⟨key, value⟩)
  | _, _ => True

/-- The call loses no page: a put is calm, and a root with children that a remove rewrites
has items. -/
def KeepsPages (o : Options) : Op → Option Outline → Prop
  | .put key value pastEnd, t => (Op.put key value pastEnd).Calm o t
  | .remove key, some t => valueAt (some t) key = none ∨ t.children = [] ∨ t.items ≠ []
  | .remove _, none => True

instance (op : Op) (t : Option (Tree π Item)) : Decidable (op.Fresh t) :=
  match op with
  | .put key _ _ => inferInstanceAs (Decidable (valueAt t key = none))
  | .remove _ => isTrue trivial

instance (cap : Capacity) (o : Options) (op : Op) (t : Option Outline) :
    Decidable (op.Safe cap o t) :=
  match op, t with
  | .put key value _, none => inferInstanceAs (Decidable (cap.room [⟨key, value⟩] 0 = true))
  | .put key value _, some t => inferInstanceAs (Decidable (PutSafe cap o ⟨key, value⟩ t))
  | .remove key, some t => inferInstanceAs (Decidable (RemoveSafe cap o key t))
  | .remove _, none => isFalse id

instance (cap : Capacity) (maxPage : Nat) (op : Op) (t : Option (Tree π Item)) :
    Decidable (op.Numbers cap maxPage t) :=
  match op, t with
  | .put key _ _, some t => inferInstanceAs (Decidable (∀ x ∈ locate (findKeyInNode key) t,
      cap.names (maxPage + x.frames.length + 2) = true))
  | .put _ _ _, none => inferInstanceAs (Decidable (cap.names (maxPage + 1) = true))
  | .remove _, _ => isTrue trivial

instance (o : Options) (op : Op) (t : Option Outline) : Decidable (op.Calm o t) :=
  match op, t with
  | .put key value _, some t => inferInstanceAs (Decidable (∀ x ∈ locate (findKeyInNode key) t,
      NoDoubleOverflow o x.frames (insertAt x.focus.items x.index ⟨key, value⟩)))
  | .put _ _ _, none => isTrue trivial
  | .remove _, _ => isTrue trivial

end Op

/-- The tree a list of calls makes, page numbers left out. -/
def outlineAfter (o : Options) (ops : List Op) : Option Outline :=
  ops.foldl (fun t op => op.outline o t) none

theorem outlineAfter_snoc (o : Options) (ops : List Op) (op : Op) :
    outlineAfter o (ops ++ [op]) = op.outline o (outlineAfter o ops) := by
  rw [outlineAfter, List.foldl_append]
  rfl

/-! ## What a call does to shape, order and contents -/

section Calls

variable {cap : Capacity} {o : Options} {t : Option Outline} {key value : Bytes} {pastEnd : Item}

/-- A put adds its item to the sequence, and may lose others; it loses none exactly if
it is calm. -/
theorem contents_put (hw : WellFormed t) (hd : valueAt t key = none)
    (hsafe : (Op.put key value pastEnd).Safe cap o t) :
    WellFormed ((Op.put key value pastEnd).outline o t) ∧ ∃ l₁ l₂, contents t = l₁ ++ l₂ ∧
      Sorted KeyLt Item.key (l₁ ++ ⟨key, value⟩ :: l₂) ∧
      (contents ((Op.put key value pastEnd).outline o t)).Sublist (l₁ ++ ⟨key, value⟩ :: l₂) ∧
      ((Op.put key value pastEnd).Calm o t ↔
        contents ((Op.put key value pastEnd).outline o t) = l₁ ++ ⟨key, value⟩ :: l₂) := by
  cases t with
  | none =>
    have hone : Sorted KeyLt Item.key [(⟨key, value⟩ : Item)] := List.pairwise_singleton _ _
    have hin : (Multiway.Tree.node () [(⟨key, value⟩ : Item)] []).inorder = [⟨key, value⟩] :=
      inorder_leaf _ _
    rw [Op.outline, wellFormed_some, contents_some, hin]
    exact ⟨⟨⟨0, .leaf _ _⟩, hone⟩, [], [], rfl, hone, .refl _, fun _ => rfl, fun _ => trivial⟩
  | some t =>
    obtain ⟨⟨h, hu⟩, hs⟩ := wellFormed_some.mp hw
    obtain ⟨x, hx, hpath⟩ := exists_path (Item.mk key value).key hu.regular
    have hf : x.found = false := by
      rw [← Bool.not_eq_true, found_iff hpath hs]
      exact fun hne => hne hd
    have hsub := ((growPath_coherent (o := o) (uniform_placed hu hpath hf)).growRoot
      (o := o) (q := ()) (r := ())).1
    rw [← putOutline_eq hx, inorder_placed hpath hf] at hsub
    have hsorted := hpath.sorted_insert (scans_findKeyInNode key) hs hf (a := ⟨key, value⟩) rfl
    have hold : t.inorder = (beforeAll x.frames ++ x.focus.items.take x.index) ++
        (x.focus.items.drop x.index ++ afterAll x.frames) := by
      rw [hpath.inorder, inorder_of_children_nil (hpath.leaf hf)]
      conv_lhs => rw [← List.take_append_drop x.index x.focus.items]
      simp only [List.append_assoc]
    have hnew : beforeAll x.frames ++
          (x.focus.items.take x.index ++ ⟨key, value⟩ :: x.focus.items.drop x.index) ++
          afterAll x.frames = (beforeAll x.frames ++ x.focus.items.take x.index) ++
        ⟨key, value⟩ :: (x.focus.items.drop x.index ++ afterAll x.frames) := by
      simp only [List.append_assoc, List.cons_append]
    rw [hnew] at hsub hsorted
    refine ⟨wellFormed_some.mpr (putOutline_sorted hu hs hx hpath hf), _, _,
      hold, hsorted, hsub, ?_⟩
    have hiff := putOutline_keeps_iff hu hx hpath hf hsafe
    have hcalm : (Op.put key value pastEnd).Calm o (some t) ↔
        NoDoubleOverflow o x.frames (insertAt x.focus.items x.index ⟨key, value⟩) :=
      ⟨fun hc => hc x hx, fun hno y hy => by obtain rfl := Option.some.inj (hx.symm.trans hy); exact hno⟩
    rw [hcalm, ← hiff]
    show _ ↔ (putOutline o ⟨key, value⟩ t).inorder = _
    constructor
    · intro hlen
      refine hsub.eq_of_length (hlen.trans ?_)
      rw [hold]
      simp only [List.length_append, List.length_cons]
      omega
    · intro heq
      rw [heq, hold]
      simp only [List.length_append, List.length_cons]
      omega

theorem contents_remove (hw : WellFormed t) (hd : valueAt t key ≠ none)
    (hsafe : (Op.remove key).Safe cap o t) :
    WellFormed ((Op.remove key).outline o t) ∧ ∃ l₁ a l₂, contents t = l₁ ++ a :: l₂ ∧
      a.key = key ∧ contents ((Op.remove key).outline o t) = l₁ ++ l₂ := by
  cases t with
  | none => exact hsafe.elim
  | some t =>
    obtain ⟨⟨h, hu⟩, hs⟩ := wellFormed_some.mp hw
    obtain ⟨x, hx, hpath⟩ := exists_path key hu.regular
    have hf : x.found = true := (found_iff hpath hs).mpr hd
    obtain ⟨⟨l₁, a, l₂, hin, hk, hout⟩, hu'⟩ := removeOutline_spec hu hx hpath hf hsafe
    have hs' : Sorted KeyLt Item.key (removeOutline o key t).inorder := by
      rw [hout]
      rw [hin] at hs
      exact hs.sublist ((List.Sublist.refl l₁).append (List.sublist_cons_self a l₂))
    exact ⟨wellFormed_some.mpr ⟨hu', hs'⟩, l₁, a, l₂, hin, hk, hout⟩

theorem outline_remove_absent (hw : WellFormed t) (hd : valueAt t key = none) :
    (Op.remove key).outline o t = t := by
  cases t with
  | none => rfl
  | some t =>
    obtain ⟨⟨h, hu⟩, hs⟩ := wellFormed_some.mp hw
    obtain ⟨x, hx, hpath⟩ := exists_path key hu.regular
    have hf : x.found = false := by
      rw [← Bool.not_eq_true, found_iff hpath hs]
      exact fun hne => hne hd
    rw [Op.outline, Option.map_some, removeOutline, hx]
    simp only [hf, Bool.false_eq_true, if_false]

/-- **Every fresh and safe call keeps shape and order.** -/
theorem WellFormed.outline (hw : WellFormed t) {op : Op} (hd : op.Fresh t)
    (hsafe : op.Safe cap o t) : WellFormed (op.outline o t) := by
  cases op with
  | put key value pastEnd => exact (contents_put hw hd hsafe).1
  | remove key =>
    by_cases hk : valueAt t key = none
    · rwa [outline_remove_absent hw hk]
    · exact (contents_remove hw hk hsafe).1

theorem WellFormed.next {t t' : Option (Tree π Item)} {op : Op} (hw : WellFormed t)
    (hd : op.Fresh t) (hsafe : op.Safe cap o (t.map Tree.erase))
    (he : t'.map Tree.erase = op.outline o (t.map Tree.erase)) : WellFormed t' := by
  have hd' : op.Fresh (t.map Tree.erase) := by
    cases op with
    | put key value pastEnd => exact (valueAt_erase t key).trans hd
    | remove key => trivial
  rw [← wellFormed_erase, he]
  exact (wellFormed_erase.mpr hw).outline hd' hsafe

/-- **A remove takes its key out of the map and leaves all others.** -/
theorem valueAt_remove (hw : WellFormed t) (hd : valueAt t key ≠ none)
    (hsafe : (Op.remove key).Safe cap o t) (j : Bytes) :
    valueAt ((Op.remove key).outline o t) j = if j = key then none else valueAt t j := by
  obtain ⟨-, l₁, a, l₂, hin, rfl, hout⟩ := contents_remove hw hd hsafe
  have hs := hin ▸ hw.sorted
  rw [valueAt, valueAt, hout, hin, itemOf_insert hs]
  split
  next hj => rw [hj]; exact itemOf_removed hs
  next => rfl

/-- **A calm put adds its key to the map and leaves all others.** -/
theorem valueAt_put (hw : WellFormed t) (hd : valueAt t key = none)
    (hsafe : (Op.put key value pastEnd).Safe cap o t) (hcalm : (Op.put key value pastEnd).Calm o t)
    (j : Bytes) : valueAt ((Op.put key value pastEnd).outline o t) j =
      if j = key then some ⟨key, value⟩ else valueAt t j := by
  obtain ⟨-, l₁, l₂, hin, hs, -, hiff⟩ := contents_put hw hd hsafe
  rw [valueAt, valueAt, hiff.mp hcalm, hin, itemOf_insert hs]

end Calls

end Toocal
