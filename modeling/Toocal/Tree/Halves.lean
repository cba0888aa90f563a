import Mathlib.Algebra.Order.BigOperators.Group.List
import Toocal.Library.Everywhere
import Toocal.Tree.Filling
import Toocal.Tree.Operations

/-!
# What a split leaves on each side

`Options.DividesInto o s μ` is a condition on the two thresholds: the halves of an
over-populated light node of items of size `s` or less have `μ` items or more
(`DividesInto.split`).  It asks nothing of the split index, of which `get_split_index`
knows the lower threshold only.

A put keeps the halves so full, and with them every node below the root
(`below_putOutline`), whether or not it loses items on the way: what is lost is on the
page of a node that is split, and its halves come from the copy.
-/

namespace Toocal

open Multiway Multiway.Tree

variable {π : Type} {o : Options} {s μ : Nat} {its its' : List Item}

/-! ## The thresholds -/

/-- The least number of items before the split index is `l + 1`. -/
def Options.DividesInto (o : Options) (s μ : Nat) : Prop :=
  ∃ l : Nat, μ ≤ l + 1 ∧ ((headerSize + l * (s + pageNumSize) : Nat) : ℚ) ≤ o.minThreshold ∧
    o.minThreshold + ((pageNumSize + (μ + 1) * s : Nat) : ℚ) ≤
      o.maxThreshold + ((l * pageNumSize : Nat) : ℚ)

def SizedUpTo (s : Nat) (its : List Item) : Prop := ∀ a ∈ its, a.size ≤ s

theorem SizedUpTo.mono (h : SizedUpTo s its') (hsub : its ⊆ its') : SizedUpTo s its :=
  fun a ha => h a (hsub ha)

theorem SizedUpTo.sum_le (h : SizedUpTo s its) : (its.map Item.size).sum ≤ its.length * s := by
  have hle := List.sum_le_card_nsmul (its.map Item.size) s (by
    rw [List.forall_mem_map]
    exact h)
  rwa [List.length_map, Nat.nsmul_eq_mul] at hle

theorem scannedSize_le {i : Nat} (hlight : Light its) (hi : o.getSplitIndex its = some i)
    (hmin : (headerSize : ℚ) ≤ o.minThreshold) :
    ((scannedSize its (i - 1) : Nat) : ℚ) ≤ o.minThreshold := by
  by_contra hpast
  obtain ⟨hpos, hlt⟩ := getSplitIndex_lt hi
  rcases Nat.eq_zero_or_pos (i - 1) with hzero | hbefore
  · rw [hzero, (hlight.scannedSize 0).1] at hpast
    exact hpast hmin
  · obtain ⟨j, hj, hle⟩ := (hlight.getSplitIndex_le_iff hbefore (by omega)).mpr (not_le.mp hpast)
    obtain rfl := Option.some.inj (hj.symm.trans hi)
    omega

/-- **Both halves of an over-populated node have `μ` items or more.** -/
theorem Options.DividesInto.split {i : Nat} (hdiv : o.DividesInto s μ) (hlight : Light its)
    (hsize : SizedUpTo s its) (hover : o.isOverPopulated its) (hi : o.getSplitIndex its = some i) :
    μ ≤ i ∧ i + 1 + μ ≤ its.length := by
  obtain ⟨l, hl, hmin, hmax⟩ := hdiv
  obtain ⟨hpos, hilen⟩ := getSplitIndex_lt hi
  -- the left half is as long as it takes to pass the threshold
  have hleft : l < i := by
    have hpast := hmin.trans_lt (lt_of_getSplitIndex hi)
    rw [(hlight.scannedSize i).2, (hlight.scannedSize i).1, Nat.cast_lt, Nat.add_assoc,
      Nat.add_lt_add_iff_left] at hpast
    have hsum := (hsize.mono (List.take_subset i its)).sum_le
    have htake : (its.take i).length ≤ i := List.length_take_le i its
    have hlt : l * (s + pageNumSize) < i * (s + pageNumSize) :=
      calc l * (s + pageNumSize) < _ := hpast
        _ ≤ (its.take i).length * s + 8 * (its.take i).length := Nat.add_le_add_right hsum _
        _ = (its.take i).length * (s + pageNumSize) := by
          rw [Nat.mul_add, pageNumSize, Nat.mul_comm _ 8]
        _ ≤ i * (s + pageNumSize) := Nat.mul_le_mul_right _ htake
    exact Nat.lt_of_mul_lt_mul_right hlt
  refine ⟨by omega, ?_⟩
  -- and what is not scanned before it has more than `μ + 1` items
  have hscanned := scannedSize_le hlight hi ((Nat.cast_le.mpr (Nat.le_add_right _ _)).trans hmin)
  have hbytes : scannedSize its (i - 1) + (pageNumSize + (μ + 1) * s) <
      11 + (its.map Item.size).sum + l * pageNumSize := by
    have hover' := hlight.over_iff.mp hover
    have : ((scannedSize its (i - 1) + (pageNumSize + (μ + 1) * s) : Nat) : ℚ) <
        ((11 + (its.map Item.size).sum + l * pageNumSize : Nat) : ℚ) := by
      rw [Nat.cast_add (scannedSize its (i - 1)), Nat.cast_add (11 + (its.map Item.size).sum)]
      linarith
    exact_mod_cast this
  have hrest := (hsize.mono (List.drop_subset (i - 1) its)).sum_le
  have hall : (its.map Item.size).sum = ((its.take (i - 1)).map Item.size).sum +
      ((its.drop (i - 1)).map Item.size).sum := by
    rw [← List.sum_append, ← List.map_append, List.take_append_drop]
  have hlen : (its.take (i - 1)).length = i - 1 := by
    rw [List.length_take]
    omega
  rw [(hlight.scannedSize _).1, hlen, hall, headerSize, pageNumSize] at hbytes
  have hlt : (μ + 1) * s < (its.drop (i - 1)).length * s := by omega
  have := Nat.lt_of_mul_lt_mul_right hlt
  rw [List.length_drop] at this
  omega

/-! ## A put -/

/-- The halves of a node that is split have `μ` items or more. -/
def Divides (o : Options) (μ : Nat) (its : List Item) : Prop :=
  ∀ i, o.isOverPopulated its → o.getSplitIndex its = some i → μ ≤ i ∧ i + 1 + μ ≤ its.length

instance (o : Options) (μ : Nat) (its : List Item) : Decidable (Divides o μ its) :=
  decidable_of_iff (∀ i ∈ o.getSplitIndex its, o.isOverPopulated its → μ ≤ i ∧ i + 1 + μ ≤ its.length)
    ⟨fun h i hover hi => h i hi hover, fun h i hi hover => h i hover hi⟩

section Cut

variable {q : π} {t : Tree π Item} {c : Cut π}

theorem each_cut (hdivides : Divides o μ t.items) (hover : o.isOverPopulated t.items)
    (hc : cut o q t = some c) (hfull : t.Below (μ ≤ ·.length)) :
    c.left.Each (μ ≤ ·.length) ∧ c.right.Each (μ ≤ ·.length) := by
  obtain ⟨i, hi, -, hl, hr⟩ := cut_eq_some.mp hc
  obtain ⟨hleft, hright⟩ := hdivides i hover hi
  rw [hl, hr, splitLeft, splitRight, each_node, each_node, List.length_take, List.length_drop]
  exact ⟨⟨by omega, fun d hd => hfull d (List.mem_of_mem_take hd)⟩,
    by omega, fun d hd => hfull d (List.mem_of_mem_drop hd)⟩

end Cut

section Grow

variable {x : Copies Unit} {leaf : Outline} {f : Frame Unit Item} {fs : List (Frame Unit Item)}

/-- What the rounds keep of copy and page of a node; the page may have become fuller. -/
structure Full (μ : Nat) (x : Copies Unit) : Prop where
  copy : x.copy.Below (μ ≤ ·.length)
  page : x.page.Below (μ ≤ ·.length)
  items : x.copy.items.length ≤ x.page.items.length

theorem Full.growRound (hx : Full μ x) (hdivides : Divides o μ x.copy.items)
    (hroom : μ ≤ x.copy.items.length) (hsiblings : ∀ c ∈ f.siblings, c.Each (μ ≤ ·.length)) :
    Full μ (growRound o () f x) := by
  rcases growRound_cases o () f x with ⟨c, hover, hc, he⟩ | he
  · obtain ⟨hleft, hright⟩ := each_cut hdivides hover hc hx.copy
    rw [he]
    refine ⟨Frame.below_plug.mpr ⟨hsiblings, hleft⟩, Frame.below_plug.mpr ⟨fun d hd => ?_, hleft⟩,
      (items_addRight_sublist f c.middle c.right).length_le⟩
    have hmem : d = c.right ∨ d ∈ f.siblings := by
      simp only [Frame.siblings, Frame.left_addRight, Frame.right_addRight, List.map_cons,
        List.mem_append, List.mem_cons] at hd ⊢
      tauto
    rcases hmem with rfl | hmem
    · exact hright
    · exact hsiblings d hmem
  · have hpage : x.page.Each (μ ≤ ·.length) := each_iff.mpr ⟨hroom.trans hx.items, hx.page⟩
    have hbelow := Frame.below_plug.mpr ⟨hsiblings, hpage⟩
    rw [he]
    exact ⟨hbelow, hbelow, Nat.le_refl _⟩

/-- **The rounds of a put**, by induction along the path: every node above the leaf but the
first has `μ` items or more. -/
theorem full_growPath (hdivides : ∀ l ∈ pathItems fs leaf.items, Divides o μ l)
    (hfull : (plugAll fs leaf).Below (μ ≤ ·.length)) : Full μ (growPath o leaf fs) := by
  induction fs with
  | nil => exact ⟨hfull, hfull, Nat.le_refl _⟩
  | cons f fs ih =>
    obtain ⟨hsiblings, heach⟩ := Frame.below_plug.mp hfull
    have hrest : ∀ l ∈ pathItems fs leaf.items, Divides o μ l :=
      fun l hl => hdivides l (List.mem_cons_of_mem _ hl)
    refine (ih hrest heach.below).growRound ?_ ?_ hsiblings
    · rw [items_copy_growPath]
      exact hrest _ (by rw [pathItems_eq_cons]; exact List.mem_cons_self)
    · rw [items_copy_growPath, ← topItems_plugAll]
      exact (each_iff.mp heach).1

theorem Full.below_growRoot (hx : Full μ x) (hdivides : Divides o μ x.copy.items) :
    (growRoot o () () x).Below (μ ≤ ·.length) := by
  rcases growRoot_cases o () () x with ⟨c, hover, hc, he⟩ | he
  · obtain ⟨hleft, hright⟩ := each_cut hdivides hover hc hx.copy
    rw [he]
    intro d hd
    rcases List.mem_cons.mp hd with rfl | hd
    · exact hleft
    · rw [List.mem_singleton.mp hd]
      exact hright
  · rw [he]
    exact hx.page

theorem Full.items_growRoot (hx : Full μ x) (hne : x.copy.items ≠ []) :
    (growRoot o () () x).items ≠ [] := by
  rcases growRoot_cases o () () x with ⟨c, -, -, he⟩ | he
  · rw [he]
    exact List.cons_ne_nil _ _
  · rw [he]
    exact List.ne_nil_of_length_pos ((List.length_pos_iff.mpr hne).trans_le hx.items)

end Grow

section Put

variable {item : Item} {t : Outline} {x : Path Unit Item} {h : Nat}

theorem below_place {fs : List (Frame Unit Item)} {u : Outline} {i : Nat}
    (hfull : (plugAll fs u).Below (μ ≤ ·.length)) :
    (plugAll fs (place item i u)).Below (μ ≤ ·.length) := by
  cases fs with
  | nil => exact hfull
  | cons f fs =>
    obtain ⟨hitems, hsiblings, hfocus⟩ := below_plugAll.mp hfull
    obtain ⟨hroom, hbelow⟩ := each_iff.mp hfocus
    have hlen : (place item i u).items.length = u.items.length + 1 := length_insertAt _ _ _
    refine below_plugAll.mpr ⟨hitems, hsiblings, each_iff.mpr ⟨?_, hbelow⟩⟩
    rw [hlen]
    exact hroom.trans (Nat.le_succ _)

theorem items_place {fs : List (Frame Unit Item)} {u : Outline} {i : Nat}
    (hne : (plugAll fs u).items ≠ []) : (plugAll fs (place item i u)).items ≠ [] := by
  cases fs with
  | nil =>
    refine List.ne_nil_of_length_pos ?_
    rw [plugAll_nil, place, items_node, length_insertAt]
    exact Nat.succ_pos _
  | cons f fs => exact hne

/-- **A put whose splits divide so leaves `μ` items or more in every node below the root.** -/
theorem below_putOutline_of_divides (item : Item) (hx : locate (findKeyInNode item.key) t = some x)
    (hpath : IsPath (findKeyInNode item.key) t x)
    (hdivides : ∀ l ∈ pathItems x.frames (insertAt x.focus.items x.index item), Divides o μ l)
    (hfull : t.Below (μ ≤ ·.length)) : (putOutline o item t).Below (μ ≤ ·.length) := by
  rw [← hpath.eq] at hfull
  rw [putOutline_eq hx]
  refine (full_growPath hdivides (below_place hfull)).below_growRoot ?_
  rw [items_copy_growPath]
  exact hdivides _ (by rw [pathItems_eq_cons]; exact List.mem_cons_self)

/-- **A put leaves `μ` items or more in every node below the root**, and one in the root. -/
theorem below_putOutline (hdiv : o.DividesInto s μ) (hsize : SizedUpTo s t.inorder)
    (hitem : item.size ≤ s) (hx : locate (findKeyInNode item.key) t = some x)
    (hpath : IsPath (findKeyInNode item.key) t x) (hne : t.items ≠ [])
    (hlight : ∀ l ∈ pathItems x.frames (insertAt x.focus.items x.index item), Light l)
    (hfull : t.Below (μ ≤ ·.length)) : (putOutline o item t).Below (μ ≤ ·.length) ∧
      (putOutline o item t).items ≠ [] := by
  have hdivides : ∀ l ∈ pathItems x.frames (insertAt x.focus.items x.index item), Divides o μ l :=
    fun l hl i hover hi => hdiv.split (hlight l hl)
      (fun a ha => (eq_or_mem_of_pathItems hpath hl ha).elim (· ▸ hitem) (hsize a)) hover hi
  refine ⟨below_putOutline_of_divides _ hx hpath hdivides hfull, ?_⟩
  rw [← hpath.eq] at hfull hne
  rw [putOutline_eq hx]
  refine (full_growPath hdivides (below_place hfull)).items_growRoot ?_
  rw [items_copy_growPath, ← topItems_plugAll]
  exact items_place hne

end Put

end Toocal
