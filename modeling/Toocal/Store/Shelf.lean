import Toocal.Core.Collection
import Toocal.Store.Layer

/-!
# An ideal page store

A `Shelf` keeps nodes as they are written, as long as they fit: `Capacity` says
which nodes fit a page and which page numbers can be written down as children.  A
node that does not fit, or a page that was never written, is outside of what the
shelf models.  With the capacity `unlimited` pages store every node faithfully;
`Core/File.lean` has the capacity of a 4096-byte page.
-/

namespace Toocal

open Outcomes

/-- A leaf has no children, an inner node has one more than it has items. -/
def Counted (items children : Nat) : Prop := children = 0 ∨ children = items + 1

/-- What a page can hold.  Fewer items and children need no more room, and an item
that fits a leaf fits a node with two children. -/
structure Capacity where
  room : List Item → Nat → Bool
  names : Nat → Bool
  room_mono : ∀ {its its' : List Item} {m m' : Nat}, its'.Sublist its → m' ≤ m →
    Counted its'.length m' → room its m = true → room its' m' = true
  room_root : ∀ {its : List Item} {i : Item}, i ∈ its → room its 0 = true → room [i] 2 = true
  names_mono : ∀ {p q : Nat}, p ≤ q → names q = true → names p = true

def Capacity.unlimited : Capacity where
  room _ _ := true
  names _ := true
  room_mono _ _ _ _ := rfl
  room_root _ _ := rfl
  names_mono _ _ := rfl

/-- The page of the node and its children have numbers, and there is room for it. -/
def Capacity.Fits (cap : Capacity) (n : Node) : Prop :=
  cap.room n.items n.children.length = true ∧ ∀ p ∈ n.pageNum :: n.children, cap.names p = true

instance (cap : Capacity) (n : Node) : Decidable (cap.Fits n) := inferInstanceAs (Decidable (_ ∧ _))

theorem Capacity.Fits.sublist {cap : Capacity} {n n' : Node} (h : cap.Fits n)
    (hp : n'.pageNum = n.pageNum) (hi : n'.items.Sublist n.items)
    (hc : n'.children.Sublist n.children) (hn : Counted n'.items.length n'.children.length) :
    cap.Fits n' :=
  ⟨cap.room_mono hi hc.length_le hn h.1, fun p hm => h.2 p (by
    rw [hp] at hm
    exact (hc.cons_cons n.pageNum).subset hm)⟩

/-- A list of pages, each with a node that fits it. -/
structure Shelf (cap : Capacity) where
  pages : List (Option (List Item × List Nat))
  fits : ∀ p c, pages[p]? = some (some c) → cap.Fits ⟨p, c.1, c.2⟩

namespace Shelf

variable {cap : Capacity}

def empty (cap : Capacity) : Shelf cap := ⟨[], by simp⟩

def lookup (s : Shelf cap) (p : Nat) : Option (List Item × List Nat) := s.pages[p]?.join

/-- Make the list long enough for the page, then replace what is on it. -/
def extend (pages : List (Option (List Item × List Nat))) (p : Nat) :
    List (Option (List Item × List Nat)) := pages ++ List.replicate (p + 1 - pages.length) none

theorem getElem?_extend (pages : List (Option (List Item × List Nat))) (p q : Nat) :
    (extend pages p)[q]?.join = pages[q]?.join := by
  rw [extend, List.getElem?_append]
  split
  next => rfl
  next h =>
    rw [List.getElem?_eq_none (by omega : pages.length ≤ q), List.getElem?_replicate]
    split <;> rfl

theorem lt_length_extend (pages : List (Option (List Item × List Nat))) (p : Nat) :
    p < (extend pages p).length := by
  rw [extend, List.length_append, List.length_replicate]
  omega

def set (s : Shelf cap) (n : Node) (h : cap.Fits n) : Shelf cap where
  pages := (extend s.pages n.pageNum).set n.pageNum (some (n.items, n.children))
  fits p c hp := by
    by_cases he : p = n.pageNum
    · rw [he, List.getElem?_set_self (lt_length_extend _ _)] at hp
      cases hp
      rw [he]
      exact h
    · rw [List.getElem?_set_ne (Ne.symm he)] at hp
      have hj := getElem?_extend s.pages n.pageNum p
      rw [hp, Option.join_some] at hj
      cases hs : s.pages[p]? with
      | none => rw [hs] at hj; cases hj
      | some page => exact s.fits p c (by rw [hs] at hj ⊢; exact congrArg some hj.symm)

theorem lookup_set (s : Shelf cap) (n : Node) (h) (q : Nat) :
    (s.set n h).lookup q = if q = n.pageNum then some (n.items, n.children) else s.lookup q := by
  unfold lookup set
  by_cases hq : q = n.pageNum
  · subst hq
    rw [if_pos rfl, List.getElem?_set_self (lt_length_extend _ _)]; rfl
  · rw [if_neg hq, List.getElem?_set_ne (Ne.symm hq), getElem?_extend]

theorem lookup_eq_some {s : Shelf cap} {p : Nat} {c} (h : s.lookup p = some c) :
    s.pages[p]? = some (some c) := by
  unfold lookup at h
  cases hp : s.pages[p]? with
  | none => rw [hp] at h; cases h
  | some page => rw [hp] at h; exact congrArg some h

theorem lt_of_lookup {s : Shelf cap} {p : Nat} {c} (h : s.lookup p = some c) :
    p < s.pages.length := (List.getElem?_eq_some_iff.mp (lookup_eq_some h)).1

theorem fits_of_lookup {s : Shelf cap} {p : Nat} {c} (h : s.lookup p = some c) :
    cap.Fits ⟨p, c.1, c.2⟩ := s.fits p c (lookup_eq_some h)

end Shelf

instance {cap : Capacity} : PageStore (Shelf cap) where
  load _ p s :=
    match s.lookup p with
    | some c => .ok c s
    | none => .stop .outside
  save _ n s := if h : cap.Fits n then .ok () (s.set n h) else .stop .outside
  pageCount _ s := s.pages.length

namespace Dal

variable {cap : Capacity}

/-- What is on page `p`. -/
def at? (d : Dal (Shelf cap)) (p : Nat) : Option (List Item × List Nat) := d.file.lookup p

/-- The layer after `n` has been written to its page. -/
def store (d : Dal (Shelf cap)) (n : Node) (h : cap.Fits n) : Dal (Shelf cap) :=
  { d with file := d.file.set n h, written := n.pageNum :: d.written }

@[simp] theorem options_store (d : Dal (Shelf cap)) (n : Node) (h) :
    (d.store n h).options = d.options := rfl
@[simp] theorem metaPage_store (d : Dal (Shelf cap)) (n : Node) (h) :
    (d.store n h).metaPage = d.metaPage := rfl
@[simp] theorem freelist_store (d : Dal (Shelf cap)) (n : Node) (h) :
    (d.store n h).freelist = d.freelist := rfl
@[simp] theorem written_store (d : Dal (Shelf cap)) (n : Node) (h) :
    (d.store n h).written = n.pageNum :: d.written := rfl

theorem at?_store (d : Dal (Shelf cap)) (n : Node) (h) (q : Nat) :
    (d.store n h).at? q = if q = n.pageNum then some (n.items, n.children) else d.at? q :=
  Shelf.lookup_set d.file n h q

theorem at?_store_self (d : Dal (Shelf cap)) (n : Node) (h) :
    (d.store n h).at? n.pageNum = some (n.items, n.children) := by rw [at?_store, if_pos rfl]

theorem at?_store_ne {d : Dal (Shelf cap)} {n : Node} {h} {q : Nat} (hq : q ≠ n.pageNum) :
    (d.store n h).at? q = d.at? q := by rw [at?_store, if_neg hq]

theorem fits_of_at? {d : Dal (Shelf cap)} {p : Nat} {c : List Item × List Nat}
    (h : d.at? p = some c) : cap.Fits ⟨p, c.1, c.2⟩ := Shelf.fits_of_lookup h

theorem getNode_ok {d : Dal (Shelf cap)} {p : Nat} {c : List Item × List Nat}
    (h : d.at? p = some c) : getNode p d = .ok ⟨p, c.1, c.2⟩ d := by
  apply getNode_ok_of_load
  simp only [PageStore.load]
  rw [show d.file.lookup p = some c from h]

theorem at?_of_getNode {d d' : Dal (Shelf cap)} {p : Nat} {n : Node}
    (h : getNode p d = .ok n d') : d.at? p = some (n.items, n.children) ∧ n.pageNum = p ∧ d' = d := by
  cases hp : d.at? p with
  | some c => rw [getNode_ok hp] at h; cases h; exact ⟨rfl, rfl, rfl⟩
  | none =>
    have hl : PageStore.load d.options p d.file = .stop .outside := by
      simp only [PageStore.load]
      rw [show d.file.lookup p = none from hp]
    rw [getNode_stop_of_load hl] at h
    cases h

theorem writeNode_ok {d : Dal (Shelf cap)} {n : Node} (hn : n.pageNum ≠ 0)
    (hfit : cap.Fits n) : writeNode n d = .ok n (d.store n hfit) := by
  have hs : PageStore.save d.options (d.placed n) d.file = .ok () (d.file.set n hfit) := by
    rw [placed_of_ne hn]
    simp only [PageStore.save, dif_pos hfit]
  rw [writeNode_ok_of_save hs, placed_of_ne hn, freelistFor_of_ne hn, pageFor_of_ne hn]
  rfl

theorem writeNode_outside {d : Dal (Shelf cap)} {n : Node} (hn : n.pageNum ≠ 0)
    (hfit : ¬ cap.Fits n) : writeNode n d = .stop .outside := by
  apply writeNode_stop_of_save
  rw [placed_of_ne hn]
  simp only [PageStore.save, dif_neg hfit]

theorem of_writeNode {d d' : Dal (Shelf cap)} {n m : Node} (hn : n.pageNum ≠ 0)
    (h : writeNode n d = .ok m d') : d'.written = n.pageNum :: d.written ∧
      ∀ q, q ≠ n.pageNum → d'.at? q = d.at? q := by
  by_cases hfit : cap.Fits n
  · obtain ⟨-, rfl⟩ := Outcome.ok.inj ((writeNode_ok hn hfit).symm.trans h)
    exact ⟨rfl, fun q hq => at?_store_ne hq⟩
  · cases (writeNode_outside hn hfit).symm.trans h

theorem newNode_ok (d : Dal (Shelf cap)) (its : List Item) (cs : List Nat) :
    newNode its cs d = .ok ⟨d.freelist.getNextPage.1, its, cs⟩
      { d with freelist := d.freelist.getNextPage.2 } := rfl

@[simp] theorem at?_setFreelist (d : Dal (Shelf cap)) (f : Freelist) (p : Nat) :
    ({ d with freelist := f } : Dal (Shelf cap)).at? p = d.at? p := rfl

theorem fuel_eq (d : Dal (Shelf cap)) : d.fuel = d.file.pages.length + 1 := rfl

end Dal

end Toocal
