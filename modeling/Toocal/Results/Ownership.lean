import Toocal.Library.Traces
import Toocal.Tree.PageTree

/-!
# Who owns a page

A client of the freelist that gives back only pages it holds.  In every run the pages it
holds and the released pages are together the pages handed out so far, each once
(`Owner.Owns`); so a page is never handed out to two holders, and `max_page` grows only when
all of its pages are held.  This is the `Layout` that the functions of the tree keep, without
the pages they lose (`Owner.Owns.layout`).
-/

namespace Toocal

open Traces

/-- The freelist and the pages a client holds. -/
structure Owner where
  freelist : Freelist
  held : List Nat
  deriving DecidableEq

/-- The calls of a client. -/
inductive PageCall where
  | getNextPage
  | releasePage (page : Nat)
  deriving DecidableEq

namespace Owner

/-- A call; no client releases a page it does not hold. -/
def call (s : Owner) : PageCall → Option Owner
  | .getNextPage => some ⟨s.freelist.getNextPage.2, s.freelist.getNextPage.1 :: s.held⟩
  | .releasePage page =>
    if page ∈ s.held then some ⟨s.freelist.releasePage page, s.held.erase page⟩ else none

/-- The step relation of its runs. -/
def Step (s : Owner) (c : PageCall) (t : Owner) : Prop := s.call c = some t

/-- A client that holds nothing, before a freelist that has handed out nothing above `m`. -/
def start (m : Nat) : Owner := ⟨⟨m, []⟩, []⟩

/-- Held and released, the pages above `m` are all there, each once. -/
structure Owns (m : Nat) (s : Owner) : Prop where
  le_max : m ≤ s.freelist.maxPage
  perm : (s.held ++ s.freelist.releasedPages).Perm
    (List.range' (m + 1) (s.freelist.maxPage - m))

variable {m : Nat} {s t : Owner}

theorem owns_start (m : Nat) : Owns m (start m) := ⟨Nat.le_refl m, by simp [start]⟩

/-! ## One call -/

theorem Owns.getNextPage (h : Owns m s) :
    Owns m ⟨s.freelist.getNextPage.2, s.freelist.getNextPage.1 :: s.held⟩ := by
  rcases s.freelist.getNextPage_cases with ⟨page, rest, hrel, he⟩ | ⟨hrel, he⟩
  · rw [he]
    refine ⟨h.le_max, List.Perm.trans ?_ h.perm⟩
    show (page :: s.held ++ rest).Perm (s.held ++ s.freelist.releasedPages)
    rw [hrel, ← List.append_assoc]
    exact (List.perm_append_singleton page (s.held ++ rest)).symm
  · rw [he]
    have hle := h.le_max
    have hperm := h.perm
    rw [hrel, List.append_nil] at hperm
    refine ⟨Nat.le_succ_of_le hle, ?_⟩
    show ((s.freelist.maxPage + 1) :: s.held ++ s.freelist.releasedPages).Perm
      (List.range' (m + 1) (s.freelist.maxPage + 1 - m))
    have hlen : s.freelist.maxPage + 1 - m = (s.freelist.maxPage - m) + 1 := by omega
    have hnew : m + 1 + 1 * (s.freelist.maxPage - m) = s.freelist.maxPage + 1 := by omega
    rw [hrel, List.append_nil, hlen, List.range'_concat, hnew]
    exact (hperm.cons _).trans (List.perm_append_singleton _ _).symm

theorem Owns.releasePage {page : Nat} (h : Owns m s) (hheld : page ∈ s.held) :
    Owns m ⟨s.freelist.releasePage page, s.held.erase page⟩ := by
  refine ⟨h.le_max, List.Perm.trans ?_ h.perm⟩
  show (s.held.erase page ++ (s.freelist.releasedPages ++ [page])).Perm
    (s.held ++ s.freelist.releasedPages)
  rw [← List.append_assoc]
  refine (List.perm_append_singleton page _).trans ?_
  exact (List.perm_cons_erase hheld).symm.append_right s.freelist.releasedPages

/-- **Every call keeps the pages accounted for.** -/
theorem Owns.step {c : PageCall} (h : Owns m s) (hs : Step s c t) : Owns m t := by
  unfold Step at hs
  cases c with
  | getNextPage =>
    obtain rfl := Option.some.inj hs
    exact h.getNextPage
  | releasePage page =>
    rw [call] at hs
    split at hs
    next hheld =>
      obtain rfl := Option.some.inj hs
      exact h.releasePage hheld
    next => cases hs

/-- Only a `get_next_page` without a released page lets `max_page` grow. -/
theorem released_nil_of_grown {c : PageCall} (hs : Step s c t)
    (hgrown : s.freelist.maxPage < t.freelist.maxPage) : s.freelist.releasedPages = [] := by
  unfold Step at hs
  cases c with
  | getNextPage =>
    obtain rfl := Option.some.inj hs
    rcases s.freelist.getNextPage_cases with ⟨page, rest, -, he⟩ | ⟨hrel, -⟩
    · rw [he] at hgrown
      exact absurd hgrown (Nat.lt_irrefl _)
    · exact hrel
  | releasePage page =>
    rw [call] at hs
    split at hs
    next =>
      obtain rfl := Option.some.inj hs
      exact absurd hgrown (Nat.lt_irrefl _)
    next => cases hs

/-! ## Every run -/

theorem owns_of_trace {calls : List PageCall} (h : Trace Step (start m) calls s) : Owns m s :=
  h.invariant (I := fun _ s => Owns m s) (owns_start m) fun h hs => h.step hs

theorem Owns.nodup (h : Owns m s) : (s.held ++ s.freelist.releasedPages).Nodup :=
  h.perm.nodup_iff.mpr List.nodup_range'

theorem Owns.mem_iff (h : Owns m s) (page : Nat) :
    page ∈ s.held ∨ page ∈ s.freelist.releasedPages ↔ m < page ∧ page ≤ s.freelist.maxPage := by
  have hle := h.le_max
  rw [← List.mem_append, h.perm.mem_iff, List.mem_range'_1]
  omega

/-- **Freelist ownership**: in every run of a client that releases only what it holds, the
held and the released pages are the pages handed out, each page once and in one of the two
lists, and `max_page` grows only when no page is free. -/
theorem freelist_ownership {calls : List PageCall} (h : Trace Step (start m) calls s) :
    s.held.Nodup ∧ (∀ page ∈ s.held, page ∉ s.freelist.releasedPages) ∧
    s.freelist.releasedPages.Nodup ∧
    (∀ page, page ∈ s.held ∨ page ∈ s.freelist.releasedPages ↔
      m < page ∧ page ≤ s.freelist.maxPage) ∧
    ∀ c t, Step s c t → s.freelist.maxPage < t.freelist.maxPage →
      s.freelist.releasedPages = [] ∧
        ∀ page, m < page → page ≤ s.freelist.maxPage → page ∈ s.held := by
  have howns := owns_of_trace h
  obtain ⟨hheld, hreleased, hdisjoint⟩ := List.nodup_append.mp howns.nodup
  refine ⟨hheld, fun page hp hp' => hdisjoint page hp page hp' rfl, hreleased, howns.mem_iff, ?_⟩
  intro c t hs hgrown
  have hnil := released_nil_of_grown hs hgrown
  refine ⟨hnil, fun page hlt hle => ?_⟩
  rcases (howns.mem_iff page).mpr ⟨hlt, hle⟩ with hp | hp
  · exact hp
  · rw [hnil] at hp
    cases hp

/-- Two pages taken, the first one given back and taken again: the next is a new one. -/
theorem freelist_ownership_run :
    Trace Step (start 6) [.getNextPage, .getNextPage, .releasePage 7, .getNextPage]
      ⟨⟨8, []⟩, [7, 8]⟩ ∧
    ([7, 8] : List Nat).Nodup ∧
    Step ⟨⟨8, []⟩, [7, 8]⟩ .getNextPage ⟨⟨9, []⟩, [9, 7, 8]⟩ := by
  have hrun : Trace Step (start 6) [.getNextPage, .getNextPage, .releasePage 7, .getNextPage]
      ⟨⟨8, []⟩, [7, 8]⟩ :=
    (((Trace.single (show Step (start 6) .getNextPage ⟨⟨7, []⟩, [7]⟩ from rfl)).snoc
      (show Step _ .getNextPage ⟨⟨8, []⟩, [8, 7]⟩ from rfl)).snoc
      (show Step _ (.releasePage 7) ⟨⟨8, [7]⟩, [8]⟩ from rfl)).snoc
      (show Step _ .getNextPage ⟨⟨8, []⟩, [7, 8]⟩ from rfl)
  exact ⟨hrun, (freelist_ownership hrun).1, rfl⟩

end Owner

end Toocal
