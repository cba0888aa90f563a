import Toocal.Store.Session

/-!
# Keeping the freelist over a restart

`write_freelist` writes `max_page`, the number of released pages and their ids, and
`read_freelist` reads them back.  The two numbers pass through 16 bits; the ids are all
copied into the page, which is asked for no room.

* `writeFreelist_readFreelist`: what comes back is the freelist with its numbers cut.
* `keepsFreelist_iff`: so it is the one written exactly below 2^16, and where the list
  fits the page.
-/

namespace Toocal

open Outcomes Buffers Pages4096

namespace Dal

/-- `write_freelist` and then `read_freelist` give the same freelist, or the write ends in an
error and stores nothing. -/
def KeepsFreelist (d : Dal File) : Prop :=
  match writeFreelist d with
  | .ok _ d' => readFreelist d' = .ok d.freelist d'
  | .error _ d' => d'.file.bytes = d.file.bytes
  | .stop _ => False

section Freelist

variable {d : Dal File}

/-- The bytes `serialize` makes of the freelist. -/
def freelistBytes (d : Dal File) : Nat := 4 + 8 * d.freelist.releasedPages.length

theorem length_freelist (d : Dal File) :
    (FreelistSerializer.serialize d.freelist).length = d.freelistBytes :=
  FreelistSerializer.length_serialize d.freelist

theorem writeFreelist_undefined (h : d.options.pageSize < d.freelistBytes) :
    writeFreelist d = .stop .undefined := by
  rw [writeFreelist, Prog.get_bind]
  apply onFile_stop
  exact writeData_undefined (length_freelist d ▸ h)

theorem writeFreelist_error (h : d.freelistBytes ≤ d.options.pageSize)
    (hf : d.file.failed = true ∨ File.offset d.options d.metaPage.freelistPage = none) :
    writeFreelist d = .error .strerror { d with file := { d.file with failed := true } } := by
  rw [writeFreelist, Prog.get_bind]
  apply onFile_error
  rw [writeData_eq ((length_freelist d).trans_le h)]
  exact File.writePage_error _ hf

/-- **Written and read back, a freelist has its two numbers cut to 16 bits.** -/
theorem writeFreelist_readFreelist {pos : Nat} (hids : ∀ p ∈ d.freelist.releasedPages, p < 2 ^ 64)
    (h : d.freelistBytes ≤ d.options.pageSize) (hf : d.file.failed = false)
    (hoff : File.offset d.options d.metaPage.freelistPage = some pos) :
    ∃ d', writeFreelist d = .ok () d' ∧
      readFreelist d' = .ok (FreelistSerializer.cut d.freelist) d' := by
  let data := FreelistSerializer.serialize d.freelist
  have hlen : data.length ≤ d.options.pageSize := (length_freelist d).trans_le h
  have hpage : (filled d.options data).length = d.options.pageSize := length_filled hlen
  let file : File := { d.file with bytes := File.put d.file.bytes pos (filled d.options data) }
  refine ⟨{ d with file := file }, ?_, ?_⟩
  · rw [writeFreelist, Prog.get_bind]
    apply onFile_ok
    rw [writeData_eq hlen]
    exact File.writePage_at _ hf hoff
  · have hpos : 0 < d.options.pageSize := Nat.lt_of_lt_of_le (by rw [freelistBytes]; omega) h
    have hread : File.readPage d.options d.metaPage.freelistPage file =
        .ok (filled d.options data) file :=
      File.readPage_at hf hoff (File.has_put _ _ _) hpage hpos
    have hback : FreelistSerializer.deserialize (filled d.options data) =
        some (FreelistSerializer.cut d.freelist) :=
      FreelistSerializer.deserialize_serialize hids (hlen.trans_eq hpage.symm) (has_filled _ _)
    rw [readFreelist, Prog.get_bind, Prog.bind_ok (onFile_ok hread), hback]
    rfl

theorem cut_eq_self {f : Freelist} : FreelistSerializer.cut f = f ↔
    f.maxPage < 2 ^ 16 ∧ f.releasedPages.length < 2 ^ 16 := by
  obtain ⟨maxPage, releasedPages⟩ := f
  simp only [FreelistSerializer.cut, Freelist.mk.injEq, List.take_eq_self_iff]
  constructor
  · rintro ⟨hmax, hcount⟩
    have := Nat.mod_lt maxPage (show 0 < 2 ^ 16 by decide)
    have := Nat.mod_lt releasedPages.length (show 0 < 2 ^ 16 by decide)
    exact ⟨by omega, by omega⟩
  · rintro ⟨hmax, hcount⟩
    exact ⟨Nat.mod_eq_of_lt hmax, (Nat.mod_eq_of_lt hcount).ge⟩

/-- **The freelist survives exactly where its list fits the page and its two numbers fit
16 bits**, or where nothing can be written. -/
theorem keepsFreelist_iff (d : Dal File) (hids : ∀ p ∈ d.freelist.releasedPages, p < 2 ^ 64) :
    d.KeepsFreelist ↔ 4 + 8 * d.freelist.releasedPages.length ≤ d.options.pageSize ∧
      (d.freelist.maxPage < 2 ^ 16 ∧ d.freelist.releasedPages.length < 2 ^ 16 ∨
        d.file.failed = true ∨ File.offset d.options d.metaPage.freelistPage = none) := by
  by_cases hfit : d.freelistBytes ≤ d.options.pageSize
  · by_cases hbad : d.file.failed = true ∨ File.offset d.options d.metaPage.freelistPage = none
    · rw [KeepsFreelist, writeFreelist_error hfit hbad]
      exact ⟨fun _ => ⟨hfit, Or.inr hbad⟩, fun _ => rfl⟩
    · obtain ⟨hsound, hoff⟩ := not_or.mp hbad
      obtain ⟨pos, hpos⟩ := Option.ne_none_iff_exists'.mp hoff
      obtain ⟨d', hwrite, hread⟩ :=
        writeFreelist_readFreelist hids hfit (Bool.eq_false_iff.mpr hsound) hpos
      have hiff : d.KeepsFreelist ↔ FreelistSerializer.cut d.freelist = d.freelist := by
        rw [KeepsFreelist, hwrite]
        simp only [hread, Outcome.ok.injEq, and_true]
      rw [hiff, cut_eq_self]
      exact ⟨fun h => ⟨hfit, Or.inl h⟩, fun h => h.2.resolve_right hbad⟩
  · have hstop := writeFreelist_undefined (not_le.mp hfit)
    rw [KeepsFreelist, hstop]
    exact ⟨False.elim, fun h => hfit h.1⟩

/-- A layer on a new file with the given freelist on page 1. -/
def holding [System] (f : Freelist) : Dal File :=
  ⟨BuiltinOptions.balance, ⟨[], false⟩, ⟨0, 1⟩, f, []⟩

theorem keepsFreelist_iff_two : (∀ p ∈ [7, 9], p < 2 ^ 64) ∧
    ((holding ⟨12, [7, 9]⟩).KeepsFreelist ↔ 4 + 8 * 2 ≤ 4096 ∧ (12 < 2 ^ 16 ∧ 2 < 2 ^ 16 ∨
      false = true ∨ File.offset BuiltinOptions.balance 1 = none)) :=
  ⟨by decide, keepsFreelist_iff (holding ⟨12, [7, 9]⟩) (by decide)⟩

/-- 2^16 pages have been handed out: none are read back. -/
theorem maxPage_cut : ¬ ∀ d : Dal File, d.freelist.maxPage < 2 ^ 64 →
    (∀ p ∈ d.freelist.releasedPages, p < 2 ^ 64) → d.KeepsFreelist := by
  intro h
  have hkeeps := h (holding ⟨65536, []⟩) (by decide) (by decide)
  have hoff : File.offset BuiltinOptions.balance 1 = some 4096 := by decide
  obtain ⟨d', hwrite, hread⟩ := writeFreelist_readFreelist (d := holding ⟨65536, []⟩)
    (by decide) (by decide) rfl hoff
  rw [KeepsFreelist, hwrite] at hkeeps
  have hcut : FreelistSerializer.cut ⟨65536, []⟩ = ⟨65536, []⟩ := by
    have heq := hread.symm.trans hkeeps
    injection heq
  exact absurd (cut_eq_self.mp hcut).1 (by decide)

end Freelist

end Dal

end Toocal
