import Toocal.Tree.MetaRoot
import Toocal.Tree.Replay

/-!
# Closing and reopening a database

`initialize_database` writes the meta page and the freelist page, and nothing writes them
again.  A reopened database therefore has root 0 and counts its pages from 1.

Under root 0 every search fails in a database of up to 2^40 bytes (`find_meta`): the
answers of the first session come back only if it has put nothing (`durable_iff`).

The first page that is handed out after reopening is page 2, which the first session has
in use (`not_noReissue`).
-/

namespace Toocal

open Outcomes Buffers Multiway Multiway.Tree Collection Pages4096

variable {o : Options} {d : Dal File} {c : Collection File} {name : Bytes}

/-! ## Durability -/

/-- A collection on the reopened database, under the root of the meta page, finds what the
closed one found. -/
def Durable [System] (o : Options) (c : Collection File) : Prop :=
  ∃ d', Dal.reopen o (Dal.close c.dal) = .ok () d' ∧
    ∀ key, (find key ⟨d', c.name, d'.metaPage.root⟩).answer = (find key c).answer

section Durability

variable [System] (hwidth : o.pageSize < 2 ^ 32) (hd : Dal.create o = .ok () d)
  (hrun : Runs (SafeAt (Capacity.page o.pageSize)) ⟨d, name, 0⟩ c)
  (hsmall : c.dal.file.bytes.length ≤ 2 ^ 40)
include hwidth hd hrun hsmall

theorem find_reopened : Dal.reopen o (Dal.close c.dal) = .ok () (Dal.reopened o c.dal.file.bytes) ∧
    ∀ key, (find key ⟨Dal.reopened o c.dal.file.bytes, c.name, 0⟩).answer =
      .error (if o.pageSize % 2 ^ 24 = 0 then .inr .diverged else .inl .strerror) := by
  obtain ⟨t, h⟩ := Session.of_run hwidth hd hrun
  exact ⟨h.reopen hwidth hd, find_meta rfl rfl rfl (Dal.large_of_create hwidth hd)
    (h.firstTwo hwidth hd).1 hsmall⟩

/-- Once something has been put every search returned a result, so none comes back. -/
theorem not_durable_of_root (hroot : c.root ≠ 0) : ¬Durable o c := by
  obtain ⟨t, h⟩ := Session.of_run hwidth hd hrun
  obtain ⟨hreopen, hlost⟩ := find_reopened hwidth hd hrun hsmall
  rintro ⟨d', hd', hfind⟩
  obtain ⟨-, rfl⟩ := Outcome.ok.inj (hreopen.symm.trans hd')
  cases t with
  | none => exact hroot h.serves.root
  | some u =>
    have := (hlost []).symm.trans (hfind [])
    rw [h.serves.find h.wellFormed] at this
    cases this

/-- **A session is durable only as long as nothing has been put.** -/
theorem durable_iff : Durable o c ↔ c.root = 0 := by
  constructor
  · intro hdurable
    by_contra hroot
    exact not_durable_of_root hwidth hd hrun hsmall hroot hdurable
  · intro hroot
    obtain ⟨t, h⟩ := Session.of_run hwidth hd hrun
    obtain ⟨hreopen, hlost⟩ := find_reopened hwidth hd hrun hsmall
    refine ⟨_, hreopen, fun key => (hlost key).trans ?_⟩
    exact (find_meta hroot h.options h.sound (Dal.large_of_create hwidth hd)
      (h.firstTwo hwidth hd).1 hsmall key).symm

end Durability

theorem exists_small_put : ∃ d c, Dal.create BuiltinOptions.balance = .ok () d ∧
    Runs (SafeAt (Capacity.page 4096)) ⟨d, [], 0⟩ c ∧
    put ⟨[], []⟩ [7] [8] ⟨d, [], 0⟩ = .ok () c ∧ c.root ≠ 0 ∧
    c.dal.file.bytes.length ≤ 2 ^ 40 := by
  obtain ⟨d, c, t, hd, hrun, hput, hs, -⟩ := exists_first_put BuiltinOptions.balance [7] [8]
    (by decide) (by decide) (by decide) (by decide)
  obtain ⟨hm, hlen, -⟩ := Dal.of_create (by decide) hd
  have hshelf : ∃ p ∈ (put ⟨[], []⟩ [7] [8] (⟨Dal.begun BuiltinOptions.balance, [], 0⟩ :
      Collection (Shelf (Capacity.page 4096)))).result?, p.2.dal.written = [3, 2] := by
    decide +kernel
  obtain ⟨⟨⟨⟩, e⟩, he, hwritten⟩ := hshelf
  have hstart : Mirror d.file.bytes ⟨d, [], 0⟩ ⟨Dal.begun BuiltinOptions.balance, [], 0⟩ :=
    ⟨hm, rfl, rfl⟩
  obtain ⟨c', hc', hm'⟩ := (sim_put _ _ _).ok hstart (Outcome.eq_ok_of_result? he)
  obtain ⟨-, rfl⟩ := Outcome.ok.inj (hc'.symm.trans hput)
  refine ⟨d, c', hd, hrun, hput, hs.root_ne_zero, ?_⟩
  refine (hm'.dal.length_le (4 * 4096) (by rw [hlen]; decide) fun p hp => ?_).trans (by decide)
  rw [hm'.dal.written, hwritten] at hp
  revert p
  decide

theorem durable_iff_small : ∃ d c, Dal.create BuiltinOptions.balance = .ok () d ∧
    put ⟨[], []⟩ [7] [8] ⟨d, [], 0⟩ = .ok () c ∧
    (Durable BuiltinOptions.balance c ↔ c.root = 0) := by
  obtain ⟨d, c, hd, hrun, hput, -, hsmall⟩ := exists_small_put
  exact ⟨d, c, hd, hput, durable_iff (by decide) hd hrun hsmall⟩

/-- **After one put the reopened database has lost the key.** -/
theorem not_durable_small : ∃ d c, Dal.create BuiltinOptions.balance = .ok () d ∧
    put ⟨[], []⟩ [7] [8] ⟨d, [], 0⟩ = .ok () c ∧ ¬Durable BuiltinOptions.balance c := by
  obtain ⟨d, c, hd, hrun, hput, hroot, hsmall⟩ := exists_small_put
  exact ⟨d, c, hd, hput, not_durable_of_root (by decide) hd hrun hsmall hroot⟩

/-! ## Pages handed out again -/

/-- The pages the next calls of `get_next_page` hand out. -/
def Freelist.nextPages : Nat → Freelist → List Nat
  | 0, _ => []
  | calls + 1, f => f.getNextPage.1 :: nextPages calls f.getNextPage.2

/-- Handed out and not released. -/
def InUse (f : Freelist) (p : Nat) : Prop := 0 < p ∧ p ≤ f.maxPage ∧ p ∉ f.releasedPages

/-- After reopening, no call of `get_next_page` hands out a page that the closed session
has in use. -/
def NoReissue (o : Options) (c : Collection File) : Prop :=
  ∃ d', Dal.reopen o (Dal.close c.dal) = .ok () d' ∧
    ∀ calls, ∀ p ∈ d'.freelist.nextPages calls, ¬InUse c.dal.freelist p

theorem mem_nextPages {calls p : Nat} (h : p < calls) (n : Nat) :
    n + p + 1 ∈ (⟨n, []⟩ : Freelist).nextPages calls := by
  induction calls generalizing n p with
  | zero => omega
  | succ calls ih =>
    cases p with
    | zero => exact List.mem_cons_self
    | succ p =>
      apply List.mem_cons_of_mem
      have := ih (p := p) (by omega) (n + 1)
      rwa [Nat.add_right_comm n 1 p] at this

section Reissue

variable [System] (hwidth : o.pageSize < 2 ^ 32) (hd : Dal.create o = .ok () d)
  (hrun : Runs (SafeAt (Capacity.page o.pageSize)) ⟨d, name, 0⟩ c)
include hwidth hd hrun

theorem reissued (d' : Dal File) (hd' : Dal.reopen o (Dal.close c.dal) = .ok () d') (p : Nat) :
    p + 2 ∈ d'.freelist.nextPages (p + 1) := by
  obtain ⟨t, h⟩ := Session.of_run hwidth hd hrun
  obtain ⟨-, rfl⟩ := Outcome.ok.inj ((h.reopen hwidth hd).symm.trans hd')
  have := mem_nextPages (Nat.lt_succ_self p) 1
  rwa [show 1 + p + 1 = p + 2 by omega] at this

/-- The pages of the tree are in use and are handed out again. -/
theorem root_reissued (hroot : c.root ≠ 0) : InUse c.dal.freelist c.root ∧
    ∀ d', Dal.reopen o (Dal.close c.dal) = .ok () d' →
      c.root ∈ d'.freelist.nextPages (c.root - 1) := by
  obtain ⟨t, h⟩ := Session.of_run hwidth hd hrun
  have hmem : c.root ∈ pagesOf t := by
    rw [h.serves.root]
    cases t with
    | none => exact absurd h.serves.root hroot
    | some u => exact tag_mem_tags u
  have hlay := h.layout
  have hout : c.root ∉ firstPages := hlay.outside _ (List.mem_append_left _ hmem)
  have hlarge : 2 < c.root := Nat.lt_of_not_le hout
  refine ⟨⟨Nat.pos_of_ne_zero hroot, hlay.le_max _ (List.mem_append_left _ hmem),
    fun hr => List.disjoint_of_nodup_append hlay.nodup hmem hr⟩, fun d' hd' => ?_⟩
  have := reissued hwidth hd hrun d' hd' (c.root - 2)
  rwa [show c.root - 2 + 2 = c.root by omega, show c.root - 2 + 1 = c.root - 1 by omega] at this

/-- Page 2 is in use in every session: nobody releases it. -/
theorem second_inUse : InUse c.dal.freelist 2 := by
  obtain ⟨t, h⟩ := Session.of_run hwidth hd hrun
  exact ⟨by omega, h.layout.frame_le 2 (Nat.le_refl 2),
    fun hm => h.layout.outside 2 (List.mem_append_right _ hm) (Nat.le_refl 2)⟩

/-- **The freelist on disk hands out pages in use**, after every session. -/
theorem not_noReissue : ¬NoReissue o c := by
  rintro ⟨d', hd', hnone⟩
  exact hnone 1 2 (reissued hwidth hd hrun d' hd' 0) (second_inUse hwidth hd hrun)

end Reissue

theorem not_noReissue_first_put : ∃ d c, Dal.create BuiltinOptions.balance = .ok () d ∧
    put ⟨[], []⟩ [7] [8] ⟨d, [], 0⟩ = .ok () c ∧ ¬NoReissue BuiltinOptions.balance c := by
  obtain ⟨d, c, t, hd, hrun, hput, -⟩ := exists_first_put BuiltinOptions.balance [7] [8]
    (by decide) (by decide) (by decide) (by decide)
  exact ⟨d, c, hd, hput, not_noReissue (by decide) hd hrun⟩

/-- **The root page of the closed session is handed out again.** -/
theorem noReissue_fails_at_root : ∃ d c, Dal.create BuiltinOptions.balance = .ok () d ∧
    put ⟨[], []⟩ [7] [8] ⟨d, [], 0⟩ = .ok () c ∧ InUse c.dal.freelist c.root ∧
    ∃ d', Dal.reopen BuiltinOptions.balance (Dal.close c.dal) = .ok () d' ∧
      c.root ∈ d'.freelist.nextPages (c.root - 1) := by
  obtain ⟨d, c, t, hd, hrun, hput, hs, -⟩ := exists_first_put BuiltinOptions.balance [7] [8]
    (by decide) (by decide) (by decide) (by decide)
  obtain ⟨hin, hagain⟩ := root_reissued (by decide) hd hrun hs.root_ne_zero
  have hreopen := hs.reopen (by decide) hd
  exact ⟨d, c, hd, hput, hin, _, hreopen, hagain _ hreopen⟩

end Toocal
