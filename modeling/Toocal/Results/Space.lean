import Toocal.Library.Traces
import Toocal.Tree.Prices
import Toocal.Tree.Replay

/-!
# How far the page numbers go

`get_next_page` counts a page number up only where no page has been released.  So as long as
no call loses a page, the numbers go as far as the largest tree so far needed, and the pages
below are those of the tree and the released ones, each of them once (`high_water`).
-/

namespace Toocal

open Outcomes Multiway Multiway.Tree Traces Collection Pages4096

/-! ## Taking pages -/

/-- The freelist after `n` pages have been taken. -/
def Freelist.after : Nat → Freelist → Freelist
  | 0, fl => fl
  | n + 1, fl => after n fl.getNextPage.2

theorem Freelist.after_add (m n : Nat) (fl : Freelist) :
    fl.after (m + n) = (fl.after m).after n := by
  induction m generalizing fl with
  | zero => rw [Nat.zero_add]; rfl
  | succ m ih => rw [Nat.succ_add]; exact ih _

theorem Freelist.after_nil (n maxPage : Nat) :
    (⟨maxPage, []⟩ : Freelist).after n = ⟨maxPage + n, []⟩ := by
  induction n generalizing maxPage with
  | zero => rfl
  | succ n ih => exact (ih (maxPage + 1)).trans (by rw [Nat.add_assoc, Nat.add_comm 1])

theorem Freelist.after_cases (n : Nat) (fl : Freelist) :
    (fl.after n).maxPage = fl.maxPage ∨
      (fl.maxPage ≤ (fl.after n).maxPage ∧ (fl.after n).releasedPages = []) := by
  induction n generalizing fl with
  | zero => exact .inl rfl
  | succ n ih =>
    rcases fl.getNextPage_cases with ⟨page, rest, -, he⟩ | ⟨hnone, -⟩
    · rw [after, he]
      exact ih ⟨fl.maxPage, rest⟩
    · obtain ⟨maxPage, released⟩ := fl
      obtain rfl : released = [] := hnone
      rw [after_nil]
      exact .inr ⟨Nat.le_add_right _ _, rfl⟩

/-- From `d` to `d'` `n` pages have been taken, and none has been released. -/
def Takes {φ : Type} (n : Nat) (d d' : Dal φ) : Prop := d'.freelist = d.freelist.after n

theorem graded_takes (φ : Type) : Graded (Takes (φ := φ)) where
  zero _ := rfl
  add := by
    intro m n d d' d'' h h'
    rw [Takes] at h h' ⊢
    rw [h', h, Freelist.after_add]

theorem takes_onFile {φ α : Type} (x : Options → Prog Error φ α) :
    Costs (Takes (φ := φ)) (fun n _ => n = 0) (· = 0) (Dal.onFile x) := by
  refine .get_bind fun d e => ?_
  rw [Prog.zoom]
  cases x d.options e.file with
  | ok a f => exact ⟨0, rfl, rfl⟩
  | error err f => exact ⟨0, rfl, rfl⟩
  | stop c => trivial

/-- Only `get_next_page` takes a page; `write_node` calls it for a node without one. -/
theorem priced_takes (φ : Type) [PageStore φ] : Priced (Takes (φ := φ)) ⟨0, 1, 1, 0⟩ where
  graded := graded_takes φ
  getNode page := by
    have hT := graded_takes φ
    refine .bind hT ((takes_onFile _).mono (fun n content hn => ?_) fun n hn => ?_)
    · exact .ret hT (by simp only; omega)
    · simp only; omega
  getNextPage := fun d => ⟨1, rfl, Nat.le_refl 1⟩
  writeNode node := by
    have hT := graded_takes φ
    have htail : ∀ pageNum : Nat, Costs (Takes (φ := φ)) (fun n _ => n = 0) (· = 0)
        (do
          Dal.onFile fun o => PageStore.save o { node with pageNum := pageNum }
          Prog.modify fun d => { d with written := pageNum :: d.written }
          return { node with pageNum := pageNum } : Prog Error (Dal φ) Node) := by
      intro pageNum
      refine .bind hT ((takes_onFile _).mono (fun n _ hn => ?_) fun _ => id)
      exact .bind hT (.modify (n := 0) (fun d => rfl) (.ret hT (by omega)))
    refine .ite (fun _ => .bind hT ?_) fun _ => ?_
    · exact fun d => ⟨1, rfl, (htail _).mono (fun n _ hn => by simp only; omega)
        fun n hn => by simp only; omega⟩
    · rw [Prog.ret_bind]
      exact (htail _).mono (fun n _ hn => by simp only; omega) fun n hn => by simp only; omega

/-! ## Counting pages -/

theorem perm_of_accounted {fl : Freelist} {ps : List Nat} (hlay : Layout fl firstPages ps)
    (ha : Accounted fl ([0, 1, 2] ++ ps)) :
    (ps ++ fl.releasedPages).Perm (List.range' 3 (fl.maxPage - 2)) := by
  refine (List.perm_ext_iff_of_nodup hlay.nodup List.nodup_range').mpr fun p => ?_
  have hmax : 2 ≤ fl.maxPage := hlay.frame_le 2 (Nat.le_refl 2)
  rw [List.mem_range'_1]
  constructor
  · intro hp
    have hlow : ¬p ≤ 2 := hlay.outside p hp
    have := hlay.le_max p hp
    omega
  · intro hp
    rcases ha p (by omega) with hm | hm
    · rcases List.mem_append.mp hm with hm | hm
      · simp only [List.mem_cons, List.not_mem_nil, or_false] at hm
        omega
      · exact List.mem_append_left _ hm
    · exact List.mem_append_right _ hm

theorem length_of_accounted {fl : Freelist} {ps : List Nat} (hlay : Layout fl firstPages ps)
    (ha : Accounted fl ([0, 1, 2] ++ ps)) :
    ps.length + fl.releasedPages.length + 2 = fl.maxPage := by
  have hlen := (perm_of_accounted hlay ha).length_eq
  have hmax : 2 ≤ fl.maxPage := hlay.frame_le 2 (Nat.le_refl 2)
  rw [List.length_append, List.length_range'] at hlen
  omega

namespace Collection

variable {o : Options} {base : Bytes} {d : Dal File} {name : Bytes} {c c' : Collection File}
  {t : Option PTree}

/-- The call loses no page. -/
def KeepsAt {φ : Type} [PageStore φ] (c : Collection φ) (op : Op) : Prop :=
  ∃ t, c.Shows t ∧ op.KeepsPages c.dal.options (t.map Tree.erase)

/-- A safe call that loses no page, and the number of pages of the tree it leaves. -/
def SizedStep [System] (cap : Capacity) (c : Collection File) (size : Nat) (c' : Collection File) : Prop :=
  ∃ op : Op, SafeAt cap c op ∧ c.KeepsAt op ∧ (op.run c).state? = some c' ∧
    ∃ t, c'.Shows t ∧ (pagesOf t).length = size

/-- **A call counts page numbers up only if it leaves no released page.** -/
theorem Session.maxPage_cases [System] (h : Session o base c t) {op : Op}
    (hsafe : SafeAt (Capacity.page o.pageSize) c op) (hout : (op.run c).state? = some c') :
    c'.dal.freelist.maxPage = c.dal.freelist.maxPage ∨
      (c.dal.freelist.maxPage ≤ c'.dal.freelist.maxPage ∧ c'.dal.freelist.releasedPages = []) := by
  obtain ⟨c₁, t', hends, -⟩ := h.step hsafe
  obtain rfl := Option.some.inj (hends.state?.symm.trans hout)
  cases op with
  | put key value pastEnd =>
    obtain ⟨n, hn, -⟩ := ((priced_takes File).put pastEnd key value).result hends
    rw [show c₁.dal.freelist = c.dal.freelist.after n from hn]
    exact c.dal.freelist.after_cases n
  | remove key =>
    left
    by_cases hkey : valueAt t key = none
    · rw [Op.Ends, if_pos hkey] at hends
      rw [hends.2]
    · rw [Op.Ends, if_neg hkey] at hends
      have hserves := h.serves
      obtain ⟨e, hm, hs, hw, -⟩ := h
      obtain ⟨u, hu, -, hsafe, -⟩ := hsafe
      obtain rfl := hu.unique hserves.toShows
      cases u with
      | none => exact hsafe.elim
      | some u =>
        obtain ⟨ho, hroot⟩ := stands_some.mp hs
        obtain ⟨⟨k, hu⟩, hsorted⟩ := wellFormed_some.mp hw
        obtain ⟨x, hx, hpath⟩ := exists_path key hu.regular
        rw [hm.dal.options] at hsafe
        obtain ⟨e', hrun, -, -, -, -, hmax, -⟩ := remove_ok ho hroot hu hx hpath
          ((found_iff hpath hsorted).mpr hkey) ((removeSafe_erase u).mp hsafe)
        obtain ⟨c₂, hrun', hm'⟩ := (sim_remove key).ok hm hrun
        obtain ⟨-, rfl⟩ := Outcome.ok.inj (hrun'.symm.trans hends)
        rw [hm'.dal.freelist, hm.dal.freelist, hmax]

/-- **The page numbers go as far as the largest tree needed**, and below there is no page but
those of the tree and the released ones. -/
theorem high_water [System] {sizes : List Nat} (hwidth : o.pageSize < 2 ^ 32) (hd : Dal.create o = .ok () d)
    (h : Trace (SizedStep (Capacity.page o.pageSize)) ⟨d, name, 0⟩ sizes c) :
    c.dal.freelist.maxPage = sizes.foldl max 0 + 2 ∧
    ∃ t, c.Shows t ∧ (pagesOf t ++ c.dal.freelist.releasedPages).Perm
      (List.range' 3 (sizes.foldl max 0)) := by
  have hinvariant : ∃ t, Session o d.file.bytes c t ∧
      Accounted c.dal.freelist ([0, 1, 2] ++ pagesOf t) ∧
      c.dal.freelist.maxPage = sizes.foldl max 0 + 2 := by
    refine h.invariant (I := fun sizes c => ∃ t, Session o d.file.bytes c t ∧
      Accounted c.dal.freelist ([0, 1, 2] ++ pagesOf t) ∧
      c.dal.freelist.maxPage = sizes.foldl max 0 + 2) ?_ ?_
    · have hfl : d.freelist = ⟨2, []⟩ := (Dal.of_create hwidth hd).1.freelist
      refine ⟨none, Session.start hwidth hd, ?_, congrArg Freelist.maxPage hfl⟩
      intro p hp
      rw [hfl] at hp
      refine .inl ?_
      simp only [List.mem_append, List.mem_cons, List.not_mem_nil, or_false]
      simp only at hp
      omega
    · rintro sizes size c₁ c₂ ⟨t, hs, ha, hmax⟩ ⟨op, hsafe, ⟨u, hu, hkeeps⟩, hout, v, hv, hsize⟩
      obtain rfl := hu.unique hs.serves.toShows
      rw [hs.options] at hkeeps
      have hcases := hs.maxPage_cases hsafe hout
      obtain ⟨c', t', hends, hs', -, hal⟩ := hs.step hsafe
      obtain rfl := Option.some.inj (hends.state?.symm.trans hout)
      obtain rfl := hv.unique hs'.serves.toShows
      have ha' := (hal hkeeps).accounted [0, 1, 2] ha
      refine ⟨v, hs', ha', ?_⟩
      have hcount := length_of_accounted hs'.layout ha'
      rw [List.foldl_append, List.foldl_cons, List.foldl_nil]
      rcases hcases with hsame | ⟨hle, hnone⟩
      · omega
      · rw [hnone, List.length_nil] at hcount
        omega
  obtain ⟨t, hs, ha, hmax⟩ := hinvariant
  refine ⟨hmax, t, hs.serves.toShows, ?_⟩
  have hperm := perm_of_accounted hs.layout ha
  rwa [hmax, Nat.add_sub_cancel] at hperm

/-- The second of two puts splits the root, and the tree has three pages. -/
theorem high_water_twoPuts : ∃ d c, Dal.create thinNodes = .ok () d ∧
    Trace (SizedStep (Capacity.page 4096)) ⟨d, [], 0⟩ [1, 3] c ∧ c.dal.freelist.maxPage = 5 ∧
    ∃ t, c.Shows t ∧ (pagesOf t ++ c.dal.freelist.releasedPages).Perm [3, 4, 5] := by
  obtain ⟨d, c, c', hd, -, hput, hshows, hsafe, hcalm, hput', hshows'⟩ := exists_twoPuts
  have hfirst : SizedStep (Capacity.page 4096) ⟨d, [], 0⟩ 1 c :=
    ⟨.put [10] [10] ⟨[], []⟩,
      safeAt_first (o := thinNodes) _ (by decide) hd (by decide) (by decide),
      ⟨none, ⟨rfl, by simp⟩, trivial⟩, congrArg Outcome.state? hput, _, hshows, rfl⟩
  have hsecond : SizedStep (Capacity.page 4096) c 3 c' :=
    ⟨_, hsafe, hcalm, congrArg Outcome.state? hput', _, hshows', rfl⟩
  have htrace : Trace (SizedStep (Capacity.page 4096)) ⟨d, [], 0⟩ [1, 3] c' :=
    (Trace.single hfirst).snoc hsecond
  exact ⟨d, c', hd, htrace, high_water (o := thinNodes) (by decide) hd htrace⟩

end Collection

end Toocal
