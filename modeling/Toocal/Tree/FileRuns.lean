import Toocal.Store.Session
import Toocal.Tree.Runs

/-!
# Runs on the database file

`Session o base c t` is the invariant of a collection on a database that was created with
the options `o` and had the bytes `base` then: it mirrors a collection on a shelf, the
shelf holds the well-formed tree `t` under its root, and the three pages of
`initialize_database` have been left alone since.

`Session.step`: every safe call keeps it and does what `Op.outline` says, and so does
every run of safe calls (`Session.of_run`).
-/

namespace Toocal

open Outcomes Multiway Multiway.Tree Traces

namespace Collection

variable [System] {pageSize : Nat} {base : Bytes} {c : Collection File}
  {e : Collection (Shelf (Capacity.page pageSize))} {F : Set Nat} {t : Option PTree}

theorem Mirror.reads (h : Mirror base c e) {u : PTree} (hu : e.dal.Holds u) : c.dal.Reads u :=
  fun v hv => h.dal.getNode_ok (hu v hv)

theorem Mirror.serves (h : Mirror base c e) (hs : e.Stands F t) : c.Serves t where
  root := h.root.trans hs.root
  reads u hu := ⟨(hs.serves.reads u hu).1, h.reads (hs.holds u hu)⟩
  fuel := Nat.lt_of_lt_of_le hs.serves.fuel h.dal.fuel_le

end Collection

open Collection

/-- **A fresh and safe call on the file** ends as `Op.Ends` says, and does to the pages
what `Op.outline` says. -/
theorem Op.run_file [System] {pageSize : Nat} {base : Bytes} {c : Collection File}
    {e : Collection (Shelf (Capacity.page pageSize))} {F : Set Nat} {t : Option PTree} {op : Op}
    (hm : Mirror base c e) (hs : e.Stands F t) (hw : WellFormed t) (hf : op.Fresh t)
    (hsafe : op.Safe (Capacity.page pageSize) c.dal.options (t.map Tree.erase))
    (hn : op.Numbers (Capacity.page pageSize) c.dal.freelist.maxPage t) :
    ∃ c' e' t', op.Ends t c c' ∧ Mirror base c' e' ∧ e'.Stands F t' ∧
      t'.map Tree.erase = op.outline c.dal.options (t.map Tree.erase) ∧
      Dal.Keeps F e.dal e'.dal ∧ (op.KeepsPages c.dal.options (t.map Tree.erase) →
        Allots c.dal.freelist c'.dal.freelist (pagesOf t) (pagesOf t')) := by
  rw [hm.dal.options] at hsafe ⊢
  rw [hm.dal.freelist] at hn ⊢
  obtain ⟨e', t', hends, hs', he, -, hk, hal⟩ := Op.run_ok hs hw hf hsafe hn
  cases op with
  | put key value pastEnd =>
    obtain ⟨c', hrun, hm'⟩ := (sim_put pastEnd key value).ok hm hends
    exact ⟨c', e', t', hrun, hm', hs', he, hk, by rw [hm'.dal.freelist]; exact hal⟩
  | remove key =>
    by_cases hkey : valueAt t key = none
    · rw [Op.Ends, if_pos hkey] at hends
      obtain ⟨-, rfl⟩ := hends
      refine ⟨c, e', t', ?_, hm, hs', he, hk, by rw [hm.dal.freelist]; exact hal⟩
      cases t with
      | none => exact hsafe.elim
      | some u =>
        rw [Op.Ends, if_pos hkey]
        exact ⟨(hm.serves hs).remove_absent hw hkey, rfl⟩
    · rw [Op.Ends, if_neg hkey] at hends
      obtain ⟨c', hrun, hm'⟩ := (sim_remove key).ok hm hends
      refine ⟨c', e', t', ?_, hm', hs', he, hk, by rw [hm'.dal.freelist]; exact hal⟩
      rw [Op.Ends, if_neg hkey]
      exact hrun

namespace Collection

/-- The pages `initialize_database` takes: the meta page, the freelist page, and the page
of a node that no collection has. -/
def firstPages : Set Nat := {p | p ≤ 2}

/-- **The invariant of a collection on a created database.** -/
def Session [System] (o : Options) (base : Bytes) (c : Collection File) (t : Option PTree) : Prop :=
  ∃ e : Collection (Shelf (Capacity.page o.pageSize)), Mirror base c e ∧ e.Stands firstPages t ∧
    WellFormed t ∧ Dal.Keeps firstPages (Dal.begun o) e.dal

theorem layout_begun : Layout ⟨2, []⟩ firstPages [] :=
  ⟨by simp, by simp, by simp, fun _ hp => hp, Nat.zero_le 2⟩

section Session

variable {o : Options} {base : Bytes} {c : Collection File} {t : Option PTree} {d : Dal File}
  {name : Bytes}

theorem Session.start [System] (hwidth : o.pageSize < 2 ^ 32) (hd : Dal.create o = .ok () d) :
    Session o d.file.bytes ⟨d, name, 0⟩ none :=
  ⟨⟨Dal.begun o, name, 0⟩, ⟨(Dal.of_create hwidth hd).1, rfl, rfl⟩,
    stands_none.mpr ⟨layout_begun, rfl⟩, wellFormed_none, Dal.Keeps.refl _ _⟩

theorem Session.serves [System] (h : Session o base c t) : c.Serves t := by
  obtain ⟨e, hm, hs, -⟩ := h
  exact hm.serves hs

theorem Session.wellFormed [System] (h : Session o base c t) : WellFormed t := by
  obtain ⟨e, -, -, hw, -⟩ := h
  exact hw

theorem Session.options [System] (h : Session o base c t) : c.dal.options = o := by
  obtain ⟨e, hm, -, -, hk⟩ := h
  exact hm.dal.options.trans hk.options

theorem Session.room [System] (h : Session o base c t) {u v : PTree} (hu : u ∈ t) (hv : v ∈ u.subtrees) :
    PageRoom v.items v.children.length := by
  obtain ⟨e, -, hs, -⟩ := h
  have hfit := (Dal.fits_of_at? (hs.holds u hu v hv)).1
  rw [room_page, List.length_map] at hfit
  exact hfit

theorem Session.layout [System] (h : Session o base c t) :
    Layout c.dal.freelist firstPages (pagesOf t) := by
  obtain ⟨e, hm, hs, -⟩ := h
  rw [hm.dal.freelist]
  exact hs.layout

theorem Session.metaPage [System] (h : Session o base c t) : c.dal.metaPage = ⟨0, 1⟩ := by
  obtain ⟨e, hm, -, -, hk⟩ := h
  exact hm.dal.metaPage.trans hk.metaPage

/-- The meta page and the freelist page are never written by `write_node`. -/
theorem Session.notWritten [System] (h : Session o base c t) {p : Nat} (hp : p < 2) :
    p ∉ c.dal.written := by
  obtain ⟨e, hm, -, -, hk⟩ := h
  obtain ⟨w, hw, hF⟩ := hk.written
  rw [hm.dal.written, hw]
  intro hmem
  rcases List.mem_append.mp hmem with hmem | hmem
  · exact hF p hmem (Nat.le_of_lt hp)
  · exact Nat.ne_of_lt hp (List.mem_singleton.mp hmem)

/-- **Every safe call keeps the invariant**, and loses no page if `Op.KeepsPages` holds. -/
theorem Session.step [System] (h : Session o base c t) {op : Op}
    (hsafe : SafeAt (Capacity.page o.pageSize) c op) :
    ∃ c' t', op.Ends t c c' ∧ Session o base c' t' ∧
      t'.map Tree.erase = op.outline o (t.map Tree.erase) ∧
      (op.KeepsPages o (t.map Tree.erase) →
        Allots c.dal.freelist c'.dal.freelist (pagesOf t) (pagesOf t')) := by
  have hop := h.options
  have hserves := h.serves
  obtain ⟨e, hm, hs, hw, hk⟩ := h
  obtain ⟨u, hu, hf, hsafe', hn⟩ := hsafe
  obtain rfl := hu.unique hserves.toShows
  obtain ⟨c', e', t', hends, hm', hs', he, hk', hal⟩ := Op.run_file hm hs hw hf hsafe' hn
  rw [hop] at he hsafe' hal
  exact ⟨c', t', hends, ⟨e', hm', hs', hw.next hf hsafe' he, hk.trans hk'⟩, he, hal⟩

/-- **So does every run of safe calls.** -/
theorem Session.of_run [System] (hwidth : o.pageSize < 2 ^ 32) (hd : Dal.create o = .ok () d)
    (hrun : Runs (SafeAt (Capacity.page o.pageSize)) ⟨d, name, 0⟩ c) :
    ∃ t, Session o d.file.bytes c t := by
  induction hrun with
  | refl => exact ⟨none, Session.start hwidth hd⟩
  | tail _ hstep ih =>
    obtain ⟨t, h⟩ := ih
    obtain ⟨op, hsafe, hout⟩ := hstep
    obtain ⟨c', t', hends, h', -⟩ := h.step hsafe
    obtain rfl := Option.some.inj (hends.state?.symm.trans hout)
    exact ⟨t', h'⟩

theorem Session.of_trace [System] {ops : List Op} (hwidth : o.pageSize < 2 ^ 32)
    (hd : Dal.create o = .ok () d)
    (h : Trace (Call (SafeAt (Capacity.page o.pageSize))) ⟨d, name, 0⟩ ops c) :
    ∃ t, Session o d.file.bytes c t ∧ t.map Tree.erase = outlineAfter o ops := by
  refine h.invariant (I := fun ops c => ∃ t, Session o d.file.bytes c t ∧
    t.map Tree.erase = outlineAfter o ops) ⟨none, Session.start hwidth hd, rfl⟩ ?_
  rintro ops op c c' ⟨t, hs, he⟩ ⟨hsafe, hout⟩
  obtain ⟨c'', t', hends, hs', he', -⟩ := hs.step hsafe
  obtain rfl := Option.some.inj (hends.state?.symm.trans hout)
  exact ⟨t', hs', by rw [he', he, outlineAfter_snoc]⟩

theorem Session.root_ne_zero [System] {u : PTree} (h : Session o base c (some u)) : c.root ≠ 0 := by
  rw [h.serves.root]
  exact (h.serves.reads u rfl).1

theorem Session.root_of_step [System] {c' : Collection File} (h : Session o base c t) {op : Op}
    (hsafe : SafeAt (Capacity.page o.pageSize) c op) (hout : (op.run c).state? = some c') :
    c'.root ≠ 0 := by
  obtain ⟨c₁, t', hends, h', he, -⟩ := h.step hsafe
  obtain rfl := Option.some.inj (hends.state?.symm.trans hout)
  obtain ⟨u, hu, -, hsafe', -⟩ := hsafe
  obtain rfl := hu.unique h.serves.toShows
  cases t' with
  | some u' => exact h'.root_ne_zero
  | none =>
    cases op with
    | put key value pastEnd => cases u <;> cases he
    | remove key =>
      cases u with
      | none => exact hsafe'.elim
      | some u => cases he

/-- After a run of safe calls there is a root, unless there was no call. -/
theorem eq_start_or_root [System] (hwidth : o.pageSize < 2 ^ 32) (hd : Dal.create o = .ok () d)
    (hrun : Runs (SafeAt (Capacity.page o.pageSize)) ⟨d, name, 0⟩ c) :
    c = ⟨d, name, 0⟩ ∨ c.root ≠ 0 := by
  rcases hrun.cases_tail with rfl | ⟨c₁, hrun₁, op, hsafe, hout⟩
  · exact Or.inl rfl
  · obtain ⟨t, h⟩ := Session.of_run hwidth hd hrun₁
    exact Or.inr (h.root_of_step hsafe hout)

theorem safeAt_first [System] (pastEnd : Item) {key value : Bytes} (hwidth : o.pageSize < 2 ^ 32)
    (hd : Dal.create o = .ok () d) (hk : key.length ≤ 255) (hv : value.length ≤ 255) :
    SafeAt (Capacity.page o.pageSize) ⟨d, name, 0⟩ (.put key value pastEnd) := by
  have hs : Session o d.file.bytes ⟨d, name, 0⟩ none := Session.start hwidth hd
  have hfl : d.freelist = ⟨2, []⟩ := (Dal.of_create hwidth hd).1.freelist
  refine ⟨none, hs.serves.toShows, rfl, room_page.mpr ⟨Or.inl rfl, ?_, ?_⟩, names_page.mpr ?_⟩
  · simpa [Item.Short] using ⟨hk, hv⟩
  · have hlarge := le_defaultPageSize
    simp [cellsSize, cell, headerSize, pageNumSize]
    omega
  · simp only [hfl]
    omega

/-- **A run with one put**: there is a database, and the collection has a leaf. -/
theorem exists_first_put [System] (o : Options) (key value : Bytes) (hlarge : defaultPageSize ≤ o.pageSize)
    (hwidth : o.pageSize < 2 ^ 32) (hk : key.length ≤ 255) (hv : value.length ≤ 255) :
    ∃ d c t, Dal.create o = .ok () d ∧ Runs (SafeAt (Capacity.page o.pageSize)) ⟨d, [], 0⟩ c ∧
      put ⟨[], []⟩ key value ⟨d, [], 0⟩ = .ok () c ∧
      Session o d.file.bytes c (some t) ∧ t.erase = .node () [⟨key, value⟩] [] := by
  obtain ⟨d, hd, -⟩ := Dal.create_ok hlarge (by omega)
  have hsafe : SafeAt (Capacity.page o.pageSize) ⟨d, [], 0⟩ (.put key value ⟨[], []⟩) :=
    safeAt_first _ hwidth hd hk hv
  obtain ⟨c, t, hends, hs, he, -⟩ := (Session.start hwidth hd).step hsafe
  cases t with
  | none => cases he
  | some t => exact ⟨d, c, t, hd, .single ⟨_, hsafe, hends.state?⟩, hends, hs, Option.some.inj he⟩

end Session

end Collection

end Toocal
