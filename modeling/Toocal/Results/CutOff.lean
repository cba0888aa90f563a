import Toocal.Results.CrashSafety
import Toocal.Tree.Sound

/-!
# A call that is cut off

A put that is not calm, or a remove that repairs its path, can lose items when the process
ends between two of its writes: an item has left one page and is not on the other yet.  It
does no other harm.  Who opens the file and searches from the root there was gets an answer
for every key, and what is found is what was stored under this key, or has just been put
(`call_interrupted`).
-/

namespace Toocal

open Outcomes Buffers Multiway Multiway.Tree Collection Pages4096

/-- Who opens a file with these bytes, and searches from page `r` on, gets an answer for every
key, and finds nothing under it that is not allowed. -/
def NeverWrong [System] (o : Options) (name bytes : Bytes) (r : Nat) (allowed : Item → Prop) : Prop :=
  ∃ d, Dal.reopen o bytes = .ok () d ∧ ∀ key, ∃ answer,
    find key ⟨d, name, r⟩ = .ok answer ⟨d, name, r⟩ ∧
      ∀ item ∈ answer, item.key = key ∧ allowed item

def Op.Puts (item : Item) : Op → Prop
  | .put key value _ => item = ⟨key, value⟩
  | .remove _ => False

theorem onlySaved_shelf {cap : Capacity} : OnlySaved fun _ : Shelf cap => () :=
  ⟨fun _ => rfl, fun _ => rfl⟩

theorem Simulates.sim_run {φ ψ : Type} [PageStore φ] [PageStore ψ] {R : Dal φ → Dal ψ → Prop}
    {S : Collection φ → Collection ψ → Prop} (hs : Simulates R S) (op : Op) :
    Sim S op.run op.run := by
  cases op with
  | put key value pastEnd => exact hs.sim_put pastEnd key value
  | remove key => exact hs.sim_remove key

/-! ## What a sound store answers -/

theorem of_seek {π : Type} {t : Tree π Item} (hr : Regular t) {key : Bytes} {item : Item}
    (h : seek (findKeyInNode key) t = some item) : item.key = key ∧ item ∈ t.inorder := by
  obtain ⟨x, hx, hpath⟩ := exists_path key hr
  rw [seek_of_locate hx] at h
  cases hf : x.found with
  | false =>
    rw [hf] at h
    cases h
  | true =>
    rw [hf, if_pos rfl] at h
    obtain ⟨a, ha, hkey, -⟩ := hpath.mem (scans_findKeyInNode key) hf
    obtain rfl := Option.some.inj (ha.symm.trans h)
    refine ⟨hkey, ?_⟩
    rw [← hpath.eq, inorder_plugAll]
    have hmem := (items_sublist_inorder x.focus).subset (List.mem_of_getElem? h)
    simp [hmem]

section Sound

variable {o : Options} {d : Dal File} {name : Bytes} {l : Item → Prop} {r : Nat}

theorem Was.neverWrong [System] (hwidth : o.pageSize < 2 ^ 32) (hd : Dal.create o = .ok () d)
    {written : List Nat} (hfirst : ∀ p < 2, p ∉ written) {f : File}
    {s : Shelf (Capacity.page o.pageSize)} (hw : Was (Mirrors d.file.bytes) written f s)
    (hs : s.Sound l r) : NeverWrong o name f.bytes r l := by
  obtain ⟨lev, k, hlevelled, hr⟩ := hs
  obtain ⟨t, rfl, hu, hholds, hitems⟩ := hlevelled.exists_tree hr
  obtain ⟨d', hreopen, hfind⟩ := hw.finds name hwidth hd hfirst hholds hu.regular
  refine ⟨d', hreopen, fun key => ⟨_, hfind key, fun item hitem => ?_⟩⟩
  obtain ⟨hkey, hmem⟩ := of_seek hu.regular hitem
  exact ⟨hkey, hitems item hmem⟩

theorem NeverWrong.mono [System] {bytes : Bytes} {l' : Item → Prop} (h : NeverWrong o name bytes r l)
    (hl : ∀ a, l a → l' a) : NeverWrong o name bytes r l' := by
  obtain ⟨d, hreopen, hfind⟩ := h
  refine ⟨d, hreopen, fun key => ?_⟩
  obtain ⟨answer, hanswer, hitems⟩ := hfind key
  exact ⟨answer, hanswer, fun item hitem => (hitems item hitem).imp_right (hl item)⟩

end Sound

/-! ## A call on a shelf -/

section Shelves

variable {cap : Capacity} {e : Collection (Shelf cap)} {F : Set Nat} {t : PTree} {op : Op}

/-- **A call survives being cut off**: before each of its writes the shelf is sound. -/
theorem Collection.Stands.survives {j : Collection (Ledger cap)} (hs : e.Stands F (some t))
    (hw : WellFormed (some t)) (hf : op.Fresh (some t))
    (hrun : (op.run (e.journal [])).state? = some j) :
    Survives (fun a => a ∈ t.inorder ∨ op.Puts a) e.root j.dal := by
  obtain ⟨⟨h, hu⟩, -⟩ := wellFormed_some.mp hw
  obtain ⟨ho, hroot⟩ := stands_some.mp hs
  set lev : Nat → Nat → Prop := fun p k => ∃ u ∈ t.subtrees, u.tag = p ∧ Uniform k u with hlev
  have hlevelled : Levelled (· ∈ t.inorder) lev e.dal.file.lookup :=
    levelled_of_tree ho.nodup ho.holds
  have hheld : ∀ p k, lev p k → p ∈ t.tags := by
    rintro p k ⟨u, hu, rfl, -⟩
    exact List.mem_map_of_mem hu
  have htop : lev e.root h := ⟨t, mem_subtrees_self t, hroot.symm, hu⟩
  have hb : Based lev e.root :=
    ⟨⟨h, htop⟩, hlevelled.single, fun k hk => ho.layout.ne_zero (hheld 0 k hk) rfl⟩
  have hsane : ∀ K : Freelist → Prop, K e.dal.freelist →
      Sane cap (· ∈ t.inorder) lev e.root K (e.dal.journal []) :=
    fun K hK => ⟨hlevelled, List.forall_mem_nil _, hK⟩
  cases op with
  | put key value pastEnd =>
    have habsent : ∀ a, a ∈ t.inorder → a.key ≠ key := itemOf_eq_none.mp hf
    have hne : e.root ≠ 0 := fun hzero => hb.zero h (hzero ▸ htop)
    exact (ensures_put hne hb htop hheld (fun a => .inl) (.inr rfl) habsent).state?
      ⟨rfl, hsane _ ho.layout⟩ hrun
  | remove key =>
    have hsurvives : Survives (· ∈ t.inorder) e.root j.dal :=
      (ensures_remove hb htop key).state? ⟨rfl, hsane _ trivial⟩ hrun
    intro s hs
    obtain ⟨lev', k, hlevelled', hk⟩ := hsurvives s hs
    exact ⟨lev', k, hlevelled'.mono fun a => .inl, hk⟩

end Shelves

/-! ## The theorem -/

section Call

variable {o : Options} {d : Dal File} {name : Bytes} {c : Collection File} {op : Op}
  {m : Bytes → Option Item}

/-- **Wherever a call is cut off, what is found is not wrong.** -/
theorem call_interrupted [System] (hwidth : o.pageSize < 2 ^ 32) (hd : Dal.create o = .ok () d)
    (hrun : Runs (SafeAt (Capacity.page o.pageSize)) ⟨d, name, 0⟩ c)
    (hsafe : SafeAt (Capacity.page o.pageSize) c op) (hroot : c.root ≠ 0) (hm : c.Answers m) :
    ∃ j, (op.run (c.journal [])).state? = some j ∧ (op.run c).state? = some j.plain ∧
      j.dal.file.first.bytes = c.dal.file.bytes ∧
      ∀ f ∈ j.dal.file.now :: j.dal.file.past, NeverWrong o name f.bytes c.root
        fun item => m item.key = some item ∨ op.Puts item := by
  obtain ⟨t, h⟩ := Session.of_run hwidth hd hrun
  obtain rfl : m = valueAt t := h.answers hm
  have hserves := h.serves
  cases t with
  | none => exact absurd hserves.root hroot
  | some t =>
    obtain ⟨c', t', hends, h', -⟩ := h.step hsafe
    have hfirst : ∀ p < 2, p ∉ c'.dal.written := fun p hp => h'.notWritten hp
    obtain ⟨u, hu, hf, hsafe', hn⟩ := hsafe
    obtain rfl := hu.unique hserves.toShows
    have hw := h.wellFormed
    obtain ⟨e, hmirror, hs, -⟩ := h
    rw [hmirror.dal.options] at hsafe'
    rw [hmirror.dal.freelist] at hn
    obtain ⟨e', t₁, hends', -⟩ := Op.run_ok hs hw hf hsafe' hn
    -- the shelf, and the file, do the same with a journal
    obtain ⟨je, hje, -, -⟩ := ((onlySaved_shelf.simulates ()).sim_run op).state?
      (s := e.journal []) (t := e) ⟨rfl, rfl⟩ hends'.state?
    obtain ⟨j, hj, rfl, holdest⟩ := ((onlySaved_bytes.simulates c.dal.file.bytes).sim_run op).state?
      (s := c.journal []) (t := c) ⟨rfl, rfl⟩ hends.state?
    obtain ⟨j', hj', hjournaled, -⟩ := (mirrors_simulates.journal.sim_run op).state?
      (s := c.journal []) (t := e.journal []) ⟨⟨hmirror.dal, .nil⟩, hmirror⟩ hje
    obtain rfl := Option.some.inj (hj'.symm.trans hj)
    refine ⟨j', hj, hends.state?, holdest, ?_⟩
    obtain ⟨hnow, hpast⟩ := List.forall_mem_cons.mp (hs.survives hw hf hje)
    have hallowed : ∀ item : Item, item ∈ t.inorder ∨ op.Puts item →
        valueAt (some t) item.key = some item ∨ op.Puts item := fun item =>
      .imp_left fun hmem => (itemOf_eq_some hw.sorted).mpr ⟨hmem, rfl⟩
    have hwrong : ∀ f s, Was (Mirrors d.file.bytes) j'.dal.written f s →
        s.Sound (fun a => a ∈ t.inorder ∨ op.Puts a) e.root →
        NeverWrong o name f.bytes c.root fun item =>
          valueAt (some t) item.key = some item ∨ op.Puts item := fun f s hwas hsound => by
      rw [hmirror.root]
      exact (hwas.neverWrong hwidth hd hfirst hsound).mono hallowed
    refine List.forall_mem_cons.mpr ⟨hwrong _ _ ?_ hnow, ?_⟩
    · exact ⟨j'.dal.plain, je.dal.plain, hjournaled.now, rfl, rfl, List.Subset.refl _⟩
    · exact forall_of_forall₂ hjournaled.past hpast hwrong

end Call

/-- The second put splits the root, and may be cut off before the root has changed. -/
theorem call_interrupted_split : ∃ d c j, Dal.create thinNodes = .ok () d ∧
    put ⟨[], []⟩ [10] [10] ⟨d, [], 0⟩ = .ok () c ∧
    ((Op.put [20] [20] ⟨[], []⟩).run (c.journal [])).state? = some j ∧
    ((Op.put [20] [20] ⟨[], []⟩).run c).state? = some j.plain ∧
    j.dal.file.first.bytes = c.dal.file.bytes ∧
    ∀ f ∈ j.dal.file.now :: j.dal.file.past, NeverWrong thinNodes [] f.bytes c.root fun item =>
      valueAt (some (leafOf 3 [10])) item.key = some item ∨ item = ⟨[20], [20]⟩ := by
  obtain ⟨d, c, c', hd, hrun, hput, hshows, hsafe, -, -⟩ := exists_twoPuts
  obtain ⟨t, hs⟩ := Session.of_run (o := thinNodes) (by decide) hd hrun
  obtain rfl : t = some (leafOf 3 [10]) := hs.serves.toShows.unique hshows
  have hanswers : c.Answers (valueAt (some (leafOf 3 [10]))) := fun key => by
    rw [if_neg hs.root_ne_zero]
    exact hs.serves.find hs.wellFormed key
  obtain ⟨j, hj, hplain, hfirst, hwrong⟩ :=
    call_interrupted (o := thinNodes) (by decide) hd hrun hsafe hs.root_ne_zero hanswers
  exact ⟨d, c, j, hd, hput, hj, hplain, hfirst, hwrong⟩

end Toocal
