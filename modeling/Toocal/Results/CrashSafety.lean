import Toocal.Tree.FilePaths
import Toocal.Tree.Interrupted
import Toocal.Tree.MetaRoot
import Toocal.Tree.Replay

/-!
# A put that is cut off

A process may end between two of the page writes of a `put`.  What it leaves behind is a
file, and `Recovers` says what is found by who opens that file and searches from a given
page on.

Until its first write a calm put has changed nothing, and from then on it is done: whichever
write is the last, the new key is found and all others are as they were, from the root there
was or from the root there will be (`put_interrupted`).
-/

namespace Toocal

open Outcomes Buffers Multiway Multiway.Tree Collection Pages4096

/-- Who opens a file with these bytes, and searches from page `r` on, finds `m`. -/
def Recovers [System] (o : Options) (name bytes : Bytes) (r : Nat) (m : Bytes → Option Item) : Prop :=
  ∃ d, Dal.reopen o bytes = .ok () d ∧ ∀ key, find key ⟨d, name, r⟩ = .ok (m key) ⟨d, name, r⟩

/-- What the keys of a collection stand for: nothing, as long as it has no root. -/
def Collection.Answers [System] (c : Collection File) (m : Bytes → Option Item) : Prop :=
  ∀ key, if c.root = 0 then m key = none else find key c = .ok (m key) c

/-- Between any two writes of the call from `c` that has left `j`, what is found is `m` as long
as no page has been written, and `m'` once one has. -/
def AllOrNothing [System] (o : Options) (name : Bytes) (c : Collection File) (j : Collection (Journal File))
    (m m' : Bytes → Option Item) : Prop :=
  ∃ first later, j.dal.file.past = later ++ [first] ∧ first.bytes = c.dal.file.bytes ∧
    (c.root ≠ 0 → Recovers o name first.bytes c.root m) ∧
    (∀ f ∈ later, Recovers o name f.bytes c.root m' ∨ Recovers o name f.bytes j.root m') ∧
    Recovers o name j.dal.file.now.bytes j.root m'

theorem forall₂_snoc {α β : Type} {R : α → β → Prop} {l : List α} {m : List β} {b : β}
    (h : List.Forall₂ R l (m ++ [b])) : ∃ l' a, l = l' ++ [a] ∧ List.Forall₂ R l' m := by
  have hlast := List.forall₂_drop_append l m [b] h
  cases hdrop : l.drop m.length with
  | nil => rw [hdrop] at hlast; cases hlast
  | cons a rest =>
    rw [hdrop] at hlast
    obtain ⟨-, hnil⟩ := List.forall₂_cons.mp hlast
    obtain rfl := List.forall₂_nil_right_iff.mp hnil
    exact ⟨l.take m.length, a, by rw [← hdrop, List.take_append_drop],
      List.forall₂_take_append l m [b] h⟩

theorem forall_of_forall₂ {α β : Type} {R : α → β → Prop} {P : β → Prop} {Q : α → Prop} {l : List α}
    {m : List β} (h : List.Forall₂ R l m) (hP : ∀ b ∈ m, P b) (hQ : ∀ a b, R a b → P b → Q a) :
    ∀ a ∈ l, Q a := by
  induction h with
  | nil => simp
  | cons hab _ ih =>
    obtain ⟨hb, hP⟩ := List.forall_mem_cons.mp hP
    exact List.forall_mem_cons.mpr ⟨hQ _ _ hab hb, ih hP⟩

/-! ## What a journal entry recovers -/

section Entries

variable {o : Options} {d : Dal File} {name : Bytes}

theorem Mirrors.reopened [System] {base : Bytes} {d₁ : Dal File} {e : Dal (Shelf (Capacity.page o.pageSize))}
    {t : PTree} (h : Mirrors base d₁ e) (ht : e.file.Holds t) :
    (Dal.reopened o d₁.file.bytes).Reads t := by
  intro u hu
  obtain ⟨data, hlen, hhas, hdec⟩ := h.page _ _ (ht u hu)
  obtain ⟨hoff, -⟩ := names_page.mp ((Shelf.fits_of_lookup (ht u hu)).2 _ List.mem_cons_self)
  have hpos : 0 < o.pageSize := Nat.lt_of_lt_of_le defaultPageSize_pos h.large
  exact Dal.getNode_ok_of_read (d := Dal.reopened o d₁.file.bytes)
    (File.readPage_ok rfl hoff hhas hlen hpos) hdec

/-- **A journal entry whose shelf holds a tree** is a file that opens, and is searched as this
tree is. -/
theorem Was.finds [System] (name : Bytes) (hwidth : o.pageSize < 2 ^ 32) (hd : Dal.create o = .ok () d)
    {written : List Nat} (hfirst : ∀ p < 2, p ∉ written) {f : File}
    {s : Shelf (Capacity.page o.pageSize)} {t : PTree}
    (hw : Was (Mirrors d.file.bytes) written f s) (hh : s.Holds t) (hregular : Regular t) :
    ∃ d', Dal.reopen o f.bytes = .ok () d' ∧ ∀ key,
      find key ⟨d', name, t.tag⟩ = .ok (seek (findKeyInNode key) t) ⟨d', name, t.tag⟩ := by
  obtain ⟨d₁, e, hm, rfl, rfl, hsub⟩ := hw
  have hlarge := Dal.large_of_create hwidth hd
  obtain ⟨-, -, hmeta, hfreelist⟩ := Dal.of_create hwidth hd
  have hnot : ∀ p < 2, p ∉ d₁.written := fun p hp hmem => hfirst p hp (hsub hmem)
  have hreopen : Dal.reopen o d₁.file.bytes = .ok () (Dal.reopened o d₁.file.bytes) := by
    refine Dal.reopen_ok hlarge hwidth ?_ ?_
    · exact hm.rest 0 (hnot 0 (by omega)) _ (Dal.length_firstMeta hlarge) hmeta
    · exact hm.rest 1 (hnot 1 (by omega)) _
        (Dal.length_filled (le_of_large (by decide) hlarge)) hfreelist
  refine ⟨_, hreopen, fun key => ?_⟩
  have hreads : (Dal.reopened o d₁.file.bytes).Reads t := hm.reopened hh
  obtain ⟨x, hloc, hpath, hfuel⟩ := hreads.exists_path hregular key
  have hfind := find_of_path (c := ⟨Dal.reopened o d₁.file.bytes, name, t.tag⟩) hreads rfl hpath hfuel
  rwa [← seek_of_locate hloc] at hfind

/-- **A journal entry whose shelf offers a sequence recovers its items.** -/
theorem Was.recovers [System] (hwidth : o.pageSize < 2 ^ 32) (hd : Dal.create o = .ok () d)
    {written : List Nat} (hfirst : ∀ p < 2, p ∉ written) {f : File}
    {s : Shelf (Capacity.page o.pageSize)} {r : Nat} {l : List Item}
    (hw : Was (Mirrors d.file.bytes) written f s) (hs : s.Offers r l) :
    Recovers o name f.bytes r fun key => itemOf key l := by
  obtain ⟨t, rfl, hh, hregular, hseek⟩ := hs
  obtain ⟨d', hreopen, hfind⟩ := hw.finds name hwidth hd hfirst hh hregular
  refine ⟨d', hreopen, fun key => ?_⟩
  have hkey := hfind key
  rw [hseek key] at hkey
  exact hkey

namespace Collection

variable {c : Collection File} {t : Option PTree}

theorem Session.recovers [System] {u : PTree} (hwidth : o.pageSize < 2 ^ 32) (hd : Dal.create o = .ok () d)
    (h : Session o d.file.bytes c (some u)) :
    Recovers o name c.dal.file.bytes c.root (valueAt (some u)) := by
  have hfirst : ∀ p < 2, p ∉ c.dal.written := fun p hp => h.notWritten hp
  obtain ⟨e, hm, hs, hw, -⟩ := h
  obtain ⟨⟨k, hu⟩, hsorted⟩ := wellFormed_some.mp hw
  have hwas : Was (Mirrors d.file.bytes) c.dal.written c.dal.file e.dal.file :=
    ⟨c.dal, e.dal, hm.dal, rfl, rfl, List.Subset.refl _⟩
  rw [hm.root, hs.root]
  exact hwas.recovers hwidth hd hfirst ((hs.holds u rfl).offers hu hsorted)

theorem Session.answers [System] {m : Bytes → Option Item} (h : Session o d.file.bytes c t)
    (hm : c.Answers m) : m = valueAt t := by
  funext key
  have hkey := hm key
  cases t with
  | none => rwa [if_pos (show c.root = 0 from h.serves.root)] at hkey
  | some u =>
    rw [if_neg h.root_ne_zero, h.serves.find h.wellFormed] at hkey
    exact (Outcome.ok.inj hkey).1.symm

end Collection

end Entries

/-! ## The theorem -/

section Put

variable {o : Options} {d : Dal File} {name : Bytes} {c : Collection File} {key value : Bytes}
  {pastEnd : Item} {m : Bytes → Option Item}

/-- **A calm put may be cut off between any two of its writes.** -/
theorem put_interrupted [System] (hwidth : o.pageSize < 2 ^ 32) (hd : Dal.create o = .ok () d)
    (hrun : Runs (SafeAt (Capacity.page o.pageSize)) ⟨d, name, 0⟩ c)
    (hsafe : SafeAt (Capacity.page o.pageSize) c (.put key value pastEnd))
    (hcalm : c.CalmAt (.put key value pastEnd)) (hm : c.Answers m) :
    ∃ j, put pastEnd key value (c.journal []) = .ok () j ∧
      put pastEnd key value c = .ok () j.plain ∧
      AllOrNothing o name c j m (Function.update m key (some ⟨key, value⟩)) := by
  obtain ⟨t, h⟩ := Session.of_run hwidth hd hrun
  obtain rfl : m = valueAt t := h.answers hm
  have hop := h.options
  have hserves := h.serves
  obtain ⟨c', t', hends, h', he, -⟩ := h.step hsafe
  have hroot' := h.root_of_step hsafe hends.state?
  obtain ⟨u, hu, hf, hsafe', hn⟩ := hsafe
  obtain rfl : u = t := hu.unique hserves.toShows
  obtain ⟨v, hv, hcalm'⟩ := hcalm
  obtain rfl : v = u := hv.unique hu
  have hw := h.wellFormed
  -- what the new sequence has under a key
  have hnew : valueAt t' = Function.update (valueAt v) key (some ⟨key, value⟩) := by
    funext k
    rw [← valueAt_erase t', he, valueAt_put (wellFormed_erase.mpr hw)
      ((valueAt_erase _ _).trans hf) (hop ▸ hsafe') (hop ▸ hcalm'), Function.update_apply,
      valueAt_erase]
  have hfirst : ∀ p < 2, p ∉ c'.dal.written := fun p hp => h'.notWritten hp
  have hbefore : c.root ≠ 0 → Recovers o name c.dal.file.bytes c.root (valueAt v) := by
    intro hroot
    cases v with
    | none => exact absurd hserves.root hroot
    | some u => exact h.recovers hwidth hd
  have hafter : Recovers o name c'.dal.file.bytes c'.root (valueAt t') := by
    cases t' with
    | none => exact absurd h'.serves.root hroot'
    | some u => exact h'.recovers hwidth hd
  -- the run with a journal is the run without one
  obtain ⟨j, hj, rfl, holdest⟩ := ((onlySaved_bytes.simulates c.dal.file.bytes).sim_put
    pastEnd key value).ok (s := c.journal []) (t := c) ⟨rfl, rfl⟩ hends
  -- the shelf enters as many pages into its journal, and every entry offers the new sequence
  obtain ⟨e, hmirror, hs, -⟩ := h
  rw [hmirror.dal.options] at hsafe' hcalm' hop
  rw [hmirror.dal.freelist] at hn
  obtain ⟨e', later, -, hshelf, hoffers⟩ := hs.put_offers hw hf hsafe' hn hcalm'
  obtain ⟨j', hj', hjournaled, hmirror'⟩ := (mirrors_simulates.journal.sim_put pastEnd key value).ok
    (s := c.journal []) (t := e.journal []) ⟨⟨hmirror.dal, .nil⟩, hmirror⟩ (hshelf [])
  obtain ⟨-, rfl⟩ := Outcome.ok.inj (hj'.symm.trans hj)
  obtain ⟨entries, first, hpast, hentries⟩ := forall₂_snoc hjournaled.past
  have hbytes : first.bytes = c.dal.file.bytes := by
    rw [← holdest, Journal.first, hpast, List.getLastD_concat]
  refine ⟨j', hj, hends, first, entries, hpast, hbytes, fun hroot => hbytes ▸ hbefore hroot, ?_,
    hnew ▸ hafter⟩
  have hroot : e.root = c.root := hmirror.root.symm
  have hroot'' : e'.root = j'.root := hmirror'.root.symm
  rw [hop, ← he, contents_erase, hroot, hroot''] at hoffers
  rw [← hnew]
  exact forall_of_forall₂ hentries hoffers fun f s hwas hoffer =>
    hoffer.imp (hwas.recovers hwidth hd hfirst) (hwas.recovers hwidth hd hfirst)

end Put

/-- The second put splits the root, and each of its writes may be the last. -/
theorem put_interrupted_split : ∃ d c, Dal.create thinNodes = .ok () d ∧
    put ⟨[], []⟩ [10] [10] ⟨d, [], 0⟩ = .ok () c ∧ c.Answers (valueAt (some (leafOf 3 [10]))) ∧
    ∃ j, put ⟨[], []⟩ [20] [20] (c.journal []) = .ok () j ∧
      put ⟨[], []⟩ [20] [20] c = .ok () j.plain ∧
      AllOrNothing thinNodes [] c j (valueAt (some (leafOf 3 [10])))
        (Function.update (valueAt (some (leafOf 3 [10]))) [20] (some ⟨[20], [20]⟩)) := by
  obtain ⟨d, c, c', hd, hrun, hput, hshows, hsafe, hcalm, -⟩ := exists_twoPuts
  obtain ⟨t, hs⟩ := Session.of_run (o := thinNodes) (by decide) hd hrun
  obtain rfl : t = some (leafOf 3 [10]) := hs.serves.toShows.unique hshows
  have hanswers : c.Answers (valueAt (some (leafOf 3 [10]))) := fun key => by
    rw [if_neg hs.root_ne_zero]
    exact hs.serves.find hs.wellFormed key
  exact ⟨d, c, hd, hput, hanswers,
    put_interrupted (o := thinNodes) (by decide) hd hrun hsafe hcalm hanswers⟩

end Toocal
