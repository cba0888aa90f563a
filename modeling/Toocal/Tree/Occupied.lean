import Toocal.Tree.Bytes
import Toocal.Tree.Halves

/-!
# Trees without empty nodes

A `remove` takes the last item of a leaf, and a repair the items between a node and its
neighbours.  An empty node has neither.

`Op.Tidy` is a call that finds room and leaves no node below the root empty: no split moves
the last item of a node up, and a node below the root that has lost its last item is
repaired.  A root may be empty, until the next `remove`; then its only child is not repaired.

* `Op.Tidy.fits`: where no node below the root is empty there is an item to take and a
  neighbour for every repair.
* `Op.Tidy.outline`: and the call leaves no node below the root empty.
-/

namespace Toocal

open Outcomes Multiway Multiway.Tree

variable {π : Type} {o : Options}

abbrev Occupied (its : List Item) : Prop := 1 ≤ its.length

/-! ## Tidy calls -/

/-- A node below the root that is not repaired keeps an item. -/
def LevelsKeep (o : Options) (leaf : Load) : List Level → Prop
  | [] => True
  | _ :: lvs => LevelsKeep o leaf lvs ∧
      (¬(topLoad leaf lvs).Under o → 1 ≤ (repairedLoad o leaf lvs).count)

/-- The child of an empty root is not repaired. -/
def RootServes (o : Options) (leaf : Load) : List Level → Prop
  | [] => True
  | lv :: lvs => lv.load.count = 0 → ¬(topLoad leaf lvs).Under o

structure RemoveKeeps [System] (o : Options) (p : List Level × Load) : Prop
    extends RemoveFits o p where
  levels : LevelsKeep o p.2 p.1
  root : RootServes o p.2 p.1

/-- The call finds room, on nodes that have not been changed since they were read, and leaves no
node below the root empty. -/
def Op.Tidy [System] (o : Options) : Op → Option Outline → Prop
  | .put key value _, none => (Item.mk key value).Short
  | .put key value _, some t => PutFits o ⟨key, value⟩ t ∧
      ∀ x ∈ locate (findKeyInNode key) t,
        ∀ l ∈ pathItems x.frames (insertAt x.focus.items x.index ⟨key, value⟩), Divides o 1 l
  | .remove key, some t => ∀ x ∈ locate (findKeyInNode key) t, x.found = true →
      ∀ p ∈ removal o x, RemoveKeeps o p
  | .remove _, none => False

section Decide

variable (o : Options)

instance decidableLevelsKeep (leaf : Load) : ∀ lvs, Decidable (LevelsKeep o leaf lvs)
  | [] => isTrue trivial
  | _ :: lvs =>
    have := decidableLevelsKeep leaf lvs
    inferInstanceAs (Decidable (_ ∧ (_ → _)))

instance (leaf : Load) : ∀ lvs, Decidable (RootServes o leaf lvs)
  | [] => isTrue trivial
  | _ :: _ => inferInstanceAs (Decidable (_ → _))

instance [System] (p : List Level × Load) : Decidable (RemoveKeeps o p) :=
  decidable_of_iff (RemoveFits o p ∧ LevelsKeep o p.2 p.1 ∧ RootServes o p.2 p.1)
    ⟨fun h => ⟨h.1, h.2.1, h.2.2⟩, fun h => ⟨h.toRemoveFits, h.levels, h.root⟩⟩

instance [System] (op : Op) (t : Option Outline) : Decidable (op.Tidy o t) :=
  match op, t with
  | .put key value _, none => inferInstanceAs (Decidable (Item.mk key value).Short)
  | .put key value _, some t => inferInstanceAs (Decidable (PutFits o ⟨key, value⟩ t ∧
      ∀ x ∈ locate (findKeyInNode key) t, ∀ l ∈ pathItems x.frames _, Divides o 1 l))
  | .remove key, some t => inferInstanceAs (Decidable (∀ x ∈ locate (findKeyInNode key) t, _ →
      ∀ p ∈ removal o x, RemoveKeeps o p))
  | .remove _, none => isFalse id

end Decide

/-! ## There is an item, and a neighbour -/

section Fits

variable {t : Tree π Item} {x : Path π Item} {h : Nat} {key : Bytes} {f : Frame π Item}
  {fs : List (Frame π Item)} {leaf : Load}

theorem exists_neighbour (h : Occupied f.items) :
    (Level.ofFrame o f).left.isSome ∨ (Level.ofFrame o f).right.isSome := by
  rw [Occupied, f.length_items] at h
  rcases Nat.eq_zero_or_pos f.left.length with hl | hl
  · have hr : f.right ≠ [] := List.ne_nil_of_length_pos (by omega)
    obtain ⟨x, xs, hx⟩ := List.exists_cons_of_ne_nil hr
    exact .inr (by simp [Level.ofFrame, hx])
  · obtain ⟨x, xs, hx⟩ := List.exists_cons_of_ne_nil (List.ne_nil_of_length_pos hl)
    exact .inl (by simp [Level.ofFrame, hx])

theorem repairsBeside_of_items (h : ∀ f ∈ fs, Occupied f.items) :
    RepairsBeside o leaf (fs.map (Level.ofFrame o)) := by
  induction fs with
  | nil => trivial
  | cons f fs ih =>
    exact ⟨ih fun g hg => h g (List.mem_cons_of_mem _ hg),
      fun _ => exists_neighbour (h f List.mem_cons_self)⟩

theorem repairsBeside_of_root (htail : ∀ f ∈ fs.tail, Occupied f.items)
    (hroot : RootServes o leaf (fs.map (Level.ofFrame o))) :
    RepairsBeside o leaf (fs.map (Level.ofFrame o)) := by
  cases fs with
  | nil => trivial
  | cons f fs =>
    refine ⟨repairsBeside_of_items htail, fun hunder => exists_neighbour ?_⟩
    by_contra hempty
    have hnone : f.items.length = 0 := Nat.lt_one_iff.mp (Nat.not_le.mp hempty)
    exact hroot hnone hunder

/-- **There is an item to take.** -/
theorem exists_takeOut (hu : Uniform h t) (hocc : t.Below Occupied)
    (hpath : IsPath (findKeyInNode key) t x) (hf : x.found = true) : ∃ q, takeOut x = some q := by
  by_cases hleaf : x.focus.children = []
  · exact ⟨_, takeOut_leaf hleaf⟩
  obtain ⟨p, -, hplug, hchildren, hnone, -⟩ := losingPath_spec hu hpath hf
  refine Option.ne_none_iff_exists'.mp fun htake => ?_
  -- the leaf at the end of the path is not the root
  have hpne : p.1 ≠ [] := fun hnil => by
    have ht : t.children = [] := by rw [← hplug, hnil, plugAll_nil, hchildren]
    have heq := hpath.eq
    cases hframes : x.frames with
    | nil =>
      rw [hframes, plugAll_nil] at heq
      exact hleaf (heq ▸ ht)
    | cons g gs =>
      rw [hframes, plugAll_cons] at heq
      rw [← heq, Frame.children_plug] at ht
      simp at ht
  have hitems : Occupied p.2.items := (each_iff.mp (below_focus hpne (hplug ▸ hocc))).1
  rw [hnone htake] at hitems
  exact absurd hitems (by simp)

theorem occupied_path {q : List (Frame π Item) × Tree π Item} (hu : Uniform h t)
    (hocc : t.Below Occupied) (hpath : IsPath (findKeyInNode key) t x) (hf : x.found = true)
    (hq : takeOut x = some q) : (∀ g ∈ q.1.tail, Occupied g.items) ∧
      ∀ g ∈ q.1, ∀ c ∈ g.siblings, c.Each Occupied := by
  obtain ⟨p, -, hplug, -, -, htaken⟩ := losingPath_spec hu hpath hf
  exact filled_path (Q := (1 ≤ ·)) (htaken q hq).1 (hplug ▸ hocc)

/-- **A tidy call fits.** -/
theorem Op.Tidy.fits [System] {t : Option Outline} {op : Op} (htidy : op.Tidy o t)
    (hw : WellFormed t) (hocc : ∀ u ∈ t, u.Below Occupied) : op.Fits o t := by
  cases t with
  | none => cases op <;> exact htidy
  | some t =>
    cases op with
    | put key value pastEnd => exact htidy.1
    | remove key =>
      intro x hx hf
      obtain ⟨⟨h, hu⟩, -⟩ := wellFormed_some.mp hw
      obtain ⟨x', hx', hpath⟩ := exists_path key hu.regular
      obtain rfl := Option.some.inj (hx.symm.trans hx')
      obtain ⟨q, hq⟩ := exists_takeOut hu (hocc t rfl) hpath hf
      have hp : removal o x = some (q.1.map (Level.ofFrame o), Load.ofItems q.2.items) := by
        rw [removal_eq hu hpath hf, hq]
        rfl
      have hkeeps := htidy x hx hf _ hp
      refine ⟨_, hp, hkeeps.toRemoveFits, ?_⟩
      exact repairsBeside_of_root (occupied_path hu (hocc t rfl) hpath hf hq).1 hkeeps.root

end Fits

/-! ## And no node is left empty -/

section Keeps

variable {f : Frame π Item} {u l r : Tree π Item} {a : Item} {right : List (Item × Tree π Item)}

theorem occupied_join (hl : l.Below Occupied) (hr : r.Below Occupied) :
    (l.join a r).Each Occupied := by
  rw [join, each_node]
  refine ⟨?_, fun c hc => (List.mem_append.mp hc).elim (hl c) (hr c)⟩
  rw [Occupied, List.length_append, List.length_cons]
  omega

theorem occupied_dropFirst (hr : r.Each Occupied) (hspare : o.canSpareAnElement r.items = true) :
    r.dropFirst.Each Occupied := by
  obtain ⟨i, hi⟩ := Option.isSome_iff_exists.mp hspare
  have hlen := getSplitIndex_lt hi
  rw [dropFirst, each_node]
  refine ⟨?_, fun c hc => hr.below c (List.mem_of_mem_tail hc)⟩
  rw [Occupied, List.length_tail]
  omega

theorem below_takeFromRight (hu : u.Below Occupied) (hr : ∀ x ∈ right, x.2.Each Occupied) :
    (takeFromRight o u right).Below Occupied := by
  rcases leftRotation_cases o u right with ⟨b, r, z, zs, rs, rfl, -, -, htake, -⟩ | ⟨htake, -⟩
  · rw [htake]
    intro c hc
    rcases List.mem_append.mp hc with hc | hc
    · exact hu c hc
    · exact (hr (b, r) List.mem_cons_self).below c (List.mem_of_mem_take hc)
  · rwa [htake]

theorem occupied_rightAfter (hr : ∀ x ∈ right, x.2.Each Occupied) :
    ∀ x ∈ rightAfter o right, x.2.Each Occupied := by
  cases right with
  | nil => exact hr
  | cons x rs =>
    obtain ⟨b, r⟩ := x
    rw [rightAfter]
    split
    next hspare =>
      rw [List.forall_mem_cons] at hr ⊢
      exact ⟨occupied_dropFirst hr.1 hspare, hr.2⟩
    next => exact hr

/-- **A repair leaves no node below its parent empty.** -/
theorem below_rebalance (hs : ∀ c ∈ f.siblings, c.Each Occupied) (hu : u.Below Occupied)
    (hne : f.siblings ≠ []) : (rebalance o f u).Below Occupied := by
  obtain ⟨p, left, right⟩ := f
  have hright : ∀ x ∈ right, x.2.Each Occupied :=
    fun x hx => hs x.2 (siblings_right (f := ⟨p, left, right⟩) hx)
  cases left with
  | nil =>
    cases right with
    | nil => exact absurd rfl hne
    | cons x rs =>
      obtain ⟨b, r⟩ := x
      rw [List.forall_mem_cons] at hright
      refine Frame.below_plug.mpr ⟨fun c hc => ?_, occupied_join hu hright.1.below⟩
      obtain ⟨x, hx, rfl⟩ : ∃ x ∈ rs, x.2 = c := by simpa [mergedFrame, Frame.siblings] using hc
      exact hright.2 x hx
  | cons x ls =>
    obtain ⟨l, a⟩ := x
    have hleft : ∀ x ∈ (l, a) :: ls, x.1.Each Occupied :=
      fun x hx => hs x.1 (siblings_left (f := ⟨p, (l, a) :: ls, right⟩) hx)
    rw [List.forall_mem_cons] at hleft
    refine Frame.below_plug.mpr ⟨fun c hc => ?_,
      occupied_join hleft.1.below (below_takeFromRight hu hright)⟩
    simp only [mergedFrame, Frame.siblings, List.mem_append, List.mem_map] at hc
    rcases hc with ⟨x, hx, rfl⟩ | ⟨x, hx, rfl⟩
    · exact hleft.2 x hx
    · exact occupied_rightAfter hright x hx

variable {fs : List (Frame π Item)} {leaf : Tree π Item} {h : Nat}

/-- **The rounds leave no node below the root empty**: by induction along the path. -/
theorem below_shrinkPath (hleaf : leaf.children = [])
    (hshort : ∀ l ∈ pathItems fs leaf.items, AllShort l)
    (hs : ∀ g ∈ fs, ∀ c ∈ g.siblings, c.Each Occupied)
    (hbeside : RepairsBeside o (.ofItems leaf.items) (fs.map (Level.ofFrame o)))
    (hkeep : LevelsKeep o (.ofItems leaf.items) (fs.map (Level.ofFrame o))) :
    (shrinkPath o leaf fs).Below Occupied := by
  induction fs with
  | nil => exact below_leaf hleaf
  | cons f fs ih =>
    rw [pathItems, List.forall_mem_cons] at hshort
    rw [List.forall_mem_cons] at hs
    rw [List.map_cons] at hbeside hkeep
    have hbelow := ih hshort.2 hs.2 hbeside.1 hkeep.1
    have hunder := under_topItems_iff (o := o) hshort.2
    rw [shrinkPath]
    by_cases hrepair : o.isUnderPopulated (topItems fs leaf.items)
    · rw [if_pos hrepair]
      refine below_rebalance hs.1 hbelow fun hnil => ?_
      have hpair := hbeside.2 (hunder.mp hrepair)
      rw [Frame.siblings, List.append_eq_nil_iff, List.map_eq_nil_iff, List.map_eq_nil_iff] at hnil
      simp [Level.ofFrame, hnil.1, hnil.2] at hpair
    · have hcount := hkeep.2 (mt hunder.mpr hrepair)
      rw [← shrinkPath_load hshort.2] at hcount
      rw [if_neg hrepair]
      exact Frame.below_plug.mpr ⟨hs.1, each_iff.mpr ⟨hcount, hbelow⟩⟩

/-- **A tidy call leaves no node below the root empty.** -/
theorem Op.Tidy.outline [System] {t : Option Outline} {op : Op} (htidy : op.Tidy o t)
    (hw : WellFormed t) (hshort : ∀ u ∈ t, u.Each AllShort) (hocc : ∀ u ∈ t, u.Below Occupied) :
    ∀ u ∈ op.outline o t, u.Below Occupied := by
  intro u hu
  cases t with
  | none =>
    cases op with
    | put key value pastEnd =>
      obtain rfl := Option.some.inj hu
      exact below_leaf rfl
    | remove key => cases hu
  | some t =>
    obtain ⟨⟨h, hk⟩, -⟩ := wellFormed_some.mp hw
    cases op with
    | put key value pastEnd =>
      obtain rfl := Option.some.inj hu
      obtain ⟨x, hx, hpath⟩ := exists_path key hk.regular
      exact below_putOutline_of_divides ⟨key, value⟩ hx hpath (htidy.2 x hx) (hocc t rfl)
    | remove key =>
      obtain rfl := Option.some.inj hu
      obtain ⟨x, hx, hpath⟩ := exists_path key hk.regular
      by_cases hf : x.found = true
      · obtain ⟨⟨fs, leaf⟩, hq⟩ := exists_takeOut hk (hocc t rfl) hpath hf
        obtain ⟨htail, hs⟩ := occupied_path hk (hocc t rfl) hpath hf hq
        obtain ⟨⟨l₁, a, l₂, hin, -, hin'⟩, -, hleaf⟩ := takeOut_spec hk hpath hf hq
        have hkeeps := htidy x hx hf (fs.map (Level.ofFrame o), Load.ofItems leaf.items) (by
          rw [removal_eq hk hpath hf, hq]
          rfl)
        have hrest : (plugAll fs leaf).Each AllShort := by
          refine each_forall_iff.mpr fun b hb => each_forall_iff.mp (hshort t rfl) b ?_
          rw [hin'] at hb
          rw [hin]
          exact ((List.Sublist.refl l₁).append (List.sublist_cons_self a l₂)).subset hb
        show (removeOutline o key t).Below Occupied
        rw [removeOutline_eq hx hf hq]
        exact Below.collapse (below_shrinkPath hleaf (allShort_pathItems hrest) hs
          (repairsBeside_of_root htail hkeeps.root) hkeeps.levels)
      · show (removeOutline o key t).Below Occupied
        rw [removeOutline, hx]
        simp only [if_neg hf]
        exact hocc t rfl

end Keeps

/-! ## Runs of tidy calls -/

namespace Collection

/-- The call is fresh and tidy, and the page numbers it may hand out can be written down. -/
def tidily [System] (o : Options) (maxPage : Nat) (op : Op) (t : Option PTree) : Prop :=
  op.Fresh t ∧ op.Tidy o (t.map Tree.erase) ∧ op.Numbers (Capacity.page o.pageSize) maxPage t

instance [System] (o : Options) (maxPage : Nat) (op : Op) (t : Option PTree) :
    Decidable (tidily o maxPage op t) := inferInstanceAs (Decidable (_ ∧ _ ∧ _))

/-- The call is tidy in the state it is made in. -/
def TidyAt [System] {φ : Type} [PageStore φ] : Collection φ → Op → Prop := MeetsAt tidily

variable [System] {base : Bytes} {c : Collection File} {t : Option PTree} {op : Op} {d : Dal File}
  {name : Bytes}

theorem Session.fitsAt_of_tidyAt (h : Session o base c t) (hocc : ∀ u ∈ t.map Tree.erase, u.Below Occupied)
    (htidy : TidyAt c op) : FitsAt c op := by
  obtain ⟨u, hu, hfresh, htidy, hn⟩ := htidy
  obtain rfl := hu.unique h.serves.toShows
  exact ⟨u, hu, hfresh, htidy.fits (wellFormed_erase.mpr h.wellFormed) hocc, hn⟩

/-- **After a run of tidy calls no node below the root is empty.** -/
theorem exists_occupied (hwidth : o.pageSize < 2 ^ 32) (hd : Dal.create o = .ok () d)
    (hrun : Runs TidyAt ⟨d, name, 0⟩ c) :
    ∃ t, Session o d.file.bytes c t ∧ ∀ u ∈ t.map Tree.erase, u.Below Occupied := by
  induction hrun with
  | refl => exact ⟨none, Session.start hwidth hd, by simp⟩
  | tail _ hstep ih =>
    obtain ⟨t, h, hocc⟩ := ih
    obtain ⟨op, htidy, hout⟩ := hstep
    obtain ⟨c', t', hends, h', he, -⟩ :=
      h.step (h.safeAt_of_fitsAt (h.fitsAt_of_tidyAt hocc htidy))
    obtain rfl := Option.some.inj (hends.state?.symm.trans hout)
    obtain ⟨u, hu, -, htidy', -⟩ := htidy
    obtain rfl := hu.unique h.serves.toShows
    rw [h.options] at htidy'
    refine ⟨t', h', ?_⟩
    rw [he]
    exact htidy'.outline (wellFormed_erase.mpr h.wellFormed) h.allShort hocc

end Collection

end Toocal
