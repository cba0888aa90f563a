import Toocal.Tree.Runs

/-!
# Whether the loops act on current copies

`put` and `remove` read the nodes of the path once and work on these copies.
`LoopCurrent` says of a loop that whenever a round acts on a copy, the copy and that of
its parent are what their pages hold by then, and the same of the end of the call.

For the loop of `put` this is `SplitsCurrent` (`splitRounds_current_iff`), for the loop of
`remove` it is `RepairsCurrent` (`rebalanceRounds_current_iff`): conditions on the nodes of
the path alone.
-/

namespace Toocal

open Outcomes Multiway Multiway.Tree Collection

/-- The node is what its page holds. -/
def Dal.Current {φ : Type} [PageStore φ] (d : Dal φ) (node : Node) : Prop :=
  Dal.getNode node.pageNum d = .ok node d

/-- A loop over `ancestors` that starts in the layer `d₀` acts on current copies: in its
round `i` on `ancestors[i + 1]` and its parent, and after its last round on the root. -/
structure LoopCurrent {φ : Type} [PageStore φ] (round : Nat → Prog Error (Dal φ) Unit)
    (acts actsOnRoot : Options → Node → Prop) (ancestors : List Node) (d₀ : Dal φ) : Prop where
  rounds : ∀ k i d, (rounds ancestors)[k]? = some i →
    Prog.forEach round ((rounds ancestors).take k) d₀ = .ok () d →
    ∀ node ∈ ancestors[i + 1]?, acts d.options node →
      d.Current node ∧ ∀ pnode ∈ ancestors[i]?, d.Current pnode
  root : ∀ d, Prog.forEach round (Collection.rounds ancestors) d₀ = .ok () d →
    ∀ node ∈ ancestors[0]?, actsOnRoot d.options node → d.Current node

/-- No node of the path that is split has been read before its child was split.  Only the
rounds the loop gets to count: it ends at a node without a split index. -/
def SplitsCurrent {π : Type} (o : Options) (fs : List (Frame π Item)) (its : List Item) : Prop :=
  ∀ gs hs, fs = gs ++ hs → SplitSafe Capacity.unlimited o hs its → SplitBelow o hs its →
    ¬o.isOverPopulated (topItems hs its)

/-- Every under-populated node of the path below the frames of `fs` has a sibling. -/
def Siblinged {π : Type} (o : Options) : List (Frame π Item) → List Item → Prop
  | [], _ => True
  | f :: fs, its => Siblinged o fs its ∧ (o.isUnderPopulated (topItems fs its) → f.siblings ≠ [])

/-- No node of the path that is repaired has been read before its child was repaired.  Only
the rounds the loop gets to count: it ends at a node without a sibling. -/
def RepairsCurrent {π : Type} (o : Options) (fs : List (Frame π Item)) (its : List Item) : Prop :=
  ∀ gs f hs, fs = gs ++ f :: hs → Siblinged o hs its → Outdated o hs its →
    ¬o.isUnderPopulated (topItems hs its)

instance decidableSiblinged {π : Type} (o : Options) : ∀ (fs : List (Frame π Item)) (its : List Item),
    Decidable (Siblinged o fs its)
  | [], _ => isTrue trivial
  | _ :: fs, its =>
    have := decidableSiblinged o fs its
    inferInstanceAs (Decidable (_ ∧ (_ → ¬_ = [])))

theorem repairsCurrent_cons {π : Type} {o : Options} {f : Frame π Item} {fs : List (Frame π Item)}
    {its : List Item} : RepairsCurrent o (f :: fs) its ↔ RepairsCurrent o fs its ∧
      (Siblinged o fs its → Outdated o fs its → ¬o.isUnderPopulated (topItems fs its)) := by
  constructor
  · exact fun h => ⟨fun gs g hs he => h (f :: gs) g hs (by rw [he]; rfl), h [] f fs rfl⟩
  · rintro ⟨hrest, hfirst⟩ gs g hs he
    cases gs with
    | nil =>
      obtain ⟨-, rfl⟩ := List.cons.inj he
      exact hfirst
    | cons g' gs =>
      obtain ⟨-, rfl⟩ := List.cons.inj he
      exact hrest gs g hs rfl

instance decidableRepairsCurrent {π : Type} (o : Options) :
    ∀ (fs : List (Frame π Item)) (its : List Item), Decidable (RepairsCurrent o fs its)
  | [], _ => isTrue fun gs f hs he => by simp at he
  | _ :: fs, its =>
    have := decidableRepairsCurrent o fs its
    decidable_of_iff _ repairsCurrent_cons.symm

/-! ## The rounds of a loop -/

section Loops

theorem roundsFrom_add (g a b : Nat) :
    roundsFrom g (a + b) = roundsFrom (g + a) b ++ roundsFrom g a := by
  induction a generalizing g with
  | zero => simp [roundsFrom]
  | succ a ih =>
    rw [Nat.succ_add, roundsFrom_succ, ih, roundsFrom_succ, Nat.add_right_comm, Nat.add_assoc g a 1,
      List.append_assoc]

@[simp] theorem length_roundsFrom (g n : Nat) : (roundsFrom g n).length = n := by simp [roundsFrom]

theorem rounds_take {ancestors : List Node} {k i : Nat} (hk : (rounds ancestors)[k]? = some i) :
    ancestors.length = i + 1 + k + 1 ∧ (rounds ancestors).take k = roundsFrom (i + 1) k := by
  rw [rounds_eq] at hk ⊢
  obtain ⟨hlt, -⟩ := List.getElem?_eq_some_iff.mp hk
  rw [length_roundsFrom] at hlt
  obtain ⟨j, hj⟩ : ∃ j, ancestors.length - 1 = j + 1 + k := ⟨ancestors.length - 1 - k - 1, by omega⟩
  have hone : roundsFrom (0 + j) 1 = [j] := by simp [roundsFrom]
  rw [hj, roundsFrom_add, roundsFrom_add, hone, Nat.zero_add] at hk ⊢
  rw [List.getElem?_append_right (by simp), length_roundsFrom, Nat.sub_self] at hk
  obtain rfl : j = i := by simpa using hk
  exact ⟨by omega, List.take_left' (length_roundsFrom _ _)⟩

variable {φ : Type} [PageStore φ] {round : Nat → Prog Error (Dal φ) Unit}
  {acts actsOnRoot : Options → Node → Prop} {fs : List (Frame Nat Item)} {leaf : PTree} {d₀ : Dal φ}

/-- On the nodes of a path the rounds for the frames `hs` come before the one
for `f`. -/
theorem loopCurrent_path : LoopCurrent round acts actsOnRoot (pathNodes fs leaf) d₀ ↔
    (∀ gs f hs, fs = gs ++ f :: hs → ∀ d,
      Prog.forEach round (roundsFrom (gs.length + 1) hs.length) d₀ = .ok () d →
      acts d.options (nodeOf (plugAll hs leaf)) → d.Current (nodeOf (plugAll hs leaf)) ∧
        d.Current (nodeOf (plugAll (f :: hs) leaf))) ∧
    ∀ d, Prog.forEach round (roundsFrom 0 fs.length) d₀ = .ok () d →
      actsOnRoot d.options (nodeOf (plugAll fs leaf)) → d.Current (nodeOf (plugAll fs leaf)) := by
  have hrounds : rounds (pathNodes fs leaf) = roundsFrom 0 fs.length := by
    rw [rounds_eq, length_pathNodes]; rfl
  have hat : ∀ (gs : List (Frame Nat Item)) (f : Frame Nat Item) (hs : List (Frame Nat Item)),
      (pathNodes (gs ++ f :: hs) leaf)[gs.length + 1]? = some (nodeOf (plugAll hs leaf)) := by
    intro gs f hs
    have := pathNodes_at (gs ++ [f]) hs leaf
    rwa [List.length_append, List.length_singleton, List.append_assoc] at this
  constructor
  · intro h
    refine ⟨?_, fun d hrun => h.root d (hrounds ▸ hrun) _ (pathNodes_head fs leaf)⟩
    rintro gs f hs rfl d hrun hacts
    have hk : (rounds (pathNodes (gs ++ f :: hs) leaf))[hs.length]? = some gs.length := by
      have hlen : (gs ++ f :: hs).length = gs.length + 1 + hs.length := by simp; omega
      rw [hrounds, hlen, roundsFrom_add, roundsFrom_add, List.getElem?_append_right (by simp)]
      simp [roundsFrom]
    obtain ⟨hnode, hparent⟩ := h.rounds hs.length gs.length d hk
      (by rw [(rounds_take hk).2]; exact hrun) _ (hat gs f hs) hacts
    exact ⟨hnode, hparent _ (pathNodes_at gs (f :: hs) leaf)⟩
  · rintro ⟨hmid, hroot⟩
    refine ⟨?_, fun d hrun node hnode => ?_⟩
    · intro k i d hk hrun node hnode hacts
      obtain ⟨hlen, htake⟩ := rounds_take hk
      rw [length_pathNodes] at hlen
      -- the frame above the copy of this round
      have hi : i < fs.length := by omega
      have hfs : fs = fs.take i ++ fs[i] :: fs.drop (i + 1) := by simp
      have hgs : (fs.take i).length = i := by simp; omega
      have hhs : (fs.drop (i + 1)).length = k := by simp; omega
      rw [htake] at hrun
      have h1 := hat (fs.take i) fs[i] (fs.drop (i + 1))
      have h2 := pathNodes_at (fs.take i) (fs[i] :: fs.drop (i + 1)) leaf
      rw [← hfs, hgs] at h1 h2
      rw [h1] at hnode
      obtain rfl := Option.some.inj hnode
      obtain ⟨hcur, hpar⟩ := hmid _ _ _ hfs d (by rw [hgs, hhs]; exact hrun) hacts
      refine ⟨hcur, fun pnode hp => ?_⟩
      rw [h2] at hp
      obtain rfl := Option.some.inj hp
      exact hpar
    · rw [pathNodes_head] at hnode
      obtain rfl := Option.some.inj hnode
      exact hroot d (hrounds ▸ hrun)

end Loops

/-! ## The rounds of `put` -/

namespace Dal

variable {cap : Capacity} {d : Dal (Shelf cap)} {F : Set Nat}

theorem Holds.current_iff {t u : PTree} (h : d.Holds t) (htag : u.tag = t.tag) :
    d.Current (nodeOf u) ↔ nodeOf t = nodeOf u := by
  rw [Current, pageNum_nodeOf, htag, h.getNode]
  exact ⟨fun he => by injection he, fun he => by rw [he]⟩

theorem Holds.current_parent {f : Frame Nat Item} {t u : PTree} (h : d.Holds (f.plug t))
    (htag : u.tag = t.tag) : d.Current (nodeOf (f.plug u)) :=
  (h.current_iff (u := f.plug u) rfl).mpr (nodeOf_plug_congr htag.symm)

theorem Owns.hole {gs : List (Frame Nat Item)} {t : PTree} (h : d.Owns F (plugAll gs t)) :
    d.Holds t := (holds_plugAll.mp h.holds).2

end Dal

section Grow

variable {cap : Capacity} {o : Options} {leaf : Outline} {fs : List (Frame Unit Item)}

theorem splitBelow_erase {π : Type} (hs : List (Frame π Item)) (its : List Item) :
    SplitBelow o (hs.map Frame.erase) its ↔ SplitBelow o hs its := by
  cases hs with
  | nil => exact Iff.rfl
  | cons f hs => rw [List.map_cons, SplitBelow, SplitBelow, topItems_erase]

/-- The page has grown since the copy was read exactly if the node below was split. -/
theorem growPath_current_iff (hsafe : SplitSafe cap o fs leaf.items) :
    (growPath o leaf fs).copy = (growPath o leaf fs).page ↔ ¬SplitBelow o fs leaf.items := by
  cases fs with
  | nil => exact ⟨fun _ h => h, fun _ => rfl⟩
  | cons f fs =>
    have hitems : (growPath o leaf fs).copy.items = topItems fs leaf.items := items_copy_growPath
    rw [SplitBelow]
    constructor
    · intro hsame hover
      obtain ⟨m, hm, -⟩ := hsafe.2 hover
      obtain ⟨c, hc, -⟩ := exists_cut () (by rw [hitems]; exact hm)
      rw [growPath, growRound_cut (by rw [hitems]; exact hover) hc] at hsame
      have := congrArg (fun t : Outline => t.items.length) hsame
      simp only [Frame.items_plug, Frame.length_items, Frame.left_addRight, Frame.right_addRight,
        List.length_cons] at this
      omega
    · intro hover
      exact growRound_same (by rw [hitems]; exact hover)

/-- Copy and page are one node exactly if they are one tree without page numbers. -/
theorem Coherent.nodeOf_iff {h : Nat} {l : List Item} {x : Copies Nat} (hx : Coherent h l x)
    (heq : x.erase = growPath o leaf fs) (hsafe : SplitSafe cap o fs leaf.items) :
    nodeOf x.page = nodeOf x.copy ↔ ¬SplitBelow o fs leaf.items := by
  rw [← growPath_current_iff hsafe, ← heq]
  show _ ↔ x.copy.erase = x.page.erase
  constructor
  · intro hn
    have hchildren : x.copy.children = x.page.children := by
      apply hx.children.eq_of_length
      have := congrArg (fun n : Node => n.children.length) hn
      simpa using this.symm
    rw [← eta x.copy, ← eta x.page, hx.tag, hchildren, ← items_nodeOf x.copy, ← items_nodeOf x.page, hn]
  · intro he
    have hitems : x.copy.items = x.page.items := by rw [← items_erase, he, items_erase]
    have hchildren : x.copy.children = x.page.children := by
      apply hx.children.eq_of_length
      have := congrArg (fun t : Outline => t.children.length) he
      simpa using this
    rw [nodeOf, nodeOf, hx.tag, hitems, hchildren]

end Grow

namespace Collection

open Dal

theorem items_top (hs : List (Frame Nat Item)) (leaf : PTree) :
    (nodeOf (plugAll hs leaf)).items = topItems hs leaf.items := by
  rw [items_nodeOf, topItems_plugAll]

theorem uniform_below {gs hs : List (Frame Nat Item)} {leaf : PTree} {h : Nat}
    (hu : Uniform h (plugAll (gs ++ hs) leaf)) : ∃ k, Uniform k (plugAll hs leaf) := by
  rw [plugAll_append] at hu
  obtain ⟨k, -, hk⟩ := uniform_of_plugAll hu
  exact ⟨k, hk⟩

section Put

variable {d d' : Dal (Shelf Capacity.unlimited)} {F : Set Nat} {leaf : PTree}

theorem splitRound_stuck {ancestors : List Node} {indexes : List Nat} {i index : Nat}
    {pnode node : Node} (hi : ancestors[i]? = some pnode) (hi' : ancestors[i + 1]? = some node)
    (hidx : indexes[i + 1]? = some index) (hover : d.options.isOverPopulated node.items)
    (hm : middleItem d.options node.items = none) :
    splitRound ancestors indexes i d = .stop .undefined := by
  have hnone : d.options.getSplitIndex node.items = none := by
    cases hs : d.options.getSplitIndex node.items with
    | none => rfl
    | some j =>
      obtain ⟨m, hm', -⟩ := exists_middleItem hs
      rw [hm] at hm'; cases hm'
  have hsplit : split pnode node index d = .stop .undefined := by
    rw [split, Prog.get_bind, hnone]; rfl
  rw [splitRound, Prog.get_bind, Prog.element_bind hi, Prog.element_bind hi', if_pos hover,
    Prog.element_bind hidx, Prog.bind_stop hsplit]

/-- **A loop of `put` that ends found a split index for every node it split.** -/
theorem splitSafe_of_run : ∀ (hs gs : List (Frame Nat Item)) {h : Nat} {d' : Dal _},
    d.Owns F (plugAll (gs ++ hs) leaf) → Uniform h (plugAll hs leaf) →
    Prog.forEach (splitRound (pathNodes (gs ++ hs) leaf) (0 :: pathIndexes (gs ++ hs)))
      (roundsFrom gs.length hs.length) d = .ok () d' →
    SplitSafe Capacity.unlimited d.options hs leaf.items := by
  intro hs
  induction hs with
  | nil => intro gs h d' _ _ _; trivial
  | cons f hs ih =>
    intro gs h d' ho hu hrun
    obtain ⟨k, rfl, hsib, hk⟩ := Frame.uniform_of_plug hu
    have hassoc : gs ++ f :: hs = (gs ++ [f]) ++ hs := by simp
    rw [List.length_cons, roundsFrom_succ, Prog.forEach_append] at hrun
    obtain ⟨⟨⟩, d₁, hrun₁, hrun₂⟩ := Prog.bind_eq_ok.mp hrun
    have hlen : (gs ++ [f]).length = gs.length + 1 := by simp
    have hloop : Prog.forEach (splitRound (pathNodes ((gs ++ [f]) ++ hs) leaf)
        (0 :: pathIndexes ((gs ++ [f]) ++ hs))) (roundsFrom (gs ++ [f]).length hs.length) d =
          .ok () d₁ := by
      rw [hlen, ← hassoc]
      exact hrun₁
    have hsafe := ih (gs ++ [f]) (hassoc ▸ ho) hk hloop
    obtain ⟨d₂, x, hrun₂', -, -, -, -, hk₂, -⟩ :=
      splitRounds_ok hs (gs ++ [f]) (hassoc ▸ ho) hk hsafe rfl
    rw [hlen, ← hassoc, hrun₁] at hrun₂'
    obtain rfl : d₁ = d₂ := by injection hrun₂'
    refine ⟨hsafe, fun hover => ?_⟩
    cases hm : middleItem d.options (topItems hs leaf.items) with
    | some m => exact ⟨m, rfl, rfl⟩
    | none =>
      have hi' := pathNodes_at (gs ++ [f]) hs leaf
      rw [hlen, ← hassoc] at hi'
      have hstuck := splitRound_stuck (d := d₁) (pathNodes_at gs (f :: hs) leaf) hi'
        (pathIndexes_at gs hs f) (by rw [hk₂.options, items_top]; exact hover)
        (by rw [hk₂.options, items_top]; exact hm)
      obtain ⟨⟨⟩, d₃, hrun₃, -⟩ := Prog.bind_eq_ok.mp hrun₂
      rw [hstuck] at hrun₃
      cases hrun₃

/-- Before its next round the loop of `put` has the top of `hs` as a current copy exactly if
it has not split the node below. -/
theorem splitRounds_current (hs gs : List (Frame Nat Item)) {h : Nat}
    (ho : d.Owns F (plugAll (gs ++ hs) leaf)) (hu : Uniform h (plugAll hs leaf))
    (hsafe : SplitSafe Capacity.unlimited d.options hs leaf.items) :
    ∃ d', Prog.forEach (splitRound (pathNodes (gs ++ hs) leaf) (0 :: pathIndexes (gs ++ hs)))
        (roundsFrom gs.length hs.length) d = .ok () d' ∧ d'.options = d.options ∧
      (d'.Current (nodeOf (plugAll hs leaf)) ↔ ¬SplitBelow d.options hs leaf.items) ∧
      ∀ gs' f, gs = gs' ++ [f] → d'.Current (nodeOf (plugAll (f :: hs) leaf)) := by
  obtain ⟨d', x, hrun, hxe, hxn, hx, ho', hk, -⟩ := splitRounds_ok hs gs ho hu hsafe rfl
  have htag : (plugAll hs leaf).tag = x.page.tag := by
    rw [← hx.tag]
    exact (congrArg Node.pageNum hxn).symm
  refine ⟨d', hrun, hk.options, ?_, ?_⟩
  · rw [ho'.hole.current_iff htag, ← hxn, hx.nodeOf_iff hxe (by
      rw [← items_erase] at hsafe
      exact (splitSafe_erase hs _).mpr hsafe)]
    rw [items_erase, splitBelow_erase]
  · rintro gs' f rfl
    rw [plugAll_append] at ho'
    exact ho'.hole.current_parent htag

/-- What a loop of `put` that has ended has found: the split indexes, and whether the top of
`hs` is still the node that was read. -/
theorem splitRounds_of_run (gs hs : List (Frame Nat Item)) {fs : List (Frame Nat Item)} {n h : Nat}
    (he : fs = gs ++ hs) (hn : gs.length = n) (ho : d.Owns F (plugAll fs leaf))
    (hu : Uniform h (plugAll fs leaf))
    (hrun : Prog.forEach (splitRound (pathNodes fs leaf) (0 :: pathIndexes fs))
      (roundsFrom n hs.length) d = .ok () d') :
    SplitSafe Capacity.unlimited d.options hs leaf.items ∧ d'.options = d.options ∧
      (d'.Current (nodeOf (plugAll hs leaf)) ↔ ¬SplitBelow d.options hs leaf.items) ∧
      ∀ gs' f, gs = gs' ++ [f] → d'.Current (nodeOf (plugAll (f :: hs) leaf)) := by
  subst he hn
  obtain ⟨k, hk⟩ := uniform_below hu
  have hsafe := splitSafe_of_run hs gs ho hk hrun
  obtain ⟨d₂, hrun₂, hopt, hcur, hpar⟩ := splitRounds_current hs gs ho hk hsafe
  rw [hrun] at hrun₂
  obtain rfl : d' = d₂ := by injection hrun₂
  exact ⟨hsafe, hopt, hcur, hpar⟩

/-- **The loop of `put` and the split of the root act on current copies** exactly if no node
of the path that they split has been read before its child was split. -/
theorem splitRounds_current_iff {fs : List (Frame Nat Item)} {h : Nat}
    (ho : d.Owns F (plugAll fs leaf)) (hu : Uniform h (plugAll fs leaf)) :
    LoopCurrent (splitRound (pathNodes fs leaf) (0 :: pathIndexes fs))
        (fun o node => o.isOverPopulated node.items) (fun o node => o.isOverPopulated node.items)
        (pathNodes fs leaf) d ↔
      SplitsCurrent d.options fs leaf.items := by
  rw [loopCurrent_path]
  constructor
  · rintro ⟨hmid, hroot⟩ gs hs rfl hsafe hbelow hover
    obtain ⟨k, hk⟩ := uniform_below hu
    obtain ⟨d', hrun, hopt, hcur, -⟩ := splitRounds_current hs gs ho hk hsafe
    refine hcur.mp ?_ hbelow
    have hacts : d'.options.isOverPopulated (nodeOf (plugAll hs leaf)).items := by
      rw [hopt, items_top]; exact hover
    rcases List.eq_nil_or_concat' gs with rfl | ⟨gs', f, rfl⟩
    · exact hroot d' hrun hacts
    · rw [List.length_append, List.length_singleton] at hrun
      exact (hmid gs' f hs (by simp) d' hrun hacts).1
  · intro hcond
    refine ⟨fun gs f hs he d' hrun hacts => ?_, fun d' hrun hacts => ?_⟩
    · have hassoc : fs = (gs ++ [f]) ++ hs := by rw [he]; simp
      obtain ⟨hsafe, hopt, hcur, hpar⟩ :=
        splitRounds_of_run (gs ++ [f]) hs hassoc (by simp) ho hu hrun
      rw [hopt, items_top] at hacts
      exact ⟨hcur.mpr fun hbelow => hcond _ hs hassoc hsafe hbelow hacts, hpar gs f rfl⟩
    · obtain ⟨hsafe, hopt, hcur, -⟩ := splitRounds_of_run [] fs rfl rfl ho hu hrun
      rw [hopt, items_top] at hacts
      exact hcur.mpr fun hbelow => hcond [] fs rfl hsafe hbelow hacts

end Put

/-! ## The rounds of `remove` -/

section Remove

variable {d d' : Dal (Shelf Capacity.unlimited)} {F : Set Nat} {leaf : PTree}

theorem rebalanceRound_stuck {φ : Type} [PageStore φ] {d : Dal φ} {f : Frame Nat Item} {t : PTree}
    {ancestors : List Node} {indexes : List Nat} {i : Nat} {node : Node} (hi : ancestors[i]? = some (nodeOf (f.plug t)))
    (hi' : ancestors[i + 1]? = some node) (hidx : indexes[i + 1]? = some f.left.length)
    (hunder : d.options.isUnderPopulated node.items) (hf : f.siblings = []) :
    rebalanceRound ancestors indexes i d = .stop .undefined := by
  obtain ⟨p, left, right⟩ := f
  obtain ⟨rfl, rfl⟩ : left = [] ∧ right = [] := by simpa [Frame.siblings] using hf
  have hrun : rebalanceRemove (nodeOf (Frame.plug ⟨p, [], []⟩ t)) node 0 d = .stop .undefined := rfl
  rw [rebalanceRound, Prog.get_bind, Prog.element_bind hi, Prog.element_bind hi', if_pos hunder,
    Prog.element_bind hidx]
  exact Prog.orPanic_stop hrun

theorem length_rebalance {π : Type} {o : Options} {f : Frame π Item} {t : Multiway.Tree π Item}
    (hf : f.siblings ≠ []) :
    (rebalance o f t).items.length + 1 = f.items.length := by
  obtain ⟨p, left, right⟩ := f
  rw [items_rebalance, Frame.length_items, Frame.length_items]
  cases left with
  | cons x ls =>
    have : (rightAfter o right).length = right.length := by
      rcases leftRotation_cases o t right with ⟨b, r, z, zs, rs, rfl, -, -, -, h⟩ | ⟨-, h, -⟩ <;> rw [h]
      rfl
    simp only [mergedFrame, List.length_cons, this]
    omega
  | nil =>
    cases right with
    | nil => exact absurd rfl hf
    | cons x rs => simp [mergedFrame]

/-- **A loop of `remove` that ends and has repaired no outdated copy** found a sibling for
every node it repaired. -/
theorem shrinkSafe_of_run : ∀ (hs gs : List (Frame Nat Item)) {h : Nat} {d' : Dal _},
    d.Owns F (plugAll (gs ++ hs) leaf) → Uniform h (plugAll hs leaf) →
    RepairsCurrent d.options hs leaf.items →
    Prog.forEach (rebalanceRound (pathNodes (gs ++ hs) leaf) (0 :: pathIndexes (gs ++ hs)))
      (roundsFrom gs.length hs.length) d = .ok () d' →
    Siblinged d.options hs leaf.items ∧ ShrinkSafe Capacity.unlimited d.options leaf hs := by
  intro hs
  induction hs with
  | nil => intro gs h d' _ _ _ _; exact ⟨trivial, trivial⟩
  | cons f hs ih =>
    intro gs h d' ho hu hcond hrun
    obtain ⟨k, rfl, hsib, hk⟩ := Frame.uniform_of_plug hu
    have hassoc : gs ++ f :: hs = (gs ++ [f]) ++ hs := by simp
    rw [List.length_cons, roundsFrom_succ, Prog.forEach_append] at hrun
    obtain ⟨⟨⟩, d₁, hrun₁, hrun₂⟩ := Prog.bind_eq_ok.mp hrun
    have hlen : (gs ++ [f]).length = gs.length + 1 := by simp
    have hloop : Prog.forEach (rebalanceRound (pathNodes ((gs ++ [f]) ++ hs) leaf)
        (0 :: pathIndexes ((gs ++ [f]) ++ hs))) (roundsFrom (gs ++ [f]).length hs.length) d =
          .ok () d₁ := by
      rw [hlen, ← hassoc]
      exact hrun₁
    obtain ⟨hhas, hsafe⟩ := ih (gs ++ [f]) (hassoc ▸ ho) hk
      (fun gs' g hs' he => hcond (f :: gs') g hs' (by rw [he]; rfl)) hloop
    obtain ⟨d₂, hrun₂', -, hk₂, -⟩ := rebalanceRounds_ok hs (gs ++ [f]) (hassoc ▸ ho) hk hsafe
    rw [hlen, ← hassoc, hrun₁] at hrun₂'
    obtain rfl : d₁ = d₂ := by injection hrun₂'
    have hround : d.options.isUnderPopulated (topItems hs leaf.items) → f.siblings ≠ [] := by
      intro hunder hf
      have hi' := pathNodes_at (gs ++ [f]) hs leaf
      rw [hlen, ← hassoc] at hi'
      have hstuck := rebalanceRound_stuck (d := d₁) (pathNodes_at gs (f :: hs) leaf) hi'
        (pathIndexes_at gs hs f) (by rw [hk₂.options, items_top]; exact hunder) hf
      obtain ⟨⟨⟩, d₃, hrun₃, -⟩ := Prog.bind_eq_ok.mp hrun₂
      rw [hstuck] at hrun₃
      cases hrun₃
    exact ⟨⟨hhas, hround⟩, hsafe, fun hunder => ⟨⟨hround hunder, rfl, rfl, rfl⟩,
      fun hout => (hcond [] f hs rfl hhas hout hunder).elim⟩⟩

/-- Before its next round the loop of `remove` has the top of `hs` as a current copy exactly
if it has not repaired the node below. -/
theorem rebalanceRounds_current (hs gs : List (Frame Nat Item)) {h : Nat}
    (ho : d.Owns F (plugAll (gs ++ hs) leaf)) (hu : Uniform h (plugAll hs leaf))
    (hsafe : ShrinkSafe Capacity.unlimited d.options leaf hs) :
    ∃ d', Prog.forEach (rebalanceRound (pathNodes (gs ++ hs) leaf) (0 :: pathIndexes (gs ++ hs)))
        (roundsFrom gs.length hs.length) d = .ok () d' ∧ d'.options = d.options ∧
      (d'.Current (nodeOf (plugAll hs leaf)) ↔ ¬Outdated d.options hs leaf.items) ∧
      ∀ gs' f, gs = gs' ++ [f] → d'.Current (nodeOf (plugAll (f :: hs) leaf)) := by
  obtain ⟨d', hrun, ho', hk, -⟩ := rebalanceRounds_ok hs gs ho hu hsafe
  refine ⟨d', hrun, hk.options, ?_, ?_⟩
  · rw [ho'.hole.current_iff tag_shrinkPath.symm]
    refine ⟨fun he hout => ?_, nodeOf_shrinkPath⟩
    cases hs with
    | nil => exact hout
    | cons f hs =>
      rw [Outdated] at hout
      have hlen := congrArg (fun n : Node => n.items.length) he
      rw [shrinkPath, if_pos hout] at hlen
      have := length_rebalance (o := d.options) (t := shrinkPath d.options leaf hs)
        (hsafe.2 hout).1.sibling
      simp only [items_nodeOf, plugAll_cons, Frame.items_plug] at hlen
      omega
  · rintro gs' f rfl
    rw [plugAll_append] at ho'
    exact ho'.hole.current_parent tag_shrinkPath.symm

/-- What a loop of `remove` that has ended has found: the siblings, and whether the top of `hs`
is still the node that was read. -/
theorem rebalanceRounds_of_run (gs hs : List (Frame Nat Item)) {fs : List (Frame Nat Item)}
    {n h : Nat} (he : fs = gs ++ hs) (hn : gs.length = n) (ho : d.Owns F (plugAll fs leaf))
    (hu : Uniform h (plugAll fs leaf)) (hcond : RepairsCurrent d.options fs leaf.items)
    (hrun : Prog.forEach (rebalanceRound (pathNodes fs leaf) (0 :: pathIndexes fs))
      (roundsFrom n hs.length) d = .ok () d') :
    Siblinged d.options hs leaf.items ∧ ShrinkSafe Capacity.unlimited d.options leaf hs ∧
      d'.options = d.options ∧
      (d'.Current (nodeOf (plugAll hs leaf)) ↔ ¬Outdated d.options hs leaf.items) ∧
      ∀ gs' f, gs = gs' ++ [f] → d'.Current (nodeOf (plugAll (f :: hs) leaf)) := by
  subst he hn
  obtain ⟨k, hk⟩ := uniform_below hu
  obtain ⟨hhas, hsafe⟩ := shrinkSafe_of_run hs gs ho hk
    (fun gs' f hs' he => hcond (gs ++ gs') f hs' (by rw [he]; simp)) hrun
  obtain ⟨d₂, hrun₂, hopt, hcur, hpar⟩ := rebalanceRounds_current hs gs ho hk hsafe
  rw [hrun] at hrun₂
  obtain rfl : d' = d₂ := by injection hrun₂
  exact ⟨hhas, hsafe, hopt, hcur, hpar⟩

/-- Where no safe round repairs an outdated copy, the rounds below any frame are safe as soon
as every node they repair has a sibling. -/
theorem shrinkSafe_of_siblinged {fs : List (Frame Nat Item)} {o : Options}
    (hround : ∀ gs f hs, fs = gs ++ f :: hs → ShrinkSafe Capacity.unlimited o leaf hs →
      Outdated o hs leaf.items → ¬o.isUnderPopulated (topItems hs leaf.items)) :
    ∀ hs gs f, fs = gs ++ f :: hs → Siblinged o hs leaf.items →
      ShrinkSafe Capacity.unlimited o leaf hs := by
  intro hs
  induction hs with
  | nil => intro gs f _ _; trivial
  | cons g hs ih =>
    intro gs f he hhas
    have hassoc : fs = (gs ++ [f]) ++ g :: hs := by rw [he]; simp
    have hsafe := ih (gs ++ [f]) g hassoc hhas.1
    exact ⟨hsafe, fun hunder => ⟨⟨hhas.2 hunder, rfl, rfl, rfl⟩,
      fun hout => (hround _ _ _ hassoc hsafe hout hunder).elim⟩⟩

/-- **The loop of `remove` and the collapse of the root act on current copies** exactly if no
node of the path that they repair has been read before its child was repaired. -/
theorem rebalanceRounds_current_iff {fs : List (Frame Nat Item)} {h : Nat}
    (ho : d.Owns F (plugAll fs leaf)) (hu : Uniform h (plugAll fs leaf)) (hleaf : leaf.children = []) :
    LoopCurrent (rebalanceRound (pathNodes fs leaf) (0 :: pathIndexes fs))
        (fun o node => o.isUnderPopulated node.items)
        (fun _ node => node.items.isEmpty ∧ ¬node.children.isEmpty) (pathNodes fs leaf) d ↔
      RepairsCurrent d.options fs leaf.items := by
  rw [loopCurrent_path]
  constructor
  · rintro ⟨hmid, -⟩
    -- a round that the loop reaches and that repairs its node has a current copy
    have hround : ∀ gs f hs, fs = gs ++ f :: hs →
        ShrinkSafe Capacity.unlimited d.options leaf hs → Outdated d.options hs leaf.items →
        ¬d.options.isUnderPopulated (topItems hs leaf.items) := by
      intro gs f hs he hsafe hout hunder
      have hassoc : fs = (gs ++ [f]) ++ hs := by rw [he]; simp
      obtain ⟨k, hk⟩ := uniform_below (hassoc ▸ hu)
      obtain ⟨d', hrun, hopt, hcur, -⟩ := rebalanceRounds_current hs (gs ++ [f]) (hassoc ▸ ho) hk hsafe
      rw [List.length_append, List.length_singleton, ← hassoc] at hrun
      exact hcur.mp (hmid gs f hs he d' hrun (by rw [hopt, items_top]; exact hunder)).1 hout
    exact fun gs f hs he hhas => hround gs f hs he (shrinkSafe_of_siblinged hround hs gs f he hhas)
  · intro hcond
    refine ⟨fun gs f hs he d' hrun hacts => ?_, fun d' hrun hacts => ?_⟩
    · have hassoc : fs = (gs ++ [f]) ++ hs := by rw [he]; simp
      obtain ⟨hhas, -, hopt, hcur, hpar⟩ :=
        rebalanceRounds_of_run (gs ++ [f]) hs hassoc (by simp) ho hu hcond hrun
      rw [hopt, items_top] at hacts
      exact ⟨hcur.mpr fun hout => hcond gs f hs he hhas hout hacts, hpar gs f rfl⟩
    · obtain ⟨-, hsafe, -, hcur, -⟩ := rebalanceRounds_of_run [] fs rfl rfl ho hu hcond hrun
      apply hcur.mpr
      rw [items_top] at hacts
      -- a root without items has an only child, which a loop that ends has not repaired
      cases fs with
      | nil => exact absurd (by simp [hleaf]) hacts.2
      | cons f fs =>
        exact (shrinkPath_collapsed hsafe (by simpa [topItems] using hacts.1)).1

/-- Where the predecessor of the item would come out of an empty leaf, `remove` does not end. -/
theorem removeItem_stuck {cap : Capacity} {c : Collection (Shelf cap)} {t : PTree} {h : Nat}
    {key : Bytes} {x : Path Nat Item} (ho : c.dal.Owns F t) (hroot : c.root = t.tag)
    (hu : Uniform h t) (hx : IsPath (findKeyInNode key) t x) (hf : x.found = true)
    (hnone : takeOut x = none) : removeItem key c = .stop .undefined := by
  have hreads : c.dal.Reads t := reads_iff_holds.mpr ho.holds
  obtain ⟨a, ha, -⟩ := (scans_findKeyInNode key).hit (hf ▸ hx.stop)
  obtain ⟨hi, -⟩ := List.getElem?_eq_some_iff.mp ha
  have hne : x.focus.children ≠ [] := fun hleaf => by rw [takeOut_leaf hleaf] at hnone; cases hnone
  have hupath : Uniform h (plugAll x.frames x.focus) := by rw [hx.eq]; exact hu
  obtain ⟨k, -, hfocus⟩ := uniform_of_plugAll hupath
  obtain ⟨m, rfl⟩ : ∃ m, k = m + 1 := by
    cases k with
    | zero => exact absurd hfocus.children_eq_nil hne
    | succ m => exact ⟨m, rfl⟩
  obtain ⟨s, y, hdown⟩ := exists_leadsDown hfocus hi.le
  have ho' : c.dal.Owns F (plugAll x.frames x.focus) := by rw [hx.eq]; exact ho
  have hinternal : removeItemFromInternal (nodeOf x.focus) x.index c.dal = .stop .undefined :=
    removeItemFromInternal_stuck (reads_iff_holds.mpr ho'.holds).focus hfocus hdown
      (takeOut_none hne hdown hnone) (length_descent_lt ho' hfocus hdown)
  have hlf : (nodeOf x.focus).isLeaf = false := by
    rw [isLeaf_nodeOf]
    simpa using hne
  have hget : Dal.getNode c.root c.dal = .ok (nodeOf t) c.dal := hroot ▸ hreads.getNode
  rw [removeItem, Prog.get_bind, Prog.bind_ok (onDal_ok_self hget),
    Prog.bind_ok (onDal_ok_self (findKey_ok true hreads hx (ho.length_frames_lt hx))), hf]
  simp only [Bool.true_or, if_true, hlf, Bool.false_eq_true, if_false]
  exact Prog.bind_stop (Prog.zoom_stop (Prog.orPanic_stop hinternal))

/-- Where the item would come out of an empty leaf, or the leaf is under-populated without it and
an only child, `remove` does not end. -/
theorem remove_stuck {cap : Capacity} {c : Collection (Shelf cap)} {t : PTree} {h : Nat}
    {key : Bytes} {x : Path Nat Item} (ho : c.dal.Owns F t) (hroot : c.root = t.tag)
    (hu : Uniform h t) (hx : IsPath (findKeyInNode key) t x) (hf : x.found = true)
    (hroom : ∀ q ∈ takeOut x, ∀ f ∈ q.1, cap.room f.items (f.items.length + 1) = true)
    (honly : ∀ q ∈ takeOut x, c.dal.options.isUnderPopulated q.2.items ∧
      ∃ f ∈ q.1.getLast?, f.siblings = []) : remove key c = .stop .undefined := by
  cases hq : takeOut x with
  | none => exact Prog.bind_stop (removeItem_stuck ho hroot hu hx hf hq)
  | some q =>
    obtain ⟨fs, leaf⟩ := q
    obtain ⟨hunder, f, hlast, hsib⟩ := honly _ hq
    obtain ⟨gs, rfl⟩ : ∃ gs, fs = gs ++ [f] := List.getLast?_eq_some_iff.mp hlast
    obtain ⟨d₁, hrun, -, hk, -⟩ := removeItem_ok ho hroot hu hx hf hq (hroom _ hq)
    have hi' := pathNodes_at (gs ++ [f]) [] leaf
    rw [List.append_nil, List.length_append, List.length_singleton] at hi'
    have hround : rebalanceRound (pathNodes (gs ++ [f]) leaf) (0 :: pathIndexes (gs ++ [f]))
        gs.length d₁ = .stop .undefined :=
      rebalanceRound_stuck (pathNodes_at gs [f] leaf) hi' (pathIndexes_at gs [] f)
        (by rw [hk.options]; exact hunder) hsib
    have hrounds : rounds (pathNodes (gs ++ [f]) leaf) = gs.length :: roundsFrom 0 gs.length := by
      rw [rounds_eq, length_pathNodes, List.length_append, List.length_singleton, Nat.add_sub_cancel,
        roundsFrom_add, Nat.zero_add]
      simp [roundsFrom]
    rw [remove, Prog.bind_ok hrun]
    refine Prog.bind_stop (Prog.zoom_stop ?_)
    rw [hrounds]
    exact Prog.bind_stop hround

end Remove

end Collection

end Toocal
