import Toocal.Tree.CurrentCopies
import Toocal.Tree.Filling

/-!
# How a removal thins the nodes out

A removal takes an item from one leaf, at the end of `losingPath`.  Where every other node
has at least `m` items that leaf is the only node the rounds can repair, so what `remove`
makes of the tree is one `rebalance` at most (`shrinkPath_snoc`), and
`below_removeOutline_iff` says when its nodes keep between `m` and `M` items.
-/

namespace Toocal

open Binary32 Outcomes Multiway Multiway.Tree Collection

variable {π : Type} {o : Options} {s m M : Nat}

def Ranged (m M : Nat) (its : List Item) : Prop := m ≤ its.length ∧ its.length ≤ M

instance (m M : Nat) (its : List Item) : Decidable (Ranged m M its) :=
  inferInstanceAs (Decidable (_ ∧ _))

/-- `m` is the fewest items of size `s` with which a node is not under-populated, and `M` the
most with which it is not over-populated.  A page counts its items in 16 bits. -/
structure Bounds (o : Options) (s m M : Nat) : Prop where
  tooFew : ∀ its, Sized s its → its.length < 2 ^ 16 → (o.isUnderPopulated its ↔ its.length < m)
  tooMany : ∀ its, Sized s its → its.length < 2 ^ 16 → (o.isOverPopulated its ↔ M < its.length)

theorem bounds_of_thresholds {low high : Nat} (hs : s ≤ 255) (hmin : o.minThreshold = low)
    (hmax : o.maxThreshold = high) (hm : ∀ n, 11 + n * s < low ↔ n < m)
    (hM : ∀ n, high < 11 + n * s ↔ M < n) : Bounds o s m M := by
  have hexact : ∀ its, Sized s its → its.length < 2 ^ 16 →
      nearest (nodeSize its) = (11 + its.length * s : Nat) := by
    intro its h hlen
    have hmul := Nat.mul_le_mul hlen.le hs
    rw [nodeSize_sized h hlen, nearest_natCast (by omega)]
  refine ⟨fun its h hlen => ?_, fun its h hlen => ?_⟩
  · rw [Options.isUnderPopulated, hexact its h hlen, hmin, Nat.cast_lt]
    exact hm _
  · rw [Options.isOverPopulated, hexact its h hlen, hmax, Nat.cast_lt]
    exact hM _

/-! ## The leaf that loses an item -/

/-- The path to the leaf that loses an item when the item a search has found is removed: the
focus, if it is a leaf, and otherwise the leaf of the predecessor. -/
def losingPath (x : Path π Item) : Option (List (Frame π Item) × Tree π Item) :=
  if x.focus.children.isEmpty then some (x.frames, x.focus)
  else do
    let c ← x.focus.children[x.index]?
    let y ← rightmost c
    return (x.frames ++ Frame.ofNode x.focus.tag x.focus.items x.focus.children x.index :: y.frames,
      y.focus)

section LosingPath

variable {t : Tree π Item} {x : Path π Item} {h : Nat} {key : Bytes}

/-- **The removal takes one item out of that leaf**, and leaves what stands around its path. -/
theorem losingPath_spec (hu : Uniform h t) (hx : IsPath (findKeyInNode key) t x)
    (hf : x.found = true) : ∃ p, losingPath x = some p ∧ plugAll p.1 p.2 = t ∧
      p.2.children = [] ∧ (takeOut x = none → p.2.items = []) ∧
      ∀ q ∈ takeOut x, q.1.map Frame.around = p.1.map Frame.around ∧
        q.2.items.length + 1 = p.2.items.length := by
  obtain ⟨a, ha, -⟩ := (scans_findKeyInNode key).hit (hf ▸ hx.stop)
  obtain ⟨hi, -⟩ := List.getElem?_eq_some_iff.mp ha
  by_cases hleaf : x.focus.children = []
  · refine ⟨(x.frames, x.focus), by rw [losingPath, hleaf]; rfl, hx.eq, hleaf, fun hnone => ?_,
      fun q hq => ?_⟩
    · rw [takeOut_leaf hleaf] at hnone
      cases hnone
    · obtain rfl := Option.some.inj ((takeOut_leaf hleaf).symm.trans hq)
      refine ⟨rfl, ?_⟩
      show (x.focus.items.eraseIdx x.index).length + 1 = x.focus.items.length
      rw [List.length_eraseIdx_of_lt hi]
      omega
  · have hupath : Uniform h (plugAll x.frames x.focus) := by rw [hx.eq]; exact hu
    obtain ⟨k, -, hfocus⟩ := uniform_of_plugAll hupath
    obtain ⟨j, rfl⟩ : ∃ j, k = j + 1 := by
      cases k with
      | zero => exact absurd hfocus.children_eq_nil hleaf
      | succ j => exact ⟨j, rfl⟩
    obtain ⟨c, y, hdown⟩ := exists_leadsDown hfocus hi.le
    obtain ⟨hy, -, hyleaf⟩ := hdown.spec hfocus
    have hlen := hfocus.length_children
    refine ⟨(x.frames ++ Frame.ofNode x.focus.tag x.focus.items x.focus.children x.index :: y.frames,
      y.focus), ?_, ?_, hyleaf, fun hnone => ?_, fun q hq => ?_⟩
    · rw [losingPath, if_neg (by simpa using hleaf), hdown.child]
      simp [hdown.path]
    · rw [plugAll_append, plugAll_cons, hy, Frame.plug_ofNode hlen hdown.child, eta, hx.eq]
    · exact List.getLast?_eq_none_iff.mp (takeOut_none hleaf hdown hnone)
    · obtain ⟨c', y', pred, hpull, rfl⟩ := takeOut_inner hleaf hq
      obtain rfl : c = c' := Option.some.inj (hdown.child.symm.trans hpull.child)
      obtain rfl : y = y' := Option.some.inj (hdown.path.symm.trans hpull.path)
      have hne : y.focus.items ≠ [] := fun hnil => by
        have := hpull.last
        rw [hnil] at this
        cases this
      refine ⟨?_, ?_⟩
      · rw [pulledPath, List.map_append, List.map_append, List.map_cons, List.map_cons,
          Frame.around_ofNode (by simpa using hlen) (by simpa using hi.le),
          Frame.around_ofNode hlen hi.le]
      · show y.focus.items.dropLast.length + 1 = y.focus.items.length
        rw [List.length_dropLast]
        have := List.length_pos_iff.mpr hne
        omega

end LosingPath

/-! ## One repair at most -/

section Calm

variable {leaf : Tree π Item} {gs : List (Frame π Item)} {f : Frame π Item} {its : List Item}

theorem exists_topItems (gs : List (Frame π Item)) (f : Frame π Item) (its : List Item) :
    ∃ k ∈ gs ++ [f], topItems (gs ++ [f]) its = k.items := by
  cases gs with
  | nil => exact ⟨f, by simp, rfl⟩
  | cons k gs => exact ⟨k, by simp, rfl⟩

theorem shrinkPath_snoc (hcalm : ∀ g ∈ (gs ++ [f]).tail, ¬o.isUnderPopulated g.items) :
    shrinkPath o leaf (gs ++ [f]) = plugAll gs (shrinkPath o leaf [f]) := by
  induction gs with
  | nil => rfl
  | cons g gs ih =>
    rw [List.cons_append, List.tail_cons] at hcalm
    obtain ⟨k, hk, htop⟩ := exists_topItems gs f leaf.items
    rw [List.cons_append, shrinkPath, htop, if_neg (hcalm k hk), plugAll_cons,
      ih fun g' hg' => hcalm g' (List.mem_of_mem_tail hg')]

theorem shrinkSafe_snoc {cap : Capacity}
    (hcalm : ∀ g ∈ (gs ++ [f]).tail, ¬o.isUnderPopulated g.items) :
    ShrinkSafe cap o leaf (gs ++ [f]) ↔ (o.isUnderPopulated leaf.items → RebalanceFits cap o f leaf) := by
  induction gs with
  | nil =>
    constructor
    · exact fun h hunder => (h.2 hunder).1
    · exact fun h => ⟨trivial, fun hunder => ⟨h hunder, fun hout => hout.elim⟩⟩
  | cons g gs ih =>
    rw [List.cons_append, List.tail_cons] at hcalm
    obtain ⟨k, hk, htop⟩ := exists_topItems gs f leaf.items
    rw [List.cons_append, ShrinkSafe, ih fun g' hg' => hcalm g' (List.mem_of_mem_tail hg'), htop]
    exact and_iff_left fun hunder => absurd hunder (hcalm k hk)

end Calm

/-! ## What the repair of a leaf writes -/

/-- The number of items of the node that the repair of a leaf with `n` items makes. -/
def repairedLength (o : Options) (n : Nat) :
    List (Tree π Item) × List (Tree π Item) → Nat
  | ([], []) => n
  | ([], r :: _) => n + 1 + r.items.length
  | (l :: _, []) => l.items.length + 1 + n
  | (l :: _, r :: _) => l.items.length + 1 + n + if o.canSpareAnElement r.items then 1 else 0

section Written

variable {f : Frame π Item} {u : Tree π Item}

theorem mem_afterRightRotation {a : Item} (ha : a ∈ afterRightRotation o f) :
    a ∈ f.items ∨ ∃ c ∈ f.siblings, a ∈ c.items := by
  obtain ⟨p, left, right⟩ := f
  cases left with
  | nil => exact .inl ha
  | cons x ls =>
    obtain ⟨l, b⟩ := x
    simp only [afterRightRotation] at ha
    split at ha
    · rcases List.mem_or_eq_of_mem_set ha with ha | rfl
      · exact .inl ha
      · rcases List.mem_cons.mp (List.getLastD_mem_cons (a := b) (l := l.items)) with hb | hb
        · exact .inl (by rw [hb]; simp [Frame.items])
        · exact .inr ⟨l, by simp [Frame.siblings], hb⟩
    · exact .inl ha

theorem mem_afterRotations {a : Item} (ha : a ∈ afterRotations o f) :
    a ∈ f.items ∨ ∃ c ∈ f.siblings, a ∈ c.items := by
  obtain ⟨p, left, right⟩ := f
  cases right with
  | nil => exact mem_afterRightRotation ha
  | cons x rs =>
    obtain ⟨b, r⟩ := x
    simp only [afterRotations] at ha
    split at ha
    · rcases List.mem_or_eq_of_mem_set ha with ha | rfl
      · exact mem_afterRightRotation ha
      · cases hr : r.items with
        | nil => exact .inl (by simp [Frame.items])
        | cons z zs => exact .inr ⟨r, by simp [Frame.siblings], by simp [hr]⟩
    · exact mem_afterRightRotation ha

theorem length_afterRightRotation : (afterRightRotation o f).length = f.items.length := by
  unfold afterRightRotation
  split
  · split <;> simp
  · rfl

theorem length_afterRotations : (afterRotations o f).length = f.items.length := by
  unfold afterRotations
  split
  · split
    · rw [List.length_set, length_afterRightRotation]
    · exact length_afterRightRotation
  · exact length_afterRightRotation

theorem mergedNode_leaf (hu : u.children = []) (hs : ∀ c ∈ f.siblings, c.children = [])
    (hne : f.siblings ≠ []) : (mergedNode o f u).children = [] ∧
      (mergedNode o f u).items.length = repairedLength o u.items.length f.around := by
  obtain ⟨p, left, right⟩ := f
  cases left with
  | nil =>
    cases right with
    | nil => exact absurd rfl hne
    | cons x rs =>
      obtain ⟨b, r⟩ := x
      have hr : r.children = [] := hs r (by simp [Frame.siblings])
      simp [mergedNode, Frame.around, repairedLength, items_join, children_join, hu, hr]
      omega
  | cons x ls =>
    obtain ⟨l, a⟩ := x
    have hl : l.children = [] := hs l (by simp [Frame.siblings])
    cases right with
    | nil =>
      simp [mergedNode, Frame.around, repairedLength, takeFromRight, items_join, children_join, hu, hl]
      omega
    | cons y rs =>
      obtain ⟨b, r⟩ := y
      have hr : r.children = [] := hs r (by simp [Frame.siblings])
      simp only [mergedNode, Frame.around, List.map_cons, repairedLength, takeFromRight]
      split
      · simp [items_join, children_join, hu, hl, hr]
        omega
      · simp [items_join, children_join, hu, hl]
        omega

theorem forall_mergedNode {Q : Item → Prop} {h : Nat} (hu : Uniform h (f.plug u))
    (hQ : (f.plug u).Each fun its => ∀ b ∈ its, Q b) : ∀ b ∈ (mergedNode o f u).items, Q b := by
  obtain ⟨k, rfl, hsib, hk⟩ := Frame.uniform_of_plug hu
  have hin : (rebalance o f u).inorder = (f.plug u).inorder :=
    inorder_rebalance (Frame.beside_of_uniform hsib) hk.jointed
  have heach : (rebalance o f u).Each fun its => ∀ b ∈ its, Q b := by
    rw [each_forall_iff, hin]
    exact each_forall_iff.mp hQ
  exact (each_iff.mp (Frame.each_plug.mp heach).2.2).1

end Written

/-! ## What the repair of a leaf makes of its parent -/

/-- The nodes a repair of a leaf with `m - 1` items leaves below its parent have between `m` and
`M` items, read off what stands around the leaf.  A left neighbour takes the leaf in, and before
that the leaf an item of a right neighbour that can spare it; without a left neighbour the leaf
takes in the right one. -/
def RepairFits (o : Options) (m M : Nat) : List (Tree π Item) × List (Tree π Item) → Prop
  | ([], []) => False
  | ([], r :: _) => r.items.length + m ≤ M
  | (l :: _, []) => l.items.length + m ≤ M
  | (l :: _, r :: _) =>
    if o.canSpareAnElement r.items then l.items.length + m < M ∧ m < r.items.length
    else l.items.length + m ≤ M

section Repair

variable {f : Frame π Item} {leaf l r : Tree π Item} {a b : Item}

theorem each_join_iff (hl : l.children = []) (hr : r.children = [])
    (hlen : m ≤ l.items.length + 1 + r.items.length) :
    (l.join a r).Each (Ranged m M) ↔ l.items.length + 1 + r.items.length ≤ M := by
  have hlength : (l.join a r).items.length = l.items.length + 1 + r.items.length := by
    rw [items_join, List.length_append, List.length_cons]
    omega
  rw [each_leaf (by rw [children_join, hl, hr]; rfl), Ranged, hlength]
  exact and_iff_right hlen

theorem below_plug_join_iff {p : π} {ls : List (Tree π Item × Item)}
    {right : List (Item × Tree π Item)}
    (hls : ∀ y ∈ ls, y.1.Each (Ranged m M)) (hl : l.children = []) (hr : r.children = [])
    (hlen : m ≤ l.items.length + 1 + r.items.length) :
    ((Frame.mk p ls right).plug (l.join a r)).Below (Ranged m M) ↔
      l.items.length + 1 + r.items.length ≤ M ∧ ∀ y ∈ right, y.2.Each (Ranged m M) := by
  rw [Frame.below_plug, each_join_iff hl hr hlen, and_comm]
  refine and_congr_right fun _ => ?_
  simp only [Frame.siblings, List.mem_append, List.mem_map]
  constructor
  · exact fun h y hy => h y.2 (.inr ⟨y, hy, rfl⟩)
  · rintro h c (⟨y, hy, rfl⟩ | ⟨y, hy, rfl⟩)
    · exact hls y hy
    · exact h y hy

/-- **The children of the parent after the repair**, all of them leaves. -/
theorem below_rebalance_iff (hleaf : leaf.children = []) (hlen : leaf.items.length + 1 = m)
    (hleaves : ∀ c ∈ f.siblings, c.children = []) (hfill : ∀ c ∈ f.siblings, c.Each (Ranged m M)) :
    f.siblings ≠ [] ∧ (rebalance o f leaf).Below (Ranged m M) ↔ RepairFits o m M f.around := by
  obtain ⟨p, left, right⟩ := f
  simp only [Frame.siblings, List.mem_append, List.mem_map] at hleaves hfill
  cases left with
  | nil =>
    cases right with
    | nil => simp [Frame.siblings, Frame.around, RepairFits]
    | cons y rs =>
      obtain ⟨b, r⟩ := y
      have hr : r.children = [] := hleaves r (.inr ⟨(b, r), List.mem_cons_self, rfl⟩)
      have hrest : ∀ c ∈ (Frame.mk p [] rs).siblings, c.Each (Ranged m M) := by
        intro c hc
        obtain ⟨y, hy, rfl⟩ : ∃ y ∈ rs, y.2 = c := by simpa [Frame.siblings] using hc
        exact hfill y.2 (.inr ⟨y, List.mem_cons_of_mem _ hy, rfl⟩)
      have hbelow : (rebalance o ⟨p, [], (b, r) :: rs⟩ leaf).Below (Ranged m M) ↔
          leaf.items.length + 1 + r.items.length ≤ M := by
        show ((Frame.mk p [] rs).plug (leaf.join b r)).Below (Ranged m M) ↔ _
        rw [Frame.below_plug, each_join_iff hleaf hr (by omega)]
        exact and_iff_right hrest
      rw [hbelow]
      show _ ↔ r.items.length + m ≤ M
      rw [and_iff_right (by simp [Frame.siblings])]
      omega
  | cons x ls =>
    obtain ⟨l, a⟩ := x
    have hl : l.children = [] := hleaves l (.inl ⟨(l, a), List.mem_cons_self, rfl⟩)
    have hls : ∀ y ∈ ls, y.1.Each (Ranged m M) := fun y hy =>
      hfill y.1 (.inl ⟨y, List.mem_cons_of_mem _ hy, rfl⟩)
    have hrs : ∀ y ∈ right, y.2.Each (Ranged m M) := fun y hy => hfill y.2 (.inr ⟨y, hy, rfl⟩)
    rw [and_iff_right (by simp [Frame.siblings])]
    show ((Frame.mk p ls (rightAfter o right)).plug (l.join a (takeFromRight o leaf right))).Below
      (Ranged m M) ↔ _
    cases right with
    | nil =>
      rw [takeFromRight, rightAfter, below_plug_join_iff hls hl hleaf (by omega), and_iff_left hrs]
      show _ ↔ l.items.length + m ≤ M
      omega
    | cons y rs =>
      obtain ⟨b, r⟩ := y
      have hr : r.children = [] := hleaves r (.inr ⟨(b, r), List.mem_cons_self, rfl⟩)
      obtain ⟨hrfill, hrest⟩ := List.forall_mem_cons.mp hrs
      have hrange : Ranged m M r.items := (each_iff.mp hrfill).1
      show _ ↔ if o.canSpareAnElement r.items then l.items.length + m < M ∧ m < r.items.length
        else l.items.length + m ≤ M
      by_cases hspare : o.canSpareAnElement r.items = true
      · -- the right neighbour gives its first item, and the merge takes it to the left
        obtain ⟨z, zs, hz⟩ := canSpare_ne_nil hspare
        have htaken : (leaf.takeFirst b r).children = [] := by
          rw [children_takeFirst, hleaf, hr]; rfl
        have hcount : (leaf.takeFirst b r).items.length = leaf.items.length + 1 := by
          rw [items_takeFirst, List.length_append]; rfl
        have hdrop : r.dropFirst.Each (Ranged m M) ↔ m < r.items.length := by
          have hlength := congrArg List.length hz
          rw [List.length_cons] at hlength
          rw [each_leaf (by rw [children_dropFirst, hr]; rfl), items_dropFirst, Ranged,
            List.length_tail, hlength]
          have := hrange.2
          omega
        rw [takeFromRight, rightAfter, if_pos hspare, if_pos hspare, if_pos hspare,
          below_plug_join_iff hls hl htaken (by rw [hcount]; omega), hcount, List.forall_mem_cons,
          and_iff_left hrest, hdrop]
        omega
      · rw [takeFromRight, rightAfter, if_neg hspare, if_neg hspare, if_neg hspare,
          below_plug_join_iff hls hl hleaf (by omega), and_iff_left hrs]
        omega

end Repair

/-! ## `remove` as a whole -/

section Remove

variable {P : List Item → Prop} {u : Tree π Item} {gs : List (Frame π Item)} {f : Frame π Item}
  {its : List Item}

theorem Below.collapse (h : u.Below P) : (collapse its u).Below P := by
  unfold Toocal.collapse
  split
  · cases hc : u.children with
    | nil => exact h
    | cons c cs => exact (h c (by rw [hc]; exact List.mem_cons_self)).below
  · exact h

theorem below_hole_iff {g : Frame π Item} (hP : ∀ k ∈ gs, P k.items)
    (hfill : ∀ k ∈ g :: gs, ∀ c ∈ k.siblings, c.Each P) :
    (plugAll (g :: gs) u).Below P ↔ u.Each P :=
  below_plugAll.trans ⟨fun h => h.2.2, fun h => ⟨hP, hfill, h⟩⟩

/-- Where the parent `u` of the leaf has lost an item, and a root without items gives way to its
child: `u` is the root afterwards, or has to have `m` items left. -/
theorem below_collapse_iff (hpos : 0 < m) (hf : f.items ≠ [])
    (hlen : u.items.length + 1 = f.items.length)
    (hranged : ∀ g ∈ (gs ++ [f]).tail, Ranged m M g.items)
    (hfill : ∀ g ∈ gs, ∀ c ∈ g.siblings, c.Each (Ranged m M)) :
    (collapse (topItems (gs ++ [f]) its) (plugAll gs u)).Below (Ranged m M) ↔
      u.Below (Ranged m M) ∧ ((∀ g ∈ gs, g.items = []) ∨ m < f.items.length) := by
  cases gs with
  | nil =>
    rw [List.nil_append, topItems, collapse, if_neg (by simpa using hf)]
    simp
  | cons g gs =>
    rw [List.cons_append, List.tail_cons] at hranged
    have heach : u.Each (Ranged m M) ↔ u.Below (Ranged m M) ∧ m < f.items.length := by
      have hM := (hranged f (by simp)).2
      rw [each_iff, Ranged, and_comm]
      refine and_congr_right fun _ => ?_
      omega
    have hrest : ∀ k ∈ gs, k.items ≠ [] := fun k hk hnil => by
      have := (hranged k (List.mem_append_left _ hk)).1
      rw [hnil, List.length_nil] at this
      omega
    rw [List.cons_append, topItems, collapse]
    by_cases hg : g.items = []
    · have hleft : g.left = [] := by
        have := g.length_items
        rw [hg, List.length_nil] at this
        exact List.length_eq_zero_iff.mp (by omega)
      rw [if_pos (by simp [hg]), plugAll_cons, Frame.children_plug, hleft]
      show (plugAll gs u).Below (Ranged m M) ↔ _
      cases gs with
      | nil => simp [hg]
      | cons k gs =>
        have hnot : ¬∀ k' ∈ g :: k :: gs, k'.items = [] := fun h =>
          hrest k List.mem_cons_self (h k (by simp))
        rw [or_iff_right hnot, ← heach]
        exact below_hole_iff (fun k' hk' => hranged k' (by simp [hk']))
          fun k' hk' => hfill k' (List.mem_cons_of_mem _ hk')
    · have hnot : ¬∀ k ∈ g :: gs, k.items = [] := fun h => hg (h g List.mem_cons_self)
      rw [if_neg (by simpa using hg), or_iff_right hnot, ← heach]
      exact below_hole_iff (fun k hk => hranged k (List.mem_append_left _ hk)) hfill

/-- **Where the leaf is repaired.** -/
theorem below_repaired_iff {leaf : Tree π Item} (hleaf : leaf.children = [])
    (hunder : o.isUnderPopulated leaf.items) (hlen : leaf.items.length + 1 = m)
    (hleaves : ∀ c ∈ f.siblings, c.children = [])
    (hranged : ∀ g ∈ (gs ++ [f]).tail, Ranged m M g.items)
    (hfill : ∀ g ∈ gs ++ [f], ∀ c ∈ g.siblings, c.Each (Ranged m M)) :
    ((o.isUnderPopulated leaf.items → f.siblings ≠ []) ∧
      (collapse (topItems (gs ++ [f]) leaf.items) (plugAll gs (shrinkPath o leaf [f]))).Below
        (Ranged m M)) ↔
      RepairFits o m M f.around ∧ ((∀ g ∈ gs, g.items = []) ∨ m < f.items.length) := by
  have hrepair : shrinkPath o leaf [f] = rebalance o f leaf := if_pos hunder
  rw [hrepair, ← below_rebalance_iff hleaf hlen hleaves (hfill f (by simp)), and_assoc,
    forall_prop_of_true hunder]
  refine and_congr_right fun hsib => ?_
  exact below_collapse_iff (by omega) (fun hnil => hsib (siblings_eq_nil hnil))
    (length_rebalance hsib) hranged fun g hg => hfill g (List.mem_append_left _ hg)

theorem below_unrepaired {leaf : Tree π Item} (hunder : ¬o.isUnderPopulated leaf.items)
    (hranged : ∀ g ∈ (gs ++ [f]).tail, Ranged m M g.items)
    (hfill : ∀ g ∈ gs ++ [f], ∀ c ∈ g.siblings, c.Each (Ranged m M))
    (hleaf : leaf.Each (Ranged m M)) :
    (collapse its (plugAll gs (shrinkPath o leaf [f]))).Below (Ranged m M) := by
  have hkeep : shrinkPath o leaf [f] = f.plug leaf := if_neg hunder
  have hplug : plugAll gs (f.plug leaf) = plugAll (gs ++ [f]) leaf := by rw [plugAll_append]; rfl
  rw [hkeep, hplug]
  apply Below.collapse
  cases gs with
  | nil => exact (below_hole_iff (by simp) hfill).mpr hleaf
  | cons g gs => exact (below_hole_iff hranged hfill).mpr hleaf

/-- The bounds are kept by the removal of an item from the leaf at the end of the path: there is
an item to take, and the leaf is the root, or has `m` items without it, or is repaired with
nodes of at most `M` and at least `m` items, and its parent is the root afterwards, or has `m`
items without the separator. -/
def KeepsBounds (o : Options) (m M : Nat) (p : List (Frame π Item) × Tree π Item) : Prop :=
  p.2.items ≠ [] ∧ (p.1 = [] ∨ m < p.2.items.length ∨
    ∃ gs f, p.1.map Frame.around = gs ++ [f] ∧ RepairFits o m M f ∧
      ((∀ g ∈ gs, g = ([], [])) ∨ m < f.1.length + f.2.length))

variable {t : Tree π Item} {x : Path π Item} {h : Nat} {key : Bytes}
  {p : List (Frame π Item) × Tree π Item}

theorem exists_around {fs fs' : List (Frame π Item)}
    (haround : fs.map Frame.around = fs'.map Frame.around) {g : Frame π Item} (hg : g ∈ fs) :
    ∃ g' ∈ fs', g'.around = g.around := by
  rw [← List.mem_map, ← haround]
  exact List.mem_map_of_mem hg

/-- The nodes below the root of a path and what stands beside them are as full as in the tree,
where it is their number of items that counts. -/
theorem filled_path {Q : Nat → Prop} {b : Tree π Item} {fs fs' : List (Frame π Item)}
    (haround : fs.map Frame.around = fs'.map Frame.around)
    (hfill : (plugAll fs' b).Below fun its => Q its.length) :
    (∀ g ∈ fs.tail, Q g.items.length) ∧
      ∀ g ∈ fs, ∀ c ∈ g.siblings, c.Each fun its => Q its.length := by
  cases fs' with
  | nil =>
    obtain rfl : fs = [] := List.map_eq_nil_iff.mp haround
    exact ⟨by simp, by simp⟩
  | cons k fs' =>
    obtain ⟨hfull, hbeside, -⟩ := below_plugAll.mp hfill
    have htail : fs.tail.map Frame.around = fs'.map Frame.around := by
      rw [List.map_tail, haround]; rfl
    refine ⟨fun g hg => ?_, fun g hg c hc => ?_⟩
    · obtain ⟨g', hg', he⟩ := exists_around htail hg
      rw [← Frame.length_around, ← he, Frame.length_around]
      exact hfull g' hg'
    · obtain ⟨g', hg', he⟩ := exists_around haround hg
      refine hbeside g' hg' c ?_
      rw [Frame.siblings_eq_around, he]
      exact hc

theorem ranged_path {b : Tree π Item} {fs fs' : List (Frame π Item)}
    (haround : fs.map Frame.around = fs'.map Frame.around)
    (hfill : (plugAll fs' b).Below (Ranged m M)) :
    (∀ g ∈ fs.tail, Ranged m M g.items) ∧ ∀ g ∈ fs, ∀ c ∈ g.siblings, c.Each (Ranged m M) :=
  filled_path (Q := fun n => m ≤ n ∧ n ≤ M) haround hfill

theorem below_focus {b : Tree π Item} {fs : List (Frame π Item)} (hne : fs ≠ [])
    (hfill : (plugAll fs b).Below P) : b.Each P := by
  cases fs with
  | nil => exact absurd rfl hne
  | cons k fs => exact (below_plugAll.mp hfill).2.2

theorem leaves_beside {leaf : Tree π Item} (hu : Uniform h (plugAll (gs ++ [f]) leaf))
    (hleaf : leaf.children = []) : ∀ c ∈ f.siblings, c.children = [] := by
  rw [plugAll_append] at hu
  obtain ⟨k, -, hk⟩ := uniform_of_plugAll hu
  obtain ⟨j, -, hsib, hj⟩ := Frame.uniform_of_plug hk
  obtain rfl : j = 0 := hj.zero_of_children hleaf
  exact fun c hc => (hsib c hc).children_eq_nil

theorem exists_snoc_iff {fs : List (Frame π Item)}
    (haround : (gs ++ [f]).map Frame.around = fs.map Frame.around) :
    (∃ gs' f', fs.map Frame.around = gs' ++ [f'] ∧ RepairFits o m M f' ∧
        ((∀ g ∈ gs', g = ([], [])) ∨ m < f'.1.length + f'.2.length)) ↔
      RepairFits o m M f.around ∧ ((∀ g ∈ gs, g.items = []) ∨ m < f.items.length) := by
  have hempty : (∀ g ∈ gs.map Frame.around, g = ([], [])) ↔ ∀ g ∈ gs, g.items = [] := by
    rw [List.forall_mem_map]
    exact forall₂_congr fun g _ => Frame.around_eq_nil
  rw [← haround, List.map_append, List.map_singleton, ← hempty, ← f.length_around]
  constructor
  · rintro ⟨gs', f', he, hfit, hparent⟩
    obtain ⟨rfl, hlast⟩ := List.append_inj' he rfl
    obtain rfl := List.singleton_inj.mp hlast
    exact ⟨hfit, hparent⟩
  · exact fun ⟨hfit, hparent⟩ => ⟨_, _, rfl, hfit, hparent⟩

theorem removeSafe_iff {cap : Capacity} {leaf : Tree π Item} {fs : List (Frame π Item)}
    (hx : locate (findKeyInNode key) t = some x) (hf : x.found = true)
    (hq : takeOut x = some (fs, leaf)) : RemoveSafe cap o key t ↔
      (∀ f ∈ fs, cap.room f.items (f.items.length + 1) = true) ∧ ShrinkSafe cap o leaf fs := by
  constructor
  · intro hsafe
    obtain ⟨q, hq', hshrink⟩ := hsafe x hx hf
    obtain rfl := Option.some.inj (hq.symm.trans hq')
    exact hshrink
  · intro hshrink y hy _
    obtain rfl := Option.some.inj (hx.symm.trans hy)
    exact ⟨_, hq, hshrink⟩

/-- The nodes above the leaf have room with the item taken out, and so have those that a repair
of the leaf writes. -/
def RoomToRemove (cap : Capacity) (o : Options) (x : Path π Item) : Prop :=
  ∀ q ∈ takeOut x, (∀ f ∈ q.1, cap.room f.items (f.items.length + 1) = true) ∧
    (o.isUnderPopulated q.2.items → ∀ f ∈ q.1.getLast?, f.siblings ≠ [] → RebalanceFits cap o f q.2)

/-- What the removal makes of the path: all nodes below its root have their items, and only the
leaf may have too few. -/
theorem takeOut_ranged {fs : List (Frame π Item)} {leaf : Tree π Item} (hb : Bounds o s m M)
    (hu : Uniform h t) (hsize : Sized s t.inorder) (hnarrow : t.Each Narrow)
    (hfill : t.Below (Ranged m M)) (hpath : IsPath (findKeyInNode key) t x) (hf : x.found = true)
    (hq : takeOut x = some (fs, leaf)) :
    (∀ g ∈ fs.tail, Ranged m M g.items) ∧ (∀ g ∈ fs, ∀ c ∈ g.siblings, c.Each (Ranged m M)) ∧
      (∀ g ∈ fs.tail, ¬o.isUnderPopulated g.items) ∧
      (o.isUnderPopulated leaf.items ↔ leaf.items.length < m) := by
  obtain ⟨p, -, hplug, -, -, htaken⟩ := losingPath_spec hu hpath hf
  obtain ⟨⟨l₁, a, l₂, hin, -, hin'⟩, -, hleaf⟩ := takeOut_spec hu hpath hf hq
  obtain ⟨haround, hlen⟩ : fs.map Frame.around = p.1.map Frame.around ∧
      leaf.items.length + 1 = p.2.items.length := htaken _ hq
  obtain ⟨hranged, hbeside⟩ := ranged_path haround (hplug ▸ hfill)
  rw [← hplug, each_plugAll] at hnarrow
  have hsub : (plugAll fs leaf).inorder ⊆ t.inorder := by
    rw [hin, hin']
    exact ((List.Sublist.refl l₁).append (List.sublist_cons_self a l₂)).subset
  have hsized : ∀ its, its ⊆ (plugAll fs leaf).inorder → Sized s its :=
    fun its hits => hsize.mono (List.Subset.trans hits hsub)
  refine ⟨hranged, hbeside, fun g hg hunder => ?_, hb.tooFew _ (hsized _ fun b hmem => ?_) ?_⟩
  · have hitems := items_subset_inorder (List.mem_of_mem_tail hg) leaf
    have hwide : g.items.length < 2 ^ 16 := by
      obtain ⟨g', hg', he⟩ := exists_around haround (List.mem_of_mem_tail hg)
      have hg'' := (hnarrow.1 g' hg').1
      rw [Narrow, ← Frame.length_around, he, Frame.length_around] at hg''
      omega
    have hlt := (hb.tooFew _ (hsized _ hitems) hwide).mp hunder
    exact absurd (hranged g hg).1 (Nat.not_le_of_lt hlt)
  · rw [inorder_plugAll, inorder_of_children_nil hleaf]
    simp [hmem]
  · have hfocus : p.2.items.length + 1 < 2 ^ 16 := (each_iff.mp hnarrow.2).1
    omega

/-- **A removal with room is safe and keeps the bounds exactly if `KeepsBounds` says so.** -/
theorem below_removeOutline_iff {cap : Capacity} (hb : Bounds o s m M) (hu : Uniform h t)
    (hsize : Sized s t.inorder) (hnarrow : t.Each Narrow) (hfill : t.Below (Ranged m M))
    (hx : locate (findKeyInNode key) t = some x) (hpath : IsPath (findKeyInNode key) t x)
    (hf : x.found = true) (hp : losingPath x = some p) (hroom : RoomToRemove cap o x) :
    (RemoveSafe cap o key t ∧ (removeOutline o key t).Below (Ranged m M)) ↔ KeepsBounds o m M p := by
  obtain ⟨p', hp', hplug, hleafp, hnone, htaken⟩ := losingPath_spec hu hpath hf
  obtain rfl : p = p' := Option.some.inj (hp.symm.trans hp')
  cases hq : takeOut x with
  | none =>
    refine iff_of_false (fun ⟨hsafe, _⟩ => ?_) (fun ⟨hne, _⟩ => hne (hnone hq))
    obtain ⟨q, hq', -⟩ := hsafe x hx hf
    rw [hq] at hq'
    cases hq'
  | some q =>
    obtain ⟨fs, leaf⟩ := q
    obtain ⟨haround, hlen⟩ : fs.map Frame.around = p.1.map Frame.around ∧
        leaf.items.length + 1 = p.2.items.length := htaken _ hq
    obtain ⟨-, huq, hleaf⟩ := takeOut_spec hu hpath hf hq
    replace hleaf : leaf.children = [] := hleaf
    obtain ⟨hranged, hbeside, hcalm, hunder_iff⟩ :=
      takeOut_ranged hb hu hsize hnarrow hfill hpath hf hq
    have hne : p.2.items ≠ [] := List.ne_nil_of_length_eq_add_one hlen.symm
    obtain ⟨hrooms, hfits⟩ := hroom _ hq
    rw [removeSafe_iff hx hf hq, and_iff_right hrooms, removeOutline_eq hx hf hq, KeepsBounds,
      and_iff_right hne]
    rcases List.eq_nil_or_concat' fs with rfl | ⟨gs, f, rfl⟩
    · have hroot : p.1 = [] := List.map_eq_nil_iff.mp haround.symm
      refine iff_of_true ⟨trivial, ?_⟩ (.inl hroot)
      exact Below.collapse (below_leaf hleaf)
    · have hnonempty : p.1 ≠ [] := fun hnil => by rw [hnil] at haround; simp at haround
      have hold : Ranged m M p.2.items := (each_iff.mp (below_focus hnonempty (hplug ▸ hfill))).1
      have hsafe : ShrinkSafe cap o leaf (gs ++ [f]) ↔
          (o.isUnderPopulated leaf.items → f.siblings ≠ []) := by
        rw [shrinkSafe_snoc hcalm]
        exact forall_congr' fun hunder => ⟨fun h => h.sibling, fun h =>
          hfits hunder f (by rw [List.getLast?_concat]; rfl) h⟩
      rw [hsafe, shrinkPath_snoc hcalm]
      by_cases hunder : o.isUnderPopulated leaf.items
      · have hlt := hunder_iff.mp hunder
        have hm : leaf.items.length + 1 = m := by
          have := hold.1
          omega
        have hkept : ¬m < p.2.items.length := by omega
        rw [below_repaired_iff hleaf hunder hm (leaves_beside huq hleaf) hranged hbeside,
          or_iff_right hnonempty, or_iff_right hkept]
        exact (exists_snoc_iff haround).symm
      · have hge : ¬leaf.items.length < m := fun hlt => hunder (hunder_iff.mpr hlt)
        have hrange : leaf.Each (Ranged m M) := by
          refine (each_leaf hleaf).mpr ⟨by omega, ?_⟩
          have := hold.2
          omega
        exact iff_of_true ⟨fun h => absurd h hunder, below_unrepaired hunder hranged hbeside hrange⟩
          (.inr (.inl (by omega)))

end Remove

end Toocal
