import Toocal.Library.Levels
import Toocal.Library.Triples
import Toocal.Tree.Filling
import Toocal.Tree.Interrupted

/-!
# What no write breaks

Every node that `put` and `remove` write is of the level of its page: it has the right number
of children, and these are of the level below.  So the pages stay levelled from one write to
the next, whatever has been written by then and however old the copies are that a call works
on, and wherever it is cut off a search from the root comes to an end (`Shelf.Sound`).

The rules below follow the functions of the source.  `Sane` is their invariant, and `Fine` is
what they know of the nodes in memory.
-/

namespace Toocal

open Outcomes Multiway Multiway.Tree

variable {cap : Capacity} {l l' : Item → Prop} {lev lev' : Nat → Nat → Prop} {r : Nat}
  {K : Freelist → Prop}

/-- A shelf with a journal. -/
abbrev Ledger (cap : Capacity) : Type := Journal (Shelf cap)

/-- From page `r` on stand nodes level by level, with items that meet `l`. -/
def Shelf.Sound (s : Shelf cap) (l : Item → Prop) (r : Nat) : Prop :=
  ∃ lev k, Levelled l lev s.lookup ∧ lev r k

/-- A node in memory of level `k`. -/
structure Fine (l : Item → Prop) (lev : Nat → Nat → Prop) (k : Nat) (n : Node) : Prop where
  page : lev n.pageNum k
  layered : Layered l lev k n.items n.children

/-- The pages are levelled now, and were sound from `r` on before each write. -/
structure Sane (cap : Capacity) (l : Item → Prop) (lev : Nat → Nat → Prop) (r : Nat)
    (K : Freelist → Prop) (d : Dal (Ledger cap)) : Prop where
  levelled : Levelled l lev d.file.now.lookup
  past : ∀ s ∈ d.file.past, s.Sound l r
  free : K d.freelist

/-- The root has a level, no page has two, and no node is on page 0. -/
structure Based (lev : Nat → Nat → Prop) (r : Nat) : Prop where
  root : ∃ k, lev r k
  single : ∀ {p j k}, lev p j → lev p k → j = k
  zero : ∀ k, ¬lev 0 k

/-- The store was sound before each write, and is now. -/
def Survives (l : Item → Prop) (r : Nat) (d : Dal (Ledger cap)) : Prop :=
  ∀ s ∈ d.file.now :: d.file.past, s.Sound l r

theorem Sane.survives {d : Dal (Ledger cap)} (h : Sane cap l lev r K d) (hb : Based lev r) :
    Survives l r d := by
  obtain ⟨k, hk⟩ := hb.root
  exact List.forall_mem_cons.mpr ⟨⟨lev, k, h.levelled, hk⟩, h.past⟩

theorem Sane.mono {d : Dal (Ledger cap)} (h : Sane cap l lev r K d) (hl : ∀ a, l a → l' a) :
    Sane cap l' lev r K d where
  levelled := h.levelled.mono hl
  past s hs := by
    obtain ⟨lev', k, hlev, hk⟩ := h.past s hs
    exact ⟨lev', k, hlev.mono hl, hk⟩
  free := h.free

theorem Fine.mono {k : Nat} {n : Node} (h : Fine l lev k n) (hl : ∀ a, l a → l' a)
    (hle : ∀ p j, lev p j → lev' p j) : Fine l' lev' k n :=
  ⟨hle _ _ h.page, h.layered.mono hl hle⟩

theorem Fine.zero_of_isLeaf {k : Nat} {n : Node} (h : Fine l lev k n) (hleaf : n.isLeaf = true) :
    k = 0 := by
  have hlinked := h.layered.linked
  rw [List.isEmpty_iff.mp hleaf] at hlinked
  exact hlinked.zero_of_nil

theorem Fine.child {k i p : Nat} {n : Node} (h : Fine l lev k n) (hp : n.children[i]? = some p) :
    ∃ j, k = j + 1 ∧ lev p j := h.layered.linked.child (List.mem_of_getElem? hp)

theorem Fine.set {k : Nat} {n : Node} {its : List Item} (h : Fine l lev k n)
    (hlen : its.length = n.items.length) (hits : ∀ a ∈ its, l a) :
    Fine l lev k { n with items := its } :=
  ⟨h.page, hits, hlen ▸ h.layered.linked⟩

theorem Based.grow {k p : Nat} (hb : Based lev r) (hne : p ≠ 0) (hp : ∀ j, lev p j → j = k) :
    Based (grow lev p k) r where
  root := hb.root.imp fun _ => .inl
  single hi hj := grow_single hp (fun _ _ _ => hb.single) hi hj
  zero j h := h.elim (hb.zero j) fun h => hne h.1.symm

/-- The levels of a run that began with `lev`, of which all are given to pages of `P`. -/
structure Extends (lev lev' : Nat → Nat → Prop) (r : Nat) (P : List Nat) : Prop where
  based : Based lev' r
  le : ∀ p j, lev p j → lev' p j
  held : ∀ p j, lev' p j → p ∈ P

/-! ## Reading and writing -/

namespace Dal

section Access

variable {P : Dal (Ledger cap) → Prop} {E : Dal (Ledger cap) → Prop}
  {k p : Nat} {n : Node}

theorem ensures_getNode (hP : ∀ d, P d → Levelled l lev d.file.now.lookup) (hp : lev p k) :
    Ensures P (getNode p) (fun n d => Fine l lev k n ∧ P d) E := by
  intro d hd
  obtain ⟨its, cs, hpage, hnode⟩ := (hP d hd).node hp
  have hplain : getNode p d.plain = .ok ⟨p, its, cs⟩ d.plain :=
    getNode_ok (d := d.plain) (c := (its, cs)) hpage
  have hrun := getNode_journal p d.plain d.file.past
  rw [d.journal_plain, hplain] at hrun
  rw [hrun]
  exact ⟨⟨hp, hnode⟩, hd⟩

/-- **A node is written**, and the store before is entered into the journal. -/
theorem ensures_writeNode (hb : Based lev r) (hne : n.pageNum ≠ 0)
    (hp : ∀ j, lev n.pageNum j → j = k) (hn : Layered l lev k n.items n.children) :
    Ensures (Sane cap l lev r K) (writeNode n)
      (fun m d => m = n ∧ Sane cap l (grow lev n.pageNum k) r K d) E := by
  intro d hd
  by_cases hfit : cap.Fits n
  · have hrun := writeNode_journal (writeNode_ok (d := d.plain) hne hfit) d.file.past
    rw [d.journal_plain] at hrun
    rw [hrun]
    obtain ⟨j, hj⟩ := hb.root
    refine ⟨rfl, hd.levelled.write hp hn ?_ fun q hq => ?_,
      List.forall_mem_cons.mpr ⟨⟨lev, j, hd.levelled, hj⟩, hd.past⟩, hd.free⟩
    · exact (Shelf.lookup_set d.file.now n hfit n.pageNum).trans (if_pos rfl)
    · exact (Shelf.lookup_set d.file.now n hfit q).trans (if_neg hq)
  · have hrun := writeNode_journal_stop (writeNode_outside (d := d.plain) hne hfit) d.file.past
    rw [d.journal_plain] at hrun
    rw [hrun]
    trivial

theorem ensures_rewrite (hb : Based lev r) (hn : Fine l lev k n) :
    Ensures (Sane cap l lev r K) (writeNode n) (fun m d => m = n ∧ Sane cap l lev r K d) E := by
  have hne : n.pageNum ≠ 0 := fun hzero => hb.zero k (hzero ▸ hn.page)
  have hp : ∀ j, lev n.pageNum j → j = k := fun j hj => hb.single hj hn.page
  have hwrite : Ensures (Sane cap l lev r K) (writeNode n)
      (fun m d => m = n ∧ Sane cap l (grow lev n.pageNum k) r K d) E :=
    ensures_writeNode hb hne hp hn.layered
  rwa [grow_of_lev hn.page] at hwrite

end Access

/-! ## Searching -/

section Search

variable {P : Dal (Ledger cap) → Prop} {E : Dal (Ledger cap) → Prop}
  {k : Nat} {n : Node}

/-- A search ends at a node of some level: at a leaf, or where the key is. -/
theorem ensures_findKeyHelper (hP : ∀ d, P d → Levelled l lev d.file.now.lookup) (key : Bytes)
    (exact : Bool) (fuel : Nat) (hn : Fine l lev k n) (path : List Nat) :
    Ensures P (findKeyHelper key exact fuel n path) (fun a d => (∀ i m, a.1 = some (i, m) →
      (∃ j, Fine l lev j m) ∧ (m.isLeaf = true ∨ ∃ item ∈ m.items, item.key = key)) ∧ P d) E := by
  induction fuel generalizing k n path with
  | zero => exact .halt _
  | succ fuel ih =>
    unfold findKeyHelper
    rcases hscan : findKeyInNode key n.items with ⟨found, index⟩
    cases found with
    | true =>
      refine .ret fun d hd => ⟨fun i m hm => ?_, hd⟩
      obtain ⟨-, rfl⟩ := Prod.mk.inj (Option.some.inj hm)
      obtain ⟨item, hitem, hkey⟩ := (scans_findKeyInNode key).hit hscan
      exact ⟨⟨k, hn⟩, .inr ⟨item, List.mem_of_getElem? hitem, hkey⟩⟩
    | false =>
      refine .ite (fun hleaf => .ite (fun _ => ?_) fun _ => ?_) fun _ => ?_
      · refine .ret fun d hd => ⟨fun i m hm => ?_, hd⟩
        cases hm
      · refine .ret fun d hd => ⟨fun i m hm => ?_, hd⟩
        obtain ⟨-, rfl⟩ := Prod.mk.inj (Option.some.inj hm)
        exact ⟨⟨k, hn⟩, .inl hleaf⟩
      · refine .element_bind fun child hchild => ?_
        obtain ⟨j, -, hj⟩ := hn.child hchild
        exact .bind (ensures_getNode hP hj) fun next => .of_and fun hnext => ih hnext _

theorem ensures_findKey (hP : ∀ d, P d → Levelled l lev d.file.now.lookup) (key : Bytes)
    (exact : Bool) (hn : Fine l lev k n) :
    Ensures P (findKey n key exact) (fun a d => (∀ i m, a.1 = some (i, m) →
      (∃ j, Fine l lev j m) ∧ (m.isLeaf = true ∨ ∃ item ∈ m.items, item.key = key)) ∧ P d) E :=
  .get_bind fun d _ => ensures_findKeyHelper hP key exact d.fuel hn [0]

theorem ensures_descendRightmost (hP : ∀ d, P d → Levelled l lev d.file.now.lookup) (fuel : Nat)
    (hn : Fine l lev k n) (path : List Nat) :
    Ensures P (descendRightmost fuel n path) (fun a d => Fine l lev 0 a.1 ∧ P d) E := by
  induction fuel generalizing k n path with
  | zero => exact .halt _
  | succ fuel ih =>
    unfold descendRightmost
    refine .ite (fun hleaf => .ret fun d hd => ⟨?_, hd⟩) fun _ => ?_
    · obtain rfl := hn.zero_of_isLeaf hleaf
      exact hn
    · refine .element_bind fun child hchild => ?_
      obtain ⟨j, -, hj⟩ := hn.child hchild
      exact .bind (.orPanic (ensures_getNode hP hj)) fun next => .of_and fun hnext => ih hnext _

end Search

/-! ## Removing an item -/

section Remove

variable {E : Dal (Ledger cap) → Prop} {k : Nat} {this : Node}

theorem ensures_removeItemFromLeaf (hb : Based lev r) (hn : Fine l lev 0 this) (index : Nat) :
    Ensures (Sane cap l lev r K) (removeItemFromLeaf this index)
      (fun _ => Sane cap l lev r K) E := by
  have hleft : Fine l lev 0 { this with items := this.items.eraseIdx index } :=
    ⟨hn.page, fun a ha => hn.layered.items a (List.mem_of_mem_eraseIdx ha), hn.layered.linked⟩
  exact .require_bind fun hi =>
    .orPanic ((ensures_rewrite hb hleft).post fun _ _ h => h.2)

theorem ensures_removeItemFromInternal (hb : Based lev r) (hn : Fine l lev k this) (index : Nat) :
    Ensures (Sane cap l lev r K) (removeItemFromInternal this index)
      (fun _ => Sane cap l lev r K) E := by
  refine .element_bind fun child hchild => ?_
  obtain ⟨j, rfl, hj⟩ := hn.child hchild
  refine .bind (ensures_getNode (fun d hd => hd.levelled) hj) fun node => .of_and fun hnode => ?_
  refine .get_bind fun d _ => .bind (ensures_descendRightmost (fun d hd => hd.levelled) _ hnode _)
    fun a => .of_and fun hleaf => ?_
  refine .demand_bind fun back hback => .require_bind fun hi => ?_
  have hitem : l back := hleaf.layered.items back (List.mem_of_getLast? hback)
  have hnode' : Fine l lev 0 { a.1 with items := a.1.items.dropLast } :=
    ⟨hleaf.page, fun b hb => hleaf.layered.items b ((List.dropLast_sublist _).subset hb),
      hleaf.layered.linked⟩
  refine .bind (ensures_rewrite hb hnode') fun m => .of_and fun _ => ?_
  have hthis : Fine l lev (j + 1) { this with items := this.items.set index back } :=
    hn.set List.length_set fun b hb => (List.mem_or_eq_of_mem_set hb).elim
      (hn.layered.items b) (· ▸ hitem)
  exact .bind (.attempt (R := fun _ => Sane cap l lev r K)
    ((ensures_rewrite hb hthis).post fun _ _ h => h.2)) fun _ => .ret fun _ h => h

end Remove

/-! ## Rebalancing -/

section Rotate

variable {k i : Nat} {anode pnode bnode anode' pnode' bnode' : Node}

theorem fine_rotateRight (ha : Fine l lev k anode) (hp : Fine l lev (k + 1) pnode)
    (hb : Fine l lev k bnode) (h : rotateRight anode pnode bnode i = some (anode', pnode', bnode')) :
    Fine l lev k anode' ∧ Fine l lev (k + 1) pnode' ∧ Fine l lev k bnode' := by
  simp only [rotateRight, Option.bind_eq_bind, Option.bind_eq_some_iff] at h
  obtain ⟨anodeItem, hanode, pnodeItem, hpnode, h⟩ := h
  cases h
  have hlast : l anodeItem := ha.layered.items _ (List.mem_of_getLast? hanode)
  have hmiddle : l pnodeItem := hp.layered.items _ (List.mem_of_getElem? hpnode)
  obtain ⟨its, hits⟩ := List.getLast?_eq_some_iff.mp hanode
  refine ⟨⟨ha.page, fun a hm => ?_, ?_⟩, ?_, ⟨hb.page, ?_, ?_⟩⟩
  · exact ha.layered.items a ((List.dropLast_sublist _).subset hm)
  · refine Linked.dropLast ?_
    have hlen : anode.items.dropLast.length + 1 = anode.items.length := by
      rw [hits, List.dropLast_concat, List.length_append, List.length_singleton]
    rw [hlen]
    exact ha.layered.linked
  · exact hp.set List.length_set fun a hm =>
      (List.mem_or_eq_of_mem_set hm).elim (hp.layered.items a) (· ▸ hlast)
  · exact List.forall_mem_cons.mpr ⟨hmiddle, hb.layered.items⟩
  · exact hb.layered.linked.cons_last ha.layered.linked

theorem fine_rotateLeft (ha : Fine l lev k anode) (hp : Fine l lev (k + 1) pnode)
    (hb : Fine l lev k bnode) (h : rotateLeft anode pnode bnode i = some (anode', pnode', bnode')) :
    Fine l lev k anode' ∧ Fine l lev (k + 1) pnode' ∧ Fine l lev k bnode' := by
  simp only [rotateLeft, Option.bind_eq_bind, Option.bind_eq_some_iff] at h
  obtain ⟨bnodeItem, hbnode, pnodeItem, hpnode, h⟩ := h
  cases h
  have hfirst : l bnodeItem := hb.layered.items _ (List.mem_of_mem_head? hbnode)
  have hmiddle : l pnodeItem := hp.layered.items _ (List.mem_of_getElem? hpnode)
  obtain ⟨its, hits⟩ := List.head?_eq_some_iff.mp hbnode
  refine ⟨⟨ha.page, ?_, ?_⟩, ?_, ⟨hb.page, fun a hm => ?_, ?_⟩⟩
  · exact List.forall_mem_append.mpr ⟨ha.layered.items, List.forall_mem_singleton.mpr hmiddle⟩
  · have hlinked := ha.layered.linked.snoc_first hb.layered.linked
    rwa [List.length_append]
  · exact hp.set List.length_set fun a hm =>
      (List.mem_or_eq_of_mem_set hm).elim (hp.layered.items a) (· ▸ hfirst)
  · exact hb.layered.items a (List.mem_of_mem_tail hm)
  · refine Linked.tail ?_
    have hlen : bnode.items.tail.length + 1 = bnode.items.length := by
      rw [hits, List.tail_cons, List.length_cons]
    rw [hlen]
    exact hb.layered.linked

end Rotate

section Rebalance

variable {E : Dal (Ledger cap) → Prop} {k index : Nat} {this pnode node : Node}

theorem ensures_merge (hb : Based lev r) (hp : Fine l lev (k + 1) this) (hn : Fine l lev k node)
    (hK : ∀ fl p, K fl → K (fl.releasePage p)) :
    Ensures (Sane cap l lev r K) (merge this node index) (fun _ => Sane cap l lev r K) E := by
  refine .element_bind fun child hchild => ?_
  obtain ⟨j, hj, hlev⟩ := hp.child hchild
  obtain rfl := Nat.succ.inj hj
  refine .bind (ensures_getNode (fun d hd => hd.levelled) hlev) fun left => .of_and fun hleft => ?_
  refine .element_bind fun item hitem => .require_bind fun hi => ?_
  have hin := (List.getElem?_eq_some_iff.mp hitem).1
  obtain ⟨n, hlen⟩ := Nat.exists_eq_add_of_le' (Nat.zero_lt_of_lt hin)
  -- the parent loses an item and a child
  have hthis : Fine l lev (k + 1) { this with
      items := this.items.eraseIdx (index - 1), children := this.children.eraseIdx index } := by
    refine ⟨hp.page, fun a ha => hp.layered.items a (List.mem_of_mem_eraseIdx ha), ?_⟩
    have hlinked := hp.layered.linked
    rw [hlen] at hlinked
    have := hlinked.eraseIdx hi
    rwa [List.length_eraseIdx_of_lt hin, hlen]
  -- and its left neighbour takes in what it is merged with
  have hmerged : Fine l lev k { left with
      items := left.items ++ [item] ++ node.items
      children := if left.isLeaf then left.children else left.children ++ node.children } := by
    refine ⟨hleft.page, ?_, ?_⟩
    · simp only [List.mem_append, List.mem_singleton]
      rintro a ((ha | rfl) | ha)
      · exact hleft.layered.items a ha
      · exact hp.layered.items a (List.mem_of_getElem? hitem)
      · exact hn.layered.items a ha
    · have hlinked := hleft.layered.linked.append hn.layered.linked
      have hsame : (if left.isLeaf then left.children else left.children ++ node.children) =
          left.children ++ node.children := by
        split
        next hleaf =>
          obtain rfl := hleft.zero_of_isLeaf hleaf
          have hnone : node.children = [] := hn.layered.linked
          rw [hnone, List.append_nil]
        next => rfl
      rw [hsame]
      simpa only [List.length_append, List.length_singleton] using hlinked
  refine .bind (ensures_rewrite hb hmerged) fun _ => .of_and fun _ => ?_
  refine .bind (ensures_rewrite hb hthis) fun _ => .of_and fun _ => ?_
  exact .modify fun d hd => ⟨hd.levelled, hd.past, hK _ _ hd.free⟩

/-- A sibling is read; an error would be dropped. -/
theorem ensures_sibling {child : Nat} (hlev : lev child k) :
    Ensures (Sane cap l lev r K) (Prog.attempt (getNode child))
      (fun a d => (∀ sibling, a = .ok sibling → Fine l lev k sibling) ∧ Sane cap l lev r K d) E := by
  refine .attempt ((ensures_getNode (fun d hd => hd.levelled) hlev).post fun n d h => ⟨?_, h.2⟩)
  intro sibling hsibling
  cases hsibling
  exact h.1

theorem ensures_rotated (hb : Based lev r) {n₁ n₂ n₃ : Node} {k₁ k₂ k₃ : Nat}
    (h₁ : Fine l lev k₁ n₁) (h₂ : Fine l lev k₂ n₂) (h₃ : Fine l lev k₃ n₃) :
    Ensures (Sane cap l lev r K) (Prog.attempt do
      let _ ← writeNode n₁
      let _ ← writeNode n₂
      writeNode n₃) (fun _ => Sane cap l lev r K) E := by
  refine .attempt (.bind (ensures_rewrite hb h₁) fun _ => .of_and fun _ => ?_)
  refine .bind (ensures_rewrite hb h₂) fun _ => .of_and fun _ => ?_
  exact (ensures_rewrite hb h₃).post fun _ _ h => h.2

theorem ensures_rightRotateBlock (hb : Based lev r) (hp : Fine l lev (k + 1) pnode)
    (hn : Fine l lev k node) : Ensures (Sane cap l lev r K)
      (rightRotateBlock pnode node index)
      (fun a d => (Fine l lev (k + 1) a.1 ∧ Fine l lev k a.2) ∧ Sane cap l lev r K d) E := by
  refine .ite (fun _ => .ret fun d hd => ⟨⟨hp, hn⟩, hd⟩) fun _ => ?_
  refine .get_bind fun d _ => .element_bind fun child hchild => ?_
  obtain ⟨j, hj, hlev⟩ := hp.child hchild
  obtain rfl := Nat.succ.inj hj
  refine .bind (ensures_sibling hlev) fun a => .of_and fun hleft => ?_
  cases a with
  | error e => exact .ret fun d hd => ⟨⟨hp, hn⟩, hd⟩
  | ok left =>
    refine .ite (fun _ => ?_) fun _ => .ret fun d hd => ⟨⟨hp, hn⟩, hd⟩
    refine .demand_bind fun rotated hrotated => ?_
    obtain ⟨left', pnode', node'⟩ := rotated
    obtain ⟨hleft', hp', hn'⟩ := fine_rotateRight (hleft left rfl) hp hn hrotated
    exact .bind (ensures_rotated hb hleft' hp' hn') fun _ => .ret fun d hd => ⟨⟨hp', hn'⟩, hd⟩

theorem ensures_leftBalanceBlock (hb : Based lev r) (hp : Fine l lev (k + 1) pnode)
    (hn : Fine l lev k node) : Ensures (Sane cap l lev r K)
      (leftBalanceBlock pnode node index)
      (fun a d => (Fine l lev (k + 1) a.1 ∧ Fine l lev k a.2) ∧ Sane cap l lev r K d) E := by
  refine .ite (fun _ => .ret fun d hd => ⟨⟨hp, hn⟩, hd⟩) fun _ => ?_
  refine .get_bind fun d _ => .element_bind fun child hchild => ?_
  obtain ⟨j, hj, hlev⟩ := hp.child hchild
  obtain rfl := Nat.succ.inj hj
  refine .bind (ensures_sibling hlev) fun a => .of_and fun hright => ?_
  cases a with
  | error e => exact .ret fun d hd => ⟨⟨hp, hn⟩, hd⟩
  | ok right =>
    refine .ite (fun _ => ?_) fun _ => .ret fun d hd => ⟨⟨hp, hn⟩, hd⟩
    refine .demand_bind fun rotated hrotated => ?_
    obtain ⟨node', pnode', right'⟩ := rotated
    obtain ⟨hn', hp', hright'⟩ := fine_rotateLeft hn hp (hright right rfl) hrotated
    exact .bind (ensures_rotated hb hn' hp' hright') fun _ => .ret fun d hd => ⟨⟨hp', hn'⟩, hd⟩

/-- **A repair keeps the pages levelled**, however many of its rotations and merges are made. -/
theorem ensures_rebalanceRemove (hb : Based lev r) (hp : Fine l lev (k + 1) this)
    (hn : Fine l lev k node) (hK : ∀ fl p, K fl → K (fl.releasePage p)) :
    Ensures (Sane cap l lev r K) (rebalanceRemove this node index)
      (fun _ => Sane cap l lev r K) E := by
  refine .bind (ensures_rightRotateBlock hb hp hn) fun a => .of_and fun ha => ?_
  refine .bind (ensures_leftBalanceBlock hb ha.1 ha.2) fun b => .of_and fun hb' => ?_
  refine .ite (fun _ => ?_) fun _ => ensures_merge hb hb'.1 hb'.2 hK
  refine .element_bind fun child hchild => ?_
  obtain ⟨j, hj, hlev⟩ := hp.child hchild
  obtain rfl := Nat.succ.inj hj
  refine .bind (ensures_getNode (fun d hd => hd.levelled) hlev) fun next => .of_and fun hnext => ?_
  exact ensures_merge hb hb'.1 hnext hK

end Rebalance

/-! ## Splitting -/

section Split

variable {E : Dal (Ledger cap) → Prop} {F : Set Nat} {P : List Nat} {k index : Nat}
  {this node : Node}

theorem ensures_newNode (its : List Item) (cs : List Nat) :
    Ensures (Sane cap l lev r (Layout · F P)) (newNode its cs)
      (fun n d => (n.pageNum ∉ P ∧ n.pageNum ≠ 0 ∧ n.items = its ∧ n.children = cs) ∧
        Sane cap l lev r (Layout · F (n.pageNum :: P)) d) E := by
  intro d hd
  have hnext := hd.free.nextPage
  refine ⟨⟨fun hmem => ?_, hnext.ne_zero List.mem_cons_self, rfl, rfl⟩,
    hd.levelled, hd.past, hnext⟩
  exact (List.nodup_cons.mp hnext.nodup).1 (List.mem_append_left _ hmem)

/-- **A split keeps the pages levelled**: the right half goes to a page that had no level. -/
theorem ensures_split {lev₀ : Nat → Nat → Prop} (hP : Extends lev₀ lev r P)
    (hmem : this.pageNum ∈ P) (hne : this.pageNum ≠ 0)
    (hlev : ∀ j, lev this.pageNum j → j = k + 1)
    (hp : Layered l lev (k + 1) this.items this.children) (hn : Fine l lev k node) :
    Ensures (Sane cap l lev r (Layout · F P)) (split this node index)
      (fun a d => ∃ lev' P', (Extends lev₀ lev' r P' ∧ Fine l lev' (k + 1) a.1) ∧
        Sane cap l lev' r (Layout · F P') d) E := by
  have hb := hP.based
  refine .get_bind fun d _ => .demand_bind fun s hs => .element_bind fun m hm => ?_
  refine .guard_bind fun _ => .bind (ensures_newNode _ _) fun new => .of_and fun hnew => ?_
  obtain ⟨hfresh, hzero, hitems, hchildren⟩ := hnew
  have hi := (getSplitIndex_lt hs).2
  have hnone : ∀ j, ¬lev new.pageNum j := fun j hj => hfresh (hP.held _ j hj)
  have hright : Layered l lev k new.items new.children := by
    rw [hitems, hchildren]
    refine ⟨fun a ha => hn.layered.items a (List.mem_of_mem_drop ha), ?_⟩
    rw [List.length_drop]
    exact hn.layered.linked.drop hi
  have hnew : ∀ j, lev new.pageNum j → j = k := fun j hj => absurd hj (hnone j)
  refine .bind (.orPanic (ensures_writeNode hb hzero hnew hright)) fun right => .of_and fun hr => ?_
  subst hr
  refine .require_bind fun hindex => .require_bind fun hindex' => ?_
  -- the parent has the item and the page of the right half
  set lev₁ := grow lev right.pageNum k with hlev₁
  have hle₁ : ∀ p j, lev p j → lev₁ p j := fun p j => .inl
  have hb₁ : Based lev₁ r := hb.grow hzero hnew
  have hparent : Layered l lev₁ (k + 1) (insertAt this.items index m)
      (insertAt this.children (index + 1) right.pageNum) := by
    refine ⟨fun a ha => ?_, ?_⟩
    · rcases mem_insertAt.mp ha with rfl | ha
      · exact hn.layered.items a (List.mem_of_getElem? hm)
      · exact hp.items a ha
    · rw [length_insertAt]
      exact (hp.linked.mono hle₁).insert (.inr ⟨rfl, rfl⟩) hindex'
  have hthis : ∀ j, lev₁ this.pageNum j → j = k + 1 := by
    rintro j (hj | ⟨hsame, -⟩)
    · exact hlev j hj
    · exact absurd hmem (hsame ▸ hfresh)
  refine .orPanic (.bind (ensures_writeNode hb₁ hne hthis hparent) fun parent => .of_and fun hr => ?_)
  subst hr
  set lev₂ := grow lev₁ this.pageNum (k + 1) with hlev₂
  have hle₂ : ∀ p j, lev p j → lev₂ p j := fun p j h => .inl (.inl h)
  have hb₂ : Based lev₂ r := hb₁.grow hne hthis
  have hleft : Fine l lev₂ k { node with
      items := node.items.take s, children := node.children.take (s + 1) } := by
    refine ⟨hle₂ _ _ hn.page, fun a ha => hn.layered.items a (List.mem_of_mem_take ha), ?_⟩
    have hlen : (node.items.take s).length = s := by
      rw [List.length_take]
      omega
    rw [hlen]
    exact (hn.layered.linked.take hi).mono hle₂
  refine .bind (ensures_rewrite hb₂ hleft) fun left => .of_and fun hr => ?_
  subst hr
  refine .ret fun d hd => ⟨lev₂, _, ⟨⟨hb₂, fun p j h => hle₂ p j (hP.le p j h), ?_⟩,
    ⟨.inr ⟨rfl, rfl⟩, hparent.mono (fun _ => id) fun _ _ => .inl⟩⟩, hd⟩
  rintro p j ((hj | ⟨rfl, -⟩) | ⟨rfl, -⟩)
  · exact List.mem_cons_of_mem _ (hP.held p j hj)
  · exact List.mem_cons_self
  · exact List.mem_cons_of_mem _ hmem

end Split

end Dal

/-! ## The calls -/

namespace Collection

section Calls

variable {E : Collection (Ledger cap) → Prop} {h k q : Nat} {ancestors : List Node}
  {ancestorsIndexes : List Nat}

/-- The root is page `q`, and the layer meets `P`. -/
def Rooted (q : Nat) (P : Dal (Ledger cap) → Prop) (c : Collection (Ledger cap)) :
    Prop := c.root = q ∧ P c.dal

theorem Rooted.of_and {α : Type} {p : Prop} {P : Dal (Ledger cap) → Prop}
    {Q : α → Collection (Ledger cap) → Prop}
    {x : Prog Error (Collection (Ledger cap)) α} (hx : p → Ensures (Rooted q P) x Q E) :
    Ensures (Rooted q fun d => p ∧ P d) x Q E := fun c hc => hx hc.2.1 c ⟨hc.1, hc.2.2⟩

theorem ensures_onDal {α : Type} {P : Dal (Ledger cap) → Prop}
    {Q : α → Dal (Ledger cap) → Prop} {x : Prog Error (Dal (Ledger cap)) α}
    (hx : Ensures P x Q fun _ => False) :
    Ensures (Rooted q P) (onDal x) (fun a => Rooted q (Q a)) E := by
  have hpart : ∀ (c : Collection (Ledger cap)) (d : Dal (Ledger cap)),
      Collection.dal { c with dal := d } = d := fun _ _ => rfl
  have hput : ∀ (c : Collection (Ledger cap)) (d : Dal (Ledger cap)),
      c.root = q → Collection.root { c with dal := d } = q := fun _ _ h => h
  exact (Ensures.zoom hpart hput hx).errors fun c hc => hc.2.elim

/-- The nodes of a path down from level `h`. -/
def OnPath (l : Item → Prop) (lev : Nat → Nat → Prop) (h : Nat) (ancestors : List Node) : Prop :=
  ∀ i n, ancestors[i]? = some n → ∃ j, j + i = h ∧ Fine l lev j n

theorem onPath_cons {n : Node} (hn : Fine l lev (h + 1) n) (hns : OnPath l lev h ancestors) :
    OnPath l lev (h + 1) (n :: ancestors) := by
  intro i m hm
  cases i with
  | zero =>
    obtain rfl := Option.some.inj hm
    exact ⟨h + 1, rfl, hn⟩
  | succ i =>
    obtain ⟨j, hj, hfine⟩ := hns i m hm
    exact ⟨j, by omega, hfine⟩

theorem onPath_singleton {n : Node} (hn : Fine l lev h n) : OnPath l lev h [n] := by
  intro i m hm
  cases i with
  | zero =>
    obtain rfl := Option.some.inj hm
    exact ⟨h, rfl, hn⟩
  | succ i => cases hm

theorem ensures_getNodesFrom {P : Dal (Ledger cap) → Prop}
    {E : Dal (Ledger cap) → Prop}
    (hP : ∀ d, P d → Levelled l lev d.file.now.lookup) {n : Node} (hn : Fine l lev k n)
    (indexes : List Nat) : Ensures P (getNodesFrom n indexes)
      (fun ns d => OnPath l lev k (n :: ns) ∧ P d) E := by
  induction indexes generalizing n k with
  | nil => exact .ret fun d hd => ⟨onPath_singleton hn, hd⟩
  | cons index indexes ih =>
    refine .element_bind fun page hpage => ?_
    obtain ⟨j, rfl, hj⟩ := hn.child hpage
    refine .bind (.orPanic (Dal.ensures_getNode hP hj)) fun next => .of_and fun hnext => ?_
    exact .bind (ih hnext) fun ns => .of_and fun hns => .ret fun d hd => ⟨onPath_cons hn hns, hd⟩

theorem ensures_getNodes (hlev : lev q h) (indexes : List Nat) :
    Ensures (Rooted q (Sane cap l lev r K)) (getNodes indexes)
      (fun ns => Rooted q fun d => OnPath l lev h ns ∧ Sane cap l lev r K d) E := by
  refine .get_bind fun c hc => ensures_onDal ?_
  rw [hc.1]
  refine .bind (Dal.ensures_getNode (fun d hd => hd.levelled) hlev) fun root => .of_and fun hroot => ?_
  refine .bind (ensures_getNodesFrom (fun d hd => hd.levelled) hroot _) fun ns => ?_
  exact .ret fun d hd => hd

/-! ### remove -/

theorem ensures_rebalanceRound (hb : Based lev r) (hpath : OnPath l lev h ancestors) (i : Nat) :
    Ensures (Sane cap l lev r fun _ => True)
      (rebalanceRound ancestors ancestorsIndexes i) (fun _ => Sane cap l lev r fun _ => True)
      (fun _ => False) := by
  refine .get_bind fun d _ => .element_bind fun pnode hpnode => .element_bind fun node hnode => ?_
  refine .ite (fun _ => .element_bind fun index _ => ?_) fun _ => .ret fun d hd => hd
  obtain ⟨j, hj, hp⟩ := hpath i pnode hpnode
  obtain ⟨k, hk, hn⟩ := hpath (i + 1) node hnode
  obtain rfl : j = k + 1 := by omega
  exact .orPanic (Dal.ensures_rebalanceRemove hb hp hn fun _ _ => id)

theorem ensures_removeItem (hb : Based lev r) (hlev : lev r h) (key : Bytes) :
    Ensures (Rooted r (Sane cap l lev r fun _ => True)) (removeItem key)
      (fun a => Rooted r fun d => OnPath l lev h a.1 ∧ Sane cap l lev r (fun _ => True) d)
      (fun c => Survives l r c.dal) := by
  refine .get_bind fun c hc => ?_
  rw [hc.1]
  refine .bind (ensures_onDal (Dal.ensures_getNode (fun d hd => hd.levelled) hlev))
    fun root => Rooted.of_and fun hroot => ?_
  refine .bind (ensures_onDal (Dal.ensures_findKey (fun d hd => hd.levelled) key true hroot))
    fun a => Rooted.of_and fun ha => ?_
  obtain ⟨result, indexes⟩ := a
  cases result with
  | none => exact .fail fun c hc => hc.2.survives hb
  | some found =>
    obtain ⟨index, node⟩ := found
    obtain ⟨⟨j, hnode⟩, -⟩ := ha index node rfl
    refine .bind (ensures_onDal (Q := fun _ => Sane cap l lev r fun _ => True) ?_) fun affected => ?_
    · refine .ite (fun hleaf => ?_) fun _ => ?_
      · obtain rfl := hnode.zero_of_isLeaf hleaf
        exact .bind (Dal.ensures_removeItemFromLeaf hb hnode index) fun _ => .ret fun d hd => hd
      · exact .orPanic (Dal.ensures_removeItemFromInternal hb hnode index)
    · exact .bind (ensures_getNodes hlev _) fun ns => .ret fun c hc => hc

theorem ensures_collapseRoot (hlev : lev r h) (hpath : OnPath l lev h ancestors) :
    Ensures (Rooted r (Sane cap l lev r K)) (collapseRoot ancestors)
      (fun _ c => ∃ q k, lev q k ∧ Rooted q (Sane cap l lev r K) c) E := by
  refine .element_bind fun root _ => .ite (fun _ => ?_) fun _ => ?_
  · refine .element_bind fun child hchild => .modify fun c hc => ?_
    obtain ⟨j, -, hfine⟩ := hpath 1 child hchild
    exact ⟨child.pageNum, j, hfine.page, rfl, hc.2⟩
  · exact .ret fun c hc => ⟨r, h, hlev, hc⟩

theorem ensures_find (hlev : lev q k) (key : Bytes) :
    Ensures (Rooted q (Sane cap l lev r K)) (find key)
      (fun _ => Rooted q (Sane cap l lev r K)) E := by
  refine .get_bind fun c hc => ?_
  rw [hc.1]
  refine .bind (ensures_onDal (Dal.ensures_getNode (fun d hd => hd.levelled) hlev))
    fun root => Rooted.of_and fun hroot => ?_
  refine .bind (ensures_onDal (Dal.ensures_findKey (fun d hd => hd.levelled) key true hroot))
    fun a => Rooted.of_and fun _ => ?_
  obtain ⟨result, indexes⟩ := a
  cases result with
  | none => exact .ret fun c hc => hc
  | some found => exact .element_bind fun item _ => .ret fun c hc => hc

/-- **Wherever a remove is cut off**, the store is sound. -/
theorem ensures_remove (hb : Based lev r) (hlev : lev r h) (key : Bytes) :
    Ensures (Rooted r (Sane cap l lev r fun _ => True)) (remove key)
      (fun _ c => Survives l r c.dal) (fun c => Survives l r c.dal) := by
  refine .bind (ensures_removeItem hb hlev key) fun a => Rooted.of_and fun hpath => ?_
  refine .bind (ensures_onDal (Q := fun _ => Sane cap l lev r fun _ => True)
    (.forEach (ensures_rebalanceRound hb hpath) _)) fun _ => ?_
  refine .bind (ensures_collapseRoot hlev hpath) fun _ => .of_exists fun q => .of_exists fun k =>
    .of_and fun hq => ?_
  exact .bind (ensures_find hq key) fun _ => .ret fun c hc => hc.2.survives hb

/-! ### put -/

section Put

variable {l₀ : Item → Prop} {lev₀ : Nat → Nat → Prop} {F : Set Nat} {item pastEnd : Item}

theorem fine_placeItem (pastEnd : Item) {n : Node} (hn : Fine l lev 0 n) (hitem : l item) (index : Nat) :
    Fine l lev 0 (placeItem pastEnd item n index) := by
  have hitems : ∀ a ∈ insertAt n.items index item, l a := fun a ha => by
    rcases mem_insertAt.mp ha with rfl | ha
    · exact hitem
    · exact hn.layered.items a ha
  rw [placeItem]
  split
  · exact ⟨hn.page, hitems, hn.layered.linked⟩
  · exact ⟨hn.page, hitems, hn.layered.linked⟩

theorem ensures_putItem (hb : Based lev r) (hlev : lev r h) (hold : ∀ a, l₀ a → l a)
    (hitem : l item) (habsent : ∀ a, l₀ a → a.key ≠ item.key) :
    Ensures (Rooted r (Sane cap l₀ lev r K)) (putItem pastEnd item)
      (fun a => Rooted r fun d => OnPath l lev h a.1 ∧ Sane cap l lev r K d) E := by
  refine .get_bind fun c hc => ?_
  rw [hc.1]
  refine .bind (ensures_onDal (.orPanic (Dal.ensures_getNode (fun d hd => hd.levelled) hlev)))
    fun root => Rooted.of_and fun hroot => ?_
  refine .bind (ensures_onDal (Dal.ensures_findKey (fun d hd => hd.levelled) item.key false hroot))
    fun a => Rooted.of_and fun ha => ?_
  obtain ⟨result, indexes⟩ := a
  cases result with
  | none => exact .halt _
  | some found =>
    obtain ⟨index, node⟩ := found
    obtain ⟨⟨j, hnode⟩, hend⟩ := ha index node rfl
    have hleaf : node.isLeaf = true := by
      refine hend.resolve_right fun hfound => ?_
      obtain ⟨a, hmem, hkey⟩ := hfound
      exact habsent a (hnode.layered.items a hmem) hkey
    obtain rfl := hnode.zero_of_isLeaf hleaf
    have hplaced := fine_placeItem pastEnd (hnode.mono hold fun _ _ => id) hitem index
    refine .pre (P := Rooted r (Sane cap l lev r K)) ?_ fun c hc => ⟨hc.1, hc.2.mono hold⟩
    refine .bind (ensures_onDal (.orPanic (Dal.ensures_rewrite hb hplaced)))
      fun _ => Rooted.of_and fun _ => ?_
    exact .bind (ensures_getNodes hlev _) fun ns => .ret fun c hc => hc

theorem ensures_splitRound (hpath : OnPath l lev₀ h ancestors) (i : Nat) :
    Ensures (fun d => ∃ lev P, Extends lev₀ lev r P ∧ Sane cap l lev r (Layout · F P) d)
      (splitRound ancestors ancestorsIndexes i)
      (fun _ d => ∃ lev P, Extends lev₀ lev r P ∧ Sane cap l lev r (Layout · F P) d)
      (fun _ => False) := by
  refine .of_exists fun lev => .of_exists fun P => .of_and fun hP => ?_
  refine .get_bind fun d _ => .element_bind fun previous hprevious => ?_
  refine .element_bind fun node hnode => .ite (fun _ => .element_bind fun index _ => ?_) fun _ => ?_
  · obtain ⟨j, hj, hp⟩ := hpath i previous hprevious
    obtain ⟨k, hk, hn⟩ := hpath (i + 1) node hnode
    obtain rfl : j = k + 1 := by omega
    have hp := hp.mono (fun _ => id) hP.le
    have hne : previous.pageNum ≠ 0 := fun hzero => hP.based.zero _ (hzero ▸ hp.page)
    refine .bind (Dal.ensures_split hP (hP.held _ _ hp.page) hne
      (fun j hj => hP.based.single hj hp.page) hp.layered (hn.mono (fun _ => id) hP.le)) fun a => ?_
    refine .ret fun d hd => ?_
    obtain ⟨lev', P', ⟨hP', -⟩, hsane⟩ := hd
    exact ⟨lev', P', hP', hsane⟩
  · exact .ret fun d hd => ⟨lev, P, hP, hd⟩

theorem ensures_splitRoot (hpath : OnPath l lev₀ h ancestors) :
    Ensures (Rooted r fun d => ∃ lev P, Extends lev₀ lev r P ∧
      Sane cap l lev r (Layout · F P) d) (splitRoot ancestors)
      (fun _ c => Survives l r c.dal) E := by
  refine .get_bind fun c _ => .element_bind fun root hroot => .ite (fun _ => ?_) fun _ => ?_
  · refine .bind (ensures_onDal (Q := fun _ d => Survives l r d) ?_)
      fun newRoot => .modify fun c hc => hc.2
    refine .of_exists fun lev => .of_exists fun P => .of_and fun hP => ?_
    obtain ⟨j, -, hn⟩ := hpath 0 root hroot
    have hn := hn.mono (fun _ => id) hP.le
    refine .bind (Dal.ensures_newNode _ _) fun new => .of_and fun hnew => ?_
    obtain ⟨hfresh, hne, hitems, hchildren⟩ := hnew
    have hP' : Extends lev₀ lev r (new.pageNum :: P) :=
      ⟨hP.based, hP.le, fun p j hj => List.mem_cons_of_mem _ (hP.held p j hj)⟩
    have hlayered : Layered l lev (j + 1) new.items new.children := by
      rw [hitems, hchildren]
      exact ⟨List.forall_mem_nil _, rfl, List.forall_mem_singleton.mpr hn.page⟩
    refine .bind (Dal.ensures_split hP' List.mem_cons_self hne
      (fun i hi => absurd (hP.held _ i hi) hfresh) hlayered hn) fun a => ?_
    refine .of_exists fun lev' => .of_exists fun P'' => .of_and fun h => ?_
    exact .orPanic ((Dal.ensures_rewrite h.1.based h.2).post fun _ d hd => hd.2.survives h.1.based)
  · refine .ret fun c hc => ?_
    obtain ⟨-, lev, P, hP, hsane⟩ := hc
    exact hsane.survives hP.based

/-- **Wherever a put is cut off**, the store is sound. -/
theorem ensures_put {key value : Bytes} (hne : r ≠ 0) (hb : Based lev r) (hlev : lev r h)
    {P : List Nat} (hheld : ∀ p j, lev p j → p ∈ P) (hold : ∀ a, l₀ a → l a)
    (hitem : l ⟨key, value⟩) (habsent : ∀ a, l₀ a → a.key ≠ key) :
    Ensures (Rooted r (Sane cap l₀ lev r (Layout · F P))) (put pastEnd key value)
      (fun _ c => Survives l r c.dal) E := by
  refine .get_bind fun c hc => ?_
  rw [hc.1, if_neg hne]
  refine .bind (ensures_putItem hb hlev hold hitem habsent) fun a => Rooted.of_and fun hpath => ?_
  refine .bind (ensures_onDal (Q := fun _ d => ∃ lev' P', Extends lev lev' r P' ∧
    Sane cap l lev' r (Layout · F P') d) (.pre (.forEach (ensures_splitRound hpath) _) ?_)) fun _ => ?_
  · exact fun d hd => ⟨lev, P, ⟨hb, fun _ _ => id, hheld⟩, hd⟩
  · exact ensures_splitRoot hpath

end Put

end Calls

end Collection

end Toocal
