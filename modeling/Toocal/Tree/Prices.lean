import Toocal.Core.Collection
import Toocal.Library.Costs

/-!
# What the operations cost

`Priced T p`: by the graded relation `T` on layers, reading a node, taking a page number and
writing a node cost no more than the prices `p` say.  From the prices of these functions
follow those of all that are built of them: the cost of a call is bounded by the length of
the path it goes, whatever the pages hold.
-/

namespace Toocal

open Outcomes

/-- The price of each function of the layer. -/
structure Prices where
  read : Nat
  next : Nat
  write : Nat
  release : Nat

namespace Prices

/-- A split takes a page number and writes three nodes. -/
def split (p : Prices) : Nat := p.next + 3 * p.write

/-- A repair reads both siblings, once more the one on the right of the first child, and the
one it merges into. -/
def rebalance (p : Prices) : Nat := 4 * p.read + 8 * p.write + p.release

end Prices

variable {φ : Type} [PageStore φ]

/-- The functions of the layer cost no more than `p` says. -/
structure Priced (T : Nat → Dal φ → Dal φ → Prop) (p : Prices) : Prop where
  graded : Graded T
  getNode : ∀ page, Costs T (fun n _ => n ≤ p.read) (· ≤ p.read) (Dal.getNode page)
  getNextPage : Costs T (fun n _ => n ≤ p.next) (· ≤ p.next) Dal.getNextPage
  writeNode : ∀ node, Costs T (fun n _ => n ≤ p.write) (· ≤ p.write) (Dal.writeNode node)

/-- So does `delete_node`. -/
def Releases (T : Nat → Dal φ → Dal φ → Prop) (p : Prices) : Prop :=
  ∀ page, Costs T (fun n _ => n ≤ p.release) (· ≤ p.release) (Dal.deleteNode page)

namespace Priced

variable {T : Nat → Dal φ → Dal φ → Prop} {p : Prices} (hp : Priced T p)
include hp

section Layer

theorem newNode (items : List Item) (children : List Nat) :
    Costs T (fun n _ => n ≤ p.next) (· ≤ p.next) (Dal.newNode items children) := by
  refine .bind hp.graded (hp.getNextPage.mono (fun n page hn => ?_) fun _ => id)
  exact .ret hp.graded hn

theorem findKeyHelper (key : Bytes) (exact : Bool) (fuel : Nat) (node : Node) (path : List Nat) :
    Costs T (fun n a => ∃ k, a.2.length = path.length + k ∧ n ≤ p.read * k) (fun _ => True)
      (Dal.findKeyHelper key exact fuel node path) := by
  induction fuel generalizing node path with
  | zero => exact .halt _
  | succ fuel ih =>
    unfold Dal.findKeyHelper
    match findKeyInNode key node.items with
    | (true, index) => exact .ret hp.graded ⟨0, rfl, Nat.zero_le _⟩
    | (false, index) =>
      refine .ite (fun _ => .ite (fun _ => ?_) fun _ => ?_) fun _ => ?_
      · exact .ret hp.graded ⟨0, rfl, Nat.zero_le _⟩
      · exact .ret hp.graded ⟨0, rfl, Nat.zero_le _⟩
      · refine .bind hp.graded (.element hp.graded fun child _ => ?_)
        refine .bind hp.graded ((hp.getNode child).mono (fun n next hn => ?_) fun _ _ => trivial)
        refine (ih next _).mono ?_ fun _ _ => trivial
        rintro m a ⟨k, hk, hm⟩
        rw [List.length_append, List.length_singleton] at hk
        refine ⟨k + 1, by omega, ?_⟩
        rw [Nat.mul_succ]
        omega

theorem findKey (node : Node) (key : Bytes) (exact : Bool) :
    Costs T (fun n a => ∃ k, a.2.length = k + 1 ∧ n ≤ p.read * k) (fun _ => True)
      (Dal.findKey node key exact) :=
  .get_bind fun d => (hp.findKeyHelper key exact d.fuel node [0]).mono
    (fun _ _ ⟨k, hk, hn⟩ => ⟨k, by rw [hk, Nat.add_comm]; rfl, hn⟩) fun _ => id

theorem split (this node : Node) (index : Nat) :
    Costs T (fun n _ => n ≤ p.split) (fun _ => True) (Dal.split this node index) := by
  have hT := hp.graded
  refine .get_bind fun d => .bind hT (.demand hT fun s _ => .bind hT (.element hT fun m _ => ?_))
  refine .guard (.bind hT ((hp.newNode _ _).mono (fun a new ha => ?_) fun _ _ => trivial))
  refine .bind hT (.orPanic ((hp.writeNode _).mono (fun b right hb => ?_) fun _ => id))
  refine .bind hT (.require hT fun _ => .bind hT (.require hT fun _ => ?_))
  refine .orPanic (.bind hT ((hp.writeNode _).mono (fun c parent hc => ?_) fun _ _ => trivial))
  refine .bind hT ((hp.writeNode _).mono (fun e left he => .ret hT ?_) fun _ _ => trivial)
  rw [Prices.split]
  omega

theorem getNodesFrom (child : Node) (indexes : List Nat) :
    Costs T (fun n a => a.length = indexes.length ∧ n ≤ p.read * indexes.length) (fun _ => True)
      (Collection.getNodesFrom child indexes) := by
  have hT := hp.graded
  induction indexes generalizing child with
  | nil => exact .ret hT ⟨rfl, Nat.zero_le _⟩
  | cons index indexes ih =>
    refine .bind hT (.element hT fun page _ => ?_)
    refine .bind hT (.orPanic ((hp.getNode page).mono (fun n next hn => ?_) fun _ _ => trivial))
    refine .bind hT ((ih next).mono ?_ fun _ _ => trivial)
    rintro m nodes ⟨hlen, hm⟩
    refine .ret hT ⟨congrArg (· + 1) hlen, ?_⟩
    rw [List.length_cons, Nat.mul_succ]
    omega

theorem removeItemFromLeaf (this : Node) (index : Nat) :
    Costs T (fun n _ => n ≤ p.write) (fun _ => True) (Dal.removeItemFromLeaf this index) := by
  refine .bind hp.graded (.require hp.graded fun _ => ?_)
  exact .orPanic ((hp.writeNode _).mono (fun n _ hn => by omega) fun _ => id)

theorem descendRightmost (fuel : Nat) (node : Node) (path : List Nat) :
    Costs T (fun n a => ∃ k, a.2.length = path.length + k ∧ n ≤ p.read * k) (fun _ => True)
      (Dal.descendRightmost fuel node path) := by
  have hT := hp.graded
  induction fuel generalizing node path with
  | zero => exact .halt _
  | succ fuel ih =>
    unfold Dal.descendRightmost
    refine .ite (fun _ => .ret hT ⟨0, rfl, Nat.zero_le _⟩) fun _ => ?_
    refine .bind hT (.element hT fun child _ => ?_)
    refine .bind hT (.orPanic ((hp.getNode child).mono (fun n next hn => ?_) fun _ _ => trivial))
    refine (ih next _).mono ?_ fun _ _ => trivial
    rintro m a ⟨k, hk, hm⟩
    rw [List.length_append, List.length_singleton] at hk
    refine ⟨k + 1, by omega, ?_⟩
    rw [Nat.mul_succ]
    omega

theorem removeItemFromInternal (this : Node) (index : Nat) :
    Costs T (fun n a => n ≤ p.read * a.length + 2 * p.write) (fun _ => True)
      (Dal.removeItemFromInternal this index) := by
  have hT := hp.graded
  refine .bind hT (.element hT fun child _ => ?_)
  refine .bind hT ((hp.getNode child).mono (fun n node hn => ?_) fun _ _ => trivial)
  refine .get_bind fun d => .bind hT ((hp.descendRightmost _ _ _).mono ?_ fun _ _ => trivial)
  rintro m ⟨leaf, path⟩ ⟨k, hk, hm⟩
  refine .bind hT (.demand hT fun back _ => .bind hT (.require hT fun _ => ?_))
  refine .bind hT ((hp.writeNode _).mono (fun a _ ha => ?_) fun _ _ => trivial)
  refine .bind hT (.attempt ((hp.writeNode _).mono (fun b _ hb => ?_) fun b hb e => ?_))
  all_goals
    refine .ret hT ?_
    rw [show path.length = k + 1 from hk.trans (Nat.add_comm 1 k), Nat.mul_succ]
    omega

theorem writeThree (a b c : Node) :
    Costs T (fun n _ => n ≤ 3 * p.write) (· ≤ 3 * p.write) (do
      let _ ← Dal.writeNode a
      let _ ← Dal.writeNode b
      Dal.writeNode c) := by
  have hT := hp.graded
  refine .bind hT ((hp.writeNode a).mono (fun n _ hn => ?_) fun n hn => by omega)
  refine .bind hT ((hp.writeNode b).mono (fun m _ hm => ?_) fun m hm => by omega)
  exact (hp.writeNode c).mono (fun k _ hk => by omega) fun k hk => by omega

theorem rightRotateBlock (pnode node : Node) (index : Nat) :
    Costs T (fun n _ => n ≤ p.read + 3 * p.write) (fun _ => True)
      (Dal.rightRotateBlock pnode node index) := by
  have hT := hp.graded
  refine .ite (fun _ => .ret hT (Nat.zero_le _)) fun _ => .get_bind fun d => ?_
  refine .bind hT (.element hT fun child _ => ?_)
  refine .bind hT (.attempt ((hp.getNode child).mono (fun n left hn => ?_) fun n hn e => ?_))
  · refine .ite (fun _ => ?_) fun _ => .ret hT (by omega)
    refine .bind hT (.demand hT fun rotated _ => ?_)
    refine .bind hT (.attempt ((hp.writeThree _ _ _).mono (fun m _ hm => ?_) fun m hm e => ?_))
    all_goals exact .ret hT (by omega)
  · exact .ret hT (by omega)

theorem leftBalanceBlock (pnode node : Node) (index : Nat) :
    Costs T (fun n _ => n ≤ p.read + 3 * p.write) (fun _ => True)
      (Dal.leftBalanceBlock pnode node index) := by
  have hT := hp.graded
  refine .ite (fun _ => .ret hT (Nat.zero_le _)) fun _ => .get_bind fun d => ?_
  refine .bind hT (.element hT fun child _ => ?_)
  refine .bind hT (.attempt ((hp.getNode child).mono (fun n right hn => ?_) fun n hn e => ?_))
  · refine .ite (fun _ => ?_) fun _ => .ret hT (by omega)
    refine .bind hT (.demand hT fun rotated _ => ?_)
    refine .bind hT (.attempt ((hp.writeThree _ _ _).mono (fun m _ hm => ?_) fun m hm e => ?_))
    all_goals exact .ret hT (by omega)
  · exact .ret hT (by omega)

theorem splitRound (ancestors : List Node) (indexes : List Nat) (i : Nat) :
    Costs T (fun n _ => n ≤ p.split) (fun _ => True) (Collection.splitRound ancestors indexes i) := by
  have hT := hp.graded
  refine .get_bind fun d => .bind hT (.element hT fun previous _ => ?_)
  refine .bind hT (.element hT fun node _ => .ite (fun _ => ?_) fun _ => .ret hT (Nat.zero_le _))
  refine .bind hT (.element hT fun index _ => ?_)
  exact .bind hT ((hp.split _ _ _).mono (fun n _ hn => .ret hT (by omega)) fun _ => id)

variable (hr : Releases T p)
include hr

theorem merge (this bnode : Node) (index : Nat) :
    Costs T (fun n _ => n ≤ p.read + 2 * p.write + p.release) (fun _ => True)
      (Dal.merge this bnode index) := by
  have hT := hp.graded
  refine .bind hT (.element hT fun child _ => ?_)
  refine .bind hT ((hp.getNode child).mono (fun n node hn => ?_) fun _ _ => trivial)
  refine .bind hT (.element hT fun item _ => .bind hT (.require hT fun _ => ?_))
  refine .bind hT ((hp.writeNode _).mono (fun a _ ha => ?_) fun _ _ => trivial)
  refine .bind hT ((hp.writeNode _).mono (fun b _ hb => ?_) fun _ _ => trivial)
  exact (hr _).mono (fun c _ hc => by omega) fun _ _ => trivial

/-- **A repair**: the blocks of both rotations, and the merge that is always reached. -/
theorem rebalanceRemove (this node : Node) (index : Nat) :
    Costs T (fun n _ => n ≤ p.rebalance) (fun _ => True) (Dal.rebalanceRemove this node index) := by
  have hT := hp.graded
  refine .bind hT ((hp.rightRotateBlock _ _ _).mono (fun a _ ha => ?_) fun _ _ => trivial)
  refine .bind hT ((hp.leftBalanceBlock _ _ _).mono (fun b _ hb => ?_) fun _ _ => trivial)
  rw [Prices.rebalance]
  refine .ite (fun _ => .bind hT (.element hT fun child _ => ?_)) fun _ => ?_
  · refine .bind hT ((hp.getNode child).mono (fun c right hc => ?_) fun _ _ => trivial)
    exact (hp.merge hr _ _ _).mono (fun d _ hd => by omega) fun _ => id
  · exact (hp.merge hr _ _ _).mono (fun d _ hd => by omega) fun _ => id

theorem rebalanceRound (ancestors : List Node) (indexes : List Nat) (i : Nat) :
    Costs T (fun n _ => n ≤ p.rebalance) (fun _ => True)
      (Collection.rebalanceRound ancestors indexes i) := by
  have hT := hp.graded
  refine .get_bind fun d => .bind hT (.element hT fun pnode _ => ?_)
  refine .bind hT (.element hT fun node _ => .ite (fun _ => ?_) fun _ => .ret hT (Nat.zero_le _))
  exact .bind hT (.element hT fun index _ => .orPanic
    ((hp.rebalanceRemove hr _ _ _).mono (fun n _ hn => by omega) fun _ => id))

end Layer

end Priced

/-! ## Collections -/

/-- Costs on the layer of a collection. -/
def onLayer {φ : Type} (T : Nat → Dal φ → Dal φ → Prop) (n : Nat) (c c' : Collection φ) : Prop :=
  T n c.dal c'.dal

section OnLayer

variable {φ α : Type} {T : Nat → Dal φ → Dal φ → Prop} {Q : Nat → α → Prop} {E : Nat → Prop}

theorem graded_onLayer (hT : Graded T) : Graded (onLayer T) :=
  ⟨fun c => hT.zero c.dal, fun h h' => hT.add h h'⟩

theorem costs_onDal {x : Prog Error (Dal φ) α} (h : Costs T Q E x) :
    Costs (onLayer T) Q E (Collection.onDal x) := .zoom (fun h => h) h

theorem costs_setRoot (hT : Graded T) {R : Nat → Unit → Prop} (page : Nat) (hR : R 0 ()) :
    Costs (onLayer T) R E
      (Prog.modify fun c => { c with root := page } : Prog Error (Collection φ) Unit) :=
  .modify (fun c => hT.zero c.dal) hR

theorem length_rounds (ancestors : List Node) :
    (Collection.rounds ancestors).length = ancestors.length - 1 := by simp [Collection.rounds]

end OnLayer

namespace Priced

variable {T : Nat → Dal φ → Dal φ → Prop} {p : Prices} (hp : Priced T p)
include hp

theorem getNodes (indexes : List Nat) :
    Costs (onLayer T) (fun n a => a.length = indexes.tail.length + 1 ∧ n ≤ p.read * a.length)
      (fun _ => True) (Collection.getNodes indexes) := by
  have hT := hp.graded
  refine .get_bind fun c => costs_onDal ?_
  refine .bind hT ((hp.getNode _).mono (fun n root hn => ?_) fun _ _ => trivial)
  refine .bind hT ((hp.getNodesFrom root _).mono ?_ fun _ _ => trivial)
  rintro m nodes ⟨hlen, hm⟩
  refine .ret hT ⟨congrArg (· + 1) hlen, ?_⟩
  rw [List.length_cons, Nat.mul_succ, hlen]
  omega

/-- **The first half of `put`** goes along the path twice, and writes the node at its end. -/
theorem putItem (pastEnd item : Item) :
    Costs (onLayer T) (fun n a => n ≤ p.read * (2 * a.1.length) + p.write) (fun _ => True)
      (Collection.putItem pastEnd item) := by
  have hT := graded_onLayer hp.graded
  refine .get_bind fun c => ?_
  refine .bind hT (costs_onDal (.orPanic ((hp.getNode _).mono (fun a root ha => ?_) fun _ => id)))
  refine .bind hT (costs_onDal ((hp.findKey root item.key false).mono ?_ fun _ _ => trivial))
  rintro b ⟨result, path⟩ ⟨k, hk, hb⟩
  cases result with
  | none => exact .halt _
  | some r =>
    refine .bind hT (costs_onDal (.orPanic ((hp.writeNode _).mono (fun d _ hd => ?_) fun _ => id)))
    refine .bind hT ((hp.getNodes path).mono ?_ fun _ _ => trivial)
    rintro e nodes ⟨hlen, he⟩
    refine .ret hT ?_
    have hpath : nodes.length = k + 1 := by
      rw [hlen, List.length_tail, show path.length = k + 1 from hk]
      rfl
    rw [hpath, Nat.mul_succ] at he
    rw [hpath, Nat.two_mul, Nat.mul_add, Nat.mul_succ]
    omega

theorem splitRoot (ancestors : List Node) :
    Costs (onLayer T) (fun n _ => 0 < ancestors.length ∧ n ≤ p.next + p.split + p.write)
      (fun _ => True) (Collection.splitRoot ancestors) := by
  have hT := hp.graded
  have hT' := graded_onLayer hT
  refine .get_bind fun c => .bind hT' (.element hT' fun rootNode hroot => ?_)
  have hpos : 0 < ancestors.length := (List.getElem?_eq_some_iff.mp hroot).1
  refine .ite (fun _ => ?_) fun _ => .ret hT' ⟨hpos, Nat.zero_le _⟩
  refine .bind hT' (costs_onDal (.bind hT ((hp.newNode _ _).mono (fun a new ha => ?_)
    fun _ _ => trivial)))
  refine .bind hT ((hp.split _ _ _).mono (fun b nodes hb => ?_) fun _ => id)
  refine .orPanic ((hp.writeNode _).mono (fun d root hd => ?_) fun _ => id)
  exact costs_setRoot hT _ ⟨hpos, by omega⟩

/-- **The second half of `put`** splits at most once for each node of the path. -/
theorem splitUp (ancestors : List Node) (indexes : List Nat) :
    Costs (onLayer T) (fun n _ => n ≤ p.split * ancestors.length + p.next + p.write)
      (fun _ => True) (do
        Collection.onDal (Prog.forEach (Collection.splitRound ancestors indexes)
          (Collection.rounds ancestors))
        Collection.splitRoot ancestors) := by
  have hT := hp.graded
  refine .bind (graded_onLayer hT) ((costs_onDal (.forEach hT (hp.splitRound ancestors indexes)
    _)).mono (fun n _ hn => ?_) fun _ => id)
  refine (hp.splitRoot ancestors).mono ?_ fun _ => id
  rintro m _ ⟨hpos, hm⟩
  obtain ⟨k, hk⟩ : ∃ k, ancestors.length = k + 1 := ⟨ancestors.length - 1, by omega⟩
  rw [length_rounds, hk, Nat.add_sub_cancel] at hn
  rw [hk, Nat.mul_succ]
  omega

/-- The first `put` takes a page and writes it. -/
theorem putFirst (item : Item) :
    Costs (onLayer T) (fun n _ => n ≤ p.next + p.write) (fun _ => True) (do
        let root ← Collection.onDal do
          let root ← Dal.newNode [item] []
          Dal.writeNode root
        Prog.modify fun c => { c with root := root.pageNum }) := by
  have hT := hp.graded
  refine .bind (graded_onLayer hT) (costs_onDal (.bind hT ((hp.newNode _ _).mono
    (fun a new ha => ?_) fun _ _ => trivial)))
  refine (hp.writeNode new).mono (fun b root hb => ?_) fun _ _ => trivial
  exact costs_setRoot hT _ (by omega)

theorem put (pastEnd : Item) (key value : Bytes) :
    Costs (onLayer T) (fun _ _ => True) (fun _ => True) (Collection.put pastEnd key value) := by
  refine .get_bind fun c => .ite (fun _ => ?_) fun _ => ?_
  · exact (hp.putFirst _).mono (fun _ _ _ => trivial) fun _ => id
  · refine .bind (graded_onLayer hp.graded) ((hp.putItem _ _).mono (fun n a _ => ?_) fun _ => id)
    exact (hp.splitUp a.1 a.2).mono (fun _ _ _ => trivial) fun _ => id

/-- **The first half of `remove`** goes along the path twice, and writes the node that has
the key and the leaf that its item is replaced from. -/
theorem removeItem (key : Bytes) :
    Costs (onLayer T) (fun n a => n ≤ p.read * (2 * a.1.length) + 2 * p.write) (fun _ => True)
      (Collection.removeItem key) := by
  have hT := hp.graded
  have hT' := graded_onLayer hT
  refine .get_bind fun c => .bind hT' (costs_onDal ((hp.getNode _).mono (fun a root ha => ?_)
    fun _ _ => trivial))
  refine .bind hT' (costs_onDal ((hp.findKey root key true).mono ?_ fun _ _ => trivial))
  rintro b ⟨result, path⟩ ⟨k, hk, hb⟩
  cases result with
  | none => exact .fail hT' trivial
  | some r =>
    have hpath : path.length = k + 1 := hk
    have haffected : Costs T (fun n l => n ≤ p.read * l.length + 2 * p.write) (fun _ => True)
        (if r.2.isLeaf then do
          let _ ← Dal.removeItemFromLeaf r.2 r.1
          Prog.ret []
        else Prog.orPanic (Dal.removeItemFromInternal r.2 r.1)) := by
      refine .ite (fun _ => ?_) fun _ => .orPanic (hp.removeItemFromInternal r.2 r.1)
      exact .bind hT ((hp.removeItemFromLeaf r.2 r.1).mono (fun n _ hn => .ret hT (by
        simp only [List.length_nil, Nat.mul_zero]
        omega)) fun _ => id)
    refine .bind hT' ((costs_onDal haffected).mono (fun d affected hd => ?_) fun _ => id)
    refine .bind hT' ((hp.getNodes (path ++ affected)).mono ?_ fun _ _ => trivial)
    rintro e nodes ⟨hlen, he⟩
    refine .ret hT' ?_
    have hnodes : nodes.length = k + affected.length + 1 := by
      rw [hlen, List.length_tail, List.length_append, hpath]
      omega
    rw [hnodes, Nat.mul_succ, Nat.mul_add] at he
    rw [hnodes, Nat.two_mul, Nat.mul_add, Nat.mul_succ, Nat.mul_add]
    omega

/-- **The second half of `remove`** repairs at most every node of the path but the root. -/
theorem rebalanceUp (hr : Releases T p) (ancestors : List Node) (indexes : List Nat) :
    Costs (onLayer T) (fun n _ => n ≤ p.rebalance * (ancestors.length - 1)) (fun _ => True) (do
        Collection.onDal (Prog.forEach (Collection.rebalanceRound ancestors indexes)
          (Collection.rounds ancestors))
        Collection.collapseRoot ancestors) := by
  have hT := hp.graded
  have hT' := graded_onLayer hT
  refine .bind hT' ((costs_onDal (.forEach hT (hp.rebalanceRound hr ancestors indexes)
    _)).mono (fun n _ hn => ?_) fun _ => id)
  rw [length_rounds] at hn
  refine .bind hT' (.element hT' fun root _ => .ite (fun _ => ?_) fun _ => .ret hT' (by omega))
  exact .bind hT' (.element hT' fun child _ => costs_setRoot hT _ (by omega))

end Priced

end Toocal
