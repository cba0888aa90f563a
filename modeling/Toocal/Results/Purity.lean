import Toocal.Tree.FilePaths
import Toocal.Tree.MetaRoot

/-!
# What a find leaves behind

`PureFind c`: whatever key is searched for, the search returns a result, changes neither
pages nor freelist nor root, and no later request can tell that it has been made.  A search
on a tree has this property (`pureFind_of_regular`).  A search before the first put has not:
it reads the meta page as a node, and the failed read of its child sets the fail bit of the
stream, so the put that comes next fails as well (`put_after_find`).
-/

namespace Toocal

open Outcomes Buffers Multiway Multiway.Tree Collection Pages4096

/-- What a user asks of a collection. -/
inductive Request where
  | call (op : Op)
  | find (key : Bytes)
  deriving DecidableEq

namespace Request

variable {φ : Type} [PageStore φ]

def run : Request → Prog Error (Collection φ) (Option Item)
  | .call op => do
    op.run
    Prog.ret none
  | .find key => Collection.find key

/-- The answers to requests made one after the other; none comes after a stop. -/
def answers : List Request → Collection φ → List (Except (Error ⊕ Stop) (Option Item))
  | [], _ => []
  | request :: requests, c =>
    (request.run c).answer :: ((request.run c).state?.elim [] (answers requests))

end Request

/-- **Finding is observationally pure** in a state. -/
def PureFind [System] (c : Collection File) : Prop :=
  ∀ key, ∃ item c', find key c = .ok item c' ∧ c'.dal.file.bytes = c.dal.file.bytes ∧
    c'.dal.freelist = c.dal.freelist ∧ c'.root = c.root ∧
    ∀ requests, Request.answers requests c' = Request.answers requests c

variable {o : Options} {d : Dal File} {c : Collection File} {name : Bytes}

theorem pureFind_of_regular [System] {t : PTree} (hr : c.dal.Reads t) (hroot : c.root = t.tag)
    (hregular : Regular t) : PureFind c := by
  intro key
  obtain ⟨x, -, -, hfind⟩ := Collection.find_of_regular key hr hroot hregular
  exact ⟨_, c, hfind, rfl, rfl, rfl, fun _ => rfl⟩

section Runs

variable [System] (hwidth : o.pageSize < 2 ^ 32) (hd : Dal.create o = .ok () d)
include hwidth hd

theorem find_start (key : Bytes) : find key ⟨d, name, 0⟩ = if o.pageSize % 2 ^ 24 = 0
    then .stop .diverged else .error .strerror ⟨d.failed, name, 0⟩ := by
  have hs : Session o d.file.bytes ⟨d, name, 0⟩ none := Session.start hwidth hd
  have hlen : d.file.bytes.length = 3 * o.pageSize := (Dal.of_create hwidth hd).2.1
  have hsmall : d.file.bytes.length ≤ 2 ^ 40 := by omega
  exact find_meta_eq rfl hs.options hs.sound (Dal.large_of_create hwidth hd)
    (hs.firstTwo hwidth hd).1 hsmall key

/-- **Once something has been put, and only then, finding is pure.** -/
theorem pureFind_iff (hrun : Runs (SafeAt (Capacity.page o.pageSize)) ⟨d, name, 0⟩ c) :
    PureFind c ↔ c.root ≠ 0 := by
  constructor
  · intro hpure hroot
    rcases eq_start_or_root hwidth hd hrun with rfl | hne
    · obtain ⟨item, c', hfind, -⟩ := hpure []
      rw [find_start hwidth hd] at hfind
      split at hfind
      · cases hfind
      · cases hfind
    · exact hne hroot
  · intro hroot
    obtain ⟨t, h⟩ := Session.of_run hwidth hd hrun
    cases t with
    | none => exact absurd h.serves.root hroot
    | some u =>
      obtain ⟨⟨k, hu⟩, -⟩ := wellFormed_some.mp h.wellFormed
      exact pureFind_of_regular (h.serves.reads u rfl).2 h.serves.root hu.regular

end Runs

theorem pureFind_iff_first_put : ∃ d c, Dal.create BuiltinOptions.balance = .ok () d ∧
    put ⟨[], []⟩ [7] [8] ⟨d, [], 0⟩ = .ok () c ∧ (PureFind c ↔ c.root ≠ 0) := by
  obtain ⟨d, c, t, hd, hrun, hput, -⟩ := exists_first_put BuiltinOptions.balance [7] [8]
    (by decide) (by decide) (by decide) (by decide)
  exact ⟨d, c, hd, hput, pureFind_iff (by decide) hd hrun⟩

/-- **Before the first put finding is not pure.** -/
theorem not_pureFind_start : ∃ d, Dal.create BuiltinOptions.balance = .ok () d ∧
    ¬PureFind ⟨d, [], 0⟩ := by
  obtain ⟨d, hd, -⟩ := Dal.create_ok (o := BuiltinOptions.balance) (by decide) (by decide)
  refine ⟨d, hd, fun hpure => ?_⟩
  obtain ⟨item, c', hfind, -⟩ := hpure [7]
  rw [find_start (by decide) hd] at hfind
  cases hfind

/-! ## The put after it -/

theorem save_failed [System] {n : Node} {f : File} (hf : f.failed = true)
    (hlarge : defaultPageSize ≤ o.pageSize) (hroom : PageRoom n.items n.children.length) :
    PageStore.save o n f = .error .strerror f := by
  obtain ⟨data, -, hser, -⟩ := NodeSerializer.serialize_ok defaultPageSize_le hroom
  obtain ⟨bytes, failed⟩ := f
  obtain rfl : failed = true := hf
  rw [Dal.save_large hlarge hser]
  exact File.writePage_error _ (Or.inl rfl)

section

variable [System] (hwidth : o.pageSize < 2 ^ 32) (hd : Dal.create o = .ok () d) {item : Item}
  (hk : item.key.length ≤ 255) (hv : item.value.length ≤ 255) (pastEnd : Item)
include hwidth hd hk hv

theorem put_start : ∃ c', put pastEnd item.key item.value ⟨d, name, 0⟩ = .ok () c' := by
  have hs : Session o d.file.bytes ⟨d, name, 0⟩ none := Session.start hwidth hd
  obtain ⟨c', t', hends, -⟩ := hs.step (safeAt_first pastEnd hwidth hd hk hv)
  exact ⟨c', hends⟩

theorem put_failed : ∃ c',
    put pastEnd item.key item.value ⟨d.failed, name, 0⟩ = .error .strerror c' := by
  have hm := (Dal.of_create hwidth hd).1
  have hoptions : d.options = o := hm.options
  have hfreelist : d.freelist = ⟨2, []⟩ := hm.freelist
  have hroom : PageRoom [item] ([] : List Nat).length := by
    refine ⟨Or.inl rfl, by simpa [Item.Short] using ⟨hk, hv⟩, ?_⟩
    have hpage := le_defaultPageSize
    simp [cellsSize, cell, headerSize, pageNumSize]
    omega
  set d₁ : Dal File := ⟨d.options, { d.file with failed := true }, d.metaPage, ⟨3, []⟩, d.written⟩
    with hd₁
  have hnew : Dal.newNode [item] [] d.failed = .ok ⟨3, [item], []⟩ d₁ :=
    Dal.newNode_next (d := d.failed) hfreelist _ _
  have hwrite : Dal.writeNode ⟨3, [item], []⟩ d₁ = .error .strerror d₁ := by
    have hsave : PageStore.save d₁.options ⟨3, [item], []⟩ d₁.file = .error .strerror d₁.file :=
      save_failed rfl (hoptions ▸ Dal.large_of_create hwidth hd) hroom
    exact Dal.writeNode_error_of_save hsave
  have hnode : (do
      let root ← Dal.newNode [item] []
      Dal.writeNode root) d.failed = .error .strerror d₁ := (Prog.bind_ok hnew).trans hwrite
  refine ⟨⟨d₁, name, 0⟩, ?_⟩
  rw [put, Prog.get_bind, if_pos rfl]
  exact Prog.bind_error (Prog.zoom_error hnode)

/-- **The put after a search on a new database fails**, where it would have returned a
result before. -/
theorem put_after_find (hpage : o.pageSize % 2 ^ 24 ≠ 0) (key : Bytes) :
    Request.answers [.call (.put item.key item.value pastEnd)] ⟨d, name, 0⟩ = [.ok none] ∧
    Request.answers [.find key, .call (.put item.key item.value pastEnd)] ⟨d, name, 0⟩ =
      [.error (.inl .strerror), .error (.inl .strerror)] := by
  obtain ⟨c₁, hput⟩ : ∃ c', put pastEnd item.key item.value ⟨d, name, 0⟩ = .ok () c' :=
    put_start hwidth hd hk hv pastEnd
  obtain ⟨c₂, hfail⟩ : ∃ c',
      put pastEnd item.key item.value ⟨d.failed, name, 0⟩ = .error .strerror c' :=
    put_failed hwidth hd hk hv pastEnd
  have hfind : find key ⟨d, name, 0⟩ = .error .strerror ⟨d.failed, name, 0⟩ := by
    rw [find_start hwidth hd key, if_neg hpage]
  have hcall : (Request.call (.put item.key item.value pastEnd)).run ⟨d, name, 0⟩ = .ok none c₁ :=
    Prog.bind_ok hput
  have hcall' : (Request.call (.put item.key item.value pastEnd)).run ⟨d.failed, name, 0⟩ =
      .error .strerror c₂ := Prog.bind_error hfail
  have hsearch : (Request.find key).run ⟨d, name, 0⟩ = .error .strerror ⟨d.failed, name, 0⟩ :=
    hfind
  constructor
  · rw [Request.answers, hcall]
    rfl
  · rw [Request.answers, hsearch, Outcome.state?_error, Option.elim_some, Request.answers, hcall']
    rfl

end

end Toocal
