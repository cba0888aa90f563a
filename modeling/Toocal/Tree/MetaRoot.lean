import Toocal.Tree.FileRuns

/-!
# The meta page as a root

A collection with root 0 has its root on the meta page.  Read as a node, the meta page of a
new database is an inner node without items whose child is page 2^40.  In a database of up
to 2^40 bytes this child is past the end, so every search fails (`find_meta`), and a failed
read leaves the stream in a state in which every later seek fails (`find_meta_eq`).
-/

namespace Toocal

open Outcomes Buffers Multiway Multiway.Tree Collection

variable {o : Options} {d : Dal File} {c : Collection File} {name : Bytes}

/-! ## The meta page as a node -/

theorem deserialize_firstMeta_node :
    NodeSerializer.deserialize (Dal.firstMeta o) = some ([], [2 ^ 40]) := by
  have hbytes : MetaSerializer.serialize ⟨0, 1⟩ = [0] ++ ([0, 0] ++
      ([0, 0, 0, 0, 0, 1, 0, 0] ++ [0, 0, 0, 0, 0])) := rfl
  have hall := Dal.has_filled o (MetaSerializer.serialize ⟨0, 1⟩)
  rw [hbytes] at hall
  obtain ⟨hflag, hrest⟩ := has_append.mp hall
  obtain ⟨hcount, hrest⟩ := has_append.mp hrest
  obtain ⟨hchild, -⟩ := has_append.mp hrest
  have h₀ := (has_cons.mp hflag).1
  have h₁ := hcount.read (hcount.le (by simp))
  have h₂ := hchild.read (hchild.le (by simp))
  simp only [List.length_cons, List.length_nil, Nat.zero_add, Nat.reduceAdd] at h₁ h₂
  have hcountZero : ofLE ([0, 0] : Bytes) = 0 := rfl
  have hchildPage : ofLE ([0, 0, 0, 0, 0, 1, 0, 0] : Bytes) = 2 ^ 40 := rfl
  simp only [NodeSerializer.deserialize, Dal.firstMeta, hbytes, h₀, h₁, hcountZero,
    NodeSerializer.readItems, headerSize, h₂, hchildPage, Option.bind_eq_bind, Option.bind_some]
  rfl

/-- The layer after a read has failed. -/
def Dal.failed (d : Dal File) : Dal File := { d with file := { d.file with failed := true } }

section FindMeta

variable [System] (hroot : c.root = 0) (hoptions : c.dal.options = o) (hsound : c.dal.file.failed = false)
  (hlarge : defaultPageSize ≤ o.pageSize)
  (hmeta : Has c.dal.file.bytes (0 * o.pageSize) (Dal.firstMeta o))
  (hsmall : c.dal.file.bytes.length ≤ 2 ^ 40)

include hoptions hsound hlarge hmeta in
/-- The root is read off the meta page. -/
theorem getNode_meta : Dal.getNode 0 c.dal = .ok ⟨0, [], [2 ^ 40]⟩ c.dal := by
  have hpos : 0 < o.pageSize := Nat.lt_of_lt_of_le defaultPageSize_pos hlarge
  subst hoptions
  have hread := File.readPage_ok hsound (by omega) hmeta (Dal.length_firstMeta hlarge) hpos
  exact Dal.getNode_ok_of_read hread deserialize_firstMeta_node

include hoptions hsound hlarge hmeta hsmall in
/-- Its child is past the end of the file, unless its offset runs over to 0. -/
theorem getNode_child : (if o.pageSize % 2 ^ 24 = 0
      then Dal.getNode (2 ^ 40) c.dal = .ok ⟨2 ^ 40, [], [2 ^ 40]⟩ c.dal
      else Dal.getNode (2 ^ 40) c.dal = .error .strerror c.dal.failed) := by
  have hpos : 0 < o.pageSize := Nat.lt_of_lt_of_le defaultPageSize_pos hlarge
  have hoffset : 2 ^ 40 * o.pageSize % 2 ^ 64 = 2 ^ 40 * (o.pageSize % 2 ^ 24) := by
    rw [show (2 : Nat) ^ 64 = 2 ^ 40 * 2 ^ 24 by decide, Nat.mul_mod_mul_left]
  split
  next h0 =>
    -- the offset is 0, and the child is the meta page again
    have hoff : File.offset o (2 ^ 40) = File.offset o 0 := by
      simp only [File.offset, hoffset, h0, Nat.mul_zero, Nat.zero_mul, Nat.zero_mod]
    have hread := File.readPage_ok hsound (by omega) hmeta (Dal.length_firstMeta hlarge) hpos
    have hread' : File.readPage o (2 ^ 40) c.dal.file = .ok (Dal.firstMeta o) c.dal.file := by
      rw [File.readPage, hoff]
      exact hread
    rw [← hoptions] at hread'
    exact Dal.getNode_ok_of_read hread' deserialize_firstMeta_node
  next h0 =>
    have hfail : (File.offset o (2 ^ 40)).bind
        (fun pos => read c.dal.file.bytes pos o.pageSize) = none := by
      rw [File.offset, hoffset]
      split
      · rw [Option.bind_some, Buffers.read, if_neg]
        have : 2 ^ 40 * 1 ≤ 2 ^ 40 * (o.pageSize % 2 ^ 24) :=
          Nat.mul_le_mul_left _ (Nat.pos_of_ne_zero h0)
        omega
      · rfl
    have hread : File.readPage o (2 ^ 40) c.dal.file =
        .error .strerror { c.dal.file with failed := true } := by
      rw [File.readPage, Prog.get_bind, hfail, hsound]
      rfl
    rw [← hoptions] at hread
    exact Dal.getNode_error_of_read hread

include hroot hoptions hsound hlarge hmeta hsmall in
theorem find_meta_eq (key : Bytes) : find key c = if o.pageSize % 2 ^ 24 = 0
    then .stop .diverged else .error .strerror { c with dal := c.dal.failed } := by
  have hnode := getNode_meta hoptions hsound hlarge hmeta
  have hchild := getNode_child hoptions hsound hlarge hmeta hsmall
  have hscan : findKeyInNode key [] = (false, 0) := rfl
  have hinner : ∀ p, ¬(⟨p, [], [2 ^ 40]⟩ : Node).isLeaf = true := fun _ => by simp [Node.isLeaf]
  have helement : ([2 ^ 40] : List Nat)[0]? = some (2 ^ 40) := rfl
  rw [find, Prog.get_bind, hroot, Prog.bind_ok (onDal_ok_self hnode)]
  split at hchild
  next h0 =>
    -- the descent comes to the meta page again and again
    have hdescent : ∀ (fuel p : Nat) (ancestorsIndexes : List Nat),
        Dal.findKeyHelper key true fuel ⟨p, [], [2 ^ 40]⟩ ancestorsIndexes c.dal =
          .stop .diverged := by
      intro fuel
      induction fuel with
      | zero => exact fun _ _ => rfl
      | succ fuel ih =>
        intro p ancestorsIndexes
        rw [Dal.findKeyHelper, hscan]
        dsimp only
        rw [if_neg (hinner p), Prog.element_bind helement, Prog.bind_ok hchild]
        exact ih _ _
    have hfind : onDal (Dal.findKey ⟨0, [], [2 ^ 40]⟩ key true) c = .stop .diverged :=
      Prog.zoom_stop ((Prog.get_bind _ c.dal).trans (hdescent _ _ _))
    rw [Prog.bind_stop hfind, if_pos h0]
  next h0 =>
    have hdescent : Dal.findKey ⟨0, [], [2 ^ 40]⟩ key true c.dal =
        .error .strerror c.dal.failed := by
      refine (Prog.get_bind _ c.dal).trans ?_
      rw [Dal.fuel, Dal.findKeyHelper, hscan]
      dsimp only
      rw [if_neg (hinner 0), Prog.element_bind helement]
      exact Prog.bind_error hchild
    have hfind : onDal (Dal.findKey ⟨0, [], [2 ^ 40]⟩ key true) c =
        .error .strerror { c with dal := c.dal.failed } := Prog.zoom_error hdescent
    rw [Prog.bind_error hfind, if_neg h0, hroot]

include hroot hoptions hsound hlarge hmeta hsmall in
/-- **No search from root 0 returns a result.** -/
theorem find_meta (key : Bytes) : (find key c).answer =
    .error (if o.pageSize % 2 ^ 24 = 0 then .inr .diverged else .inl .strerror) := by
  rw [find_meta_eq hroot hoptions hsound hlarge hmeta hsmall]
  split
  · rfl
  · rfl

end FindMeta

/-! ## The first two pages of a session -/

namespace Collection

section Session

variable {t : Option PTree}

theorem Session.sound [System] (h : Session o d.file.bytes c t) : c.dal.file.failed = false := by
  obtain ⟨e, hm, -⟩ := h
  exact hm.dal.sound

theorem Session.firstTwo [System] (h : Session o d.file.bytes c t) (hwidth : o.pageSize < 2 ^ 32)
    (hd : Dal.create o = .ok () d) :
    Has c.dal.file.bytes (0 * o.pageSize) (Dal.firstMeta o) ∧
      Has c.dal.file.bytes (1 * o.pageSize) (Dal.firstFreelist o) := by
  have hlarge := Dal.large_of_create hwidth hd
  obtain ⟨-, -, hmeta, hfreelist⟩ := Dal.of_create hwidth hd
  have hnot : ∀ {p : Nat}, p < 2 → p ∉ c.dal.written := h.notWritten
  obtain ⟨e, hm, -⟩ := h
  exact ⟨hm.dal.rest 0 (hnot (by omega)) _ (Dal.length_firstMeta hlarge) hmeta,
    hm.dal.rest 1 (hnot (by omega)) _ (Dal.length_filled (le_of_large (by decide) hlarge)) hfreelist⟩

/-- **After any session a database is reopened as if it were new.** -/
theorem Session.reopen [System] (h : Session o d.file.bytes c t) (hwidth : o.pageSize < 2 ^ 32)
    (hd : Dal.create o = .ok () d) :
    Dal.reopen o (Dal.close c.dal) = .ok () (Dal.reopened o c.dal.file.bytes) :=
  Dal.reopen_ok (Dal.large_of_create hwidth hd) hwidth (h.firstTwo hwidth hd).1
    (h.firstTwo hwidth hd).2

end Session

end Collection

end Toocal
