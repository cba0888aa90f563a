import Toocal.Library.Descents
import Toocal.Tree.FilePaths
import Toocal.Tree.MetaRoot

/-!
# Searches of any file

`find` on a file with any bytes, from any page.  The fuel of the descents does not show: what
ends on more fuel ends on theirs (`descents_on_any_file`), and a search diverges only where
the pages lead it on for ever.  `find_on_any_file` says how it ends.
-/

namespace Toocal

open Outcomes Buffers Descents Collection Pages4096

namespace Dal

variable {d : Dal File} {page : Nat} {node : Node}

/-- The node of a page, where it can be read. -/
def nodeAt [System] (d : Dal File) (page : Nat) : Option Node := (getNode page d).result?.map Prod.fst

theorem getNode_cases [System] (d : Dal File) (page : Nat) :
    (∃ node, d.nodeAt page = some node ∧ node.pageNum = page ∧ getNode page d = .ok node d) ∨
      d.nodeAt page = none ∧
        (getNode page d = .error .strerror d.failed ∨ getNode page d = .stop .undefined) := by
  rcases File.readPage_cases d.options page d.file with ⟨data, hread⟩ | hread
  · cases hdata : NodeSerializer.deserialize data with
    | none =>
      have hstop := getNode_stop_of_read hread hdata
      exact .inr ⟨by rw [nodeAt, hstop]; rfl, .inr hstop⟩
    | some content =>
      have hok := getNode_ok_of_read hread hdata
      exact .inl ⟨_, by rw [nodeAt, hok]; rfl, rfl, hok⟩
  · have herror := getNode_error_of_read hread
    exact .inr ⟨by rw [nodeAt, herror]; rfl, .inl herror⟩

theorem getNode_of_nodeAt [System] (h : d.nodeAt page = some node) :
    node.pageNum = page ∧ getNode page d = .ok node d := by
  rcases getNode_cases d page with ⟨node', hat, hnum, hok⟩ | ⟨hat, -⟩
  · rw [h] at hat
    obtain rfl := Option.some.inj hat
    exact ⟨hnum, hok⟩
  · rw [h] at hat
    cases hat

/-- Where the stream looks for a node. -/
def look (d : Dal File) (node : Node) : Nat := (File.offset d.options node.pageNum).getD 0

theorem look_lt [System] (h : d.nodeAt page = some node) : d.look node < d.file.bytes.length := by
  obtain ⟨rfl, hget⟩ := getNode_of_nodeAt h
  obtain ⟨-, pos, data, hpos, hread, hdata⟩ := getNode_eq_ok hget
  have hne : data ≠ [] := by
    rintro rfl
    cases hdata
  have hlen := length_of_read hread
  have hroom := (read_eq_some_iff.mp hread).1
  have := List.length_pos_iff.mpr hne
  rw [look, hpos, Option.getD_some]
  omega

theorem same_of_look [System] {page' : Nat} {node' : Node} (h : d.nodeAt page = some node)
    (h' : d.nodeAt page' = some node') (hsame : d.look node = d.look node') :
    node.items = node'.items ∧ node.children = node'.children := by
  obtain ⟨rfl, hget⟩ := getNode_of_nodeAt h
  obtain ⟨rfl, hget'⟩ := getNode_of_nodeAt h'
  obtain ⟨-, pos, data, hpos, hread, hdata⟩ := getNode_eq_ok hget
  obtain ⟨-, pos', data', hpos', hread', hdata'⟩ := getNode_eq_ok hget'
  rw [look, look, hpos, hpos', Option.getD_some, Option.getD_some] at hsame
  rw [hsame, hread'] at hread
  obtain rfl := Option.some.inj hread
  rw [hdata'] at hdata
  obtain ⟨hitems, hchildren⟩ := Prod.mk.inj (Option.some.inj hdata)
  exact ⟨hitems.symm, hchildren.symm⟩

/-! ## Descents over the pages -/

/-- One step of a descent: to the page that is picked. -/
def descend [System] (d : Dal File) (pick : List Item → List Nat → Option Nat) (node : Node) : Option Node :=
  (pick node.items node.children).bind d.nodeAt

theorem nodeAt_of_leads [System] {pick : List Item → List Nat → Option Nat} {node' : Node}
    (h : d.nodeAt page = some node) (hleads : Leads (d.descend pick) node node') :
    ∃ page', d.nodeAt page' = some node' :=
  hleads.invariant ⟨page, h⟩ fun hnext =>
    (Option.bind_eq_some_iff.mp hnext).imp fun _ h => h.2

/-- **A descent through as many pages as the file has bytes never ends.** -/
theorem endless_of_fuel [System] {pick : List Item → List Nat → Option Nat} (h : d.nodeAt page = some node)
    (hlong : (after (d.descend pick) d.fuel node).isSome) : Endless (d.descend pick) node := by
  refine endless_of_long d.look (fun {t u} ht hu hsame => ?_) (fun {t} ht => ?_)
    (isSome_after_of_le hlong (Nat.le_succ _))
  · obtain ⟨p, hp⟩ := nodeAt_of_leads h ht
    obtain ⟨q, hq⟩ := nodeAt_of_leads h hu
    obtain ⟨hitems, hchildren⟩ := same_of_look hp hq hsame
    rw [descend, descend, hitems, hchildren]
  · obtain ⟨p, hp⟩ := nodeAt_of_leads h ht
    exact look_lt hp

/-- The child that `find_key` goes on with. -/
def searchPick (key : Bytes) (items : List Item) (children : List Nat) : Option Nat :=
  if (findKeyInNode key items).1 then none else children[(findKeyInNode key items).2]?

/-- The child that `remove_item_from_internal` goes on with. -/
def rightmostPick (_ : List Item) (children : List Nat) : Option Nat := children[children.length - 1]?

/-! ### How they run -/

variable {key : Bytes} {exact : Bool}

theorem bind_getNode_of_none [System] (h : d.nodeAt page = none) (α : Type) :
    ∃ outcome : Outcome Error (Dal File) α, outcome ≠ .stop .diverged ∧
      ∀ f, (getNode page >>= f) d = outcome := by
  rcases getNode_cases d page with ⟨node, hat, -⟩ | ⟨-, herror | hstop⟩
  · rw [h] at hat
    cases hat
  · exact ⟨_, by simp, fun f => Prog.bind_error herror⟩
  · exact ⟨_, by simp, fun f => Prog.bind_stop hstop⟩

theorem orPanic_getNode_of_none [System] (h : d.nodeAt page = none) :
    ∃ why, why ≠ .diverged ∧ Prog.orPanic (getNode page) d = .stop why := by
  rcases getNode_cases d page with ⟨node, hat, -⟩ | ⟨-, herror | hstop⟩
  · rw [h] at hat
    cases hat
  · exact ⟨.terminated, by simp, by simp only [Prog.orPanic, herror]⟩
  · exact ⟨.undefined, by simp, Prog.orPanic_stop hstop⟩

theorem bind_getNode_of_nodeAt [System] {α : Type} {f : Node → Prog Error (Dal File) α}
    (h : d.nodeAt page = some node) : (getNode page >>= f) d = f node d :=
  Prog.bind_ok (getNode_of_nodeAt h).2

theorem bind_element_none {α β σ : Type} {l : List α} {i : Nat} {f : α → Prog Error σ β} {s : σ}
    (h : l[i]? = none) : (Prog.element l i >>= f) s = .stop .undefined :=
  Prog.bind_stop (by rw [Prog.element, h]; rfl)

theorem not_isLeaf_of_child {i : Nat} (h : node.children[i]? = some page) : ¬node.isLeaf = true := by
  intro hleaf
  rw [List.isEmpty_iff.mp hleaf] at h
  cases h

/-- `find_key_helper` descends from each node to the child it picks. -/
theorem follows_findKeyHelper [System] (d : Dal File) (key : Bytes) (exact : Bool) :
    Follows (d.descend (searchPick key)) (.stop .diverged)
      fun fuel node path => findKeyHelper key exact fuel node path d where
  zero _ _ := rfl
  step := by
    intro node next hnext path
    obtain ⟨page, hpage, hat⟩ := Option.bind_eq_some_iff.mp hnext
    rcases hscan : findKeyInNode key node.items with ⟨found, i⟩
    rw [searchPick, hscan] at hpage
    cases found with
    | true => cases hpage
    | false =>
      rw [if_neg Bool.false_ne_true] at hpage
      refine ⟨path ++ [i], fun fuel => ?_⟩
      rw [findKeyHelper, hscan]
      dsimp only
      rw [if_neg (not_isLeaf_of_child hpage), Prog.element_bind hpage]
      exact bind_getNode_of_nodeAt hat
  done := by
    intro node hnext fuel path
    rcases hscan : findKeyInNode key node.items with ⟨found, i⟩
    rw [findKeyHelper, findKeyHelper, hscan]
    rw [descend, searchPick, hscan] at hnext
    cases found with
    | true => exact ⟨rfl, by simp⟩
    | false =>
      dsimp only
      rw [if_neg Bool.false_ne_true] at hnext
      by_cases hleaf : node.isLeaf = true
      · rw [if_pos hleaf, if_pos hleaf]
        exact ⟨rfl, by cases exact <;> simp⟩
      · rw [if_neg hleaf, if_neg hleaf]
        cases hpage : node.children[i]? with
        | none =>
          rw [bind_element_none hpage, bind_element_none hpage]
          exact ⟨rfl, by simp⟩
        | some page =>
          rw [hpage] at hnext
          obtain ⟨outcome, hne, hall⟩ := bind_getNode_of_none hnext (Option (Nat × Node) × List Nat)
          rw [Prog.element_bind hpage, Prog.element_bind hpage, hall, hall]
          exact ⟨rfl, hne⟩

/-- The loop of `remove_item_from_internal` descends to the last child. -/
theorem follows_descendRightmost [System] (d : Dal File) :
    Follows (d.descend rightmostPick) (.stop .diverged)
      fun fuel node path => descendRightmost fuel node path d where
  zero _ _ := rfl
  step := by
    intro node next hnext path
    obtain ⟨page, hpage, hat⟩ := Option.bind_eq_some_iff.mp hnext
    refine ⟨path ++ [node.children.length - 1], fun fuel => ?_⟩
    rw [descendRightmost, if_neg (not_isLeaf_of_child hpage)]
    rw [Prog.element_bind hpage]
    exact Prog.bind_ok (Prog.orPanic_ok (getNode_of_nodeAt hat).2)
  done := by
    intro node hnext fuel path
    rw [descendRightmost, descendRightmost]
    by_cases hleaf : node.isLeaf = true
    · rw [if_pos hleaf, if_pos hleaf]
      exact ⟨rfl, by simp⟩
    · rw [if_neg hleaf, if_neg hleaf]
      cases hpage : node.children[node.children.length - 1]? with
      | none =>
        rw [bind_element_none hpage, bind_element_none hpage]
        exact ⟨rfl, by simp⟩
      | some page =>
        have hnone : d.nodeAt page = none := by rwa [descend, rightmostPick, hpage] at hnext
        obtain ⟨why, hne, hstop⟩ := orPanic_getNode_of_none hnone
        rw [Prog.element_bind hpage, Prog.element_bind hpage, Prog.bind_stop hstop,
          Prog.bind_stop hstop]
        exact ⟨rfl, fun h => hne (Outcome.stop.inj h)⟩

end Dal

/-! ## What the fuel is worth -/

open Dal

/-- **The fuel of the descents does not show**, whatever is in the file: on more fuel they end
in the same way. -/
theorem descents_on_any_file [System] {d : Dal File} {page : Nat} {node : Node}
    (h : d.nodeAt page = some node) {fuel : Nat} (hle : d.fuel ≤ fuel) :
    (∀ key exact path, findKeyHelper key exact fuel node path d =
      findKeyHelper key exact d.fuel node path d) ∧
    ∀ path, descendRightmost fuel node path d = descendRightmost d.fuel node path d :=
  ⟨fun key exact path => (follows_findKeyHelper d key exact).stable (endless_of_fuel h) hle path,
    fun path => (follows_descendRightmost d).stable (endless_of_fuel h) hle path⟩

/-- A file with one page, all zeros: an inner node that is its own child. -/
def zeroPage : Dal File := ⟨⟨11, 0, 0⟩, ⟨List.replicate 11 0, false⟩, ⟨0, 0⟩, ⟨0, []⟩, []⟩

theorem descents_on_zeroPage :
    (∀ key exact path, findKeyHelper key exact 100 ⟨0, [], [0]⟩ path zeroPage =
      findKeyHelper key exact 12 ⟨0, [], [0]⟩ path zeroPage) ∧
    ∀ path, descendRightmost 100 ⟨0, [], [0]⟩ path zeroPage =
      descendRightmost 12 ⟨0, [], [0]⟩ path zeroPage := by
  have hnode : zeroPage.nodeAt 0 = some ⟨0, [], [0]⟩ := by decide +kernel
  exact descents_on_any_file hnode (by decide)

/-! ## How a search ends -/

/-- What a search for the key says at the node it ends at. -/
def AnswersAt (key : Bytes) (node : Node) : Option Item → Prop
  | some item => (findKeyInNode key node.items).1 = true ∧
      node.items[(findKeyInNode key node.items).2]? = some item
  | none => (findKeyInNode key node.items).1 = false ∧ node.children = []

theorem descend_of_answersAt [System] {d : Dal File} {key : Bytes} {node : Node} {a : Option Item}
    (h : AnswersAt key node a) : d.descend (searchPick key) node = none := by
  cases a with
  | some item => rw [descend, searchPick, if_pos h.1]; rfl
  | none => rw [descend, searchPick, h.1, h.2]; rfl

theorem AnswersAt.unique {key : Bytes} {node : Node} {a b : Option Item} (h : AnswersAt key node a)
    (h' : AnswersAt key node b) : a = b := by
  cases a with
  | some item =>
    cases b with
    | some item' => exact h.2.symm.trans h'.2
    | none => cases h.1.symm.trans h'.1
  | none =>
    cases b with
    | some item' => cases h.1.symm.trans h'.1
    | none => rfl

theorem AnswersAt.key_eq {key : Bytes} {node : Node} {item : Item}
    (h : AnswersAt key node (some item)) : item.key = key := by
  obtain ⟨j, hj, -, -, hhit, -⟩ := findKeyInNodeFrom_spec (Prod.mk.eta (p := findKeyInNode key node.items)).symm
  obtain ⟨item', hitem', hkey⟩ := hhit h.1
  rw [Nat.zero_add] at hj
  rw [← hj, h.2] at hitem'
  exact Option.some.inj hitem' ▸ hkey

/-- A round of `find_key_helper` at a node that it does not go on from. -/
theorem findKeyHelper_end [System] {d : Dal File} {key : Bytes} {node : Node}
    (h : d.descend (searchPick key) node = none) :
    (∃ item, AnswersAt key node (some item) ∧ ∀ path, findKeyHelper key true 1 node path d =
      .ok (some ((findKeyInNode key node.items).2, node), path) d) ∨
    (AnswersAt key node none ∧ ∀ path, findKeyHelper key true 1 node path d = .ok (none, path) d) ∨
    ((∀ a, ¬AnswersAt key node a) ∧ ∀ path,
      findKeyHelper key true 1 node path d = .error .strerror d.failed ∨
        findKeyHelper key true 1 node path d = .stop .undefined) := by
  rcases hscan : findKeyInNode key node.items with ⟨found, i⟩
  rw [descend, searchPick, hscan] at h
  cases found with
  | true =>
    obtain ⟨j, rfl, -, -, hhit, -⟩ := findKeyInNodeFrom_spec hscan
    obtain ⟨item, hitem, -⟩ := hhit rfl
    rw [Nat.zero_add] at hscan
    refine .inl ⟨item, ⟨congrArg Prod.fst hscan, by rwa [hscan]⟩, fun path => ?_⟩
    rw [findKeyHelper, hscan, Nat.zero_add]
    rfl
  | false =>
    rw [if_neg Bool.false_ne_true] at h
    by_cases hleaf : node.isLeaf = true
    · refine .inr (.inl ⟨⟨congrArg Prod.fst hscan, List.isEmpty_iff.mp hleaf⟩, fun path => ?_⟩)
      rw [findKeyHelper, hscan]
      dsimp only
      rw [if_pos hleaf]
      rfl
    · refine .inr (.inr ⟨fun a hanswer => ?_, fun path => ?_⟩)
      · cases a with
        | some item => cases (congrArg Prod.fst hscan).symm.trans hanswer.1
        | none => exact hleaf (List.isEmpty_iff.mpr hanswer.2)
      rw [findKeyHelper, hscan]
      dsimp only
      rw [if_neg hleaf]
      cases hpage : node.children[i]? with
      | none => exact .inr (bind_element_none hpage)
      | some page =>
        rw [hpage, Option.bind_some] at h
        rw [Prog.element_bind hpage]
        rcases getNode_cases d page with ⟨node', hat, -⟩ | ⟨-, herror | hstop⟩
        · rw [h] at hat
          cases hat
        · exact .inl (Prog.bind_error herror)
        · exact .inr (Prog.bind_stop hstop)

namespace Collection

variable {c : Collection File} {key : Bytes} {first : Node}

theorem find_of_nodeAt [System] (key : Bytes) (h : c.dal.nodeAt c.root = some first) :
    (∀ last path i item,
      findKeyHelper key true c.dal.fuel first [0] c.dal = .ok (some (i, last), path) c.dal →
      last.items[i]? = some item → find key c = .ok (some item) c) ∧
    (∀ path, findKeyHelper key true c.dal.fuel first [0] c.dal = .ok (none, path) c.dal →
      find key c = .ok none c) ∧
    (∀ e d, findKeyHelper key true c.dal.fuel first [0] c.dal = .error e d →
      find key c = .error e { c with dal := d }) ∧
    (∀ why, findKeyHelper key true c.dal.fuel first [0] c.dal = .stop why →
      find key c = .stop why) := by
  have hget : onDal (getNode c.root) c = .ok first c := onDal_ok_self (getNode_of_nodeAt h).2
  have hsearch : ∀ {outcome}, findKeyHelper key true c.dal.fuel first [0] c.dal = outcome →
      findKey first key true c.dal = outcome := fun hrun => (Prog.get_bind _ c.dal).trans hrun
  refine ⟨fun last path i item hrun hr => ?_, fun path hrun => ?_, fun e d hrun => ?_, fun why hrun => ?_⟩
  · rw [find, Prog.get_bind, Prog.bind_ok hget, Prog.bind_ok (onDal_ok_self (hsearch hrun))]
    dsimp only
    rw [Prog.element_bind hr]
    rfl
  · rw [find, Prog.get_bind, Prog.bind_ok hget, Prog.bind_ok (onDal_ok_self (hsearch hrun))]
    rfl
  · rw [find, Prog.get_bind, Prog.bind_ok hget]
    exact Prog.bind_error (Prog.zoom_error (hsearch hrun))
  · rw [find, Prog.get_bind, Prog.bind_ok hget]
    exact Prog.bind_stop (Prog.zoom_stop (hsearch hrun))

theorem find_cases [System] (c : Collection File) (key : Bytes) :
    (c.dal.nodeAt c.root = none ∧
      (find key c = .error .strerror { c with dal := c.dal.failed } ∨ find key c = .stop .undefined)) ∨
    ∃ first, c.dal.nodeAt c.root = some first ∧
      ((Endless (c.dal.descend (searchPick key)) first ∧ find key c = .stop .diverged) ∨
      ∃ last, Leads (c.dal.descend (searchPick key)) first last ∧
        c.dal.descend (searchPick key) last = none ∧
        ((∃ a, AnswersAt key last a ∧ find key c = .ok a c) ∨ (∀ a, ¬AnswersAt key last a) ∧
          (find key c = .error .strerror { c with dal := c.dal.failed } ∨
            find key c = .stop .undefined))) := by
  rcases getNode_cases c.dal c.root with ⟨first, hat, -, -⟩ | ⟨hnone, hrun⟩
  · refine .inr ⟨first, hat, ?_⟩
    obtain ⟨hfound, hmissing, herror, hstop⟩ := find_of_nodeAt key hat
    have hfollows := follows_findKeyHelper c.dal key true
    cases hfuel : after (c.dal.descend (searchPick key)) c.dal.fuel first with
    | some t =>
      have hsome : (after (c.dal.descend (searchPick key)) c.dal.fuel first).isSome := by
        rw [hfuel]
        rfl
      exact .inl ⟨endless_of_fuel hat hsome, hstop _ (hfollows.eq_stuck_iff.mpr hsome)⟩
    | none =>
      obtain ⟨k, last, hk, hafter, hlast⟩ := Follows.exists_end hfuel
      obtain ⟨path, hpath⟩ := hfollows.of_after hafter hlast [0]
      have hrun := hpath _ hk
      refine .inr ⟨last, ⟨k, hafter⟩, hlast, ?_⟩
      rcases findKeyHelper_end hlast with ⟨item, hanswer, hend⟩ | ⟨hanswer, hend⟩ | ⟨hno, hend⟩
      · exact .inl ⟨_, hanswer, hfound _ _ _ _ (hrun.trans (hend path)) hanswer.2⟩
      · exact .inl ⟨_, hanswer, hmissing _ (hrun.trans (hend path))⟩
      · rcases hend path with h | h
        · exact .inr ⟨hno, .inl (herror _ _ (hrun.trans h))⟩
        · exact .inr ⟨hno, .inr (hstop _ (hrun.trans h))⟩
  · refine .inl ⟨hnone, ?_⟩
    rcases hrun with h | h
    · left
      rw [find, Prog.get_bind]
      exact Prog.bind_error (Prog.zoom_error h)
    · right
      rw [find, Prog.get_bind]
      exact Prog.bind_stop (Prog.zoom_stop h)

theorem find_ok_ends [System] {a : Option Item} {c' : Collection File} (h : find key c = .ok a c') :
    c' = c ∧ ∃ first last, c.dal.nodeAt c.root = some first ∧
      Leads (c.dal.descend (searchPick key)) first last ∧ AnswersAt key last a := by
  rcases find_cases c key with ⟨-, h' | h'⟩ | ⟨first, hat, ⟨-, h'⟩ | ⟨last, hleads, -, hlast⟩⟩
  · cases h.symm.trans h'
  · cases h.symm.trans h'
  · cases h.symm.trans h'
  · rcases hlast with ⟨b, hanswer, h'⟩ | ⟨-, h' | h'⟩
    · obtain ⟨rfl, rfl⟩ := Outcome.ok.inj (h.symm.trans h')
      exact ⟨rfl, first, last, hat, hleads, hanswer⟩
    · cases h.symm.trans h'
    · cases h.symm.trans h'

theorem find_of_leads [System] {last : Node} {a : Option Item} (hat : c.dal.nodeAt c.root = some first)
    (hleads : Leads (c.dal.descend (searchPick key)) first last) (hanswer : AnswersAt key last a) :
    find key c = .ok a c := by
  have hend := descend_of_answersAt (d := c.dal) hanswer
  rcases find_cases c key with ⟨hnone, -⟩ | ⟨first', hat', hcases⟩
  · cases hat.symm.trans hnone
  · obtain rfl := Option.some.inj (hat.symm.trans hat')
    rcases hcases with ⟨hendless, -⟩ | ⟨last', hleads', hend', hlast⟩
    · exact absurd hleads (hendless.not_leads hend)
    · obtain rfl := hleads.unique hleads' hend hend'
      rcases hlast with ⟨b, hanswer', h⟩ | ⟨hno, -⟩
      · rwa [hanswer.unique hanswer']
      · exact absurd hanswer (hno a)

end Collection

/-- **How a search of any file ends**: with what the first node says that it does not go on
from, with an error of the stream, or never, where the pages lead it on for ever.  It writes
nothing. -/
theorem find_on_any_file [System] (c : Collection File) (key : Bytes) :
    (∀ a c', find key c = .ok a c' ↔ c' = c ∧ ∃ first last, c.dal.nodeAt c.root = some first ∧
      Leads (c.dal.descend (searchPick key)) first last ∧ AnswersAt key last a) ∧
    (∀ item c', find key c = .ok (some item) c' → item.key = key) ∧
    (∀ e c', find key c = .error e c' → e = .strerror ∧ c' = { c with dal := c.dal.failed }) ∧
    (find key c = .stop .diverged ↔ ∃ chain : Nat → Node, c.dal.nodeAt c.root = some (chain 0) ∧
      ∀ n, c.dal.descend (searchPick key) (chain n) = some (chain (n + 1))) := by
  refine ⟨fun a c' => ⟨fun h => ?_, ?_⟩, fun item c' h => ?_, fun e c' h => ?_, ?_⟩
  · obtain ⟨hc, first, last, hat, hleads, hanswer⟩ := find_ok_ends h
    exact ⟨hc, first, last, hat, hleads, hanswer⟩
  · rintro ⟨rfl, first, last, hat, hleads, hanswer⟩
    exact find_of_leads hat hleads hanswer
  · obtain ⟨_, _, _, _, _, hanswer⟩ := find_ok_ends h
    exact hanswer.key_eq
  · rcases find_cases c key with ⟨-, h' | h'⟩ | ⟨first, -, ⟨-, h'⟩ | ⟨last, -, -, hlast⟩⟩
    · exact (Outcome.error.inj (h.symm.trans h'))
    · cases h.symm.trans h'
    · cases h.symm.trans h'
    · rcases hlast with ⟨b, -, h'⟩ | ⟨-, h' | h'⟩
      · cases h.symm.trans h'
      · exact Outcome.error.inj (h.symm.trans h')
      · cases h.symm.trans h'
  · constructor
    · intro h
      rcases find_cases c key with ⟨-, h' | h'⟩ | ⟨first, hat, ⟨hendless, -⟩ | ⟨last, -, -, hlast⟩⟩
      · cases h.symm.trans h'
      · cases h.symm.trans h'
      · obtain ⟨chain, rfl, hchain⟩ := endless_iff_chain.mp hendless
        exact ⟨chain, hat, hchain⟩
      · rcases hlast with ⟨b, -, h'⟩ | ⟨-, h' | h'⟩
        · cases h.symm.trans h'
        · cases h.symm.trans h'
        · cases h.symm.trans h'
    · rintro ⟨chain, hat, hchain⟩
      have hendless := endless_iff_chain.mpr ⟨chain, rfl, hchain⟩
      rcases find_cases c key with ⟨hnone, -⟩ | ⟨first, hat', ⟨-, h⟩ | ⟨last, hleads, hend, -⟩⟩
      · cases hat.symm.trans hnone
      · exact h
      · obtain rfl := Option.some.inj (hat.symm.trans hat')
        exact absurd hleads (hendless.not_leads hend)

end Toocal
