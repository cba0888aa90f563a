import Mathlib.Logic.Function.Basic
import Toocal.Library.Traces

/-!
# Dictionaries

A dictionary gives some keys a value.  It serves requests: it looks a key up, puts a value
under a key, or takes a key out.  `served` are the replies of a family of dictionaries to a
list of requests, each of them addressed to one member.

`replies_of_simulation`: an implementation that simulates the family step by step replies
as the family does, in every run.
-/

namespace Dictionaries

open Traces

inductive Query (κ ν : Type) where
  | find (key : κ)
  | put (key : κ) (value : ν)
  | remove (key : κ)
  deriving DecidableEq, Repr

inductive Reply (ν : Type) where
  | found (value : Option ν)
  | done
  | missing
  deriving DecidableEq, Repr

variable {ι κ ν : Type}

/-- The reply to a request. -/
def reply (m : κ → Option ν) : Query κ ν → Reply ν
  | .find key => .found (m key)
  | .put _ _ => .done
  | .remove key => if m key = none then .missing else .done

theorem reply_remove_absent {m : κ → Option ν} {key : κ} (h : m key = none) :
    reply m (.remove key) = .missing := if_pos h

theorem reply_remove_present {m : κ → Option ν} {key : κ} (h : m key ≠ none) :
    reply m (.remove key) = .done := if_neg h

variable [DecidableEq κ]

/-- The dictionary after a request. -/
def next (m : κ → Option ν) : Query κ ν → κ → Option ν
  | .find _ => m
  | .put key value => Function.update m key (some value)
  | .remove key => Function.update m key none

theorem next_remove_absent {m : κ → Option ν} {key : κ} (h : m key = none) :
    next m (.remove key) = m := by
  rw [next, ← h, Function.update_eq_self]

variable [DecidableEq ι]

/-- The family after a request to one of its members. -/
def nextAt (m : ι → κ → Option ν) (call : ι × Query κ ν) : ι → κ → Option ν :=
  Function.update m call.1 (next (m call.1) call.2)

/-- The replies of the family to a list of requests. -/
def served (m : ι → κ → Option ν) : List (ι × Query κ ν) → List (Reply ν)
  | [] => []
  | call :: calls => reply (m call.1) call.2 :: served (nextAt m call) calls

theorem served_snoc (m : ι → κ → Option ν) (calls : List (ι × Query κ ν))
    (call : ι × Query κ ν) : served m (calls ++ [call]) =
      served m calls ++ [reply (calls.foldl nextAt m call.1) call.2] := by
  induction calls generalizing m with
  | nil => rfl
  | cons c calls ih => rw [List.cons_append, served, served, ih, List.cons_append]; rfl

/-- **Forward simulation.**  If `R` relates the states of an implementation to families, and
each of its steps replies as a related family does and leads to a related family, then so
does each of its runs. -/
theorem replies_of_simulation {σ : Type} {step : σ → (ι × Query κ ν) × Reply ν → σ → Prop}
    {R : σ → (ι → κ → Option ν) → Prop} {m : ι → κ → Option ν} {s t : σ}
    {labels : List ((ι × Query κ ν) × Reply ν)}
    (hstep : ∀ {s m call answer t}, R s m → step s (call, answer) t →
      answer = reply (m call.1) call.2 ∧ R t (nextAt m call))
    (hs : R s m) (h : Trace step s labels t) :
    labels.map Prod.snd = served m (labels.map Prod.fst) ∧
      R t ((labels.map Prod.fst).foldl nextAt m) := by
  refine h.invariant (I := fun labels t => labels.map Prod.snd = served m (labels.map Prod.fst) ∧
    R t ((labels.map Prod.fst).foldl nextAt m)) ⟨rfl, hs⟩ ?_
  rintro labels ⟨call, answer⟩ t u ⟨hreplies, hR⟩ hlast
  obtain ⟨rfl, hR'⟩ := hstep hR hlast
  simp only [List.map_append, List.map_cons, List.map_nil, List.foldl_append, List.foldl_cons,
    List.foldl_nil, served_snoc, hreplies]
  exact ⟨trivial, hR'⟩

end Dictionaries
