import Mathlib.Tactic.Common

/-!
# Labelled runs

`Trace step s ls t` is a run of a labelled step relation from `s` to `t` whose steps have
the labels `ls`, first to last.

`replay run P ls s` computes the state after the labels `ls`, each of which meets `P` in the
state it comes in.  What is computed in one system is a run of any other that simulates it
(`Trace.of_replay`).
-/

namespace Traces

variable {σ ℓ : Type}

inductive Trace (step : σ → ℓ → σ → Prop) (s : σ) : List ℓ → σ → Prop
  | nil : Trace step s [] s
  | snoc {ls : List ℓ} {l : ℓ} {t u : σ} :
      Trace step s ls t → step t l u → Trace step s (ls ++ [l]) u

variable {step : σ → ℓ → σ → Prop} {s t : σ} {ls : List ℓ}

theorem Trace.single {l : ℓ} (h : step s l t) : Trace step s [l] t := Trace.nil.snoc h

/-- What holds at the start and is kept by every step holds at the end; it may speak of
the labels so far. -/
theorem Trace.invariant {I : List ℓ → σ → Prop} (h : Trace step s ls t) (hstart : I [] s)
    (hstep : ∀ {ls l t u}, I ls t → step t l u → I (ls ++ [l]) u) : I ls t := by
  induction h with
  | nil => exact hstart
  | snoc _ hs ih => exact hstep ih hs

theorem Trace.cons {l : ℓ} {u : σ} (h : step s l t) (h' : Trace step t ls u) :
    Trace step s (l :: ls) u := by
  induction h' with
  | nil => exact .single h
  | snoc _ hs ih => exact ih.snoc hs

theorem Trace.mono {step' : σ → ℓ → σ → Prop} (h : Trace step s ls t)
    (hstep : ∀ {s l t}, l ∈ ls → step s l t → step' s l t) : Trace step' s ls t := by
  induction h with
  | nil => exact .nil
  | snoc _ hs ih =>
    refine (ih fun hl => hstep (List.mem_append_left _ hl)).snoc (hstep ?_ hs)
    exact List.mem_append_right _ (List.mem_singleton_self _)

/-! ## Replaying labels -/

/-- The state after the labels, each of which meets `P` in the state it comes in. -/
def replay (run : ℓ → σ → Option σ) (P : σ → ℓ → Prop) [∀ s l, Decidable (P s l)] :
    List ℓ → σ → Option σ
  | [], s => some s
  | l :: ls, s => if P s l then (run l s).bind (replay run P ls) else none

section Replay

variable {τ : Type} {R : σ → τ → Prop} {run : ℓ → τ → Option τ} {P : τ → ℓ → Prop}
  [∀ t l, Decidable (P t l)] {s : σ} {t t' : τ} {ls : List ℓ}

/-- **A replay is a run of whatever simulates it.** -/
theorem Trace.of_replay {step : σ → ℓ → σ → Prop} (hstep : ∀ {s t l t'}, R s t → P t l →
      run l t = some t' → ∃ s', step s l s' ∧ R s' t')
    (h : R s t) (ht : replay run P ls t = some t') : ∃ s', Trace step s ls s' ∧ R s' t' := by
  induction ls generalizing s t with
  | nil =>
    obtain rfl := Option.some.inj ht
    exact ⟨s, .nil, h⟩
  | cons l ls ih =>
    rw [replay] at ht
    split at ht
    next hp =>
      obtain ⟨t₁, hrun, hrest⟩ := Option.bind_eq_some_iff.mp ht
      obtain ⟨s₁, hs₁, h₁⟩ := hstep h hp hrun
      obtain ⟨s', htrace, h'⟩ := ih h₁ hrest
      exact ⟨s', .cons hs₁ htrace, h'⟩
    next => cases ht

theorem replay_of_replay {run' : ℓ → σ → Option σ} {P' : σ → ℓ → Prop}
    [∀ s l, Decidable (P' s l)] (hP : ∀ {s t l}, R s t → P t l → P' s l)
    (hrun : ∀ {s t l t'}, R s t → run l t = some t' → ∃ s', run' l s = some s' ∧ R s' t')
    (h : R s t) (ht : replay run P ls t = some t') :
    ∃ s', replay run' P' ls s = some s' ∧ R s' t' := by
  induction ls generalizing s t with
  | nil =>
    obtain rfl := Option.some.inj ht
    exact ⟨s, rfl, h⟩
  | cons l ls ih =>
    rw [replay] at ht ⊢
    split at ht
    next hp =>
      obtain ⟨t₁, hstep, hrest⟩ := Option.bind_eq_some_iff.mp ht
      obtain ⟨s₁, hs₁, h₁⟩ := hrun h hstep
      rw [if_pos (hP h hp), hs₁]
      exact ih h₁ hrest
    next => cases ht

end Replay

end Traces
