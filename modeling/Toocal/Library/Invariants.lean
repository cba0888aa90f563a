import Toocal.Library.Outcome

/-!
# Invariants of programs

`Maintains P Q x`: from a state with `P` the program leaves one with `P` behind, whether it
ends with a result or with an error, and a result is one of `Q`.  The rules follow the
program constructors.
-/

namespace Outcomes

variable {ε σ τ α β : Type}

/-- The outcome leaves a state with `P`, and a result is one of `Q`. -/
def Outcome.Within (P : σ → Prop) (Q : α → Prop) : Outcome ε σ α → Prop
  | .ok a s => P s ∧ Q a
  | .error _ s => P s
  | .stop _ => True

/-- The program keeps `P`, and its results are of `Q`. -/
def Maintains (P : σ → Prop) (Q : α → Prop) (x : Prog ε σ α) : Prop :=
  ∀ ⦃s⦄, P s → (x s).Within P Q

namespace Maintains

variable {P : σ → Prop} {Q : α → Prop} {Q' : β → Prop}

theorem result {x : Prog ε σ α} (h : Maintains P Q x) {s s' : σ} {a : α} (hs : P s)
    (hx : x s = .ok a s') : P s' ∧ Q a := by
  have hw := h hs
  rw [hx] at hw
  exact hw

theorem ret {a : α} (h : Q a) : Maintains (ε := ε) P Q (Prog.ret a) := fun _ hs => ⟨hs, h⟩

theorem halt (c : Stop) : Maintains (ε := ε) P Q (Prog.halt c) := fun _ _ => trivial

theorem bind {x : Prog ε σ α} {f : α → Prog ε σ β} (hx : Maintains P Q x)
    (hf : ∀ a, Q a → Maintains P Q' (f a)) : Maintains P Q' (x >>= f) := by
  intro s hs
  have hw := hx hs
  cases hrun : x s with
  | ok a t =>
    rw [hrun] at hw
    rw [Prog.bind_ok hrun]
    exact hf a hw.2 hw.1
  | error e t =>
    rw [hrun] at hw
    rw [Prog.bind_error hrun]
    exact hw
  | stop c =>
    rw [Prog.bind_stop hrun]
    trivial

theorem demand (o : Option α) : Maintains (ε := ε) P (fun a => o = some a) (Prog.demand o) := by
  cases o with
  | none => exact halt _
  | some a => exact ret rfl

theorem element (l : List α) (i : Nat) :
    Maintains (ε := ε) P (fun a => l[i]? = some a) (Prog.element l i) := demand _

theorem ite {b : Prop} [Decidable b] {x y : Prog ε σ α} (hx : b → Maintains P Q x)
    (hy : ¬b → Maintains P Q y) : Maintains P Q (if b then x else y) := by
  split
  · exact hx ‹b›
  · exact hy ‹¬b›

theorem get_bind {f : σ → Prog ε σ α} (h : ∀ s, P s → Maintains P Q (f s)) :
    Maintains P Q (Prog.get >>= f) := by
  intro s hs
  rw [Prog.get_bind]
  exact h s hs hs

theorem zoom {part : σ → τ} {put : τ → σ → σ} {x : Prog ε τ α} (hput : ∀ s, put (part s) s = s)
    (hx : ∀ s, P s → Maintains (fun t => P (put t s)) Q x) :
    Maintains P Q (Prog.zoom part put x) := by
  intro s hs
  have hpart : P (put (part s) s) := by rw [hput]; exact hs
  have hw := hx s hs hpart
  rw [Prog.zoom]
  cases hrun : x (part s) with
  | ok a t => rw [hrun] at hw; exact hw
  | error e t => rw [hrun] at hw; exact hw
  | stop c => trivial

end Maintains

end Outcomes
