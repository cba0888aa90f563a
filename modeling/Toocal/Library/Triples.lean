import Toocal.Library.Outcome

/-!
# Preconditions and postconditions

`Ensures P x Q E`: from a state that meets `P` the program `x` ends with a result that meets
`Q` together with the state it leaves, or with an error in a state that meets `E`.  Of a run
that stops it says nothing.

There is a rule for each program constructor.  A fact that does not speak of the state is
taken out of a precondition by `of_and` and `of_exists`, and the rules for the checks hand on
what they have checked.
-/

namespace Outcomes

variable {ε σ τ α β ι : Type}

def Outcome.Meets (Q : α → σ → Prop) (E : σ → Prop) : Outcome ε σ α → Prop
  | .ok a t => Q a t
  | .error _ t => E t
  | .stop _ => True

def Ensures (P : σ → Prop) (x : Prog ε σ α) (Q : α → σ → Prop) (E : σ → Prop) : Prop :=
  ∀ s, P s → (x s).Meets Q E

namespace Ensures

variable {P P' : σ → Prop} {Q Q' : α → σ → Prop} {R : β → σ → Prop} {E : σ → Prop}

theorem state? {x : Prog ε σ α} (h : Ensures P x (fun _ => E) E) {s t : σ} (hs : P s)
    (hx : (x s).state? = some t) : E t := by
  have hmeets := h s hs
  cases hrun : x s with
  | ok a s' =>
    rw [hrun] at hmeets hx
    obtain rfl := Option.some.inj hx
    exact hmeets
  | error e s' =>
    rw [hrun] at hmeets hx
    obtain rfl := Option.some.inj hx
    exact hmeets
  | stop c =>
    rw [hrun] at hx
    cases hx

theorem pre {x : Prog ε σ α} (h : Ensures P x Q E) (hP : ∀ s, P' s → P s) : Ensures P' x Q E :=
  fun s hs => h s (hP s hs)

theorem post {x : Prog ε σ α} (h : Ensures P x Q E) (hQ : ∀ a s, Q a s → Q' a s) :
    Ensures P x Q' E := by
  intro s hs
  have hmeets := h s hs
  cases hrun : x s with
  | ok a t => rw [hrun] at hmeets; exact hQ a t hmeets
  | error e t => rw [hrun] at hmeets; exact hmeets
  | stop c => trivial

theorem errors {x : Prog ε σ α} {E' : σ → Prop} (h : Ensures P x Q E) (hE : ∀ s, E s → E' s) :
    Ensures P x Q E' := by
  intro s hs
  have hmeets := h s hs
  cases hrun : x s with
  | ok a t => rw [hrun] at hmeets; exact hmeets
  | error e t => rw [hrun] at hmeets; exact hE t hmeets
  | stop c => trivial

theorem of_and {p : Prop} {x : Prog ε σ α} (h : p → Ensures P x Q E) :
    Ensures (fun s => p ∧ P s) x Q E := fun s hs => h hs.1 s hs.2

theorem of_exists {P : ι → σ → Prop} {x : Prog ε σ α} (h : ∀ i, Ensures (P i) x Q E) :
    Ensures (fun s => ∃ i, P i s) x Q E := fun s hs => by
  obtain ⟨i, hi⟩ := hs
  exact h i s hi

theorem ret {a : α} (h : ∀ s, P s → Q a s) : Ensures (ε := ε) P (Prog.ret a) Q E := h

theorem halt (c : Stop) : Ensures (ε := ε) P (Prog.halt c) Q E := fun _ _ => trivial

theorem fail {e : ε} (h : ∀ s, P s → E s) : Ensures P (Prog.fail e) Q E := h

theorem modify {f : σ → σ} {Q : Unit → σ → Prop} (h : ∀ s, P s → Q () (f s)) :
    Ensures (ε := ε) P (Prog.modify f) Q E := h

theorem bind {x : Prog ε σ α} {f : α → Prog ε σ β} (hx : Ensures P x Q E)
    (hf : ∀ a, Ensures (Q a) (f a) R E) : Ensures P (x >>= f) R E := by
  intro s hs
  have hmeets := hx s hs
  cases hrun : x s with
  | ok a t =>
    rw [hrun] at hmeets
    rw [Prog.bind_ok hrun]
    exact hf a t hmeets
  | error e t =>
    rw [hrun] at hmeets
    rw [Prog.bind_error hrun]
    exact hmeets
  | stop c =>
    rw [Prog.bind_stop hrun]
    trivial

theorem get_bind {f : σ → Prog ε σ α} (h : ∀ s, P s → Ensures P (f s) Q E) :
    Ensures P (Prog.get >>= f) Q E := by
  intro s hs
  rw [Prog.get_bind]
  exact h s hs s hs

theorem demand_bind {o : Option α} {f : α → Prog ε σ β}
    (h : ∀ a, o = some a → Ensures P (f a) R E) : Ensures P (Prog.demand o >>= f) R E := by
  cases o with
  | none => exact halt _
  | some a => exact h a rfl

theorem element_bind {l : List α} {i : Nat} {f : α → Prog ε σ β}
    (h : ∀ a, l[i]? = some a → Ensures P (f a) R E) : Ensures P (Prog.element l i >>= f) R E :=
  demand_bind h

theorem require_bind {b : Prop} [Decidable b] {f : Unit → Prog ε σ β}
    (h : b → Ensures P (f ()) R E) : Ensures P (Prog.require b >>= f) R E := by
  by_cases hb : b
  · rw [Prog.require_bind hb]
    exact h hb
  · rw [Prog.require, if_neg hb]
    exact halt _

theorem guard_bind {a b : Prop} [Decidable a] [Decidable b] {f : Unit → Prog ε σ β}
    (h : a ∨ b → Ensures P (f ()) R E) :
    Ensures P (if a then Prog.ret () >>= f else Prog.require b >>= f) R E := by
  by_cases hab : a ∨ b
  · rw [Prog.guard_bind hab]
    exact h hab
  · obtain ⟨ha, hb⟩ := not_or.mp hab
    rw [if_neg ha, Prog.require, if_neg hb]
    exact halt _

theorem ite {b : Prop} [Decidable b] {x y : Prog ε σ α} (hx : b → Ensures P x Q E)
    (hy : ¬b → Ensures P y Q E) : Ensures P (if b then x else y) Q E := by
  split
  · exact hx ‹b›
  · exact hy ‹¬b›

theorem orPanic {x : Prog ε σ α} (h : Ensures P x Q E) : Ensures P (Prog.orPanic x) Q E := by
  intro s hs
  have hmeets := h s hs
  rw [Prog.orPanic]
  cases hrun : x s with
  | ok a t => rw [hrun] at hmeets; exact hmeets
  | error e t => trivial
  | stop c => trivial

theorem attempt {x : Prog ε σ α} {R : Except ε α → σ → Prop}
    (h : Ensures P x (fun a => R (.ok a)) fun s => ∀ e, R (.error e) s) :
    Ensures P (Prog.attempt x) R E := by
  intro s hs
  have hmeets := h s hs
  rw [Prog.attempt]
  cases hrun : x s with
  | ok a t => rw [hrun] at hmeets; exact hmeets
  | error e t => rw [hrun] at hmeets; exact hmeets e
  | stop c => trivial

theorem zoom {part : σ → τ} {put : τ → σ → σ} {K : σ → Prop} {P : τ → Prop} {Q : α → τ → Prop}
    {E : τ → Prop} {x : Prog ε τ α} (hpart : ∀ s t, part (put t s) = t)
    (hK : ∀ s t, K s → K (put t s)) (h : Ensures P x Q E) :
    Ensures (fun s => K s ∧ P (part s)) (Prog.zoom part put x) (fun a s => K s ∧ Q a (part s))
      (fun s => K s ∧ E (part s)) := by
  rintro s ⟨hs, hP⟩
  have hmeets := h (part s) hP
  rw [Prog.zoom]
  cases hrun : x (part s) with
  | ok a t =>
    rw [hrun] at hmeets
    exact ⟨hK s t hs, (hpart s t).symm ▸ hmeets⟩
  | error e t =>
    rw [hrun] at hmeets
    exact ⟨hK s t hs, (hpart s t).symm ▸ hmeets⟩
  | stop c => trivial

theorem forEach {body : ι → Prog ε σ Unit} (hbody : ∀ i, Ensures P (body i) (fun _ => P) E)
    (is : List ι) : Ensures P (Prog.forEach body is) (fun _ => P) E := by
  induction is with
  | nil => exact ret fun _ => id
  | cons i is ih => exact bind (hbody i) fun _ => ih

end Ensures

end Outcomes
