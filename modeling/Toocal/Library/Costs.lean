import Toocal.Library.Outcome

/-!
# What a program costs

A graded relation `T n s t` says that the way from the state `s` to `t` costs `n`; the costs
of two ways add up.  `Costs T x Q E`: wherever the program `x` starts, it ends at a cost that
meets `Q` together with its result, or `E` if it ends in an error.

The rules follow the program constructors, and the rule for `bind` asks of the first program
what makes the second one meet its demands.
-/

namespace Outcomes

variable {ε σ τ α β ι : Type}

/-- No way costs nothing, and the costs of two ways add up. -/
structure Graded (T : Nat → σ → σ → Prop) : Prop where
  zero : ∀ s, T 0 s s
  add : ∀ {m n s t u}, T m s t → T n t u → T (m + n) s u

/-- The costs of an outcome, counted from `s`. -/
def Outcome.Costs (T : Nat → σ → σ → Prop) (s : σ) (Q : Nat → α → Prop) (E : Nat → Prop) :
    Outcome ε σ α → Prop
  | .ok a t => ∃ n, T n s t ∧ Q n a
  | .error _ t => ∃ n, T n s t ∧ E n
  | .stop _ => True

/-- The costs of a program. -/
def Costs (T : Nat → σ → σ → Prop) (Q : Nat → α → Prop) (E : Nat → Prop) (x : Prog ε σ α) : Prop :=
  ∀ s, (x s).Costs T s Q E

namespace Costs

variable {T : Nat → σ → σ → Prop} {Q Q' : Nat → α → Prop} {E E' : Nat → Prop} {R : Nat → β → Prop}

theorem result {x : Prog ε σ α} (h : Costs T Q E x) {s t : σ} {a : α} (hx : x s = .ok a t) :
    ∃ n, T n s t ∧ Q n a := by
  have hs := h s
  rw [hx] at hs
  exact hs

theorem mono {x : Prog ε σ α} (h : Costs T Q E x) (hQ : ∀ n a, Q n a → Q' n a)
    (hE : ∀ n, E n → E' n) : Costs T Q' E' x := by
  intro s
  have hs := h s
  cases hx : x s with
  | ok a t =>
    rw [hx] at hs
    obtain ⟨n, hT, hn⟩ := hs
    exact ⟨n, hT, hQ n a hn⟩
  | error e t =>
    rw [hx] at hs
    obtain ⟨n, hT, hn⟩ := hs
    exact ⟨n, hT, hE n hn⟩
  | stop c => trivial

theorem halt (c : Stop) : Costs (ε := ε) T Q E (Prog.halt c) := fun _ => trivial

theorem get_bind {f : σ → Prog ε σ α} (h : ∀ s, Costs T Q E (f s)) :
    Costs T Q E (Prog.get >>= f) := by
  intro s
  rw [Prog.get_bind]
  exact h s s

theorem modify {f : σ → σ} {Q : Nat → Unit → Prop} {n : Nat} (h : ∀ s, T n s (f s)) (hQ : Q n ()) :
    Costs (ε := ε) T Q E (Prog.modify f) := fun s => ⟨n, h s, hQ⟩

theorem orPanic {x : Prog ε σ α} (h : Costs T Q E' x) : Costs T Q E (Prog.orPanic x) := by
  intro s
  have hs := h s
  rw [Prog.orPanic]
  cases hx : x s with
  | ok a t => rw [hx] at hs; exact hs
  | error e t => trivial
  | stop c => trivial

theorem attempt {x : Prog ε σ α} {R : Nat → Except ε α → Prop}
    (h : Costs T (fun n a => R n (.ok a)) (fun n => ∀ e, R n (.error e)) x) :
    Costs T R E (Prog.attempt x) := by
  intro s
  have hs := h s
  rw [Prog.attempt]
  cases hx : x s with
  | ok a t => rw [hx] at hs; exact hs
  | error e t =>
    rw [hx] at hs
    obtain ⟨n, hn, hR⟩ := hs
    exact ⟨n, hn, hR e⟩
  | stop c => trivial

theorem ite {b : Prop} [Decidable b] {x y : Prog ε σ α} (hx : b → Costs T Q E x)
    (hy : ¬b → Costs T Q E y) : Costs T Q E (if b then x else y) := by
  split
  · exact hx ‹b›
  · exact hy ‹¬b›

theorem guard {a b : Prop} [Decidable a] [Decidable b] {f : Unit → Prog ε σ α}
    (h : Costs T Q E (f ())) :
    Costs T Q E (if a then Prog.ret () >>= f else Prog.require b >>= f) := by
  by_cases hab : a ∨ b
  · rwa [Prog.guard_bind hab]
  · obtain ⟨ha, hb⟩ := not_or.mp hab
    intro s
    rw [if_neg ha, Prog.require, if_neg hb]
    trivial

section Graded

variable (hT : Graded T)
include hT

theorem ret {a : α} (h : Q 0 a) : Costs (ε := ε) T Q E (Prog.ret a) := fun s => ⟨0, hT.zero s, h⟩

theorem fail {e : ε} (h : E 0) : Costs T Q E (Prog.fail e) := fun s => ⟨0, hT.zero s, h⟩

theorem demand {o : Option α} (h : ∀ a, o = some a → Q 0 a) :
    Costs (ε := ε) T Q E (Prog.demand o) := by
  cases o with
  | none => exact halt _
  | some a => exact ret hT (h a rfl)

theorem element {l : List α} {i : Nat} (h : ∀ a, l[i]? = some a → Q 0 a) :
    Costs (ε := ε) T Q E (Prog.element l i) := demand hT h

theorem require {b : Prop} [Decidable b] {Q : Nat → Unit → Prop} (h : b → Q 0 ()) :
    Costs (ε := ε) T Q E (Prog.require b) := by
  rw [Prog.require]
  split
  · exact ret hT (h ‹b›)
  · exact halt _

theorem bind {x : Prog ε σ α} {f : α → Prog ε σ β}
    (h : Costs T (fun n a => Costs T (fun m => R (n + m)) (fun m => E (n + m)) (f a)) E x) :
    Costs T R E (x >>= f) := by
  intro s
  have hs := h s
  cases hx : x s with
  | ok a t =>
    rw [hx] at hs
    obtain ⟨n, hn, hf⟩ := hs
    rw [Prog.bind_ok hx]
    have ht := hf t
    cases hy : f a t with
    | ok b u =>
      rw [hy] at ht
      obtain ⟨m, hm, hR⟩ := ht
      exact ⟨n + m, hT.add hn hm, hR⟩
    | error e u =>
      rw [hy] at ht
      obtain ⟨m, hm, hE⟩ := ht
      exact ⟨n + m, hT.add hn hm, hE⟩
    | stop c => trivial
  | error e t =>
    rw [hx] at hs
    rw [Prog.bind_error hx]
    exact hs
  | stop c =>
    rw [Prog.bind_stop hx]
    trivial

theorem forEach {body : ι → Prog ε σ Unit} {k : Nat}
    (hbody : ∀ i, Costs T (fun n _ => n ≤ k) (fun _ => True) (body i)) (is : List ι) :
    Costs T (fun n _ => n ≤ k * is.length) (fun _ => True) (Prog.forEach body is) := by
  induction is with
  | nil => exact ret hT (Nat.zero_le _)
  | cons i is ih =>
    refine bind hT ((hbody i).mono (fun n _ hn => ih.mono (fun m _ hm => ?_) fun _ _ => trivial)
      fun _ _ => trivial)
    rw [List.length_cons, Nat.mul_succ]
    omega

end Graded

theorem zoom {T' : Nat → τ → τ → Prop} {part : σ → τ} {put : τ → σ → σ} {x : Prog ε τ α}
    (hput : ∀ {n s t}, T' n (part s) t → T n s (put t s)) (h : Costs T' Q E x) :
    Costs T Q E (Prog.zoom part put x) := by
  intro s
  have hs := h (part s)
  rw [Prog.zoom]
  cases hx : x (part s) with
  | ok a t =>
    rw [hx] at hs
    obtain ⟨n, hn, hQ⟩ := hs
    exact ⟨n, hput hn, hQ⟩
  | error e t =>
    rw [hx] at hs
    obtain ⟨n, hn, hE⟩ := hs
    exact ⟨n, hput hn, hE⟩
  | stop c => trivial

end Costs

end Outcomes
