import Toocal.Library.Outcome

/-!
# Faults and how programs report them

One program is run twice, on states that `R` relates.  In the second run one of the state's
operations fails, and every later one does; `failed` is the state from then on.  The first
run ends with `Stop.outside` where the second one meets the failure.

`Exposes R failed Q H x` compares the two.  As long as no operation fails they do the same,
and a result is one of `Q`.  A run that meets the failure ends with an error or ends the
process (`Struck`); or it goes on, as a program that drops an error does, and then its result
is one of `H`.  With `H` false the failure is not lost.

The rules follow the program constructors.  `bind` is for a first part that loses no failure,
`bind_lost` for one that may: what comes after it has to run into a failed operation.
-/

namespace Outcomes

variable {ε σ τ α β ι : Type}

/-- How a run ends that has met the failure. -/
def Struck (failed : σ → Prop) (H : α → Prop) : Outcome ε σ α → Prop
  | .ok a s => failed s ∧ H a
  | .error _ s => failed s
  | .stop c => c = .terminated

/-- No result, that is. -/
abbrev Lost : α → Prop := fun _ => False

/-- How the second run ends, given how the first one does. -/
inductive Follows (R : σ → σ → Prop) (failed : σ → Prop) (Q H : α → Prop) :
    Outcome ε σ α → Outcome ε σ α → Prop
  | ok {a : α} {s t : σ} : R s t → Q a → Follows R failed Q H (.ok a s) (.ok a t)
  | error {e : ε} {s t : σ} : R s t → Follows R failed Q H (.error e s) (.error e t)
  | stop {c : Stop} {o : Outcome ε σ α} : c ≠ .outside → Follows R failed Q H (.stop c) o
  | struck {o : Outcome ε σ α} : Struck failed H o → Follows R failed Q H (.stop .outside) o

/-- A run of `x` that meets the failure follows the one that stops there. -/
def Exposes (R : σ → σ → Prop) (failed : σ → Prop) (Q H : α → Prop) (x : Prog ε σ α) : Prop :=
  ∀ ⦃s t⦄, R s t → Follows R failed Q H (x s) (x t)

namespace Struck

variable {failed : σ → Prop} {H : α → Prop} {H' : β → Prop}

theorem mono {H₁ : α → Prop} (h : ∀ a, H a → H₁ a) {o : Outcome ε σ α} (ho : Struck failed H o) :
    Struck failed H₁ o := by
  cases o with
  | ok a s => exact ⟨ho.1, h a ho.2⟩
  | error e s => exact ho
  | stop c => exact ho

theorem bind {x : Prog ε σ α} {f : α → Prog ε σ β} {s : σ} (hx : Struck failed H (x s))
    (hf : ∀ a t, H a → failed t → Struck failed H' (f a t)) : Struck failed H' ((x >>= f) s) := by
  cases hs : x s with
  | ok a t =>
    rw [hs] at hx
    rw [Prog.bind_ok hs]
    exact hf a t hx.2 hx.1
  | error e t =>
    rw [hs] at hx
    rw [Prog.bind_error hs]
    exact hx
  | stop c =>
    rw [hs] at hx
    rw [Prog.bind_stop hs]
    exact hx

theorem bind' {x : Prog ε σ α} {f : α → Prog ε σ β} {s : σ} (hx : Struck failed Lost (x s)) :
    Struck failed H' ((x >>= f) s) := hx.bind fun _ _ h _ => h.elim

theorem orPanic {x : Prog ε σ α} {s : σ} (hx : Struck failed H (x s)) :
    Struck failed H (Prog.orPanic x s) := by
  rw [Prog.orPanic]
  cases hs : x s with
  | ok a t => rw [hs] at hx; exact hx
  | error e t => exact rfl
  | stop c => rw [hs] at hx; exact hx

theorem attempt {x : Prog ε σ α} {s : σ} (hx : Struck failed Lost (x s)) :
    Struck failed (fun r => ∃ e, r = .error e) (Prog.attempt x s) := by
  rw [Prog.attempt]
  cases hs : x s with
  | ok a t => rw [hs] at hx; exact hx.2.elim
  | error e t => rw [hs] at hx; exact ⟨hx, e, rfl⟩
  | stop c => rw [hs] at hx; exact hx

theorem zoom {failed' : τ → Prop} {part : σ → τ} {put : τ → σ → σ} {x : Prog ε τ α} {s : σ}
    (hput : ∀ t, failed' t → failed (put t s)) (hx : Struck failed' H (x (part s))) :
    Struck failed H (Prog.zoom part put x s) := by
  rw [Prog.zoom]
  cases hs : x (part s) with
  | ok a t => rw [hs] at hx; exact ⟨hput t hx.1, hx.2⟩
  | error e t => rw [hs] at hx; exact hput t hx
  | stop c => rw [hs] at hx; exact hx

end Struck

namespace Exposes

variable {R : σ → σ → Prop} {failed : σ → Prop} {Q H : α → Prop} {Q' H' : β → Prop}

theorem ret {a : α} (h : Q a) : Exposes (ε := ε) R failed Q H (Prog.ret a) :=
  fun _ _ hR => .ok hR h

theorem fail (e : ε) : Exposes R failed Q H (Prog.fail e) := fun _ _ hR => .error hR

theorem halt {c : Stop} (h : c ≠ .outside) : Exposes (ε := ε) R failed Q H (Prog.halt c) :=
  fun _ _ _ => .stop h

theorem modify {f : σ → σ} {Q H : Unit → Prop} (h : ∀ ⦃s t⦄, R s t → R (f s) (f t)) (hQ : Q ()) :
    Exposes (ε := ε) R failed Q H (Prog.modify f) := fun _ _ hR => .ok (h hR) hQ

theorem mono {Q₁ H₁ : α → Prop} {x : Prog ε σ α} (hx : Exposes R failed Q H x)
    (hQ : ∀ a, Q a → Q₁ a) (hH : ∀ a, H a → H₁ a) : Exposes R failed Q₁ H₁ x := by
  intro s t hR
  have hxy := hx hR
  generalize x s = o at hxy
  generalize x t = o' at hxy
  cases hxy with
  | ok hR' h => exact .ok hR' (hQ _ h)
  | error hR' => exact .error hR'
  | stop hc => exact .stop hc
  | struck hs => exact .struck (hs.mono hH)

/-- The first part may lose the failure; then the second one has to meet it again. -/
theorem bind_lost {x : Prog ε σ α} {f : α → Prog ε σ β} (hx : Exposes R failed Q H x)
    (hf : ∀ a, Q a → Exposes R failed Q' H' (f a))
    (hlost : ∀ a t, H a → failed t → Struck failed H' (f a t)) :
    Exposes R failed Q' H' (x >>= f) := by
  intro s t hR
  have hxy := hx hR
  generalize hs : x s = o at hxy
  generalize ht : x t = o' at hxy
  cases hxy with
  | ok hR' hQ =>
    rw [Prog.bind_ok hs, Prog.bind_ok ht]
    exact hf _ hQ hR'
  | error hR' =>
    rw [Prog.bind_error hs, Prog.bind_error ht]
    exact .error hR'
  | stop hc =>
    rw [Prog.bind_stop hs]
    exact .stop hc
  | struck h =>
    rw [Prog.bind_stop hs]
    subst ht
    exact .struck (h.bind hlost)

theorem bind {x : Prog ε σ α} {f : α → Prog ε σ β} (hx : Exposes R failed Q Lost x)
    (hf : ∀ a, Q a → Exposes R failed Q' H' (f a)) : Exposes R failed Q' H' (x >>= f) :=
  hx.bind_lost hf fun _ _ h _ => h.elim

theorem orPanic {x : Prog ε σ α} (hx : Exposes R failed Q H x) :
    Exposes R failed Q H (Prog.orPanic x) := by
  intro s t hR
  have hxy := hx hR
  generalize hs : x s = o at hxy
  generalize ht : x t = o' at hxy
  cases hxy with
  | ok hR' hQ =>
    rw [Prog.orPanic_ok hs, Prog.orPanic_ok ht]
    exact .ok hR' hQ
  | error hR' =>
    rw [Prog.orPanic, hs]
    exact .stop (by decide)
  | stop hc =>
    rw [Prog.orPanic_stop hs]
    exact .stop hc
  | struck h =>
    rw [Prog.orPanic_stop hs]
    subst ht
    exact .struck h.orPanic

theorem attempt {x : Prog ε σ α} (hx : Exposes R failed Q Lost x) :
    Exposes R failed (fun _ => True) (fun r => ∃ e, r = .error e) (Prog.attempt x) := by
  intro s t hR
  have hxy := hx hR
  generalize hs : x s = o at hxy
  generalize ht : x t = o' at hxy
  cases hxy with
  | ok hR' hQ =>
    rw [Prog.attempt_ok hs, Prog.attempt_ok ht]
    exact .ok hR' trivial
  | error hR' =>
    rw [Prog.attempt, Prog.attempt, hs, ht]
    exact .ok hR' trivial
  | stop hc =>
    rw [Prog.attempt_stop hs]
    exact .stop hc
  | struck h =>
    rw [Prog.attempt_stop hs]
    subst ht
    exact .struck h.attempt

theorem demand (o : Option α) :
    Exposes (ε := ε) R failed (fun a => o = some a) Lost (Prog.demand o) := by
  cases o with
  | none => exact halt (by decide)
  | some a => exact ret rfl

theorem element (l : List α) (i : Nat) :
    Exposes (ε := ε) R failed (fun a => l[i]? = some a) Lost (Prog.element l i) := demand _

theorem require (b : Prop) [Decidable b] :
    Exposes (ε := ε) R failed (fun _ => b) Lost (Prog.require b) := by
  rw [Prog.require]
  split
  · exact ret ‹b›
  · exact halt (by decide)

theorem ite {b : Prop} [Decidable b] {x y : Prog ε σ α} (hx : b → Exposes R failed Q H x)
    (hy : ¬b → Exposes R failed Q H y) : Exposes R failed Q H (if b then x else y) := by
  split
  · exact hx ‹b›
  · exact hy ‹¬b›

theorem get_bind {f : σ → Prog ε σ α} (hsame : ∀ ⦃s t⦄, R s t → f s = f t)
    (h : ∀ s, Exposes R failed Q H (f s)) : Exposes R failed Q H (Prog.get >>= f) := by
  intro s t hR
  rw [Prog.get_bind, Prog.get_bind, ← hsame hR]
  exact h s hR

theorem zoom {R' : τ → τ → Prop} {failed' : τ → Prop} {part : σ → τ} {put : τ → σ → σ}
    {x : Prog ε τ α} (hx : Exposes R' failed' Q H x) (hpart : ∀ ⦃s t⦄, R s t → R' (part s) (part t))
    (hput : ∀ ⦃s t a b⦄, R s t → R' a b → R (put a s) (put b t))
    (hfailed : ∀ s t, failed' t → failed (put t s)) :
    Exposes R failed Q H (Prog.zoom part put x) := by
  intro s t hR
  have hxy := hx (hpart hR)
  generalize hs : x (part s) = o at hxy
  generalize ht : x (part t) = o' at hxy
  cases hxy with
  | ok hR' hQ =>
    rw [Prog.zoom_ok hs, Prog.zoom_ok ht]
    exact .ok (hput hR hR') hQ
  | error hR' =>
    rw [Prog.zoom_error hs, Prog.zoom_error ht]
    exact .error (hput hR hR')
  | stop hc =>
    rw [Prog.zoom_stop hs]
    exact .stop hc
  | struck h =>
    rw [Prog.zoom_stop hs]
    subst ht
    exact .struck (h.zoom (hfailed t))

theorem forEach {body : ι → Prog ε σ Unit} {is : List ι}
    (hbody : ∀ i ∈ is, Exposes R failed (fun _ => True) Lost (body i)) :
    Exposes R failed (fun _ => True) Lost (Prog.forEach body is) := by
  induction is with
  | nil => exact ret trivial
  | cons i is ih =>
    refine (hbody i (by simp)).bind fun _ _ => ih fun j hj => hbody j (by simp [hj])

end Exposes

end Outcomes
