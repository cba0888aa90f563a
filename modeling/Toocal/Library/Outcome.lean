import Mathlib.Tactic.Common

/-!
# Programs with errors, crashes and undefined behaviour

A `Prog ε σ α` is a deterministic program over a state `σ`.  It ends in one of
three ways: with a result, with an error value (the state survives, as it does
when a C++ function returns an `expected` that holds an error), or not at all
(`Stop`).

`NeverFails x` rules the second way out; a program whose errors all end in a panic has it.

`Sim R x y` is the simulation of one such program by another: from `R`-related
states `x` ends as `y` does, again in `R`-related states.  Where `y` diverges or
leaves the model, nothing is asked of `x`.  The rules below follow the program
constructors, so a simulation between two programs of one shape is put together
constructor by constructor.
-/

namespace Outcomes

/-- Why a program ends without handing back a result. -/
inductive Stop where
  /-- the process was ended on purpose -/
  | terminated
  /-- an element outside a container was accessed -/
  | undefined
  /-- a loop or recursion never ends -/
  | diverged
  /-- the model makes no statement from here on -/
  | outside
  deriving DecidableEq, Repr

/-- How a program ends. -/
inductive Outcome (ε σ α : Type) where
  | ok (a : α) (s : σ)
  | error (e : ε) (s : σ)
  | stop (why : Stop)
  deriving DecidableEq

/-- A program over the state `σ` with errors in `ε` and results in `α`. -/
def Prog (ε σ α : Type) : Type := σ → Outcome ε σ α

variable {ε σ τ α β ι : Type}

namespace Outcome

/-- The result and the state of an outcome that has one. -/
def result? : Outcome ε σ α → Option (α × σ)
  | .ok a s => some (a, s)
  | _ => none

/-- The state an outcome leaves behind, whether with a result or with an error. -/
def state? : Outcome ε σ α → Option σ
  | .ok _ s => some s
  | .error _ s => some s
  | .stop _ => none

theorem eq_ok_of_result? {o : Outcome ε σ α} {a : α} {s : σ} (h : o.result? = some (a, s)) :
    o = .ok a s := by
  cases o with
  | ok b t => cases h; rfl
  | error e t => cases h
  | stop c => cases h

@[simp] theorem state?_ok (a : α) (s : σ) : (Outcome.ok a s : Outcome ε σ α).state? = some s := rfl
@[simp] theorem state?_error (e : ε) (s : σ) :
    (Outcome.error e s : Outcome ε σ α).state? = some s := rfl
@[simp] theorem state?_stop (c : Stop) : (Outcome.stop c : Outcome ε σ α).state? = none := rfl

/-- The outcome, with its state seen through `f`. -/
def mapState (f : σ → τ) : Outcome ε σ α → Outcome ε τ α
  | .ok a s => .ok a (f s)
  | .error e s => .error e (f s)
  | .stop c => .stop c

/-- What a caller sees of an outcome: the result, the error, or why it stopped. -/
def answer : Outcome ε σ α → Except (ε ⊕ Stop) α
  | .ok a _ => .ok a
  | .error e _ => .error (.inl e)
  | .stop c => .error (.inr c)

@[simp] theorem answer_ok (a : α) (s : σ) : (Outcome.ok a s : Outcome ε σ α).answer = .ok a := rfl

theorem eq_stop_of_answer {o : Outcome ε σ α} {c : Stop} (h : o.answer = .error (.inr c)) :
    o = .stop c := by
  cases o with
  | ok b t => cases h
  | error e t => cases h
  | stop c' => cases h; rfl

end Outcome

namespace Prog

/-- Return `a` and leave the state alone. -/
def ret (a : α) : Prog ε σ α := fun s => .ok a s

/-- Run `x`, then `f` on its result. -/
def andThen (x : Prog ε σ α) (f : α → Prog ε σ β) : Prog ε σ β := fun s =>
  match x s with
  | .ok a s' => f a s'
  | .error e s' => .error e s'
  | .stop c => .stop c

instance : Monad (Prog ε σ) where
  pure := ret
  bind := andThen

/-- The state. -/
def get : Prog ε σ σ := fun s => .ok s s

/-- Replace the state. -/
def modify (f : σ → σ) : Prog ε σ Unit := fun s => .ok () (f s)

/-- Return the error `e`. -/
def fail (e : ε) : Prog ε σ α := fun s => .error e s

/-- End without a result. -/
def halt (c : Stop) : Prog ε σ α := fun _ => .stop c

/-- Run `x`; end the process when it returns an error. -/
def orPanic (x : Prog ε σ α) : Prog ε σ α := fun s =>
  match x s with
  | .ok a s' => .ok a s'
  | .error _ _ => .stop .terminated
  | .stop c => .stop c

/-- Run `x` and drop an error it returns. -/
def attempt (x : Prog ε σ α) : Prog ε σ (Except ε α) := fun s =>
  match x s with
  | .ok a s' => .ok (.ok a) s'
  | .error e s' => .ok (.error e) s'
  | .stop c => .stop c

/-- The value an optional element holds; accessing a missing one is undefined. -/
def demand : Option α → Prog ε σ α
  | some a => ret a
  | none => halt .undefined

/-- The element of `l` at `i`. -/
def element (l : List α) (i : Nat) : Prog ε σ α := demand l[i]?

/-- Go on only where `b` holds; what is done otherwise is undefined. -/
def require (b : Prop) [Decidable b] : Prog ε σ Unit := if b then ret () else halt .undefined

/-- Run a program on a part of the state. -/
def zoom (part : σ → τ) (put : τ → σ → σ) (x : Prog ε τ α) : Prog ε σ α := fun s =>
  match x (part s) with
  | .ok a t => .ok a (put t s)
  | .error e t => .error e (put t s)
  | .stop c => .stop c

/-- Run `body` on the elements of a list, first to last. -/
def forEach (body : ι → Prog ε σ Unit) : List ι → Prog ε σ Unit
  | [] => ret ()
  | i :: is => do
    body i
    forEach body is

/-! ## How the constructors run -/

@[simp] theorem pure_run (a : α) (s : σ) : (pure a : Prog ε σ α) s = .ok a s := rfl
@[simp] theorem ret_run (a : α) (s : σ) : (ret a : Prog ε σ α) s = .ok a s := rfl
@[simp] theorem get_run (s : σ) : (get : Prog ε σ σ) s = .ok s s := rfl
@[simp] theorem modify_run (f : σ → σ) (s : σ) : (modify f : Prog ε σ Unit) s = .ok () (f s) := rfl
@[simp] theorem fail_run (e : ε) (s : σ) : (fail e : Prog ε σ α) s = .error e s := rfl
@[simp] theorem halt_run (c : Stop) (s : σ) : (halt c : Prog ε σ α) s = .stop c := rfl
@[simp] theorem demand_some (a : α) : (demand (some a) : Prog ε σ α) = ret a := rfl
@[simp] theorem demand_none : (demand none : Prog ε σ α) = halt .undefined := rfl

theorem bind_ok {x : Prog ε σ α} {f : α → Prog ε σ β} {s s' : σ} {a : α} (h : x s = .ok a s') :
    (x >>= f) s = f a s' := by
  show andThen x f s = _
  simp only [andThen, h]

theorem bind_error {x : Prog ε σ α} {f : α → Prog ε σ β} {s s' : σ} {e : ε}
    (h : x s = .error e s') : (x >>= f) s = .error e s' := by
  show andThen x f s = _
  simp only [andThen, h]

theorem bind_stop {x : Prog ε σ α} {f : α → Prog ε σ β} {s : σ} {c : Stop} (h : x s = .stop c) :
    (x >>= f) s = .stop c := by
  show andThen x f s = _
  simp only [andThen, h]

@[simp] theorem ret_bind (a : α) (f : α → Prog ε σ β) : (ret a >>= f) = f a := rfl
@[simp] theorem pure_bind' (a : α) (f : α → Prog ε σ β) : (pure a >>= f) = f a := rfl
@[simp] theorem get_bind (f : σ → Prog ε σ β) (s : σ) : (get >>= f) s = f s s := rfl
@[simp] theorem modify_bind (g : σ → σ) (f : Unit → Prog ε σ β) (s : σ) :
    (modify g >>= f) s = f () (g s) := rfl
@[simp] theorem halt_bind (c : Stop) (f : α → Prog ε σ β) : (halt c >>= f) = halt c := rfl
@[simp] theorem fail_bind (e : ε) (f : α → Prog ε σ β) : (fail e >>= f) = fail e := rfl

theorem bind_eq_ok {x : Prog ε σ α} {f : α → Prog ε σ β} {s s' : σ} {b : β} :
    (x >>= f) s = .ok b s' ↔ ∃ a s₁, x s = .ok a s₁ ∧ f a s₁ = .ok b s' := by
  constructor
  · intro h
    cases hx : x s with
    | ok a s₁ => exact ⟨a, s₁, rfl, (bind_ok hx).symm.trans h⟩
    | error e s₁ => rw [bind_error hx] at h; cases h
    | stop c => rw [bind_stop hx] at h; cases h
  · rintro ⟨a, s₁, hx, hf⟩
    rw [bind_ok hx, hf]

theorem bind_eq_error {x : Prog ε σ α} {f : α → Prog ε σ β} {s s' : σ} {e : ε} :
    (x >>= f) s = .error e s' ↔
      x s = .error e s' ∨ ∃ a s₁, x s = .ok a s₁ ∧ f a s₁ = .error e s' := by
  cases hx : x s with
  | ok a s₁ => rw [bind_ok hx]; simp
  | error e' s₁ => rw [bind_error hx]; simp
  | stop c => rw [bind_stop hx]; simp

theorem orPanic_ok {x : Prog ε σ α} {s s' : σ} {a : α} (h : x s = .ok a s') :
    orPanic x s = .ok a s' := by simp only [orPanic, h]

theorem orPanic_eq_ok {x : Prog ε σ α} {s s' : σ} {a : α} :
    orPanic x s = .ok a s' ↔ x s = .ok a s' := by
  rw [orPanic]
  cases x s <;> simp

theorem orPanic_stop {x : Prog ε σ α} {s : σ} {c : Stop} (h : x s = .stop c) :
    orPanic x s = .stop c := by simp only [orPanic, h]

theorem attempt_ok {x : Prog ε σ α} {s s' : σ} {a : α} (h : x s = .ok a s') :
    attempt x s = .ok (.ok a) s' := by simp only [attempt, h]

theorem attempt_stop {x : Prog ε σ α} {s : σ} {c : Stop} (h : x s = .stop c) :
    attempt x s = .stop c := by simp only [attempt, h]

theorem element_ok {l : List α} {i : Nat} {a : α} (h : l[i]? = some a) (s : σ) :
    (element l i : Prog ε σ α) s = .ok a s := by simp only [element, h]; rfl

theorem element_bind {l : List α} {i : Nat} {a : α} (h : l[i]? = some a) (f : α → Prog ε σ β) :
    (element l i >>= f) = f a := by simp only [element, h]; rfl

theorem require_bind {b : Prop} [Decidable b] (h : b) (f : Unit → Prog ε σ β) :
    (require b >>= f) = f () := by simp only [require, if_pos h]; rfl

theorem zoom_ok {part : σ → τ} {put : τ → σ → σ} {x : Prog ε τ α} {s : σ} {t : τ} {a : α}
    (h : x (part s) = .ok a t) : zoom part put x s = .ok a (put t s) := by simp only [zoom, h]

theorem zoom_error {part : σ → τ} {put : τ → σ → σ} {x : Prog ε τ α} {s : σ} {t : τ} {e : ε}
    (h : x (part s) = .error e t) : zoom part put x s = .error e (put t s) := by
  simp only [zoom, h]

theorem zoom_stop {part : σ → τ} {put : τ → σ → σ} {x : Prog ε τ α} {s : σ} {c : Stop}
    (h : x (part s) = .stop c) : zoom part put x s = .stop c := by simp only [zoom, h]

theorem zoom_eq_ok {part : σ → τ} {put : τ → σ → σ} {x : Prog ε τ α} {s s' : σ} {a : α} :
    zoom part put x s = .ok a s' ↔ ∃ t, x (part s) = .ok a t ∧ put t s = s' := by
  rw [zoom]
  cases x (part s) <;> simp

theorem zoom_eq_error {part : σ → τ} {put : τ → σ → σ} {x : Prog ε τ α} {s s' : σ} {e : ε} :
    zoom part put x s = .error e s' ↔ ∃ t, x (part s) = .error e t ∧ put t s = s' := by
  rw [zoom]
  cases x (part s) <;> simp

theorem demand_eq_ok {o : Option α} {s s' : σ} {a : α} :
    (demand o : Prog ε σ α) s = .ok a s' ↔ o = some a ∧ s = s' := by
  cases o <;> simp

theorem require_eq_ok {b : Prop} [Decidable b] {s s' : σ} {u : Unit} :
    (require b : Prog ε σ Unit) s = .ok u s' ↔ b ∧ s = s' := by
  rw [require]
  by_cases h : b
  · rw [if_pos h]
    simp [h]
  · rw [if_neg h]
    simp [h]

theorem guard_bind {a b : Prop} [Decidable a] [Decidable b] (h : a ∨ b)
    (f : Unit → Prog ε σ β) : (if a then ret () >>= f else require b >>= f) = f () := by
  by_cases ha : a
  · rw [if_pos ha]
    rfl
  · rw [if_neg ha, require_bind (h.resolve_left ha)]

theorem forEach_append (body : ι → Prog ε σ Unit) (is js : List ι) (s : σ) :
    forEach body (is ++ js) s = (forEach body is >>= fun _ => forEach body js) s := by
  induction is generalizing s with
  | nil => rfl
  | cons i is ih =>
    show (body i >>= fun _ => forEach body (is ++ js)) s =
      ((body i >>= fun _ => forEach body is) >>= fun _ => forEach body js) s
    cases hb : body i s with
    | ok a s' =>
      rw [bind_ok hb, ih]
      cases hf : forEach body is s' with
      | ok b t => rw [bind_ok hf, bind_ok ((bind_ok hb).trans hf)]
      | error e t => rw [bind_error hf, bind_error ((bind_ok hb).trans hf)]
      | stop c => rw [bind_stop hf, bind_stop ((bind_ok hb).trans hf)]
    | error e s' => rw [bind_error hb, bind_error (bind_error hb)]
    | stop c => rw [bind_stop hb, bind_stop (bind_stop hb)]

end Prog

/-! ## Programs without errors -/

/-- The program does not end with an error. -/
def NeverFails (x : Prog ε σ α) : Prop := ∀ s e s', x s ≠ .error e s'

namespace NeverFails

theorem ret (a : α) : NeverFails (Prog.ret a : Prog ε σ α) := by
  intro s e s' h
  cases h

theorem pure (a : α) : NeverFails (Pure.pure a : Prog ε σ α) := ret a

theorem halt (c : Stop) : NeverFails (Prog.halt c : Prog ε σ α) := by
  intro s e s' h
  cases h

theorem get : NeverFails (Prog.get : Prog ε σ σ) := by
  intro s e s' h
  cases h

theorem modify (f : σ → σ) : NeverFails (Prog.modify f : Prog ε σ Unit) := by
  intro s e s' h
  cases h

theorem demand (o : Option α) : NeverFails (Prog.demand o : Prog ε σ α) := by
  cases o with
  | none => exact halt _
  | some a => exact ret a

theorem element (l : List α) (i : Nat) : NeverFails (Prog.element l i : Prog ε σ α) := demand _

theorem require (b : Prop) [Decidable b] : NeverFails (Prog.require b : Prog ε σ Unit) := by
  rw [Prog.require]
  split
  · exact ret ()
  · exact halt _

/-- A panic ends the process, so there is no error left. -/
theorem orPanic (x : Prog ε σ α) : NeverFails (Prog.orPanic x) := by
  intro s e s' h
  rw [Prog.orPanic] at h
  cases hx : x s with
  | ok a t => rw [hx] at h; cases h
  | error e' t => rw [hx] at h; cases h
  | stop c => rw [hx] at h; cases h

theorem bind {x : Prog ε σ α} {f : α → Prog ε σ β} (hx : NeverFails x)
    (hf : ∀ a, NeverFails (f a)) : NeverFails (x >>= f) := by
  intro s e s' h
  cases hs : x s with
  | ok a t =>
    rw [Prog.bind_ok hs] at h
    exact hf a t e s' h
  | error e' t => exact hx s e' t hs
  | stop c =>
    rw [Prog.bind_stop hs] at h
    cases h

theorem ite {b : Prop} [Decidable b] {x y : Prog ε σ α} (hx : NeverFails x) (hy : NeverFails y) :
    NeverFails (if b then x else y) := by
  split
  · exact hx
  · exact hy

theorem ite_bind {b : Prop} [Decidable b] {x y : Prog ε σ α} {f : α → Prog ε σ β}
    (hx : NeverFails x) (hy : NeverFails y) (hf : ∀ a, NeverFails (f a)) :
    NeverFails (if b then x >>= f else y >>= f) := ite (bind hx hf) (bind hy hf)

theorem zoom {part : σ → τ} {put : τ → σ → σ} {x : Prog ε τ α} (hx : NeverFails x) :
    NeverFails (Prog.zoom part put x) := by
  intro s e s' h
  cases ht : x (part s) with
  | ok a t => rw [Prog.zoom_ok ht] at h; cases h
  | error e' t => exact hx _ e' t ht
  | stop c => rw [Prog.zoom_stop ht] at h; cases h

theorem forEach {body : ι → Prog ε σ Unit} (hbody : ∀ i, NeverFails (body i)) (is : List ι) :
    NeverFails (Prog.forEach body is) := by
  induction is with
  | nil => exact ret ()
  | cons i is ih => exact bind (hbody i) fun _ => ih

end NeverFails

/-! ## Simulation -/

/-- `o` ends as `o'` does, in `R`-related states.  A run that diverges or leaves
the model asks nothing. -/
inductive Agree (R : σ → τ → Prop) : Outcome ε σ α → Outcome ε τ α → Prop
  | ok {a : α} {s : σ} {t : τ} : R s t → Agree R (.ok a s) (.ok a t)
  | error {e : ε} {s : σ} {t : τ} : R s t → Agree R (.error e s) (.error e t)
  | stop {c : Stop} : Agree R (.stop c) (.stop c)
  | diverged {o : Outcome ε σ α} : Agree R o (.stop .diverged)
  | outside {o : Outcome ε σ α} : Agree R o (.stop .outside)

theorem Agree.mapState {σ' τ' : Type} {R : σ → τ → Prop} {R' : σ' → τ' → Prop} {f : σ → σ'}
    {g : τ → τ'} {o : Outcome ε σ α} {o' : Outcome ε τ α} (h : Agree R o o')
    (hR : ∀ ⦃s t⦄, R s t → R' (f s) (g t)) : Agree R' (o.mapState f) (o'.mapState g) := by
  cases h with
  | ok h => exact .ok (hR h)
  | error h => exact .error (hR h)
  | stop => exact .stop
  | diverged => exact .diverged
  | outside => exact .outside

theorem Agree.and_left {R : σ → τ → Prop} {P : σ → Prop} {o : Outcome ε σ α} {o' : Outcome ε τ α}
    (h : Agree R o o') (hP : ∀ s, o.state? = some s → P s) :
    Agree (fun s t => R s t ∧ P s) o o' := by
  cases h with
  | ok h => exact .ok ⟨h, hP _ rfl⟩
  | error h => exact .error ⟨h, hP _ rfl⟩
  | stop => exact .stop
  | diverged => exact .diverged
  | outside => exact .outside

/-- `x` simulates `y` along `R`. -/
def Sim (R : σ → τ → Prop) (x : Prog ε σ α) (y : Prog ε τ α) : Prop :=
  ∀ ⦃s t⦄, R s t → Agree R (x s) (y t)

namespace Sim

variable {R : σ → τ → Prop}

theorem ok {x : Prog ε σ α} {y : Prog ε τ α} (h : Sim R x y) {s : σ} {t t' : τ} {a : α}
    (hR : R s t) (hy : y t = .ok a t') : ∃ s', x s = .ok a s' ∧ R s' t' := by
  have hxy := h hR
  rw [hy] at hxy
  cases hx : x s with
  | ok b s' => rw [hx] at hxy; cases hxy with | ok hR' => exact ⟨s', rfl, hR'⟩
  | error e s' => rw [hx] at hxy; cases hxy
  | stop c => rw [hx] at hxy; cases hxy

theorem error {x : Prog ε σ α} {y : Prog ε τ α} (h : Sim R x y) {s : σ} {t t' : τ} {e : ε}
    (hR : R s t) (hy : y t = .error e t') : ∃ s', x s = .error e s' ∧ R s' t' := by
  have hxy := h hR
  rw [hy] at hxy
  cases hx : x s with
  | ok b s' => rw [hx] at hxy; cases hxy
  | error f s' => rw [hx] at hxy; cases hxy with | error hR' => exact ⟨s', rfl, hR'⟩
  | stop c => rw [hx] at hxy; cases hxy

theorem state? {x : Prog ε σ α} {y : Prog ε τ α} (h : Sim R x y) {s : σ} {t t' : τ}
    (hR : R s t) (hy : (y t).state? = some t') : ∃ s', (x s).state? = some s' ∧ R s' t' := by
  cases hrun : y t with
  | ok a t₁ =>
    obtain ⟨s', hx, hR'⟩ := h.ok hR hrun
    rw [hrun] at hy
    obtain rfl := Option.some.inj hy
    exact ⟨s', congrArg Outcome.state? hx, hR'⟩
  | error e t₁ =>
    obtain ⟨s', hx, hR'⟩ := h.error hR hrun
    rw [hrun] at hy
    obtain rfl := Option.some.inj hy
    exact ⟨s', congrArg Outcome.state? hx, hR'⟩
  | stop c => rw [hrun] at hy; cases hy

theorem undefined {x : Prog ε σ α} {y : Prog ε τ α} (h : Sim R x y) {s : σ} {t : τ}
    (hR : R s t) (hy : y t = .stop .undefined) : x s = .stop .undefined := by
  have hxy := h hR
  rw [hy] at hxy
  cases hx : x s with
  | ok b s' => rw [hx] at hxy; cases hxy
  | error f s' => rw [hx] at hxy; cases hxy
  | stop c => rw [hx] at hxy; cases hxy with | stop => rfl

theorem ret (a : α) : Sim (ε := ε) R (Prog.ret a) (Prog.ret a) := fun _ _ h => .ok h

theorem pure (a : α) : Sim (ε := ε) R (Pure.pure a) (Pure.pure a) := fun _ _ h => .ok h

theorem fail (e : ε) : Sim (α := α) R (Prog.fail e) (Prog.fail e) := fun _ _ h => .error h

theorem halt (c : Stop) : Sim (ε := ε) (α := α) R (Prog.halt c) (Prog.halt c) := fun _ _ _ => .stop

theorem outside {x : Prog ε σ α} : Sim R x (Prog.halt .outside) := fun _ _ _ => .outside

theorem diverged {x : Prog ε σ α} : Sim R x (Prog.halt .diverged) := fun _ _ _ => .diverged

theorem bind {x : Prog ε σ α} {y : Prog ε τ α} {f : α → Prog ε σ β} {g : α → Prog ε τ β}
    (h : Sim R x y) (hf : ∀ a, Sim R (f a) (g a)) : Sim R (x >>= f) (y >>= g) := by
  intro s t hR
  have hxy := h hR
  cases hy : y t with
  | ok a t' =>
    obtain ⟨s', hx, hR'⟩ := h.ok hR hy
    rw [Prog.bind_ok hx, Prog.bind_ok hy]
    exact hf a hR'
  | error e t' =>
    obtain ⟨s', hx, hR'⟩ := h.error hR hy
    rw [Prog.bind_error hx, Prog.bind_error hy]
    exact .error hR'
  | stop c =>
    rw [Prog.bind_stop hy]
    rw [hy] at hxy
    cases hx : x s with
    | ok b s' => rw [hx] at hxy; cases hxy <;> constructor
    | error f s' => rw [hx] at hxy; cases hxy <;> constructor
    | stop c' => rw [hx] at hxy; rw [Prog.bind_stop hx]; cases hxy <;> constructor

theorem orPanic {x : Prog ε σ α} {y : Prog ε τ α} (h : Sim R x y) :
    Sim R (Prog.orPanic x) (Prog.orPanic y) := by
  intro s t hR
  have hxy := h hR
  unfold Prog.orPanic
  generalize x s = o at hxy
  generalize y t = o' at hxy
  cases hxy with
  | ok hR' => exact .ok hR'
  | error _ => exact .stop
  | stop => exact .stop
  | diverged => exact .diverged
  | outside => exact .outside

theorem attempt {x : Prog ε σ α} {y : Prog ε τ α} (h : Sim R x y) :
    Sim R (Prog.attempt x) (Prog.attempt y) := by
  intro s t hR
  have hxy := h hR
  unfold Prog.attempt
  generalize x s = o at hxy
  generalize y t = o' at hxy
  cases hxy with
  | ok hR' => exact .ok hR'
  | error hR' => exact .ok hR'
  | stop => exact .stop
  | diverged => exact .diverged
  | outside => exact .outside

theorem demand (o : Option α) : Sim (ε := ε) R (Prog.demand o) (Prog.demand o) := by
  cases o with
  | none => exact halt _
  | some a => exact ret a

theorem element (l : List α) (i : Nat) :
    Sim (ε := ε) R (Prog.element l i) (Prog.element l i) := demand _

theorem require (b : Prop) [Decidable b] : Sim (ε := ε) R (Prog.require b) (Prog.require b) := by
  unfold Prog.require
  split
  · exact ret ()
  · exact halt _

theorem ite {b : Prop} [Decidable b] {x x' : Prog ε σ α} {y y' : Prog ε τ α}
    (h : b → Sim R x y) (h' : ¬b → Sim R x' y') :
    Sim R (if b then x else x') (if b then y else y') := by
  split
  · exact h ‹_›
  · exact h' ‹_›

theorem ite_bind {b : Prop} [Decidable b] {x x' : Prog ε σ α} {y y' : Prog ε τ α}
    {f : α → Prog ε σ β} {g : α → Prog ε τ β} (h : Sim R x y) (h' : Sim R x' y')
    (hf : ∀ a, Sim R (f a) (g a)) :
    Sim R (if b then x >>= f else x' >>= f) (if b then y >>= g else y' >>= g) :=
  ite (fun _ => h.bind hf) fun _ => h'.bind hf

theorem get_bind {f : σ → Prog ε σ α} {g : τ → Prog ε τ α}
    (h : ∀ ⦃s t⦄, R s t → Sim R (f s) (g t)) : Sim R (Prog.get >>= f) (Prog.get >>= g) := by
  intro s t hR
  rw [Prog.get_bind, Prog.get_bind]
  exact h hR hR

theorem modify {f : σ → σ} {g : τ → τ} (h : ∀ ⦃s t⦄, R s t → R (f s) (g t)) :
    Sim (ε := ε) R (Prog.modify f) (Prog.modify g) := fun _ _ hR => .ok (h hR)

theorem zoom {σ' τ' : Type} {R' : σ' → τ' → Prop} {part : σ' → σ} {put : σ → σ' → σ'}
    {part' : τ' → τ} {put' : τ → τ' → τ'} {x : Prog ε σ α} {y : Prog ε τ α} (h : Sim R x y)
    (hpart : ∀ ⦃s t⦄, R' s t → R (part s) (part' t))
    (hput : ∀ ⦃s t a b⦄, R' s t → R a b → R' (put a s) (put' b t)) :
    Sim R' (Prog.zoom part put x) (Prog.zoom part' put' y) := by
  intro s t hR
  have hxy := h (hpart hR)
  unfold Prog.zoom
  generalize x (part s) = o at hxy
  generalize y (part' t) = o' at hxy
  cases hxy with
  | ok hR' => exact .ok (hput hR hR')
  | error hR' => exact .error (hput hR hR')
  | stop => exact .stop
  | diverged => exact .diverged
  | outside => exact .outside

theorem forEach {body : ι → Prog ε σ Unit} {body' : ι → Prog ε τ Unit}
    (h : ∀ i, Sim R (body i) (body' i)) :
    ∀ is : List ι, Sim R (Prog.forEach body is) (Prog.forEach body' is)
  | [] => ret ()
  | i :: is => (h i).bind fun _ => forEach h is

end Sim

end Outcomes
