import Mathlib.Data.Fintype.Card
import Mathlib.Data.Fintype.Pigeonhole
import Mathlib.Tactic.Common

/-!
# Descents

`next` is where a descent goes on from a place, if it does.  One that looks at fewer places
than it makes steps has come to a place twice, and never ends (`endless_of_long`).
-/

namespace Descents

variable {σ : Type} {next : σ → Option σ} {s t : σ}

/-- Where the descent is after some steps. -/
def after (next : σ → Option σ) : Nat → σ → Option σ
  | 0, s => some s
  | n + 1, s => (next s).bind (after next n)

/-- The descent from `s` comes to `t`. -/
def Leads (next : σ → Option σ) (s t : σ) : Prop := ∃ n, after next n s = some t

def Endless (next : σ → Option σ) (s : σ) : Prop := ∀ n, (after next n s).isSome

theorem after_add (m n : Nat) (s : σ) : after next (m + n) s = (after next m s).bind (after next n) := by
  induction m generalizing s with
  | zero => rw [Nat.zero_add]; rfl
  | succ m ih =>
    rw [Nat.succ_add, after, after, Option.bind_assoc]
    exact congrArg _ (funext ih)

theorem after_succ (n : Nat) (s : σ) : after next (n + 1) s = (after next n s).bind next := by
  rw [after_add]
  refine congrArg _ (funext fun t => ?_)
  rw [after]
  exact Option.bind_fun_some (next t)

theorem isSome_after_of_le {m n : Nat} (h : (after next n s).isSome) (hle : m ≤ n) :
    (after next m s).isSome := by
  obtain ⟨k, rfl⟩ := Nat.exists_eq_add_of_le hle
  rw [after_add] at h
  exact Option.isSome_of_isSome_bind h

theorem Leads.invariant {P : σ → Prop} (h : Leads next s t) (hstart : P s)
    (hstep : ∀ {t u}, next t = some u → P u) : P t := by
  obtain ⟨n, hn⟩ := h
  cases n with
  | zero => exact Option.some.inj hn ▸ hstart
  | succ n =>
    rw [after_succ, Option.bind_eq_some_iff] at hn
    obtain ⟨u, -, hu⟩ := hn
    exact hstep hu

theorem Endless.not_leads (h : Endless next s) (ht : next t = none) : ¬Leads next s t := by
  rintro ⟨n, hn⟩
  have := h (n + 1)
  rw [after_succ, hn, Option.bind_some, ht] at this
  cases this

theorem Leads.unique {u : σ} (h : Leads next s t) (h' : Leads next s u) (ht : next t = none)
    (hu : next u = none) : t = u := by
  obtain ⟨m, hm⟩ := h
  obtain ⟨n, hn⟩ := h'
  have hmore : ∀ {m n : Nat} {t u : σ}, after next m s = some t → after next n s = some u →
      next t = none → m ≤ n → t = u := by
    intro m n t u hm hn ht hle
    obtain ⟨k, rfl⟩ := Nat.exists_eq_add_of_le hle
    rw [after_add, hm, Option.bind_some] at hn
    cases k with
    | zero => exact Option.some.inj hn
    | succ k =>
      rw [after, ht] at hn
      cases hn
  rcases Nat.le_total m n with hle | hle
  · exact hmore hm hn ht hle
  · exact (hmore hn hm hu hle).symm

theorem endless_iff_chain :
    Endless next s ↔ ∃ chain : Nat → σ, chain 0 = s ∧ ∀ n, next (chain n) = some (chain (n + 1)) := by
  constructor
  · intro h
    choose chain hchain using fun n => Option.isSome_iff_exists.mp (h n)
    refine ⟨chain, Option.some.inj (hchain 0).symm, fun n => ?_⟩
    have hnext := hchain (n + 1)
    rwa [after_succ, hchain n, Option.bind_some] at hnext
  · rintro ⟨chain, rfl, hchain⟩ n
    have hafter : after next n (chain 0) = some (chain n) := by
      induction n with
      | zero => rfl
      | succ n ih => rw [after_succ, ih, Option.bind_some, hchain]
    rw [hafter]
    rfl

/-- **A descent that makes as many steps as there are places never ends**: it has come to a
place twice. -/
theorem endless_of_long {n : Nat} (look : σ → Nat)
    (hlook : ∀ {t u}, Leads next s t → Leads next s u → look t = look u → next t = next u)
    (hlt : ∀ {t}, Leads next s t → look t < n) (h : (after next n s).isSome) : Endless next s := by
  have hprefix : ∀ i : Fin (n + 1), ∃ t, after next i s = some t := fun i =>
    Option.isSome_iff_exists.mp (isSome_after_of_le h (Nat.le_of_lt_succ i.isLt))
  choose place hplace using hprefix
  have hleads : ∀ i, Leads next s (place i) := fun i => ⟨i, hplace i⟩
  obtain ⟨i, j, hne, hsame⟩ := Fintype.exists_ne_map_eq_of_card_lt
    (fun i => (⟨look (place i), hlt (hleads i)⟩ : Fin n)) (by simp)
  have hrepeat : ∀ {i j : Fin (n + 1)}, look (place i) = look (place j) → i < j →
      Endless next s := by
    intro i j hsame hij
    have hagain : after next (i + 1) s = after next (j + 1) s := by
      rw [after_succ, after_succ, hplace, hplace]
      exact hlook (hleads i) (hleads j) hsame
    intro m
    induction m using Nat.strong_induction_on with
    | _ m ih =>
      by_cases hm : m ≤ j
      · exact isSome_after_of_le h (Nat.le_trans hm (Nat.le_of_lt_succ j.isLt))
      · -- behind the second visit everything is as behind the first
        obtain ⟨k, rfl⟩ := Nat.exists_eq_add_of_le (Nat.lt_of_not_le hm)
        rw [after_add, Nat.succ_eq_add_one, ← hagain, ← after_add]
        exact ih _ (by have : (i : Nat) < j := hij; omega)
  have hsame : look (place i) = look (place j) := congrArg Fin.val hsame
  rcases lt_or_gt_of_ne hne with hij | hij
  · exact hrepeat hsame hij
  · exact hrepeat hsame.symm hij

/-! ## Loops with fuel -/

variable {π β : Type} {stuck : β} {loop : Nat → σ → π → β} {p : π}

/-- `loop` follows the descent for as many steps as it has fuel, where it would be `stuck`;
beside the place it keeps something of its own. -/
structure Follows (next : σ → Option σ) (stuck : β) (loop : Nat → σ → π → β) : Prop where
  zero : ∀ s p, loop 0 s p = stuck
  step : ∀ {s t}, next s = some t → ∀ p, ∃ q, ∀ fuel, loop (fuel + 1) s p = loop fuel t q
  done : ∀ {s}, next s = none → ∀ fuel p, loop (fuel + 1) s p = loop 1 s p ∧ loop 1 s p ≠ stuck

namespace Follows

/-- The loop ends where the descent ends, if it has the fuel for it. -/
theorem of_after (h : Follows next stuck loop) {k : Nat} (hk : after next k s = some t)
    (ht : next t = none) (p : π) : ∃ q, ∀ n, k < n → loop n s p = loop 1 t q := by
  induction k generalizing s p with
  | zero =>
    obtain rfl := Option.some.inj hk
    refine ⟨p, fun n hn => ?_⟩
    obtain ⟨fuel, rfl⟩ := Nat.exists_eq_add_of_lt hn
    rw [Nat.zero_add]
    exact (h.done ht fuel p).1
  | succ k ih =>
    rw [after, Option.bind_eq_some_iff] at hk
    obtain ⟨u, hu, hk⟩ := hk
    obtain ⟨q, hq⟩ := h.step hu p
    obtain ⟨r, hr⟩ := ih hk q
    refine ⟨r, fun n hn => ?_⟩
    obtain ⟨fuel, rfl⟩ : ∃ fuel, n = fuel + 1 := ⟨n - 1, by omega⟩
    rw [hq, hr fuel (by omega)]

/-- A descent that does not go on for so long has come to an end. -/
theorem exists_end {n : Nat} (hnone : after next n s = none) :
    ∃ k t, k < n ∧ after next k s = some t ∧ next t = none := by
  induction n with
  | zero => cases hnone
  | succ n ih =>
    cases hn : after next n s with
    | none =>
      obtain ⟨k, t, hk, ht⟩ := ih hn
      exact ⟨k, t, Nat.lt_succ_of_lt hk, ht⟩
    | some t =>
      rw [after_succ, hn, Option.bind_some] at hnone
      exact ⟨n, t, Nat.lt_succ_self n, hn, hnone⟩

/-- The loop is stuck if the descent goes on for longer than it has fuel. -/
theorem eq_stuck_iff (h : Follows next stuck loop) {n : Nat} :
    loop n s p = stuck ↔ (after next n s).isSome := by
  constructor
  · intro hstuck
    by_contra hnone
    obtain ⟨k, t, hk, hafter, ht⟩ := exists_end (Option.not_isSome_iff_eq_none.mp hnone)
    obtain ⟨q, hq⟩ := h.of_after hafter ht p
    exact (h.done ht 0 q).2 ((hq n hk).symm.trans hstuck)
  · intro hsome
    induction n generalizing s p with
    | zero => exact h.zero s p
    | succ n ih =>
      obtain ⟨t, ht⟩ := Option.isSome_iff_exists.mp hsome
      rw [after, Option.bind_eq_some_iff] at ht
      obtain ⟨u, hu, ht⟩ := ht
      obtain ⟨q, hq⟩ := h.step hu p
      rw [hq]
      exact ih (Option.isSome_iff_exists.mpr ⟨t, ht⟩)

/-- **Fuel enough to tell an endless descent is fuel enough.** -/
theorem stable (h : Follows next stuck loop) {n m : Nat}
    (henough : (after next n s).isSome → Endless next s) (hle : n ≤ m) (p : π) :
    loop m s p = loop n s p := by
  cases hn : after next n s with
  | some t =>
    have hendless := henough (by rw [hn]; rfl)
    rw [h.eq_stuck_iff.mpr (hendless n), h.eq_stuck_iff.mpr (hendless m)]
  | none =>
    obtain ⟨k, t, hk, hafter, ht⟩ := exists_end hn
    obtain ⟨q, hq⟩ := h.of_after hafter ht p
    rw [hq m (by omega), hq n hk]

end Follows

end Descents
