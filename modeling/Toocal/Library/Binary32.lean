import Mathlib.Data.Int.Log
import Mathlib.Data.Rat.Floor
import Mathlib.Algebra.Order.Field.Rat
import Mathlib.Tactic.Linarith
import Mathlib.Tactic.NormNum

/-!
# Binary32

Rounding to the nearest binary32, to the even one of two.  The numbers are rational: there
are no infinities, so what is past the largest finite number is rounded as if the exponent
could grow.

* `nearest_mono`: rounding keeps the order of numbers that are not negative.
* `nearest_idem`: what has been rounded is rounded to itself.
* `nearest_natCast`: whole numbers up to `2 ^ 24` are exact.
* `nearest_error`: half a unit is the most that is lost.
-/

namespace Binary32

/-! ## Whole numbers -/

/-- The nearest whole number, the even one of two. -/
def roundEven (q : ℚ) : ℤ :=
  if 2 * Int.fract q < 1 ∨ 2 * Int.fract q = 1 ∧ Even ⌊q⌋ then ⌊q⌋ else ⌊q⌋ + 1

theorem floor_le_roundEven (q : ℚ) : ⌊q⌋ ≤ roundEven q := by
  rw [roundEven]
  split <;> omega

theorem roundEven_le_floor (q : ℚ) : roundEven q ≤ ⌊q⌋ + 1 := by
  rw [roundEven]
  split <;> omega

theorem roundEven_mono {a b : ℚ} (h : a ≤ b) : roundEven a ≤ roundEven b := by
  rcases (Int.floor_mono h).lt_or_eq with hlt | heq
  · exact (roundEven_le_floor a).trans ((Int.add_one_le_of_lt hlt).trans (floor_le_roundEven b))
  · have hfract : Int.fract a ≤ Int.fract b := by
      rw [Int.fract, Int.fract, heq]
      linarith
    rw [roundEven, roundEven, heq]
    split
    next => split <;> omega
    next ha =>
      have hb : ¬(2 * Int.fract b < 1 ∨ 2 * Int.fract b = 1 ∧ Even ⌊b⌋) := by
        rintro (hb | ⟨hb, heven⟩)
        · exact ha (.inl (by linarith))
        · rcases (show 2 * Int.fract a ≤ 1 by linarith).lt_or_eq with hlt | he
          · exact ha (.inl hlt)
          · exact ha (.inr ⟨he, heven⟩)
      rw [if_neg hb]

theorem roundEven_intCast (n : ℤ) : roundEven n = n := by
  rw [roundEven, Int.fract_intCast, if_pos (.inl (by norm_num)), Int.floor_intCast]

theorem roundEven_error (q : ℚ) : |q - roundEven q| ≤ 1 / 2 := by
  have hq : (⌊q⌋ : ℚ) + Int.fract q = q := Int.floor_add_fract q
  have h0 := Int.fract_nonneg q
  have h1 := Int.fract_lt_one q
  rw [abs_le, roundEven]
  split
  next h =>
    have hle : 2 * Int.fract q ≤ 1 := h.elim le_of_lt fun h => h.1.le
    constructor <;> linarith
  next h =>
    have hle : 1 ≤ 2 * Int.fract q := not_lt.mp fun hlt => h (.inl hlt)
    push_cast
    constructor <;> linarith

/-! ## The nearest binary32 -/

/-- The exponent of the last place: 24 places below the first one, but not below the
subnormal numbers. -/
def lastPlace (q : ℚ) : ℤ := max (Int.log 2 |q| - 23) (-149)

/-- The binary32 nearest to `q`. -/
def nearest (q : ℚ) : ℚ := roundEven (q / 2 ^ lastPlace q) * 2 ^ lastPlace q

variable {a b q : ℚ}

theorem two_zpow_pos (n : ℤ) : (0 : ℚ) < 2 ^ n := zpow_pos (by norm_num) n

theorem lastPlace_mono (ha : 0 < a) (h : a ≤ b) : lastPlace a ≤ lastPlace b := by
  have hlog : Int.log 2 |a| ≤ Int.log 2 |b| :=
    Int.log_mono_right (abs_pos.mpr ha.ne') (abs_le_abs_of_nonneg ha.le h)
  exact max_le_max (Int.sub_le_sub_right hlog 23) le_rfl

theorem lt_two_zpow (q : ℚ) : |q| < 2 ^ (lastPlace q + 24) := by
  have hlog : |q| < ((2 : ℕ) : ℚ) ^ (Int.log 2 |q| + 1) :=
    Int.lt_zpow_succ_log_self (by norm_num) |q|
  refine lt_of_lt_of_le hlog (zpow_le_zpow_right₀ (by norm_num) ?_)
  have := le_max_left (Int.log 2 |q| - 23) (-149)
  rw [lastPlace]
  omega

theorem two_zpow_le (hq : q ≠ 0) (h : -149 < lastPlace q) : 2 ^ (lastPlace q + 23) ≤ |q| := by
  have hlog : ((2 : ℕ) : ℚ) ^ Int.log 2 |q| ≤ |q| :=
    Int.zpow_log_le_self (by norm_num) (abs_pos.mpr hq)
  have he : lastPlace q + 23 = Int.log 2 |q| := by
    rw [lastPlace] at h ⊢
    omega
  rw [he]
  exact_mod_cast hlog

@[simp] theorem nearest_zero : nearest 0 = 0 := by
  have h : roundEven 0 = 0 := roundEven_intCast 0
  rw [nearest, zero_div, h, Int.cast_zero, zero_mul]

theorem nearest_of_multiple {m u : ℤ} (hq : q = m * 2 ^ u) (hu : lastPlace q ≤ u) :
    nearest q = q := by
  obtain ⟨k, hk⟩ := Int.le.dest hu
  have hwhole : q / 2 ^ lastPlace q = ((m * 2 ^ k : ℤ) : ℚ) := by
    have hpow : (2 : ℚ) ^ u = 2 ^ k * 2 ^ lastPlace q := by
      rw [← hk, zpow_add₀ (by norm_num), zpow_natCast, mul_comm]
    rw [div_eq_iff (two_zpow_pos _).ne', Int.cast_mul, Int.cast_pow, Int.cast_ofNat, mul_assoc,
      ← hpow]
    exact hq
  rw [nearest, hwhole, roundEven_intCast, ← hwhole, div_mul_cancel₀ _ (two_zpow_pos _).ne']

theorem nearest_of_lt {m u : ℤ} (hm : m.natAbs < 2 ^ 24) (hu : -149 ≤ u) (hq : q = m * 2 ^ u) :
    nearest q = q := by
  rcases eq_or_ne q 0 with rfl | hne
  · exact nearest_zero
  · refine nearest_of_multiple hq (max_le ?_ hu)
    have habs : |q| < ((2 : ℕ) : ℚ) ^ (u + 24) := by
      rw [hq, abs_mul, abs_of_pos (two_zpow_pos u), Nat.cast_ofNat, zpow_add₀ (by norm_num), mul_comm]
      refine mul_lt_mul_of_pos_left ?_ (two_zpow_pos u)
      rw [← Int.cast_abs, ← Int.natCast_natAbs]
      exact_mod_cast hm
    have := (Int.lt_zpow_iff_log_lt (by norm_num) (abs_pos.mpr hne)).mp habs
    omega

theorem nearest_of_le {m u : ℤ} (hm : m.natAbs ≤ 2 ^ 24) (hu : -149 ≤ u) (hq : q = m * 2 ^ u) :
    nearest q = q := by
  rcases hm.lt_or_eq with hlt | heq
  · exact nearest_of_lt hlt hu hq
  · -- a power of two, which has one place only
    obtain ⟨k, rfl⟩ : ∃ k, m = 2 * k := ⟨m / 2, by omega⟩
    refine nearest_of_lt (m := k) (u := u + 1) (by omega) (by omega) ?_
    rw [hq, zpow_add_one₀ (by norm_num), Int.cast_mul, Int.cast_ofNat]
    ring

/-- **Whole numbers of up to 24 places are exact.** -/
theorem nearest_natCast {n : ℕ} (hn : n ≤ 2 ^ 24) : nearest n = n :=
  nearest_of_le (m := n) (u := 0) (by omega) (by norm_num) (by simp)

/-! ## Rounding and order -/

theorem nearest_nonneg (hq : 0 ≤ q) : 0 ≤ nearest q := by
  have h0 : roundEven 0 ≤ roundEven (q / 2 ^ lastPlace q) :=
    roundEven_mono (div_nonneg hq (two_zpow_pos _).le)
  rw [show roundEven 0 = 0 from roundEven_intCast 0] at h0
  exact mul_nonneg (by exact_mod_cast h0) (two_zpow_pos _).le

theorem nearest_le_two_zpow {n : ℕ} (h : q ≤ 2 ^ (lastPlace q + n)) :
    nearest q ≤ 2 ^ (lastPlace q + n) := by
  rw [zpow_add₀ (by norm_num), zpow_natCast, mul_comm] at h ⊢
  have hdiv : roundEven (q / 2 ^ lastPlace q) ≤ 2 ^ n := by
    have hmono := roundEven_mono (div_le_of_le_mul₀ (two_zpow_pos _).le (by positivity) h)
    have hpow : roundEven (2 ^ n) = 2 ^ n := by exact_mod_cast roundEven_intCast (2 ^ n)
    rwa [hpow] at hmono
  exact mul_le_mul_of_nonneg_right (by exact_mod_cast hdiv) (two_zpow_pos _).le

theorem two_zpow_le_nearest {n : ℕ} (h : 2 ^ (lastPlace q + n) ≤ q) :
    2 ^ (lastPlace q + n) ≤ nearest q := by
  rw [zpow_add₀ (by norm_num), zpow_natCast, mul_comm] at h ⊢
  have hdiv : 2 ^ n ≤ roundEven (q / 2 ^ lastPlace q) := by
    have hmono := roundEven_mono ((le_div_iff₀ (two_zpow_pos _)).mpr h)
    have hpow : roundEven (2 ^ n) = 2 ^ n := by exact_mod_cast roundEven_intCast (2 ^ n)
    rwa [hpow] at hmono
  exact mul_le_mul_of_nonneg_right (by exact_mod_cast hdiv) (two_zpow_pos _).le

/-- **Rounding keeps the order.** -/
theorem nearest_mono (ha : 0 ≤ a) (h : a ≤ b) : nearest a ≤ nearest b := by
  rcases ha.lt_or_eq with ha | rfl
  · rcases (lastPlace_mono ha h).lt_or_eq with hlt | heq
    · -- a power of two stands between them
      have hb := ha.trans_le h
      have hleft : nearest a ≤ 2 ^ (lastPlace a + 24) :=
        nearest_le_two_zpow ((le_abs_self a).trans (lt_two_zpow a).le)
      have hright : 2 ^ (lastPlace b + 23) ≤ nearest b := by
        refine two_zpow_le_nearest ?_
        have hpow := two_zpow_le hb.ne' (lt_of_le_of_lt (le_max_right _ _) hlt)
        rwa [abs_of_pos hb] at hpow
      exact hleft.trans ((zpow_le_zpow_right₀ (by norm_num) (by omega)).trans hright)
    · rw [nearest, nearest, heq]
      refine mul_le_mul_of_nonneg_right ?_ (two_zpow_pos _).le
      exact_mod_cast roundEven_mono (div_le_div_of_nonneg_right h (two_zpow_pos _).le)
  · rw [nearest_zero]
    exact nearest_nonneg h

/-- **What has been rounded stays as it is.** -/
theorem nearest_idem (q : ℚ) : nearest (nearest q) = nearest q := by
  refine nearest_of_le (m := roundEven (q / 2 ^ lastPlace q)) (u := lastPlace q) ?_
    (le_max_right _ _) rfl
  have hpos := two_zpow_pos (lastPlace q)
  have habs : |q / 2 ^ lastPlace q| ≤ ((2 ^ 24 : ℤ) : ℚ) := by
    rw [abs_div, abs_of_pos hpos, div_le_iff₀ hpos]
    have hlt := (lt_two_zpow q).le
    rw [zpow_add₀ (by norm_num), mul_comm] at hlt
    exact_mod_cast hlt
  obtain ⟨hlow, hhigh⟩ := abs_le.mp habs
  have h₁ : -2 ^ 24 ≤ roundEven (q / 2 ^ lastPlace q) := by
    rw [← roundEven_intCast (-2 ^ 24)]
    exact roundEven_mono (by exact_mod_cast hlow)
  have h₂ : roundEven (q / 2 ^ lastPlace q) ≤ 2 ^ 24 := by
    rw [← roundEven_intCast (2 ^ 24)]
    exact roundEven_mono hhigh
  omega

/-- The numbers with exponent `n` have their last place 23 places below it. -/
theorem lastPlace_eq {n : ℤ} (hn : -126 ≤ n) (hlow : 2 ^ n ≤ q) (hhigh : q < 2 ^ (n + 1)) :
    lastPlace q = n - 23 := by
  have hq : 0 < q := (two_zpow_pos n).trans_le hlow
  have h₁ : n ≤ Int.log 2 q := (Int.zpow_le_iff_le_log (by norm_num) hq).mp (by exact_mod_cast hlow)
  have h₂ : Int.log 2 q < n + 1 := (Int.lt_zpow_iff_log_lt (by norm_num) hq).mp (by exact_mod_cast hhigh)
  rw [lastPlace, abs_of_pos hq]
  omega

/-- Half a unit of the last place is the most that rounding changes. -/
theorem nearest_error (q : ℚ) : |q - nearest q| ≤ 2 ^ lastPlace q / 2 := by
  have hpos := two_zpow_pos (lastPlace q)
  have he : q - nearest q =
      (q / 2 ^ lastPlace q - roundEven (q / 2 ^ lastPlace q)) * 2 ^ lastPlace q := by
    rw [sub_mul, div_mul_cancel₀ _ hpos.ne', nearest]
  rw [he, abs_mul, abs_of_pos hpos]
  have := mul_le_mul_of_nonneg_right (roundEven_error (q / 2 ^ lastPlace q)) hpos.le
  linarith

end Binary32
