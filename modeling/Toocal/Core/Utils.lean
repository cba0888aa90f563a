import Toocal.Library.Search

/-!
# Byte strings and their order

`Safecmp::bytescmp` of `core/utils.cpp`.  `KeyLt a b` is `bytescmp a b = -1`; it
is a strict total order (`keyLt_strictTotalOrder`), and `0` means equality
(`bytescmp_eq_zero_iff`).
-/

namespace Toocal

open Multiway

/-- `std::vector<uint8_t>`. -/
abbrev Bytes := List UInt8

/-- `Safecmp::bytescmp`: the loop over the common length, then the sizes. -/
def bytescmp : Bytes → Bytes → Int
  | a :: k1, b :: k2 => if a ≠ b then (if a < b then -1 else 1) else bytescmp k1 k2
  | [], [] => 0
  | [], _ :: _ => -1
  | _ :: _, [] => 1

/-- The order `bytescmp` decides. -/
def KeyLt (a b : Bytes) : Prop := bytescmp a b = -1

instance (a b : Bytes) : Decidable (KeyLt a b) := inferInstanceAs (Decidable (_ = _))

theorem bytescmp_cons_self (a : UInt8) (k1 k2 : Bytes) :
    bytescmp (a :: k1) (a :: k2) = bytescmp k1 k2 := by simp [bytescmp]

theorem bytescmp_cons_lt {a b : UInt8} (h : a < b) (k1 k2 : Bytes) :
    bytescmp (a :: k1) (b :: k2) = -1 := by
  have hne : a ≠ b := fun he => absurd (he ▸ h) (by simp)
  simp [bytescmp, hne, h]

theorem bytescmp_cons_gt {a b : UInt8} (h : b < a) (k1 k2 : Bytes) :
    bytescmp (a :: k1) (b :: k2) = 1 := by
  have hne : a ≠ b := fun he => absurd (he ▸ h) (by simp)
  have hlt : ¬ a < b := by rw [UInt8.lt_iff_toNat_lt] at h ⊢; omega
  simp [bytescmp, hne, hlt]

theorem byte_trichotomy (a b : UInt8) : a < b ∨ a = b ∨ b < a := by
  rw [UInt8.lt_iff_toNat_lt, UInt8.lt_iff_toNat_lt, ← UInt8.toNat_inj]
  omega

/-- `bytescmp` returns `-1`, `0` or `1`. -/
theorem bytescmp_range : ∀ a b : Bytes, bytescmp a b = -1 ∨ bytescmp a b = 0 ∨ bytescmp a b = 1
  | [], [] => Or.inr (Or.inl rfl)
  | [], _ :: _ => Or.inl rfl
  | _ :: _, [] => Or.inr (Or.inr rfl)
  | a :: k1, b :: k2 => by
    rcases byte_trichotomy a b with h | rfl | h
    · exact Or.inl (bytescmp_cons_lt h k1 k2)
    · rw [bytescmp_cons_self]; exact bytescmp_range k1 k2
    · exact Or.inr (Or.inr (bytescmp_cons_gt h k1 k2))

theorem bytescmp_eq_zero_iff : ∀ {a b : Bytes}, bytescmp a b = 0 ↔ a = b
  | [], [] => by simp [bytescmp]
  | [], _ :: _ => by simp [bytescmp]
  | _ :: _, [] => by simp [bytescmp]
  | a :: k1, b :: k2 => by
    rcases byte_trichotomy a b with h | rfl | h
    · have hne : a ≠ b := fun he => absurd (he ▸ h) (by simp)
      rw [bytescmp_cons_lt h]; simp [hne]
    · rw [bytescmp_cons_self, bytescmp_eq_zero_iff]; simp
    · have hne : a ≠ b := fun he => absurd (he ▸ h) (by simp)
      rw [bytescmp_cons_gt h]; simp [hne]

theorem bytescmp_swap : ∀ a b : Bytes, bytescmp b a = -bytescmp a b
  | [], [] => rfl
  | [], _ :: _ => rfl
  | _ :: _, [] => rfl
  | a :: k1, b :: k2 => by
    rcases byte_trichotomy a b with h | rfl | h
    · rw [bytescmp_cons_lt h, bytescmp_cons_gt h]; rfl
    · rw [bytescmp_cons_self, bytescmp_cons_self]; exact bytescmp_swap k1 k2
    · rw [bytescmp_cons_lt h, bytescmp_cons_gt h]

theorem bytescmp_eq_one_iff {a b : Bytes} : bytescmp a b = 1 ↔ KeyLt b a := by
  rw [KeyLt, bytescmp_swap a b]; omega

theorem keyLt_trans : ∀ {a b c : Bytes}, KeyLt a b → KeyLt b c → KeyLt a c
  | [], _ :: _, _ :: _, _, _ => rfl
  | [], [], _, h, _ => absurd h (by decide)
  | _ :: _, [], _, h, _ => absurd h (by simp [KeyLt, bytescmp])
  | _, _ :: _, [], _, h => absurd h (by simp [KeyLt, bytescmp])
  | a :: k1, b :: k2, c :: k3, hab, hbc => by
    unfold KeyLt at *
    rcases byte_trichotomy a b with h | rfl | h
    · rcases byte_trichotomy b c with h' | rfl | h'
      · exact bytescmp_cons_lt (UInt8.lt_trans h h') k1 k3
      · exact bytescmp_cons_lt h k1 k3
      · rw [bytescmp_cons_gt h'] at hbc; omega
    · rcases byte_trichotomy a c with h' | rfl | h'
      · exact bytescmp_cons_lt h' k1 k3
      · rw [bytescmp_cons_self] at *
        exact keyLt_trans hab hbc
      · rw [bytescmp_cons_gt h'] at hbc; omega
    · rw [bytescmp_cons_gt h] at hab; omega

instance keyLt_strictTotalOrder : IsStrictTotalOrder Bytes KeyLt where
  irrefl a h := by
    have h0 : bytescmp a a = 0 := bytescmp_eq_zero_iff.mpr rfl
    rw [KeyLt, h0] at h; omega
  trans _ _ _ := keyLt_trans
  trichotomous a b hab hba := by
    rcases bytescmp_range a b with h | h | h
    · exact absurd h hab
    · exact bytescmp_eq_zero_iff.mp h
    · exact absurd (bytescmp_eq_one_iff.mp h) hba

end Toocal
