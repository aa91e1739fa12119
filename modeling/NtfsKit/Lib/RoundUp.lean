import Mathlib.Tactic

/-! Rounding a byte offset up to a multiple of a block length, as block-granular
code computes it. -/

namespace NtfsKit

/-- The least multiple of `m` at or above `x`. -/
def roundUp (m x : ℤ) : ℤ := (x + m - 1) / m * m

variable {m x y : ℤ}

theorem le_roundUp (hm : 0 < m) (x : ℤ) : x ≤ roundUp m x := by
  have h1 := Int.mul_ediv_add_emod (x + m - 1) m
  have h2 := Int.emod_lt_of_pos (x + m - 1) hm
  rw [mul_comm] at h1
  unfold roundUp
  omega

theorem roundUp_lt (hm : 0 < m) (x : ℤ) : roundUp m x < x + m := by
  have h1 := Int.mul_ediv_add_emod (x + m - 1) m
  have h2 := Int.emod_nonneg (x + m - 1) hm.ne'
  rw [mul_comm] at h1
  unfold roundUp
  omega

theorem dvd_roundUp (m x : ℤ) : m ∣ roundUp m x := Dvd.intro_left _ rfl

/-- No multiple of `m` lies strictly between `x` and its round-up. -/
theorem roundUp_le (hm : 0 < m) (h : x ≤ y) (hy : m ∣ y) : roundUp m x ≤ y := by
  have hlt := roundUp_lt hm x
  obtain ⟨k, rfl⟩ := hy
  obtain ⟨j, hj⟩ := dvd_roundUp m x
  rw [hj] at hlt ⊢
  refine Int.mul_le_mul_of_nonneg_left ?_ hm.le
  by_contra hk
  have : m * (k + 1) ≤ m * j := Int.mul_le_mul_of_nonneg_left (by omega) hm.le
  rw [mul_add] at this
  omega

theorem roundUp_mono (hm : 0 < m) (h : x ≤ y) : roundUp m x ≤ roundUp m y :=
  roundUp_le hm (h.trans (le_roundUp hm y)) (dvd_roundUp m y)

theorem roundUp_of_dvd (hm : 0 < m) (h : m ∣ x) : roundUp m x = x :=
  le_antisymm (roundUp_le hm le_rfl h) (le_roundUp hm x)

/-- Two bytes of one block are below the same round-ups to a multiple of the block. -/
theorem roundUp_dvd_le {c : ℤ} (hm : 0 < m) (hc : 0 < c) (h : m ∣ c) (x : ℤ) :
    roundUp m x ≤ roundUp c x :=
  roundUp_le hm (le_roundUp hc x) (h.trans (dvd_roundUp c x))

end NtfsKit
