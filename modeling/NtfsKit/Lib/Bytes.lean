import Mathlib.Data.List.GetD
import Mathlib.Tactic

/-! Byte buffers and the little-endian numbers stored in them. A number is written by putting
its bytes down at an offset, and read back from the bytes found there. -/

namespace NtfsKit

/-- The byte at offset `i`, 0 behind the end. -/
def byteAt (b : List UInt8) (i : ℕ) : UInt8 := b.getD i 0

/-- The lowest `w` bytes of `n`, the least one first. -/
def leBytes : ℕ → ℕ → List UInt8
  | 0, _ => []
  | w + 1, n => UInt8.ofNat n :: leBytes w (n / 256)

/-- The number in the `w` bytes from offset `o` on. -/
def leAt (b : List UInt8) (o : ℕ) : ℕ → ℕ
  | 0 => 0
  | w + 1 => (byteAt b o).toNat + 256 * leAt b (o + 1) w

/-- The buffer with `x` put down at offset `o`. -/
def patch (b : List UInt8) (o : ℕ) (x : List UInt8) : List UInt8 :=
  b.take o ++ x ++ b.drop (o + x.length)

/-- The bytes `x` stand at offset `o`. -/
def Holds (b : List UInt8) (o : ℕ) (x : List UInt8) : Prop :=
  ∀ i, i < x.length → byteAt b (o + i) = byteAt x i

instance (b : List UInt8) (o : ℕ) (x : List UInt8) : Decidable (Holds b o x) :=
  inferInstanceAs (Decidable (∀ i, i < x.length → byteAt b (o + i) = byteAt x i))

@[simp] theorem length_leBytes : ∀ w n : ℕ, (leBytes w n).length = w
  | 0, _ => rfl
  | w + 1, n => congrArg (· + 1) (length_leBytes w (n / 256))

/-! ### Reading -/

section Read

variable {b c x y : List UInt8} {o i w : ℕ}

theorem leAt_congr : ∀ {w o : ℕ}, (∀ i, i < w → byteAt b (o + i) = byteAt c (o + i)) →
    leAt b o w = leAt c o w
  | 0, _, _ => rfl
  | w + 1, o, h => by
    have hhead : byteAt b o = byteAt c o := h 0 (by omega)
    have htail : leAt b (o + 1) w = leAt c (o + 1) w := leAt_congr fun i hi => by
      rw [show o + 1 + i = o + (i + 1) by omega]
      exact h (i + 1) (by omega)
    rw [leAt, leAt, hhead, htail]

theorem leAt_lt (b : List UInt8) : ∀ o w : ℕ, leAt b o w < 256 ^ w
  | _, 0 => by simp [leAt]
  | o, w + 1 => by
    have hb := (byteAt b o).toNat_lt
    have hw := leAt_lt b (o + 1) w
    rw [leAt, pow_succ]
    omega

/-- A number that stands in the buffer is read back, up to the width of its field. -/
theorem Holds.leAt : ∀ {w o n : ℕ}, Holds b o (leBytes w n) → leAt b o w = n % 256 ^ w
  | 0, _, n, _ => by simp [NtfsKit.leAt, Nat.mod_one]
  | w + 1, o, n, h => by
    have hhead : byteAt b o = UInt8.ofNat n := h 0 (by simp)
    have htail : Holds b (o + 1) (leBytes w (n / 256)) := fun i hi => by
      rw [show o + 1 + i = o + (i + 1) by omega]
      exact h (i + 1) (by simpa using hi)
    rw [NtfsKit.leAt, htail.leAt, hhead, UInt8.toNat_ofNat', pow_succ' 256, Nat.mod_mul]

theorem Holds.leAt_of_lt {n : ℕ} (h : Holds b o (leBytes w n)) (hn : n < 256 ^ w) :
    NtfsKit.leAt b o w = n := by
  rw [h.leAt, Nat.mod_eq_of_lt hn]

theorem Holds.self (x : List UInt8) : Holds x 0 x := fun i _ => by rw [Nat.zero_add]

theorem Holds.append_left (h : Holds b o (x ++ y)) : Holds b o x := fun i hi => by
  rw [h i (by rw [List.length_append]; omega)]
  exact List.getD_append _ _ _ _ hi

theorem Holds.append_right (h : Holds b o (x ++ y)) : Holds b (o + x.length) y := fun i hi => by
  rw [show o + x.length + i = o + (x.length + i) by omega,
    h (x.length + i) (by rw [List.length_append]; omega)]
  rw [byteAt, List.getD_append_right _ _ _ _ (by omega), Nat.add_sub_cancel_left]
  rfl

theorem Holds.congr (h : Holds b o x) (hc : ∀ i, o ≤ i → i < o + x.length → byteAt c i = byteAt b i) :
    Holds c o x := fun i hi => by
  rw [hc (o + i) (by omega) (by omega)]
  exact h i hi

/-- A number inside what stands in the buffer. -/
theorem Holds.leAt_inside (h : Holds b o x) : ∀ {w i : ℕ}, i + w ≤ x.length →
    NtfsKit.leAt b (o + i) w = NtfsKit.leAt x i w
  | 0, _, _ => rfl
  | w + 1, i, hi => by
    have htail := h.leAt_inside (show i + 1 + w ≤ x.length by omega)
    rw [NtfsKit.leAt, NtfsKit.leAt, h i (by omega), show o + i + 1 = o + (i + 1) by omega, htail]

/-- Bytes that stand in the buffer are cut out of it. -/
theorem Holds.slice (h : Holds b o x) (hle : o + x.length ≤ b.length) :
    (b.drop o).take x.length = x := by
  refine List.ext_getElem? fun i => ?_
  by_cases hi : i < x.length
  · have hbyte := h i hi
    rw [byteAt, byteAt, List.getD_eq_getElem _ _ (by omega), List.getD_eq_getElem _ _ hi] at hbyte
    rw [List.getElem?_take_of_lt hi, List.getElem?_drop, List.getElem?_eq_getElem (by omega),
      List.getElem?_eq_getElem hi, hbyte]
  · rw [List.getElem?_eq_none (by rw [List.length_take]; omega), List.getElem?_eq_none (by omega)]

end Read

/-! ### Writing -/

section Patch

variable {b x : List UInt8} {o : ℕ}

theorem length_patch (h : o + x.length ≤ b.length) : (patch b o x).length = b.length := by
  simp only [patch, List.length_append, List.length_take, List.length_drop]
  omega

theorem byteAt_patch (h : o + x.length ≤ b.length) (i : ℕ) : byteAt (patch b o x) i =
    if o ≤ i ∧ i < o + x.length then byteAt x (i - o) else byteAt b i := by
  have htake : (b.take o).length = o := by rw [List.length_take]; omega
  unfold patch byteAt
  rw [List.append_assoc]
  split_ifs with hi
  · rw [List.getD_append_right _ _ _ _ (by omega), htake, List.getD_append _ _ _ _ (by omega)]
  · by_cases hlt : i < o
    · rw [List.getD_append _ _ _ _ (by omega)]
      simp [List.getD, List.getElem?_take_of_lt hlt]
    · rw [List.getD_append_right _ _ _ _ (by omega), htake,
        List.getD_append_right _ _ _ _ (by omega)]
      simp only [List.getD, List.getElem?_drop]
      congr 2
      omega

theorem holds_patch (h : o + x.length ≤ b.length) : Holds (patch b o x) o x := fun i hi => by
  rw [byteAt_patch h, if_pos (by omega), Nat.add_sub_cancel_left]

end Patch

/-! ### Several fields -/

/-- Put down a list of fields, each with its offset, one after the other. -/
def patchAll (b : List UInt8) (fields : List (ℕ × List UInt8)) : List UInt8 :=
  fields.foldl (fun b p => patch b p.1 p.2) b

/-- The fields lie in the buffer, and no two meet. -/
def Laid (n : ℕ) (fields : List (ℕ × List UInt8)) : Prop :=
  (∀ p ∈ fields, p.1 + p.2.length ≤ n) ∧
    fields.Pairwise fun p q => p.1 + p.2.length ≤ q.1 ∨ q.1 + q.2.length ≤ p.1

/-- Bytes that no field covers stay. -/
theorem byteAt_patchAll : ∀ {fields : List (ℕ × List UInt8)} {b : List UInt8} {i : ℕ},
    (∀ p ∈ fields, p.1 + p.2.length ≤ b.length) →
    (∀ p ∈ fields, i < p.1 ∨ p.1 + p.2.length ≤ i) → byteAt (patchAll b fields) i = byteAt b i
  | [], _, _, _, _ => rfl
  | p :: ps, b, i, hin, hout => by
    have hp := hin p List.mem_cons_self
    have hi := hout p List.mem_cons_self
    have hrest : byteAt (patchAll (patch b p.1 p.2) ps) i = byteAt (patch b p.1 p.2) i :=
      byteAt_patchAll (fun q hq => by rw [length_patch hp]; exact hin q (List.mem_cons_of_mem _ hq))
        fun q hq => hout q (List.mem_cons_of_mem _ hq)
    calc byteAt (patchAll b (p :: ps)) i = byteAt (patch b p.1 p.2) i := hrest
      _ = byteAt b i := by rw [byteAt_patch hp, if_neg (by omega)]

/-- Every field is found where it was put. -/
theorem holds_patchAll : ∀ {fields : List (ℕ × List UInt8)} {b : List UInt8},
    Laid b.length fields → ∀ p ∈ fields, Holds (patchAll b fields) p.1 p.2
  | [], _, _, p, hp => by simp at hp
  | q :: qs, b, ⟨hin, hpair⟩, p, hp => by
    have hq := hin q List.mem_cons_self
    obtain ⟨hapart, hpair⟩ := List.pairwise_cons.mp hpair
    have hlen : (patch b q.1 q.2).length = b.length := length_patch hq
    have hin' : ∀ r ∈ qs, r.1 + r.2.length ≤ (patch b q.1 q.2).length := fun r hr => by
      rw [hlen]
      exact hin r (List.mem_cons_of_mem _ hr)
    rcases List.mem_cons.mp hp with rfl | hmem
    · refine (holds_patch hq).congr fun i h1 h2 => ?_
      exact byteAt_patchAll hin' fun r hr => by
        rcases hapart r hr with h | h <;> omega
    · exact holds_patchAll ⟨hin', hpair⟩ p hmem

end NtfsKit
