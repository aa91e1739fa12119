import NtfsKit.Format.LayoutExact
import NtfsKit.Lib.Bytes

/-! `$Bitmap` is built from the list of allocated clusters, a section at a time: the bytes of the
section are cleared, and for every run the bits it has in the section are set, first the rest of
its first byte, then whole bytes, then the begin of its last. -/

namespace NtfsKit

open Finset

/-- Bit `i` of a bitmap. -/
def bitAt (buf : List UInt8) (i : ℕ) : Bool := (byteAt buf (i / 8)).toNat.testBit (i % 8)

/-! ### Setting bits -/

/-- `buf[bn >> 3] |= 1 << (bn & 7)`. -/
def setBit (buf : List UInt8) (bn : ℕ) : List UInt8 :=
  buf.modify (bn / 8) (· ||| 1 <<< UInt8.ofNat (bn % 8))

/-- The initial partial byte, if any. -/
def partialByte (stop : ℕ) : ℕ → ℕ → List UInt8 → ℕ × List UInt8
  | 0, bn, buf => (bn, buf)
  | fuel + 1, bn, buf =>
    if bn < stop ∧ bn % 8 ≠ 0 then partialByte stop fuel (bn + 1) (setBit buf bn) else (bn, buf)

/-- The full bytes. -/
def fullBytes (stop : ℕ) : ℕ → ℕ → List UInt8 → ℕ × List UInt8
  | 0, bn, buf => (bn, buf)
  | fuel + 1, bn, buf =>
    if bn + 7 < stop then fullBytes stop fuel (bn + 8) (buf.set (bn / 8) 255) else (bn, buf)

/-- The final partial byte, if any. -/
def finalBits (stop : ℕ) : ℕ → ℕ → List UInt8 → List UInt8
  | 0, _, buf => buf
  | fuel + 1, bn, buf =>
    if bn < stop then finalBits stop fuel (bn + 1) (setBit buf bn) else buf

/-- The three loops of `bitmap_build` for one run; none takes more than `stop` rounds. -/
def setBits (start stop : ℕ) (buf : List UInt8) : List UInt8 :=
  let h := partialByte stop stop start buf
  let f := fullBytes stop stop h.1 h.2
  finalBits stop stop f.1 f.2

/-- `bitmap_build`. -/
def bitmapBuild (runs : List ClusterRun) (lcn length : ℕ) (buf : List UInt8) : List UInt8 :=
  runs.foldl (fun buf p =>
    let first := max p.lcn lcn
    let last := min p.stop (lcn + length)
    if first < last then setBits (first - lcn) (last - lcn) buf else buf)
    (List.replicate ((length + 7) / 8) 0 ++ buf.drop ((length + 7) / 8))

section Bits

variable {buf : List UInt8} {bn i start stop : ℕ}

theorem testBit_shift {k j : ℕ} (hk : k < 8) :
    ((1 : UInt8) <<< UInt8.ofNat k).toNat.testBit j = decide (k = j) := by
  have hpow : ((1 : UInt8) <<< UInt8.ofNat k).toNat = 2 ^ k := by
    interval_cases k <;> rfl
  rw [hpow, Nat.testBit_two_pow]

theorem testBit_255 {j : ℕ} (hj : j < 8) : (255 : UInt8).toNat.testBit j = true := by
  interval_cases j <;> rfl

@[simp] theorem length_setBit : (setBit buf bn).length = buf.length := by simp [setBit]

theorem byteAt_setBit (h : bn < 8 * buf.length) (k : ℕ) : byteAt (setBit buf bn) k =
    if bn / 8 = k then byteAt buf k ||| 1 <<< UInt8.ofNat (bn % 8) else byteAt buf k := by
  rw [byteAt, byteAt, setBit, List.getD_eq_getElem?_getD, List.getD_eq_getElem?_getD,
    List.getElem?_modify]
  by_cases hk : k < buf.length
  · rw [List.getElem?_eq_getElem hk]
    split_ifs <;> rfl
  · rw [List.getElem?_eq_none (not_lt.mp hk), if_neg (by omega)]
    rfl

theorem bitAt_setBit (h : bn < 8 * buf.length) (i : ℕ) :
    bitAt (setBit buf bn) i = (bitAt buf i || decide (i = bn)) := by
  rw [bitAt, bitAt, byteAt_setBit h]
  split_ifs with hbyte
  · rw [UInt8.toNat_or, Nat.testBit_or, testBit_shift (Nat.mod_lt _ (by decide))]
    congr 1
    rw [decide_eq_decide]
    omega
  · rw [show decide (i = bn) = false by rw [decide_eq_false_iff_not]; omega, Bool.or_false]

theorem bitAt_fullByte (h : bn < 8 * buf.length) (hal : bn % 8 = 0) (i : ℕ) :
    bitAt (buf.set (bn / 8) 255) i = (bitAt buf i || decide (bn ≤ i ∧ i < bn + 8)) := by
  rw [bitAt, bitAt, byteAt, byteAt, List.getD_eq_getElem?_getD, List.getElem?_set]
  by_cases hbyte : bn / 8 = i / 8
  · rw [if_pos hbyte, if_pos (by omega), Option.getD_some, testBit_255 (Nat.mod_lt _ (by decide)),
      show decide (bn ≤ i ∧ i < bn + 8) = true by rw [decide_eq_true_iff]; omega, Bool.or_true]
  · rw [if_neg hbyte, show decide (bn ≤ i ∧ i < bn + 8) = false by
      rw [decide_eq_false_iff_not]; omega, Bool.or_false, List.getD_eq_getElem?_getD]

/-- The bits from `start` to `stop` are set in addition to those of `b`. -/
structure BitsSet (start stop : ℕ) (b b' : List UInt8) : Prop where
  length : b'.length = b.length
  bits : ∀ i, bitAt b' i = (bitAt b i || decide (start ≤ i ∧ i < stop))

theorem BitsSet.empty (h : stop ≤ start) (b : List UInt8) : BitsSet start stop b b :=
  ⟨rfl, fun i => by rw [show decide (start ≤ i ∧ i < stop) = false by
    rw [decide_eq_false_iff_not]; omega, Bool.or_false]⟩

theorem BitsSet.trans {mid : ℕ} {b b' b'' : List UInt8} (h : BitsSet start mid b b')
    (h' : BitsSet mid stop b' b'') (h1 : start ≤ mid) (h2 : mid ≤ stop) :
    BitsSet start stop b b'' := by
  refine ⟨h'.length.trans h.length, fun i => ?_⟩
  rw [h'.bits, h.bits, Bool.or_assoc, ← Bool.decide_or]
  congr 2
  rw [eq_iff_iff]
  omega

theorem BitsSet.setBit (h : bn < 8 * buf.length) : BitsSet bn (bn + 1) buf (setBit buf bn) := by
  refine ⟨length_setBit, fun i => ?_⟩
  rw [bitAt_setBit h]
  congr 2
  rw [eq_iff_iff]
  omega

theorem BitsSet.fullByte (h : bn < 8 * buf.length) (hal : bn % 8 = 0) :
    BitsSet bn (bn + 8) buf (buf.set (bn / 8) 255) :=
  ⟨List.length_set, bitAt_fullByte h hal⟩

/-- The first loop stops at a whole byte, or at the end. -/
theorem partialByte_spec (fuel : ℕ) : ∀ (bn : ℕ) (buf : List UInt8), stop ≤ bn + fuel →
    stop ≤ 8 * buf.length → bn ≤ stop →
    bn ≤ (partialByte stop fuel bn buf).1 ∧ (partialByte stop fuel bn buf).1 ≤ stop ∧
      ((partialByte stop fuel bn buf).1 < stop → (partialByte stop fuel bn buf).1 % 8 = 0) ∧
      BitsSet bn (partialByte stop fuel bn buf).1 buf (partialByte stop fuel bn buf).2 := by
  induction fuel with
  | zero =>
    intro bn buf hf _ hle
    exact ⟨le_rfl, hle, fun h => absurd hf (by simpa [partialByte] using h), .empty le_rfl _⟩
  | succ fuel ih =>
    intro bn buf hf hlen hle
    rw [partialByte]
    split_ifs with h
    · obtain ⟨h1, h2, h3, h4⟩ := ih (bn + 1) (setBit buf bn) (by omega)
        (by rw [length_setBit]; exact hlen) (by omega)
      exact ⟨by omega, h2, h3, (BitsSet.setBit (by omega)).trans h4 (by omega) h1⟩
    · exact ⟨le_rfl, hle, fun hlt => by dsimp only at hlt ⊢; omega, .empty le_rfl _⟩

/-- The second loop leaves less than a byte. -/
theorem fullBytes_spec (fuel : ℕ) : ∀ (bn : ℕ) (buf : List UInt8), stop ≤ bn + fuel →
    stop ≤ 8 * buf.length → bn ≤ stop → (bn < stop → bn % 8 = 0) →
    bn ≤ (fullBytes stop fuel bn buf).1 ∧ (fullBytes stop fuel bn buf).1 ≤ stop ∧
      BitsSet bn (fullBytes stop fuel bn buf).1 buf (fullBytes stop fuel bn buf).2 := by
  induction fuel with
  | zero =>
    intro bn buf _ _ hle _
    exact ⟨le_rfl, hle, .empty le_rfl _⟩
  | succ fuel ih =>
    intro bn buf hf hlen hle hal
    rw [fullBytes]
    split_ifs with h
    · obtain ⟨h1, h2, h3⟩ := ih (bn + 8) (buf.set (bn / 8) 255) (by omega)
        (by rw [List.length_set]; exact hlen) (by omega) (by omega)
      exact ⟨by omega, h2, (BitsSet.fullByte (by omega) (hal (by omega))).trans h3 (by omega) h1⟩
    · exact ⟨le_rfl, hle, .empty le_rfl _⟩

theorem finalBits_spec (fuel : ℕ) : ∀ (bn : ℕ) (buf : List UInt8), stop ≤ bn + fuel →
    stop ≤ 8 * buf.length → BitsSet bn stop buf (finalBits stop fuel bn buf) := by
  induction fuel with
  | zero =>
    intro bn buf hf _
    exact .empty hf _
  | succ fuel ih =>
    intro bn buf hf hlen
    rw [finalBits]
    split_ifs with h
    · exact (BitsSet.setBit (by omega)).trans
        (ih _ _ (by omega) (by rw [length_setBit]; exact hlen)) (by omega) h
    · exact .empty (not_lt.mp h) _

/-- The three loops set the bits of the range and no others. -/
theorem setBits_spec (hle : start ≤ stop) (hlen : stop ≤ 8 * buf.length) :
    BitsSet start stop buf (setBits start stop buf) := by
  obtain ⟨h1, h2, h3, h4⟩ := partialByte_spec stop start buf (Nat.le_add_left _ _) hlen hle
  obtain ⟨h5, h6, h7⟩ := fullBytes_spec stop _ _ (Nat.le_add_left _ _) (by rwa [h4.length]) h2 h3
  refine h4.trans (h7.trans ?_ h5 h6) h1 (h5.trans h6)
  exact finalBits_spec stop _ _ (Nat.le_add_left _ _) (by rwa [h7.length, h4.length])

theorem bitAt_clear {n : ℕ} : bitAt (List.replicate n 0 ++ buf.drop n) i =
    if i < 8 * n then false else bitAt buf i := by
  rw [bitAt, bitAt, byteAt, byteAt]
  split_ifs
  · rw [List.getD_append _ _ _ _ (by rw [List.length_replicate]; omega),
      List.getD_replicate _ (by omega)]
    exact Nat.zero_testBit _
  · rw [List.getD_append_right _ _ _ _ (by rw [List.length_replicate]; omega),
      List.length_replicate, List.getD_eq_getElem?_getD, List.getD_eq_getElem?_getD,
      List.getElem?_drop, show n + (i / 8 - n) = i / 8 by omega]

/-- The runs set the bits of their clusters. -/
theorem foldl_setBits {lcn length : ℕ} (runs : List ClusterRun) : ∀ buf : List UInt8,
    length ≤ 8 * buf.length → ∀ i, bitAt (runs.foldl (fun buf p =>
        if max p.lcn lcn < min p.stop (lcn + length) then
          setBits (max p.lcn lcn - lcn) (min p.stop (lcn + length) - lcn) buf else buf) buf) i =
      (bitAt buf i || decide (i < length ∧ lcn + i ∈ clustersOf runs)) := by
  induction runs with
  | nil =>
    intro buf _ i
    simp
  | cons p runs ih =>
    intro buf hlen i
    have hone : BitsSet (max p.lcn lcn - lcn) (min p.stop (lcn + length) - lcn) buf
        (if max p.lcn lcn < min p.stop (lcn + length) then
          setBits (max p.lcn lcn - lcn) (min p.stop (lcn + length) - lcn) buf else buf) := by
      split_ifs with h
      · exact setBits_spec (by omega) (by omega)
      · exact .empty (by omega) _
    rw [List.foldl_cons, ih _ (by rwa [hone.length]), hone.bits, Bool.or_assoc, ← Bool.decide_or]
    congr 2
    simp only [clustersOf_cons, mem_union, mem_Ico, eq_iff_iff]
    constructor
    · rintro (h | ⟨h1, h2⟩)
      · exact ⟨by omega, .inl (by omega)⟩
      · exact ⟨h1, .inr h2⟩
    · rintro ⟨h1, h2 | h2⟩
      · exact .inl (by omega)
      · exact .inr ⟨h1, h2⟩

/-- Building a section in a buffer that is large enough. -/
theorem length_bitmapBuild {runs : List ClusterRun} {lcn length : ℕ}
    (h : length ≤ 8 * buf.length) : (bitmapBuild runs lcn length buf).length = buf.length := by
  have hone : ∀ (l : List ClusterRun) (b : List UInt8), length ≤ 8 * b.length →
      (l.foldl (fun buf p => if max p.lcn lcn < min p.stop (lcn + length) then
        setBits (max p.lcn lcn - lcn) (min p.stop (lcn + length) - lcn) buf else buf) b).length =
        b.length := by
    intro l
    induction l with
    | nil => exact fun b _ => rfl
    | cons p l ih =>
      intro b hb
      have hstep : (if max p.lcn lcn < min p.stop (lcn + length) then
          setBits (max p.lcn lcn - lcn) (min p.stop (lcn + length) - lcn) b else b).length =
          b.length := by
        split_ifs with hp
        · exact (setBits_spec (by omega) (by omega)).length
        · rfl
      rw [List.foldl_cons, ih _ (by rwa [hstep]), hstep]
  have hclear : (List.replicate ((length + 7) / 8) (0 : UInt8) ++
      buf.drop ((length + 7) / 8)).length = buf.length := by
    rw [List.length_append, List.length_replicate, List.length_drop]
    omega
  rw [bitmapBuild, hone _ _ (by rwa [hclear]), hclear]

/-- A section of the bitmap that `bitmap_build` has built: bit `i` tells whether cluster
`lcn + i` is allocated, the rest of its last byte is clear, and what is behind it stays. -/
theorem bitmapBuild_bit (runs : List ClusterRun) (lcn length : ℕ) (buf : List UInt8) (i : ℕ) :
    bitAt (bitmapBuild runs lcn length buf) i =
      if i < 8 * ((length + 7) / 8) then decide (i < length ∧ lcn + i ∈ clustersOf runs)
      else bitAt buf i := by
  have hlen : length ≤ 8 * (List.replicate ((length + 7) / 8) (0 : UInt8) ++
      buf.drop ((length + 7) / 8)).length := by
    rw [List.length_append, List.length_replicate, List.length_drop]
    omega
  rw [bitmapBuild, foldl_setBits runs _ hlen, bitAt_clear]
  split_ifs with hi
  · rw [Bool.false_or]
  · rw [show decide (i < length ∧ lcn + i ∈ clustersOf runs) = false by
      rw [decide_eq_false_iff_not]; omega, Bool.or_false]

end Bits

end NtfsKit
