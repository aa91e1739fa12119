import NtfsKit.Format.VolumeLabel
import NtfsKit.Lib.Buffer

/-! Records on their way to the disk. The engine counts up the update sequence number of a record,
protects it, writes it and takes the protection away again; the formatter can count the number down.
What the formatter relies on is a record of promises, and an engine that works on the bytes as
described meets them. -/

namespace NtfsKit

/-- What is called of the engine: `ntfs_mst_pwrite` of one record, which returns a count and leaves
the device and the record changed, and `ntfs_mft_usn_dec`. What a write puts down is `protect` of
the record. -/
structure MstIo (σ : Type) where
  view : σ → ℤ → UInt8
  protect : List UInt8 → List UInt8
  pwrite : σ → ℤ → List UInt8 → ℤ × σ × List UInt8
  usnDec : List UInt8 → Option (List UInt8)

/-- A record in memory that will be put down as `p` again, once its number is counted down. -/
def MstIo.Again {σ : Type} (io : MstIo σ) (p x : List UInt8) : Prop :=
  ∀ r, io.usnDec x = some r → io.protect r = p

/-- What the engine promises. -/
structure MstIo.Spec {σ : Type} (io : MstIo σ) : Prop where
  length_protect : ∀ r : List UInt8, (io.protect r).length = r.length
  length_pwrite : ∀ s pos (r : List UInt8), (io.pwrite s pos r).2.2.length = r.length
  length_usnDec : ∀ r r' : List UInt8, io.usnDec r = some r' → r'.length = r.length
  written : ∀ s pos r, (io.pwrite s pos r).1 = 1 →
    io.view (io.pwrite s pos r).2.1 = overwrite (io.view s) pos (io.protect r)
  outside : ∀ s pos (r : List UInt8) (q : ℤ), ¬ (pos ≤ q ∧ q < pos + r.length) →
    io.view (io.pwrite s pos r).2.1 q = io.view s q
  again : ∀ s pos r, (io.pwrite s pos r).1 = 1 →
    io.Again (io.protect r) (io.pwrite s pos r).2.2

/-! ### Protected records -/

theorem ext_byteAt {b c : List UInt8} (hlen : b.length = c.length)
    (h : ∀ i, byteAt b i = byteAt c i) : b = c := by
  refine List.ext_getElem hlen fun i h1 h2 => ?_
  have hi := h i
  rwa [byteAt, byteAt, List.getD_eq_getElem _ _ h1, List.getD_eq_getElem _ _ h2] at hi

section Unique

variable {r r' q q' : List UInt8} {usaOfs n : ℕ} {usn0 usn1 : UInt8}

/-- A protected record does not depend on what the update sequence array was before. -/
theorem Sealed.unique (husa : usaOfs + (n + 1) * 2 ≤ 510)
    (h : Sealed r usaOfs usn0 usn1 n 0 n q) (h' : Sealed r' usaOfs usn0 usn1 n 0 n q')
    (hlen : r'.length = r.length)
    (hr : ∀ j, j < usaOfs ∨ usaOfs + (n + 1) * 2 ≤ j → byteAt r' j = byteAt r j) : q' = q := by
  refine ext_byteAt (by rw [h.length, h'.length, hlen]) fun j => ?_
  by_cases hin : usaOfs ≤ j ∧ j < usaOfs + (n + 1) * 2
  · -- the number itself, or an entry of the array
    obtain ⟨i, d, hd, rfl⟩ : ∃ i d, d < 2 ∧ j = usaOfs + i * 2 + d :=
      ⟨(j - usaOfs) / 2, (j - usaOfs) % 2, Nat.mod_lt _ (by decide), by omega⟩
    rcases Nat.eq_zero_or_pos i with rfl | hi
    · interval_cases d
      · rw [Nat.zero_mul, Nat.add_zero, h.usn.1, h'.usn.1]
      · rw [Nat.zero_mul, Nat.add_zero, h.usn.2, h'.usn.2]
    · obtain ⟨h1, h2⟩ := h.saved i hi (by omega)
      obtain ⟨h1', h2'⟩ := h'.saved i hi (by omega)
      interval_cases d
      · rw [Nat.add_zero, h1, h1', hr _ (.inr (by omega))]
      · rw [h2, h2', hr _ (.inr (by omega))]
  · by_cases htr : ∃ i, 0 < i ∧ i ≤ n ∧ (j = i * 512 - 2 ∨ j = i * 512 - 1)
    · obtain ⟨i, h0, hn, rfl | rfl⟩ := htr
      · rw [(h.trailer i h0 hn).1, (h'.trailer i h0 hn).1]
      · rw [(h.trailer i h0 hn).2, (h'.trailer i h0 hn).2]
    · have hout : j < usaOfs ∨ usaOfs + (n + 1) * 2 ≤ j := by omega
      have hno : ∀ i, 0 < i → i ≤ n → j ≠ i * 512 - 2 ∧ j ≠ i * 512 - 1 := fun i h0 hn =>
        ⟨fun h => htr ⟨i, h0, hn, .inl h⟩, fun h => htr ⟨i, h0, hn, .inr h⟩⟩
      rw [h.rest j hout hno, h'.rest j hout hno, hr j hout]

end Unique

/-! ### An engine -/

/-- The next number; 0 and 0xFFFF are left out. -/
def usnNext (u : ℕ) : ℕ := if u + 1 = 0xFFFF ∨ u + 1 = 0x10000 then 1 else u + 1

def usnPrev (u : ℕ) : ℕ := if u ≤ 1 then 0xFFFE else u - 1

theorem usnNext_lt {u : ℕ} (h : u < 2 ^ 16) : usnNext u < 2 ^ 16 := by
  unfold usnNext
  split_ifs <;> omega

theorem usnPrev_lt {u : ℕ} (h : u < 2 ^ 16) : usnPrev u < 2 ^ 16 := by
  unfold usnPrev
  split_ifs <;> omega

theorem usnNext_prev_next {u : ℕ} (h : u < 2 ^ 16) :
    usnNext (usnPrev (usnNext u)) = usnNext u := by
  unfold usnNext usnPrev
  split_ifs <;> omega

/-- A record with an update sequence array that ends before the first trailer. -/
structure MstOk (n usaOfs : ℕ) (r : List UInt8) : Prop where
  pos : 0 < n
  length : r.length = n * 512
  usa_ofs : leAt r 4 2 = usaOfs
  usa_count : leAt r 6 2 = n + 1
  usa_ge : 8 ≤ usaOfs
  usa_le : usaOfs + (n + 1) * 2 ≤ 510

instance (n usaOfs : ℕ) (r : List UInt8) : Decidable (MstOk n usaOfs r) :=
  decidable_of_iff (0 < n ∧ r.length = n * 512 ∧ leAt r 4 2 = usaOfs ∧ leAt r 6 2 = n + 1 ∧
    8 ≤ usaOfs ∧ usaOfs + (n + 1) * 2 ≤ 510)
    ⟨fun ⟨h1, h2, h3, h4, h5, h6⟩ => ⟨h1, h2, h3, h4, h5, h6⟩,
      fun ⟨h1, h2, h3, h4, h5, h6⟩ => ⟨h1, h2, h3, h4, h5, h6⟩⟩

def recordUsn (r : List UInt8) : ℕ := leAt r (leAt r 4 2) 2

/-- The record as it goes to the disk. -/
def mstWritten (r : List UInt8) : List UInt8 :=
  mstProtect (UInt8.ofNat (usnNext (recordUsn r))) (UInt8.ofNat (usnNext (recordUsn r) / 256)) r

/-- The record in memory after the write. -/
def mstRestored (r : List UInt8) : List UInt8 :=
  (applyFixups 512 (leAt r 4 2) (UInt8.ofNat (usnNext (recordUsn r)))
    (UInt8.ofNat (usnNext (recordUsn r) / 256)) (List.range' 1 (leAt r 6 2 - 1))
    (mstWritten r)).getD r

def mftUsnDec (r : List UInt8) : List UInt8 :=
  patch r (leAt r 4 2) (leBytes 2 (usnPrev (recordUsn r)))

section Engine

variable {n usaOfs : ℕ} {r : List UInt8}

theorem MstOk.written (h : MstOk n usaOfs r) :
    Sealed r usaOfs (UInt8.ofNat (usnNext (recordUsn r)))
      (UInt8.ofNat (usnNext (recordUsn r) / 256)) n 0 n (mstWritten r) := by
  have hstart := Sealed.start h.length h.usa_le (UInt8.ofNat (usnNext (recordUsn r)))
    (UInt8.ofNat (usnNext (recordUsn r) / 256)) h.pos
  have hall := hstart.protectAll h.length h.usa_le (by omega : 0 + n = n)
  unfold mstWritten mstProtect
  simp only [le16_eq, h.usa_ofs, h.usa_count, Nat.add_sub_cancel]
  exact hall

theorem MstOk.restored (h : MstOk n usaOfs r) :
    Sealed r usaOfs (UInt8.ofNat (usnNext (recordUsn r)))
      (UInt8.ofNat (usnNext (recordUsn r) / 256)) n n n (mstRestored r) := by
  obtain ⟨q, hq, hsealed⟩ := h.written.restoreAll h.length h.usa_le (by omega : 0 + n = n)
  rw [mstRestored, h.usa_ofs, h.usa_count, Nat.add_sub_cancel, hq]
  exact hsealed

/-- A record that differs in the array only is taken as well. -/
theorem MstOk.congr (h : MstOk n usaOfs r) {q : List UInt8} (hlen : q.length = r.length)
    (hq : ∀ j, j < usaOfs → byteAt q j = byteAt r j) : MstOk n usaOfs q := by
  have hge := h.usa_ge
  refine ⟨h.pos, hlen.trans h.length, ?_, ?_, hge, h.usa_le⟩
  · rw [← h.usa_ofs]
    exact leAt_congr fun i hi => hq _ (by omega)
  · rw [← h.usa_count]
    exact leAt_congr fun i hi => hq _ (by omega)

/-- The number of a record that holds it. -/
theorem MstOk.usn_eq {u : ℕ} (h : MstOk n usaOfs r) (hu : u < 2 ^ 16)
    (hr : Holds r usaOfs (leBytes 2 u)) : recordUsn r = u := by
  rw [recordUsn, h.usa_ofs]
  exact hr.leAt_of_lt hu

/-- What a write leaves in memory: the number is counted up, and only the array has changed. -/
theorem MstOk.after_write (h : MstOk n usaOfs r) : MstOk n usaOfs (mstRestored r) ∧
    recordUsn (mstRestored r) = usnNext (recordUsn r) ∧
    ∀ j, j < usaOfs ∨ usaOfs + (n + 1) * 2 ≤ j → byteAt (mstRestored r) j = byteAt r j := by
  have hpos := h.pos
  have hs := h.restored
  have hrest : ∀ j, j < usaOfs ∨ usaOfs + (n + 1) * 2 ≤ j →
      byteAt (mstRestored r) j = byteAt r j :=
    fun j hj => hs.rest j hj fun i h1 h2 => by omega
  have hok : MstOk n usaOfs (mstRestored r) := h.congr hs.length fun j hj => hrest j (.inl hj)
  refine ⟨hok, hok.usn_eq (usnNext_lt (leAt_lt _ _ _)) fun i hi => ?_, hrest⟩
  have hi : i < 2 := hi
  interval_cases i
  · exact hs.usn.1
  · exact hs.usn.2

/-- What counting down changes. -/
theorem MstOk.after_dec (h : MstOk n usaOfs r) : MstOk n usaOfs (mftUsnDec r) ∧
    recordUsn (mftUsnDec r) = usnPrev (recordUsn r) ∧
    ∀ j, j < usaOfs ∨ usaOfs + (n + 1) * 2 ≤ j → byteAt (mftUsnDec r) j = byteAt r j := by
  have hle := h.usa_le
  have hpos := h.pos
  have hfit : usaOfs + (leBytes 2 (usnPrev (recordUsn r))).length ≤ r.length := by
    rw [length_leBytes, h.length]
    omega
  have hdec : mftUsnDec r = patch r usaOfs (leBytes 2 (usnPrev (recordUsn r))) := by
    rw [mftUsnDec, h.usa_ofs]
  have hbytes : ∀ j, j < usaOfs ∨ usaOfs + (n + 1) * 2 ≤ j →
      byteAt (mftUsnDec r) j = byteAt r j := by
    intro j hj
    rw [hdec, byteAt_patch hfit, if_neg (by rw [length_leBytes]; omega)]
  have hok : MstOk n usaOfs (mftUsnDec r) :=
    h.congr (by rw [hdec, length_patch hfit]) fun j hj => hbytes j (.inl hj)
  refine ⟨hok, hok.usn_eq (usnPrev_lt (leAt_lt _ _ _)) ?_, hbytes⟩
  rw [hdec]
  exact holds_patch hfit

/-- Counted down, a record is written as it was before. -/
theorem MstOk.again (h : MstOk n usaOfs r) :
    mstWritten (mftUsnDec (mstRestored r)) = mstWritten r := by
  obtain ⟨hq, hqusn, hqbytes⟩ := h.after_write
  obtain ⟨hd, hdusn, hdbytes⟩ := hq.after_dec
  have hw := hd.written
  rw [hdusn, hqusn, usnNext_prev_next (leAt_lt _ _ _)] at hw
  refine h.written.unique h.usa_le hw (hd.length.trans h.length.symm) fun j hj => ?_
  rw [hdbytes j hj, hqbytes j hj]

end Engine

/-- An engine over a device that never fails. It refuses a record whose array is not in order. -/
def byteEngine : MstIo (ℤ → UInt8) where
  view s := s
  protect r := if MstOk (r.length / 512) (leAt r 4 2) r then mstWritten r else r
  pwrite s pos r :=
    if MstOk (r.length / 512) (leAt r 4 2) r then (1, overwrite s pos (mstWritten r), mstRestored r)
    else (-1, s, r)
  usnDec r := if MstOk (r.length / 512) (leAt r 4 2) r then some (mftUsnDec r) else none

theorem MstOk.self {n usaOfs : ℕ} {r : List UInt8} (h : MstOk n usaOfs r) :
    MstOk (r.length / 512) (leAt r 4 2) r := by
  have hn : r.length / 512 = n := by rw [h.length, Nat.mul_div_cancel _ (by decide)]
  rw [hn, h.usa_ofs]
  exact h

theorem byteEngine_protect {n usaOfs : ℕ} {r : List UInt8} (h : MstOk n usaOfs r) :
    byteEngine.protect r = mstProtect (UInt8.ofNat (usnNext (recordUsn r)))
      (UInt8.ofNat (usnNext (recordUsn r) / 256)) r :=
  if_pos h.self

theorem byteEngine_spec : byteEngine.Spec where
  length_protect r := by
    simp only [byteEngine]
    split_ifs with h
    · exact h.written.length
    · rfl
  length_pwrite s pos r := by
    simp only [byteEngine]
    split_ifs with h
    · exact h.restored.length
    · rfl
  length_usnDec r r' h := by
    simp only [byteEngine] at h
    split_ifs at h with hok
    obtain rfl := Option.some.inj h
    exact hok.after_dec.1.length.trans hok.length.symm
  written s pos r h := by
    simp only [byteEngine] at h ⊢
    split_ifs at h ⊢ with hok
    · rfl
    · cases h
  outside s pos r q hq := by
    simp only [byteEngine]
    split_ifs with hok
    · exact overwrite_outside _ _ _ (by rw [hok.written.length]; exact hq)
    · rfl
  again s pos r h := by
    by_cases hok : MstOk (r.length / 512) (leAt r 4 2) r
    · have hpwrite : byteEngine.pwrite s pos r =
          (1, overwrite s pos (mstWritten r), mstRestored r) := if_pos hok
      have hprotect : byteEngine.protect r = mstWritten r := if_pos hok
      have hafter := hok.after_write.1
      have hdec : byteEngine.usnDec (mstRestored r) = some (mftUsnDec (mstRestored r)) :=
        if_pos hafter.self
      intro r' hr'
      rw [hpwrite] at hr'
      obtain rfl := Option.some.inj (hdec.symm.trans hr')
      rw [hprotect]
      exact (if_pos hafter.after_dec.1.self).trans hok.again
    · have hpwrite : byteEngine.pwrite s pos r = (-1, s, r) := if_neg hok
      rw [hpwrite] at h
      cases h

end NtfsKit
