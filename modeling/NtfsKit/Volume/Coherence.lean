import NtfsKit.Lib.RoundUp
import NtfsKit.Volume.Device

/-! On a coherent cache the engine's device I/O is that of a flat device: reads return
what is on the disk, and a write changes the bytes of its range and no others, although
it rewrites whole granules. -/

namespace NtfsKit

open Prog

namespace BlockDevice

variable {d : BlockDevice}

/-! ### Granules -/

/-- The strides of an aligned range are the granules of its bytes. -/
theorem mem_stride {a b : ℤ} (ha : d.cacheBlockSize ∣ a) (hb : d.cacheBlockSize ∣ b) {q : ℤ} :
    (∃ o ∈ d.stride a b, d.granule q = d.granule o) ↔ a ≤ q ∧ q < b := by
  have hg := d.pos
  obtain ⟨i, rfl⟩ := ha
  obtain ⟨j, rfl⟩ := hb
  have hlen : (d.cacheBlockSize * j - d.cacheBlockSize * i) / d.cacheBlockSize = j - i := by
    rw [← mul_sub, Int.mul_ediv_cancel_left _ hg.ne']
  have hstart : ∀ n : ℕ, d.granule (d.cacheBlockSize * i + n * d.cacheBlockSize) = i + n := by
    intro n
    rw [granule, mul_comm (n : ℤ), ← mul_add, Int.mul_ediv_cancel_left _ hg.ne']
  have hlow : d.cacheBlockSize * i ≤ q ↔ i ≤ d.granule q := by
    rw [granule, Int.le_ediv_iff_mul_le hg, mul_comm]
  have hhigh : q < d.cacheBlockSize * j ↔ d.granule q < j := by
    rw [granule, Int.ediv_lt_iff_lt_mul hg, mul_comm]
  rw [hlow, hhigh]
  simp only [stride, List.mem_map, List.mem_range, hlen]
  constructor
  · rintro ⟨o, ⟨n, hn, rfl⟩, hq⟩
    rw [hstart] at hq
    omega
  · rintro ⟨h1, h2⟩
    refine ⟨_, ⟨(d.granule q - i).toNat, by omega, rfl⟩, ?_⟩
    rw [hstart]
    omega

theorem alignedStart_dvd (offset : ℤ) : d.cacheBlockSize ∣ d.alignedStart offset :=
  Dvd.intro_left _ rfl

theorem alignedStart_le (offset : ℤ) : d.alignedStart offset ≤ offset :=
  Int.ediv_mul_le offset d.pos.ne'

/-- The last granule of a range within the device is whole. -/
theorem alignedEnd_eq {stop : ℤ} (h : stop ≤ d.size) :
    d.alignedEnd stop = roundUp d.cacheBlockSize stop :=
  min_eq_left (roundUp_le d.pos h d.dvd)

theorem alignedEnd_dvd {stop : ℤ} (h : stop ≤ d.size) :
    d.cacheBlockSize ∣ d.alignedEnd stop := by
  rw [alignedEnd_eq h]
  exact dvd_roundUp _ _

theorem le_alignedEnd {stop : ℤ} (h : stop ≤ d.size) : stop ≤ d.alignedEnd stop := by
  rw [alignedEnd_eq h]
  exact le_roundUp d.pos stop

/-! ### Transfers -/

/-- What engine I/O on the granules of `[a, b)` does to the cache. -/
structure Engaged (d : BlockDevice) (a b : ℤ) (s t : Device) : Prop where
  coherent : t.Coherent d.granule
  cached : ∀ q, t.cached (d.granule q) = true → s.cached (d.granule q) = true ∨ (a ≤ q ∧ q < b)

variable {a b : ℤ} {s : Device}

/-- Reading fills the cache and leaves the disk alone. -/
theorem readAligned_wp (ha : d.cacheBlockSize ∣ a) (hb : d.cacheBlockSize ∣ b)
    (hs : s.Coherent d.granule) (io : Faults) (scratch : ℤ → UInt8) :
    wp (d.readAligned io a b)
      (fun _ t => d.Engaged a b s t.dev ∧ t.dev.disk = s.disk ∧
        ∀ q, a ≤ q → q < b → t.scratch q = s.disk q)
      (fun _ t => d.Engaged a b s t.dev ∧ t.dev.disk = s.disk) ⟨s, scratch⟩ := by
  -- the scratch buffer holds the disk's bytes except in the granules still to come
  set inv : List ℤ → Transfer → Prop := fun os t =>
    (∀ o ∈ os, o ∈ d.stride a b) ∧ (d.Engaged a b s t.dev ∧ t.dev.disk = s.disk) ∧
      ∀ q, a ≤ q → q < b → t.scratch q = s.disk q ∨ ∃ o ∈ os, d.granule q = d.granule o with hinv
  have hbody : ∀ o os t, inv (o :: os) t →
      wp (d.readBlock io o) (fun _ u => inv os u)
        (fun _ u => d.Engaged a b s u.dev ∧ u.dev.disk = s.disk) t := by
    rintro o os t ⟨hin, ⟨he, hdisk⟩, hq⟩
    unfold readBlock wp
    split_ifs with hio
    · refine ⟨fun o' h => hin o' (List.mem_cons_of_mem _ h), ⟨⟨he.coherent.load _, ?_⟩, ?_⟩, ?_⟩
      · intro q hcq
        simp only [WriteThrough.load_cached, Bool.or_eq_true, decide_eq_true_eq] at hcq
        rcases hcq with hcq | hcq
        · exact .inr ((mem_stride ha hb).mp ⟨o, hin o List.mem_cons_self, hcq⟩)
        · exact he.cached q hcq
      · simp [hdisk]
      · intro q h1 h2
        by_cases hqo : d.granule q = d.granule o
        · left
          simp only [if_pos hqo, he.coherent.load_copy hqo, hdisk]
        · simp only [if_neg hqo]
          refine (hq q h1 h2).imp id ?_
          rintro ⟨o', ho', heq⟩
          rcases List.mem_cons.mp ho' with rfl | ho'
          · exact absurd heq hqo
          · exact ⟨o', ho', heq⟩
    · exact ⟨he, hdisk⟩
  have hloop := wp_each inv hbody (d.stride a b) ⟨s, scratch⟩
    ⟨fun _ h => h, ⟨⟨hs, fun q h => .inl h⟩, rfl⟩, fun q h1 h2 =>
      .inr ((mem_stride ha hb).mpr ⟨h1, h2⟩)⟩
  refine wp_mono hloop (fun _ t ht => ⟨ht.2.1.1, ht.2.1.2, fun q h1 h2 => ?_⟩) fun _ _ h => h
  simpa using ht.2.2 q h1 h2

/-- Writing a buffer that is the wanted content on its granules: each granule ends up old
or wanted, and all are wanted when nothing fails. -/
theorem writeAligned_wp (ha : d.cacheBlockSize ∣ a) (hb : d.cacheBlockSize ∣ b) {u : Transfer}
    (hs : d.Engaged a b s u.dev) {old want : ℤ → UInt8} (hold : u.dev.disk = old)
    (hwant : ∀ q, a ≤ q → q < b → u.scratch q = want q)
    (hrest : ∀ q, ¬ (a ≤ q ∧ q < b) → want q = old q) (io : Faults) :
    wp (d.writeAligned io a b) (fun _ t => d.Engaged a b s t.dev ∧ t.dev.disk = want)
      (fun _ t => d.Engaged a b s t.dev ∧ ∀ q, t.dev.disk q = old q ∨ t.dev.disk q = want q) u := by
  set inv : List ℤ → Transfer → Prop := fun os t =>
    (∀ o ∈ os, o ∈ d.stride a b) ∧ d.Engaged a b s t.dev ∧ t.scratch = u.scratch ∧
      ∀ q, t.dev.disk q = want q ∨
        (t.dev.disk q = old q ∧ ∃ o ∈ os, d.granule q = d.granule o) with hinv
  have hbody : ∀ o os t, inv (o :: os) t → wp (d.writeBlock io o) (fun _ t' => inv os t')
      (fun _ t' => d.Engaged a b s t'.dev ∧ ∀ q, t'.dev.disk q = old q ∨ t'.dev.disk q = want q)
      t := by
    rintro o os t ⟨hin, he, hscr, hq⟩
    have hmem : ∀ q, d.granule q = d.granule o → a ≤ q ∧ q < b := fun q h =>
      (mem_stride ha hb).mp ⟨o, hin o List.mem_cons_self, h⟩
    unfold writeBlock wp
    split_ifs with hio
    · refine ⟨fun o' h => hin o' (List.mem_cons_of_mem _ h), ⟨he.coherent.store _ _, ?_⟩, hscr, ?_⟩
      · intro q hcq
        simp only [WriteThrough.store_cached, Bool.or_eq_true, decide_eq_true_eq] at hcq
        exact hcq.elim (fun h => .inr (hmem q h)) (he.cached q)
      · intro q
        by_cases hqo : d.granule q = d.granule o
        · obtain ⟨h1, h2⟩ := hmem q hqo
          left
          simp only [WriteThrough.store, if_pos hqo, hscr, hwant q h1 h2]
        · simp only [WriteThrough.store, if_neg hqo]
          refine (hq q).imp id (And.imp_right ?_)
          rintro ⟨o', ho', heq⟩
          rcases List.mem_cons.mp ho' with rfl | ho'
          · exact absurd heq hqo
          · exact ⟨o', ho', heq⟩
    · exact ⟨he, fun q => (hq q).symm.imp And.left id⟩
  have hloop := wp_each inv hbody (d.stride a b) u ⟨fun _ h => h, hs, rfl, fun q => by
    by_cases hq : a ≤ q ∧ q < b
    · exact .inr ⟨congrFun hold q, (mem_stride ha hb).mpr hq⟩
    · exact .inl ((congrFun hold q).trans (hrest q hq).symm)⟩
  refine wp_mono hloop (fun _ t ht => ⟨ht.2.1, funext fun q => ?_⟩) fun _ _ h => h
  simpa using ht.2.2.2 q

/-- The granules of `[offset, stop)` have been written. -/
def Wrote (d : BlockDevice) (buf : ℤ → UInt8) (offset stop : ℤ) (s t : Device) : Prop :=
  d.Engaged (d.alignedStart offset) (d.alignedEnd stop) s t ∧
    t.disk = diskWrite s.disk offset (stop - offset) buf

/-- Some of the granules of `[offset, stop)` have been written. -/
def WrotePart (d : BlockDevice) (buf : ℤ → UInt8) (offset stop : ℤ) (s t : Device) : Prop :=
  d.Engaged (d.alignedStart offset) (d.alignedEnd stop) s t ∧
    ∀ q, t.disk q = s.disk q ∨ t.disk q = diskWrite s.disk offset (stop - offset) buf q

/-- Once the buffer is right wherever the range does not write it, putting the bytes in
place and writing the granules is a flat write. -/
theorem patched_wp {offset stop : ℤ} (hle : stop ≤ d.size) {u : Transfer}
    (hu : d.Engaged (d.alignedStart offset) (d.alignedEnd stop) s u.dev)
    (hdisk : u.dev.disk = s.disk) (hscr : ∀ q, d.alignedStart offset ≤ q → q < d.alignedEnd stop →
      ¬ (offset ≤ q ∧ q < stop) → u.scratch q = s.disk q) (io : Faults) (buf : ℤ → UInt8) :
    wp (d.writeAligned io (d.alignedStart offset) (d.alignedEnd stop))
      (fun _ t => d.Wrote buf offset stop s t.dev) (fun _ t => d.WrotePart buf offset stop s t.dev)
      { u with scratch := diskWrite u.scratch offset (stop - offset) buf } := by
  have hstart := d.alignedStart_le offset
  have hend := le_alignedEnd hle
  refine writeAligned_wp (u := ⟨u.dev, diskWrite u.scratch offset (stop - offset) buf⟩)
    (d.alignedStart_dvd offset) (alignedEnd_dvd hle) hu hdisk (fun q h1 h2 => ?_) (fun q hq => ?_) io
  · simp only [diskWrite]
    split_ifs with hq
    · rfl
    · exact hscr q h1 h2 (by omega)
  · simp only [diskWrite]
    rw [if_neg (by omega)]

/-- The read-modify-write of `devicePwrite`. -/
theorem writeTransfer_wp (offset : ℤ) {stop : ℤ} (hle : stop ≤ d.size)
    (hs : s.Coherent d.granule) (io : Faults) (buf scratch : ℤ → UInt8) :
    wp (d.writeTransfer io buf offset stop) (fun _ t => d.Wrote buf offset stop s t.dev)
      (fun _ t => d.WrotePart buf offset stop s t.dev) ⟨s, scratch⟩ := by
  rw [writeTransfer, wp_bind, preload]
  by_cases hfull : offset ≠ d.alignedStart offset ∨ stop ≠ d.alignedEnd stop
  · rw [if_pos hfull]
    refine wp_mono (readAligned_wp (d.alignedStart_dvd offset) (alignedEnd_dvd hle) hs io scratch)
      (fun _ t ht => ?_) fun _ t ht => ⟨ht.1, fun q => .inl (congrFun ht.2 q)⟩
    rw [wp_bind, wp_modify]
    exact patched_wp hle ht.1 ht.2.1 (fun q h1 h2 _ => ht.2.2 q h1 h2) io buf
  · -- the range fills its granules: nothing of the buffer survives
    rw [if_neg hfull, wp_pure, wp_bind, wp_modify]
    push Not at hfull
    exact patched_wp hle (u := ⟨s, scratch⟩) ⟨hs, fun _ h => .inl h⟩ rfl
      (fun q h1 h2 hn => absurd ⟨by omega, by omega⟩ hn) io buf

/-! ### The two calls -/

/-- What a device write does on a coherent cache: a flat write when it returns `count`,
and otherwise a part of one. -/
structure Written (d : BlockDevice) (buf : ℤ → UInt8) (count offset : ℤ) (s : Device)
    (r : ℤ × Device) : Prop where
  coherent : r.2.Coherent d.granule
  cached : ∀ q, r.2.cached (d.granule q) = true → s.cached (d.granule q) = true ∨
    (d.alignedStart offset ≤ q ∧ q < d.alignedEnd (min (offset + count) d.size))
  part : ∀ q, r.2.disk q = s.disk q ∨ r.2.disk q = diskWrite s.disk offset count buf q
  whole : r.1 = count → r.2.disk = diskWrite s.disk offset count buf

theorem diskWrite_empty {disk buf : ℤ → UInt8} {offset count : ℤ} (h : count ≤ 0) :
    diskWrite disk offset count buf = disk := by
  funext q
  unfold diskWrite
  rw [if_neg (by omega)]

theorem devicePwrite_spec (hs : s.Coherent d.granule) (io : Faults) (buf : ℤ → UInt8)
    (count offset : ℤ) : Written d buf count offset s (d.devicePwrite io buf count offset s) := by
  have hsame : ∀ r : ℤ, (r = count → count ≤ 0) → Written d buf count offset s (r, s) :=
    fun r hr => ⟨hs, fun _ h => .inl h, fun _ => .inl rfl, fun h => (diskWrite_empty (hr h)).symm⟩
  unfold devicePwrite
  extract_lets stop
  by_cases hbad : badRange count offset = true
  · rw [if_pos hbad]
    exact hsame _ (by omega)
  rw [if_neg hbad]
  have hcount : 0 ≤ offset ∧ 0 ≤ count := by
    simp only [badRange, Bool.or_eq_true, decide_eq_true_eq] at hbad
    omega
  by_cases hout : offset ≥ d.size ∨ stop ≤ offset
  · rw [if_pos hout]
    exact hsame _ (by omega)
  rw [if_neg hout]
  have hle : stop ≤ d.size := min_le_right _ _
  have hwp := writeTransfer_wp offset hle hs io buf devicePwrite.zeroed
  have hclip : ∀ q, diskWrite s.disk offset (stop - offset) buf q = s.disk q ∨
      diskWrite s.disk offset (stop - offset) buf q = diskWrite s.disk offset count buf q := by
    intro q
    have : stop ≤ offset + count := min_le_left _ _
    unfold diskWrite
    split_ifs <;> first | exact .inl rfl | exact .inr rfl | omega
  rcases ht : d.writeTransfer io buf offset stop ⟨s, devicePwrite.zeroed⟩ with ⟨e | _, t⟩
  · obtain ⟨he, hd⟩ := wp_error hwp ht
    refine ⟨he.coherent, he.cached, fun q => ?_, fun h => ?_⟩
    · rcases hd q with hq | hq
      · exact .inl hq
      · exact (hclip q).imp hq.trans hq.trans
    · have : (-1 : ℤ) = count := h
      omega
  · obtain ⟨he, hd⟩ := wp_ok hwp ht
    refine ⟨he.coherent, he.cached, fun q => ?_, fun h => ?_⟩
    · exact hd ▸ hclip q
    · have hcnt : stop - offset = count := h
      rw [← hcnt]
      exact hd

/-- What a device read does on a coherent cache: it returns the disk's bytes. -/
theorem devicePread_spec (hs : s.Coherent d.granule) (io : Faults) (count offset : ℤ) :
    d.Engaged (d.alignedStart offset) (d.alignedEnd (min (offset + count) d.size)) s
      (d.devicePread io count offset s).2 ∧ (d.devicePread io count offset s).2.disk = s.disk ∧
    ∀ l ∈ (d.devicePread io count offset s).1,
      l = (List.range (min (offset + count) d.size - offset).toNat).map fun i : ℕ =>
        s.disk (offset + i) := by
  have hrefl : d.Engaged (d.alignedStart offset) (d.alignedEnd (min (offset + count) d.size)) s s :=
    ⟨hs, fun _ h => .inl h⟩
  unfold devicePread
  extract_lets stop
  by_cases hbad : badRange count offset = true
  · rw [if_pos hbad]
    exact ⟨hrefl, rfl, by simp⟩
  rw [if_neg hbad]
  by_cases hout : offset ≥ d.size ∨ stop ≤ offset
  · rw [if_pos hout]
    have hnone : (stop - offset).toNat = 0 := by omega
    exact ⟨hrefl, rfl, by simp [stop, hnone]⟩
  rw [if_neg hout]
  have hle : stop ≤ d.size := min_le_right _ _
  have hwp := readAligned_wp (d.alignedStart_dvd offset) (alignedEnd_dvd hle) hs io
    devicePread.zeroed
  rcases ht : d.readAligned io (d.alignedStart offset) (d.alignedEnd stop)
    ⟨s, devicePread.zeroed⟩ with ⟨e | _, t⟩
  · obtain ⟨he, hd⟩ := wp_error hwp ht
    exact ⟨he, hd, by simp⟩
  · obtain ⟨he, hd, hscr⟩ := wp_ok hwp ht
    refine ⟨he, hd, ?_⟩
    intro l hl
    obtain rfl := Option.some.inj hl
    apply List.map_congr_left
    intro i hi
    have hi := List.mem_range.mp hi
    have h1 := d.alignedStart_le offset
    have h2 := le_alignedEnd hle
    exact hscr _ (by omega) (by omega)

end BlockDevice

end NtfsKit
