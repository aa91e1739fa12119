import NtfsKit.Bridge.Blockmap
import NtfsKit.Protocol.View

/-! The bridge's file as a view of the protocol, and what the shared helpers do to
it: `zero_raw` zeroes exactly the stored bytes of its range, the table operations
move the mark, and `stamp_init` moves `initialized_size`. -/

namespace NtfsKit

variable {σ : Type} {vol : NtfsVolume}

/-- The protocol's view of a file. -/
def NkFile.view (vol : NtfsVolume) (f : NkFile σ) : View where
  content := f.content vol
  tail := f.tail vol
  init := f.na.recInitializedSize
  size := f.na.dataSize
  hwm := f.wrHwm

/-- An intact file with a proper table of marks. -/
structure NkFile.Sound (vol : NtfsVolume) (f : NkFile σ) : Prop where
  wf : f.toNtfs.Wf vol
  distinct : SwapTable.Distinct f.wr
  hwm_nonneg : 0 ≤ f.wrHwm
  hwm_le : f.wrHwm ≤ f.na.dataSize

namespace Ntfs

variable {s : Ntfs σ}

theorem content_of_phys {x p : ℤ} (h : s.phys vol x = some p) : s.content vol x = s.disk p := by
  rw [content, h]

theorem content_of_hole {x : ℤ} (h : s.phys vol x = none) (hr : s.na.nonResident = true) :
    s.content vol x = 0 := by
  rw [content, h]
  simp [hr]

theorem tail_of_nonResident (hr : s.na.nonResident = true) :
    s.tail vol = roundUp vol.clusterSize s.na.dataSize := by
  simp [tail, hr]

theorem dataSize_le_tail (hc : 0 < vol.clusterSize) : s.na.dataSize ≤ s.tail vol := by
  unfold tail
  split_ifs
  · exact le_roundUp hc _
  · exact le_rfl

/-- Being intact is a matter of the attribute alone. -/
theorem Wf.of_na_eq {t : Ntfs σ} (h : s.Wf vol) (hna : t.na = s.na) : t.Wf vol :=
  ⟨by rw [hna]; exact h.rl_ok, by rw [hna]; exact h.init_nonneg, by rw [hna]; exact h.init_le,
    by rw [hna]; exact h.resident⟩

/-- A file with a byte in a cluster is not resident. -/
theorem Wf.nonResident_of_phys (h : s.Wf vol) {x p : ℤ} (hp : s.phys vol x = some p) :
    s.na.nonResident = true := by
  by_contra hr
  have hrl := (h.resident (by simpa using hr)).1
  simp [phys, Runlist.phys, hrl, Runlist.elements] at hp

/-- Two bytes of a file never share a byte of the device. -/
theorem Wf.phys_inj (h : s.Wf vol) {x y p : ℤ} (hx : s.phys vol x = some p)
    (hy : s.phys vol y = some p) : x = y :=
  h.rl_ok.disjoint x y p hx hy

end Ntfs

/-- Two states of one file that differ in the library's own state at most. -/
structure SameFile (f g : NkFile σ) : Prop where
  na : g.na = f.na
  disk : g.disk = f.disk
  mref : g.mref = f.mref
  wr : g.wr = f.wr

namespace SameFile

variable {f g h : NkFile σ}

theorem refl (f : NkFile σ) : SameFile f f := ⟨rfl, rfl, rfl, rfl⟩

theorem trans (h₁ : SameFile f g) (h₂ : SameFile g h) : SameFile f h :=
  ⟨h₂.na.trans h₁.na, h₂.disk.trans h₁.disk, h₂.mref.trans h₁.mref, h₂.wr.trans h₁.wr⟩

theorem phys (h : SameFile f g) : g.phys vol = f.phys vol := by
  funext x
  simp only [Ntfs.phys, h.na]

theorem content (h : SameFile f g) : g.content vol = f.content vol := by
  funext x
  simp only [Ntfs.content, Ntfs.phys, h.na, h.disk]

theorem wrHwm (h : SameFile f g) : g.wrHwm = f.wrHwm := by
  simp only [NkFile.wrHwm, h.wr, h.mref]

theorem view (h : SameFile f g) : g.view vol = f.view vol := by
  simp only [NkFile.view, h.content, h.wrHwm, Ntfs.tail, h.na]

theorem sound (h : SameFile f g) (hf : f.Sound vol) : g.Sound vol where
  wf := hf.wf.of_na_eq h.na
  distinct := by rw [h.wr]; exact hf.distinct
  hwm_nonneg := by rw [h.wrHwm]; exact hf.hwm_nonneg
  hwm_le := by rw [h.wrHwm, h.na]; exact hf.hwm_le

end SameFile

theorem sameFile_libEng {A : Type} (g : σ → A × σ) (f : NkFile σ) :
    SameFile f (f.libEng g).2 := ⟨rfl, rfl, rfl, rfl⟩

theorem NkFile.Sound.view_ok {f : NkFile σ} (h : f.Sound vol) (hc : 0 < vol.clusterSize) :
    (f.view vol).Ok where
  init_nonneg := h.wf.init_nonneg
  init_le := h.wf.init_le
  hwm_nonneg := h.hwm_nonneg
  hwm_le := h.hwm_le
  size_le := Ntfs.dataSize_le_tail hc

/-! ### Raw zeroing -/

/-- Some write of the list covers byte `q` of the device. -/
def Hit (cs : List (ℤ × ℤ)) (q : ℤ) : Prop := ∃ c ∈ cs, c.1 ≤ q ∧ q < c.1 + c.2

theorem hit_cons {c : ℤ × ℤ} {cs : List (ℤ × ℤ)} {q : ℤ} :
    Hit (c :: cs) q ↔ (c.1 ≤ q ∧ q < c.1 + c.2) ∨ Hit cs q := by
  simp [Hit]

theorem diskWrite_zeros (disk : ℤ → UInt8) (pos count q : ℤ) :
    diskWrite disk pos count zeros q = if pos ≤ q ∧ q < pos + count then 0 else disk q := rfl

section Device

variable {L : Libntfs σ} (hL : L.DeviceWrites)
include hL

/-- The writes leave everything but the device alone, and the device outside their
targets; when none is short, the targets are zeros. -/
theorem pwriteZeros_spec : ∀ (cs : List (ℤ × ℤ)) (f : NkFile σ),
    (pwriteZeros L cs f).2.na = f.na ∧ (pwriteZeros L cs f).2.mref = f.mref ∧
    (pwriteZeros L cs f).2.wr = f.wr ∧
    (∀ q, (pwriteZeros L cs f).2.disk q = f.disk q ∨
      (Hit cs q ∧ (pwriteZeros L cs f).2.disk q = 0)) ∧
    ((pwriteZeros L cs f).1 = 0 → ∀ q, Hit cs q → (pwriteZeros L cs f).2.disk q = 0)
  | [], f => ⟨rfl, rfl, rfl, fun _ => .inl rfl, fun _ q hq => by simp [Hit] at hq⟩
  | c :: cs, f => by
    rw [pwriteZeros]
    by_cases hr : (L.pwrite f.toNtfs c.1 c.2 zeros).1 = c.2
    · obtain ⟨hna, hdisk⟩ := hL.pwrite_ok f.toNtfs c.1 c.2 zeros hr
      have ih := pwriteZeros_spec cs (f.lib fun s => L.pwrite s c.1 c.2 zeros).2
      simp only [NkFile.lib, hr, ne_eq, not_true_eq_false, if_false, hna, hdisk,
        diskWrite_zeros] at ih ⊢
      obtain ⟨h1, h2, h3, h4, h5⟩ := ih
      refine ⟨h1, h2, h3, fun q => ?_, fun h0 q hq => ?_⟩
      · rw [hit_cons]
        rcases h4 q with h | ⟨hc, h⟩
        · rw [h]
          split_ifs with hin
          · exact .inr ⟨.inl hin, rfl⟩
          · exact .inl rfl
        · exact .inr ⟨.inr hc, h⟩
      · rcases hit_cons.mp hq with hin | hc
        · rcases h4 q with h | ⟨_, h⟩
          · rw [h, if_pos hin]
          · exact h
        · exact h5 h0 q hc
    · obtain ⟨hna, hdisk⟩ := hL.pwrite_short f.toNtfs c.1 c.2 zeros hr
      simp only [NkFile.lib, ne_eq, hr, not_false_eq_true, if_true]
      refine ⟨hna, trivial, trivial, fun q => ?_, fun h => by simp at h⟩
      rcases hdisk q with h | h
      · exact .inl h
      · rw [diskWrite_zeros] at h
        split_ifs at h with hin
        · exact .inr ⟨hit_cons.mpr (.inl hin), h⟩
        · exact .inl h

end Device

/-- The writes of one element hit the bytes it places for the range. -/
theorem hit_zeroRawRun {csize lo hi q : ℤ} {e : RunlistElement} :
    Hit (zeroRawRun csize lo hi e) q ↔
      ∃ x, lo ≤ x ∧ x < hi ∧ e.phys csize x = some q := by
  simp only [RunlistElement.phys_eq_some]
  unfold zeroRawRun
  split_ifs with hl
  · simp only [Hit, List.not_mem_nil, false_and, exists_false, false_iff]
    rintro ⟨x, _, _, h, _⟩
    omega
  · constructor
    · rintro ⟨c, hc, h1, h2⟩
      obtain ⟨d, hd, rfl⟩ := List.mem_map.mp hc
      obtain ⟨ha, hb, hd2⟩ := chunks_mem (by decide) _ _ d hd
      refine ⟨q - e.lcn * csize + e.vcn * csize, ?_⟩
      simp only at h1 h2
      split_ifs at ha hd2 <;> omega
    · rintro ⟨x, h1, h2, ⟨h3, h4, h5⟩, rfl⟩
      obtain ⟨c, hc, h6, h7⟩ := chunks_cover (show 0 < gzSize by decide)
        (if e.vcn * csize > lo then e.vcn * csize else lo)
        (if e.vcn * csize + e.length * csize < hi then e.vcn * csize + e.length * csize else hi)
        x (by split_ifs <;> omega) (by split_ifs <;> omega)
      exact ⟨_, List.mem_map_of_mem hc, by simp only; omega, by simp only; omega⟩

theorem hit_zeroRawWrites {csize lo hi q a : ℤ} {rl : Runlist} (hc : 0 < csize)
    (h : Contiguous a rl.elements) : Hit (zeroRawWrites csize rl lo hi) q ↔
      ∃ x, lo ≤ x ∧ x < hi ∧ rl.phys csize x = some q := by
  have hflat : Hit (zeroRawWrites csize rl lo hi) q ↔
      ∃ e ∈ rl.elements, Hit (zeroRawRun csize lo hi e) q := by
    simp only [Hit, zeroRawWrites, List.mem_flatMap]
    constructor
    · rintro ⟨c, ⟨e, he, hc⟩, hq⟩
      exact ⟨e, he, c, hc, hq⟩
    · rintro ⟨e, he, c, hc, hq⟩
      exact ⟨c, ⟨e, he, hc⟩, hq⟩
  rw [hflat]
  simp only [hit_zeroRawRun]
  constructor
  · rintro ⟨e, he, x, h1, h2, hx⟩
    refine ⟨x, h1, h2, ?_⟩
    have hcov := (RunlistElement.phys_eq_some.mp hx).1
    rw [Runlist.phys, h.findSome_eq hc e he x hcov.2.1 hcov.2.2]
    exact hx
  · rintro ⟨x, h1, h2, hx⟩
    obtain ⟨e, he, hex⟩ := Runlist.phys_mem hx
    exact ⟨e, he, x, h1, h2, hex⟩

/-- What `zero_raw` does to a file, whether it succeeds or not. -/
structure RawZeroed (vol : NtfsVolume) (lo hi : ℤ) (f g : NkFile σ) : Prop where
  na : g.na = f.na
  mref : g.mref = f.mref
  wr : g.wr = f.wr
  content : ∀ x, g.content vol x = f.content vol x ∨
    (lo ≤ x ∧ x < hi ∧ g.content vol x = 0)

theorem zeroRaw_spec {L : Libntfs σ} {v : NkVolume} (hL : L.Spec v.vol)
    (hc : 0 < v.vol.clusterSize) (lo hi : ℤ) {f : NkFile σ} (hf : f.toNtfs.Wf v.vol)
    (hr : f.na.nonResident = true) :
    RawZeroed v.vol lo hi f (zeroRaw L v lo hi f).2 ∧
    ((zeroRaw L v lo hi f).1 = 0 → ∀ x, lo ≤ x → x < hi →
      (zeroRaw L v lo hi f).2.content v.vol x = 0) := by
  obtain ⟨hna, hm, hw, hd, h0⟩ :=
    pwriteZeros_spec hL.toDeviceWrites (zeroRawWrites v.vol.clusterSize f.na.rl lo hi) f
  change (zeroRaw L v lo hi f).2.na = f.na at hna
  have hphys : ∀ x, (zeroRaw L v lo hi f).2.phys v.vol x = f.phys v.vol x := fun x => by
    simp only [Ntfs.phys, hna]
  refine ⟨⟨hna, hm, hw, fun x => ?_⟩, fun hz x h1 h2 => ?_⟩
  · cases hp : f.phys v.vol x with
    | none =>
      rw [Ntfs.content_of_hole hp hr, Ntfs.content_of_hole ((hphys x).trans hp) (hna ▸ hr)]
      exact .inl rfl
    | some p =>
      rw [Ntfs.content_of_phys hp, Ntfs.content_of_phys ((hphys x).trans hp)]
      rcases hd p with h | ⟨hh, h⟩
      · exact .inl h
      · obtain ⟨y, h1, h2, hy⟩ := (hit_zeroRawWrites hc hf.rl_ok.elements).mp hh
        obtain rfl : x = y := hf.phys_inj hp hy
        exact .inr ⟨h1, h2, h⟩
  · cases hp : f.phys v.vol x with
    | none => exact Ntfs.content_of_hole ((hphys x).trans hp) (hna ▸ hr)
    | some p =>
      rw [Ntfs.content_of_phys ((hphys x).trans hp)]
      exact h0 hz p ((hit_zeroRawWrites hc hf.rl_ok.elements).mpr ⟨x, h1, h2, hp⟩)

end NtfsKit
