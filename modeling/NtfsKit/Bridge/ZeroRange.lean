import NtfsKit.Bridge.Effect
import NtfsKit.Engine.FullDisk
import NtfsKit.Engine.RunlistBounds

/-! The bytes `zero_raw` touches. On a runlist that `bad_runlist` accepts it writes zeros to
the device bytes behind its range of the attribute and to no others, and stops at the first
short write. -/

namespace NtfsKit

variable {σ : Type}

/-- Every write of the list, each after the ones before it, is a full one. -/
def FullWrites (L : Libntfs σ) : List (ℤ × ℤ) → NkFile σ → Prop
  | [], _ => True
  | c :: cs, f =>
    let r := f.lib fun s => L.pwrite s c.1 c.2 zeros
    r.1 = c.2 ∧ FullWrites L cs r.2

/-- The loop returns 0 after full writes, and -1 at the first short one. -/
theorem pwriteZeros_ret (L : Libntfs σ) : ∀ (cs : List (ℤ × ℤ)) (f : NkFile σ),
    (FullWrites L cs f → (pwriteZeros L cs f).1 = 0) ∧
      (¬ FullWrites L cs f → (pwriteZeros L cs f).1 = -1)
  | [], f => ⟨fun _ => rfl, fun h => absurd trivial h⟩
  | c :: cs, f => by
    obtain ⟨hfull, hshort⟩ := pwriteZeros_ret L cs (f.lib fun s => L.pwrite s c.1 c.2 zeros).2
    rw [FullWrites, pwriteZeros]
    by_cases hr : (f.lib fun s => L.pwrite s c.1 c.2 zeros).1 = c.2
    · rw [if_neg (not_not.mpr hr)]
      exact ⟨fun h => hfull h.2, fun h => hshort fun hrest => h ⟨hr, hrest⟩⟩
    · rw [if_pos hr]
      exact ⟨fun h => absurd h.1 hr, fun _ => rfl⟩

/-- The elements of an accepted runlist follow each other from the first one's cluster on. -/
theorem contiguous_of_checked {vol : NtfsVolume} : ∀ {rl : List RunlistElement},
    (∀ e ∈ rl, e.Checked vol) → rl.IsChain (fun d e => e.vcn = d.vcn + d.length) →
      ∀ a, (∀ e ∈ rl.head?, e.vcn = a) → Contiguous a rl
  | [], _, _, _, _ => trivial
  | e :: rl, hall, hchain, a, ha => by
    obtain ⟨he, hrest⟩ := List.forall_mem_cons.mp hall
    rw [List.isChain_cons] at hchain
    have hvcn : e.vcn = a := ha e rfl
    refine ⟨hvcn, he.length_pos, he.lcn_ge, ?_⟩
    exact contiguous_of_checked hrest hchain.2 _ fun d hd => by rw [hchain.1 d hd, hvcn]

/-- The device bytes behind the bytes `[lo, hi)` of the attribute. -/
def BehindRange (vol : NtfsVolume) (f : NkFile σ) (lo hi q : ℤ) : Prop :=
  ∃ x, lo ≤ x ∧ x < hi ∧ f.phys vol x = some q

/-- On an accepted runlist `zero_raw` zeroes exactly the device bytes behind its range when no
write is short, and returns 0. Otherwise it returns -1 and has changed none but these. No
number it computes leaves 64 bits. -/
theorem zeroRaw_exact {L : Libntfs σ} (hL : L.DeviceWrites) {v : NkVolume} (hv : v.vol.Fields)
    (hsize : v.vol.nrClusters * v.vol.clusterSize ≤ int64Max) {f : NkFile σ}
    (hok : badRunlist v.vol f.na.rl = false) (lo hi : ℤ) :
    (∀ e ∈ f.na.rl.elements, e.NoOverflow v.vol.clusterSize) ∧
    (FullWrites L (zeroRawWrites v.vol.clusterSize f.na.rl lo hi) f →
      (zeroRaw L v lo hi f).1 = 0 ∧
      (∀ q, BehindRange v.vol f lo hi q → (zeroRaw L v lo hi f).2.disk q = 0) ∧
      ∀ q, ¬ BehindRange v.vol f lo hi q → (zeroRaw L v lo hi f).2.disk q = f.disk q) ∧
    (¬ FullWrites L (zeroRawWrites v.vol.clusterSize f.na.rl lo hi) f →
      (zeroRaw L v lo hi f).1 = -1 ∧
      ∀ q, ¬ BehindRange v.vol f lo hi q → (zeroRaw L v lo hi f).2.disk q = f.disk q) := by
  obtain ⟨hall, -, hchain⟩ := badFrom_checked hv.quotient.1 (-1) f.na.rl.elements hok
  have hcont : Contiguous ((f.na.rl.elements.head?.map (·.vcn)).getD 0) f.na.rl.elements := by
    refine contiguous_of_checked hall hchain _ fun e he => ?_
    rw [he]
    rfl
  have hhit : ∀ q, Hit (zeroRawWrites v.vol.clusterSize f.na.rl lo hi) q ↔
      BehindRange v.vol f lo hi q := fun q => hit_zeroRawWrites hv.clusterSize_pos hcont
  obtain ⟨-, -, -, hdisk, hzero⟩ :=
    pwriteZeros_spec hL (zeroRawWrites v.vol.clusterSize f.na.rl lo hi) f
  obtain ⟨hfull, hshort⟩ := pwriteZeros_ret L (zeroRawWrites v.vol.clusterSize f.na.rl lo hi) f
  have hkeep : ∀ q, ¬ BehindRange v.vol f lo hi q → (zeroRaw L v lo hi f).2.disk q = f.disk q := by
    intro q hq
    rcases hdisk q with h | ⟨hin, -⟩
    · exact h
    · exact absurd ((hhit q).mp hin) hq
  have hclusters : v.vol.nrClusters ≤ int64Max / v.vol.clusterSize :=
    (Int.le_ediv_iff_mul_le hv.clusterSize_pos).mpr hsize
  refine ⟨fun e he => ?_, fun h => ⟨hfull h, fun q hq => hzero (hfull h) q ((hhit q).mpr hq), hkeep⟩,
    fun h => ⟨hshort h, hkeep⟩⟩
  exact (hall e he).noOverflow hv fun h0 => ((hall e he).inside h0).trans hclusters

/-- 64 clusters of 512 bytes. -/
def splitVolume : NkVolume := ⟨⟨512, 64, false⟩, false⟩

/-- Two runs with a hole between them, on a device of ones. -/
def splitFile : NkFile Unit where
  disk _ := 1
  na := ⟨true, false, false, 2048, 0, 0, [⟨0, 10, 1⟩, ⟨1, -1, 1⟩, ⟨2, 4, 2⟩], fun _ => 0⟩
  eng := ()
  mref := 5
  wr := []

/-- The range `[500, 1030)`: the end of the first run, the hole, and the start of the last. -/
theorem zeroRaw_exact_split :
    (zeroRaw (fullDisk 512 0) splitVolume 500 1030 splitFile).1 = 0 ∧
    (zeroRaw (fullDisk 512 0) splitVolume 500 1030 splitFile).2.disk 2053 = 0 ∧
    (zeroRaw (fullDisk 512 0) splitVolume 500 1030 splitFile).2.disk 5619 = 1 := by
  have hL : (fullDisk 512 0).DeviceWrites :=
    (@fullDisk_spec splitVolume.vol (by decide) 0).toDeviceWrites
  have hv : splitVolume.vol.Fields := by constructor <;> decide
  obtain ⟨-, hfull, -⟩ := zeroRaw_exact hL hv (by decide) (f := splitFile) (by decide) 500 1030
  obtain ⟨hret, hzero, hkeep⟩ := hfull ⟨rfl, rfl, trivial⟩
  refine ⟨hret, hzero 2053 ⟨1029, by decide, by decide, by decide⟩, hkeep 5619 ?_⟩
  rintro ⟨x, h1, -, hx⟩
  obtain ⟨e, he, hex⟩ := Runlist.phys_mem hx
  obtain ⟨⟨-, h2, h3⟩, h4⟩ := RunlistElement.phys_eq_some.mp hex
  have hmem : e ∈ splitFile.na.rl := List.takeWhile_subset _ he
  simp only [splitFile, List.mem_cons, List.not_mem_nil, or_false] at hmem
  rcases hmem with rfl | rfl | rfl <;> simp only [splitVolume] at h2 h3 h4 <;> omega

end NtfsKit
