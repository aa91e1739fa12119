import NtfsKit.Bridge.Tiling
import NtfsKit.Engine.RunlistBounds
import NtfsKit.Volume.BlockmapFile
import NtfsKit.Volume.Coherence
import NtfsKit.Volume.FlatStore

/-! The purge after a write map. Three sizes meet in it: the cluster size the engine decodes
from the boot sector, the granule `pickCacheBlockSize` takes from the same bytes, and the
blocks the window is made of. Extents end where the window ends, which may be inside a
cluster; rounding them out to granules stays inside their clusters, because the granule
divides the cluster size. The size of the device is a fourth: nothing compares the volume
with it. -/

namespace NtfsKit

variable {σ : Type}

/-! ### The granules of a purge -/

/-- The segments of a range, as `(offset, length)`. -/
def FSMetadataRange.segments (r : FSMetadataRange) : List (ℤ × ℤ) :=
  (List.range r.segmentCount.toNat).map fun i : ℕ =>
    (r.offset + i * r.segmentLength, r.segmentLength)

namespace BlockDevice

variable (d : BlockDevice)

/-- The pairs `(offset, length)` of `readBlock` and `writeBlock` in a request of `devicePread`
or `devicePwrite`. -/
def pairs (count offset : ℤ) : List (ℤ × ℤ) :=
  if badRange count offset then []
  else
    let stop := min (offset + count) d.size
    if offset ≥ d.size ∨ stop ≤ offset then []
    else (d.stride (d.alignedStart offset) (d.alignedEnd stop)).map fun o => (o, d.cacheBlockSize)

/-- Granule `k`. -/
def pair (k : ℤ) : ℤ × ℤ := (k * d.cacheBlockSize, d.cacheBlockSize)

/-- A byte of the extent lies in granule `k`. -/
def Meets (k : ℤ) (e : Extent) : Prop :=
  ∃ q, e.physical ≤ q ∧ q < e.physical + e.length ∧ d.granule q = k

variable {d}

theorem granule_iff {k q : ℤ} :
    d.granule q = k ↔ k * d.cacheBlockSize ≤ q ∧ q < (k + 1) * d.cacheBlockSize := by
  rw [granule, Int.ediv_eq_iff_of_pos d.pos, add_mul, one_mul]

theorem granule_mul (k : ℤ) : d.granule (k * d.cacheBlockSize) = k :=
  Int.mul_ediv_cancel _ d.pos.ne'

/-- The strides of an aligned range begin its granules. -/
theorem stride_dvd {a b o : ℤ} (ha : d.cacheBlockSize ∣ a) (ho : o ∈ d.stride a b) :
    o = d.granule o * d.cacheBlockSize := by
  obtain ⟨i, -, rfl⟩ := List.mem_map.mp ho
  exact (Int.ediv_mul_cancel (ha.add (Dvd.intro_left _ rfl))).symm

/-- A request uses the granules of its bytes. -/
theorem mem_pairs {count offset : ℤ} (h : badRange count offset = false) {k : ℤ} :
    d.pair k ∈ d.pairs count offset ↔
      ∃ q, offset ≤ q ∧ q < offset + count ∧ q < d.size ∧ d.granule q = k := by
  set stop := min (offset + count) d.size
  have hle : stop ≤ d.size := min_le_right _ _
  have hmem : ∀ q, q < stop ↔ q < offset + count ∧ q < d.size := fun q => lt_min_iff
  by_cases hnone : offset ≥ d.size ∨ stop ≤ offset
  · have hnil : d.pairs count offset = [] := by
      rw [pairs, if_neg (by rw [h]; decide)]
      exact if_pos hnone
    rw [hnil]
    refine iff_of_false List.not_mem_nil ?_
    rintro ⟨q, h1, h2, h3, -⟩
    have := (hmem q).mpr ⟨h2, h3⟩
    omega
  have hlist : d.pairs count offset = (d.stride (d.alignedStart offset) (d.alignedEnd stop)).map
      fun o => (o, d.cacheBlockSize) := by
    rw [pairs, if_neg (by rw [h]; decide)]
    exact if_neg hnone
  have hstart := d.alignedStart_dvd offset
  have hend := alignedEnd_dvd hle
  rw [hlist, List.mem_map]
  constructor
  · rintro ⟨o, ho, heq⟩
    have ho' : o = k * d.cacheBlockSize := congrArg Prod.fst heq
    obtain ⟨h1, h2⟩ := (mem_stride hstart hend).mp ⟨o, ho, rfl⟩
    rw [alignedEnd_eq hle] at h2
    -- the granule's first byte, or the request's where that comes later
    have hlt : o < stop := by
      by_contra hn
      have := roundUp_le d.pos (not_lt.mp hn) (ho' ▸ Dvd.intro_left k rfl)
      omega
    have hend' := (hmem (max o offset)).mp (max_lt hlt (by omega))
    refine ⟨max o offset, le_max_right _ _, hend'.1, hend'.2, ?_⟩
    rcases le_total offset o with hoo | hoo
    · rw [max_eq_left hoo, ho', granule_mul]
    · rw [max_eq_right hoo]
      exact le_antisymm (le_of_mul_le_mul_right (ho' ▸ h1) d.pos)
        (Int.le_ediv_of_mul_le d.pos (ho' ▸ hoo))
  · rintro ⟨q, h1, h2, h3, rfl⟩
    have hlt := (hmem q).mpr ⟨h2, h3⟩
    obtain ⟨o, ho, heq⟩ := (mem_stride hstart hend).mpr
      ⟨(d.alignedStart_le offset).trans h1, hlt.trans_le (le_alignedEnd hle)⟩
    exact ⟨o, ho, by rw [pair, heq, ← stride_dvd hstart ho]⟩

/-- A granule that holds a byte of the device lies on it. -/
theorem pair_le_size {k q : ℤ} (hq : q < d.size) (hk : d.granule q = k) :
    (k + 1) * d.cacheBlockSize ≤ d.size := by
  obtain ⟨n, hn⟩ := d.dvd
  have hlt : k < n := hk ▸ (Int.ediv_lt_iff_lt_mul d.pos).mpr (by
    rw [mul_comm, ← hn]
    exact hq)
  calc (k + 1) * d.cacheBlockSize ≤ n * d.cacheBlockSize :=
        mul_le_mul_of_nonneg_right hlt d.pos.le
    _ = d.size := by rw [mul_comm, ← hn, size]

/-- Every granule on the device is what a request for it uses. -/
theorem pair_mem_pairs {k : ℤ} (hmax : d.size ≤ int64Max) (h0 : 0 ≤ k)
    (h : (k + 1) * d.cacheBlockSize ≤ d.size) :
    d.pair k ∈ d.pairs d.cacheBlockSize (k * d.cacheBlockSize) := by
  have hg := d.pos
  have hk : 0 ≤ k * d.cacheBlockSize := mul_nonneg h0 hg.le
  rw [add_mul, one_mul] at h
  refine (mem_pairs ?_).mpr ⟨_, le_rfl, by omega, by omega, granule_mul k⟩
  simp only [badRange, Bool.or_eq_false_iff, decide_eq_false_iff_not]
  omega

/-- The segments of a purge are the granules that hold a byte of its range. -/
theorem mem_segments_purgeRange {w : ℤ × ℤ} (hw : 0 < w.2) {p : ℤ × ℤ} :
    p ∈ (purgeRange d.cacheBlockSize w).segments ↔
      ∃ k, p = d.pair k ∧ ∃ q, w.1 ≤ q ∧ q < w.1 + w.2 ∧ d.granule q = k := by
  have hg := d.pos
  set g := d.cacheBlockSize
  set low := w.1 / g
  set high := (w.1 + w.2 + g - 1) / g
  have hhigh : ∀ k, k < high ↔ k * g < w.1 + w.2 := fun k => by
    rw [← Int.add_one_le_iff, Int.le_ediv_iff_mul_le hg, add_mul, one_mul]
    omega
  have hlow : ∀ k, low ≤ k ↔ w.1 < (k + 1) * g := fun k => by
    rw [← Int.lt_add_one_iff, Int.ediv_lt_iff_lt_mul hg]
  have hseg : (purgeRange g w).segments =
      (List.range (high - low).toNat).map fun i : ℕ => d.pair (low + i) := by
    simp only [purgeRange, FSMetadataRange.segments, ← sub_mul, Int.mul_ediv_cancel _ hg.ne']
    refine List.map_congr_left fun i _ => ?_
    rw [pair, add_mul]
  rw [hseg, List.mem_map]
  constructor
  · rintro ⟨i, hi, rfl⟩
    have h1 := (hlow (low + i)).mp (by omega)
    have h2 := (hhigh (low + i)).mp (by
      rw [List.mem_range] at hi
      omega)
    have h3 : (low + i) * g < (low + i + 1) * g := mul_lt_mul_of_pos_right (by omega) hg
    exact ⟨_, rfl, max w.1 ((low + i) * g), le_max_left _ _, max_lt (by omega) h2,
      granule_iff.mpr ⟨le_max_right _ _, max_lt h1 h3⟩⟩
  · rintro ⟨k, rfl, q, h1, h2, hk⟩
    obtain ⟨h3, h4⟩ := granule_iff.mp hk
    have h5 := (hlow k).mpr (h1.trans_lt h4)
    have h6 := (hhigh k).mpr (h3.trans_lt h2)
    refine ⟨(k - low).toNat, List.mem_range.mpr (by omega), ?_⟩
    congr 1
    omega

end BlockDevice

/-! ### The granule and the clusters -/

/-- The NTFS encoding of the cluster size: from `0x81` on, `spc` is a negative exponent. -/
def ntfsClusterSize (boot : ℕ → UInt8) : ℕ :=
  let bps := (boot 0x0B).toNat + (boot 0x0C).toNat * 2 ^ 8
  let spc := (boot 0x0D).toNat
  if spc > 0x80 then bps * 2 ^ (256 - spc) else bps * spc

/-- The exponent is capped at no size that counts. -/
theorem bootClusterSize_eq {boot : ℕ → UInt8} (h : 0 < bootClusterSize boot) :
    bootClusterSize boot = ntfsClusterSize boot := by
  unfold bootClusterSize ntfsClusterSize at *
  dsimp only at *
  split_ifs at h ⊢
  · rfl
  · exact absurd h (by decide)
  · rfl

/-- What a successful mount tells: the volume's fields fit their types, and the engine decoded
the cluster size from the boot sector that `pickCacheBlockSize` read. It does not tell that the
clusters lie on the device: the engine looks for the volume's last sector with a seek, and
`nkdev_seek` takes every offset from 0 on. -/
structure Mounted (vol : NtfsVolume) (boot : Option (ℕ → UInt8)) : Prop extends vol.Fields where
  decoded : ∀ b ∈ boot, vol.clusterSize = ntfsClusterSize b

/-- No granule holds bytes of two clusters. -/
theorem Mounted.cacheBlockSize_dvd {vol : NtfsVolume} {bs count : ℤ} {hbs : 0 < bs}
    {boot : Option (ℕ → UInt8)} (h : Mounted vol boot)
    (hdvd : bs ∣ vol.clusterSize) :
    (BlockDevice.opened bs count hbs boot).cacheBlockSize ∣ vol.clusterSize := by
  change pickCacheBlockSize bs (count * bs) boot ∣ vol.clusterSize
  unfold pickCacheBlockSize
  by_cases hc : 0 < bs ∧ count * bs % 4096 = 0 ∧ 4096 % bs = 0
  · rw [if_pos hc]
    cases hboot : boot with
    | none => exact hdvd
    | some b =>
      dsimp only
      split_ifs with h4096
      · rw [h.decoded b hboot, ← bootClusterSize_eq h4096.1]
        exact Int.natCast_dvd_natCast.mpr (Nat.dvd_of_mod_eq_zero h4096.2)
      · exact hdvd
  · rw [if_neg hc]
    exact hdvd

/-! ### The call -/

/-- The extents a write map packs for the kernel; an empty window is not mapped. -/
def packedExtents (L : Libntfs σ) (v : NkVolume) (d : BlockDevice) (offset length : ℤ)
    (cb : List Extent → Bool) (f : NkFile σ) : List Extent :=
  if length = 0 then []
  else (nkBlockmap L v offset length true d.blockSize cb f).extents

/-- The ranges given to `metadataPurge`. -/
def purgedRanges (d : BlockDevice) (es : List Extent) : List FSMetadataRange :=
  (writeRanges es).map (purgeRange d.cacheBlockSize)

variable {L : Libntfs σ} {v : NkVolume} {d : BlockDevice}

/-- A write map that succeeds ran, and its purge did too. -/
theorem blockmapFile_ok {purge : List FSMetadataRange → Bool} {offset length : ℤ}
    {cb : List Extent → Bool} {f : NkFile σ} (hl : length ≠ 0)
    (h : (blockmapFile L v d purge offset length true cb f).1 = some (.ok ())) :
    (nkBlockmap L v offset length true d.blockSize cb f).ret = some 0 ∧
    (blockmapFile L v d purge offset length true cb f).2 =
      (nkBlockmap L v offset length true d.blockSize cb f).file ∧
    (writeRanges (nkBlockmap L v offset length true d.blockSize cb f).extents ≠ [] →
      purge (purgedRanges d (nkBlockmap L v offset length true d.blockSize cb f).extents) =
        true) := by
  unfold blockmapFile at h ⊢
  rw [if_neg hl] at h ⊢
  by_cases hro : (true && v.vol.readOnly) = true
  · rw [if_pos hro] at h
    cases h
  rw [if_neg hro] at h ⊢
  set m := nkBlockmap L v offset length true d.blockSize cb f
  obtain ⟨rc, hrc, hanswer⟩ := Option.map_eq_some_iff.mp h
  split_ifs at hanswer with h2 h0
  refine ⟨by rw [hrc, h0.1], rfl, fun hne => ?_⟩
  have hpurge := h0.2
  by_contra hfail
  have hempty : (writeRanges m.extents).isEmpty = false := by
    cases hw : writeRanges m.extents with
    | nil => exact absurd hw hne
    | cons => rfl
  simp only [purgeFailed, hrc, h0.1, hempty, decide_true, Bool.true_and, Bool.not_false,
    Bool.not_eq_false'] at hpurge
  exact hfail hpurge

/-- The granules of a purge are those that meet a data extent. -/
theorem mem_purgedRanges {es : List Extent} (hpos : ∀ e ∈ es, 0 < e.length)
    (hdata : ∀ e ∈ es, 0 ≤ e.physical) {p : ℤ × ℤ} :
    p ∈ (purgedRanges d es).flatMap FSMetadataRange.segments ↔
      ∃ k, p = d.pair k ∧ ∃ e ∈ es, d.Meets k e := by
  have hranges : writeRanges es = es.map fun e => (e.physical, e.length) := by
    rw [writeRanges, ← List.filterMap_eq_map]
    exact List.filterMap_congr fun e he => if_pos (hdata e he)
  rw [purgedRanges, hranges, List.mem_flatMap]
  constructor
  · rintro ⟨r, hr, hp⟩
    obtain ⟨w, hw, rfl⟩ := List.mem_map.mp hr
    obtain ⟨e, he, rfl⟩ := List.mem_map.mp hw
    obtain ⟨k, hk, hq⟩ := (BlockDevice.mem_segments_purgeRange (hpos e he)).mp hp
    exact ⟨k, hk, e, he, hq⟩
  · rintro ⟨k, rfl, e, he, hmeets⟩
    exact ⟨_, List.mem_map_of_mem (List.mem_map_of_mem he),
      (BlockDevice.mem_segments_purgeRange (hpos e he)).mpr ⟨k, rfl, hmeets⟩⟩

/-- A granule that meets an extent in a run lies in the run's clusters. -/
theorem Extent.InRun.granule {vol : NtfsVolume} {rl : List RunlistElement} {e : Extent}
    (h : e.InRun vol rl) (hg : d.cacheBlockSize ∣ vol.clusterSize) {k : ℤ} (hk : d.Meets k e) :
    ∃ r ∈ rl, 0 ≤ r.lcn ∧ r.lcn * vol.clusterSize ≤ (d.pair k).1 ∧
      (d.pair k).1 + (d.pair k).2 ≤ (r.lcn + r.length) * vol.clusterSize := by
  obtain ⟨r, hr, hl, hlow, hhigh, hplace⟩ := h.run
  obtain ⟨q, h1, h2, hq⟩ := hk
  obtain ⟨c, hc⟩ := hg
  obtain ⟨h3, h4⟩ := BlockDevice.granule_iff.mp hq
  have hlow' : r.lcn * vol.clusterSize ≤ q := by omega
  have hhigh' : q < (r.lcn + r.length) * vol.clusterSize := by
    rw [add_mul] at hhigh ⊢
    omega
  -- both ends of the run are multiples of the granule
  have hmul : ∀ x, x * vol.clusterSize = x * c * d.cacheBlockSize := fun x => by
    rw [hc]
    ring
  rw [hmul] at hlow' hhigh'
  have hk1 : r.lcn * c < k + 1 := lt_of_mul_lt_mul_right (hlow'.trans_lt h4) d.pos.le
  have hk2 : k < (r.lcn + r.length) * c := lt_of_mul_lt_mul_right (h3.trans_lt hhigh') d.pos.le
  refine ⟨r, hr, hl, ?_, ?_⟩
  · rw [hmul]
    exact mul_le_mul_of_nonneg_right (by omega) d.pos.le
  · calc k * d.cacheBlockSize + d.cacheBlockSize = (k + 1) * d.cacheBlockSize := by ring
      _ ≤ _ := by
        rw [hmul]
        exact mul_le_mul_of_nonneg_right hk2 d.pos.le

/-- What the purge after a write map is to be: `metadataPurge` succeeded on exactly the granules
that meet an extent packed for the kernel; each is a pair every engine request for a byte of it
uses; and none leaves the clusters of the file's runs. -/
structure PurgeExact (L : Libntfs σ) (v : NkVolume) (d : BlockDevice)
    (purge : List FSMetadataRange → Bool) (offset length : ℤ) (cb : List Extent → Bool)
    (f : NkFile σ) : Prop where
  exact : ∀ p, p ∈ (purgedRanges d (packedExtents L v d offset length cb f)).flatMap
      FSMetadataRange.segments ↔
    ∃ k, p = d.pair k ∧ ∃ e ∈ packedExtents L v d offset length cb f, d.Meets k e
  purged : packedExtents L v d offset length cb f ≠ [] →
    purge (purgedRanges d (packedExtents L v d offset length cb f)) = true
  used : ∀ k, (∃ e ∈ packedExtents L v d offset length cb f, d.Meets k e) →
    d.pair k ∈ d.pairs d.cacheBlockSize (k * d.cacheBlockSize) ∧
      ∀ n o, BlockDevice.badRange n o = false → (∃ q, o ≤ q ∧ q < o + n ∧ d.granule q = k) →
        d.pair k ∈ d.pairs n o
  confined : ∀ k, (∃ e ∈ packedExtents L v d offset length cb f, d.Meets k e) →
    ∃ r ∈ (blockmapFile L v d purge offset length true cb f).2.na.rl.elements,
      0 ≤ r.lcn ∧ r.lcn * v.vol.clusterSize ≤ (d.pair k).1 ∧
      (d.pair k).1 + (d.pair k).2 ≤ (r.lcn + r.length) * v.vol.clusterSize

/-- An empty window is not mapped, and nothing is purged. -/
theorem PurgeExact.of_empty {purge : List FSMetadataRange → Bool} {offset length : ℤ}
    {cb : List Extent → Bool} {f : NkFile σ} (hl : length = 0) :
    PurgeExact L v d purge offset length cb f := by
  have hnil : packedExtents L v d offset length cb f = [] := if_pos hl
  have hnone : ∀ k, ¬ ∃ e ∈ packedExtents L v d offset length cb f, d.Meets k e := by
    rintro k ⟨e, he, -⟩
    rw [hnil] at he
    cases he
  constructor
  case exact =>
    refine fun p => mem_purgedRanges ?_ ?_
    · exact fun e he => absurd (hnil ▸ he) List.not_mem_nil
    · exact fun e he => absurd (hnil ▸ he) List.not_mem_nil
  case purged => exact fun hne => absurd hnil hne
  case used => exact fun k hk => absurd hk (hnone k)
  case confined => exact fun k hk => absurd hk (hnone k)

/-- The extents of a write map that succeeds are data in runs of the file. -/
theorem packedExtents_inRun (hM : L.Maps) (hc : 0 < v.vol.clusterSize)
    {purge : List FSMetadataRange → Bool} {offset length : ℤ} {cb : List Extent → Bool}
    {f : NkFile σ}
    (hok : (blockmapFile L v d purge offset length true cb f).1 = some (.ok ())) :
    ∀ e ∈ packedExtents L v d offset length cb f, 0 < e.length ∧
      e.InRun v.vol (blockmapFile L v d purge offset length true cb f).2.na.rl.elements := by
  by_cases hl : length = 0
  · intro e he
    rw [packedExtents, if_pos hl] at he
    cases he
  obtain ⟨hret, hfile, -⟩ := blockmapFile_ok hl hok
  rw [packedExtents, if_neg hl, hfile]
  obtain ⟨⟨h0, hpos, hmax, -⟩, hwm, oi, ie, k, hk, hmap⟩ := nkBlockmap_ready hM hret
  have hw : offset < offset + length := by omega
  rw [hmap] at hret ⊢
  obtain ⟨stop, hh, -⟩ := emitExtents_handed hc hk h0 hw hret
  have hrun := emitExtents_inRun hc hk h0 hw (by omega) hret
  exact fun e he => ⟨hh.tiles.pos e he, hrun e he⟩

/-- A granule with a byte on the device is a pair every request for a byte of it uses. -/
theorem BlockDevice.pair_used {k q : ℤ} (hsize : d.size ≤ int64Max) (h0 : 0 ≤ q) (hq : q < d.size)
    (hk : d.granule q = k) : d.pair k ∈ d.pairs d.cacheBlockSize (k * d.cacheBlockSize) ∧
      ∀ n o, badRange n o = false → (∃ q, o ≤ q ∧ q < o + n ∧ d.granule q = k) →
        d.pair k ∈ d.pairs n o := by
  have hwhole := pair_le_size hq hk
  have hk0 : 0 ≤ k := hk ▸ Int.ediv_nonneg h0 d.pos.le
  refine ⟨pair_mem_pairs hsize hk0 hwhole, fun n o hlegal hbyte => ?_⟩
  obtain ⟨x, h1, h2, hx⟩ := hbyte
  have hlt := (granule_iff.mp hx).2
  exact (mem_pairs hlegal).mpr ⟨x, h1, h2, hlt.trans_le hwhole, hx⟩

/-- On a device that holds the volume's clusters the purge is complete and confined. -/
theorem purge_exact (hM : L.Maps) {bs count : ℤ} {hbs : 0 < bs} {boot : Option (ℕ → UInt8)}
    (hd : d = .opened bs count hbs boot) (hsize : d.size ≤ int64Max) (hmount : Mounted v.vol boot)
    (hdvd : bs ∣ v.vol.clusterSize) (hon : v.vol.nrClusters * v.vol.clusterSize ≤ d.size)
    {purge : List FSMetadataRange → Bool} {offset length : ℤ} {cb : List Extent → Bool}
    {f : NkFile σ}
    (hok : (blockmapFile L v d purge offset length true cb f).1 = some (.ok ())) :
    PurgeExact L v d purge offset length cb f := by
  have hrun := packedExtents_inRun hM hmount.clusterSize_pos hok
  have hdata : ∀ e ∈ packedExtents L v d offset length cb f, 0 ≤ e.physical :=
    fun e he => (hrun e he).2.nonneg
  have hg : d.cacheBlockSize ∣ v.vol.clusterSize := by
    subst hd
    exact hmount.cacheBlockSize_dvd hdvd
  constructor
  case exact => exact fun p => mem_purgedRanges (fun e he => (hrun e he).1) hdata
  case purged =>
    intro hne
    obtain ⟨e, he⟩ := List.exists_mem_of_ne_nil _ hne
    have hl : length ≠ 0 := fun hl => hne (if_pos hl)
    have hext : packedExtents L v d offset length cb f =
      (nkBlockmap L v offset length true d.blockSize cb f).extents := if_neg hl
    have hp := hdata e he
    rw [hext] at he ⊢
    exact (blockmapFile_ok hl hok).2.2
      (List.ne_nil_of_mem (List.mem_filterMap.mpr ⟨e, he, if_pos hp⟩))
  case used =>
    rintro k ⟨e, he, q, h1, h2, hq⟩
    have hlast := (hrun e he).2.stop_le
    exact BlockDevice.pair_used hsize ((hdata e he).trans h1) (h2.trans_le (hlast.trans hon)) hq
  case confined =>
    rintro k ⟨e, he, hmeets⟩
    exact (hrun e he).2.granule hg hmeets

/-! ### A volume larger than its device -/

/-- A file of one initialized cluster at `lcn`. -/
def oneCluster (csize lcn : ℤ) : NkFile Unit where
  disk _ := 0
  na := ⟨true, false, false, csize, csize, csize, [⟨0, lcn, 1⟩], fun _ => 0⟩
  eng := ()
  mref := 7
  wr := []

section OneCluster

open Prog

variable {lcn : ℤ} (hv : v.vol.Fields) (h0 : 0 ≤ lcn)
  (hlt : lcn < v.vol.nrClusters) (hmax : lcn ≤ int64Max / v.vol.clusterSize)
include hv h0 hlt hmax

/-- Its runlist passes the check. -/
theorem oneCluster_checked : mapChecked (sparseDisk v.vol.clusterSize 0) v
    (oneCluster v.vol.clusterSize lcn) = (.ok (), oneCluster v.vol.clusterSize lcn) := by
  have hc := hv.clusterSize_pos
  have hq : 1 ≤ int64Max / v.vol.clusterSize := by
    have := hv.clusterSize_lt
    rw [Int.le_ediv_iff_mul_le hc]
    unfold int64Max
    omega
  have hbad : badRunlist v.vol [⟨0, lcn, 1⟩] = false := by
    have hel : Runlist.elements [⟨0, lcn, 1⟩] = [⟨0, lcn, 1⟩] := rfl
    simp only [badRunlist, hel, badFrom, badElement, lcnHole, Bool.or_false, Bool.or_eq_false_iff,
      Bool.and_eq_false_iff, decide_eq_false_iff_not, ne_eq, not_not]
    refine ⟨⟨⟨decide_eq_false (by omega), ?_⟩, ?_⟩, Or.inl (by decide)⟩
    · refine ⟨⟨⟨⟨?_, ?_⟩, ?_⟩, ?_⟩, ?_⟩ <;> omega
    · right
      refine ⟨⟨?_, ?_⟩, ?_⟩ <;> omega
  have hmap : orFail (call (NkFile.lib (sparseDisk v.vol.clusterSize 0).attrMapWholeRunlist)) 0
      (oneCluster v.vol.clusterSize lcn) = (.ok (), oneCluster v.vol.clusterSize lcn) := rfl
  rw [mapChecked, bind_ok hmap, bind_read, show (oneCluster v.vol.clusterSize lcn).na.rl =
    [⟨0, lcn, 1⟩] from rfl, hbad]
  rfl

theorem oneCluster_prepare : prepare (sparseDisk v.vol.clusterSize 0) v 0 v.vol.clusterSize true
    (oneCluster v.vol.clusterSize lcn) = (.ok 0, oneCluster v.vol.clusterSize lcn) := by
  have hc := hv.clusterSize_pos
  have hchecked := oneCluster_checked hv h0 hlt hmax
  set f := oneCluster v.vol.clusterSize lcn
  have hsize : f.na.dataSize = v.vol.clusterSize := rfl
  have hinit : f.na.initializedSize = v.vol.clusterSize := rfl
  have hplain : makeMappable (sparseDisk v.vol.clusterSize 0) v f = (.ok (), f) := rfl
  have hgrow : growSolid (sparseDisk v.vol.clusterSize 0) true v.vol.clusterSize f =
      (.ok (), f) := by
    rw [growSolid, bind_read, if_neg (by rw [hsize]; simp)]
    rfl
  have hbelow : zeroBelow (sparseDisk v.vol.clusterSize 0) v f.wrHwm f.na.initializedSize 0 f =
      (.ok (), f) := by
    rw [zeroBelow, hinit, chunks_nil hc.le, if_pos (show f.wrHwm ≤ _ from hc.le)]
    exact hchecked
  have hgap : zeroGap (sparseDisk v.vol.clusterSize 0) v 0 f = (.ok 0, f) := by
    rw [zeroGap, bind_read, bind_ok hbelow]
    rfl
  rw [prepare, bind_ok hplain, bind_ok hgrow, bind_ok hchecked, if_pos rfl]
  exact hgap

omit hv hlt hmax in
theorem oneCluster_fill : fillWindow (sparseDisk v.vol.clusterSize 0) v 0 0 v.vol.clusterSize
    (oneCluster v.vol.clusterSize lcn).na.initializedSize true
    (oneCluster v.vol.clusterSize lcn) = (.ok (), oneCluster v.vol.clusterSize lcn) := by
  set f := oneCluster v.vol.clusterSize lcn
  have hrl : f.na.rl.elements = [⟨0, lcn, 1⟩] := rfl
  have hnone : firstHole v.vol.clusterSize 0 v.vol.clusterSize f.na.rl.elements = none := by
    rw [hrl]
    simp only [firstHole, lcnHole]
    exact if_neg fun h => absurd h.1 (by omega)
  have hholes : ∀ n, fillHoles (sparseDisk v.vol.clusterSize 0) v 0 0 v.vol.clusterSize (n + 1) f =
      (.ok (), f) := by
    intro n
    rw [fillHoles, bind_read, hnone]
    rfl
  rw [fillWindow, if_pos rfl, bind_ok (hholes _), restoreInit, bind_read,
    if_neg (lt_irrefl _)]
  rfl

/-- A write map of the whole cluster hands it out. -/
theorem oneCluster_map {bs : ℤ} (hbde : v.bde = false)
    (hblocks : v.vol.clusterSize % blockSize bs = 0) :
    let m := nkBlockmap (sparseDisk v.vol.clusterSize 0) v 0 v.vol.clusterSize true bs
      (fun _ => false) (oneCluster v.vol.clusterSize lcn)
    m.ret = some 0 ∧ m.extents = [⟨0, lcn * v.vol.clusterSize, v.vol.clusterSize⟩] := by
  have hc := hv.clusterSize_pos
  have hc32 := hv.clusterSize_lt
  have hpos : 0 ≤ lcn * v.vol.clusterSize := mul_nonneg h0 hc.le
  have hin : Enters (sparseDisk v.vol.clusterSize 0) v 0 v.vol.clusterSize bs
      (oneCluster v.vol.clusterSize lcn) :=
    ⟨le_rfl, hc, by unfold int64Max; omega, hbde, hblocks, rfl, rfl⟩
  have hrl : (oneCluster v.vol.clusterSize lcn).na.rl.elements = [⟨0, lcn, 1⟩] := rfl
  have hpack : packRuns v.vol.clusterSize 0 v.vol.clusterSize int64Max (fun _ => false)
      (oneCluster v.vol.clusterSize lcn).na.rl.elements ⟨[], 0, false⟩ =
        ⟨[⟨0, lcn * v.vol.clusterSize, v.vol.clusterSize⟩], v.vol.clusterSize, false⟩ := by
    rw [hrl]
    have hmax : ¬ v.vol.clusterSize > int64Max := by
      unfold int64Max
      omega
    have hmax' : ¬ (0 : ℤ) ≥ int64Max := by decide
    simp [packRuns, packRun, Packed.pack, h0, hmax, hmax', hpos, not_le.mpr hc, not_lt.mpr hpos]
  intro m
  have hm : m = blockmapOut (sparseDisk v.vol.clusterSize 0) v.vol.clusterSize 0
      [⟨0, lcn * v.vol.clusterSize, v.vol.clusterSize⟩] (oneCluster v.vol.clusterSize lcn) := by
    simp only [m, hin.map_eq, zero_add]
    change blockmapBody _ v 0 v.vol.clusterSize true _ _ (oneCluster v.vol.clusterSize lcn) = _
    simp only [blockmapBody, oneCluster_prepare hv h0 hlt hmax, if_true,
      oneCluster_fill h0]
    change emitExtents _ _ _ _ _ _ _ int64Max _ _ = _
    rw [emitExtents, hpack]
    have hout : handOut (sparseDisk v.vol.clusterSize 0) v.vol.clusterSize true 0
        ⟨[⟨0, lcn * v.vol.clusterSize, v.vol.clusterSize⟩], v.vol.clusterSize, false⟩
        (oneCluster v.vol.clusterSize lcn) = ⟨some 0,
          [⟨0, lcn * v.vol.clusterSize, v.vol.clusterSize⟩], oneCluster v.vol.clusterSize lcn⟩ := by
      have hinit : (oneCluster v.vol.clusterSize lcn).na.initializedSize = v.vol.clusterSize := rfl
      simp [handOut, Packed.mappedEnd, hinit]
    rw [hout]
    rfl
  rw [hm]
  constructor
  · rfl
  · rfl

end OneCluster

/-- No request uses the granule behind the device. -/
theorem BlockDevice.size_not_mem_pairs (n o : ℤ) : d.pair (d.granule d.size) ∉ d.pairs n o := by
  intro hmem
  cases hlegal : badRange n o with
  | true =>
    rw [pairs, if_pos hlegal] at hmem
    cases hmem
  | false =>
    obtain ⟨q, -, -, hq, hk⟩ := (mem_pairs hlegal).mp hmem
    have hend := pair_le_size hq hk
    have hlt := (granule_iff.mp (rfl : d.granule d.size = _)).2
    omega

/-- A write map of a cluster that lies behind the device, or across its end, purges a granule
that no request uses. -/
theorem oneCluster_not_exact (hv : v.vol.Fields) (hro : v.vol.readOnly = false)
    (hbde : v.bde = false) (hblocks : v.vol.clusterSize % blockSize d.blockSize = 0)
    (h0 : 0 ≤ d.size) (hsize : d.size ≤ int64Max)
    (hlong : d.size < v.vol.nrClusters * v.vol.clusterSize) :
    (blockmapFile (sparseDisk v.vol.clusterSize 0) v d (fun _ => true) 0 v.vol.clusterSize true
      (fun _ => false) (oneCluster v.vol.clusterSize (d.size / v.vol.clusterSize))).1 =
        some (.ok ()) ∧
    ¬ PurgeExact (sparseDisk v.vol.clusterSize 0) v d (fun _ => true) 0 v.vol.clusterSize
      (fun _ => false) (oneCluster v.vol.clusterSize (d.size / v.vol.clusterSize)) := by
  have hc := hv.clusterSize_pos
  have hne : v.vol.clusterSize ≠ 0 := hc.ne'
  obtain ⟨hret, hext⟩ := oneCluster_map hv (Int.ediv_nonneg h0 hc.le)
    (Int.ediv_lt_of_lt_mul hc hlong) (Int.ediv_le_ediv hc hsize) hbde hblocks
  constructor
  · rw [blockmapFile, if_neg hne, if_neg (by simp [hro])]
    simp [hret, purgeFailed]
  · intro hexact
    have hfirst := Int.ediv_mul_le d.size hne
    have hlast := Int.lt_ediv_add_one_mul_self d.size hc
    rw [add_mul, one_mul] at hlast
    have hmeets : ∃ e ∈ packedExtents (sparseDisk v.vol.clusterSize 0) v d 0 v.vol.clusterSize
        (fun _ => false) (oneCluster v.vol.clusterSize (d.size / v.vol.clusterSize)),
        d.Meets (d.granule d.size) e := by
      rw [packedExtents, if_neg hne, hext]
      exact ⟨_, List.mem_singleton_self _, d.size, hfirst, hlast, rfl⟩
    exact BlockDevice.size_not_mem_pairs _ _ (hexact.used _ hmeets).1

/-- The purge after every write map that succeeds is complete and confined if and only if the
clusters of the volume lie on the device, or the volume is read-only and has no write maps. -/
theorem purge_complete_and_confined_iff {bs count : ℤ} {hbs : 0 < bs}
    {boot : Option (ℕ → UInt8)} (hd : d = .opened bs count hbs boot) (h0 : 0 ≤ d.size)
    (hsize : d.size ≤ int64Max) (hmount : Mounted v.vol boot) (hbde : v.bde = false)
    (hblocks : v.vol.clusterSize % blockSize bs = 0) (hdvd : bs ∣ v.vol.clusterSize) :
    (∀ (σ : Type) (L : Libntfs σ), L.Maps → ∀ purge offset length cb f,
      (blockmapFile L v d purge offset length true cb f).1 = some (.ok ()) →
        PurgeExact L v d purge offset length cb f) ↔
    v.vol.readOnly = true ∨ v.vol.nrClusters * v.vol.clusterSize ≤ d.size := by
  constructor
  · intro hall
    rw [or_iff_not_imp_left, Bool.not_eq_true]
    intro hro
    by_contra hlong
    have hbad := oneCluster_not_exact (d := d) hmount.toFields hro hbde (hd ▸ hblocks) h0 hsize
      (not_le.mp hlong)
    exact hbad.2 (hall _ _ (sparseDisk_maps _ _) _ _ _ _ _ hbad.1)
  · rintro hcond σ L hM purge offset length cb f hok
    rcases hcond with hro | hon
    · -- only the empty window succeeds
      have hl : length = 0 := by
        by_contra hl
        rw [blockmapFile, if_neg hl, if_pos (by simp [hro])] at hok
        cases hok
      exact PurgeExact.of_empty hl
    · exact purge_exact hM hd hsize hmount hdvd hon hok

/-- The device of a volume of 16 clusters of 4096 bytes, in blocks of 512. -/
def clusterDevice : BlockDevice := .opened 512 128 BlockDevice.sector_pos (some bootSector)

def clusterVolume : NkVolume := ⟨⟨4096, 16, false⟩, false⟩

/-- What mounting a volume of `n` clusters on that device tells. -/
theorem clusterVolume_mounted {n : ℤ} (h0 : 0 ≤ n) (hn : n ≤ int64Max) :
    Mounted ⟨4096, n, false⟩ (some bootSector) where
  clusterSize_pos := (by decide : (0 : ℤ) < 4096)
  clusterSize_lt := (by decide : (4096 : ℤ) < 2 ^ 32)
  nrClusters_nonneg := h0
  nrClusters_le := hn
  decoded b hb := by
    cases hb
    exact (by decide : (4096 : ℤ) = ntfsClusterSize bootSector)

/-- A window of whole blocks across two clusters: the packer is full on its one extent, and
both clusters are purged. -/
theorem purge_complete_and_confined_clusters :
    (purgedRanges clusterDevice (packedExtents (sparseDisk 4096 12) clusterVolume clusterDevice
      512 4096 (fun _ => true) (staleFile 2 8192 8192))).flatMap FSMetadataRange.segments =
        [(16384, 4096), (20480, 4096)] ∧
    PurgeExact (sparseDisk 4096 12) clusterVolume clusterDevice (fun _ => true) 512 4096
      (fun _ => true) (staleFile 2 8192 8192) := by
  have hok : (blockmapFile (sparseDisk 4096 12) clusterVolume clusterDevice (fun _ => true) 512 4096
      true (fun _ => true) (staleFile 2 8192 8192)).1 = some (.ok ()) := by rfl
  have hd : clusterDevice = .opened 512 128 BlockDevice.sector_pos (some bootSector) := rfl
  have hmount : Mounted clusterVolume.vol (some bootSector) :=
    clusterVolume_mounted (by decide) (by decide)
  have hall := (purge_complete_and_confined_iff hd (by decide) (by decide) hmount rfl (by decide)
    (by decide)).mpr (.inr (by decide))
  exact ⟨by decide +kernel, hall _ _ (sparseDisk_maps 4096 12) _ _ _ _ _ hok⟩

/-- The same device under a volume of one cluster more. Its boot sector mounts, the file of
that cluster maps, and the granule purged is one that no request uses. -/
theorem purge_behind_device :
    Mounted ⟨4096, 17, false⟩ (some bootSector) ∧
    (blockmapFile (sparseDisk 4096 0) ⟨⟨4096, 17, false⟩, false⟩ clusterDevice (fun _ => true) 0
      4096 true (fun _ => false) (oneCluster 4096 16)).1 = some (.ok ()) ∧
    (purgedRanges clusterDevice (packedExtents (sparseDisk 4096 0) ⟨⟨4096, 17, false⟩, false⟩
      clusterDevice 0 4096 (fun _ => false) (oneCluster 4096 16))).flatMap
        FSMetadataRange.segments = [(65536, 4096)] ∧
    ∀ n o, ((65536, 4096) : ℤ × ℤ) ∉ clusterDevice.pairs n o :=
  ⟨clusterVolume_mounted (by decide) (by decide), by decide +kernel, by decide +kernel,
    BlockDevice.size_not_mem_pairs⟩

end NtfsKit
