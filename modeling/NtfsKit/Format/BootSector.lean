import NtfsKit.Lib.Bytes
import NtfsKit.Volume.Device

/-! The boot sector: what the formatter writes into it, and the two places that take the
geometry of the volume out of it again, the label reader of the probe and the choice of the
cache's granule. -/

namespace NtfsKit

/-! ### Writing it -/

/-- `ffs`: the position of the lowest set bit of an `int`, counted from 1; 0 if there is
none. -/
def ffs (n : ℕ) : ℕ :=
  match (List.range 32).find? n.testBit with
  | some i => i + 1
  | none => 0

/-- What `mkntfs_create_root_structures` encodes. -/
structure BootParams where
  sectorSize : ℕ
  clusterSize : ℕ
  sectorsPerTrack : ℕ
  heads : ℕ
  partStartSect : ℕ
  numSectors : ℕ
  mftLcn : ℕ
  mftmirrLcn : ℕ
  mftRecordSize : ℕ
  indxRecordSize : ℕ
  indxRecordSizeBits : ℕ
  serialNumber : ℕ

/-- `sectors_per_cluster`: a count up to 128, above it 256 minus the logarithm. -/
def BootParams.sectorsPerCluster (p : BootParams) : UInt8 :=
  let sectorsPerCluster := p.clusterSize / p.sectorSize
  if 128 < sectorsPerCluster then UInt8.ofNat (257 - ffs sectorsPerCluster)
  else UInt8.ofNat sectorsPerCluster

/-- A record size in clusters, or minus its logarithm where it is less than a cluster. The
logarithm is checked by shifting it back. -/
def clustersPerRecord (clusterSize recordSize bits : ℕ) : Option Int8 :=
  if clusterSize ≤ recordSize then some (Int8.ofNat (recordSize / clusterSize))
  else
    let c := Int8.ofInt (-bits)
    if (1 <<< (-c).toInt.toNat) % 2 ^ 32 ≠ recordSize then none else some c

def BootParams.clustersPerMftRecord (p : BootParams) : Option Int8 :=
  clustersPerRecord p.clusterSize p.mftRecordSize (ffs p.mftRecordSize - 1)

def BootParams.clustersPerIndexRecord (p : BootParams) : Option Int8 :=
  clustersPerRecord p.clusterSize p.indxRecordSize p.indxRecordSizeBits

/-- The fields that are set, at their offsets in the sector. -/
def BootParams.fields (p : BootParams) (perMft perIndex : Int8) : List (ℕ × List UInt8) :=
  [(0x0B, leBytes 2 p.sectorSize), (0x0D, [p.sectorsPerCluster]), (0x15, [0xF8]),
    (0x18, leBytes 2 p.sectorsPerTrack), (0x1A, leBytes 2 p.heads),
    (0x1C, leBytes 4 p.partStartSect), (0x24, [0x80]), (0x26, [0x80]),
    (0x28, leBytes 8 p.numSectors), (0x30, leBytes 8 p.mftLcn), (0x38, leBytes 8 p.mftmirrLcn),
    (0x40, [perMft.toUInt8]), (0x44, [perIndex.toUInt8]), (0x48, leBytes 8 p.serialNumber),
    (0x50, leBytes 4 0)]

/-- The boot sector of `mkntfs_create_root_structures`, over the template `boot_array` in a
zeroed buffer. -/
def encodeBootSector (bootArray : List UInt8) (p : BootParams) : Option (List UInt8) := do
  let perMft ← p.clustersPerMftRecord
  let perIndex ← p.clustersPerIndexRecord
  pure (patchAll (bootArray ++ List.replicate (8192 - bootArray.length) 0)
    (p.fields perMft perIndex))

/-! ### Reading it -/

/-- `le16` -/
def le16 (b : List UInt8) (o : ℕ) : ℕ := (byteAt b o).toNat ||| (byteAt b (o + 1)).toNat <<< 8

/-- `le64`: an `Int64`, the bytes shifted in from the highest down. -/
def le64 (b : List UInt8) (o : ℕ) : ℤ :=
  ((List.range 8).reverse.foldl
    (fun (v : BitVec 64) i => v <<< 8 ||| (byteAt b (o + i)).toBitVec.setWidth 64) 0).toInt

/-- `isPow2` -/
def isPow2 (n : ℕ) : Bool := n > 0 && n &&& (n - 1) == 0

/-- Where the record of `$Volume` is, and what its decoding needs. -/
structure LabelGeometry where
  bytesPerSector : ℕ
  clusterSize : ℕ
  recordSize : ℕ
  offset : ℤ
  deriving DecidableEq

/-- The `clusterSize` of `readVolumeLabel`. The exponent is bounded before the shift. -/
def labelClusterSize (bytesPerSector spc : ℕ) : Option ℕ :=
  if spc > 0x80 then do
    let exp := 256 - spc
    guard (exp < 22)
    pure (1 <<< exp)
  else pure (spc * bytesPerSector)

/-- The `recordSize` of `readVolumeLabel`. -/
def labelRecordSize (clusterSize : ℕ) (cpr : ℤ) : Option ℕ :=
  if cpr < 0 then do
    guard (-cpr < 22)
    pure (1 <<< (-cpr).toNat)
  else do
    guard (cpr > 0 ∧ cpr ≤ 65536 / max clusterSize 1)
    pure (cpr.toNat * clusterSize)

/-- The geometry part of `readVolumeLabel`. -/
def labelGeometry (boot : List UInt8) : Option LabelGeometry := do
  let bytesPerSector := le16 boot 0x0B
  guard (bytesPerSector ≥ 256 ∧ bytesPerSector ≤ 4096 ∧ isPow2 bytesPerSector)
  let spc := (byteAt boot 0x0D).toNat
  guard (spc > 0x80 ∨ isPow2 spc)
  let clusterSize ← labelClusterSize bytesPerSector spc
  guard (clusterSize > 0 ∧ clusterSize ≤ 2 <<< 20)
  let mftLCN := le64 boot 0x30
  guard (mftLCN > 0 ∧ mftLCN ≤ int64Max / clusterSize)
  let cpr := (byteAt boot 0x40).toInt8.toInt
  let recordSize ← labelRecordSize clusterSize cpr
  guard (recordSize ≥ 512 ∧ recordSize ≤ 65536)
  -- `$Volume` is record 3
  let base := mftLCN * clusterSize
  let add : ℤ := 3 * recordSize
  guard (base ≤ int64Max - add)
  pure ⟨bytesPerSector, clusterSize, recordSize, base + add⟩

/-! ### The fields read back -/

theorem ffs_two_pow {k : ℕ} (hk : k < 32) : ffs (2 ^ k) = k + 1 := by
  have hfind : (List.range 32).find? (2 ^ k).testBit = some k := by
    rw [List.find?_range_eq_some]
    refine ⟨by simp [Nat.testBit_two_pow_self], List.mem_range.mpr hk, fun j hj => ?_⟩
    simp [Nat.testBit_two_pow_of_ne (by omega : k ≠ j)]
  simp only [ffs, hfind]

theorem isPow2_two_pow (k : ℕ) : isPow2 (2 ^ k) = true := by
  simp [isPow2, Nat.and_two_pow_sub_one_eq_mod]

theorem le16_eq (b : List UInt8) (o : ℕ) : le16 b o = leAt b o 2 := by
  have hlo := (byteAt b o).toNat_lt
  rw [le16, Nat.or_comm, ← Nat.shiftLeft_add_eq_or_of_lt hlo, Nat.shiftLeft_eq]
  simp only [leAt]
  omega

theorem le32_eq (b : List UInt8) (o : ℕ) : le16 b o ||| le16 b (o + 2) <<< 16 = leAt b o 4 := by
  have hlo : le16 b o < 2 ^ 16 := le16_eq b o ▸ leAt_lt b o 2
  rw [Nat.or_comm, ← Nat.shiftLeft_add_eq_or_of_lt hlo, Nat.shiftLeft_eq, le16_eq, le16_eq]
  simp only [leAt, Nat.add_assoc, Nat.reduceAdd]
  omega

/-- One round of the loop of `le64`. -/
theorem shiftIn_toNat {v : BitVec 64} {n : ℕ} (hv : v.toNat = n) (hn : n < 2 ^ 56) (x : UInt8) :
    (v <<< 8 ||| x.toBitVec.setWidth 64).toNat = x.toNat + 256 * n := by
  have hx := x.toNat_lt
  have hwide : (x.toBitVec.setWidth 64).toNat = x.toNat := by
    rw [BitVec.toNat_setWidth]
    exact Nat.mod_eq_of_lt (hx.trans (by decide))
  have hshift : (v <<< 8).toNat = n <<< 8 := by
    rw [BitVec.toNat_shiftLeft, hv]
    refine Nat.mod_eq_of_lt ?_
    rw [Nat.shiftLeft_eq]
    omega
  rw [BitVec.toNat_or, hwide, hshift, ← Nat.shiftLeft_add_eq_or_of_lt hx, Nat.shiftLeft_eq]
  omega

/-- The loop, from the highest byte down to byte `j`. -/
theorem shiftIn_range (b : List UInt8) (o : ℕ) : ∀ k j : ℕ, k ≤ 8 →
    ((List.range' j k).reverse.foldl
      (fun (v : BitVec 64) i => v <<< 8 ||| (byteAt b (o + i)).toBitVec.setWidth 64) 0).toNat =
      leAt b (o + j) k
  | 0, _, _ => rfl
  | k + 1, j, hk => by
    have ih := shiftIn_range b o k (j + 1) (by omega)
    have hlt : leAt b (o + (j + 1)) k < 2 ^ 56 :=
      (leAt_lt b _ k).trans_le (Nat.pow_le_pow_right (by decide) (by omega : k ≤ 7))
    rw [List.range'_succ, List.reverse_cons, List.foldl_append, List.foldl_cons, List.foldl_nil,
      shiftIn_toNat ih hlt]
    rfl

theorem le64_eq {b : List UInt8} {o : ℕ} (h : leAt b o 8 < 2 ^ 63) : le64 b o = leAt b o 8 := by
  have hnat := shiftIn_range b o 8 0 le_rfl
  rw [le64, List.range_eq_range', BitVec.toInt_eq_toNat_of_lt (by rw [hnat]; simpa using by omega),
    hnat]
  rfl

/-- What the decoders look at, in a sector the formatter wrote. -/
structure Encoded (p : BootParams) (perMft : Int8) (boot : List UInt8) : Prop where
  sector : le16 boot 0x0B = p.sectorSize % 2 ^ 16
  spc : byteAt boot 0x0D = p.sectorsPerCluster
  lcn : leAt boot 0x30 8 = p.mftLcn % 2 ^ 64
  cpr : byteAt boot 0x40 = perMft.toUInt8

theorem encodeBootSector_encoded {bootArray boot : List UInt8} {p : BootParams}
    (h : encodeBootSector bootArray p = some boot) :
    ∃ perMft, p.clustersPerMftRecord = some perMft ∧ Encoded p perMft boot := by
  obtain ⟨perMft, hmft, h⟩ := Option.bind_eq_some_iff.mp h
  obtain ⟨perIndex, -, h⟩ := Option.bind_eq_some_iff.mp h
  obtain rfl := Option.some.inj h
  refine ⟨perMft, hmft, ?_⟩
  set b := bootArray ++ List.replicate (8192 - bootArray.length) (0 : UInt8) with hb
  have hlen : 8192 ≤ b.length := by
    rw [hb, List.length_append, List.length_replicate]
    omega
  have hlaid : Laid b.length (p.fields perMft perIndex) := by
    refine ⟨fun q hq => le_trans ?_ hlen, ?_⟩
    · simp only [BootParams.fields, List.mem_cons, List.not_mem_nil, or_false] at hq
      rcases hq with rfl | rfl | rfl | rfl | rfl | rfl | rfl | rfl | rfl | rfl | rfl | rfl | rfl |
        rfl | rfl <;> simp
    · simp [BootParams.fields]
  have hfield := holds_patchAll hlaid
  refine ⟨?_, ?_, ?_, ?_⟩
  · rw [le16_eq, (hfield (0x0B, leBytes 2 p.sectorSize) (by simp [BootParams.fields])).leAt]
    norm_num
  · exact hfield (0x0D, [p.sectorsPerCluster]) (by simp [BootParams.fields]) 0 (by simp)
  · rw [(hfield (0x30, leBytes 8 p.mftLcn) (by simp [BootParams.fields])).leAt]
    norm_num
  · exact hfield (0x40, [perMft.toUInt8]) (by simp [BootParams.fields]) 0 (by simp)

/-! ### The geometry -/

/-- The formatter's sizes: powers of two, with at most 4096 sectors to a cluster. -/
structure Sizes (p : BootParams) (a c k : ℕ) : Prop where
  sector : p.sectorSize = 2 ^ a
  sector_ge : 8 ≤ a
  sector_le : a ≤ 12
  cluster : p.clusterSize = 2 ^ c
  cluster_ge : a ≤ c
  cluster_le : c ≤ 21
  sectors : c ≤ a + 12
  record : p.mftRecordSize = 2 ^ k
  record_ge : 9 ≤ k
  record_le : k ≤ 16

section Sizes

variable {p : BootParams} {a c k : ℕ} (h : Sizes p a c k)
include h

theorem Sizes.per_cluster : p.clusterSize / p.sectorSize = 2 ^ (c - a) := by
  rw [h.cluster, h.sector, Nat.pow_div h.cluster_ge (by decide)]

/-- Up to 128 sectors are stored as they are. -/
theorem Sizes.spc_direct (hle : c - a ≤ 7) : p.sectorsPerCluster.toNat = 2 ^ (c - a) := by
  have hpow : 2 ^ (c - a) ≤ 2 ^ 7 := Nat.pow_le_pow_right (by decide) hle
  unfold BootParams.sectorsPerCluster
  rw [h.per_cluster, if_neg (by omega), UInt8.toNat_ofNat']
  exact Nat.mod_eq_of_lt (by omega)

/-- More sectors are stored as 256 minus the logarithm. -/
theorem Sizes.spc_extended (hlt : 7 < c - a) : p.sectorsPerCluster.toNat = 256 - (c - a) := by
  have hpow : 2 ^ 8 ≤ 2 ^ (c - a) := Nat.pow_le_pow_right (by decide) hlt
  have h1 := h.sectors
  unfold BootParams.sectorsPerCluster
  rw [h.per_cluster, if_pos (by omega), ffs_two_pow (by omega), UInt8.toNat_ofNat']
  omega

theorem Sizes.few_sectors : p.clusterSize / p.sectorSize ≤ 128 ↔ c - a ≤ 7 := by
  rw [h.per_cluster, show (128 : ℕ) = 2 ^ 7 by rfl]
  exact Nat.pow_le_pow_iff_right (by decide)

/-- A record of a cluster or more is stored as a count. -/
theorem Sizes.perMft_count (hle : c ≤ k) :
    p.clustersPerMftRecord = some (Int8.ofNat (2 ^ (k - c))) := by
  rw [BootParams.clustersPerMftRecord, clustersPerRecord, h.cluster, h.record,
    if_pos (Nat.pow_le_pow_right (by decide) hle), Nat.pow_div hle (by decide)]

/-- A smaller one as minus its logarithm. -/
theorem Sizes.perMft_log (hlt : k < c) : p.clustersPerMftRecord = some (Int8.ofInt (-k)) := by
  have h1 := h.record_le
  have hlt' : 2 ^ k < 2 ^ c := Nat.pow_lt_pow_right (by decide) hlt
  have hpow : 2 ^ k ≤ 2 ^ 16 := Nat.pow_le_pow_right (by decide) h1
  have hneg : (-Int8.ofInt (-k)).toInt = k := by
    rw [← Int8.ofInt_neg, neg_neg]
    exact Int8.toInt_ofInt_of_le (by omega) (by omega)
  rw [BootParams.clustersPerMftRecord, clustersPerRecord, h.cluster, h.record,
    if_neg (by omega), ffs_two_pow (by omega)]
  simp only [Nat.add_sub_cancel, hneg, Int.toNat_natCast, Nat.shiftLeft_eq, one_mul]
  rw [if_neg (by rw [not_not]; exact Nat.mod_eq_of_lt (by omega))]

variable {boot : List UInt8} {perMft : Int8} (he : Encoded p perMft boot)
include he

theorem Sizes.le16 : NtfsKit.le16 boot 0x0B = 2 ^ a := by
  have hpow : 2 ^ a ≤ 2 ^ 12 := Nat.pow_le_pow_right (by decide) h.sector_le
  rw [he.sector, h.sector]
  exact Nat.mod_eq_of_lt (by omega)

/-- `pickCacheBlockSize` decodes both encodings. -/
theorem Sizes.bootClusterSize : bootClusterSize (byteAt boot) = 2 ^ c := by
  have h1 := h.sectors
  have h2 := h.cluster_ge
  have hbps : (byteAt boot 0x0B).toNat + (byteAt boot 0x0C).toNat * 2 ^ 8 = 2 ^ a := by
    have := h.le16 he
    rw [le16_eq] at this
    simp only [leAt, Nat.reduceAdd] at this
    omega
  unfold NtfsKit.bootClusterSize
  simp only [hbps, he.spc]
  by_cases hle : c - a ≤ 7
  · have hpow : 2 ^ (c - a) ≤ 2 ^ 7 := Nat.pow_le_pow_right (by decide) hle
    rw [h.spc_direct hle, if_neg (by omega), ← pow_add]
    congr 1
    omega
  · rw [h.spc_extended (by omega), if_pos (by omega), if_pos (by omega), ← pow_add]
    congr 1
    omega

/-- Few sectors to a cluster: `readVolumeLabel` decodes the same cluster size. -/
theorem Sizes.labelClusterSize_direct (hle : c - a ≤ 7) :
    labelClusterSize (NtfsKit.le16 boot 0x0B) (byteAt boot 0x0D).toNat = some (2 ^ c) := by
  have hpow : 2 ^ (c - a) ≤ 2 ^ 7 := Nat.pow_le_pow_right (by decide) hle
  have h2 := h.cluster_ge
  rw [h.le16 he, he.spc, h.spc_direct hle, labelClusterSize, if_neg (by omega), ← pow_add]
  exact congrArg (fun e => some (2 ^ e)) (by omega)

/-- Many sectors: `readVolumeLabel` takes the number of sectors for the size. -/
theorem Sizes.labelClusterSize_extended (hlt : 7 < c - a) :
    labelClusterSize (NtfsKit.le16 boot 0x0B) (byteAt boot 0x0D).toNat = some (2 ^ (c - a)) := by
  have h1 := h.sectors
  rw [he.spc, h.spc_extended hlt, labelClusterSize, if_pos (by omega),
    show 256 - (256 - (c - a)) = c - a by omega]
  simp [guard, show c - a < 22 by omega, Nat.shiftLeft_eq]

omit he in
/-- The record size survives, if as a count of clusters it fits the byte. -/
theorem Sizes.labelRecordSize (hper : p.clustersPerMftRecord = some perMft) (hfit : k < c + 7) :
    labelRecordSize (2 ^ c) perMft.toInt = some (2 ^ k) := by
  have h1 := h.record_le
  by_cases hle : c ≤ k
  · rw [h.perMft_count hle] at hper
    obtain rfl := Option.some.inj hper
    have hpow : 2 ^ (k - c) ≤ 2 ^ 6 := Nat.pow_le_pow_right (by decide) (by omega)
    have hmul : 2 ^ (k - c) * 2 ^ c = 2 ^ k := by rw [← pow_add, Nat.sub_add_cancel hle]
    have hle16 : 2 ^ k ≤ 2 ^ 16 := Nat.pow_le_pow_right (by decide) h1
    have hcpr : (Int8.ofNat (2 ^ (k - c))).toInt = (2 ^ (k - c) : ℕ) := by
      rw [Int8.toInt_ofNat']
      have h0 : (0 : ℤ) ≤ (2 ^ (k - c) : ℕ) := by positivity
      exact Int.bmod_eq_of_le (by simp only [Int8.size]; omega) (by simp only [Int8.size]; omega)
    have hpos : (0 : ℤ) < (2 ^ (k - c) : ℕ) := by positivity
    have hbound : ((2 ^ (k - c) : ℕ) : ℤ) ≤ 65536 / (max (2 ^ c) 1 : ℕ) := by
      rw [max_eq_left Nat.one_le_two_pow, Int.le_ediv_iff_mul_le (by positivity)]
      exact_mod_cast (by omega : 2 ^ (k - c) * 2 ^ c ≤ 65536)
    rw [hcpr, NtfsKit.labelRecordSize, if_neg (by omega)]
    simp only [guard, gt_iff_lt, hpos, hbound, and_self, if_true, Int.toNat_natCast, hmul]
    rfl
  · rw [h.perMft_log (by omega)] at hper
    obtain rfl := Option.some.inj hper
    have hcpr : (Int8.ofInt (-k)).toInt = -(k : ℤ) := Int8.toInt_ofInt_of_le (by omega) (by omega)
    have hk := h.record_ge
    rw [hcpr, NtfsKit.labelRecordSize, if_pos (by omega)]
    simp [guard, show (k : ℤ) < 22 by omega, Nat.shiftLeft_eq]

omit he in
/-- Otherwise the byte is no record size at all. -/
theorem Sizes.labelRecordSize_wraps (hper : p.clustersPerMftRecord = some perMft)
    (hfit : c + 7 ≤ k) (clusterSize : ℕ) : NtfsKit.labelRecordSize clusterSize perMft.toInt = none := by
  have h1 := h.record_le
  have h2 := h.sector_ge
  have h3 := h.cluster_ge
  rw [h.perMft_count (by omega)] at hper
  obtain rfl := Option.some.inj hper
  -- 128 clusters are read as a logarithm of 128, 256 as no clusters
  rcases (by omega : k - c = 7 ∨ k - c = 8) with hk | hk
  · rw [hk]
    rfl
  · rw [hk]
    rfl

end Sizes

/-- The cluster size and the record size that a successful decoding used. -/
theorem labelGeometry_some {boot : List UInt8} {g : LabelGeometry}
    (h : labelGeometry boot = some g) :
    labelClusterSize (le16 boot 0x0B) (byteAt boot 0x0D).toNat = some g.clusterSize ∧
      labelRecordSize g.clusterSize (byteAt boot 0x40).toInt8.toInt = some g.recordSize := by
  obtain ⟨-, -, h⟩ := Option.bind_eq_some_iff.mp h
  obtain ⟨-, -, h⟩ := Option.bind_eq_some_iff.mp h
  obtain ⟨clusterSize, hcs, h⟩ := Option.bind_eq_some_iff.mp h
  obtain ⟨-, -, h⟩ := Option.bind_eq_some_iff.mp h
  obtain ⟨-, -, h⟩ := Option.bind_eq_some_iff.mp h
  obtain ⟨recordSize, hrs, h⟩ := Option.bind_eq_some_iff.mp h
  obtain ⟨-, -, h⟩ := Option.bind_eq_some_iff.mp h
  obtain ⟨-, -, h⟩ := Option.bind_eq_some_iff.mp h
  obtain rfl := Option.some.inj h
  exact ⟨hcs, hrs⟩

/-- A decoding all of whose checks pass. -/
theorem labelGeometry_eq {boot : List UInt8} {clusterSize recordSize : ℕ}
    (hbps : le16 boot 0x0B ≥ 256 ∧ le16 boot 0x0B ≤ 4096 ∧ isPow2 (le16 boot 0x0B))
    (hspc : (byteAt boot 0x0D).toNat > 0x80 ∨ isPow2 (byteAt boot 0x0D).toNat)
    (hcs : labelClusterSize (le16 boot 0x0B) (byteAt boot 0x0D).toNat = some clusterSize)
    (hcs' : clusterSize > 0 ∧ clusterSize ≤ 2 <<< 20)
    (hlcn : le64 boot 0x30 > 0 ∧ le64 boot 0x30 ≤ int64Max / clusterSize)
    (hrs : labelRecordSize clusterSize (byteAt boot 0x40).toInt8.toInt = some recordSize)
    (hrs' : recordSize ≥ 512 ∧ recordSize ≤ 65536)
    (hsum : le64 boot 0x30 * clusterSize ≤ int64Max - 3 * recordSize) :
    labelGeometry boot = some ⟨le16 boot 0x0B, clusterSize, recordSize,
      le64 boot 0x30 * clusterSize + 3 * recordSize⟩ := by
  have hguard : ∀ {q : Prop} [Decidable q], q → (guard q : Option Unit) = some () := fun hq =>
    if_pos hq
  unfold labelGeometry
  simp only [hguard hbps, hguard hspc, hcs, hguard hcs', hguard hlcn, hrs, hguard hrs', hguard hsum,
    Option.bind_eq_bind, Option.bind_some]
  rfl

/-- The two decoders take from the sector what the formatter put there exactly if a cluster
has at most 128 sectors and a record less than 128 clusters. -/
theorem geometry_decodes_iff {p : BootParams} {a c k : ℕ} (h : Sizes p a c k)
    (hlcn : 0 < p.mftLcn)
    (hfit : (p.mftLcn * p.clusterSize + 3 * p.mftRecordSize : ℤ) ≤ int64Max)
    {bootArray boot : List UInt8} (hb : encodeBootSector bootArray p = some boot) :
    (∃ g, labelGeometry boot = some g ∧
      g.offset = p.mftLcn * p.clusterSize + 3 * p.mftRecordSize ∧
      g.recordSize = p.mftRecordSize ∧ g.clusterSize = bootClusterSize (byteAt boot)) ↔
    p.clusterSize / p.sectorSize ≤ 128 ∧ p.mftRecordSize / p.clusterSize < 128 := by
  obtain ⟨perMft, hper, he⟩ := encodeBootSector_encoded hb
  have hcpr : (byteAt boot 0x40).toInt8 = perMft := by rw [he.cpr]; rfl
  have hrec : p.mftRecordSize / p.clusterSize < 128 ↔ k < c + 7 := by
    rw [h.cluster, h.record, Nat.div_lt_iff_lt_mul (by positivity),
      show 128 * 2 ^ c = 2 ^ (c + 7) by rw [pow_add]; ring]
    exact Nat.pow_lt_pow_iff_right (by decide)
  rw [h.few_sectors, hrec, h.bootClusterSize he]
  constructor
  · rintro ⟨g, hg, -, -, hcs⟩
    obtain ⟨hcluster, hrecord⟩ := labelGeometry_some hg
    rw [hcpr] at hrecord
    refine ⟨?_, ?_⟩
    · by_contra hlt
      rw [h.labelClusterSize_extended he (by omega), hcs, Option.some.injEq] at hcluster
      have := Nat.pow_right_injective le_rfl hcluster
      have h1 := h.sector_ge
      omega
    · by_contra hge
      rw [h.labelRecordSize_wraps hper (by omega)] at hrecord
      cases hrecord
  · rintro ⟨hle, hlt⟩
    have hcpos : (0 : ℤ) < (2 ^ c : ℕ) := by positivity
    have hbps : 2 ^ 8 ≤ 2 ^ a ∧ 2 ^ a ≤ 2 ^ 12 :=
      ⟨Nat.pow_le_pow_right (by decide) h.sector_ge, Nat.pow_le_pow_right (by decide) h.sector_le⟩
    have hcl : 2 ^ c ≤ 2 ^ 21 := Nat.pow_le_pow_right (by decide) h.cluster_le
    have hrs : 2 ^ 9 ≤ 2 ^ k ∧ 2 ^ k ≤ 2 ^ 16 :=
      ⟨Nat.pow_le_pow_right (by decide) h.record_ge, Nat.pow_le_pow_right (by decide) h.record_le⟩
    rw [h.cluster, h.record] at hfit ⊢
    have hprod : (p.mftLcn * (2 ^ c : ℕ) : ℤ) ≤ int64Max - 3 * (2 ^ k : ℕ) := by omega
    have hmax : (p.mftLcn : ℤ) ≤ int64Max / (2 ^ c : ℕ) := by
      rw [Int.le_ediv_iff_mul_le hcpos]
      omega
    have hsmall : p.mftLcn < 2 ^ 63 := by
      have : (p.mftLcn : ℤ) ≤ int64Max :=
        hmax.trans (Int.ediv_le_self _ (by decide))
      unfold int64Max at this
      omega
    have hleat : leAt boot 0x30 8 = p.mftLcn := by
      rw [he.lcn, Nat.mod_eq_of_lt (by omega)]
    have hle64 : le64 boot 0x30 = p.mftLcn := by
      rw [le64_eq (by omega), hleat]
    refine ⟨_, labelGeometry_eq ?_ ?_ (h.labelClusterSize_direct he hle) ?_ ?_
      (by rw [hcpr]; exact h.labelRecordSize hper hlt) ?_ ?_, ?_, rfl, rfl⟩
    · rw [h.le16 he]
      exact ⟨by omega, by omega, isPow2_two_pow a⟩
    · rw [he.spc, h.spc_direct hle]
      exact .inr (isPow2_two_pow _)
    · exact ⟨by positivity, by simpa using hcl⟩
    · rw [hle64]
      exact ⟨by exact_mod_cast hlcn, hmax⟩
    · exact ⟨by omega, by omega⟩
    · rw [hle64]
      exact hprod
    · exact congrArg (fun l : ℤ => l * (2 ^ c : ℕ) + 3 * (2 ^ k : ℕ)) hle64

/-- A volume with `2 ^ s` sectors of 512 bytes to a cluster and records of 1024 bytes. -/
def sampleParams (s : ℕ) : BootParams where
  sectorSize := 512
  clusterSize := 512 * 2 ^ s
  sectorsPerTrack := 0
  heads := 0
  partStartSect := 0
  numSectors := 2 ^ 26
  mftLcn := 4
  mftmirrLcn := 8
  mftRecordSize := 1024
  indxRecordSize := 4096
  indxRecordSizeBits := 12
  serialNumber := 7

/-- Eight sectors to a cluster. -/
theorem geometry_decodes_eight_sectors : ∃ boot, encodeBootSector [] (sampleParams 3) = some boot ∧
    ∃ g, labelGeometry boot = some g ∧ g.offset = 4 * 4096 + 3 * 1024 ∧ g.recordSize = 1024 ∧
      g.clusterSize = bootClusterSize (byteAt boot) := by
  have hsizes : Sizes (sampleParams 3) 9 12 10 := by
    constructor <;> decide
  refine ⟨_, rfl, ?_⟩
  exact (geometry_decodes_iff hsizes (by decide) (by decide) rfl).mpr ⟨by decide, by decide⟩

/-- 256 sectors to a cluster: the probe works with clusters of 256 bytes, and reads the record
of `$Volume` at 4096 instead of 527360. -/
theorem geometry_of_large_clusters : ∃ boot, encodeBootSector [] (sampleParams 8) = some boot ∧
    labelGeometry boot = some ⟨512, 256, 1024, 4096⟩ ∧ bootClusterSize (byteAt boot) = 131072 ∧
    4 * (sampleParams 8).clusterSize + 3 * (sampleParams 8).mftRecordSize = 527360 := by
  exact ⟨_, rfl, by decide +kernel, by decide +kernel, by decide⟩

end NtfsKit
