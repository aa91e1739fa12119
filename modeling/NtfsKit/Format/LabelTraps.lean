import NtfsKit.Format.VolumeLabel
import NtfsKit.Lib.Traps

/-! `readVolumeLabel` with every operation that could trap: an index or a slice outside an
array, a shift by the width of the word or more, a sum or a product that no `Int` holds, a
division by zero, an empty range. The code below is that of the source, one operation after the
other, each guard evaluated up to the condition that fails; nothing is known of the boot sector
but its length, and nothing of the device. That no operation traps is what makes the label
reader of the probe, where numbers are natural numbers and bytes behind the end are 0, the same
function. -/

namespace NtfsKit.Probe

open Trapping

/-! ### The code -/

/-- `le16` -/
def le16 (b : List UInt8) (o : ℤ) : Trapping ℤ := do
  let lo ← index b o
  let hi ← index b (← add o 1)
  pure (lor lo.toNat (← shl hi.toNat 8))

/-- `le16(b, o) | le16(b, o + 2) << 16`, which the walk spells out for each of its fields. -/
def le32 (b : List UInt8) (o : ℤ) : Trapping ℤ := do
  let lo ← le16 b o
  let hi ← le16 b (← add o 2)
  pure (lor lo (← shl hi 16))

/-- One step of `le64`. -/
def shiftIn (b : List UInt8) (o v i : ℤ) : Trapping ℤ := do
  let v ← shl v 8
  let x ← index b (← add o i)
  pure (lor v x.toNat)

/-- `le64` -/
def le64 (b : List UInt8) (o : ℤ) : Trapping ℤ := do
  let is ← range 0 8
  is.reverse.foldlM (shiftIn b o) 0

/-- `isPow2` -/
def isPow2 (n : ℤ) : Trapping Bool :=
  if n > 0 then do pure (land n (← sub n 1) = 0) else pure false

/-- `spc > 0x80 || isPow2(spc)` -/
def isSpc (spc : ℤ) : Trapping Bool := if spc > 0x80 then pure true else isPow2 spc

/-- `clusterSize` -/
def labelClusterSize (bytesPerSector spc : ℤ) : Trapping ℤ :=
  if spc > 0x80 then do
    let exp ← sub 256 spc
    orNil (exp < 22)
    shl 1 exp
  else mul spc bytesPerSector

/-- `recordSize` -/
def labelRecordSize (clusterSize cpr : ℤ) : Trapping ℤ :=
  if cpr < 0 then do
    orNil ((← neg cpr) < 22)
    shl 1 (← neg cpr)
  else do
    orNil (cpr > 0)
    orNil (cpr ≤ (← div 65536 (max clusterSize 1)))
    mul cpr clusterSize

/-- The geometry: `bytesPerSector`, `recordSize` and the offset of the record. -/
def labelGeometry (boot : List UInt8) : Trapping (ℤ × ℤ × ℤ) := do
  let bytesPerSector ← le16 boot 0x0B
  orNil (bytesPerSector ≥ 256)
  orNil (bytesPerSector ≤ 4096)
  orNil (← isPow2 bytesPerSector)
  let spc : ℤ := (← index boot 0x0D).toNat
  orNil (← isSpc spc)
  let clusterSize ← labelClusterSize bytesPerSector spc
  orNil (clusterSize > 0)
  orNil (clusterSize ≤ (← shl 2 20))
  let mftLCN ← le64 boot 0x30
  orNil (mftLCN > 0)
  orNil (mftLCN ≤ (← div int64Max clusterSize))
  let cpr := (← index boot 0x40).toInt8.toInt
  let recordSize ← labelRecordSize clusterSize cpr
  orNil (recordSize ≥ 512)
  orNil (recordSize ≤ 65536)
  let base ← mul mftLCN clusterSize
  let more ← mul 3 recordSize
  orNil (base ≤ (← sub int64Max more))
  pure (bytesPerSector, recordSize, ← add base more)

/-- The body of the loop of the fix-ups, for sector `i`. -/
def applyFixup (bytesPerSector recordSize usaOfs : ℤ) (usn0 usn1 : UInt8)
    (record : List UInt8) (i : ℤ) : Trapping (List UInt8) := do
  let pos ← sub (← mul i bytesPerSector) 2
  orNil ((← add pos 1) < recordSize)
  orNil ((← index record pos) = usn0)
  orNil ((← index record (← add pos 1)) = usn1)
  let lo ← index record (← add usaOfs (← mul i 2))
  let record ← store record pos lo
  let hi ← index record (← add (← add usaOfs (← mul i 2)) 1)
  store record (← add pos 1) hi

/-- The update sequence fix-ups. -/
def applyFixups (bytesPerSector recordSize : ℤ) (record : List UInt8) : Trapping (List UInt8) := do
  let usaOfs ← le16 record 4
  let usaCount ← le16 record 6
  orNil ((← mod recordSize bytesPerSector) = 0)
  orNil (usaCount = (← add (← div recordSize bytesPerSector) 1))
  orNil (usaOfs ≥ 0x2A)
  orNil ((← add usaOfs (← mul usaCount 2)) ≤ recordSize)
  let usn0 ← index record usaOfs
  let usn1 ← index record (← add usaOfs 1)
  let is ← range 1 usaCount
  is.foldlM (applyFixup bytesPerSector recordSize usaOfs usn0 usn1) record

section Walk

variable (ws : Char → Bool)

/-- `type == 0x60, rec[a + 8] == 0` -/
def isVolumeName (record : List UInt8) (a type : ℤ) : Trapping Bool :=
  if type = 0x60 then do pure ((← index record (← add a 8)) = 0) else pure false

/-- The value of the `VOLUME_NAME` at `a`. -/
def attributeLabel (record : List UInt8) (recordSize a alen : ℤ) : Trapping (List Char) := do
  let vlen ← le32 record (← add a 0x10)
  let vofs ← le16 record (← add a 0x14)
  orNil (vlen > 0)
  orNil (vlen ≤ 256)
  orNil ((← mod vlen 2) = 0)
  orNil (vofs ≥ 24)
  orNil ((← add vofs vlen) ≤ alen)
  orNil ((← add (← add a vofs) vlen) ≤ recordSize)
  let data ← slice record (← add a vofs) (← add (← add a vofs) vlen)
  ofOption (labelString ws data)

/-- The `while` loop, for at most `fuel` attributes. -/
def walkAttributes (record : List UInt8) (recordSize : ℤ) : ℕ → ℤ → Trapping (List Char)
  | 0, _ => .error .spin
  | fuel + 1, a => do
    orNil ((← add a 8) ≤ recordSize)
    let type ← le32 record a
    orNil (type ≠ 0xFFFFFFFF)
    let alen ← le32 record (← add a 4)
    orNil (alen ≥ 24)
    orNil ((← add a alen) ≤ recordSize)
    if ← isVolumeName record a type then attributeLabel ws record recordSize a alen
    else walkAttributes record recordSize fuel (← add a alen)

/-- The rest of `readVolumeLabel` from the record on: the magic, the fix-ups and the walk. -/
def decodeLabel (bytesPerSector recordSize : ℤ) (fuel : ℕ) (record : List UInt8) :
    Trapping (List Char) := do
  orNil ((← index record 0) = 0x46)
  orNil ((← index record 1) = 0x49)
  orNil ((← index record 2) = 0x4C)
  orNil ((← index record 3) = 0x45)
  let record ← applyFixups bytesPerSector recordSize record
  walkAttributes ws record recordSize fuel (← le16 record 0x14)

/-- `readVolumeLabel`; `read` returns the bytes that it could read, and `none` when it throws. -/
def readVolumeLabel (read : ℤ → ℤ → Option (List UInt8)) (fuel : ℕ) (boot : List UInt8) :
    Trapping (List Char) := do
  let (bytesPerSector, recordSize, offset) ← labelGeometry boot
  let zeros ← repeating 0 recordSize
  let bytes := (read offset recordSize).getD []
  orNil ((bytes.length : ℤ) = recordSize)
  decodeLabel ws bytesPerSector recordSize fuel (bytes ++ zeros.drop bytes.length)

end Walk

/-! ### Fields -/

section Fields

variable {b : List UInt8} {o : ℤ} {n : ℕ}

theorem index_byteAt (ho : o = n) (h : n < b.length) : index b o = .ok (byteAt b n) := by
  rw [index_ok ho h, byteAt, List.getD_eq_getElem _ _ h]
  rfl

theorem le16_lt (b : List UInt8) (n : ℕ) : NtfsKit.le16 b n < 2 ^ 16 :=
  le16_eq b n ▸ leAt_lt b n 2

theorem le16_ok (ho : o = n) (hb : b.length < 2 ^ 63) (h : n + 1 < b.length) :
    le16 b o = .ok (NtfsKit.le16 b n : ℤ) := by
  have hlo := (byteAt b n).toNat_lt
  have hhi := (byteAt b (n + 1)).toNat_lt
  have hshift : (byteAt b (n + 1)).toNat <<< 8 < 2 ^ 63 := by
    rw [Nat.shiftLeft_eq]
    omega
  rw [le16, bind_ok (index_byteAt ho (by omega)),
    bind_ok (add_ok (n := n + 1) (by omega) (by omega)), bind_ok (index_byteAt rfl h),
    bind_ok (shl_ok (y := 8) (k := 8) rfl rfl (by decide) hshift), lor_eq (by omega) hshift]
  rfl

/-- The number of four bytes, as the walk puts it together. -/
def dword (b : List UInt8) (n : ℕ) : ℕ := NtfsKit.le16 b n ||| NtfsKit.le16 b (n + 2) <<< 16

theorem dword_lt (b : List UInt8) (n : ℕ) : dword b n < 2 ^ 32 :=
  (le32_eq b n).trans_lt (leAt_lt b n 4)

theorem le32_ok (ho : o = n) (hb : b.length < 2 ^ 63) (h : n + 3 < b.length) :
    le32 b o = .ok (dword b n : ℤ) := by
  have hlo := le16_lt b n
  have hhi := le16_lt b (n + 2)
  have hshift : NtfsKit.le16 b (n + 2) <<< 16 < 2 ^ 63 := by
    rw [Nat.shiftLeft_eq]
    omega
  rw [le32, bind_ok (le16_ok ho hb (by omega)),
    bind_ok (add_ok (n := n + 2) (by omega) (by omega)), bind_ok (le16_ok rfl hb (by omega)),
    bind_ok (shl_ok (y := 16) (k := 16) rfl rfl (by decide) hshift), lor_eq (by omega) hshift]
  rfl

theorem shiftIn_ok {v : BitVec 64} {i : ℤ} {k : ℕ} (ho : o = n) (hi : i = k)
    (hb : b.length < 2 ^ 63) (h : n + k < b.length) : shiftIn b o v.toInt i =
      .ok (v <<< 8 ||| (byteAt b (n + k)).toBitVec.setWidth 64).toInt := by
  have hshl : shl v.toInt 8 = .ok (v <<< 8).toInt := by
    rw [shl, if_pos (by decide), BitVec.ofInt_toInt]
    rfl
  have hbyte : BitVec.ofInt 64 (byteAt b (n + k)).toNat =
      (byteAt b (n + k)).toBitVec.setWidth 64 := by
    rw [BitVec.ofInt_natCast]
    exact BitVec.ofNat_toNat 64 (byteAt b (n + k)).toBitVec
  rw [shiftIn, bind_ok hshl, bind_ok (add_ok (n := n + k) (by omega) (by omega)),
    bind_ok (index_byteAt rfl h), lor, BitVec.ofInt_toInt, hbyte]
  rfl

/-- The loop of `le64`, over the positions still to come. -/
theorem foldlM_shiftIn (ho : o = n) (hb : b.length < 2 ^ 63) : ∀ (is : List ℕ) (v : BitVec 64),
    (∀ i ∈ is, n + i < b.length) → (is.map (Nat.cast : ℕ → ℤ)).foldlM (shiftIn b o) v.toInt =
      .ok (is.foldl (fun (v : BitVec 64) i =>
        v <<< 8 ||| (byteAt b (n + i)).toBitVec.setWidth 64) v).toInt
  | [], _, _ => rfl
  | i :: is, v, h => by
    rw [List.map_cons, List.foldlM_cons, bind_ok (shiftIn_ok ho rfl hb (h i List.mem_cons_self)),
      List.foldl_cons]
    exact foldlM_shiftIn ho hb is _ fun j hj => h j (List.mem_cons_of_mem _ hj)

theorem le64_ok (ho : o = n) (hb : b.length < 2 ^ 63) (h : n + 7 < b.length) :
    le64 b o = .ok (NtfsKit.le64 b n) := by
  have hrange : range 0 8 = .ok ((List.range 8).map (Nat.cast : ℕ → ℤ)) := by rfl
  rw [le64, bind_ok hrange, ← List.map_reverse]
  refine foldlM_shiftIn ho hb _ 0 fun i hi => ?_
  rw [List.mem_reverse, List.mem_range] at hi
  omega

theorem isPow2_ok (ho : o = n) (hn : n < 2 ^ 63) : isPow2 o = .ok (NtfsKit.isPow2 n) := by
  subst ho
  by_cases h : 0 < n
  · have hand : (land n ((n - 1 : ℕ) : ℤ) = 0) ↔ n &&& (n - 1) = 0 := by
      rw [land_eq (by omega)]
      omega
    rw [isPow2, if_pos (by omega), bind_ok (sub_ok (n := n - 1) (by omega) (by omega))]
    have hpow : NtfsKit.isPow2 n = decide (n &&& (n - 1) = 0) := by
      rw [NtfsKit.isPow2, decide_eq_true h, Bool.true_and]
      exact Bool.beq_eq_decide_eq _ _
    rw [hpow, ← decide_eq_decide.mpr hand]
    rfl
  · have hpow : NtfsKit.isPow2 n = false := by
      simp [NtfsKit.isPow2, h]
    rw [isPow2, if_neg (by omega), hpow]
    rfl

end Fields

/-! ### The geometry -/

section Geometry

theorem labelClusterSize_ok {bps spc : ℕ} (hb : bps ≤ 4096) (hs : spc < 256) :
    labelClusterSize bps spc =
      ofOption ((NtfsKit.labelClusterSize bps spc).map (Nat.cast : ℕ → ℤ)) := by
  by_cases h : 0x80 < spc
  · rw [labelClusterSize, if_pos (by omega), NtfsKit.labelClusterSize, if_pos h, ofOption_map_guard,
      bind_ok (sub_ok (n := 256 - spc) (by omega) (by omega))]
    refine orNil_eq (by omega) fun hexp => shl_ok (n := 1) rfl rfl (by omega) ?_
    rw [Nat.shiftLeft_eq, one_mul]
    exact Nat.pow_lt_pow_right (by decide) (by omega)
  · rw [labelClusterSize, if_neg (by omega), NtfsKit.labelClusterSize, if_neg h]
    exact mul_ok (by push_cast; rfl) (by nlinarith)

theorem labelRecordSize_ok {csize : ℕ} {cpr : ℤ} (hcs : csize ≤ 2 ^ 21) (h0 : -128 ≤ cpr)
    (h1 : cpr ≤ 127) : labelRecordSize csize cpr =
      ofOption ((NtfsKit.labelRecordSize csize cpr).map (Nat.cast : ℕ → ℤ)) := by
  by_cases h : cpr < 0
  · have hneg : neg cpr = .ok (((-cpr).toNat : ℕ) : ℤ) := neg_ok (by omega) (by omega)
    rw [labelRecordSize, if_pos h, NtfsKit.labelRecordSize, if_pos h, ofOption_map_guard, bind_ok hneg]
    refine orNil_eq (by omega) fun hexp => ?_
    rw [bind_ok hneg]
    refine shl_ok (n := 1) rfl rfl (by omega) ?_
    rw [Nat.shiftLeft_eq, one_mul]
    exact Nat.pow_lt_pow_right (by decide) (by omega)
  · have hmax : max (csize : ℤ) 1 = ((max csize 1 : ℕ) : ℤ) := by omega
    have hdiv : div 65536 (max (csize : ℤ) 1) = .ok ((65536 / max csize 1 : ℕ) : ℤ) :=
      div_ok rfl hmax (by omega) (by decide)
    have hcap : ((65536 / max csize 1 : ℕ) : ℤ) = 65536 / ((max csize 1 : ℕ) : ℤ) :=
      Int.natCast_ediv 65536 _
    rw [labelRecordSize, if_neg h, NtfsKit.labelRecordSize, if_neg h, ofOption_map_guard, ite_and]
    refine orNil_eq Iff.rfl fun hpos => ?_
    rw [bind_ok hdiv, hcap]
    refine orNil_eq Iff.rfl fun _ => ?_
    have hle : cpr.toNat * csize ≤ 127 * 2 ^ 21 := Nat.mul_le_mul (by omega) hcs
    refine mul_ok ?_ (hle.trans_lt (by decide))
    rw [Nat.cast_mul, Int.toNat_of_nonneg hpos.le]

/-- What the geometry part returns, as integers. -/
def ofLabelGeometry (g : LabelGeometry) : ℤ × ℤ × ℤ := (g.bytesPerSector, g.recordSize, g.offset)

theorem isSpc_ok {spc : ℕ} (h : spc < 256) :
    isSpc spc = .ok (decide (spc > 0x80 ∨ NtfsKit.isPow2 spc)) := by
  by_cases hx : spc > 0x80
  · rw [isSpc, if_pos (by omega), decide_eq_true (.inl hx)]
    rfl
  · rw [isSpc, if_neg (by omega), isPow2_ok rfl (by omega)]
    simp [hx]

theorem labelGeometry_ok {boot : List UInt8} (hlen : boot.length = 512) :
    labelGeometry boot = ofOption ((NtfsKit.labelGeometry boot).map ofLabelGeometry) := by
  have hbps := le16_lt boot 0x0B
  have hspc := (byteAt boot 0x0D).toNat_lt
  have hsector : le16 boot 0x0B = .ok (NtfsKit.le16 boot 0x0B : ℤ) :=
    le16_ok rfl (by omega) (by omega)
  have hspcByte : index boot 0x0D = .ok (byteAt boot 0x0D) := index_byteAt rfl (by omega)
  have hcprByte : index boot 0x40 = .ok (byteAt boot 0x40) := index_byteAt rfl (by omega)
  have hlcn : le64 boot 0x30 = .ok (NtfsKit.le64 boot 0x30) := le64_ok rfl (by omega) (by omega)
  have hcap : shl 2 20 = .ok ((2 <<< 20 : ℕ) : ℤ) := shl_ok rfl rfl (by decide) (by decide)
  rw [labelGeometry, NtfsKit.labelGeometry]
  dsimp only
  rw [ofOption_map_guard, bind_ok hsector]
  set bps := NtfsKit.le16 boot 0x0B
  rw [ite_and, ite_and]
  refine orNil_eq (by omega) fun h256 => orNil_eq (by omega) fun h4096 => ?_
  rw [bind_ok (isPow2_ok rfl (by omega))]
  refine orNil_eq Iff.rfl fun _ => ?_
  rw [ofOption_map_guard, bind_ok hspcByte]
  set spc := (byteAt boot 0x0D).toNat
  rw [bind_ok (isSpc_ok hspc)]
  refine orNil_eq (by simp) fun _ => ?_
  refine bind_ofOption (labelClusterSize_ok h4096 hspc) fun csize _ => ?_
  rw [ofOption_map_guard, ite_and]
  refine orNil_eq (by omega) fun hpos => ?_
  rw [bind_ok hcap]
  refine orNil_eq (by omega) fun hmax => ?_
  have hcsize : csize ≤ 2 ^ 21 := hmax
  rw [bind_ok hlcn, ofOption_map_guard, ite_and]
  set lcn := NtfsKit.le64 boot 0x30
  refine orNil_eq Iff.rfl fun hlcn0 => ?_
  have hdiv : div int64Max csize = .ok (int64Max / csize) :=
    (div_ok (n := 2 ^ 63 - 1) rfl rfl hpos (by decide)).trans (congrArg _ (Int.natCast_ediv _ _))
  rw [bind_ok hdiv]
  refine orNil_eq Iff.rfl fun hlcn1 => ?_
  have hbase : lcn * csize ≤ int64Max := (Int.le_ediv_iff_mul_le (by omega)).mp hlcn1
  rw [bind_ok hcprByte]
  set cpr := (byteAt boot 0x40).toInt8.toInt
  refine bind_ofOption (labelRecordSize_ok hcsize (Int8.le_toInt _) (Int8.toInt_le _))
    fun recordSize _ => ?_
  rw [ofOption_map_guard, ite_and]
  refine orNil_eq (by omega) fun h512 => orNil_eq (by omega) fun h65536 => ?_
  have hmax64 : int64Max = 2 ^ 63 - 1 := rfl
  have hbase0 : 0 ≤ lcn * csize := mul_nonneg hlcn0.le (by omega)
  have hmul : mul lcn csize = .ok (lcn * csize) := int64_nonneg hbase0 (by omega)
  have hmore : mul 3 recordSize = .ok (3 * recordSize) := int64_nonneg (by omega) (by omega)
  have hroom : sub int64Max (3 * recordSize) = .ok (int64Max - 3 * recordSize) :=
    int64_nonneg (by omega) (by omega)
  rw [bind_ok hmul, bind_ok hmore, bind_ok hroom, ofOption_map_guard]
  refine orNil_eq Iff.rfl fun hfits => ?_
  have hsum : add (lcn * csize) (3 * recordSize) = .ok (lcn * csize + 3 * recordSize) :=
    int64_nonneg (by omega) (by omega)
  rw [bind_ok hsum]
  rfl

end Geometry

/-! ### The fix-ups -/

section Fixups

theorem patch_one {b : List UInt8} {o : ℕ} (h : o < b.length) (x : UInt8) :
    patch b o [x] = b.set o x := by
  rw [List.set_eq_take_append_cons_drop, if_pos h, patch, List.append_assoc]
  rfl

variable {bps usaOfs : ℕ} {usn0 usn1 : UInt8} {record : List UInt8}

/-- The record after the fix-up of sector `i`. -/
def fixed (bps usaOfs : ℕ) (record : List UInt8) (i : ℕ) : List UInt8 :=
  let pos := i * bps - 2
  let record := patch record pos [byteAt record (usaOfs + i * 2)]
  patch record (pos + 1) [byteAt record (usaOfs + i * 2 + 1)]

theorem length_fixed {i : ℕ} (h : i * bps - 2 + 1 < record.length) :
    (fixed bps usaOfs record i).length = record.length := by
  have hfirst : (patch record (i * bps - 2) [byteAt record (usaOfs + i * 2)]).length =
      record.length := length_patch (by rw [List.length_singleton]; omega)
  rw [fixed, length_patch (by rw [List.length_singleton, hfirst]; omega), hfirst]

theorem applyFixup_ok {i : ℕ} (hbps : 2 ≤ bps) (hbps' : bps ≤ 4096) (hi : 1 ≤ i)
    (husa : usaOfs + i * 2 + 1 < record.length) (hlen : record.length ≤ 65536) :
    applyFixup bps record.length usaOfs usn0 usn1 record i =
      if i * bps - 2 + 1 < record.length ∧ byteAt record (i * bps - 2) = usn0 ∧
        byteAt record (i * bps - 2 + 1) = usn1 then .ok (fixed bps usaOfs record i)
      else .error .nil := by
  have hge : 1 * 2 ≤ i * bps := Nat.mul_le_mul hi hbps
  have hle : i * bps ≤ 65536 * 4096 := Nat.mul_le_mul (by omega) hbps'
  set pos := i * bps - 2
  have hpos : add (pos : ℤ) 1 = .ok ((pos + 1 : ℕ) : ℤ) := add_ok rfl (by omega)
  have hdouble : mul (i : ℤ) 2 = .ok ((i * 2 : ℕ) : ℤ) := mul_ok (by push_cast; rfl) (by omega)
  have hsaved : add (usaOfs : ℤ) ((i * 2 : ℕ) : ℤ) = .ok ((usaOfs + i * 2 : ℕ) : ℤ) :=
    add_ok rfl (by omega)
  rw [applyFixup, bind_ok (mul_ok (n := i * bps) (by push_cast; rfl) (by omega)),
    bind_ok (sub_ok (n := pos) (by omega) (by omega)), bind_ok hpos, ite_and, ite_and]
  refine orNil_eq (by omega) fun hin => ?_
  rw [bind_ok (index_byteAt rfl (by omega))]
  refine orNil_eq Iff.rfl fun _ => ?_
  rw [bind_ok hpos, bind_ok (index_byteAt rfl hin)]
  refine orNil_eq Iff.rfl fun _ => ?_
  rw [bind_ok hdouble, bind_ok hsaved, bind_ok (index_byteAt rfl (by omega)),
    bind_ok (store_ok rfl (by omega)), bind_ok hdouble, bind_ok hsaved,
    bind_ok (add_ok (n := usaOfs + i * 2 + 1) rfl (by omega)),
    bind_ok (index_byteAt rfl (by rw [List.length_set]; exact husa)), bind_ok hpos,
    store_ok rfl (by rw [List.length_set]; exact hin), fixed,
    patch_one (show pos < record.length by omega), patch_one (by rw [List.length_set]; exact hin)]

/-- The loop, over the sectors still to come. -/
theorem foldlM_applyFixup {n : ℕ} (hbps : 2 ≤ bps) (hbps' : bps ≤ 4096) (hn : n ≤ 65536) :
    ∀ (is : List ℕ) (record : List UInt8), record.length = n →
    (∀ i ∈ is, 1 ≤ i ∧ usaOfs + i * 2 + 1 < n) →
    (is.map (Nat.cast : ℕ → ℤ)).foldlM (applyFixup bps n usaOfs usn0 usn1) record =
      ofOption (NtfsKit.applyFixups bps usaOfs usn0 usn1 is record)
  | [], _, _, _ => rfl
  | i :: is, record, hlen, h => by
    obtain ⟨hi, husa⟩ := h i List.mem_cons_self
    subst hlen
    rw [List.map_cons, List.foldlM_cons, applyFixup_ok hbps hbps' hi husa hn, NtfsKit.applyFixups]
    dsimp only
    by_cases hc : i * bps - 2 + 1 < record.length ∧ byteAt record (i * bps - 2) = usn0 ∧
        byteAt record (i * bps - 2 + 1) = usn1
    · rw [if_pos hc, if_pos hc, bind_ok rfl]
      exact foldlM_applyFixup hbps hbps' hn is _ (length_fixed hc.1) fun j hj =>
        h j (List.mem_cons_of_mem _ hj)
    · rw [if_neg hc, if_neg hc]
      rfl

theorem length_applyFixups : ∀ (is : List ℕ) (record : List UInt8),
    ∀ r ∈ NtfsKit.applyFixups bps usaOfs usn0 usn1 is record, r.length = record.length
  | [], record, r, hr => by
    cases hr
    rfl
  | i :: is, record, r, hr => by
    rw [NtfsKit.applyFixups] at hr
    dsimp only at hr
    split_ifs at hr with hc
    · have hstep : (fixed bps usaOfs record i).length = record.length := length_fixed hc.1
      exact (length_applyFixups is _ r hr).trans hstep
    · cases hr

theorem applyFixups_ok {n : ℕ} (hbps : 2 ≤ bps) (hbps' : bps ≤ 4096) (hlen : record.length = n)
    (h512 : 512 ≤ n) (hn : n ≤ 65536) : applyFixups bps n record =
      if n % bps = 0 ∧ NtfsKit.le16 record 6 = n / bps + 1 ∧ NtfsKit.le16 record 4 ≥ 0x2A ∧
          NtfsKit.le16 record 4 + NtfsKit.le16 record 6 * 2 ≤ n then
        ofOption (NtfsKit.applyFixups bps (NtfsKit.le16 record 4)
          (byteAt record (NtfsKit.le16 record 4)) (byteAt record (NtfsKit.le16 record 4 + 1))
          (List.range' 1 (NtfsKit.le16 record 6 - 1)) record)
      else .error .nil := by
  have hofs := le16_lt record 4
  have hcount := le16_lt record 6
  have h4 : le16 record 4 = .ok (NtfsKit.le16 record 4 : ℤ) := le16_ok rfl (by omega) (by omega)
  have h6 : le16 record 6 = .ok (NtfsKit.le16 record 6 : ℤ) := le16_ok rfl (by omega) (by omega)
  rw [applyFixups, bind_ok h4, bind_ok h6]
  set usaOfs := NtfsKit.le16 record 4
  set usaCount := NtfsKit.le16 record 6
  have hdiv := Nat.div_le_self n bps
  have hentries : add ((n / bps : ℕ) : ℤ) 1 = .ok ((n / bps + 1 : ℕ) : ℤ) :=
    add_ok rfl (by omega)
  have hdouble : mul (usaCount : ℤ) 2 = .ok ((usaCount * 2 : ℕ) : ℤ) :=
    mul_ok (by push_cast; rfl) (by omega)
  have hend : add (usaOfs : ℤ) ((usaCount * 2 : ℕ) : ℤ) = .ok ((usaOfs + usaCount * 2 : ℕ) : ℤ) :=
    add_ok rfl (by omega)
  rw [ite_and, ite_and, ite_and, bind_ok (mod_ok rfl rfl (by omega) (by omega))]
  refine orNil_eq (by omega) fun _ => ?_
  rw [bind_ok (div_ok rfl rfl (by omega) (by omega)), bind_ok hentries]
  refine orNil_eq (by omega) fun husa => orNil_eq (by omega) fun _ => ?_
  have hone : 1 ≤ usaCount := husa ▸ Nat.le_add_left 1 _
  rw [bind_ok hdouble, bind_ok hend]
  refine orNil_eq (by omega) fun hfits => ?_
  have hrange : range 1 (usaCount : ℤ) =
      .ok ((List.range' 1 (usaCount - 1)).map (Nat.cast : ℕ → ℤ)) := range_ok rfl (by omega)
  rw [bind_ok (index_byteAt rfl (by omega)), bind_ok (add_ok (n := usaOfs + 1) rfl (by omega)),
    bind_ok (index_byteAt rfl (by omega)), bind_ok hrange]
  refine foldlM_applyFixup hbps hbps' hn _ record hlen fun i hi => ?_
  have := List.mem_range'_1.mp hi
  omega

end Fixups

/-! ### The walk -/

section Walk

variable {ws : Char → Bool} {record : List UInt8} {n : ℕ}

theorem attributeLabel_ok {a alen : ℕ} (hlen : record.length = n) (hn : n ≤ 65536)
    (h24 : 24 ≤ alen) (hin : a + alen ≤ n) : attributeLabel ws record n a alen =
      if dword record (a + 0x10) > 0 ∧ dword record (a + 0x10) ≤ 256 ∧
          dword record (a + 0x10) % 2 = 0 ∧ NtfsKit.le16 record (a + 0x14) ≥ 24 ∧
          NtfsKit.le16 record (a + 0x14) + dword record (a + 0x10) ≤ alen ∧
          a + NtfsKit.le16 record (a + 0x14) + dword record (a + 0x10) ≤ n then
        ofOption (labelString ws ((record.drop (a + NtfsKit.le16 record (a + 0x14))).take
          (dword record (a + 0x10))))
      else .error .nil := by
  have hvlen := dword_lt record (a + 0x10)
  have hvofs := le16_lt record (a + 0x14)
  rw [attributeLabel, bind_ok (add_ok (n := a + 0x10) rfl (by omega)),
    bind_ok (le32_ok rfl (by omega) (by omega)), bind_ok (add_ok (n := a + 0x14) rfl (by omega)),
    bind_ok (le16_ok rfl (by omega) (by omega))]
  set vlen := dword record (a + 0x10)
  set vofs := NtfsKit.le16 record (a + 0x14)
  have hvend : add (vofs : ℤ) vlen = .ok ((vofs + vlen : ℕ) : ℤ) := add_ok rfl (by omega)
  have hbegin : add (a : ℤ) vofs = .ok ((a + vofs : ℕ) : ℤ) := add_ok rfl (by omega)
  have hend : add ((a + vofs : ℕ) : ℤ) vlen = .ok ((a + vofs + vlen : ℕ) : ℤ) :=
    add_ok rfl (by omega)
  rw [ite_and, ite_and, ite_and, ite_and, ite_and]
  refine orNil_eq (by omega) fun _ => orNil_eq (by omega) fun _ => ?_
  rw [bind_ok (mod_ok (y := 2) (m := 2) rfl rfl (by decide) (by omega))]
  refine orNil_eq (by omega) fun _ => orNil_eq (by omega) fun _ => ?_
  rw [bind_ok hvend]
  refine orNil_eq (by omega) fun _ => ?_
  rw [bind_ok hbegin, bind_ok hend]
  refine orNil_eq (by omega) fun hfits => ?_
  rw [bind_ok hbegin, bind_ok hbegin, bind_ok hend, bind_ok (slice_ok rfl rfl (by omega))]

theorem isVolumeName_ok {a type : ℕ} (hin : a + 8 < record.length)
    (hlen : record.length < 2 ^ 63) : isVolumeName record a type =
      .ok (decide (type = 0x60 ∧ byteAt record (a + 8) = 0)) := by
  by_cases h : type = 0x60
  · rw [isVolumeName, if_pos (by omega), bind_ok (add_ok (n := a + 8) rfl (by omega)),
      bind_ok (index_byteAt rfl hin)]
    simp only [h, true_and]
    rfl
  · rw [isVolumeName, if_neg (by omega), decide_eq_false fun hn => h hn.1]
    rfl

/-- The counterpart's walk with its conditions in the order of the code. -/
theorem ofOption_walkAttributes (hlen : record.length = n) (hn : n ≤ 65536) {fuel a : ℕ}
    (h : n < a + 24 * fuel) :
    ofOption (NtfsKit.walkAttributes ws record fuel a) =
      if a + 8 ≤ n then
        if dword record a ≠ 0xFFFFFFFF then
          if dword record (a + 4) ≥ 24 then
            if a + dword record (a + 4) ≤ n then
              if dword record a = 0x60 ∧ byteAt record (a + 8) = 0 then
                attributeLabel ws record n a (dword record (a + 4))
              else ofOption (NtfsKit.walkAttributes ws record (fuel - 1) (a + dword record (a + 4)))
            else .error .nil
          else .error .nil
        else .error .nil
      else .error .nil := by
  cases fuel with
  | zero =>
    rw [if_neg (by omega)]
    rfl
  | succ fuel =>
  rw [NtfsKit.walkAttributes]
  dsimp only
  have htype : NtfsKit.le16 record a ||| NtfsKit.le16 record (a + 2) <<< 16 = dword record a := rfl
  have halen : NtfsKit.le16 record (a + 4) ||| NtfsKit.le16 record (a + 6) <<< 16 =
    dword record (a + 4) := rfl
  have hvlen : NtfsKit.le16 record (a + 0x10) ||| NtfsKit.le16 record (a + 0x12) <<< 16 =
    dword record (a + 0x10) := rfl
  rw [htype, halen, hvlen, ofOption_unless, hlen]
  refine ite_congr rfl (fun _ => ?_) fun _ => rfl
  by_cases hend : dword record a = 0xFFFFFFFF
  · rw [if_pos hend, if_neg (not_not_intro hend)]
    rfl
  rw [if_neg hend, if_pos hend, ofOption_unless, ite_and]
  refine ite_congr rfl (fun h24 => ite_congr rfl (fun hin => ?_) fun _ => rfl) fun _ => rfl
  by_cases hname : dword record a = 0x60 ∧ byteAt record (a + 8) = 0
  · rw [if_pos hname, if_pos hname, ofOption_unless, attributeLabel_ok hlen hn h24 hin]
  · rw [if_neg hname, if_neg hname]
    rfl

/-- The walk ends: every attribute takes 24 bytes of the record at least. -/
theorem walkAttributes_ok (hlen : record.length = n) (hn : n ≤ 65536) :
    ∀ (fuel fuel' a : ℕ), 0 < fuel → a < 2 ^ 17 → n < a + 24 * fuel → n < a + 24 * fuel' →
    walkAttributes ws record n fuel a = ofOption (NtfsKit.walkAttributes ws record fuel' a)
  | 0, _, _, h0, _, _, _ => absurd h0 (lt_irrefl 0)
  | fuel + 1, fuel', a, _, ha, hfuel, hfuel' => by
    have htype := dword_lt record a
    have halen := dword_lt record (a + 4)
    rw [ofOption_walkAttributes hlen hn hfuel', walkAttributes,
      bind_ok (add_ok (n := a + 8) rfl (by omega))]
    refine orNil_eq (by omega) fun h8 => ?_
    rw [bind_ok (le32_ok rfl (by omega) (by omega))]
    refine orNil_eq (by omega) fun _ => ?_
    rw [bind_ok (add_ok (n := a + 4) rfl (by omega)), bind_ok (le32_ok rfl (by omega) (by omega))]
    refine orNil_eq (by omega) fun h24 => ?_
    have hnext : add (a : ℤ) (dword record (a + 4)) = .ok ((a + dword record (a + 4) : ℕ) : ℤ) :=
      add_ok rfl (by omega)
    rw [bind_ok hnext]
    refine orNil_eq (by omega) fun hin => ?_
    rw [bind_ok (isVolumeName_ok (by omega) (by omega))]
    refine ite_congr (decide_eq_true_eq) (fun _ => rfl) fun _ => ?_
    rw [bind_ok hnext]
    exact walkAttributes_ok hlen hn fuel (fuel' - 1) _ (by omega) (by omega) (by omega) (by omega)

theorem decodeLabel_ok {bps fuel : ℕ} (hbps : 2 ≤ bps) (hbps' : bps ≤ 4096)
    (hlen : record.length = n) (h512 : 512 ≤ n) (hn : n ≤ 65536) (hfuel : 65536 < 24 * fuel) :
    decodeLabel ws bps n fuel record = ofOption (NtfsKit.decodeLabel ws bps record) := by
  rw [decodeLabel, NtfsKit.decodeLabel]
  dsimp only
  rw [ofOption_unless, ite_and, ite_and, ite_and, bind_ok (index_byteAt (o := 0) (n := 0) rfl (by omega))]
  refine orNil_eq Iff.rfl fun _ => ?_
  rw [bind_ok (index_byteAt (o := 1) (n := 1) rfl (by omega))]
  refine orNil_eq Iff.rfl fun _ => ?_
  rw [bind_ok (index_byteAt (o := 2) (n := 2) rfl (by omega))]
  refine orNil_eq Iff.rfl fun _ => ?_
  rw [bind_ok (index_byteAt (o := 3) (n := 3) rfl (by omega))]
  refine orNil_eq Iff.rfl fun _ => ?_
  rw [ofOption_unless, hlen, applyFixups_ok hbps hbps' hlen h512 hn]
  by_cases hfits : n % bps = 0 ∧ NtfsKit.le16 record 6 = n / bps + 1 ∧
      NtfsKit.le16 record 4 ≥ 0x2A ∧ NtfsKit.le16 record 4 + NtfsKit.le16 record 6 * 2 ≤ n
  · rw [if_pos hfits, if_pos hfits]
    cases hfixed : NtfsKit.applyFixups bps (NtfsKit.le16 record 4)
        (byteAt record (NtfsKit.le16 record 4)) (byteAt record (NtfsKit.le16 record 4 + 1))
        (List.range' 1 (NtfsKit.le16 record 6 - 1)) record with
    | none => rfl
    | some r =>
      have hr : r.length = n := (length_applyFixups _ record r hfixed).trans hlen
      have hstart := le16_lt r 0x14
      rw [bind_ok (rfl : ofOption (some r) = .ok r),
        bind_ok (le16_ok (o := 0x14) (n := 0x14) rfl (by omega) (by omega))]
      exact walkAttributes_ok hr hn fuel r.length _ (by omega) (by omega) (by omega) (by omega)
  · rw [if_neg hfits, if_neg hfits]
    rfl

/-- What the guards of the geometry part leave. -/
theorem labelGeometry_bounds {boot : List UInt8} {g : LabelGeometry}
    (h : NtfsKit.labelGeometry boot = some g) :
    256 ≤ g.bytesPerSector ∧ g.bytesPerSector ≤ 4096 ∧ 512 ≤ g.recordSize ∧
      g.recordSize ≤ 65536 := by
  obtain ⟨_, hbps, h⟩ := Option.bind_eq_some_iff.mp h
  obtain ⟨-, -, h⟩ := Option.bind_eq_some_iff.mp h
  obtain ⟨clusterSize, -, h⟩ := Option.bind_eq_some_iff.mp h
  obtain ⟨-, -, h⟩ := Option.bind_eq_some_iff.mp h
  obtain ⟨-, -, h⟩ := Option.bind_eq_some_iff.mp h
  obtain ⟨recordSize, -, h⟩ := Option.bind_eq_some_iff.mp h
  obtain ⟨_, hrec, h⟩ := Option.bind_eq_some_iff.mp h
  obtain ⟨-, -, h⟩ := Option.bind_eq_some_iff.mp h
  obtain rfl := Option.some.inj h
  obtain ⟨h256, h4096, -⟩ := (Option.guard_eq_some' _).mp hbps
  exact ⟨h256, h4096, (Option.guard_eq_some' _).mp hrec⟩

/-- The code computes what its counterpart computes, step by step in the domain of every
operation. -/
theorem readVolumeLabel_ok (ws : Char → Bool) (read : ℤ → ℤ → Option (List UInt8)) {fuel : ℕ}
    (hfuel : 65536 < 24 * fuel) {boot : List UInt8} (hlen : boot.length = 512) :
    readVolumeLabel ws read fuel boot =
      ofOption (NtfsKit.readVolumeLabel ws (fun o n => (read o n).getD []) boot) := by
  rw [readVolumeLabel, labelGeometry_ok hlen, NtfsKit.readVolumeLabel]
  cases hg : NtfsKit.labelGeometry boot with
  | none => rfl
  | some g =>
  obtain ⟨h256, h4096, h512, hmax⟩ := labelGeometry_bounds hg
  rw [bind_ok (rfl : ofOption (Option.map ofLabelGeometry (some g)) = .ok (ofLabelGeometry g))]
  dsimp only [ofLabelGeometry]
  rw [bind_ok (repeating_ok rfl)]
  set bytes := (read g.offset g.recordSize).getD []
  change _ = ofOption (guard (bytes.length = g.recordSize) >>= fun _ =>
    NtfsKit.decodeLabel ws g.bytesPerSector bytes)
  rw [ofOption_guard]
  refine orNil_eq (by omega) fun hread => ?_
  have hzeros : (List.replicate g.recordSize (0 : UInt8)).drop bytes.length = [] :=
    List.drop_eq_nil_of_le (by rw [List.length_replicate]; omega)
  rw [hzeros, List.append_nil]
  exact decodeLabel_ok (by omega) h4096 hread h512 hmax hfuel

/-- Label parsing is safe on every disk. For every boot sector of 512 bytes and every device,
whatever its reads return or throw, the code ends within the attributes that a record has room
for, with a label or with `nil`, and nothing in it traps. -/
theorem readVolumeLabel_safe (ws : Char → Bool) (read : ℤ → ℤ → Option (List UInt8)) {fuel : ℕ}
    (hfuel : 65536 < 24 * fuel) {boot : List UInt8} (hlen : boot.length = 512) :
    (∃ label, readVolumeLabel ws read fuel boot = .ok label) ∨
      readVolumeLabel ws read fuel boot = .error .nil := by
  rw [readVolumeLabel_ok ws read hfuel hlen]
  cases NtfsKit.readVolumeLabel ws (fun o n => (read o n).getD []) boot with
  | none => exact .inr rfl
  | some label => exact .inl ⟨label, rfl⟩

end Walk

/-- A boot sector of 512-byte sectors, eight to a cluster, and records of 1024 bytes. -/
def sampleBoot : List UInt8 :=
  patchAll (List.replicate 512 0) [(0x0C, [2]), (0x0D, [8]), (0x30, [4]), (0x40, [0xF6])]

/-- The label comes out of a good record; a read that throws and one that is cut short give
`nil`. -/
theorem readVolumeLabel_safe_sample :
    ((∃ label, readVolumeLabel Char.isWhitespace (fun _ _ => some (mstProtect 1 0 sampleRecord))
        2731 sampleBoot = .ok label) ∨
      readVolumeLabel Char.isWhitespace (fun _ _ => some (mstProtect 1 0 sampleRecord)) 2731
        sampleBoot = .error .nil) ∧
    readVolumeLabel Char.isWhitespace (fun _ _ => some (mstProtect 1 0 sampleRecord)) 2731
      sampleBoot = .ok ['A'] ∧
    readVolumeLabel Char.isWhitespace (fun _ _ => none) 2731 sampleBoot = .error .nil ∧
    readVolumeLabel Char.isWhitespace (fun _ _ => some [0x46]) 2731 sampleBoot = .error .nil := by
  refine ⟨readVolumeLabel_safe _ _ (by decide) (by decide +kernel), ?_, ?_, ?_⟩
  · decide +kernel
  · decide +kernel
  · decide +kernel

end NtfsKit.Probe
