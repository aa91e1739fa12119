import NtfsKit.Format.SyncMft

/-! The label of a volume, from the formatter to the probe. The formatter puts it into the record of
`$Volume` and writes the records; the probe finds the record by the boot sector. Whatever else is
inserted and in whichever order, the attributes are sorted, so that the walk of the probe comes to
the name over attributes that it can pass. -/

namespace NtfsKit

/-- A record of `n` times 512 bytes without attributes, as it is laid out. The update sequence
array is in front of the attributes and ends before the first trailer. -/
structure BlankRecord (n usaOfs : ℕ) (m : List UInt8) : Prop extends MftRecord m [] where
  length : m.length = n * 512
  magic : Holds m 0 [0x46, 0x49, 0x4C, 0x45]
  usa_ofs : leAt m 4 2 = usaOfs
  usa_count : leAt m 6 2 = n + 1
  usa_ge : 0x2A ≤ usaOfs
  usa_le : usaOfs + (n + 1) * 2 ≤ 510
  attrs_ofs : usaOfs + (n + 1) * 2 ≤ leAt m 0x14 2

/-- What `add_attr_vol_name` inserts. -/
def volNameArg (label : List UInt16) : AttrArg := .resident 0x60 [] 0 0 (utf16Bytes label)

/-- The steps that fill the record of `$Volume`: one label among them, and none fails. -/
structure FillsVolume (coll : NameCollation) (label : List UInt16) (m : List UInt8)
    (ops : List RecordOp) : Prop where
  ok : OpsOk m.length ops
  inserted : volNameArg label ∈ insertions ops
  unique : ∀ a ∈ insertions ops, a.record.type = 0x60 → a = volNameArg label
  done : ∀ e ∈ answers (recordStep coll) ops m, e = none

/-- A label of at least one and at most 128 units, in valid UTF-16 and without white space at its
ends. -/
structure LabelOk (ws : Char → Bool) (label : List UInt16) (chars : List Char) : Prop where
  length_ge : 1 ≤ label.length
  length_le : label.length ≤ 128
  decode : utf16Decode label = some chars
  first : ∀ c ∈ chars.head?, ws c = false
  last : ∀ c ∈ chars.getLast?, ws c = false

/-- The boot sector is filled in from the globals. -/
structure BootParams.From (p : BootParams) (t : Globals) : Prop where
  sector : p.sectorSize = t.sectorSize
  cluster : p.clusterSize = t.vol.clusterSize
  record : p.mftRecordSize = t.vol.mftRecordSize
  lcn : p.mftLcn = t.mftLcn

section Label

variable {coll : NameCollation} {m : List UInt8} {T : AttrTable} {attrs : List (List UInt8)}
  {label : List UInt16} {ops : List RecordOp}

/-- An attribute with the key of a label. -/
theorem AttrOk.volumeName {x : List UInt8} (h : AttrOk x)
    (hkey : attrKey x = (volNameArg label).record.key) (hres : byteAt x 8 = 0) :
    VolumeName label x := by
  have hvalue : (attrKey x).value = utf16Bytes label := congrArg AttrKey.value hkey
  rw [attrKey, if_pos hres] at hvalue
  change attrValueAt x 0 = _ at hvalue
  rw [attrValueAt, Nat.zero_add, Nat.zero_add, Nat.zero_add] at hvalue
  have hfits := h.value_fits hres
  have hlen : leAt x 0x10 4 = (utf16Bytes label).length := by
    rw [← hvalue, length_cut hfits]
  refine ⟨h.length_ge, h.length_eq, congrArg AttrKey.type hkey, hres, hlen, h.value_ofs hres,
    by rw [← hlen]; exact hfits, ?_⟩
  have hholds := holds_cut hfits
  rwa [hvalue] at hholds

/-- The name in the record, and what is in front of it. -/
theorem Represents.split_label (h : Represents coll m T attrs)
    (hmem : (volNameArg label).record ∈ T.entries)
    (hone : ∀ t ∈ T.entries, t.type = 0x60 → t = (volNameArg label).record) :
    ∃ pre name post, attrs = pre ++ name :: post ∧ (∀ x ∈ pre, OtherAttr x) ∧
      VolumeName label name := by
  obtain ⟨x, hx, hkey, hres⟩ := h.attr hmem
  obtain ⟨pre, post, rfl⟩ := List.append_of_mem hx
  refine ⟨pre, x, post, rfl, fun y hy => ?_, (h.holds.ok x hx).volumeName hkey (hres.mpr rfl)⟩
  have hymem : y ∈ pre ++ x :: post := List.mem_append_left _ hy
  have hok := h.holds.ok y hymem
  refine ⟨hok.length_ge, hok.length_eq, fun htype => ?_, hok.not_end⟩
  -- a second name would have the same key, but the keys are strictly sorted
  obtain ⟨t, ht, htkey, -⟩ := h.entry hymem
  have ht60 : t.type = 0x60 := (congrArg AttrKey.type htkey).symm.trans htype
  have hlt := (List.pairwise_append.mp h.sorted).2.2 y hy x List.mem_cons_self
  have hself : compareKey coll (volNameArg label).record.key (volNameArg label).record.key = .eq :=
    Std.ReflCmp.compare_self
  rw [htkey, hone t ht ht60, hkey, hself] at hlt
  cases hlt

/-- If every insertion succeeds, all of them are in the table. -/
theorem insertion_mem_entries : ∀ {ops : List RecordOp} {T : AttrTable},
    (∀ e ∈ answers tableStep ops T, e = none) → ∀ {r : NewRecord},
    r ∈ T.entries ∨ (∃ a ∈ insertions ops, r = a.record) → r ∈ (execAll tableStep ops T).entries
  | [], T, _, r, hr => by
    rcases hr with hr | ⟨a, ha, -⟩
    · exact hr
    · cases ha
  | .set f n :: ops, T, hdone, r, hr => by
    refine insertion_mem_entries (fun e he => hdone e (List.mem_cons_of_mem _ he)) ?_
    exact hr
  | .insert a :: ops, T, hdone, r, hr => by
    have hfirst : (tableStep T (.insert a)).1 = none := hdone _ List.mem_cons_self
    have hentries : (tableStep T (.insert a)).2.entries = T.entries ++ [a.record] := by
      rw [tableStep, tableInsert] at hfirst ⊢
      split_ifs at hfirst ⊢
      rfl
    refine insertion_mem_entries (fun e he => hdone e (List.mem_cons_of_mem _ he)) ?_
    rw [hentries, List.mem_append, List.mem_singleton]
    rcases hr with hr | ⟨b, hb, rfl⟩
    · exact .inl (.inl hr)
    · rcases List.mem_cons.mp hb with rfl | hb
      · exact .inl (.inr rfl)
      · exact .inr ⟨b, hb, rfl⟩

/-- The record of `$Volume` when all its attributes are inserted. -/
theorem BlankRecord.volumeRecord {n usaOfs : ℕ} (h : BlankRecord n usaOfs m)
    (hfill : FillsVolume coll label m ops) : ∃ attrs name, (∀ x ∈ attrs, OtherAttr x) ∧
      VolumeName label name ∧
      VolumeRecord n usaOfs attrs name (execAll (recordStep coll) ops m) := by
  obtain ⟨hans, hfrom, hsame, attrs, hrep⟩ := h.toMftRecord.run coll hfill.ok
  have hdone := hfill.done
  rw [hans] at hdone
  obtain ⟨pre, name, post, rfl, hpre, hname⟩ := hrep.split_label
    (insertion_mem_entries hdone (.inr ⟨_, hfill.inserted, rfl⟩)) fun t ht htype => by
      obtain ⟨a, ha, rfl⟩ := hfrom t ht
      rw [hfill.unique a ha htype]
  have hofs := hsame.leAt_eq (a := 0x14) (n := 2) (by decide) (by decide)
  have hall := hrep.holds.holds
  have hfits := hrep.holds.fits
  rw [List.flatten_append, List.flatten_cons, ← List.append_assoc, List.append_assoc] at hall
  rw [List.flatten_append, List.flatten_cons, ← List.append_assoc, List.length_append] at hfits
  refine ⟨pre, name, hpre, hname, hsame.length.trans h.length, ?_, ?_, ?_, h.usa_ge, h.usa_le, ?_,
    hall.append_left, by omega⟩
  · exact h.magic.congr fun i h1 h2 => hsame.header i (by simp at h2; omega) (by simp at h2; omega)
  · rw [hsame.leAt_eq (by decide) (by decide), h.usa_ofs]
  · rw [hsame.leAt_eq (by decide) (by decide), h.usa_count]
  · rw [hofs]
    exact h.attrs_ofs

end Label

section Probe

variable {ws : Char → Bool} {n usaOfs : ℕ} {attrs : List (List UInt8)} {name r : List UInt8}
  {label : List UInt16} {chars : List Char}

/-- The label of a record as it is on the disk. -/
theorem VolumeRecord.decodes (hr : VolumeRecord n usaOfs attrs name r) (hn : 0 < n)
    (hattrs : ∀ x ∈ attrs, OtherAttr x) (hname : VolumeName label name)
    (hl : LabelOk ws label chars) (usn0 usn1 : UInt8) :
    decodeLabel ws 512 (mstProtect usn0 usn1 r) = some chars := by
  have hq := hr.mstProtect_sealed hn usn0 usn1
  set q := mstProtect usn0 usn1 r
  have hge := hr.usa_ge
  have hle := hr.usa_le
  have hofs := hr.attrs_ofs
  have hfits := hr.fits
  have hqlen : q.length = n * 512 := hq.length.trans hr.length
  have hmagic : Holds q 0 [0x46, 0x49, 0x4C, 0x45] := by
    refine hr.magic.congr fun i h1 h2 => hq.rest i (.inl ?_) fun k h3 h4 => ?_
    · simp only [List.length_cons, List.length_nil] at h2
      omega
    · simp only [List.length_cons, List.length_nil] at h2
      omega
  obtain ⟨q', hfix, hq'⟩ := hq.restoreAll hr.length hle (by omega : 0 + n = n)
  have hold : Holds q' (leAt r 0x14 2) (attrs.flatten ++ name) :=
    hr.holds.congr fun i h1 h2 => hq'.rest i (.inr (by omega)) fun k h3 h4 => by omega
  have hfuel : attrs.length < q'.length := by
    have := length_le_flatten fun x hx => (hattrs x hx).length_ge
    have := hname.length_ge
    rw [List.length_append] at hfits
    rw [hq'.length]
    omega
  unfold decodeLabel
  simp only [le16_eq, hq.header hle (show 4 + 2 ≤ usaOfs by omega),
    hq.header hle (show 6 + 2 ≤ usaOfs by omega), hr.usa_ofs, hr.usa_count, hq.usn.1, hq.usn.2]
  rw [if_neg (not_not.mpr ⟨hmagic 0 (by simp), hmagic 1 (by simp), hmagic 2 (by simp),
    hmagic 3 (by simp)⟩), if_neg (by omega), Nat.add_sub_cancel, hfix]
  simp only [hq'.header hle (show 0x14 + 2 ≤ usaOfs by omega)]
  rw [walkAttributes_finds hname hl.length_ge hl.length_le hattrs hold
    (by rw [hq'.length]; exact hfits) hfuel]
  exact labelString_eq hl.length_ge hl.decode hl.first hl.last

/-- The boot sector of a volume that is laid out, with clusters of at most 128 sectors. -/
theorem Globals.MftPlaced.labelGeometry {t : Globals} {k e : ℕ} (h : t.MftPlaced k e)
    (he : e ≤ 16) {p : BootParams} (hp : p.From t) {perMft : Int8}
    (hper : p.clustersPerMftRecord = some perMft) {boot : List UInt8}
    (hboot : Encoded p perMft boot) :
    labelGeometry boot = some ⟨512, 2 ^ e, 1024, (t.mftLcn * 2 ^ e + 3 * 1024 : ℕ)⟩ := by
  have hge := h.cluster_ge
  have hpos := h.lcn_pos
  have hle := h.lcn_le
  have hs : Sizes p 9 e 10 := by
    refine ⟨by rw [hp.sector, h.sector]; rfl, by decide, by decide, by rw [hp.cluster, h.cluster],
      by omega, h.cluster_le, by omega, by rw [hp.record, h.record]; rfl, by decide, by decide⟩
  have hpow : 2 ^ 12 ≤ 2 ^ e ∧ 2 ^ e ≤ 2 ^ 16 :=
    ⟨Nat.pow_le_pow_right (by decide) hge, Nat.pow_le_pow_right (by decide) he⟩
  have h512 : le16 boot 0x0B = 512 := hs.le16 hboot
  have hleat : leAt boot 0x30 8 = t.mftLcn := by
    rw [hboot.lcn, hp.lcn]
    exact Nat.mod_eq_of_lt (by omega)
  have hle64 : le64 boot 0x30 = t.mftLcn := by
    rw [le64_eq (by omega), hleat]
  have hcpr : (byteAt boot 0x40).toInt8 = perMft := by
    rw [hboot.cpr]
    rfl
  have hprod : (t.mftLcn * (2 ^ e : ℕ) : ℤ) ≤ 4 * 2 ^ 16 := by
    exact_mod_cast Nat.mul_le_mul hle hpow.2
  have hmax : (t.mftLcn : ℤ) ≤ int64Max / (2 ^ e : ℕ) := by
    rw [Int.le_ediv_iff_mul_le (by positivity)]
    exact hprod.trans (by decide)
  have hgeometry : NtfsKit.labelGeometry boot = some ⟨le16 boot 0x0B, 2 ^ e, 1024,
      le64 boot 0x30 * (2 ^ e : ℕ) + 3 * (1024 : ℕ)⟩ := by
    refine labelGeometry_eq (by rw [h512]; decide) ?_ (hs.labelClusterSize_direct hboot (by omega))
      (by omega) ?_ (by rw [hcpr]; exact hs.labelRecordSize hper (by omega)) (by decide) ?_
    · rw [hboot.spc, hs.spc_direct (by omega)]
      exact .inr (isPow2_two_pow _)
    · rw [hle64]
      exact ⟨by exact_mod_cast hpos, hmax⟩
    · rw [hle64]
      exact hprod.trans (by decide)
  rw [hgeometry, h512, hle64]
  push_cast
  rfl

/-- The label that a format is given is the one the probe shows: the boot sector is on the device,
the record of `$Volume` is filled by any insertions with the label among them, and the records are
written to `$MFT`. -/
theorem probe_reads_label {M : ℕ} {c : FormatCall} (hdev : c.Gets [.devctx, .device]) {t : Globals}
    (hlay : layOut M c (initOptions .fresh) = (.ok (), t)) (hcs : t.vol.clusterSize ≤ 2 ^ 16)
    {p : BootParams} (hp : p.From t) {bootArray boot : List UInt8}
    (hboot : encodeBootSector bootArray p = some boot) {σ : Type} {io : MstIo σ} (hio : io.Spec)
    {s : SyncState σ} (hbuf : s.buf.length = t.mftSize / t.vol.mftRecordSize)
    (hsizes : ∀ r ∈ s.buf, r.length = t.vol.mftRecordSize)
    (hdisk : ∀ i < 512, io.view s.dev (i : ℕ) = byteAt boot i) {coll : NameCollation}
    {m : List UInt8} (hblank : BlankRecord n usaOfs m) {ops : List RecordOp}
    (hfill : FillsVolume coll label m ops)
    (hvolume : s.buf[3]? = some (execAll (recordStep coll) ops m)) {usn0 usn1 : UInt8}
    (hprotect : io.protect (execAll (recordStep coll) ops m) =
      mstProtect usn0 usn1 (execAll (recordStep coll) ops m))
    (hsync : (syncMft io t s).1 = none) (hl : LabelOk ws label chars) :
    readVolumeLabel ws (stretch (io.view (syncMft io t s).2.dev))
      (stretch (io.view (syncMft io t s).2.dev) 0 512) = some chars := by
  obtain ⟨k, e, h⟩ := layOut_mftPlaced hdev hlay
  have hs := h.synced hio hbuf hsizes
  have hpow : 2 ^ 12 ≤ 2 ^ e := Nat.pow_le_pow_right (by decide) h.cluster_ge
  have hpos := h.lcn_pos
  have hapart := h.apart
  have hlen : m.length = 1024 := by
    obtain ⟨-, -, hsame, -⟩ := hblank.toMftRecord.run coll hfill.ok
    rw [← hsame.length, hsizes _ (List.mem_of_getElem? hvolume), h.record]
  have hn := hblank.length
  -- the boot sector is in front of both files
  have hsame : ∀ i < 512, byteAt (stretch (io.view (syncMft io t s).2.dev) 0 512) i =
      byteAt boot i := by
    intro i hi
    rw [byteAt, List.getD, getElem?_stretch hi, zero_add, Option.getD_some, ← hdisk i hi]
    refine hs.outside i fun r hr hin => ?_
    have hr0 : 0 < r.lcn := by
      simp only [h.mft, h.mirr, Option.toList_some, List.cons_append, List.nil_append,
        List.mem_cons, List.not_mem_nil, or_false] at hr
      rcases hr with rfl | rfl
      · exact hpos
      · dsimp only
        omega
    have hcs : t.vol.clusterSize ≤ r.lcn * t.vol.clusterSize := Nat.le_mul_of_pos_left _ hr0
    rw [h.cluster] at hcs hin
    omega
  obtain ⟨perMft, hper, he⟩ := encodeBootSector_encoded hboot
  have hencoded : Encoded p perMft (stretch (io.view (syncMft io t s).2.dev) 0 512) := by
    refine ⟨?_, by rw [hsame _ (by decide), he.spc], ?_, by rw [hsame _ (by decide), he.cpr]⟩
    · rw [le16, hsame _ (by decide), hsame _ (by decide)]
      exact he.sector
    · rw [← he.lcn]
      exact leAt_congr fun i hi => hsame _ (by omega)
  have he16 : e ≤ 16 := (Nat.pow_le_pow_iff_right (by decide)).mp (h.cluster ▸ hcs)
  obtain ⟨attrs, name, hattrs, hname, hrec⟩ := hblank.volumeRecord hfill
  have hread := hs.records hsync 3 _ hvolume
  rw [h.cluster, h.record, hprotect] at hread
  rw [readVolumeLabel, h.labelGeometry he16 hp hper hencoded]
  simp only [Option.bind_eq_bind, Option.bind_some, hread]
  rw [(hrec.mstProtect_sealed (by omega) usn0 usn1).length, hrec.length, ← hn, hlen, guard,
    if_pos rfl]
  exact hrec.decodes (by omega) hattrs hname hl usn0 usn1

theorem VolumeRecord.mstOk (h : VolumeRecord n usaOfs attrs name r) (hn : 0 < n) :
    MstOk n usaOfs r :=
  ⟨hn, h.length, h.usa_ofs, h.usa_count, by have := h.usa_ge; omega, h.usa_le⟩

/-- The boot sector of the smallest volume. -/
def tinyParams : BootParams where
  sectorSize := 512
  clusterSize := 4096
  sectorsPerTrack := 63
  heads := 255
  partStartSect := 0
  numSectors := 2056
  mftLcn := 4
  mftmirrLcn := 128
  mftRecordSize := 1024
  indxRecordSize := 4096
  indxRecordSizeBits := 12
  serialNumber := 7

theorem tinyParams_from : tinyParams.From tinyVolume := by
  constructor <;> decide +kernel

theorem emptyRecord_blank : BlankRecord 2 0x30 emptyRecord := by
  refine ⟨emptyRecord_mft, ?_, ?_, ?_, ?_, ?_, ?_, ?_⟩ <;> decide +kernel

def labelOps : List RecordOp :=
  [.insert (volNameArg [0x41]), .set .linkCount 1,
    .insert (.resident 0x10 [] 0 0 (List.replicate 48 0))]

theorem labelOps_fills : FillsVolume (.upcase id) [0x41] emptyRecord labelOps := by
  have hlen : emptyRecord.length = 1024 := emptyRecord_mstOk.length
  have hok : OpsOk emptyRecord.length labelOps := by
    rw [hlen]
    decide +kernel
  refine ⟨hok, by simp [labelOps, insertions], fun a ha htype => ?_, ?_⟩
  · simp only [labelOps, insertions, List.filterMap_cons, List.filterMap_nil, List.mem_cons,
      List.not_mem_nil, or_false] at ha
    rcases ha with rfl | rfl
    · rfl
    · cases htype
  · rw [(emptyRecord_mft.run (.upcase id) hok).1]
    decide +kernel

/-- The records of the smallest volume with the record of `$Volume` in its place. -/
def labelledSync (boot v : List UInt8) : SyncState (ℤ → UInt8) where
  dev q := byteAt boot q.toNat
  buf := List.replicate 3 emptyRecord ++ v :: List.replicate 23 emptyRecord

theorem labelledSync_volume (boot v : List UInt8) :
    (labelledSync boot v).buf.length = 27 ∧ (labelledSync boot v).buf[3]? = some v :=
  ⟨rfl, rfl⟩

theorem labelledSync_mstOk (boot : List UInt8) {v : List UInt8} (hv : MstOk 2 0x30 v) :
    ∀ r ∈ (labelledSync boot v).buf, MstOk 2 0x30 r := by
  intro r hr
  rcases List.mem_append.mp hr with hr | hr
  · rw [List.eq_of_mem_replicate hr]
    exact emptyRecord_mstOk
  · rcases List.mem_cons.mp hr with rfl | hr
    · exact hv
    · rw [List.eq_of_mem_replicate hr]
      exact emptyRecord_mstOk

theorem probe_reads_label_tiny : ∃ boot, encodeBootSector [] tinyParams = some boot ∧
    readVolumeLabel Char.isWhitespace
      (stretch (byteEngine.view (syncMft byteEngine tinyVolume (labelledSync boot
        (execAll (recordStep (.upcase id)) labelOps emptyRecord))).2.dev))
      (stretch (byteEngine.view (syncMft byteEngine tinyVolume (labelledSync boot
        (execAll (recordStep (.upcase id)) labelOps emptyRecord))).2.dev) 0 512) = some ['A'] := by
  have hsome : (encodeBootSector [] tinyParams).isSome := by decide +kernel
  obtain ⟨boot, hboot⟩ := Option.isSome_iff_exists.mp hsome
  have hrs : tinyVolume.vol.mftRecordSize = 1024 := by decide +kernel
  have hcount : tinyVolume.mftSize / tinyVolume.vol.mftRecordSize = 27 := by decide +kernel
  have hmirr : tinyVolume.mirrRecords = 4 := by decide +kernel
  have hcs : tinyVolume.vol.clusterSize ≤ 2 ^ 16 := by decide +kernel
  obtain ⟨attrs, name, -, -, hrec⟩ := emptyRecord_blank.volumeRecord labelOps_fills
  have hmst := hrec.mstOk (by decide)
  obtain ⟨hbuf, hvolume⟩ :=
    labelledSync_volume boot (execAll (recordStep (.upcase id)) labelOps emptyRecord)
  have hall := labelledSync_mstOk boot hmst
  have hsync := byteEngine_syncMft (hcount.trans hbuf.symm).le (by rw [hmirr, hbuf]; decide) hall
  have hletter : ∀ c ∈ some 'A', Char.isWhitespace c = false := fun c hc => by
    obtain rfl := Option.some.inj hc
    rfl
  have hlabel : LabelOk Char.isWhitespace [0x41] ['A'] :=
    ⟨by decide, by decide, by decide +kernel, hletter, hletter⟩
  exact ⟨boot, hboot, probe_reads_label (fun _ _ => rfl) tinyVolume_layOut hcs tinyParams_from hboot
    byteEngine_spec (hbuf.trans hcount.symm) (fun r hr => by rw [hrs]; exact (hall r hr).length)
    (fun _ _ => rfl) emptyRecord_blank labelOps_fills hvolume (byteEngine_protect hmst)
    hsync hlabel⟩

end Probe

end NtfsKit
