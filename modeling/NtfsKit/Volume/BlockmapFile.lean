import NtfsKit.Bridge.Pieces
import NtfsKit.System.Writes
import NtfsKit.Volume.Device

/-! `blockmapFile`: the map of the bridge, then the purge of the granules it handed out
for writing. A call that throws has handed out nothing, so its window should leave no
mark behind. The mark is recorded before the inode is flushed and before the purge: a
failure of one of these comes too late. -/

namespace NtfsKit

variable {σ : Type}

/-- The errors `blockmapFile` throws: `EROFS`, `ENOTSUP`, and the captured errno. -/
inductive MapError
  | rofs
  | notsup
  | errno
  deriving DecidableEq, Repr

/-- The physical ranges the packer was given, as `(phys, len)`. -/
def writeRanges (es : List Extent) : List (ℤ × ℤ) :=
  es.filterMap fun e => if 0 ≤ e.physical then some (e.physical, e.length) else none

/-- Whether the purge after a map fails; `purge` is the kernel's answer. -/
def purgeFailed (d : BlockDevice) (purge : List FSMetadataRange → Bool) (forWrite : Bool)
    (m : MapResult σ) : Bool :=
  m.ret = some 0 && forWrite && !(writeRanges m.extents).isEmpty &&
    !purge ((writeRanges m.extents).map (purgeRange d.cacheBlockSize))

/-- `blockmapFile`; `none` when `nk_blockmap` does not return. -/
def blockmapFile (L : Libntfs σ) (v : NkVolume) (d : BlockDevice)
    (purge : List FSMetadataRange → Bool) (offset length : ℤ) (forWrite : Bool)
    (cb : List Extent → Bool) (f : NkFile σ) : Option (Except MapError Unit) × NkFile σ :=
  if length = 0 then (some (.ok ()), f)
  else if forWrite && v.vol.readOnly then (some (.error .rofs), f)
  else
    let m := nkBlockmap L v offset length forWrite d.blockSize cb f
    (m.ret.map fun rc =>
      if rc = -2 then .error .notsup
      else if rc = 0 ∧ purgeFailed d purge forWrite m = false then .ok ()
      else .error .errno, m.file)

def Throws (r : Option (Except MapError Unit)) : Prop := ∃ e, r = some (.error e)

instance : ∀ r, Decidable (Throws r)
  | none => isFalse fun ⟨_, h⟩ => by cases h
  | some (.ok ()) => isFalse fun ⟨_, h⟩ => by cases h
  | some (.error e) => isTrue ⟨e, rfl⟩

/-! ### The steps of a write map -/

/-- The steps of a write map up to its extent loop succeed: the file opens, its data are in
clusters and reach the window's end, the gap below the window is zeroed and the holes in it are
filled. `k` is the file they leave. -/
structure FillsWindow (L : Libntfs σ) (v : NkVolume) (offset length blocksize : ℤ)
    (f k : NkFile σ) : Prop where
  writable : v.vol.readOnly = false
  enters : Enters L v offset length blocksize f
  stages : ∃ hwm g, prepare L v offset (offset + length) true
      ((f.libEng L.pathnameToInode).2.attrOpen L).2 = (.ok hwm, g) ∧
    fillWindow L v hwm offset (offset + length) g.na.initializedSize true g = (.ok (), k)

/-- No step fails up to the record of a window that ends above the mark: the packer has room for
`es`, these are whole clusters up to their end, and the table takes the entry. -/
structure RecordsAbove (L : Libntfs σ) (v : NkVolume) (offset length blocksize : ℤ)
    (cb : List Extent → Bool) (f k : NkFile σ) (es : List Extent) : Prop where
  fills : FillsWindow L v offset length blocksize f k
  takes : Takes cb (windowRuns v.vol.clusterSize offset (offset + length) int64Max k.na.rl) es
  backed : es ≠ [] ∧ cb es = true ∨
    Reaching v.vol.clusterSize offset (offset + length) int64Max k.na.rl
  above : max f.na.recInitializedSize f.wrHwm < extentsEnd offset es
  memory : (k.wrSet L (extentsEnd offset es)).1 = 0

/-- The steps after the record succeed: the flush of the inode, its close, and the purge. -/
structure LastSteps (L : Libntfs σ) (d : BlockDevice) (purge : List FSMetadataRange → Bool)
    (es : List Extent) (k : NkFile σ) : Prop where
  sync : (L.inodeSync k.eng).1 = 0
  close : (L.inodeClose (L.inodeSync k.eng).2).1 = 0
  purge : writeRanges es ≠ [] → purge ((writeRanges es).map (purgeRange d.cacheBlockSize)) = true

section Steps

variable {L : Libntfs σ} {v : NkVolume} {offset length blocksize : ℤ} {f k : NkFile σ}
  {cb : List Extent → Bool}

/-- The stages leave one file. -/
theorem FillsWindow.unique {k' : NkFile σ} (h : FillsWindow L v offset length blocksize f k)
    (h' : FillsWindow L v offset length blocksize f k') : k = k' := by
  obtain ⟨hwm, g, hp, hk⟩ := h.stages
  obtain ⟨hwm', g', hp', hk'⟩ := h'.stages
  obtain ⟨h1, rfl⟩ := Prod.mk.inj (hp.symm.trans hp')
  cases h1
  exact (Prod.mk.inj (hk.symm.trans hk')).2

/-- A call that does not reach the stages leaves the mark as it was. -/
theorem nkBlockmap_not_enters (h : ¬ Enters L v offset length blocksize f) (forWrite : Bool)
    (cb : List Extent → Bool) :
    (nkBlockmap L v offset length forWrite blocksize cb f).file.wrHwm = f.wrHwm := by
  unfold nkBlockmap
  split_ifs with hbad
  · rfl
  dsimp only
  split_ifs with hvol hino hatt
  · rfl
  · rfl
  · rfl
  · rw [not_or] at hvol
    exact absurd ⟨by omega, by omega, by omega, eq_false_of_ne_true hvol.1, not_not.mp hvol.2,
      eq_true_of_ne_false hino, eq_true_of_ne_false hatt⟩ h

/-- A map that failed no earlier succeeds when its flush and its close do. -/
theorem flush_zero_iff : (flush L 0 f).1 = 0 ↔
    (L.inodeSync f.eng).1 = 0 ∧ (L.inodeClose (L.inodeSync f.eng).2).1 = 0 := by
  simp only [flush, NkFile.libEng]
  split_ifs with h1 h2 h3 <;> simp_all

/-- What a window that ends above the mark records. -/
theorem handOut_above {rl : Runlist} {reqEnd ie pos hwm csize : ℤ} {p : Packed}
    (hp : PackInv csize rl offset reqEnd ie pos p)
    (hs : p.full = true ∨ reqEnd ≤ p.covered) (h1 : hwm < p.covered)
    (h2 : k.na.initializedSize < p.covered) : handOut L reqEnd true hwm p k =
      ⟨some (if (k.wrSet L p.covered).1 ≠ 0 then -1 else 0), p.extents,
        (k.wrSet L p.covered).2⟩ := by
  have hshort : (!p.full && decide (p.covered < reqEnd)) = false := by
    rcases hs with hs | hs <;> simp [hs]
  simp only [handOut, hshort, Bool.false_and, Bool.false_eq_true, if_false, hp.mappedEnd_eq hs]
  exact if_pos ⟨trivial, h1, h2⟩

/-- A write whose clusters end before its window fails. -/
theorem handOut_short {reqEnd hwm : ℤ} {p : Packed}
    (hs : ¬ (p.full = true ∨ reqEnd ≤ p.covered)) :
    (handOut L reqEnd true hwm p k).ret = some (-1) := by
  rw [not_or, Bool.not_eq_true, not_le] at hs
  have hshort : (!p.full && decide (p.covered < reqEnd)) = true := by simp [hs.1, hs.2]
  simp only [handOut, hshort, Bool.true_and, if_true]

/-- The window's clusters reach its end, or the packer is full before. -/
theorem packRuns_backed {reqEnd pos csize : ℤ} {rl : Runlist}
    (hp : PackInv csize rl offset reqEnd int64Max pos
      (packRuns csize offset reqEnd int64Max cb rl.elements ⟨[], offset, false⟩)) :
    let p := packRuns csize offset reqEnd int64Max cb rl.elements ⟨[], offset, false⟩
    (p.full = true ∨ reqEnd ≤ p.covered) ↔
      (p.extents ≠ [] ∧ cb p.extents = true ∨ Reaching csize offset reqEnd int64Max rl) := by
  intro p
  obtain ⟨htakes, hfull⟩ := @packRuns_takes csize offset reqEnd int64Max rl cb
  change Takes cb _ p.extents at htakes
  change p.full = true ↔ p.extents ≠ [] ∧ cb p.extents = true at hfull
  rw [← hfull]
  by_cases hf : p.full = true
  · exact iff_of_true (.inl hf) (.inl hf)
  rw [or_iff_right hf, or_iff_right hf, Reaching,
    ← htakes.done.resolve_right fun h => hf (hfull.mpr h), hp.tiles.extentsEnd_eq]
  exact ⟨fun h => le_antisymm hp.le h, fun h => h.ge⟩

/-- A window ends above the mark of the file exactly when it ends above both numbers that the
map compares it with. -/
theorem Filled.above_iff {vol : NtfsVolume} {reqEnd stop : ℤ}
    (hk : Filled vol offset reqEnd f k) (hlt : offset < stop) :
    max f.na.recInitializedSize f.wrHwm < stop ↔
      f.wrHwm < stop ∧ k.na.initializedSize < stop := by
  rw [hk.init, initAfterGap]
  split_ifs <;> omega

theorem PackInv.covered_gt {rl : Runlist} {reqEnd ie pos csize : ℤ} {p : Packed}
    (hp : PackInv csize rl offset reqEnd ie pos p) (hlt : offset < reqEnd)
    (hs : p.full = true ∨ reqEnd ≤ p.covered) : offset < p.covered := by
  rcases hs with hs | hs
  · exact hp.more hs
  · omega

section Loop

variable {reqEnd pos : ℤ} {p : Packed} (hk : Filled v.vol offset reqEnd f k) (hlt : offset < reqEnd)
  (hpack : packRuns v.vol.clusterSize offset reqEnd int64Max cb k.na.rl.elements
    ⟨[], offset, false⟩ = p)
  (hp : PackInv v.vol.clusterSize k.na.rl offset reqEnd int64Max pos p)
include hk hlt hpack hp

/-- Unless the window is backed, ends above the mark and finds memory, the mark stays. -/
theorem emitExtents_keeps (hno : ¬ ((p.full = true ∨ reqEnd ≤ p.covered) ∧
    max f.na.recInitializedSize f.wrHwm < p.covered ∧ (k.wrSet L p.covered).1 = 0)) :
    (emitExtents L v offset reqEnd true f.wrHwm k.na.initializedSize int64Max cb k).file.wrHwm =
      f.wrHwm := by
  obtain ⟨-, hok, hfail⟩ := handOut_write L hp hlt f.wrHwm k
  have hstamp : ¬ (0 ≤ k.na.initializedSize ∧
      (handOut L reqEnd true f.wrHwm p k).file.na.initializedSize > k.na.initializedSize) := by
    rw [(handOut_same L reqEnd true f.wrHwm p k).1]
    exact fun h => lt_irrefl _ h.2
  rw [emitExtents, hpack, (blockmapOut_same L _ _ _ hstamp).wrHwm]
  by_cases hz : (handOut L reqEnd true f.wrHwm p k).ret.getD 0 = 0
  · have hs : p.full = true ∨ reqEnd ≤ p.covered := by
      by_contra hs
      rw [handOut_short hs] at hz
      cases hz
    have hnot : ¬ (f.wrHwm < p.covered ∧ k.na.initializedSize < p.covered) := by
      rintro ⟨h1, h2⟩
      rw [handOut_above hp hs h1 h2] at hz
      refine hno ⟨hs, (hk.above_iff (hp.covered_gt hlt hs)).mpr ⟨h1, h2⟩, ?_⟩
      by_contra hm
      simp [hm] at hz
    have hsame := (hok hz).2.2
    rw [if_neg hnot] at hsame
    exact hsame.wrHwm.trans hk.quiet.wrHwm
  · exact (hfail hz).wrHwm.trans hk.quiet.wrHwm

/-- A window that is backed, ends above the mark and finds memory is recorded, whatever becomes
of the flush. -/
theorem emitExtents_above (hs : p.full = true ∨ reqEnd ≤ p.covered)
    (habove : max f.na.recInitializedSize f.wrHwm < p.covered)
    (hmem : (k.wrSet L p.covered).1 = 0) :
    let m := emitExtents L v offset reqEnd true f.wrHwm k.na.initializedSize int64Max cb k
    m.ret = some (flush L 0 (k.wrSet L p.covered).2).1 ∧ m.extents = p.extents ∧
      m.file.wrHwm = p.covered := by
  intro m
  obtain ⟨h1, h2⟩ := (hk.above_iff (hp.covered_gt hlt hs)).mp habove
  have hset : SameFile (k.marked p.covered) (k.wrSet L p.covered).2 :=
    ((wrSet_spec L p.covered k).resolve_right fun h => by
      rw [h.1] at hmem
      cases hmem).2
  have hm : m = blockmapOut L k.na.initializedSize 0 p.extents (k.wrSet L p.covered).2 := by
    simp only [m, emitExtents, hpack, handOut_above hp hs h1 h2, hmem]
    rfl
  have hstamp : ¬ (0 ≤ k.na.initializedSize ∧
      (k.wrSet L p.covered).2.na.initializedSize > k.na.initializedSize) := by
    rw [hset.na]
    exact fun h => lt_irrefl _ h.2
  rw [hm]
  refine ⟨?_, rfl, ?_⟩
  · simp only [blockmapOut, if_neg hstamp]
  · rw [(blockmapOut_same L _ _ _ hstamp).wrHwm, hset.wrHwm]
    exact k.wrHwm_marked _

end Loop

end Steps

/-- The call throws unless the map returns 0 and its purge succeeds. -/
theorem blockmapFile_throws_iff {L : Libntfs σ} {v : NkVolume} {d : BlockDevice}
    {purge : List FSMetadataRange → Bool} {offset length : ℤ} {cb : List Extent → Bool}
    {f : NkFile σ} (hl : length ≠ 0) (hw : v.vol.readOnly = false) {c : ℤ}
    (hret : (nkBlockmap L v offset length true d.blockSize cb f).ret = some c) :
    Throws (blockmapFile L v d purge offset length true cb f).1 ↔
      ¬ (c = 0 ∧ (writeRanges (nkBlockmap L v offset length true d.blockSize cb f).extents ≠ [] →
        purge ((writeRanges (nkBlockmap L v offset length true d.blockSize cb f).extents).map
          (purgeRange d.cacheBlockSize)) = true)) := by
  rw [blockmapFile, if_neg hl, if_neg (by simp [hw])]
  dsimp only
  set m := nkBlockmap L v offset length true d.blockSize cb f
  have hpurge : c = 0 → (purgeFailed d purge true m = false ↔ (writeRanges m.extents ≠ [] →
      purge ((writeRanges m.extents).map (purgeRange d.cacheBlockSize)) = true)) := by
    rintro rfl
    cases hr : writeRanges m.extents <;> simp [purgeFailed, hret, hr]
  rw [hret, Option.map_some]
  by_cases hc : c = 0
  · subst hc
    rw [← hpurge rfl]
    cases purgeFailed d purge true m <;> simp [Throws]
  · simp only [hc, false_and, not_false_eq_true, iff_true, if_false]
    split_ifs
    · exact ⟨_, rfl⟩
    · exact ⟨_, rfl⟩

theorem blockmapFile_file {L : Libntfs σ} {v : NkVolume} {d : BlockDevice}
    {purge : List FSMetadataRange → Bool} {offset length : ℤ} {cb : List Extent → Bool}
    {f : NkFile σ} (hl : length ≠ 0) (hw : v.vol.readOnly = false) :
    (blockmapFile L v d purge offset length true cb f).2 =
      (nkBlockmap L v offset length true d.blockSize cb f).file := by
  rw [blockmapFile, if_neg hl, if_neg (by simp [hw])]

/-! ### Failed maps -/

/-- A write map that throws leaves the mark as it was if and only if the flush, the close and the
purge succeed whenever no earlier step fails and the packer takes bytes above the mark. -/
theorem failed_map_leaves_no_window_iff {L : Libntfs σ} {v : NkVolume} (hL : L.Spec v.vol)
    (hc : 0 < v.vol.clusterSize) {f : NkFile σ} (hf : f.Sound v.vol) (d : BlockDevice)
    (purge : List FSMetadataRange → Bool) (offset length : ℤ) (cb : List Extent → Bool) :
    (Throws (blockmapFile L v d purge offset length true cb f).1 →
      (blockmapFile L v d purge offset length true cb f).2.wrHwm = f.wrHwm) ↔
    ∀ k es, RecordsAbove L v offset length d.blockSize cb f k es →
      LastSteps L d purge es (k.wrSet L (extentsEnd offset es)).2 := by
  by_cases hin : length ≠ 0 ∧ v.vol.readOnly = false ∧ Enters L v offset length d.blockSize f
  swap
  · -- the call does not reach its stages
    refine iff_of_true (fun _ => ?_) fun k es h =>
      absurd ⟨h.fills.enters.length_pos.ne', h.fills.writable, h.fills.enters⟩ hin
    by_cases hl : length = 0
    · rw [blockmapFile, if_pos hl]
    by_cases hw : v.vol.readOnly = false
    · rw [blockmapFile_file hl hw]
      exact nkBlockmap_not_enters (fun he => hin ⟨hl, hw, he⟩) true cb
    · rw [blockmapFile, if_neg hl, if_pos (by simpa using hw)]
  obtain ⟨hl, hw, hin⟩ := hin
  rw [blockmapFile_file hl hw]
  set a := ((f.libEng L.pathnameToInode).2.attrOpen L).2 with ha
  have hopen : Opened v.vol f a :=
    (sameFile_libEng L.pathnameToInode f).opened.trans (attrOpen_opened L _)
  have h0 := hin.offset_nonneg
  have hlt : offset < offset + length := by
    have := hin.length_pos
    omega
  have hmap := hin.map_eq true cb
  rw [← ha] at hmap
  rcases blockmapBody_stages hL hc (hopen.sound hf) rfl h0 hlt (blockSize d.blockSize) cb with
    ⟨c, -, -, hq, hno⟩ | ⟨g, k, hprep, hfill, hfilled, hki, hbody⟩
  · -- a stage fails
    refine iff_of_true (fun _ => ?_) fun k es h => ?_
    · rw [hmap]
      exact hq.wrHwm
    · obtain ⟨hwm, g, hp, hk⟩ := h.fills.stages
      exact absurd hk (hno hwm g k hp)
  have hfills : FillsWindow L v offset length d.blockSize f k :=
    ⟨hw, hin, _, g, hprep, hfill⟩
  obtain ⟨pos, hp, -⟩ := @packRuns_spec v.vol.clusterSize offset (offset + length) int64Max k.na.rl
    cb hc hlt h0 hfilled.quiet.wf.rl_ok
  have hback := packRuns_backed hp
  have htakes := (@packRuns_takes v.vol.clusterSize offset (offset + length) int64Max k.na.rl cb).1
  have hend := hp.tiles.extentsEnd_eq
  have hkeeps := @emitExtents_keeps σ L _ _ _ _ _ _ _ _ hfilled hlt rfl hp
  have habove := @emitExtents_above σ L _ _ _ _ _ _ _ _ hfilled hlt rfl hp
  rw [hki, ← hbody, ← hmap] at hkeeps habove
  dsimp only at hback htakes habove
  set p := packRuns v.vol.clusterSize offset (offset + length) int64Max cb k.na.rl.elements
    ⟨[], offset, false⟩
  have hthe : ∀ k' es, RecordsAbove L v offset length d.blockSize cb f k' es →
      k' = k ∧ es = p.extents := fun k' es h => by
    obtain rfl := h.fills.unique hfills
    exact ⟨rfl, h.takes.unique htakes⟩
  by_cases hrec : (p.full = true ∨ offset + length ≤ p.covered) ∧
      max a.na.recInitializedSize a.wrHwm < p.covered ∧ (k.wrSet L p.covered).1 = 0
  · -- the window is recorded
    obtain ⟨hret, hext, hfile⟩ := habove hrec.1 hrec.2.1 hrec.2.2
    have hne : p.covered ≠ f.wrHwm := by
      have := hrec.2.1
      have hsame : a.wrHwm = f.wrHwm := rfl
      omega
    rw [hfile, imp_iff_not hne, blockmapFile_throws_iff hl hw hret, not_not, hext, flush_zero_iff]
    constructor
    · rintro ⟨⟨h1, h2⟩, h3⟩ k' es h
      obtain ⟨rfl, rfl⟩ := hthe k' es h
      rw [hend]
      exact ⟨h1, h2, h3⟩
    · intro h
      have hlast := h k p.extents ⟨hfills, htakes, hback.mp hrec.1, by rw [hend]; exact hrec.2.1,
        by rw [hend]; exact hrec.2.2⟩
      rw [hend] at hlast
      exact ⟨⟨hlast.sync, hlast.close⟩, hlast.purge⟩
  · refine iff_of_true (fun _ => hkeeps hrec) fun k' es h => absurd ?_ hrec
    obtain ⟨rfl, rfl⟩ := hthe k' es h
    have h1 := h.above
    have h2 := h.memory
    rw [hend] at h1 h2
    exact ⟨hback.mpr h.backed, h1, h2⟩

/-- The device of the small volume. -/
def smallDevice : BlockDevice := .opened 512 64 BlockDevice.sector_pos none

/-- The file cannot grow to the window's end: an earlier step fails, and there is no mark. -/
theorem failed_map_leaves_no_window_full :
    Throws (blockmapFile (fullDisk 512 0) smallVolume smallDevice (fun _ => true) 512 512 true
      (fun _ => false) (staleFile 1 512 512)).1 ∧
    (blockmapFile (fullDisk 512 0) smallVolume smallDevice (fun _ => true) 512 512 true
      (fun _ => false) (staleFile 1 512 512)).2.wrHwm = 0 := by
  have hthrow : Throws (blockmapFile (fullDisk 512 0) smallVolume smallDevice (fun _ => true) 512
      512 true (fun _ => false) (staleFile 1 512 512)).1 := by decide +kernel
  refine ⟨hthrow, (failed_map_leaves_no_window_iff (fullDisk_spec (by decide) 0) (by decide)
    (staleFile_sound (by decide) (by decide) (by decide)) smallDevice _ 512 512 _).mpr
      (fun k es h => ?_) hthrow⟩
  obtain ⟨hwm, g, hprep, -⟩ := h.fills.stages
  have hok : _ = true := congrArg (·.1.toBool) hprep
  exact absurd hok (by decide +kernel)

/-- A failed sync and a failed purge both leave a mark behind the window they refused. -/
theorem failed_map_leaves_window :
    (staleFile 1 512 0).wrHwm = 0 ∧
    (Throws (blockmapFile (fullDisk 512 (-1)) smallVolume smallDevice (fun _ => true) 0 512 true
        (fun _ => false) (staleFile 1 512 0)).1 ∧
      (blockmapFile (fullDisk 512 (-1)) smallVolume smallDevice (fun _ => true) 0 512 true
        (fun _ => false) (staleFile 1 512 0)).2.wrHwm = 512) ∧
    Throws (blockmapFile (fullDisk 512 0) smallVolume smallDevice (fun _ => false) 0 512 true
        (fun _ => false) (staleFile 1 512 0)).1 ∧
      (blockmapFile (fullDisk 512 0) smallVolume smallDevice (fun _ => false) 0 512 true
        (fun _ => false) (staleFile 1 512 0)).2.wrHwm = 512 := by
  decide +kernel

end NtfsKit
