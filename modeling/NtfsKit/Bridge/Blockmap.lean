import NtfsKit.Bridge.File

/-! `nk_blockmap`, stage by stage. The C function leaves its middle through
`goto out`, after which one exit path repairs `initialized_size` and flushes the
inode: the stages are programs whose exit is the value of `r` at that jump.

The extent callback is a predicate on the extents taken so far: it answers
whether the packer is full after the last of them. -/

namespace NtfsKit

variable {σ : Type}

/-- An extent as the callback receives it; `physical` is -1 for zeros. -/
structure Extent where
  logical : ℤ
  physical : ℤ
  length : ℤ
  deriving DecidableEq, Repr

/-- How a stage leaves early: `goto out` with `r`, or never. -/
inductive Exit
  | out (r : ℤ)
  | diverge

abbrev Bridge (σ : Type) := Prog (NkFile σ) Exit

open Prog

/-- Leave through `goto out` with `r = -1` unless the call returned `expect`. -/
def orFail (m : Bridge σ ℤ) (expect : ℤ) : Bridge σ Unit := do
  let r ← m
  if r ≠ expect then exit (.out (-1)) else pure ()

/-- `ntfs_attr_pwrite` of zeros. -/
def pwriteZeroed (L : Libntfs σ) (c : ℤ × ℤ) : Bridge σ Unit :=
  orFail (call (NkFile.lib fun s => L.attrPwrite s c.1 c.2 zeros)) c.2

/-- Map the whole runlist and reject a bad one. -/
def mapChecked (L : Libntfs σ) (v : NkVolume) : Bridge σ Unit := do
  orFail (call (NkFile.lib L.attrMapWholeRunlist)) 0
  let f ← read
  if badRunlist v.vol f.na.rl then exit (.out (-1)) else pure ()

/-- Only plain data can be mapped; resident data moves into clusters first. -/
def makeMappable (L : Libntfs σ) (v : NkVolume) : Bridge σ Unit := do
  let f ← read
  if f.na.compressed || f.na.encrypted then exit (.out (-2))
  else if f.na.nonResident then pure ()
  else if v.vol.readOnly then exit (.out (-2))
  else do
    let r ← call (NkFile.lib L.attrForceNonResident)
    if r ≠ 0 then exit (.out (-2)) else pure ()

/-- Grow the file with solid clusters up to the end of a write window. -/
def growSolid (L : Libntfs σ) (forWrite : Bool) (reqEnd : ℤ) : Bridge σ Unit := do
  let f ← read
  if forWrite ∧ reqEnd > f.na.dataSize then
    orFail (call (NkFile.lib fun s => L.attrTruncateSolid s reqEnd)) 0
  else pure ()

/-- Zero what lies between the bytes handed out or initialized so far and the
window: through the library, which advances `initialized_size`, or straight on the
clusters when `[init, hwm)` may hold writes in flight. -/
def zeroBelow (L : Libntfs σ) (v : NkVolume) (hwm init offset : ℤ) : Bridge σ Unit :=
  if hwm ≤ init then do
    each (pwriteZeroed L) (chunks gzSize init offset)
    mapChecked L v
  else if offset > hwm then orFail (call (zeroRaw L v hwm offset)) 0
  else pure ()

/-- The gap zeroing of a write map. The result is the tracked mark. -/
def zeroGap (L : Libntfs σ) (v : NkVolume) (offset : ℤ) : Bridge σ ℤ := do
  let f ← read
  zeroBelow L v f.wrHwm f.na.initializedSize offset
  pure f.wrHwm

/-- Everything before the hole fill. The result is `hwm`, 0 for a read. -/
def prepare (L : Libntfs σ) (v : NkVolume) (offset reqEnd : ℤ) (forWrite : Bool) :
    Bridge σ ℤ := do
  makeMappable L v
  growSolid L forWrite reqEnd
  mapChecked L v
  if forWrite then zeroGap L v offset else pure 0

/-- The first hole that overlaps the window, cut to it. -/
def firstHole (csize offset reqEnd : ℤ) : List RunlistElement → Option (ℤ × ℤ)
  | [] => none
  | e :: rl =>
    let log := e.vcn * csize
    let stop := log + e.length * csize
    let s := if log > offset then log else offset
    let t := if stop < reqEnd then stop else reqEnd
    if e.lcn = lcnHole ∧ t > s then some (s, t) else firstHole csize offset reqEnd rl

/-- Let a fill above `initialized_size` start at `hwm` instead, in memory. -/
def skipInFlight (hwm start : ℤ) (f : NkFile σ) : NkFile σ :=
  if hwm > f.na.initializedSize ∧ start > f.na.initializedSize then f.setInit hwm else f

/-- One fill: start above the bytes handed out, write zeros, map again. -/
def fillHole (L : Libntfs σ) (v : NkVolume) (hwm start stop : ℤ) : Bridge σ Unit := do
  modify (skipInFlight hwm start)
  each (pwriteZeroed L) (chunks gzSize start stop)
  mapChecked L v

/-- The `for (;;)` of the hole fill: scan from scratch after every fill. The
number of rounds is bounded by `fuel`; running out of it is not returning. -/
def fillHoles (L : Libntfs σ) (v : NkVolume) (hwm offset reqEnd : ℤ) : ℕ → Bridge σ Unit
  | 0 => exit .diverge
  | fuel + 1 => do
    let f ← read
    match firstHole v.vol.clusterSize offset reqEnd f.na.rl.elements with
    | none => pure ()
    | some (start, stop) => do
      fillHole L v hwm start stop
      fillHoles L v hwm offset reqEnd fuel

/-- Put `initialized_size` back to what it was before the hole fill. -/
def restoreInit (L : Libntfs σ) (oi : ℤ) : Bridge σ Unit := do
  let f ← read
  if f.na.initializedSize > oi then orFail (call (NkFile.stampInit L oi)) 0 else pure ()

/-- The hole fill of a write map. -/
def fillWindow (L : Libntfs σ) (v : NkVolume) (hwm offset reqEnd oi : ℤ) (forWrite : Bool) :
    Bridge σ Unit :=
  if forWrite then do
    fillHoles L v hwm offset reqEnd ((reqEnd - offset).toNat + 1)
    restoreInit L oi
  else pure ()

/-- The size of the static buffer `zpad`. -/
def zpadSize : ℤ := 4096

/-- `init_end`: where data ends and zeros begin. A read zeroes the partial block at
`initialized_size` on disk and rounds up; a write has no such end. -/
def initEnd (L : Libntfs σ) (v : NkVolume) (bs : ℤ) (forWrite : Bool) : Bridge σ ℤ :=
  if forWrite then pure int64Max else do
    let f ← read
    let init := f.na.initializedSize
    if init < 0 then exit (.out (-1))
    else if init % bs = 0 then pure init
    else
      let up := init + (bs - init % bs)
      let zend := if up > f.na.dataSize then f.na.dataSize else up
      if zend > init ∧ v.vol.readOnly = true then exit (.out (-2))
      else if zend > init ∧ f.wrHwm ≤ init then do
        each (pwriteZeroed L) (chunks zpadSize init zend)
        mapChecked L v
        let f ← read
        pure (roundUp bs f.na.initializedSize)
      else pure (roundUp bs init)

/-- The extents emitted so far, the end of what they cover, and whether the packer
is full. -/
structure Packed where
  extents : List Extent
  covered : ℤ
  full : Bool
  deriving DecidableEq, Repr

/-- Hand one more extent to the callback. -/
def Packed.pack (cb : List Extent → Bool) (p : Packed) (e : Extent) : Packed :=
  ⟨p.extents ++ [e], e.logical + e.length, cb (p.extents ++ [e])⟩

/-- The extents of one runlist element: nothing outside the window, two extents
when the element straddles `init_end`, one otherwise. -/
def packRun (csize offset reqEnd ie : ℤ) (cb : List Extent → Bool) (p : Packed)
    (e : RunlistElement) : Packed :=
  let log := e.vcn * csize
  let len := e.length * csize
  let phys := if 0 ≤ e.lcn then e.lcn * csize else -1
  let start := if log > offset then log else offset
  let stop := if log + len < reqEnd then log + len else reqEnd
  if stop ≤ start then p
  else if 0 ≤ phys ∧ start < ie ∧ stop > ie then
    let q := p.pack cb ⟨start, phys + (start - log), ie - start⟩
    if q.full then q else q.pack cb ⟨ie, -1, stop - ie⟩
  else
    p.pack cb ⟨start, if phys < 0 ∨ start ≥ ie then -1 else phys + (start - log), stop - start⟩

/-- The extent loop. -/
def packRuns (csize offset reqEnd ie : ℤ) (cb : List Extent → Bool) :
    List RunlistElement → Packed → Packed
  | [], p => p
  | e :: rl, p => if p.full then p else
      packRuns csize offset reqEnd ie cb rl (packRun csize offset reqEnd ie cb p e)

/-- What a call hands back: its return value (`none` when it does not return), the
extents the callback received and the file afterwards. -/
structure MapResult (σ : Type) where
  ret : Option ℤ
  extents : List Extent
  file : NkFile σ

/-- The end of the part of the window the callback accepted. -/
def Packed.mappedEnd (p : Packed) (reqEnd : ℤ) : ℤ := if p.full then p.covered else reqEnd

/-- After the extent loop: reads past the last run are zeros, a write that is not
fully backed fails, and a write window that was handed out is recorded. -/
def handOut (L : Libntfs σ) (reqEnd : ℤ) (forWrite : Bool) (hwm : ℤ) (p : Packed)
    (f : NkFile σ) : MapResult σ :=
  let short := !p.full && decide (p.covered < reqEnd)
  let extents := if short && !forWrite then p.extents ++ [⟨p.covered, -1, reqEnd - p.covered⟩]
    else p.extents
  let mappedEnd := p.mappedEnd reqEnd
  if short && forWrite then ⟨some (-1), extents, f⟩
  else if forWrite ∧ mappedEnd > hwm ∧ mappedEnd > f.na.initializedSize then
    let r := f.wrSet L mappedEnd
    ⟨some (if r.1 ≠ 0 then -1 else 0), extents, r.2⟩
  else ⟨some 0, extents, f⟩

/-- A failed flush turns success into failure. -/
def flush (L : Libntfs σ) (r : ℤ) (f : NkFile σ) : ℤ × NkFile σ :=
  let s := f.libEng L.inodeSync
  let r := if s.1 ≠ 0 ∧ r = 0 then -1 else r
  let c := s.2.libEng L.inodeClose
  (if c.1 ≠ 0 ∧ r = 0 then -1 else r, c.2)

/-- The code after `out:`. -/
def blockmapOut (L : Libntfs σ) (oi r : ℤ) (extents : List Extent) (f : NkFile σ) :
    MapResult σ :=
  let f := if 0 ≤ oi ∧ f.na.initializedSize > oi then (f.stampInit L oi).2 else f
  let c := flush L r f
  ⟨some c.1, extents, c.2⟩

/-- Leave a stage through its exit. -/
def leave (L : Libntfs σ) (oi : ℤ) : Exit → NkFile σ → MapResult σ
  | .out r, f => blockmapOut L oi r [] f
  | .diverge, f => ⟨none, [], f⟩

/-- The extent loop and what follows it. -/
def emitExtents (L : Libntfs σ) (v : NkVolume) (offset reqEnd : ℤ) (forWrite : Bool)
    (hwm oi ie : ℤ) (cb : List Extent → Bool) (f : NkFile σ) : MapResult σ :=
  let p := packRuns v.vol.clusterSize offset reqEnd ie cb f.na.rl.elements ⟨[], offset, false⟩
  let m := handOut L reqEnd forWrite hwm p f
  blockmapOut L oi (m.ret.getD 0) m.extents m.file

/-- The stages of `nk_blockmap` on an open attribute. -/
def blockmapBody (L : Libntfs σ) (v : NkVolume) (offset reqEnd : ℤ) (forWrite : Bool)
    (bs : ℤ) (cb : List Extent → Bool) (f : NkFile σ) : MapResult σ :=
  match prepare L v offset reqEnd forWrite f with
  | (.error e, f) => leave L (-1) e f
  | (.ok hwm, f) =>
    let oi := if forWrite then f.na.initializedSize else -1
    match fillWindow L v hwm offset reqEnd oi forWrite f with
    | (.error e, f) => leave L oi e f
    | (.ok (), f) =>
      match initEnd L v bs forWrite f with
      | (.error e, f) => leave L oi e f
      | (.ok ie, f) => emitExtents L v offset reqEnd forWrite hwm oi ie cb f

/-- The block size extents are aligned to. -/
def blockSize (blocksize : ℤ) : ℤ := if 512 ≤ blocksize then blocksize else 512

/-- `nk_blockmap`. -/
def nkBlockmap (L : Libntfs σ) (v : NkVolume) (offset length : ℤ) (forWrite : Bool)
    (blocksize : ℤ) (cb : List Extent → Bool) (f : NkFile σ) : MapResult σ :=
  if offset < 0 ∨ length ≤ 0 ∨ offset > int64Max - length then ⟨some (-1), [], f⟩
  else
    let bs := blockSize blocksize
    if v.bde = true ∨ v.vol.clusterSize % bs ≠ 0 then ⟨some (-2), [], f⟩
    else
      let i := f.libEng L.pathnameToInode
      if i.1 = false then ⟨some (-1), [], i.2⟩
      else
        let a := i.2.attrOpen L
        if a.1 = false then ⟨some (-1), [], (a.2.libEng L.inodeClose).2⟩
        else blockmapBody L v offset (offset + length) forWrite bs cb a.2

/-- What lets a call reach the stages: a proper window, clusters of whole blocks on a volume
that is no BitLocker one, and a file that can be opened. -/
structure Enters (L : Libntfs σ) (v : NkVolume) (offset length blocksize : ℤ) (f : NkFile σ) :
    Prop where
  offset_nonneg : 0 ≤ offset
  length_pos : 0 < length
  stop_le : offset + length ≤ int64Max
  bde : v.bde = false
  blocks : v.vol.clusterSize % blockSize blocksize = 0
  inode : (f.libEng L.pathnameToInode).1 = true
  attr : ((f.libEng L.pathnameToInode).2.attrOpen L).1 = true

section Enters

variable {L : Libntfs σ} {v : NkVolume} {offset length blocksize : ℤ} {forWrite : Bool}
  {f : NkFile σ} {cb : List Extent → Bool}

theorem Enters.map_eq (h : Enters L v offset length blocksize f) (forWrite : Bool)
    (cb : List Extent → Bool) :
    nkBlockmap L v offset length forWrite blocksize cb f =
      blockmapBody L v offset (offset + length) forWrite (blockSize blocksize) cb
        ((f.libEng L.pathnameToInode).2.attrOpen L).2 := by
  have h0 := h.offset_nonneg
  have hl := h.length_pos
  have hs := h.stop_le
  unfold nkBlockmap
  rw [if_neg (by omega)]
  dsimp only
  rw [if_neg (by simp [h.bde, h.blocks]), if_neg (by simp [h.inode]), if_neg (by simp [h.attr])]

/-- A map that returns 0 has reached its stages. -/
theorem nkBlockmap_enters
    (h : (nkBlockmap L v offset length forWrite blocksize cb f).ret = some 0) :
    Enters L v offset length blocksize f := by
  have hret : ∀ {c : ℤ} {g : NkFile σ}, c ≠ 0 → (⟨some c, [], g⟩ : MapResult σ).ret ≠ some 0 :=
    fun hne hc => hne (Option.some.inj hc)
  unfold nkBlockmap at h
  split_ifs at h with hbad
  · exact absurd h (hret (by decide))
  dsimp only at h
  split_ifs at h with hvol hino hatt
  · exact absurd h (hret (by decide))
  · exact absurd h (hret (by decide))
  · exact absurd h (hret (by decide))
  · rw [not_or] at hvol
    exact ⟨by omega, by omega, by omega, eq_false_of_ne_true hvol.1, not_not.mp hvol.2,
      eq_true_of_ne_false hino, eq_true_of_ne_false hatt⟩

end Enters

end NtfsKit
