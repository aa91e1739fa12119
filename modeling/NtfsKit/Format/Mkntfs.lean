import NtfsKit.Format.BootSector
import NtfsKit.Lib.Prog

/-! The formatter as a function of its process. `mkntfs` keeps the geometry, the runlists of the
system files and the list of allocated clusters in globals; a run fills them in stage by stage,
and its cleanup resets some of them for the next run. -/

namespace NtfsKit

open Prog

/-- A run of clusters on the volume. -/
structure ClusterRun where
  lcn : ℕ
  length : ℕ
  deriving DecidableEq

def ClusterRun.stop (r : ClusterRun) : ℕ := r.lcn + r.length

/-- The part of `g_vol` that the layout is computed from; all zero while there is no volume. -/
structure FormatVolume where
  clusterSize : ℕ
  clusterSizeBits : ℕ
  nrClusters : ℕ
  mftRecordSize : ℕ
  indxRecordSize : ℕ
  deriving DecidableEq

/-- The globals of `mkntfs`. A runlist is its one run, the terminator behind it left out. -/
structure Globals where
  /-- `opts.sector_size`, 0 while unset -/
  sectorSize : ℕ
  numSectors : ℕ
  vol : FormatVolume
  mftBitmapByteSize : ℕ
  lcnBitmapByteSize : ℕ
  rlMft : Option ClusterRun
  rlMftBmp : Option ClusterRun
  rlMftmirr : Option ClusterRun
  rlLogfile : Option ClusterRun
  rlBoot : Option ClusterRun
  /-- The length of the one sparse run of `$Bad`. -/
  rlBad : Option ℕ
  mftSize : ℕ
  mftLcn : ℕ
  mftmirrLcn : ℕ
  logfileLcn : ℕ
  logfileSize : ℕ
  mftZoneEnd : ℕ
  numBadBlocks : ℕ
  allocation : List ClusterRun

/-- The globals of a new process. -/
def Globals.fresh : Globals :=
  ⟨0, 0, ⟨0, 0, 0, 0, 0⟩, 0, 0, none, none, none, none, none, none, 0, 0, 0, 0, 0, 0, 0, []⟩

/-- What is allocated or opened on the way; each may fail. -/
inductive Site
  | devctx
  | device
  | volume
  | volName
  | upcase
  | attrdef
  | openPartition
  | dynamicBuf
  | tailNode
  | mftBitmap
  | rlMftBmp
  | bmpNode
  | rlMft
  | mftNode
  | rlMftmirr
  | mirrNode
  | rlLogfile
  | logNode
  | rlBoot
  | bootNode
  | buf
  | rlBad
  deriving DecidableEq

/-- A call of `nk_format`: the size of the device, what fails, and what the files that are
created after the layout do to the list of allocated clusters and to the end of the MFT zone. -/
structure FormatCall where
  size : ℕ
  fails : Site → Bool
  rest : List ClusterRun → ℕ → List ClusterRun × ℕ

/-! ### Allocated clusters -/

/-- `bitmap_allocate` on the sorted list of runs. The run is entered also where it clashes. -/
def allocateIn (nodeOk : Bool) (lcn length : ℕ) (l : List ClusterRun) : Bool × List ClusterRun :=
  if length = 0 then (true, l)
  else
    let before := l.takeWhile (·.lcn ≤ lcn)
    let after := l.dropWhile (·.lcn ≤ lcn)
    let clash := before.getLast?.any (lcn < ·.stop) || after.head?.any (·.lcn < lcn + length)
    match before.getLast? with
    | some q =>
      if q.stop = lcn then (!clash, before.dropLast ++ ⟨q.lcn, q.length + length⟩ :: after)
      else if nodeOk then (!clash, before ++ ⟨lcn, length⟩ :: after)
      else (false, l)
    | none => if nodeOk then (!clash, before ++ ⟨lcn, length⟩ :: after) else (false, l)

def bitmapAllocate (nodeOk : Bool) (lcn length : ℕ) : Prog Globals Unit Bool := call fun g =>
  let r := allocateIn nodeOk lcn length g.allocation
  (r.1, { g with allocation := r.2 })

section Stages

-- `maxCluster` is `NTFS_MAX_CLUSTER_SIZE`
variable (maxCluster : ℕ) (c : FormatCall)

/-- A step that fails if its allocation does. -/
def demand (site : Site) : Prog Globals Unit Unit := if c.fails site then exit () else pure ()

/-- Go on if the condition holds. -/
def require (p : Prop) [Decidable p] : Prog Globals Unit Unit := if p then pure () else exit ()

/-! ### Geometry -/

/-- The loop that doubles the cluster size until the number of clusters fits 32 bits. A cluster
size is a 32-bit number: from 4096 on there are 20 of them, the last of them large enough for
every 64-bit size. -/
def growCluster (volumeSize : ℕ) : ℕ → ℕ → Option ℕ
  | 0, _ => none
  | fuel + 1, clusterSize =>
    if volumeSize >>> (ffs clusterSize - 1 + 32) ≠ 0 then
      if clusterSize * 2 ≥ maxCluster then none
      else growCluster volumeSize fuel (clusterSize * 2)
    else some clusterSize

/-- The beginning of `mkntfs_redirect`. -/
def createVolume : Prog Globals Unit Unit := do
  demand c .volume
  demand c .volName
  demand c .upcase
  demand c .attrdef
  demand c .openPartition

/-- `mkntfs_override_vol_params`. The device answers no ioctl, so that its sector size is not
known and 512 is taken; the last sector is kept for the backup boot sector. -/
def overrideVolParams : Prog Globals Unit Unit := do
  let sectorSize := 512
  let numSectors := c.size / sectorSize
  require (0 < numSectors)
  let numSectors := numSectors - 1
  modify fun g => { g with sectorSize, numSectors }
  let volumeSize := numSectors * sectorSize
  require (2 ^ 20 ≤ volumeSize)
  match growCluster maxCluster volumeSize 20 (max 4096 sectorSize) with
  | none => exit ()
  | some clusterSize =>
    require (clusterSize &&& (clusterSize - 1) = 0)
    require (sectorSize ≤ clusterSize)
    require (clusterSize ≤ 4096 * sectorSize)
    require (clusterSize ≤ maxCluster)
    let nrClusters := volumeSize / clusterSize
    require (nrClusters / 2 ^ 32 = 0)
    modify fun g => { g with
      vol := ⟨clusterSize, ffs clusterSize - 1, nrClusters, max 1024 sectorSize,
        max 4096 sectorSize⟩ }

/-! ### Layout -/

/-- `mkntfs_initialize_bitmaps`: the bits behind the end of the volume, and one cluster for the
bitmap of the MFT behind `$Boot`. -/
def initializeBitmaps : Prog Globals Unit Unit := do
  let vol := (← read).vol
  let lcnBitmapByteSize := ((vol.nrClusters + 7) / 8 + 7) / 8 * 8
  modify fun g => { g with lcnBitmapByteSize }
  demand c .dynamicBuf
  let ok ← bitmapAllocate (!c.fails .tailNode) vol.nrClusters
    (lcnBitmapByteSize * 8 - vol.nrClusters)
  require (ok = true)
  let mftSize := max (27 * vol.mftRecordSize) vol.clusterSize
  let mftBitmapByteSize := ((mftSize / vol.mftRecordSize + 7) / 8 + 7) / 8 * 8
  modify fun g => { g with mftSize, mftBitmapByteSize }
  demand c .mftBitmap
  demand c .rlMftBmp
  let i := (8192 + vol.clusterSize - 1) / vol.clusterSize
  modify fun g => { g with rlMftBmp := some ⟨i, 1⟩ }
  let ok ← bitmapAllocate (!c.fails .bmpNode) i 1
  require (ok = true)

/-- The beginning of `mkntfs_initialize_rl_mft`. A cluster number of the MFT that is set already
is taken for the user's choice. -/
def chooseMftLcn (g : Globals) : Globals :=
  if g.mftLcn = 0 then
    let clusterSize := g.vol.clusterSize
    let lcn := (g.rlMftBmp.map ClusterRun.stop).getD 0
    { g with
      mftLcn := if lcn * clusterSize < 16 * 1024 then (16 * 1024 + clusterSize - 1) / clusterSize
        else lcn }
  else g

/-- `mkntfs_initialize_rl_mft`. The clusters of the MFT are allocated without a check. -/
def initializeRlMft : Prog Globals Unit Unit := do
  modify chooseMftLcn
  let g ← read
  let clusterSize := g.vol.clusterSize
  let mftLcn := g.mftLcn
  modify fun g => { g with mftZoneEnd := g.vol.nrClusters / 8 + mftLcn }
  demand c .rlMft
  let j := (g.mftSize + clusterSize - 1) / clusterSize
  modify fun g => { g with rlMft := some ⟨mftLcn, j⟩ }
  let _ ← bitmapAllocate (!c.fails .mftNode) mftLcn j
  let mftmirrLcn := g.numSectors * g.sectorSize / 2 / clusterSize
  modify fun g => { g with mftmirrLcn }
  demand c .rlMftmirr
  let j := (4 * g.vol.mftRecordSize + clusterSize - 1) / clusterSize
  modify fun g => { g with rlMftmirr := some ⟨mftmirrLcn, j⟩ }
  let done ← bitmapAllocate (!c.fails .mirrNode) mftmirrLcn j
  modify fun g => { g with logfileLcn := mftmirrLcn + j }
  require (done = true)

/-- The size of `$LogFile` for a volume, before it has to fit. -/
def logfileSizeFor (volumeSize clusterSize : ℕ) : ℕ :=
  if volumeSize < 2048 * 1024 then 256 * 1024
  else if volumeSize < 4000000 then 512 * 1024
  else if volumeSize ≤ 200 * 1024 * 1024 then 2048 * 1024
  else if volumeSize ≥ 12 * 2 ^ 30 then 64 * 2 ^ 20
  else volumeSize / 200 / clusterSize * clusterSize

/-- The loop that halves the size until the file ends before the volume does. The size is a
32-bit number, which is 0 after 32 rounds. -/
def shrinkLogfile (clusterSize logfileLcn nrClusters : ℕ) : ℕ → ℕ → ℕ
  | 0, size => size
  | fuel + 1, size =>
    if logfileLcn + size / clusterSize ≥ nrClusters then
      shrinkLogfile clusterSize logfileLcn nrClusters fuel (size / 2)
    else size

/-- `mkntfs_initialize_rl_logfile`. -/
def initializeRlLogfile : Prog Globals Unit Unit := do
  demand c .rlLogfile
  let g ← read
  let clusterSize := g.vol.clusterSize
  let volumeSize := g.vol.nrClusters * 2 ^ g.vol.clusterSizeBits
  let size := shrinkLogfile clusterSize g.logfileLcn g.vol.nrClusters 32
    (logfileSizeFor volumeSize clusterSize)
  let j := size / clusterSize
  let logfileSize := (size + clusterSize - 1) / clusterSize * clusterSize
  modify fun g => { g with logfileSize }
  require (256 * 1024 ≤ logfileSize)
  modify fun g => { g with rlLogfile := some ⟨g.logfileLcn, j⟩ }
  let ok ← bitmapAllocate (!c.fails .logNode) g.logfileLcn j
  require (ok = true)

/-- `mkntfs_initialize_rl_boot`. -/
def initializeRlBoot : Prog Globals Unit Unit := do
  demand c .rlBoot
  let clusterSize := (← read).vol.clusterSize
  let j := (8192 + clusterSize - 1) / clusterSize
  modify fun g => { g with rlBoot := some ⟨0, j⟩ }
  let ok ← bitmapAllocate (!c.fails .bootNode) 0 j
  require (ok = true)

/-- `mkntfs_initialize_rl_bad`. -/
def initializeRlBad : Prog Globals Unit Unit := do
  demand c .rlBad
  modify fun g => { g with rlBad := some g.vol.nrClusters }

/-- The stages before the MFT is placed. -/
def beforeMft : Prog Globals Unit Unit := do
  createVolume c
  overrideVolParams maxCluster c
  initializeBitmaps c

/-- The stages after that. -/
def afterMft : Prog Globals Unit Unit := do
  initializeRlLogfile c
  initializeRlBoot c
  demand c .buf
  initializeRlBad c

/-- `mkntfs_redirect` up to the point where files are created. -/
def layOut : Prog Globals Unit Unit := do
  beforeMft maxCluster c
  initializeRlMft c
  afterMft c

/-! ### A call -/

/-- `mkntfs_init_options`. -/
def initOptions (g : Globals) : Globals := { g with sectorSize := 0, numSectors := 0 }

/-- `mkntfs_cleanup`, with the part that makes a second run in the process safe. -/
def mkntfsCleanup (g : Globals) : Globals :=
  { g with
    vol := ⟨0, 0, 0, 0, 0⟩
    rlBad := none
    rlBoot := none
    rlLogfile := none
    rlMft := none
    rlMftBmp := none
    rlMftmirr := none
    allocation := []
    numBadBlocks := 0 }

/-- The layout of a volume. -/
structure Layout where
  clusterSize : ℕ
  rlMft : Option ClusterRun
  rlMftmirr : Option ClusterRun
  rlLogfile : Option ClusterRun
  rlMftBmp : Option ClusterRun
  rlBoot : Option ClusterRun
  allocation : List ClusterRun
  deriving DecidableEq

def Globals.layout (g : Globals) : Layout :=
  ⟨g.vol.clusterSize, g.rlMft, g.rlMftmirr, g.rlLogfile, g.rlMftBmp, g.rlBoot, g.allocation⟩

/-- The runs of the system files. -/
def Layout.systemRuns (l : Layout) : List ClusterRun :=
  l.rlBoot.toList ++ l.rlMftBmp.toList ++ l.rlMft.toList ++ l.rlMftmirr.toList ++
    l.rlLogfile.toList

/-- `nk_format`: the layout it computes, if it gets that far, and the globals it leaves. -/
def nkFormat (g : Globals) : Option Layout × Globals :=
  if c.fails .devctx ∨ c.fails .device then (none, g)
  else
    match layOut maxCluster c (initOptions g) with
    | (.ok (), t) =>
      let r := c.rest t.allocation t.mftZoneEnd
      (some t.layout, mkntfsCleanup { t with allocation := r.1, mftZoneEnd := r.2 })
    | (.error (), t) => (none, mkntfsCleanup t)

end Stages

/-- The globals after some calls. -/
def afterCalls (maxCluster : ℕ) (calls : List FormatCall) (g : Globals) : Globals :=
  calls.foldl (fun g c => (nkFormat maxCluster c g).2) g

end NtfsKit
