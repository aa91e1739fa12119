import NtfsKit.Engine.Libntfs
import NtfsKit.Lib.Chunks
import NtfsKit.Lib.SwapTable

/-! One file as the functions of `ntfs_bridge.c` see it: the library's state, the
file's MFT reference and the volume's table of write high-water marks. The
helpers shared by the mapping, completion and abort paths are here: the table
operations, `zero_raw` and `stamp_init`. -/

namespace NtfsKit

variable {σ : Type}

/-- `nk_volume`: the mounted volume, and whether it is a BitLocker one. The table
`wr` is part of the state. -/
structure NkVolume where
  vol : NtfsVolume
  bde : Bool
  deriving DecidableEq, Repr

/-- The file a call works on. `wr` holds pairs of an MFT reference and the end of
the highest range handed to the kernel for that file. -/
structure NkFile (σ : Type) extends Ntfs σ where
  mref : ℕ
  wr : List (ℕ × ℤ)

namespace NkFile

/-- `wr_hwm`: the tracked mark, 0 when the file has no entry. -/
def wrHwm (f : NkFile σ) : ℤ := (SwapTable.find f.wr f.mref).getD 0

/-- `wr_drop`. -/
def wrDrop (f : NkFile σ) : NkFile σ := { f with wr := SwapTable.swapRemove f.wr f.mref }

/-- `w->hwm = hwm` on the file's entry. -/
def marked (hwm : ℤ) (f : NkFile σ) : NkFile σ :=
  { f with wr := SwapTable.set f.wr f.mref hwm }

/-- Run a library call on the file. -/
def lib {A : Type} (g : Ntfs σ → A × Ntfs σ) (f : NkFile σ) : A × NkFile σ :=
  ((g f.toNtfs).1, { f with toNtfs := (g f.toNtfs).2 })

/-- Run a library call that only concerns the library's own state. -/
def libEng {A : Type} (g : σ → A × σ) (f : NkFile σ) : A × NkFile σ :=
  ((g f.eng).1, { f with eng := (g f.eng).2 })

/-- `wr_set`: overwrite the entry, or append one when there is memory for it. -/
def wrSet (L : Libntfs σ) (hwm : ℤ) (f : NkFile σ) : ℤ × NkFile σ :=
  if (SwapTable.find f.wr f.mref).isSome then
    (0, f.marked hwm)
  else
    let r := f.libEng L.realloc
    if r.1 then (0, r.2.marked hwm) else (-1, r.2)

/-- Set `na->initialized_size`, in memory only. -/
def setInit (val : ℤ) (f : NkFile σ) : NkFile σ :=
  { f with na := { f.na with initializedSize := val } }

/-- `stamp_init`: write `initialized_size` into the attribute record and `na`. -/
def stampInit (L : Libntfs σ) (val : ℤ) (f : NkFile σ) : ℤ × NkFile σ :=
  let r := f.libEng L.attrLookup
  if r.1 then
    (0, { r.2 with na := { r.2.na with initializedSize := val, recInitializedSize := val } })
  else (-1, r.2)

/-- `ntfs_attr_open`: the sizes in memory come from the attribute record. -/
def attrOpen (L : Libntfs σ) (f : NkFile σ) : Bool × NkFile σ :=
  let r := f.libEng L.attrOpen
  (r.1, r.2.setInit r.2.na.recInitializedSize)

end NkFile

/-- A static buffer of zeros. -/
def zeros : ℤ → UInt8 := fun _ => 0

/-- The size of the static buffers `gz` and `zeros`. -/
def gzSize : ℤ := 65536

/-- The device writes of `zero_raw` for one element: the part of `[from, to)` it
covers, through the buffer `gz`; nothing for a hole. -/
def zeroRawRun (csize lo hi : ℤ) (e : RunlistElement) : List (ℤ × ℤ) :=
  if e.lcn < 0 then [] else
    let log := e.vcn * csize
    let stop := log + e.length * csize
    let s := if log > lo then log else lo
    let t := if stop < hi then stop else hi
    (chunks gzSize s t).map fun c => (e.lcn * csize + (c.1 - log), c.2)

/-- The device writes `zero_raw` makes, in order. -/
def zeroRawWrites (csize : ℤ) (rl : Runlist) (lo hi : ℤ) : List (ℤ × ℤ) :=
  rl.elements.flatMap (zeroRawRun csize lo hi)

/-- Write zeros at every position of the list; stop at the first short write. -/
def pwriteZeros (L : Libntfs σ) : List (ℤ × ℤ) → NkFile σ → ℤ × NkFile σ
  | [], f => (0, f)
  | c :: cs, f =>
    let r := f.lib fun s => L.pwrite s c.1 c.2 zeros
    if r.1 ≠ c.2 then (-1, r.2) else pwriteZeros L cs r.2

/-- `zero_raw`: zero `[from, to)` straight on the attribute's clusters. -/
def zeroRaw (L : Libntfs σ) (v : NkVolume) (lo hi : ℤ) (f : NkFile σ) : ℤ × NkFile σ :=
  pwriteZeros L (zeroRawWrites v.vol.clusterSize f.na.rl lo hi) f

end NtfsKit
