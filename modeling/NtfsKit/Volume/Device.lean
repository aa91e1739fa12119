import NtfsKit.Engine.Libntfs
import NtfsKit.Lib.Prog
import NtfsKit.Lib.WriteThrough

/-! The engine's device I/O once the kernel mount exists. Every access goes through the
kernel's buffer cache in granules of one size, chosen when the engine opens the device.
A write that does not fill its first and last granule reads them first. The kernel
stores file data behind the cache, in the ranges a write map handed out. -/

namespace NtfsKit

open Prog

/-- The cluster size in the boot sector's NTFS encoding; the exponent is capped. -/
def bootClusterSize (boot : ℕ → UInt8) : ℕ :=
  let bps := (boot 0x0B).toNat + (boot 0x0C).toNat * 2 ^ 8
  let spc := (boot 0x0D).toNat
  let exp := 256 - spc
  if spc > 0x80 then (if exp < 22 then bps * 2 ^ exp else 0) else bps * spc

/-- `pickCacheBlockSize`: 4096 when the device and the clusters are multiples of it,
the block size otherwise. `boot` is the boot sector, when it could be read. -/
def pickCacheBlockSize (bs deviceSize : ℤ) (boot : Option (ℕ → UInt8)) : ℤ :=
  if 0 < bs ∧ deviceSize % 4096 = 0 ∧ 4096 % bs = 0 then
    match boot with
    | none => bs
    | some boot => if 0 < bootClusterSize boot ∧ bootClusterSize boot % 4096 = 0 then 4096 else bs
  else bs

/-- The granule divides the device. -/
theorem pickCacheBlockSize_spec {bs count : ℤ} (hbs : 0 < bs) (boot : Option (ℕ → UInt8)) :
    0 < pickCacheBlockSize bs (count * bs) boot ∧
      pickCacheBlockSize bs (count * bs) boot ∣ count * bs := by
  have hself : 0 < bs ∧ bs ∣ count * bs := ⟨hbs, Dvd.intro_left _ rfl⟩
  unfold pickCacheBlockSize
  by_cases hc : 0 < bs ∧ count * bs % 4096 = 0 ∧ 4096 % bs = 0
  · rw [if_pos hc]
    cases boot with
    | none => exact hself
    | some boot =>
      dsimp only
      split_ifs
      · exact ⟨by decide, Int.dvd_of_emod_eq_zero hc.2.1⟩
      · exact hself
  · rw [if_neg hc]
    exact hself

/-- The block device and the one granule of the buffer cache. -/
structure BlockDevice where
  blockSize : ℤ
  blockCount : ℤ
  cacheBlockSize : ℤ
  pos : 0 < cacheBlockSize
  dvd : cacheBlockSize ∣ blockCount * blockSize

/-- The device as `openEngine` finds it. -/
def BlockDevice.opened (blockSize blockCount : ℤ) (h : 0 < blockSize)
    (boot : Option (ℕ → UInt8)) : BlockDevice where
  blockSize := blockSize
  blockCount := blockCount
  cacheBlockSize := pickCacheBlockSize blockSize (blockCount * blockSize) boot
  pos := (pickCacheBlockSize_spec h boot).1
  dvd := (pickCacheBlockSize_spec h boot).2

/-- A block of 512 bytes. -/
theorem BlockDevice.sector_pos : (0 : ℤ) < 512 := by decide

/-- The disk and the buffer cache; granules are named by their number. -/
abbrev Device := WriteThrough ℤ ℤ UInt8

/-- Which buffer-cache accesses the kernel lets succeed, by their offset. -/
structure Faults where
  read : ℤ → Bool
  write : ℤ → Bool

/-- A transfer in progress; `scratch` is addressed by device offset. -/
structure Transfer where
  dev : Device
  scratch : ℤ → UInt8

namespace BlockDevice

variable (d : BlockDevice)

/-- `deviceSize`. -/
def size : ℤ := d.blockCount * d.blockSize

/-- The granule a byte of the device lies in. -/
def granule (q : ℤ) : ℤ := q / d.cacheBlockSize

/-- `stride(from: a, to: b, by: cacheBlockSize)`. -/
def stride (a b : ℤ) : List ℤ :=
  (List.range ((b - a) / d.cacheBlockSize).toNat).map fun i : ℕ => a + i * d.cacheBlockSize

/-- `readBlock`: `metadataRead` of the granule at `start`. -/
def readBlock (io : Faults) (start : ℤ) : Prog Transfer Unit Unit := fun t =>
  if io.read start then
    let dev := t.dev.load d.granule (d.granule start)
    (.ok (), ⟨dev, fun q => if d.granule q = d.granule start then dev.copy q else t.scratch q⟩)
  else (.error (), t)

/-- `writeBlock`: `metadataWrite` of the granule at `start`. -/
def writeBlock (io : Faults) (start : ℤ) : Prog Transfer Unit Unit := fun t =>
  if io.write start then
    (.ok (), { t with dev := t.dev.store d.granule (d.granule start) t.scratch })
  else (.error (), t)

def readAligned (io : Faults) (a b : ℤ) : Prog Transfer Unit Unit :=
  each (d.readBlock io) (d.stride a b)

def writeAligned (io : Faults) (a b : ℤ) : Prog Transfer Unit Unit :=
  each (d.writeBlock io) (d.stride a b)

/-- The first byte of the granule of `offset`. -/
def alignedStart (offset : ℤ) : ℤ := offset / d.cacheBlockSize * d.cacheBlockSize

/-- The end of the granule that ends at or after `stop`, on the device. -/
def alignedEnd (stop : ℤ) : ℤ :=
  min ((stop + d.cacheBlockSize - 1) / d.cacheBlockSize * d.cacheBlockSize) d.size

/-- Load the buffer, unless the range fills its granules. -/
def preload (io : Faults) (offset stop : ℤ) : Prog Transfer Unit Unit :=
  if offset ≠ d.alignedStart offset ∨ stop ≠ d.alignedEnd stop then
    d.readAligned io (d.alignedStart offset) (d.alignedEnd stop)
  else pure ()

/-- The transfer of `devicePwrite`: preload, put the bytes in place, write. -/
def writeTransfer (io : Faults) (buf : ℤ → UInt8) (offset stop : ℤ) : Prog Transfer Unit Unit := do
  d.preload io offset stop
  modify fun t => { t with scratch := diskWrite t.scratch offset (stop - offset) buf }
  d.writeAligned io (d.alignedStart offset) (d.alignedEnd stop)

/-- A range `devicePread` and `devicePwrite` refuse. -/
def badRange (count offset : ℤ) : Bool :=
  offset < 0 || count < 0 || offset > int64Max - count

/-- `devicePwrite`. -/
def devicePwrite (io : Faults) (buf : ℤ → UInt8) (count offset : ℤ) (s : Device) : ℤ × Device :=
  if badRange count offset then (-1, s)
  else
    let stop := min (offset + count) d.size
    if offset ≥ d.size ∨ stop ≤ offset then (0, s)
    else match d.writeTransfer io buf offset stop ⟨s, zeroed⟩ with
      | (.ok _, t) => (stop - offset, t.dev)
      | (.error _, t) => (-1, t.dev)
where
  zeroed : ℤ → UInt8 := fun _ => 0

/-- `devicePread`; `none` is the return value -1. -/
def devicePread (io : Faults) (count offset : ℤ) (s : Device) : Option (List UInt8) × Device :=
  if badRange count offset then (none, s)
  else
    let stop := min (offset + count) d.size
    if offset ≥ d.size ∨ stop ≤ offset then (some [], s)
    else match d.readAligned io (d.alignedStart offset) (d.alignedEnd stop) ⟨s, zeroed⟩ with
      | (.ok _, t) =>
        (some ((List.range (stop - offset).toNat).map fun i : ℕ => t.scratch (offset + i)), t.dev)
      | (.error _, t) => (none, t.dev)
where
  zeroed : ℤ → UInt8 := fun _ => 0

end BlockDevice

/-- The segments of a purge: `segmentCount` granules from `offset` on. -/
structure FSMetadataRange where
  offset : ℤ
  segmentLength : ℤ
  segmentCount : ℤ
  deriving DecidableEq, Repr

/-- The purge of one range handed out for writing, given as `(phys, len)`. -/
def purgeRange (g : ℤ) (w : ℤ × ℤ) : FSMetadataRange :=
  let start := w.1 / g * g
  let stop := (w.1 + w.2 + g - 1) / g * g
  ⟨start, g, (stop - start) / g⟩

/-- Granule `k` is a segment of the range. -/
def FSMetadataRange.hasGranule (r : FSMetadataRange) (k : ℤ) : Bool :=
  r.offset / r.segmentLength ≤ k && k < r.offset / r.segmentLength + r.segmentCount

/-- `metadataPurge`. -/
def metadataPurge (ranges : List FSMetadataRange) (s : Device) : Device :=
  s.purge fun k => ranges.any (·.hasGranule k)

end NtfsKit
