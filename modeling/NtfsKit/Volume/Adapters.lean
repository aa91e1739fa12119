import NtfsKit.Lib.Buffer
import NtfsKit.Volume.Coherence

/-! The two device adapters with their scratch buffers. `devicePread` and `devicePwrite`
work granule by granule, each through the buffer cache if the kernel accepts it and
through the plain API if it does not, before the kernel mount; `FsckIO` reads and writes
a whole range through the plain API. A slice outside the scratch buffer and an overflow
of 64-bit arithmetic stop the program. -/

namespace NtfsKit

open Prog

/-- How a device access ends early: an error that is caught, or the end of the program. -/
inductive Fault
  | thrown
  | trap
  deriving DecidableEq, Repr

inductive IOMode
  | probing
  | metadata
  deriving DecidableEq, Repr

/-- The device with its buffer cache, and the state of the engine's access to it. The
first `failing` buffer-cache calls are refused. -/
structure EngineDevice where
  dev : Device
  failing : ℕ
  ioMode : IOMode
  kernelMounted : Bool

/-- A transfer in progress over a state `S` of the device. -/
structure Copying (S : Type) where
  dev : S
  scratch : List UInt8

/-- A slice or a splice of the scratch buffer, which traps when it is out of bounds. -/
def checked {S A : Type} : Option A → Prog S Fault A
  | some a => pure a
  | none => exit .trap

/-- Run a program of the device during a transfer. -/
def onDevice {S A : Type} (m : Prog S Fault A) : Prog (Copying S) Fault A := fun t =>
  ((m t.dev).1, { t with dev := (m t.dev).2 })

/-- Run a transfer on a new scratch buffer and catch what it throws. -/
def attempt {S A : Type} (scratch : List UInt8) (m : Prog (Copying S) Fault A) :
    Prog S Fault (Option A) := fun s =>
  match m ⟨s, scratch⟩ with
  | (.ok a, t) => (.ok (some a), t.dev)
  | (.error .thrown, t) => (.ok none, t.dev)
  | (.error .trap, t) => (.error .trap, t.dev)

namespace BlockDevice

variable (d : BlockDevice)

/-- What the resource accepts: whole blocks of the device. -/
def Serves (start : ℤ) (length : ℕ) : Prop :=
  0 ≤ start ∧ start + length ≤ d.size ∧ d.blockSize ∣ start ∧ d.blockSize ∣ (length : ℤ)

instance (start : ℤ) (length : ℕ) : Decidable (d.Serves start length) :=
  inferInstanceAs (Decidable (_ ∧ _))

/-- The length of a slice of the scratch buffer. -/
def granuleLength : ℕ := d.cacheBlockSize.toNat

/-- `resource.read`. -/
def plainRead (start : ℤ) (length : ℕ) (s : Device) : Option (List UInt8) :=
  if d.Serves start length then some (stretch s.disk start length) else none

/-- `resource.write`, behind the buffer cache. -/
def plainWrite (start : ℤ) (bytes : List UInt8) (s : Device) : Option Device :=
  if d.Serves start bytes.length then some (s.poke (overwrite s.disk start bytes)) else none

/-- `resource.metadataRead` of the granule at `start`. -/
def metadataRead (start : ℤ) (s : EngineDevice) : Option (List UInt8) × EngineDevice :=
  if 0 < s.failing then (none, { s with failing := s.failing - 1 })
  else if d.Serves start d.granuleLength then
    let dev := s.dev.load d.granule (d.granule start)
    (some (stretch dev.copy start d.granuleLength), { s with dev := dev })
  else (none, s)

/-- `resource.metadataWrite` of the granule at `start`. -/
def metadataWrite (start : ℤ) (bytes : List UInt8) (s : EngineDevice) : Bool × EngineDevice :=
  if 0 < s.failing then (false, { s with failing := s.failing - 1 })
  else if d.Serves start bytes.length then
    (true, { s with
      dev := s.dev.store d.granule (d.granule start) (overwrite s.dev.disk start bytes) })
  else (false, s)

namespace Volume

/-- `readBlock`: the bytes of the granule at `start`. -/
def readBlock (start : ℤ) : Prog EngineDevice Fault (List UInt8) := do
  let s ← read
  match s.ioMode, ← call (d.metadataRead start) with
  | .metadata, some bytes => pure bytes
  | .metadata, none => exit .thrown
  | .probing, some bytes => do
    modify fun s => { s with ioMode := .metadata }
    pure bytes
  | .probing, none =>
    if s.kernelMounted then exit .thrown
    else match d.plainRead start d.granuleLength s.dev with
      | some bytes => pure bytes
      | none => exit .thrown

/-- `writeBlock`. -/
def writeBlock (start : ℤ) (bytes : List UInt8) : Prog EngineDevice Fault Unit := do
  let s ← read
  match s.ioMode, ← call (d.metadataWrite start bytes) with
  | .metadata, true => pure ()
  | .metadata, false => exit .thrown
  | .probing, true => modify fun s => { s with ioMode := .metadata }
  | .probing, false =>
    if s.kernelMounted then exit .thrown
    else match d.plainWrite start bytes s.dev with
      | some dev => modify fun s => { s with dev := dev }
      | none => exit .thrown

/-- `readAligned`. -/
def readAligned (start : ℤ) (length : ℕ) : Prog (Copying EngineDevice) Fault Unit :=
  each (fun o => do
    let t ← read
    let _ ← checked (slice? t.scratch o d.granuleLength)
    let bytes ← onDevice (readBlock d (start + o))
    let scratch ← checked (splice? t.scratch o bytes)
    modify fun t => { t with scratch := scratch }) (strides length d.granuleLength)

/-- `writeAligned`. -/
def writeAligned (start : ℤ) (length : ℕ) : Prog (Copying EngineDevice) Fault Unit :=
  each (fun o => do
    let t ← read
    let bytes ← checked (slice? t.scratch o d.granuleLength)
    onDevice (writeBlock d (start + o) bytes)) (strides length d.granuleLength)

end Volume

namespace Fsck

/-- The one read of `FsckIO`. -/
def fill (start : ℤ) (length : ℕ) : Prog (Copying Device) Fault Unit := do
  let t ← read
  match d.plainRead start length t.dev with
  | some bytes => modify fun t => { t with scratch := bytes }
  | none => exit .thrown

/-- The one write of `FsckIO`. -/
def drain (start : ℤ) (_length : ℕ) : Prog (Copying Device) Fault Unit := do
  let t ← read
  match d.plainWrite start t.scratch t.dev with
  | some dev => modify fun t => { t with dev := dev }
  | none => exit .thrown

end Fsck

end BlockDevice

/-- What the adapters have in common: an unaligned access is one of whole granules, moved
by `fill` into the scratch buffer and by `drain` out of it. -/
structure Adapter (S : Type) where
  size : ℤ
  granule : ℤ
  fill : ℤ → ℕ → Prog (Copying S) Fault Unit
  drain : ℤ → ℕ → Prog (Copying S) Fault Unit

namespace Adapter

variable {S : Type} (A : Adapter S)

/-- The first byte of the granule of `offset`. -/
def start (offset : ℤ) : ℤ := offset / A.granule * A.granule

/-- The end of the granule that ends at or after `stop`, on the device. The sum is
computed in 64 bits. -/
def alignedEnd (stop : ℤ) : Prog S Fault ℤ :=
  if stop + A.granule > int64Max then exit .trap
  else pure (min ((stop + A.granule - 1) / A.granule * A.granule) A.size)

/-- The read of `[offset, stop)` once the granules up to `last` are to be moved. -/
def readOut (offset stop last : ℤ) : Prog (Copying S) Fault (List UInt8) := do
  let len := (last - A.start offset).toNat
  A.fill (A.start offset) len
  let skip := (offset - A.start offset).toNat
  let t ← read
  checked (slice? t.scratch skip (min (stop - offset).toNat (len - skip)))

/-- Load the granules, unless `[offset, stop)` fills them. -/
def preload (offset stop last : ℤ) : Prog (Copying S) Fault Unit :=
  if offset ≠ A.start offset ∨ stop ≠ last then
    A.fill (A.start offset) (last - A.start offset).toNat
  else pure ()

/-- The write of `[offset, stop)`. -/
def writeIn (buf : ℤ → UInt8) (offset stop last : ℤ) : Prog (Copying S) Fault ℤ := do
  let len := (last - A.start offset).toNat
  A.preload offset stop last
  let t ← read
  let scratch ← checked
    (splice? t.scratch (offset - A.start offset).toNat (stretch buf 0 (stop - offset).toNat))
  modify fun t => { t with scratch := scratch }
  A.drain (A.start offset) len
  pure (stop - offset)

/-- A read of `count` bytes at `offset`; `none` is the return value -1. The scratch
buffer starts out with what `memory` holds. -/
def pread (memory : ℕ → UInt8) (count offset : ℤ) : Prog S Fault (Option (List UInt8)) :=
  if BlockDevice.badRange count offset then pure none
  else
    let stop := min (offset + count) A.size
    if offset ≥ A.size ∨ stop ≤ offset then pure (some [])
    else do
      let last ← A.alignedEnd stop
      attempt ((List.range (last - A.start offset).toNat).map memory) (A.readOut offset stop last)

/-- A write of `count` bytes at `offset`. -/
def pwrite (memory : ℕ → UInt8) (buf : ℤ → UInt8) (count offset : ℤ) : Prog S Fault ℤ :=
  if BlockDevice.badRange count offset then pure (-1)
  else
    let stop := min (offset + count) A.size
    if offset ≥ A.size ∨ stop ≤ offset then pure 0
    else do
      let last ← A.alignedEnd stop
      let done ← attempt ((List.range (last - A.start offset).toNat).map memory)
        (A.writeIn buf offset stop last)
      pure (done.getD (-1))

end Adapter

namespace BlockDevice

variable (d : BlockDevice)

/-- `devicePread` and `devicePwrite`. -/
def Volume.adapter : Adapter EngineDevice where
  size := d.size
  granule := d.cacheBlockSize
  fill := Volume.readAligned d
  drain := Volume.writeAligned d

/-- `FsckIO.pread` and `FsckIO.pwrite`. -/
def Fsck.adapter : Adapter Device where
  size := d.size
  granule := d.blockSize
  fill := Fsck.fill d
  drain := Fsck.drain d

end BlockDevice

end NtfsKit
