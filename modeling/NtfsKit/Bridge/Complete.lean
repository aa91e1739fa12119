import NtfsKit.Bridge.Blockmap

/-! The other operations on one file: `nk_complete_write` and `nk_abort_write`, which
end a window handed out by `nk_blockmap`, `nk_truncate` and `nk_read`. -/

namespace NtfsKit

variable {σ : Type}

open Prog

/-- The kernel sends windows of positive length that end within 64 bits; anything
else is refused. -/
def badWindow (offset length : ℤ) : Bool :=
  offset < 0 || length ≤ 0 || offset > int64Max - length

/-- The gap below a window that was never mapped is zeroed on completion. -/
def zeroUnmapped (L : Libntfs σ) (v : NkVolume) (floor offset : ℤ) : Bridge σ Unit := do
  let f ← read
  if f.na.nonResident ∧ offset > floor then do
    orFail (call (NkFile.lib L.attrMapWholeRunlist)) 0
    orFail (call (zeroRaw L v floor offset)) 0
  else pure ()

/-- Advance `initialized_size` to the end of the window. -/
def stampWindow (L : Libntfs σ) (target : ℤ) : Bridge σ Unit := do
  let f ← read
  if f.na.nonResident ∧ f.na.initializedSize < target then
    orFail (call (NkFile.stampInit L target)) 0
  else pure ()

/-- Forget the mark once everything below it is initialized. -/
def dropLanded (f : NkFile σ) : NkFile σ :=
  if f.na.initializedSize ≥ f.wrHwm then f.wrDrop else f

/-- `nk_complete_write` on an open attribute, up to `done:`. -/
def completeBody (L : Libntfs σ) (v : NkVolume) (offset length : ℤ) : Bridge σ Unit := do
  let f ← read
  -- truncated below the window: nothing left to initialize
  if offset ≥ f.na.dataSize then exit (.out 0)
  else do
    let target := if offset + length > f.na.dataSize then f.na.dataSize else offset + length
    let floor := if f.wrHwm > f.na.initializedSize then f.wrHwm else f.na.initializedSize
    zeroUnmapped L v floor offset
    stampWindow L target
    modify dropLanded

/-- The value of `r` at `done:`. -/
def exitCode : Except Exit Unit → ℤ
  | .error (.out r) => r
  | _ => 0

/-- `nk_complete_write`. -/
def nkCompleteWrite (L : Libntfs σ) (v : NkVolume) (offset length : ℤ) (f : NkFile σ) :
    ℤ × NkFile σ :=
  if badWindow offset length then (-1, f)
  else
    let i := f.libEng L.pathnameToInode
    if i.1 = false then (-1, i.2)
    else
      let a := i.2.attrOpen L
      if a.1 = false then (-1, (a.2.libEng L.inodeClose).2)
      else
        let b := completeBody L v offset length a.2
        flush L (exitCode b.1) b.2

/-- The top window failed: pull the mark back to its start. -/
def abortTop (offset init : ℤ) (f : NkFile σ) : NkFile σ :=
  if offset ≤ init then (f.marked offset).wrDrop else f.marked offset

/-- A lower window failed: zero what it holds above `initialized_size`. -/
def abortLower (L : Libntfs σ) (v : NkVolume) (offset stop init : ℤ) (f : NkFile σ) :
    ℤ × NkFile σ :=
  let lo := if offset > init then offset else init
  if lo < stop then
    let m := f.lib L.attrMapWholeRunlist
    if m.1 ≠ 0 then (-1, m.2)
    else
      let z := zeroRaw L v lo stop m.2
      (if z.1 ≠ 0 then -1 else 0, z.2)
  else (0, f)

/-- `nk_abort_write` on an inode whose entry is `hwm`. The attribute may fail to
open: its `initialized_size` then counts as 0. -/
def abortBody (L : Libntfs σ) (v : NkVolume) (offset length hwm : ℤ) (f : NkFile σ) :
    ℤ × NkFile σ :=
  if offset < hwm then
    let a := f.attrOpen L
    let init := if a.1 then a.2.na.initializedSize else 0
    if offset + length ≥ hwm then (0, abortTop offset init a.2)
    else if a.1 ∧ a.2.na.nonResident then abortLower L v offset (offset + length) init a.2
    else (0, a.2)
  else (0, f)

/-- `nk_abort_write`. -/
def nkAbortWrite (L : Libntfs σ) (v : NkVolume) (offset length : ℤ) (f : NkFile σ) :
    ℤ × NkFile σ :=
  if badWindow offset length then (-1, f)
  else
    let i := f.libEng L.pathnameToInode
    if i.1 = false then (-1, i.2)
    else
      let r := match SwapTable.find i.2.wr i.2.mref with
        | none => (0, i.2)
        | some hwm => abortBody L v offset length hwm i.2
      (r.1, (r.2.libEng L.inodeClose).2)

/-- Writes beyond the new size are dead: clamp the mark. -/
def clampHwm (size : ℤ) (f : NkFile σ) : NkFile σ :=
  match SwapTable.find f.wr f.mref with
  | none => f
  | some hwm => if hwm > size then f.marked size else f

/-- `nk_truncate`. -/
def nkTruncate (L : Libntfs σ) (size : ℤ) (f : NkFile σ) : ℤ × NkFile σ :=
  let i := f.libEng L.pathnameToInode
  if i.1 = false then (-1, i.2)
  else
    let a := i.2.attrOpen L
    let t := if a.1 then a.2.lib fun s => L.attrTruncate s size else (-1, a.2)
    let c := (clampHwm size t.2).libEng L.inodeClose
    (if t.1 ≠ 0 ∨ c.1 ≠ 0 then -1 else 0, c.2)

/-- The bytes of `[a, b)` of a byte function. -/
def bytes (a b : ℤ) (g : ℤ → UInt8) : List UInt8 :=
  (List.range (b - a).toNat).map fun i : ℕ => g (a + i)

/-- `ntfs_attr_pread`: the bytes of the range that lie below `data_size`. -/
def Ntfs.attrPread (vol : NtfsVolume) (s : Ntfs σ) (pos count : ℤ) : Option (List UInt8) :=
  if pos < 0 ∨ count < 0 then none
  else some (bytes pos (min (pos + count) s.na.dataSize) (s.attrByte vol))

/-- `nk_read`; `none` is the return value -1. -/
def nkRead (L : Libntfs σ) (v : NkVolume) (offset count : ℤ) (f : NkFile σ) :
    Option (List UInt8) × NkFile σ :=
  let i := f.libEng L.pathnameToInode
  if i.1 = false then (none, i.2)
  else
    let a := i.2.attrOpen L
    let n := if a.1 then a.2.attrPread v.vol offset count else none
    (n, (a.2.libEng L.inodeClose).2)

end NtfsKit
