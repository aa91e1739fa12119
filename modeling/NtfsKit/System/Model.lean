import NtfsKit.Bridge.Complete
import NtfsKit.Bridge.Extents
import NtfsKit.Lib.Run
import NtfsKit.Protocol.Window

/-! The system around one file: the bridge, which maps, completes, aborts and
truncates, and the kernel, which stores bytes through the extents it was handed.
An event is one call of the bridge or one landing. -/

namespace NtfsKit

variable {σ : Type}

/-- The file, the windows handed out for writing, and the extents of each. -/
structure Sys (σ : Type) where
  file : NkFile σ
  windows : List Window
  extents : List (List Extent)

inductive Event
  | mapRead (offset length blocksize : ℤ) (cb : List Extent → Bool)
  | mapWrite (offset length blocksize : ℤ) (cb : List Extent → Bool)
  /-- The kernel stores `data` on the bytes `[a, b)` of window `i`. -/
  | land (i : ℕ) (a b : ℤ) (data : ℤ → UInt8)
  | complete (i : ℕ)
  | abort (i : ℕ)
  | truncate (size : ℤ)

/-- The return value of a call, and the extents of a map. -/
structure Reply where
  ret : Option ℤ
  extents : List Extent

/-- A direct write to the device: byte `x` of `[a, b)` goes where an extent puts it. -/
def landDisk (es : List Extent) (a b : ℤ) (data disk : ℤ → UInt8) : ℤ → UInt8 := fun q =>
  match es.find? fun e => e.physical ≤ q ∧ q < e.physical + e.length ∧
    a ≤ e.logical + (q - e.physical) ∧ e.logical + (q - e.physical) < b with
  | some e => data (e.logical + (q - e.physical))
  | none => disk q

namespace Sys

/-- `nk_blockmap` for reading. -/
def mapRead (L : Libntfs σ) (v : NkVolume) (offset length blocksize : ℤ)
    (cb : List Extent → Bool) (s : Sys σ) : Reply × Sys σ :=
  let m := nkBlockmap L v offset length false blocksize cb s.file
  (⟨m.ret, m.extents⟩, { s with file := m.file })

/-- `nk_blockmap` for writing; a map that returns 0 hands out a window. -/
def mapWrite (L : Libntfs σ) (v : NkVolume) (offset length blocksize : ℤ)
    (cb : List Extent → Bool) (s : Sys σ) : Reply × Sys σ :=
  let m := nkBlockmap L v offset length true blocksize cb s.file
  let stop := extentsEnd offset m.extents
  (⟨m.ret, m.extents⟩, if m.ret = some 0 then
    { file := m.file
      windows := s.windows.map (Window.overlap offset stop) ++ [.handedOut offset stop]
      extents := s.extents ++ [m.extents] }
    else { s with file := m.file })

def land (i : ℕ) (a b : ℤ) (data : ℤ → UInt8) (s : Sys σ) : Sys σ :=
  { s with
    file := { s.file with disk := landDisk (s.extents.getD i []) a b data s.file.disk }
    windows := s.windows.modify i (Window.land a b data) }

/-- `nk_complete_write` of window `i`. -/
def complete (L : Libntfs σ) (v : NkVolume) (i : ℕ) (s : Sys σ) : Reply × Sys σ :=
  match s.windows[i]? with
  | none => (⟨none, []⟩, s)
  | some w =>
    let r := nkCompleteWrite L v w.start (w.stop - w.start) s.file
    (⟨some r.1, []⟩, { s with
      file := r.2
      windows := s.windows.modify i (Window.finish (if r.1 = 0 then .completed else .failed)) })

/-- `nk_abort_write` of window `i`. -/
def abort (L : Libntfs σ) (v : NkVolume) (i : ℕ) (s : Sys σ) : Reply × Sys σ :=
  match s.windows[i]? with
  | none => (⟨none, []⟩, s)
  | some w =>
    let r := nkAbortWrite L v w.start (w.stop - w.start) s.file
    (⟨some r.1, []⟩, { s with
      file := r.2
      windows := s.windows.modify i (Window.finish .aborted) })

/-- `nk_truncate`; it cuts every window at the size it leaves, which is the old one when
nothing was truncated. -/
def truncate (L : Libntfs σ) (size : ℤ) (s : Sys σ) : Reply × Sys σ :=
  let r := nkTruncate L size s.file
  (⟨some r.1, []⟩, { s with file := r.2, windows := s.windows.map (Window.cut r.2.na.dataSize) })

/-- One event. -/
def step (L : Libntfs σ) (v : NkVolume) (s : Sys σ) : Event → Reply × Sys σ
  | .mapRead offset length blocksize cb => s.mapRead L v offset length blocksize cb
  | .mapWrite offset length blocksize cb => s.mapWrite L v offset length blocksize cb
  | .land i a b data => (⟨some 0, []⟩, s.land i a b data)
  | .complete i => s.complete L v i
  | .abort i => s.abort L v i
  | .truncate size => s.truncate L size

end Sys

/-- What runs are made of. A write map hands out a window that meets no outstanding
one; bytes land in an outstanding window where no truncation cut it; a window is
completed or aborted at most once; truncations succeed. Every other call may fail. -/
def Rule (s : Sys σ) : Event → Reply → Prop
  | .mapRead _ _ _ _, _ => True
  | .mapWrite offset _ _ _, r => r.ret = some 0 → ∀ w ∈ s.windows, w.status = .outstanding →
      extentsEnd offset r.extents ≤ w.start ∨ w.stop ≤ offset
  | .land i a b _, _ => ∃ w ∈ s.windows[i]?, w.status = .outstanding ∧ w.start ≤ a ∧ b ≤ w.live
  | .complete i, _ => ∃ w ∈ s.windows[i]?, w.status = .outstanding
  | .abort i, _ => ∃ w ∈ s.windows[i]?, w.status = .outstanding
  | .truncate _, r => r.ret = some 0

instance (s : Sys σ) : ∀ (e : Event) (r : Reply), Decidable (Rule s e r)
  | .mapRead _ _ _ _, _ => inferInstanceAs (Decidable True)
  | .mapWrite offset _ _ _, r => inferInstanceAs (Decidable (r.ret = some 0 → ∀ w ∈ s.windows,
      w.status = .outstanding → extentsEnd offset r.extents ≤ w.start ∨ w.stop ≤ offset))
  | .land i a b _, _ => inferInstanceAs (Decidable (∃ w ∈ s.windows[i]?,
      w.status = .outstanding ∧ w.start ≤ a ∧ b ≤ w.live))
  | .complete i, _ => inferInstanceAs (Decidable (∃ w ∈ s.windows[i]?, w.status = .outstanding))
  | .abort i, _ => inferInstanceAs (Decidable (∃ w ∈ s.windows[i]?, w.status = .outstanding))
  | .truncate _, r => inferInstanceAs (Decidable (r.ret = some 0))

end NtfsKit
