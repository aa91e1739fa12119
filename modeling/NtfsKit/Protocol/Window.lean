import NtfsKit.Lib.Lookup
import NtfsKit.Protocol.View

/-! Windows: the ranges handed out for direct writing. A window is outstanding until
its write is reported complete or failed; the bytes the kernel stored in it and
the truncations that cut it are recorded with it. A protocol state is a view with
the windows handed out so far, and a move is one operation on it. -/

namespace NtfsKit

/-- What became of a window. A completion that returned an error leaves it
`failed`. -/
inductive Status
  | outstanding
  | completed
  | aborted
  | failed
  deriving DecidableEq, Repr

/-- `[start, stop)` handed out for writing. Bytes at or above `live` were cut off by
a later truncation: writes there are dead. `overlapped` says that a later window
was handed out over this one. -/
structure Window where
  start : ℤ
  stop : ℤ
  live : ℤ
  status : Status
  landed : ℤ → Option UInt8
  overlapped : Bool

namespace Window

def handedOut (start stop : ℤ) : Window := ⟨start, stop, stop, .outstanding, fun _ => none, false⟩

def overlap (start stop : ℤ) (w : Window) : Window :=
  if start < w.stop ∧ w.start < stop then { w with overlapped := true } else w

def land (a b : ℤ) (data : ℤ → UInt8) (w : Window) : Window :=
  { w with landed := fun x => if a ≤ x ∧ x < b then some (data x) else w.landed x }

def finish (st : Status) (w : Window) : Window := { w with status := st }

def cut (size : ℤ) (w : Window) : Window := { w with live := min w.live size }

/-- The window's range holds `x`. -/
def Has (w : Window) (x : ℤ) : Prop := w.start ≤ x ∧ x < w.stop

/-- The ranges do not meet. -/
def Apart (u w : Window) : Prop := u.stop ≤ w.start ∨ w.stop ≤ u.start

theorem Apart.symm {u w : Window} (h : u.Apart w) : w.Apart u := Or.symm h

theorem overlap_same (off stop : ℤ) (w : Window) :
    (w.overlap off stop).status = w.status ∧ (w.overlap off stop).start = w.start ∧
      (w.overlap off stop).stop = w.stop := by
  unfold overlap
  split_ifs <;> exact ⟨rfl, rfl, rfl⟩

theorem overlap_live (off stop : ℤ) (w : Window) : (w.overlap off stop).live = w.live := by
  unfold overlap
  split_ifs <;> rfl

end Window

/-- A file and the windows handed out on it. -/
structure Proto where
  view : View
  windows : List Window

/-- The operations, as far as the protocol sees them. -/
inductive Move
  /-- A read map. -/
  | read (bs : ℤ)
  /-- A map that failed. -/
  | disturb
  /-- A write map of `[off, stop)` for a request up to `req`. -/
  | map (off stop req : ℤ)
  | land (i : ℕ) (a b : ℤ) (data : ℤ → UInt8)
  | complete (i : ℕ)
  /-- A completion that failed. -/
  | giveUp (i : ℕ)
  | abort (i : ℕ)
  /-- An abort of which some call failed. -/
  | abortTry (i : ℕ)
  | truncate (size : ℤ)

/-- What a move does to a state. -/
def Moves (grain : ℤ) (p : Proto) : Move → Proto → Prop
  | .read bs, q => MapRead bs p.view q.view ∧ q.windows = p.windows
  | .disturb, q => Disturb p.view q.view ∧ q.windows = p.windows
  | .map off stop req, q => MapWrite off stop req p.view q.view ∧
      q.windows = p.windows.map (Window.overlap off stop) ++ [.handedOut off stop]
  | .land i a b data, q => Land a b data p.view q.view ∧
      q.windows = p.windows.modify i (Window.land a b data)
  | .complete i, q => ∃ w, p.windows[i]? = some w ∧ Complete w.start w.stop p.view q.view ∧
      q.windows = p.windows.modify i (Window.finish .completed)
  | .giveUp i, q => ∃ w, p.windows[i]? = some w ∧
      (Stalled p.view q.view ∨ Complete w.start w.stop p.view q.view) ∧
      q.windows = p.windows.modify i (Window.finish .failed)
  | .abort i, q => ∃ w, p.windows[i]? = some w ∧ Abort w.start w.stop p.view q.view ∧
      q.windows = p.windows.modify i (Window.finish .aborted)
  | .abortTry i, q => ∃ w, p.windows[i]? = some w ∧ AbortTry w.start w.stop p.view q.view ∧
      q.windows = p.windows.modify i (Window.finish .aborted)
  | .truncate size, q => Truncate grain size p.view q.view ∧
      q.windows = p.windows.map (Window.cut size)

/-- What the kernel promises: a new window meets no outstanding one, bytes land in
outstanding windows where no truncation cut them, and a window ends once. -/
def Fair (ws : List Window) : Move → Prop
  | .map off stop _ => ∀ (i : ℕ) w, ws[i]? = some w → w.status = .outstanding →
      stop ≤ w.start ∨ w.stop ≤ off
  | .land i a b _ => ∃ w, ws[i]? = some w ∧ w.status = .outstanding ∧ w.start ≤ a ∧ b ≤ w.live
  | .complete i | .giveUp i | .abort i | .abortTry i =>
      ∃ w, ws[i]? = some w ∧ w.status = .outstanding
  | .read _ | .disturb | .truncate _ => True

end NtfsKit
