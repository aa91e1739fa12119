import NtfsKit.Lib.Buffer

/-! The device that the engine and the formatter write through. The host supplies the callbacks of
`nk_io`; the bridge adds a position to them, so that a device can also be written from where the
last access ended. -/

namespace NtfsKit

/-- `nk_io`: the size of the device and the callback that writes, and what a reader would find on
the device. -/
structure NkIo (σ : Type) where
  size : ℤ
  pwrite : σ → List UInt8 → ℤ → ℤ × σ
  view : σ → ℤ → UInt8

/-- What the callback promises: a write puts down a first part of its buffer, one that fails
changes nothing outside its range, and one inside the device either fails or gets on. -/
structure NkIo.Spec {σ : Type} (io : NkIo σ) : Prop where
  written : ∀ s buf off, 0 ≤ (io.pwrite s buf off).1 → (io.pwrite s buf off).1 ≤ buf.length ∧
    io.view (io.pwrite s buf off).2 =
      overwrite (io.view s) off (buf.take (io.pwrite s buf off).1.toNat)
  failed : ∀ s buf off q, (io.pwrite s buf off).1 < 0 → ¬ (off ≤ q ∧ q < off + buf.length) →
    io.view (io.pwrite s buf off).2 q = io.view s q
  progress : ∀ s buf off, buf ≠ [] → 0 ≤ off → off + buf.length ≤ io.size →
    (io.pwrite s buf off).1 ≠ 0

def NkIo.MayFail {σ : Type} (io : NkIo σ) : Prop := ∃ s buf off, (io.pwrite s buf off).1 < 0

/-- `struct nk_devctx` and the flags of its device. -/
structure NkDevice (σ : Type) where
  ctx : σ
  pos : ℤ
  readOnly : Bool
  dirty : Bool

inductive Whence
  | set
  | cur
  | stop

section Operations

variable {σ : Type} (io : NkIo σ)

/-- `nkdev_seek`. -/
def nkdevSeek (offset : ℤ) (whence : Whence) (d : NkDevice σ) : ℤ × NkDevice σ :=
  let base := match whence with
    | .set => 0
    | .cur => d.pos
    | .stop => io.size
  if base + offset < 0 then (-1, d) else (base + offset, { d with pos := base + offset })

/-- `nkdev_pwrite`. -/
def nkdevPwrite (buf : List UInt8) (offset : ℤ) (d : NkDevice σ) : ℤ × NkDevice σ :=
  if d.readOnly then (-1, d)
  else
    let r := io.pwrite d.ctx buf offset
    if r.1 < 0 then (-1, { d with ctx := r.2 }) else (r.1, { d with ctx := r.2, dirty := true })

/-- `nkdev_write`. -/
def nkdevWrite (buf : List UInt8) (d : NkDevice σ) : ℤ × NkDevice σ :=
  let r := nkdevPwrite io buf d.pos d
  if 0 < r.1 then (r.1, { r.2 with pos := r.2.pos + r.1 }) else r

variable {io}

theorem nkdevSeek_set {offset : ℤ} (h : 0 ≤ offset) (d : NkDevice σ) :
    nkdevSeek io offset .set d = (offset, { d with pos := offset }) := by
  simp only [nkdevSeek, zero_add]
  rw [if_neg (not_lt.mpr h)]

/-- A write gets on by a first part of its buffer, or fails with -1. -/
theorem nkdevWrite_spec (h : io.Spec) (buf : List UInt8) {d : NkDevice σ}
    (hrw : d.readOnly = false) : ∃ n d', nkdevWrite io buf d = (n, d') ∧ d'.readOnly = false ∧
      ((n = -1 ∧ io.MayFail ∧
          ∀ q, ¬ (d.pos ≤ q ∧ q < d.pos + buf.length) → io.view d'.ctx q = io.view d.ctx q) ∨
        (0 ≤ n ∧ n ≤ buf.length ∧ d'.pos = d.pos + n ∧
          io.view d'.ctx = overwrite (io.view d.ctx) d.pos (buf.take n.toNat) ∧
          (buf ≠ [] → 0 ≤ d.pos → d.pos + buf.length ≤ io.size → 0 < n))) := by
  have hwritten := h.written d.ctx buf d.pos
  have hfailed := h.failed d.ctx buf d.pos
  have hprogress := h.progress d.ctx buf d.pos
  simp only [nkdevWrite, nkdevPwrite, hrw, Bool.false_eq_true, if_false]
  have hmay : (io.pwrite d.ctx buf d.pos).1 < 0 → io.MayFail := fun h => ⟨_, _, _, h⟩
  generalize io.pwrite d.ctx buf d.pos = r at hwritten hfailed hprogress hmay
  obtain ⟨n, s⟩ := r
  dsimp only at hwritten hfailed hprogress hmay ⊢
  by_cases hn : n < 0
  · rw [if_pos hn]
    exact ⟨_, _, rfl, rfl, .inl ⟨rfl, hmay hn, fun q hq => hfailed q hn hq⟩⟩
  · rw [if_neg hn]
    obtain ⟨hle, hview⟩ := hwritten (not_lt.mp hn)
    rcases eq_or_lt_of_le (not_lt.mp hn) with rfl | hpos
    · exact ⟨0, _, rfl, rfl, .inr ⟨le_rfl, hle, (add_zero _).symm, hview,
        fun h1 h2 h3 => absurd rfl (hprogress h1 h2 h3)⟩⟩
    · rw [if_pos hpos]
      exact ⟨n, _, rfl, rfl, .inr ⟨hpos.le, hle, rfl, hview, fun _ _ _ => hpos⟩⟩

end Operations

/-- A device that takes `n` bytes at a time. -/
def sipDisk (n : ℕ) (size : ℤ) : NkIo (ℤ → UInt8) where
  size := size
  pwrite s buf off := ((min n buf.length : ℕ), overwrite s off (buf.take n))
  view s := s

theorem sipDisk_spec {n : ℕ} (hn : 0 < n) (size : ℤ) : (sipDisk n size).Spec where
  written s buf off _ := by
    refine ⟨by simp [sipDisk], ?_⟩
    simp only [sipDisk, Int.toNat_natCast]
    rw [← List.take_take, List.take_length]
  failed s buf off q h := absurd h (not_lt.mpr (Int.natCast_nonneg _))
  progress s buf off h _ _ := by
    have := List.length_pos_of_ne_nil h
    simp only [sipDisk]
    omega

theorem sipDisk_neverFails {n : ℕ} {size : ℤ} : ¬ (sipDisk n size).MayFail := by
  rintro ⟨s, buf, off, h⟩
  exact absurd h (not_lt.mpr (Int.natCast_nonneg _))

end NtfsKit
