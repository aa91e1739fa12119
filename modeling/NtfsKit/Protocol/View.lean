import Mathlib.Tactic
import NtfsKit.Lib.RoundUp

/-! The high-water-mark protocol, without clusters. A file is its stored bytes, the
length `init` of the prefix a read may return, its `size`, and the mark `hwm` up
to which ranges were handed out for direct writing. The engine may zero bytes at
or above both numbers and nothing else: those below are initialized or may be in
flight. Each operation is a relation between the view before and after it. -/

namespace NtfsKit

/-- A file as the protocol sees it. `content` is the byte stored at an offset,
initialized or not; `tail` ends the bytes the file's last cluster holds. -/
structure View where
  content : ℤ → UInt8
  tail : ℤ
  init : ℤ
  size : ℤ
  hwm : ℤ

namespace View

/-- Everything at or above the mark is free for the engine to zero. -/
def mark (v : View) : ℤ := max v.init v.hwm

/-- A byte as a read returns it. -/
def byte (v : View) (x : ℤ) : UInt8 := if x < v.init then v.content x else 0

/-- The sizes of a view are in order. -/
structure Ok (v : View) : Prop where
  init_nonneg : 0 ≤ v.init
  init_le : v.init ≤ v.size
  hwm_nonneg : 0 ≤ v.hwm
  hwm_le : v.hwm ≤ v.size
  size_le : v.size ≤ v.tail

end View

/-- No byte below `lo` changes; the others stay or become zero. -/
structure ZeroesAbove (lo : ℤ) (v w : View) : Prop where
  size_le : v.size ≤ w.size
  tail_le : v.tail ≤ w.tail
  content : ∀ x, 0 ≤ x → x < v.tail →
    w.content x = v.content x ∨ (lo ≤ x ∧ w.content x = 0)

namespace ZeroesAbove

variable {lo : ℤ} {u v w : View}

theorem refl (lo : ℤ) (v : View) : ZeroesAbove lo v v :=
  ⟨le_rfl, le_rfl, fun _ _ _ => .inl rfl⟩

theorem trans (h₁ : ZeroesAbove lo u v) (h₂ : ZeroesAbove lo v w) : ZeroesAbove lo u w where
  size_le := h₁.size_le.trans h₂.size_le
  tail_le := h₁.tail_le.trans h₂.tail_le
  content x h0 hx := by
    rcases h₂.content x h0 (hx.trans_le h₁.tail_le) with h | h
    · rw [h]
      exact h₁.content x h0 hx
    · exact .inr h

theorem mono {lo' : ℤ} (h : ZeroesAbove lo v w) (hle : lo' ≤ lo) : ZeroesAbove lo' v w :=
  ⟨h.size_le, h.tail_le, fun x h0 hx => (h.content x h0 hx).imp id (And.imp_left hle.trans)⟩

/-- Below `lo` nothing happens. -/
theorem eq_of_lt (h : ZeroesAbove lo v w) {x : ℤ} (h0 : 0 ≤ x) (hx : x < v.tail) (hlo : x < lo) :
    w.content x = v.content x := by
  rcases h.content x h0 hx with h | ⟨h, _⟩
  · exact h
  · omega

/-- A zero byte stays zero. -/
theorem zero (h : ZeroesAbove lo v w) {x : ℤ} (h0 : 0 ≤ x) (hx : x < v.tail)
    (hz : v.content x = 0) : w.content x = 0 := by
  rcases h.content x h0 hx with h | ⟨_, h⟩
  · rw [h, hz]
  · exact h

end ZeroesAbove

/-- A write map of `[off, stop)`, the accepted part of a request up to `req`. -/
structure MapWrite (off stop req : ℤ) (v w : View) : Prop where
  off_nonneg : 0 ≤ off
  lt : off < stop
  le : stop ≤ req
  keep : ZeroesAbove v.mark v w
  zero : ∀ x, v.mark ≤ x → x < off → w.content x = 0
  size : w.size = max v.size req
  init : w.init = if v.hwm ≤ v.init then max v.init off else v.init
  hwm : w.hwm = if v.hwm < stop ∧ w.init < stop then stop else v.hwm

/-- A call that only zeroes above the mark and raises no size but `size`: what is
left of an operation that failed. -/
structure Disturb (v w : View) : Prop where
  keep : ZeroesAbove v.mark v w
  init_le : v.init ≤ w.init
  init_ub : w.init ≤ w.size
  hwm_le : v.hwm ≤ w.hwm
  hwm_ub : w.hwm ≤ w.size

/-- A call that zeroes above the mark and changes nothing else. -/
structure Stalled (v w : View) : Prop where
  keep : ZeroesAbove v.mark v w
  size : w.size = v.size
  init : w.init = v.init
  hwm : w.hwm = v.hwm

theorem Stalled.refl (v : View) : Stalled v v := ⟨.refl _ _, rfl, rfl, rfl⟩

/-- A read map: unless bytes above `init` may be in flight, the rest of the block at
`init` is zeroed and becomes initialized. -/
structure MapRead (bs : ℤ) (v w : View) : Prop where
  keep : ZeroesAbove v.mark v w
  size : w.size = v.size
  hwm : w.hwm = v.hwm
  init : w.init = if v.hwm ≤ v.init then min (roundUp bs v.init) v.size else v.init
  init_le : v.init ≤ w.init
  zero : ∀ x, v.init ≤ x → x < w.init → w.content x = 0

/-- The completion of a write to `[off, stop)`. -/
structure Complete (off stop : ℤ) (v w : View) : Prop where
  keep : ZeroesAbove v.mark v w
  size : w.size = v.size
  zero : off < v.size → ∀ x, v.mark ≤ x → x < off → w.content x = 0
  init : w.init = if off < v.size then max v.init (min stop v.size) else v.init
  hwm : w.hwm = if off < v.size ∧ v.hwm ≤ w.init then 0 else v.hwm

/-- The abort of a write to `[off, stop)`. The top window lowers the mark, a lower
one is zeroed above `init`. -/
structure Abort (off stop : ℤ) (v w : View) : Prop where
  size : w.size = v.size
  tail : w.tail = v.tail
  init : w.init = v.init
  content : ∀ x, 0 ≤ x → x < v.tail → w.content x =
    if off < v.hwm ∧ stop < v.hwm ∧ max off v.init ≤ x ∧ x < stop then 0 else v.content x
  hwm : w.hwm = if off < v.hwm ∧ v.hwm ≤ stop then (if off ≤ v.init then 0 else off) else v.hwm

/-- What an abort can leave behind when a call in it fails. -/
structure AbortTry (off stop : ℤ) (v w : View) : Prop where
  size : w.size = v.size
  tail : w.tail = v.tail
  init : w.init = v.init
  content : ∀ x, 0 ≤ x → x < v.tail → w.content x = v.content x ∨
    (stop < v.hwm ∧ max off v.init ≤ x ∧ x < stop ∧ w.content x = 0)
  hwm : w.hwm = v.hwm ∨ (off < v.hwm ∧ v.hwm ≤ stop ∧
    (w.hwm = off ∨ (w.hwm = 0 ∧ off ≤ v.init)))

section Aborts

variable {off stop : ℤ} {v w : View}

theorem Abort.none (h : ¬ off < v.hwm) : Abort off stop v v :=
  ⟨rfl, rfl, rfl, fun _ _ _ => (if_neg fun hn => h hn.1).symm, (if_neg fun hn => h hn.1).symm⟩

theorem Abort.top (h1 : off < v.hwm) (h2 : v.hwm ≤ stop) :
    Abort off stop v { v with hwm := if off ≤ v.init then 0 else off } :=
  ⟨rfl, rfl, rfl, fun _ _ _ => (if_neg fun hn => absurd hn.2.1 (not_lt.mpr h2)).symm,
    (if_pos ⟨h1, h2⟩).symm⟩

theorem Abort.lower (h1 : off < v.hwm) (h2 : stop < v.hwm) {c : ℤ → UInt8}
    (hc : ∀ x, c x = if max off v.init ≤ x ∧ x < stop then 0 else v.content x) :
    Abort off stop v { v with content := c } :=
  ⟨rfl, rfl, rfl, fun x _ _ => by simp only [hc, h1, h2, true_and],
    (if_neg fun hn => absurd h2 (not_lt.mpr hn.2)).symm⟩

theorem Abort.abortTry (h : Abort off stop v w) : AbortTry off stop v w := by
  refine ⟨h.size, h.tail, h.init, fun x h0 hx => ?_, ?_⟩
  · have hc := h.content x h0 hx
    split_ifs at hc with hz
    · exact .inr ⟨hz.2.1, hz.2.2.1, hz.2.2.2, hc⟩
    · exact .inl hc
  · have hh := h.hwm
    split_ifs at hh with h1 h2
    · exact .inr ⟨h1.1, h1.2, .inr ⟨hh, h2⟩⟩
    · exact .inr ⟨h1.1, h1.2, .inl hh⟩
    · exact .inl hh

theorem AbortTry.refl (off stop : ℤ) (v : View) : AbortTry off stop v v :=
  ⟨rfl, rfl, rfl, fun _ _ _ => .inl rfl, .inl rfl⟩

/-- The top window with whatever was taken for `initialized_size`. -/
theorem AbortTry.top (h0 : 0 ≤ off) (h1 : off < v.hwm) (h2 : v.hwm ≤ stop) {i : ℤ}
    (hi : i = v.init ∨ i = 0) :
    AbortTry off stop v { v with hwm := if off ≤ i then 0 else off } := by
  refine ⟨rfl, rfl, rfl, fun _ _ _ => .inl rfl, .inr ⟨h1, h2, ?_⟩⟩
  dsimp only
  split_ifs with h
  · rcases hi with rfl | rfl
    · exact .inr ⟨rfl, h⟩
    · exact .inl (le_antisymm h0 h)
  · exact .inl rfl

theorem AbortTry.lower (h2 : stop < v.hwm) {c : ℤ → UInt8}
    (hc : ∀ x, c x = v.content x ∨ (max off v.init ≤ x ∧ x < stop ∧ c x = 0)) :
    AbortTry off stop v { v with content := c } :=
  ⟨rfl, rfl, rfl, fun x _ _ => (hc x).imp id fun h => ⟨h2, h⟩, .inl rfl⟩

end Aborts

/-- A truncation to `s`. Below the smaller size the bytes stay; bytes that come to
lie below `init` are zeros; and unless the whole file was initialized, the blocks
of length `grain` that hold a byte below the new size stay whole. -/
structure Truncate (grain s : ℤ) (v w : View) : Prop where
  nonneg : 0 ≤ s
  size : w.size = s
  hwm : w.hwm = min v.hwm s
  init_le : min v.init s ≤ w.init
  init_eq : v.init < v.size → w.init = min v.init s
  init_ub : w.init ≤ s
  zero : ∀ x, v.size ≤ x → x < w.init → w.content x = 0
  keep : ∀ x, 0 ≤ x → x < v.size → x < s → w.content x = v.content x
  keepTail : v.init < v.size → ∀ x, 0 ≤ x → x < v.tail → x < roundUp grain s →
    w.content x = v.content x

/-- The kernel stores `data` on `[a, b)`. -/
structure Land (a b : ℤ) (data : ℤ → UInt8) (v w : View) : Prop where
  size : w.size = v.size
  tail : w.tail = v.tail
  init : w.init = v.init
  hwm : w.hwm = v.hwm
  content : ∀ x, w.content x = if a ≤ x ∧ x < b then data x else v.content x

end NtfsKit
