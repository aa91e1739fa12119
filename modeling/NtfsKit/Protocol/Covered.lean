import NtfsKit.Protocol.Landed

/-! The invariant behind the high-water mark: every byte between `init` and the mark
is zero or may still be written by an outstanding window. A block that the mark
cuts, as it does after a truncation, holds nothing else above the mark either, so
that the block at `init` can be shown to a reader whole. -/

namespace NtfsKit

/-- Some outstanding window holds `x`. -/
def InFlight (ws : List Window) (x : ℤ) : Prop :=
  ∃ (i : ℕ) (w : Window), ws[i]? = some w ∧ w.status = .outstanding ∧ w.Has x

/-- Every byte between `init` and the mark is zero or in flight. -/
def Covered (p : Proto) : Prop :=
  ∀ x, p.view.init ≤ x → x < p.view.hwm → p.view.content x = 0 ∨ InFlight p.windows x

/-- So is the rest of a block that the mark cuts. -/
def BlockCovered (bs : ℤ) (p : Proto) : Prop :=
  p.view.init < p.view.hwm → ∀ x, p.view.hwm ≤ x → x < roundUp bs p.view.hwm →
    p.view.content x = 0 ∨ InFlight p.windows x

/-- Windows begin and end at block boundaries. -/
def Aligned (bs : ℤ) (ws : List Window) : Prop :=
  ∀ (i : ℕ) w, ws[i]? = some w → bs ∣ w.start ∧ bs ∣ w.stop

/-- A file with uninitialized bytes has its last cluster whole. -/
def View.Whole (grain : ℤ) (v : View) : Prop := v.init < v.size → roundUp grain v.size ≤ v.tail

/-- Moves of operations that succeeded. -/
def Move.Done : Move → Prop
  | .disturb | .giveUp _ | .abortTry _ => False
  | _ => True

/-- A new window at block boundaries. -/
def Move.Aligned (bs : ℤ) : Move → Prop
  | .map off stop _ => bs ∣ off ∧ bs ∣ stop
  | _ => True

namespace InFlight

variable {ws : List Window} {x : ℤ}

theorem map {f : Window → Window} (hf : ∀ w, (f w).status = w.status ∧ (f w).start = w.start ∧
    (f w).stop = w.stop) (h : InFlight ws x) : InFlight (ws.map f) x := by
  obtain ⟨i, w, hi, hs, hx⟩ := h
  obtain ⟨h1, h2, h3⟩ := hf w
  exact ⟨i, f w, lookup_map.mpr ⟨w, hi, rfl⟩, h1.trans hs, by unfold Window.Has; rwa [h2, h3]⟩

theorem land {i : ℕ} {a b : ℤ} {data : ℤ → UInt8} (h : InFlight ws x) :
    InFlight (ws.modify i (Window.land a b data)) x := by
  obtain ⟨j, w, hj, hs, hx⟩ := h
  refine ⟨j, _, lookup_modify.mpr ⟨w, hj, rfl⟩, ?_, ?_⟩
  · split_ifs <;> exact hs
  · split_ifs <;> exact hx

theorem append (h : InFlight ws x) (us : List Window) : InFlight (ws ++ us) x := by
  obtain ⟨i, w, hi, hs⟩ := h
  have hlt : i < ws.length := (List.getElem?_eq_some_iff.mp hi).1
  exact ⟨i, w, by rw [List.getElem?_append_left hlt, hi], hs⟩

theorem handedOut {off stop : ℤ} (h1 : off ≤ x) (h2 : x < stop) :
    InFlight (ws ++ [.handedOut off stop]) x :=
  ⟨ws.length, .handedOut off stop, lookup_concat.mpr (.inr ⟨rfl, rfl⟩), rfl, h1, h2⟩

/-- When window `i` ends, only its own bytes can leave flight. -/
theorem finish {i : ℕ} {st : Status} {w : Window} (hi : ws[i]? = some w) (h : InFlight ws x)
    (hx : ¬ w.Has x) : InFlight (ws.modify i (Window.finish st)) x := by
  obtain ⟨j, u, hj, hs, hu⟩ := h
  refine ⟨j, u, lookup_modify.mpr ⟨u, hj, if_neg ?_⟩, hs, hu⟩
  rintro rfl
  rw [hi] at hj
  cases hj
  exact hx hu

end InFlight

section Moves

variable {grain : ℤ} {p q : Proto}

/-- A byte that is zero or in flight stays so when window `i` ends without holding
it. -/
theorem covered_finish {x : ℤ} {i : ℕ} {st : Status} {w : Window} (hi : p.windows[i]? = some w)
    (hw : q.windows = p.windows.modify i (Window.finish st)) (hx : ¬ w.Has x)
    (hz : p.view.content x = 0 → q.view.content x = 0)
    (h : p.view.content x = 0 ∨ InFlight p.windows x) :
    q.view.content x = 0 ∨ InFlight q.windows x :=
  h.imp hz fun hf => hw ▸ hf.finish hi hx

theorem covered_map {x : ℤ} {off stop req : ℤ}
    (hm : MapWrite off stop req p.view q.view)
    (hw : q.windows = p.windows.map (Window.overlap off stop) ++ [.handedOut off stop])
    (h0 : 0 ≤ x) (hx : x < p.view.tail) (h : p.view.content x = 0 ∨ InFlight p.windows x) :
    q.view.content x = 0 ∨ InFlight q.windows x := by
  refine h.imp (hm.keep.zero h0 hx) fun hf => ?_
  rw [hw]
  exact (hf.map (Window.overlap_same off stop)).append _

theorem covered_land {x a b : ℤ} {i : ℕ} {data : ℤ → UInt8} (hwin : WindowsOk p)
    (hl : Land a b data p.view q.view)
    (hw : q.windows = p.windows.modify i (Window.land a b data))
    (hf : Fair p.windows (.land i a b data))
    (h : p.view.content x = 0 ∨ InFlight p.windows x) :
    q.view.content x = 0 ∨ InFlight q.windows x := by
  obtain ⟨w, hi, hs, ha, hb⟩ := hf
  rw [hw]
  by_cases hx : a ≤ x ∧ x < b
  · have hle := (hwin.each i w hi).live_le
    exact .inr (InFlight.land ⟨i, w, hi, hs, ha.trans hx.1, by omega⟩)
  · rw [hl.content, if_neg hx]
    exact h.imp id InFlight.land

/-- Where the bytes above `init` come from after a write map. -/
theorem MapWrite.above_init {off stop req x : ℤ} {v w : View} (h : MapWrite off stop req v w)
    (h1 : w.init ≤ x) (h2 : x < w.hwm) :
    (v.init ≤ x ∧ x < v.hwm) ∨ w.content x = 0 ∨ (off ≤ x ∧ x < stop) := by
  have hi := h.init
  have hh := h.hwm
  by_cases hx : x < v.mark
  · unfold View.mark at hx
    left
    split_ifs at hi hh <;> omega
  · right
    by_cases hoff : x < off
    · exact .inl (h.zero x (not_lt.mp hx) hoff)
    · right
      unfold View.mark at hx
      split_ifs at hh <;> omega

/-- The mark's invariant along a successful move. -/
theorem Covered.moves (h : Covered p) (hv : p.view.Ok) (hwin : WindowsOk p) {m : Move} (hd : m.Done)
    (hm : Moves grain p m q) (hf : Fair p.windows m) : Covered q := by
  have h0 := hv.init_nonneg
  have hle := hv.hwm_le
  have htl := hv.size_le
  intro x h1 h2
  cases m with
  | read bs =>
    obtain ⟨hr, hw⟩ := hm
    have hh := hr.hwm
    have hi := hr.grows.init_le
    rcases h x (by omega) (by omega) with hz | hfl
    · exact .inl (hr.keep.zero (by omega) (by omega) hz)
    · exact .inr (hw ▸ hfl)
  | map off stop req =>
    obtain ⟨hr, hw⟩ := hm
    rcases hr.above_init h1 h2 with ⟨h3, h4⟩ | hz | ⟨h3, h4⟩
    · exact covered_map hr hw (by omega) (by omega) (h x h3 h4)
    · exact .inl hz
    · exact .inr (hw ▸ .handedOut h3 h4)
  | land i a b data =>
    obtain ⟨hl, hw⟩ := hm
    rw [hl.init] at h1
    rw [hl.hwm] at h2
    exact covered_land hwin hl hw hf (h x h1 h2)
  | complete i =>
    obtain ⟨w, hi, hc, hw⟩ := hm
    have hin := hc.init
    have hh := hc.hwm
    have hold : p.view.init ≤ x ∧ x < p.view.hwm := by
      split_ifs at hin hh <;> omega
    refine covered_finish hi hw ?_ (hc.keep.zero (by omega) (by omega)) (h x hold.1 hold.2)
    -- its own bytes are initialized now, or lie beyond the end of the file
    unfold Window.Has
    split_ifs at hin <;> omega
  | abort i =>
    obtain ⟨w, hi, hc, hw⟩ := hm
    have hin := hc.init
    have hh := hc.hwm
    have hold : p.view.init ≤ x ∧ x < p.view.hwm := by
      split_ifs at hh <;> omega
    have hcx := hc.content x (by omega) (by omega)
    by_cases hx : w.Has x
    · left
      unfold Window.Has at hx
      rw [hcx, if_pos]
      split_ifs at hh <;> omega
    · refine covered_finish hi hw hx (fun hz => ?_) (h x hold.1 hold.2)
      rw [hcx, hz]
      split_ifs <;> rfl
  | truncate size =>
    obtain ⟨ht, hw⟩ := hm
    have hh := ht.hwm
    have hil := ht.init_le
    have hnn := ht.nonneg
    rw [ht.keep x (by omega) (by omega) (by omega)]
    rcases h x (by omega) (by omega) with hz | hfl
    · exact .inl hz
    · exact .inr (hw ▸ hfl.map fun w => ⟨rfl, rfl, rfl⟩)
  | disturb => exact hd.elim
  | giveUp i => exact hd.elim
  | abortTry i => exact hd.elim

/-! ### The block at the mark -/

theorem Aligned.moves {bs : ℤ} (h : Aligned bs p.windows) {m : Move} (ha : m.Aligned bs)
    (hm : Moves grain p m q) : Aligned bs q.windows := by
  intro j w hj
  have hfin : ∀ {i : ℕ} {st : Status}, q.windows = p.windows.modify i (Window.finish st) →
      bs ∣ w.start ∧ bs ∣ w.stop := fun hw => by
    rw [hw, lookup_modify] at hj
    obtain ⟨u, hu, rfl⟩ := hj
    split_ifs <;> exact h j u hu
  cases m with
  | read bs => exact h j w (hm.2 ▸ hj)
  | disturb => exact h j w (hm.2 ▸ hj)
  | map off stop req =>
    rw [hm.2, lookup_concat] at hj
    rcases hj with hj | ⟨-, rfl⟩
    · obtain ⟨u, hu, rfl⟩ := lookup_map.mp hj
      obtain ⟨-, h1, h2⟩ := u.overlap_same off stop
      rw [h1, h2]
      exact h j u hu
    · exact ha
  | land i a b data =>
    rw [hm.2, lookup_modify] at hj
    obtain ⟨u, hu, rfl⟩ := hj
    split_ifs <;> exact h j u hu
  | complete i => exact hfin hm.choose_spec.2.2
  | giveUp i => exact hfin hm.choose_spec.2.2
  | abort i => exact hfin hm.choose_spec.2.2
  | abortTry i => exact hfin hm.choose_spec.2.2
  | truncate size =>
    rw [hm.2, lookup_map] at hj
    obtain ⟨u, hu, rfl⟩ := hj
    exact h j u hu

/-- A block boundary at or below a byte of the block that `h` cuts lies below `h`. -/
theorem lt_of_dvd_of_lt_roundUp {bs a x h : ℤ} (hbs : 0 < bs) (ha : bs ∣ a) (hax : a ≤ x)
    (hx : x < roundUp bs h) : a < h := by
  by_contra hn
  have := roundUp_le hbs (not_lt.mp hn) ha
  omega

theorem BlockCovered.moves {bs : ℤ} (hbs : 0 < bs) (hgr : 0 < grain) (hdvd : bs ∣ grain)
    (h : BlockCovered bs p) (hcov : Covered p) (hal : Aligned bs p.windows) (hv : p.view.Ok)
    (hwhole : p.view.Whole grain) (hwin : WindowsOk p) {m : Move} (ha : m.Aligned bs)
    (hd : m.Done) (hm : Moves grain p m q) (hf : Fair p.windows m) : BlockCovered bs q := by
  have h0 := hv.init_nonneg
  have hle := hv.hwm_le
  -- the block the mark cuts lies in the file's last cluster at most
  have htl : p.view.init < p.view.hwm → ∀ x, x < roundUp bs p.view.hwm → x < p.view.tail := by
    intro hlt x hx
    have h1 := hwhole (by omega)
    have h2 := roundUp_mono hbs hle
    have h3 := roundUp_dvd_le hbs hgr hdvd p.view.size
    omega
  intro hlt x h1 h2
  cases m with
  | read bs' =>
    obtain ⟨hr, hw⟩ := hm
    have hi := hr.grows.init_le
    rw [hr.hwm] at hlt h1 h2
    have hlt' : p.view.init < p.view.hwm := by omega
    rcases h hlt' x h1 h2 with hz | hfl
    · exact .inl (hr.keep.zero (by omega) (htl hlt' x h2) hz)
    · exact .inr (hw ▸ hfl)
  | map off stop req =>
    obtain ⟨hr, hw⟩ := hm
    have hh := hr.hwm
    have hi := hr.grows.init_le
    split_ifs at hh with hs
    · -- a mark at a block boundary cuts no block
      rw [hh, roundUp_of_dvd hbs ha.2] at h2
      omega
    · rw [hh] at hlt h1 h2
      have hlt' : p.view.init < p.view.hwm := by omega
      exact covered_map hr hw (by omega) (htl hlt' x h2) (h hlt' x h1 h2)
  | land i a b data =>
    obtain ⟨hl, hw⟩ := hm
    rw [hl.hwm] at hlt h1 h2
    rw [hl.init] at hlt
    exact covered_land hwin hl hw hf (h hlt x h1 h2)
  | complete i =>
    obtain ⟨w, hi, hc, hw⟩ := hm
    have hin := hc.init
    have hh := hc.hwm
    split_ifs at hh with hdrop
    · have := hc.grows.init_le
      omega
    rw [hh] at hlt h1 h2
    have hig := hc.grows.init_le
    have hlt' : p.view.init < p.view.hwm := by omega
    refine covered_finish hi hw (fun hx => ?_) (hc.keep.zero (by omega) (htl hlt' x h2))
      (h hlt' x h1 h2)
    -- the window reaches below the mark, so its completion passed the mark
    have hst := lt_of_dvd_of_lt_roundUp hbs (hal i w hi).1 hx.1 h2
    have hsp := hx.2
    split_ifs at hin <;> omega
  | abort i =>
    obtain ⟨w, hi, hc, hw⟩ := hm
    have hin := hc.init
    have hh := hc.hwm
    split_ifs at hh with htop hz
    · omega
    · rw [hh, roundUp_of_dvd hbs (hal i w hi).1] at h2
      omega
    rw [hh] at hlt h1 h2
    rw [hin] at hlt
    have hcx := hc.content x (by omega) (htl hlt x h2)
    refine covered_finish hi hw (fun hx => ?_) (fun hz => ?_) (h hlt x h1 h2)
    · have hst := lt_of_dvd_of_lt_roundUp hbs (hal i w hi).1 hx.1 h2
      have hsp := hx.2
      omega
    · rw [hcx, hz]
      split_ifs <;> rfl
  | truncate size =>
    obtain ⟨ht, hw⟩ := hm
    have hh := ht.hwm
    have hil := ht.init_le
    have hnn := ht.nonneg
    have hlt' : p.view.init < p.view.hwm := by omega
    -- the truncation keeps the block of the new mark whole
    have hround : roundUp bs q.view.hwm ≤ roundUp bs p.view.hwm :=
      roundUp_mono hbs (by omega)
    have hkeep : q.view.content x = p.view.content x := by
      refine ht.keepTail (by omega) x (by omega) (htl hlt' x (by omega)) ?_
      have h3 := roundUp_mono hbs (show q.view.hwm ≤ size by omega)
      have h4 := roundUp_dvd_le hbs hgr hdvd size
      omega
    have hold : p.view.content x = 0 ∨ InFlight p.windows x := by
      by_cases hx : x < p.view.hwm
      · exact hcov x (by omega) hx
      · exact h hlt' x (not_lt.mp hx) (by omega)
    rw [hkeep, hw]
    exact hold.imp id (InFlight.map fun w => ⟨rfl, rfl, rfl⟩)
  | disturb => exact hd.elim
  | giveUp i => exact hd.elim
  | abortTry i => exact hd.elim

/-- A byte that a read map shows above `init`, up to the end of the block at the new
`init`. -/
theorem MapRead.shows {bs x : ℤ} {w : View} (hbs : 0 < bs) (hm : MapRead bs p.view w)
    (hv : p.view.Ok) (hcov : Covered p) (hb : BlockCovered bs p) (h1 : p.view.init ≤ x)
    (h2 : x < roundUp bs w.init) :
    w.content x = 0 ∨ InFlight p.windows x ∨ w.size ≤ x := by
  have h0 := hv.init_nonneg
  have htl := hv.size_le
  have hsz := hm.size
  have hi := hm.init
  by_cases hx : p.view.size ≤ x
  · exact .inr (.inr (by omega))
  by_cases hh : p.view.hwm ≤ p.view.init
  · -- the block was zeroed up to its end or to the end of the file
    rw [if_pos hh] at hi
    refine .inl (hm.zero x h1 ?_)
    have hround := roundUp_of_dvd hbs (dvd_roundUp bs p.view.init)
    rcases min_choice (roundUp bs p.view.init) p.view.size with hmin | hmin
    · rw [hmin] at hi
      rwa [hi, hround, ← hi] at h2
    · omega
  · rw [if_neg hh] at hi
    rw [hi] at h2
    have hle := roundUp_mono hbs (not_le.mp hh).le
    have hold : p.view.content x = 0 ∨ InFlight p.windows x := by
      by_cases hxh : x < p.view.hwm
      · exact hcov x h1 hxh
      · exact hb (not_le.mp hh) x (not_lt.mp hxh) (by omega)
    exact hold.imp (hm.keep.zero (by omega) (by omega)) .inl

end Moves

end NtfsKit
