import NtfsKit.Protocol.Covered

/-! Stale bytes: what the clusters held before, or what a write that failed left in
them. Two invariants say where they cannot be read. `Clean` is about a run without
truncations: below `init` a byte is old data, zero, in flight, or was stored by a
completed window. `Dead` is about what follows a truncation: above its size a byte
below the mark is zero or belongs to a later window. Neither holds along every
move; the side conditions say where an abort or a late completion goes wrong. -/

namespace NtfsKit

/-- No window was cut or written over, and no two of them meet. -/
structure Intact (ws : List Window) : Prop where
  live : ∀ (i : ℕ) w, ws[i]? = some w → w.live = w.stop ∧ w.overlapped = false
  apart : ∀ (i j : ℕ) u w, ws[i]? = some u → ws[j]? = some w → i ≠ j → u.Apart w

/-- A completed window stored a byte at `x`. -/
def Stored (ws : List Window) (x : ℤ) : Prop :=
  ∃ (i : ℕ) (w : Window) (b : UInt8), ws[i]? = some w ∧ w.status = .completed ∧
    w.landed x = some b

/-- From `base` up to `init` every byte is zero, in flight or stored. -/
def Clean (base : ℤ) (p : Proto) : Prop :=
  ∀ x, base ≤ x → x < p.view.init → p.view.content x = 0 ∨ InFlight p.windows x ∨
    Stored p.windows x

/-- The moves of a run of writes from a file initialized up to `base`: every window
is new, a completed one has landed whole, and an aborted one has no byte that
became initialized since. -/
def Careful (base : ℤ) (p : Proto) : Move → Prop
  | .map off stop _ => ∀ (i : ℕ) w, p.windows[i]? = some w → stop ≤ w.start ∨ w.stop ≤ off
  | .complete i => ∀ w, p.windows[i]? = some w → ∀ x, w.Has x → (w.landed x).isSome
  | .abort i => ∀ w, p.windows[i]? = some w → min w.stop p.view.init ≤ max w.start base
  | .truncate _ => False
  | _ => True

namespace Stored

variable {ws : List Window} {x : ℤ}

theorem map {f : Window → Window} (hf : ∀ w, (f w).status = w.status ∧ (f w).landed = w.landed)
    (h : Stored ws x) : Stored (ws.map f) x := by
  obtain ⟨i, w, b, hi, hs, hb⟩ := h
  obtain ⟨h1, h2⟩ := hf w
  exact ⟨i, f w, b, lookup_map.mpr ⟨w, hi, rfl⟩, h1.trans hs, by rw [h2]; exact hb⟩

theorem append (h : Stored ws x) (us : List Window) : Stored (ws ++ us) x := by
  obtain ⟨i, w, b, hi, hs⟩ := h
  have hlt : i < ws.length := (List.getElem?_eq_some_iff.mp hi).1
  exact ⟨i, w, b, by rw [List.getElem?_append_left hlt, hi], hs⟩

theorem land {i : ℕ} {a b : ℤ} {data : ℤ → UInt8} (h : Stored ws x) :
    Stored (ws.modify i (Window.land a b data)) x := by
  obtain ⟨j, w, c, hj, hs, hc⟩ := h
  by_cases hx : i = j ∧ a ≤ x ∧ x < b
  · refine ⟨j, _, data x, lookup_modify.mpr ⟨w, hj, rfl⟩, ?_, ?_⟩
    · rw [if_pos hx.1]
      exact hs
    · rw [if_pos hx.1]
      exact if_pos hx.2
  · refine ⟨j, _, c, lookup_modify.mpr ⟨w, hj, rfl⟩, ?_, ?_⟩
    · split_ifs <;> exact hs
    · split_ifs with hij
      · exact (if_neg fun h => hx ⟨hij, h⟩).trans hc
      · exact hc

/-- A window that was outstanding ends: what others stored stays. -/
theorem finish {i : ℕ} {st : Status} {w : Window} (hi : ws[i]? = some w)
    (hs : w.status = .outstanding) (h : Stored ws x) :
    Stored (ws.modify i (Window.finish st)) x := by
  obtain ⟨j, u, c, hj, hc, hu⟩ := h
  refine ⟨j, u, c, lookup_modify.mpr ⟨u, hj, if_neg ?_⟩, hc, hu⟩
  rintro rfl
  rw [hi] at hj
  cases hj
  rw [hs] at hc
  cases hc

end Stored

section Clean

variable {grain base : ℤ} {p q : Proto}

theorem Intact.modify {i : ℕ} {f : Window → Window} {ws : List Window} (h : Intact ws)
    (hf : ∀ w, (f w).live = w.live ∧ (f w).start = w.start ∧ (f w).stop = w.stop ∧
      (f w).overlapped = w.overlapped) : Intact (ws.modify i f) := by
  have hg : ∀ (j : ℕ) w, (ws.modify i f)[j]? = some w → ∃ u, ws[j]? = some u ∧ w.live = u.live ∧
      w.start = u.start ∧ w.stop = u.stop ∧ w.overlapped = u.overlapped := fun j w hj => by
    obtain ⟨u, hu, rfl⟩ := lookup_modify.mp hj
    refine ⟨u, hu, ?_⟩
    split_ifs
    · exact hf u
    · exact ⟨rfl, rfl, rfl, rfl⟩
  constructor
  · intro j w hj
    obtain ⟨u, hu, h1, -, h2, h3⟩ := hg j w hj
    rw [h1, h2, h3]
    exact h.live j u hu
  · intro j k u w hj hk hne
    obtain ⟨u', hu, -, h1, h2, -⟩ := hg j u hj
    obtain ⟨w', hw, -, h3, h4, -⟩ := hg k w hk
    have := h.apart j k u' w' hu hw hne
    unfold Window.Apart at this ⊢
    rwa [h1, h2, h3, h4]

theorem Intact.map {off stop : ℤ} {ws : List Window} (h : Intact ws)
    (hoff : ∀ (i : ℕ) w, ws[i]? = some w → stop ≤ w.start ∨ w.stop ≤ off) :
    Intact (ws.map (Window.overlap off stop) ++ [.handedOut off stop]) := by
  have hsame : ws.map (Window.overlap off stop) = ws := by
    refine (List.map_congr_left fun w hw => ?_).trans (List.map_id ws)
    obtain ⟨i, hi⟩ := List.mem_iff_getElem?.mp hw
    refine if_neg fun hov => ?_
    have := hoff i w hi
    omega
  rw [hsame]
  constructor
  · intro i w hi
    rcases lookup_concat.mp hi with hi | ⟨-, rfl⟩
    · exact h.live i w hi
    · exact ⟨rfl, rfl⟩
  · intro i j u w hi hj hne
    rcases lookup_concat.mp hi with hi | ⟨hi, rfl⟩ <;> rcases lookup_concat.mp hj with hj | ⟨hj, rfl⟩
    · exact h.apart i j u w hi hj hne
    · exact (hoff i u hi).symm
    · exact hoff j w hj
    · omega

theorem Intact.moves (h : Intact p.windows) {m : Move} (hm : Moves grain p m q)
    (hc : Careful base p m) : Intact q.windows := by
  cases m with
  | read bs => exact hm.2 ▸ h
  | disturb => exact hm.2 ▸ h
  | map off stop req => exact hm.2 ▸ h.map hc
  | land i a b data => exact hm.2 ▸ h.modify fun _ => ⟨rfl, rfl, rfl, rfl⟩
  | complete i => exact hm.choose_spec.2.2 ▸ h.modify fun _ => ⟨rfl, rfl, rfl, rfl⟩
  | giveUp i => exact hm.choose_spec.2.2 ▸ h.modify fun _ => ⟨rfl, rfl, rfl, rfl⟩
  | abort i => exact hm.choose_spec.2.2 ▸ h.modify fun _ => ⟨rfl, rfl, rfl, rfl⟩
  | abortTry i => exact hm.choose_spec.2.2 ▸ h.modify fun _ => ⟨rfl, rfl, rfl, rfl⟩
  | truncate size => exact hc.elim

/-- A byte below the mark that is zero, in flight or stored stays so when window `i`
ends, unless the window holds it. -/
theorem clean_finish {x : ℤ} {i : ℕ} {st : Status} {w : Window} (hi : p.windows[i]? = some w)
    (hs : w.status = .outstanding) (hw : q.windows = p.windows.modify i (Window.finish st))
    (hx : ¬ w.Has x) (hz : p.view.content x = 0 → q.view.content x = 0)
    (h : p.view.content x = 0 ∨ InFlight p.windows x ∨ Stored p.windows x) :
    q.view.content x = 0 ∨ InFlight q.windows x ∨ Stored q.windows x := by
  rw [hw]
  exact h.imp hz (Or.imp (fun hf => hf.finish hi hx) (Stored.finish hi hs))

theorem Window.overlap_landed (off stop : ℤ) (w : Window) :
    (w.overlap off stop).status = w.status ∧ (w.overlap off stop).landed = w.landed := by
  unfold Window.overlap
  split_ifs <;> exact ⟨rfl, rfl⟩

/-- The invariant along a careful move. -/
theorem Clean.moves (hb : 0 ≤ base) (h : Clean base p) (hcov : Covered p)
    (hv : p.view.Ok) (hwin : WindowsOk p) {m : Move} (hd : m.Done) (hm : Moves grain p m q)
    (hf : Fair p.windows m) (hc : Careful base p m) : Clean base q := by
  have h0 := hv.init_nonneg
  have hle := hv.hwm_le
  have hil := hv.init_le
  have htl := hv.size_le
  intro x h1 h2
  cases m with
  | read bs =>
    obtain ⟨hr, hw⟩ := hm
    rw [hw]
    by_cases hx : x < p.view.init
    · exact (h x h1 hx).imp (hr.keep.zero (by omega) (by omega)) id
    · exact .inl (hr.zero x (not_lt.mp hx) h2)
  | map off stop req =>
    obtain ⟨hr, hw⟩ := hm
    by_cases hx : x < p.view.init
    · rw [hw]
      exact (h x h1 hx).imp (hr.keep.zero (by omega) (by omega))
        (Or.imp (fun hfl => (hfl.map (Window.overlap_same off stop)).append _)
          (fun hst => (hst.map (Window.overlap_landed off stop)).append _))
    · -- the gap below the window was zeroed before `init` passed it
      have hi := hr.init
      refine .inl (hr.zero x ?_ ?_)
      · unfold View.mark
        split_ifs at hi <;> omega
      · split_ifs at hi <;> omega
  | land i a b data =>
    obtain ⟨hl, hw⟩ := hm
    rw [hl.init] at h2
    rcases h x h1 h2 with hz | hfl | hst
    · exact (covered_land hwin hl hw hf (.inl hz)).imp id .inl
    · exact (covered_land hwin hl hw hf (.inr hfl)).imp id .inl
    · exact .inr (.inr (hw ▸ hst.land))
  | complete i =>
    obtain ⟨w, hi, hr, hw⟩ := hm
    obtain ⟨w', hi', hs⟩ := hf
    obtain rfl : w = w' := Option.some.inj (hi.symm.trans hi')
    by_cases hx : w.Has x
    · obtain ⟨c, hlc⟩ := Option.isSome_iff_exists.mp (hc w hi x hx)
      refine .inr (.inr ⟨i, w.finish .completed, c, ?_, rfl, hlc⟩)
      rw [hw]
      exact lookup_modify.mpr ⟨w, hi, if_pos rfl⟩
    · have hin := hr.init
      by_cases hxi : x < p.view.init
      · exact clean_finish hi hs hw hx (hr.keep.zero (by omega) (by omega)) (h x h1 hxi)
      · have hwx : x < w.start ∧ w.start < p.view.size := by
          unfold Window.Has at hx
          split_ifs at hin <;> omega
        by_cases hxh : x < p.view.hwm
        · exact clean_finish hi hs hw hx (hr.keep.zero (by omega) (by omega))
            ((hcov x (not_lt.mp hxi) hxh).imp id .inl)
        · refine .inl (hr.zero hwx.2 x ?_ hwx.1)
          unfold View.mark
          omega
  | abort i =>
    obtain ⟨w, hi, hr, hw⟩ := hm
    obtain ⟨w', hi', hs⟩ := hf
    obtain rfl : w = w' := Option.some.inj (hi.symm.trans hi')
    have hca := hc w hi
    rw [hr.init] at h2
    refine clean_finish hi hs hw (fun hx => ?_) (fun hz => ?_) (h x h1 h2)
    · unfold Window.Has at hx
      omega
    · rw [hr.content x (by omega) (by omega), hz]
      split_ifs <;> rfl
  | truncate size => exact hc.elim
  | disturb => exact hd.elim
  | giveUp i => exact hd.elim
  | abortTry i => exact hd.elim

end Clean

/-! ### After a truncation -/

/-- Window `i` was handed out after the first `n` and holds `x`. -/
def Later (n : ℕ) (ws : List Window) (x : ℤ) : Prop :=
  ∃ (i : ℕ) (w : Window), n ≤ i ∧ ws[i]? = some w ∧ w.Has x

/-- Above `size` every byte below the mark is zero or in one of the later windows. -/
def Dead (size : ℤ) (n : ℕ) (p : Proto) : Prop :=
  ∀ x, size ≤ x → x < p.view.mark → p.view.content x = 0 ∨ Later n p.windows x

/-- The moves after a truncation to `size` with `n` windows: nothing lands in those,
the file only grows, and a late completion of one of them does not carry `init`
past the mark above `size`. -/
def Final (size : ℤ) (n : ℕ) (p : Proto) : Move → Prop
  | .land i _ _ _ => n ≤ i
  | .complete i | .giveUp i => n ≤ i ∨ ∀ w, p.windows[i]? = some w →
      p.view.size ≤ w.start ∨ min w.stop p.view.size ≤ max p.view.mark size
  | .truncate s => p.view.size ≤ s
  | .disturb => False
  | _ => True

section Dead

variable {grain size : ℤ} {n : ℕ} {p q : Proto}

theorem Later.append {ws : List Window} {x : ℤ} (h : Later n ws x) (us : List Window) :
    Later n (ws ++ us) x := by
  obtain ⟨i, w, hn, hi, hx⟩ := h
  have hlt : i < ws.length := (List.getElem?_eq_some_iff.mp hi).1
  exact ⟨i, w, hn, by rw [List.getElem?_append_left hlt, hi], hx⟩

theorem Later.map {ws : List Window} {x : ℤ} {f : Window → Window}
    (hf : ∀ w, (f w).start = w.start ∧ (f w).stop = w.stop) (h : Later n ws x) :
    Later n (ws.map f) x := by
  obtain ⟨i, w, hn, hi, hx⟩ := h
  obtain ⟨h1, h2⟩ := hf w
  exact ⟨i, f w, hn, lookup_map.mpr ⟨w, hi, rfl⟩, by unfold Window.Has; rwa [h1, h2]⟩

theorem Later.modify {ws : List Window} {x : ℤ} {i : ℕ} {f : Window → Window}
    (hf : ∀ w, (f w).start = w.start ∧ (f w).stop = w.stop) (h : Later n ws x) :
    Later n (ws.modify i f) x := by
  obtain ⟨j, w, hn, hj, hx⟩ := h
  refine ⟨j, _, hn, lookup_modify.mpr ⟨w, hj, rfl⟩, ?_⟩
  obtain ⟨h1, h2⟩ := hf w
  unfold Window.Has at hx ⊢
  split_ifs
  · rwa [h1, h2]
  · exact hx

/-- A completion of window `i`, late or not, successful or not. -/
theorem Dead.complete (h0 : 0 ≤ size) (h : Dead size n p) (hv : p.view.Ok) {i : ℕ} {w : Window}
    (hi : p.windows[i]? = some w) {st : Status}
    (hc : Stalled p.view q.view ∨ Complete w.start w.stop p.view q.view)
    (hw : q.windows = p.windows.modify i (Window.finish st))
    (hf : Final size n p (.complete i)) : Dead size n q := by
  intro x h1 h2
  have htl := hv.size_le
  have hil := hv.init_le
  have hhl := hv.hwm_le
  rw [hw]
  have hold : ∀ k : ZeroesAbove p.view.mark p.view q.view, x < p.view.mark →
      q.view.content x = 0 ∨ Later n (p.windows.modify i (Window.finish st)) x := fun k hx => by
    have : x < p.view.tail := by
      unfold View.mark at hx
      omega
    exact (h x h1 hx).imp (k.zero (by omega) this) (Later.modify fun _ => ⟨rfl, rfl⟩)
  rcases hc with hc | hc
  · refine hold hc.keep ?_
    unfold View.mark at h2 ⊢
    rwa [hc.init, hc.hwm] at h2
  · by_cases hx : x < p.view.mark
    · exact hold hc.keep hx
    · have hin := hc.init
      have hh := hc.hwm
      have hreach : w.start < p.view.size ∧ x < min w.stop p.view.size := by
        unfold View.mark at h2 hx
        split_ifs at hin hh <;> omega
      by_cases hxs : x < w.start
      · exact .inl (hc.zero hreach.1 x (not_lt.mp hx) hxs)
      · rcases hf with hn | hf
        · refine .inr ⟨i, _, hn, lookup_modify.mpr ⟨w, hi, if_pos rfl⟩, ?_⟩
          exact ⟨not_lt.mp hxs, by simp only [Window.finish]; omega⟩
        · have := hf w hi
          omega

theorem Dead.abort (h0 : 0 ≤ size) (h : Dead size n p) (hv : p.view.Ok) {i : ℕ} {w : Window}
    (hc : AbortTry w.start w.stop p.view q.view)
    (hw : q.windows = p.windows.modify i (Window.finish .aborted)) : Dead size n q := by
  intro x h1 h2
  have htl := hv.size_le
  have hil := hv.init_le
  have hhl := hv.hwm_le
  have hx : x < p.view.mark := by
    have hh := hc.hwm
    unfold View.mark at h2 ⊢
    rw [hc.init] at h2
    omega
  rw [hw]
  refine (h x h1 hx).imp (fun hz => ?_) (Later.modify fun _ => ⟨rfl, rfl⟩)
  unfold View.mark at hx
  rcases hc.content x (by omega) (by omega) with hcx | ⟨-, -, -, hcx⟩
  · rw [hcx, hz]
  · exact hcx

/-- The invariant along a move after the truncation. -/
theorem Dead.moves (h0 : 0 ≤ size) (hn : n ≤ p.windows.length) (h : Dead size n p)
    (hv : p.view.Ok) (hwin : WindowsOk p) {m : Move} (hm : Moves grain p m q)
    (hfair : Fair p.windows m) (hf : Final size n p m) : Dead size n q := by
  have hi0 := hv.init_nonneg
  have htl := hv.size_le
  have hil := hv.init_le
  have hhl := hv.hwm_le
  have hlt : ∀ x, x < p.view.mark → x < p.view.tail := fun x hx => by
    unfold View.mark at hx
    omega
  cases m with
  | read bs =>
    obtain ⟨hr, hw⟩ := hm
    intro x h1 h2
    rw [hw]
    by_cases hx : x < p.view.mark
    · exact (h x h1 hx).imp (hr.keep.zero (by omega) (hlt x hx)) id
    · have hh := hr.hwm
      unfold View.mark at h2 hx
      exact .inl (hr.zero x (by omega) (by omega))
  | map off stop req =>
    obtain ⟨hr, hw⟩ := hm
    intro x h1 h2
    by_cases hx : x < p.view.mark
    · rw [hw]
      exact (h x h1 hx).imp (hr.keep.zero (by omega) (hlt x hx))
        (fun hl => (hl.map fun w => (w.overlap_same off stop).2).append _)
    · by_cases hxo : x < off
      · exact .inl (hr.zero x (not_lt.mp hx) hxo)
      · refine .inr ⟨p.windows.length, .handedOut off stop, hn, ?_, not_lt.mp hxo, ?_⟩
        · rw [hw]
          exact lookup_concat.mpr (.inr ⟨by rw [List.length_map], rfl⟩)
        · have hi := hr.init
          have hh := hr.hwm
          have hlts := hr.lt
          simp only [Window.handedOut]
          unfold View.mark at h2 hx
          split_ifs at hi hh <;> omega
  | land i a b data =>
    obtain ⟨hl, hw⟩ := hm
    obtain ⟨w, hi, -, ha, hb⟩ := hfair
    intro x h1 h2
    rw [View.mark, hl.init, hl.hwm] at h2
    rw [hw, hl.content]
    have hsame : ∀ u : Window, (u.land a b data).start = u.start ∧ (u.land a b data).stop = u.stop :=
      fun _ => ⟨rfl, rfl⟩
    split_ifs with hx
    · have hle := (hwin.each i w hi).live_le
      exact .inr (Later.modify hsame ⟨i, w, hf, hi, by omega, by omega⟩)
    · exact (h x h1 h2).imp id (Later.modify hsame)
  | complete i =>
    obtain ⟨w, hi, hc, hw⟩ := hm
    exact h.complete h0 hv hi (.inr hc) hw hf
  | giveUp i =>
    obtain ⟨w, hi, hc, hw⟩ := hm
    exact h.complete h0 hv hi hc hw hf
  | abort i =>
    obtain ⟨w, hi, hc, hw⟩ := hm
    exact h.abort h0 hv hc.abortTry hw
  | abortTry i =>
    obtain ⟨w, hi, hc, hw⟩ := hm
    exact h.abort h0 hv hc hw
  | truncate s =>
    obtain ⟨ht, hw⟩ := hm
    intro x h1 h2
    have hs : p.view.size ≤ s := hf
    rw [hw]
    by_cases hx : x < p.view.size
    · rw [ht.keep x (by omega) hx (by omega)]
      refine (h x h1 ?_).imp id (Later.map fun _ => ⟨rfl, rfl⟩)
      have hh := ht.hwm
      have hi := ht.init_eq
      unfold View.mark at h2 ⊢
      omega
    · refine .inl (ht.zero x (not_lt.mp hx) ?_)
      have hh := ht.hwm
      unfold View.mark at h2
      omega
  | disturb => exact hf.elim

/-- No window is ever forgotten. -/
theorem Moves.length_le {m : Move} (hm : Moves grain p m q) :
    p.windows.length ≤ q.windows.length := by
  cases m with
  | read bs => exact hm.2 ▸ le_rfl
  | disturb => exact hm.2 ▸ le_rfl
  | map off stop req => simp [hm.2]
  | land i a b data => simp [hm.2]
  | complete i => simp [hm.choose_spec.2.2]
  | giveUp i => simp [hm.choose_spec.2.2]
  | abort i => simp [hm.choose_spec.2.2]
  | abortTry i => simp [hm.choose_spec.2.2]
  | truncate s => simp [hm.2]

end Dead

end NtfsKit
