import NtfsKit.Protocol.Window

/-! Bytes the kernel stored stay stored. Outstanding windows end at or below the
mark and completed ones below `init`, so that no zeroing of the engine reaches
them; and no two windows that still count meet. The invariant holds along every
move, whether the operations behind the moves succeed or not. -/

namespace NtfsKit

/-- A step that zeroes above the mark and lowers neither the mark nor `init`. -/
structure Grows (v w : View) : Prop where
  keep : ZeroesAbove v.mark v w
  mark_le : v.mark ≤ w.mark
  init_le : v.init ≤ w.init

section Grows

variable {v w : View}

theorem Disturb.grows (h : Disturb v w) : Grows v w :=
  ⟨h.keep, max_le_max h.init_le h.hwm_le, h.init_le⟩

theorem Stalled.grows (h : Stalled v w) : Grows v w :=
  ⟨h.keep, by simp only [View.mark, h.init, h.hwm, le_refl], h.init.ge⟩

theorem MapRead.grows {bs : ℤ} (h : MapRead bs v w) : Grows v w :=
  ⟨h.keep, max_le_max h.init_le h.hwm.ge, h.init_le⟩

theorem MapWrite.grows {off stop req : ℤ} (h : MapWrite off stop req v w) : Grows v w := by
  have hi := h.init
  have hh := h.hwm
  refine ⟨h.keep, ?_, ?_⟩
  · simp only [View.mark]
    split_ifs at hi hh <;> omega
  · split_ifs at hi <;> omega

theorem Complete.grows {off stop : ℤ} (h : Complete off stop v w) : Grows v w := by
  have hi := h.init
  have hh := h.hwm
  refine ⟨h.keep, ?_, ?_⟩
  · simp only [View.mark]
    split_ifs at hi hh <;> omega
  · split_ifs at hi <;> omega

end Grows

/-- What holds of every window. -/
structure WindowOk (v : View) (w : Window) : Prop where
  start_nonneg : 0 ≤ w.start
  lt : w.start < w.stop
  live_le : w.live ≤ w.stop
  live_size : w.live ≤ v.size
  fresh : w.status = .outstanding → w.overlapped = false
  mark : w.status = .outstanding → w.live = w.stop → w.stop ≤ v.mark
  init : w.status = .completed → w.live = w.stop → w.stop ≤ v.init
  within : ∀ x b, w.landed x = some b → w.Has x
  landed : ∀ x b, w.landed x = some b → w.live = w.stop → w.overlapped = false →
    w.status = .outstanding ∨ w.status = .completed → v.content x = b

/-- The windows of a state are in order, and an outstanding one meets no other that
was not written over. -/
structure WindowsOk (p : Proto) : Prop where
  each : ∀ (i : ℕ) w, p.windows[i]? = some w → WindowOk p.view w
  apart : ∀ (i j : ℕ) u w, p.windows[i]? = some u → p.windows[j]? = some w → i ≠ j →
    u.status = .outstanding → w.overlapped = false → u.Apart w

namespace WindowOk

variable {v v' : View} {w : Window}

/-- A window that counts lies below the mark. -/
theorem le_mark (h : WindowOk v w) (hl : w.live = w.stop)
    (hs : w.status = .outstanding ∨ w.status = .completed) : w.stop ≤ v.mark := by
  rcases hs with hs | hs
  · exact h.mark hs hl
  · exact (h.init hs hl).trans (le_max_left _ _)

theorem grow (h : WindowOk v w) (hv : v.Ok) (hg : Grows v v') : WindowOk v' w where
  start_nonneg := h.start_nonneg
  lt := h.lt
  live_le := h.live_le
  live_size := h.live_size.trans hg.keep.size_le
  fresh := h.fresh
  mark hs hl := (h.mark hs hl).trans hg.mark_le
  init hs hl := (h.init hs hl).trans hg.init_le
  within := h.within
  landed x b hb hl ho hs := by
    have hx := h.within x b hb
    have h0 := h.start_nonneg
    have h1 := h.live_size
    have h2 := hv.size_le
    have h3 := h.le_mark hl hs
    unfold Window.Has at hx
    rw [hg.keep.eq_of_lt (by omega) (by omega) (by omega)]
    exact h.landed x b hb hl ho hs

/-- A later window over this one: it counts no more. -/
theorem overlap (h : WindowOk v w) {off stop : ℤ}
    (hout : w.status = .outstanding → stop ≤ w.start ∨ w.stop ≤ off) :
    WindowOk v (w.overlap off stop) := by
  unfold Window.overlap
  split_ifs with hov
  · refine { h with fresh := fun hs => ?_, landed := fun x b _ _ ho => absurd ho (by simp) }
    rcases hout hs with h1 | h1 <;> omega
  · exact h

theorem handedOut {off stop : ℤ} (h0 : 0 ≤ off) (hlt : off < stop) (hm : stop ≤ v.mark)
    (hs : stop ≤ v.size) : WindowOk v (.handedOut off stop) where
  start_nonneg := h0
  lt := hlt
  live_le := le_rfl
  live_size := hs
  fresh _ := rfl
  mark _ _ := hm
  init hs := by cases hs
  within x b hb := by cases hb
  landed x b hb := by cases hb

/-- The window the bytes land in. -/
theorem land (h : WindowOk v w) {a b : ℤ} {data : ℤ → UInt8} (ha : w.start ≤ a)
    (hb : b ≤ w.live) (hl : Land a b data v v') : WindowOk v' (w.land a b data) where
  start_nonneg := h.start_nonneg
  lt := h.lt
  live_le := h.live_le
  live_size := h.live_size.trans hl.size.ge
  fresh := h.fresh
  mark hs hlive := by
    rw [View.mark, hl.init, hl.hwm]
    exact h.mark hs hlive
  init hs hlive := by
    rw [hl.init]
    exact h.init hs hlive
  within x c hc := by
    have hle := h.live_le
    simp only [Window.land] at hc
    split_ifs at hc with hx
    · exact ⟨by simp only [Window.land]; omega, by simp only [Window.land]; omega⟩
    · exact h.within x c hc
  landed x c hc hlive ho hs := by
    simp only [Window.land] at hc
    rw [hl.content]
    split_ifs at hc ⊢ with hx
    · exact Option.some.inj hc
    · exact h.landed x c hc hlive ho hs

/-- A window away from the bytes that land. -/
theorem land_apart (h : WindowOk v w) {a b : ℤ} {data : ℤ → UInt8} (hl : Land a b data v v')
    (hap : w.overlapped = false → ∀ x, a ≤ x → x < b → ¬ w.Has x) : WindowOk v' w where
  start_nonneg := h.start_nonneg
  lt := h.lt
  live_le := h.live_le
  live_size := h.live_size.trans hl.size.ge
  fresh := h.fresh
  mark hs hlive := by
    rw [View.mark, hl.init, hl.hwm]
    exact h.mark hs hlive
  init hs hlive := by
    rw [hl.init]
    exact h.init hs hlive
  within := h.within
  landed x c hc hlive ho hs := by
    rw [hl.content, if_neg fun hx => hap ho x hx.1 hx.2 (h.within x c hc)]
    exact h.landed x c hc hlive ho hs

/-- The window a successful completion is for. -/
theorem complete (h : WindowOk v w) (hv : v.Ok) (hs : w.status = .outstanding)
    (hc : Complete w.start w.stop v v') : WindowOk v' (w.finish .completed) :=
  { h.grow hv hc.grows with
    fresh := fun hs => by cases hs
    mark := fun hs => by cases hs
    init := fun _ hl => by
      have hi := hc.init
      have h1 := h.live_size
      have h2 := h.lt
      simp only [Window.finish] at hl ⊢
      split_ifs at hi <;> omega
    landed := fun x b hb hl ho _ => (h.grow hv hc.grows).landed x b hb hl ho (.inl hs) }

/-- A window that ended without success counts no more. -/
theorem ended (h : WindowOk v w) (hsize : v.size ≤ v'.size) {st : Status}
    (h1 : st ≠ .outstanding) (h2 : st ≠ .completed) : WindowOk v' (w.finish st) where
  start_nonneg := h.start_nonneg
  lt := h.lt
  live_le := h.live_le
  live_size := h.live_size.trans hsize
  fresh hs := absurd hs h1
  mark hs := absurd hs h1
  init hs := absurd hs h2
  within := h.within
  landed _ _ _ _ _ hs := (hs.elim h1 h2).elim

/-- Another window's abort. -/
theorem abort_apart (h : WindowOk v w) (hv : v.Ok) {u : Window}
    (ha : AbortTry u.start u.stop v v') (hap : w.overlapped = false → u.Apart w) :
    WindowOk v' w where
  start_nonneg := h.start_nonneg
  lt := h.lt
  live_le := h.live_le
  live_size := h.live_size.trans ha.size.ge
  fresh := h.fresh
  mark hs hl := by
    have h1 := h.mark hs hl
    have h2 := h.lt
    have h3 := hap (h.fresh hs)
    unfold Window.Apart at h3
    simp only [View.mark, ha.init] at h1 ⊢
    -- the mark comes down to the aborted window at most
    rcases ha.hwm with h4 | ⟨h4, h5, h6⟩
    · omega
    · omega
  init hs hl := by
    rw [ha.init]
    exact h.init hs hl
  within := h.within
  landed x b hb hl ho hs := by
    have hx := h.within x b hb
    have h0 := h.start_nonneg
    have h1 := h.live_size
    have h2 := hv.size_le
    have h3 := hap ho
    unfold Window.Has at hx
    unfold Window.Apart at h3
    rcases ha.content x (by omega) (by omega) with hc | ⟨-, hc, hd, -⟩
    · rw [hc]
      exact h.landed x b hb hl ho hs
    · omega

theorem truncate (h : WindowOk v w) {grain size : ℤ}
    (ht : Truncate grain size v v') : WindowOk v' (w.cut size) where
  start_nonneg := h.start_nonneg
  lt := h.lt
  live_le := (min_le_left _ _).trans h.live_le
  live_size := (min_le_right _ _).trans ht.size.ge
  fresh := h.fresh
  mark hs hl := by
    simp only [Window.cut] at hl hs ⊢
    have h1 := h.live_le
    have h2 := h.mark hs (by omega)
    have h3 := ht.init_le
    have h4 := ht.hwm
    unfold View.mark at h2 ⊢
    omega
  init hs hl := by
    simp only [Window.cut] at hl hs ⊢
    have h1 := h.live_le
    have h2 := h.init hs (by omega)
    have h3 := ht.init_le
    omega
  within := h.within
  landed x b hb hl ho hs := by
    simp only [Window.cut] at hl hs
    have hx := h.within x b hb
    have h0 := h.start_nonneg
    have h1 := h.live_le
    have h2 := h.live_size
    unfold Window.Has at hx
    rw [ht.keep x (by omega) (by omega) (by omega)]
    exact h.landed x b hb (by omega) ho hs

end WindowOk

/-! ### Every move keeps the windows in order -/

theorem MapWrite.stop_le_mark {off stop req : ℤ} {v w : View} (h : MapWrite off stop req v w) :
    stop ≤ w.mark := by
  have hh := h.hwm
  unfold View.mark
  split_ifs at hh <;> omega

section Moves

variable {grain : ℤ} {p q : Proto} (h : WindowsOk p)
include h

/-- The windows stay as they are while the view grows. -/
theorem WindowsOk.grow (hv : p.view.Ok) (hg : Grows p.view q.view)
    (hw : q.windows = p.windows) : WindowsOk q where
  each i w hi := (h.each i w (hw ▸ hi)).grow hv hg
  apart i j u w hi hj := h.apart i j u w (hw ▸ hi) (hw ▸ hj)

/-- Only window `i` changes, and it ends: the others keep their distance. -/
theorem WindowsOk.finish {i : ℕ} {st : Status} (hst : st ≠ .outstanding)
    (hw : q.windows = p.windows.modify i (Window.finish st))
    (heach : ∀ j u, p.windows[j]? = some u →
      WindowOk q.view (if i = j then u.finish st else u)) : WindowsOk q where
  each j w hj := by
    rw [hw, lookup_modify] at hj
    obtain ⟨u, hu, rfl⟩ := hj
    exact heach j u hu
  apart j k u w hj hk hne hs ho := by
    rw [hw, lookup_modify] at hj hk
    obtain ⟨u', hu, rfl⟩ := hj
    obtain ⟨w', hw', rfl⟩ := hk
    have hij : ¬ i = j := fun hij => by
      rw [if_pos hij] at hs
      exact hst hs
    rw [if_neg hij] at hs ⊢
    have hap : w'.overlapped = false → u'.Apart w' := h.apart j k u' w' hu hw' hne hs
    split_ifs at ho ⊢
    · exact hap ho
    · exact hap ho

theorem WindowsOk.map {off stop req : ℤ} (hv : p.view.Ok)
    (hm : MapWrite off stop req p.view q.view)
    (hw : q.windows = p.windows.map (Window.overlap off stop) ++ [.handedOut off stop])
    (hf : Fair p.windows (.map off stop req)) : WindowsOk q where
  each i w hi := by
    rw [hw, lookup_concat] at hi
    rcases hi with hi | ⟨-, rfl⟩
    · obtain ⟨u, hu, rfl⟩ := lookup_map.mp hi
      exact ((h.each i u hu).grow hv hm.grows).overlap (hf i u hu)
    · have h1 := hm.size
      have h2 := hm.le
      exact .handedOut hm.off_nonneg hm.lt hm.stop_le_mark (by omega)
  apart i j u w hi hj hne hs ho := by
    -- an old window that does not count as written over keeps away from the new one
    have hnew : ∀ (k : ℕ) u, (p.windows.map (Window.overlap off stop))[k]? = some u →
        u.overlapped = false → u.Apart (.handedOut off stop) := fun k u hk ho => by
      obtain ⟨u', -, rfl⟩ := lookup_map.mp hk
      unfold Window.overlap at ho ⊢
      split_ifs at ho ⊢ with hov
      show u'.stop ≤ off ∨ stop ≤ u'.start
      omega
    rw [hw, lookup_concat] at hi hj
    rcases hi with hi | ⟨hi, rfl⟩ <;> rcases hj with hj | ⟨hj, rfl⟩
    · obtain ⟨u', hu, rfl⟩ := lookup_map.mp hi
      obtain ⟨w', hw', rfl⟩ := lookup_map.mp hj
      have hap := h.apart i j u' w' hu hw' hne
      unfold Window.overlap at hs ho ⊢
      split_ifs at hs ho ⊢
      · exact hap hs ho
      · exact hap hs ho
    · obtain ⟨u', hu, rfl⟩ := lookup_map.mp hi
      refine hnew i _ hi ?_
      have hfr := (h.each i u' hu).overlap (hf i u' hu)
      exact hfr.fresh hs
    · exact (hnew j w hj ho).symm
    · omega

theorem WindowsOk.land {i : ℕ} {a b : ℤ} {data : ℤ → UInt8} (hl : Land a b data p.view q.view)
    (hw : q.windows = p.windows.modify i (Window.land a b data))
    (hf : Fair p.windows (.land i a b data)) : WindowsOk q := by
  obtain ⟨w₀, hi, hs₀, ha, hb⟩ := hf
  constructor
  · intro j w hj
    rw [hw, lookup_modify] at hj
    obtain ⟨u, hu, rfl⟩ := hj
    split_ifs with hij
    · subst hij
      rw [hi] at hu
      cases hu
      exact (h.each i w₀ hi).land ha hb hl
    · refine (h.each j u hu).land_apart hl fun ho x h1 h2 => ?_
      have hap := h.apart i j w₀ u hi hu hij hs₀ ho
      have hle := (h.each i w₀ hi).live_le
      unfold Window.Apart at hap
      unfold Window.Has
      omega
  · intro j k u w hj hk hne hs ho
    rw [hw, lookup_modify] at hj hk
    obtain ⟨u', hu, rfl⟩ := hj
    obtain ⟨w', hw', rfl⟩ := hk
    have hap : u'.status = .outstanding → w'.overlapped = false → u'.Apart w' :=
      h.apart j k u' w' hu hw' hne
    split_ifs at hs ho ⊢ <;> exact hap hs ho

theorem WindowsOk.abort (hv : p.view.Ok) {i : ℕ} {w : Window} (hi : p.windows[i]? = some w)
    (hf : ∃ u, p.windows[i]? = some u ∧ u.status = .outstanding)
    (ha : AbortTry w.start w.stop p.view q.view)
    (hw : q.windows = p.windows.modify i (Window.finish .aborted)) : WindowsOk q := by
  obtain ⟨w', hi', hs⟩ := hf
  obtain rfl : w = w' := Option.some.inj (hi.symm.trans hi')
  refine h.finish (by decide) hw fun j u hj => ?_
  split_ifs with hij
  · exact (h.each j u hj).ended ha.size.ge (by decide) (by decide)
  · exact (h.each j u hj).abort_apart hv ha (h.apart i j w u hi hj hij hs)

/-- The invariant along a move. -/
theorem WindowsOk.moves (hv : p.view.Ok) {m : Move} (hm : Moves grain p m q)
    (hf : Fair p.windows m) : WindowsOk q := by
  cases m with
  | read bs => exact h.grow hv hm.1.grows hm.2
  | disturb => exact h.grow hv hm.1.grows hm.2
  | map off stop req => exact h.map hv hm.1 hm.2 hf
  | land i a b data => exact h.land hm.1 hm.2 hf
  | complete i =>
    obtain ⟨w, hi, hc, hw⟩ := hm
    obtain ⟨w', hi', hs⟩ := hf
    obtain rfl : w = w' := Option.some.inj (hi.symm.trans hi')
    refine h.finish (by decide) hw fun j u hj => ?_
    split_ifs with hij
    · subst hij
      rw [hi] at hj
      cases hj
      exact (h.each i w hi).complete hv hs hc
    · exact (h.each j u hj).grow hv hc.grows
  | giveUp i =>
    obtain ⟨w, hi, hc, hw⟩ := hm
    have hg : Grows p.view q.view := hc.elim Stalled.grows Complete.grows
    refine h.finish (by decide) hw fun j u hj => ?_
    split_ifs with hij
    · exact (h.each j u hj).ended hg.keep.size_le (by decide) (by decide)
    · exact (h.each j u hj).grow hv hg
  | abort i =>
    obtain ⟨w, hi, hc, hw⟩ := hm
    exact h.abort hv hi hf hc.abortTry hw
  | abortTry i =>
    obtain ⟨w, hi, hc, hw⟩ := hm
    exact h.abort hv hi hf hc hw
  | truncate size =>
    constructor
    · intro j w hj
      rw [hm.2, lookup_map] at hj
      obtain ⟨u, hu, rfl⟩ := hj
      exact (h.each j u hu).truncate hm.1
    · intro j k u w hj hk hne hs ho
      rw [hm.2, lookup_map] at hj hk
      obtain ⟨u', hu, rfl⟩ := hj
      obtain ⟨w', hw', rfl⟩ := hk
      exact h.apart j k u' w' hu hw' hne hs ho

end Moves

end NtfsKit
