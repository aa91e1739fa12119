import NtfsKit.Protocol.Stale
import NtfsKit.System.Writes

/-! Two promises the bridge keeps only under a condition. A failed write leaves
nothing stale behind, unless `initialized_size` has passed over its window before
the abort arrives: `nk_abort_write` zeroes above `initialized_size` only. And a
truncation ends the writes in flight, unless the file has grown again before one of
them is completed: `nk_complete_write` then makes the old end of the cluster
readable. -/

namespace NtfsKit

variable {σ : Type} {L : Libntfs σ} {v : NkVolume}

/-! ### Failed writes -/

/-- Runs of writes: calls succeed, no two windows meet, a completed window has landed
whole, and nothing is truncated. -/
def WriteRun (s : Sys σ) (e : Event) (r : Reply) : Prop :=
  Succeeds s e r ∧ match e with
    | .mapWrite offset _ _ _ => ∀ w ∈ s.windows,
        extentsEnd offset r.extents ≤ w.start ∨ w.stop ≤ offset
    | .complete i => ∀ w ∈ s.windows[i]?, ∀ x, w.start ≤ x → x < w.stop → (w.landed x).isSome
    | .truncate _ => False
    | _ => True

/-- No byte of an aborted window that the run found uninitialized, at `base` or above,
lies below `initialized_size` when the abort arrives. -/
def NotOvertaken (base : ℤ) (s : Sys σ) : Event → Prop
  | .abort i => ∀ w ∈ s.windows[i]?,
      min w.stop s.file.na.recInitializedSize ≤ max w.start base
  | _ => True

instance (s : Sys σ) : ∀ (e : Event) (r : Reply), Decidable (WriteRun s e r)
  | .mapWrite offset l b cb, r => inferInstanceAs (Decidable (Succeeds s (.mapWrite offset l b cb) r ∧
      ∀ w ∈ s.windows, extentsEnd offset r.extents ≤ w.start ∨ w.stop ≤ offset))
  | .complete i, r => inferInstanceAs (Decidable (Succeeds s (.complete i) r ∧
      ∀ w ∈ s.windows[i]?, ∀ x, w.start ≤ x → x < w.stop → (w.landed x).isSome))
  | .truncate n, r => inferInstanceAs (Decidable (Succeeds s (.truncate n) r ∧ False))
  | .mapRead o l b cb, r => inferInstanceAs (Decidable (Succeeds s (.mapRead o l b cb) r ∧ True))
  | .land i a b d, r => inferInstanceAs (Decidable (Succeeds s (.land i a b d) r ∧ True))
  | .abort i, r => inferInstanceAs (Decidable (Succeeds s (.abort i) r ∧ True))

instance (base : ℤ) (s : Sys σ) : ∀ e : Event, Decidable (NotOvertaken base s e)
  | .abort i => inferInstanceAs (Decidable (∀ w ∈ s.windows[i]?,
      min w.stop s.file.na.recInitializedSize ≤ max w.start base))
  | .mapRead _ _ _ _ | .mapWrite _ _ _ _ | .land _ _ _ _ | .complete _ | .truncate _ =>
    inferInstanceAs (Decidable True)

/-- Once no window is outstanding, every cluster byte below `initialized_size` was
initialized before the run, is zero, or landed in a completed window. -/
def NothingStale (vol : NtfsVolume) (base : ℤ) (s : Sys σ) : Prop :=
  (∀ w ∈ s.windows, w.status ≠ .outstanding) →
    ∀ x p, s.file.phys vol x = some p → x < s.file.na.recInitializedSize →
      x < base ∨ s.file.disk p = 0 ∨ ∃ w ∈ s.windows, w.status = .completed ∧
        w.landed x = some (s.file.disk p)

theorem WriteRun.careful {base : ℤ} {s : Sys σ} {e : Event} {r : Reply} (h : WriteRun s e r)
    (hn : NotOvertaken base s e) (hop : L.AttrOpens) :
    Careful base (s.proto v.vol) (moveOf L e r) := by
  have h0 := h.1.2
  have hx := h.2
  cases e with
  | mapRead o l b cb => simp only [moveOf, h0, if_true, Careful]
  | mapWrite o l b cb =>
    simp only [moveOf, h0, if_true]
    exact fun i w hi => hx w (List.mem_of_getElem? hi)
  | land i a b d => trivial
  | complete i =>
    simp only [moveOf, h0, if_true]
    exact fun w hi x hw => hx w hi x hw.1 hw.2
  | abort i =>
    simp only [moveOf, h0, hop, and_self, if_true]
    exact hn
  | truncate size => exact hx

/-- A run of writes in which all calls return 0, `ntfs_attr_open` in `nk_abort_write` does
not fail, and no abort comes after `initialized_size` has passed its window leaves nothing
stale. -/
theorem failed_write_leaves_nothing_stale (hL : L.Spec v.vol) (hc : 0 < v.vol.clusterSize)
    (hop : L.AttrOpens) {f : NkFile σ} (hf : f.Sound v.vol) (h0 : f.wrHwm = 0) {s : Sys σ}
    (hr : Run (Sys.step L v) (fun s e r => WriteRun s e r ∧
      NotOvertaken f.na.recInitializedSize s e) ⟨f, [], []⟩ s) :
    NothingStale v.vol f.na.recInitializedSize s := by
  have hb := hf.wf.init_nonneg
  have hstep : ∀ (t : Sys σ) (e : Event), (t.Marked v.vol ∧ Intact t.windows ∧
      Clean f.na.recInitializedSize (t.proto v.vol)) → (WriteRun t e (t.step L v e).1 ∧
      NotOvertaken f.na.recInitializedSize t e) → ((t.step L v e).2.Marked v.vol ∧
      Intact (t.step L v e).2.windows ∧
      Clean f.na.recInitializedSize ((t.step L v e).2.proto v.vol)) := by
    rintro t e ⟨hm, hint, hcl⟩ ⟨hrule, hnot⟩
    have hmv := (Sys.step_moves hL hc hm.good.placed hm.good.windows hrule.1.1).1
    have hcare : Careful f.na.recInitializedSize (t.proto v.vol) _ := hrule.careful hnot hop
    exact ⟨hm.step hL hc hop hrule.1, hint.moves hmv hcare,
      hcl.moves hb hm.covered (hm.good.placed.sound.view_ok hc) hm.good.windows
        (moveOf_done hop hrule.1.2) hmv hrule.1.1.fair hcare⟩
  obtain ⟨hm, hint, hcl⟩ := hr.invariant hstep ⟨.fresh hf h0,
    ⟨fun _ _ h => by simp at h, fun _ _ _ _ h => by simp at h⟩, fun x h1 h2 => by
      have : x < f.na.recInitializedSize := h2
      omega⟩
  intro hnone x p hp hx
  by_cases hbase : x < f.na.recInitializedSize
  · exact .inl hbase
  have hdisk : (s.proto v.vol).view.content x = s.file.disk p := Ntfs.content_of_phys hp
  rcases hcl x (not_lt.mp hbase) hx with hz | ⟨i, w, hi, ho, -⟩ | ⟨i, w, b, hi, hd, hlb⟩
  · exact .inr (.inl (hdisk ▸ hz))
  · exact absurd ho (hnone w (List.mem_of_getElem? hi))
  · obtain ⟨hl, hov⟩ := hint.live i w hi
    have hcb := (hm.good.windows.each i w hi).landed x b hlb hl hov (.inr hd)
    exact .inr (.inr ⟨w, List.mem_of_getElem? hi, hd, by rw [hlb, ← hdisk, hcb]⟩)

/-- Two windows of one block. Only the second lands; `order` says how they end. -/
def failedLower (order : List Event) : Sys Unit :=
  smallRun (staleFile 2 1024 0) ([.mapWrite 0 512 512 fun _ => false,
    .mapWrite 512 512 512 fun _ => false, .land 1 512 1024 fun _ => 1] ++ order)

/-- The abort comes first, and the aborted window is zeroed. -/
theorem failed_write_leaves_nothing_stale_abort_first :
    (failedLower [.abort 0, .complete 1]).file.na.recInitializedSize = 1024 ∧
    NothingStale smallVolume.vol 0 (failedLower [.abort 0, .complete 1]) := by
  have hrun : Run (Sys.step (fullDisk 512 0) smallVolume) (fun s e r => WriteRun s e r ∧
      NotOvertaken (staleFile 2 1024 0).na.recInitializedSize s e) ⟨staleFile 2 1024 0, [], []⟩
      (failedLower [.abort 0, .complete 1]) := Run.of_execAll (by decide +kernel)
  exact ⟨by decide +kernel, failed_write_leaves_nothing_stale smallSpec (by decide) (fun _ => rfl)
    (staleFile_sound (by decide) (by decide) (by decide)) rfl hrun⟩

/-- The completion comes first, and the aborted window reads with its old bytes. -/
theorem overtaken_abort_leaves_stale :
    Run (Sys.step (fullDisk 512 0) smallVolume) WriteRun ⟨staleFile 2 1024 0, [], []⟩
      (failedLower [.complete 1, .abort 0]) ∧
    ¬ NothingStale smallVolume.vol 0 (failedLower [.complete 1, .abort 0]) := by
  refine ⟨Run.of_execAll (by decide +kernel), fun h => ?_⟩
  have hnone : ∀ w ∈ (failedLower [.complete 1, .abort 0]).windows, w.status ≠ .outstanding := by
    decide +kernel
  have hphys : (failedLower [.complete 1, .abort 0]).file.phys smallVolume.vol 0 = some 2048 := by
    decide +kernel
  rcases h hnone 0 2048 hphys (by decide +kernel) with h0 | h0 | h0
  · exact absurd h0 (by decide)
  · exact absurd h0 (by decide +kernel)
  · exact absurd h0 (by decide +kernel)

/-! ### Truncation -/

/-- What follows a truncation with `n` windows handed out: maps succeed, bytes land in
later windows only, and the file only grows. -/
def AfterTruncate (n : ℕ) (s : Sys σ) (e : Event) (r : Reply) : Prop :=
  Rule s e r ∧ match e with
    | .mapRead _ _ _ _ => r.ret = some 0
    | .mapWrite _ _ _ _ => r.ret = some 0
    | .land i _ _ _ => n ≤ i
    | .truncate size => s.file.na.dataSize ≤ size
    | _ => True

/-- A late completion of one of the first `n` windows carries `initialized_size` over no
byte at or above `size` that was not initialized or handed out since. -/
def NotLate (size : ℤ) (n : ℕ) (s : Sys σ) : Event → Prop
  | .complete i => n ≤ i ∨ ∀ w ∈ s.windows[i]?, s.file.na.dataSize ≤ w.start ∨
      min w.stop s.file.na.dataSize ≤ max (max s.file.na.recInitializedSize s.file.wrHwm) size
  | _ => True

instance (n : ℕ) (s : Sys σ) : ∀ (e : Event) (r : Reply), Decidable (AfterTruncate n s e r)
  | .mapRead o l b cb, r =>
    inferInstanceAs (Decidable (Rule s (.mapRead o l b cb) r ∧ r.ret = some 0))
  | .mapWrite o l b cb, r =>
    inferInstanceAs (Decidable (Rule s (.mapWrite o l b cb) r ∧ r.ret = some 0))
  | .land i a b d, r => inferInstanceAs (Decidable (Rule s (.land i a b d) r ∧ n ≤ i))
  | .truncate size, r =>
    inferInstanceAs (Decidable (Rule s (.truncate size) r ∧ s.file.na.dataSize ≤ size))
  | .complete i, r => inferInstanceAs (Decidable (Rule s (.complete i) r ∧ True))
  | .abort i, r => inferInstanceAs (Decidable (Rule s (.abort i) r ∧ True))

instance (size : ℤ) (n : ℕ) (s : Sys σ) : ∀ e : Event, Decidable (NotLate size n s e)
  | .complete i => inferInstanceAs (Decidable (n ≤ i ∨ ∀ w ∈ s.windows[i]?,
      s.file.na.dataSize ≤ w.start ∨
      min w.stop s.file.na.dataSize ≤ max (max s.file.na.recInitializedSize s.file.wrHwm) size))
  | .mapRead _ _ _ _ | .mapWrite _ _ _ _ | .land _ _ _ _ | .abort _ | .truncate _ =>
    inferInstanceAs (Decidable True)

/-- Completions do not change the size, and every byte from `size` on that no later
window holds reads as zero. -/
def TruncationFinal (L : Libntfs σ) (v : NkVolume) (size : ℤ) (n : ℕ) (s : Sys σ) : Prop :=
  (∀ offset length, (nkCompleteWrite L v offset length s.file).2.na.dataSize =
    s.file.na.dataSize) ∧
  ∀ x, size ≤ x → x < s.file.na.dataSize → ¬ Later n s.windows x → s.file.Opens L →
    (nkRead L v x 1 s.file).1 = some [0]

theorem AfterTruncate.final {size : ℤ} {n : ℕ} {s : Sys σ} {e : Event} {r : Reply}
    (h : AfterTruncate n s e r) (hn : NotLate size n s e) :
    Final size n (s.proto v.vol) (moveOf L e r) := by
  have hx := h.2
  cases e with
  | mapRead o l b cb =>
    simp only at hx
    simp only [moveOf, hx, if_true, Final]
  | mapWrite o l b cb =>
    simp only at hx
    simp only [moveOf, hx, if_true, Final]
  | land i a b d => exact hx
  | complete i =>
    simp only [moveOf]
    split_ifs <;> exact hn
  | abort i =>
    simp only [moveOf]
    split_ifs <;> trivial
  | truncate size => exact hx

/-- After a truncation to `size`, in every run in which no late completion carries
`initialized_size` over the cut part, the truncation stays final. -/
theorem truncation_is_final (hL : L.Spec v.vol) (hc : 0 < v.vol.clusterSize) {f : NkFile σ}
    (hf : f.Sound v.vol) {s t : Sys σ} (hr : Run (Sys.step L v) Rule ⟨f, [], []⟩ s) {size : ℤ}
    (ht : (s.truncate L size).1.ret = some 0)
    (hr' : Run (Sys.step L v) (fun t e r => AfterTruncate s.windows.length t e r ∧
      NotLate size s.windows.length t e) (s.truncate L size).2 t) :
    TruncationFinal L v size s.windows.length t := by
  have hs := (Sys.Good.fresh hf).run hL hc hr
  have hsize : 0 ≤ size :=
    (nkTruncate_spec hL hc hs.placed.sound (Option.some.inj ht)).2.2.1.nonneg
  have hcut : (s.truncate L size).2.Good v.vol := hs.step hL hc (e := .truncate size) ht
  have hstep : ∀ (u : Sys σ) (e : Event), (u.Good v.vol ∧
      s.windows.length ≤ u.windows.length ∧ Dead size s.windows.length (u.proto v.vol)) →
      (AfterTruncate s.windows.length u e (u.step L v e).1 ∧
        NotLate size s.windows.length u e) → ((u.step L v e).2.Good v.vol ∧
      s.windows.length ≤ (u.step L v e).2.windows.length ∧
      Dead size s.windows.length ((u.step L v e).2.proto v.vol)) := by
    rintro u e ⟨hg, hlen, hd⟩ ⟨hrule, hnot⟩
    have hmv := (Sys.step_moves hL hc hg.placed hg.windows hrule.1).1
    exact ⟨hg.step hL hc hrule.1, hlen.trans hmv.length_le,
      hd.moves hsize hlen (hg.placed.sound.view_ok hc) hg.windows hmv hrule.1.fair
        (hrule.final hnot)⟩
  have hstart : Dead size s.windows.length ((s.truncate L size).2.proto v.vol) := by
    obtain ⟨-, -, htr, -⟩ := nkTruncate_spec hL hc hs.placed.sound (Option.some.inj ht)
    intro x h1 h2
    have h3 := htr.init_ub
    have h4 := htr.hwm
    unfold View.mark Sys.proto Sys.truncate at h2
    simp only at h2
    omega
  obtain ⟨hg, -, hd⟩ := hr'.invariant hstep ⟨hcut, by simp [Sys.truncate], hstart⟩
  refine ⟨fun offset length => (nkCompleteWrite_spec hL hc hg.placed.sound offset length).1.dataSize,
    fun x h1 h2 hl ho => ?_⟩
  rw [nkRead_eq ho (by omega) (by decide), show min (x + 1) t.file.na.dataSize = x + 1 by omega]
  have hbyte : (t.file.view v.vol).byte x = 0 := by
    unfold View.byte
    split_ifs with hx
    · exact (hd x h1 (hx.trans_le (le_max_left _ _))).resolve_right hl
    · rfl
  simp [bytes, hbyte]

/-- A window that has landed when the file is cut to 300 bytes. -/
def landedWindow : Sys Unit := smallRun (staleFile 1 512 0)
  [.mapWrite 0 512 512 fun _ => false, .land 0 0 512 fun _ => 1]

/-- The cut file after `es`. -/
def cutWindow (es : List Event) : Sys Unit :=
  execAll (Sys.step (fullDisk 512 0) smallVolume) es
    (landedWindow.truncate (fullDisk 512 0) 300).2

/-- The late completion comes before the file grows again. -/
theorem truncation_is_final_complete_first :
    (cutWindow [.complete 0, .truncate 512]).file.na.recInitializedSize = 300 ∧
    TruncationFinal (fullDisk 512 0) smallVolume 300 1 (cutWindow [.complete 0, .truncate 512]) := by
  have hrun : Run (Sys.step (fullDisk 512 0) smallVolume) Rule ⟨staleFile 1 512 0, [], []⟩
      landedWindow := Run.of_execAll (by decide +kernel)
  have hrun' : Run (Sys.step (fullDisk 512 0) smallVolume)
      (fun t e r => AfterTruncate landedWindow.windows.length t e r ∧
        NotLate 300 landedWindow.windows.length t e) (landedWindow.truncate (fullDisk 512 0) 300).2
      (cutWindow [.complete 0, .truncate 512]) := Run.of_execAll (by decide +kernel)
  have hfin := truncation_is_final smallSpec (by decide)
    (staleFile_sound (by decide) (by decide) (by decide)) hrun (by decide +kernel) hrun'
  rw [show landedWindow.windows.length = 1 by decide +kernel] at hfin
  exact ⟨by decide +kernel, hfin⟩

/-- The file grows again first, and the completion makes the cut bytes readable. -/
theorem late_completion_undoes_truncation :
    Run (Sys.step (fullDisk 512 0) smallVolume) Rule ⟨staleFile 1 512 0, [], []⟩ landedWindow ∧
    (landedWindow.truncate (fullDisk 512 0) 300).1.ret = some 0 ∧
    Run (Sys.step (fullDisk 512 0) smallVolume) (AfterTruncate 1)
      (landedWindow.truncate (fullDisk 512 0) 300).2 (cutWindow [.truncate 512, .complete 0]) ∧
    ¬ TruncationFinal (fullDisk 512 0) smallVolume 300 1
      (cutWindow [.truncate 512, .complete 0]) := by
  refine ⟨Run.of_execAll (by decide +kernel), by decide +kernel, Run.of_execAll (by decide +kernel),
    fun h => ?_⟩
  have hread := h.2 400 (by decide) (by decide +kernel) ?_ ⟨rfl, rfl⟩
  · exact absurd hread (by decide +kernel)
  · rintro ⟨i, w, hn, hi, -⟩
    have hlen : (cutWindow [.truncate 512, .complete 0]).windows.length = 1 := by decide +kernel
    have := (List.getElem?_eq_some_iff.mp hi).1
    omega

end NtfsKit
