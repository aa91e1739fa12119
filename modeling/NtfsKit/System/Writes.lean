import NtfsKit.Engine.FullDisk
import NtfsKit.Protocol.Covered
import NtfsKit.System.Refine

/-! What holds along every run of the system. A write that was reported complete can
be read back until something else is written there. The bytes between
`initialized_size` and the mark are zero or in flight, so a read map shows nothing
that was in the clusters before. -/

namespace NtfsKit

variable {σ : Type} {L : Libntfs σ} {v : NkVolume}

/-! ### A small volume -/

/-- A volume of 64 clusters of one block each. -/
def smallVolume : NkVolume := ⟨⟨512, 64, false⟩, false⟩

/-- A file in consecutive clusters that hold something else's old bytes. -/
def staleFile (clusters size init : ℤ) : NkFile Unit where
  disk _ := 0xAA
  na := ⟨true, false, false, size, init, init, [⟨0, 4, clusters⟩], fun _ => 0⟩
  eng := ()
  mref := 7
  wr := []

theorem staleFile_sound {clusters size init : ℤ} (hn : 0 < clusters) (h0 : 0 ≤ init)
    (hle : init ≤ size) : (staleFile clusters size init).Sound smallVolume.vol :=
  ⟨⟨.single hn (by decide), h0, hle, fun h => by cases h⟩, List.nodup_nil, le_rfl, h0.trans hle⟩

/-- The small volume's system with no window handed out, after `es`. -/
def smallRun (f : NkFile Unit) (es : List Event) : Sys Unit :=
  execAll (Sys.step (fullDisk 512 0) smallVolume) es ⟨f, [], []⟩

theorem smallSpec : (fullDisk 512 0).Spec smallVolume.vol := fullDisk_spec (by decide) 0

/-! ### Completed writes -/

theorem bytes_congr {a b : ℤ} {g h : ℤ → UInt8} (hgh : ∀ x, a ≤ x → x < b → g x = h x) :
    bytes a b g = bytes a b h := by
  refine List.map_congr_left fun i hi => ?_
  have hi := List.mem_range.mp hi
  exact hgh _ (by omega) (by omega)

/-- The bytes of a window that counts are the ones that landed in it. -/
theorem Sys.Good.byte_of_landed {s : Sys σ} (hs : s.Good v.vol) {i : ℕ} {w : Window}
    (hi : s.windows[i]? = some w) (hdone : w.status = .completed) (huncut : w.live = w.stop)
    (hov : w.overlapped = false) {x : ℤ} {b : UInt8} (hb : w.landed x = some b) :
    (s.file.view v.vol).byte x = b := by
  have hw := hs.windows.each i w hi
  have hx := hw.within x b hb
  have hin : w.stop ≤ (s.file.view v.vol).init := hw.init hdone huncut
  rw [View.byte, if_pos (hx.2.trans_le hin)]
  exact hw.landed x b hb huncut hov (.inr hdone)

section Completed

variable (hL : L.Spec v.vol) (hc : 0 < v.vol.clusterSize)
include hL hc

theorem Sys.Good.run {s t : Sys σ} (hs : s.Good v.vol) (hr : Run (Sys.step L v) Rule s t) :
    t.Good v.vol :=
  hr.invariant (fun _ _ h hrule => h.step hL hc hrule) hs

/-- No lost completed write: a window that was mapped, landed and completed reads back
exactly the bytes that landed, in every later state of every run, as long as no
truncation cut it and no later window was handed out over it. -/
theorem completed_write_reads_back {f : NkFile σ} (hf : f.Sound v.vol) {s : Sys σ}
    (hr : Run (Sys.step L v) Rule ⟨f, [], []⟩ s) {i : ℕ} {w : Window}
    (hi : s.windows[i]? = some w) (hdone : w.status = .completed) (huncut : w.live = w.stop)
    (hov : w.overlapped = false) (hland : ∀ x, w.Has x → (w.landed x).isSome)
    (ho : s.file.Opens L) :
    (nkRead L v w.start (w.stop - w.start) s.file).1 =
      some (bytes w.start w.stop fun x => (w.landed x).getD 0) := by
  have hs := (Sys.Good.fresh hf).run hL hc hr
  have hw := hs.windows.each i w hi
  have hlt := hw.lt
  have hsize : w.live ≤ s.file.na.dataSize := hw.live_size
  rw [nkRead_eq ho hw.start_nonneg (by omega),
    show min (w.start + (w.stop - w.start)) s.file.na.dataSize = w.stop by omega]
  congr 1
  refine bytes_congr fun x h1 h2 => ?_
  obtain ⟨b, hb⟩ := Option.isSome_iff_exists.mp (hland x ⟨h1, h2⟩)
  rw [hs.byte_of_landed hi hdone huncut hov hb, hb]
  rfl

end Completed

theorem completed_write_reads_back_small :
    (nkRead (fullDisk 512 0) smallVolume 0 512 (smallRun (staleFile 2 1024 0)
      [.mapWrite 0 512 512 fun _ => false, .land 0 0 512 fun _ => 1, .complete 0]).file).1 =
      some (bytes 0 512 fun _ => 1) := by
  set es : List Event := [.mapWrite 0 512 512 fun _ => false, .land 0 0 512 fun _ => 1, .complete 0]
  obtain ⟨w, hw, h1, h2, h3, h4, h5, h6⟩ : ∃ w ∈ (smallRun (staleFile 2 1024 0) es).windows[0]?,
      w.status = .completed ∧ w.live = w.stop ∧ w.overlapped = false ∧ w.start = 0 ∧
      w.stop = 512 ∧ ∀ x, (0 : ℤ) ≤ x → x < 512 → w.landed x = some 1 := by
    decide +kernel
  have hread := completed_write_reads_back smallSpec (by decide)
    (staleFile_sound (by decide) (by decide) (by decide)) (Run.of_execAll (by decide +kernel)) hw h1
    h2 h3 (fun x hx => by
      rw [h6 x (h4 ▸ hx.1) (h5 ▸ hx.2)]
      rfl) ⟨rfl, rfl⟩
  rw [h4, h5] at hread
  refine hread.trans (congrArg some (bytes_congr fun x h7 h8 => ?_))
  rw [h6 x h7 h8]
  rfl

/-! ### The bytes below the mark -/

/-- Runs of calls that all succeed. -/
def Succeeds (s : Sys σ) (e : Event) (r : Reply) : Prop := Rule s e r ∧ r.ret = some 0

/-- Runs in which windows also begin and end at multiples of `bs`. -/
def SucceedsAligned (bs : ℤ) (s : Sys σ) (e : Event) (r : Reply) : Prop :=
  Succeeds s e r ∧ match e with
    | .mapWrite offset _ _ _ => bs ∣ offset ∧ bs ∣ extentsEnd offset r.extents
    | _ => True

instance (s : Sys σ) (e : Event) (r : Reply) : Decidable (Succeeds s e r) :=
  inferInstanceAs (Decidable (Rule s e r ∧ r.ret = some 0))

instance (bs : ℤ) (s : Sys σ) : ∀ (e : Event) (r : Reply), Decidable (SucceedsAligned bs s e r)
  | .mapWrite offset l b cb, r => inferInstanceAs (Decidable
      (Succeeds s (.mapWrite offset l b cb) r ∧ bs ∣ offset ∧ bs ∣ extentsEnd offset r.extents))
  | .mapRead o l b cb, r => inferInstanceAs (Decidable (Succeeds s (.mapRead o l b cb) r ∧ True))
  | .land i a b d, r => inferInstanceAs (Decidable (Succeeds s (.land i a b d) r ∧ True))
  | .complete i, r => inferInstanceAs (Decidable (Succeeds s (.complete i) r ∧ True))
  | .abort i, r => inferInstanceAs (Decidable (Succeeds s (.abort i) r ∧ True))
  | .truncate n, r => inferInstanceAs (Decidable (Succeeds s (.truncate n) r ∧ True))

theorem moveOf_done (hop : L.AttrOpens) {e : Event} {r : Reply} (h : r.ret = some 0) :
    (moveOf L e r).Done := by
  cases e <;> simp [moveOf, h, hop, Move.Done]

theorem SucceedsAligned.aligned {bs : ℤ} {s : Sys σ} {e : Event} {r : Reply}
    (h : SucceedsAligned bs s e r) : (moveOf L e r).Aligned bs := by
  have h0 := h.1.2
  have hal := h.2
  cases e <;> simp only [moveOf, h0, if_true] <;> first | exact hal | trivial | skip
  split_ifs <;> trivial

/-- A system in which every byte between `initialized_size` and the mark is zero or in
flight. -/
structure Sys.Marked (vol : NtfsVolume) (s : Sys σ) : Prop where
  good : s.Good vol
  covered : Covered (s.proto vol)

/-- A file that no write window was handed out on. -/
theorem Sys.Marked.fresh {vol : NtfsVolume} {f : NkFile σ} (hf : f.Sound vol) (h0 : f.wrHwm = 0) :
    (⟨f, [], []⟩ : Sys σ).Marked vol := by
  refine ⟨.fresh hf, fun x h1 h2 => ?_⟩
  have h3 : f.na.recInitializedSize ≤ x := h1
  have h4 : x < f.wrHwm := h2
  have := hf.wf.init_nonneg
  omega

/-- A file with bytes above `initialized_size` has its last cluster whole. -/
theorem NkFile.Sound.whole {f : NkFile σ} {vol : NtfsVolume} (hf : f.Sound vol) :
    (f.view vol).Whole vol.clusterSize := by
  intro hlt
  have hr : f.na.nonResident = true := by
    by_contra hn
    have := (hf.wf.resident (by simpa using hn)).2
    exact absurd hlt (by simp [NkFile.view, this])
  exact (Ntfs.tail_of_nonResident hr).ge

section Mark

variable (hL : L.Spec v.vol) (hc : 0 < v.vol.clusterSize) (hop : L.AttrOpens)
include hL hc hop

theorem Sys.Marked.step {s : Sys σ} (hs : s.Marked v.vol) {e : Event}
    (hr : Succeeds s e (s.step L v e).1) : (s.step L v e).2.Marked v.vol := by
  have hm := (Sys.step_moves hL hc hs.good.placed hs.good.windows hr.1).1
  exact ⟨hs.good.step hL hc hr.1, hs.covered.moves (hs.good.placed.sound.view_ok hc)
    hs.good.windows (moveOf_done hop hr.2) hm hr.1.fair⟩

/-- The high-water-mark invariant: in every state that a run reaches from a file without
tracked windows, in which all calls return 0 and `ntfs_attr_open` in `nk_abort_write` does
not fail (it would return 0 as well), `initialized_size` and the mark lie within
`data_size`, every outstanding window that no truncation cut ends at or below the
higher of the two, and every cluster byte between them is zero or in flight. -/
theorem high_water_mark_invariant {f : NkFile σ} (hf : f.Sound v.vol) (h0 : f.wrHwm = 0)
    {s : Sys σ} (hr : Run (Sys.step L v) Succeeds ⟨f, [], []⟩ s) :
    s.file.na.recInitializedSize ≤ s.file.na.dataSize ∧ s.file.wrHwm ≤ s.file.na.dataSize ∧
    (∀ (i : ℕ) w, s.windows[i]? = some w → w.status = .outstanding → w.live = w.stop →
      w.stop ≤ max s.file.na.recInitializedSize s.file.wrHwm) ∧
    ∀ x p, s.file.na.recInitializedSize ≤ x → x < s.file.wrHwm →
      s.file.phys v.vol x = some p → s.file.disk p = 0 ∨ InFlight s.windows x := by
  have hs : s.Marked v.vol :=
    hr.invariant (fun _ _ h hrule => h.step hL hc hop hrule) (.fresh hf h0)
  have hsound := hs.good.placed.sound
  refine ⟨hsound.wf.init_le, hsound.hwm_le, fun i w hi ho hl => ?_, fun x p h1 h2 hp => ?_⟩
  · exact (hs.good.windows.each i w hi).mark ho hl
  · have hcov := hs.covered x h1 h2
    rwa [show (s.proto v.vol).view.content x = s.file.disk p from Ntfs.content_of_phys hp] at hcov

end Mark

/-- Two windows handed out, the second one landed. -/
def twoWindows : Sys Unit := smallRun (staleFile 2 1024 0) [.mapWrite 0 512 512 fun _ => false,
  .mapWrite 512 512 512 fun _ => false, .land 1 512 1024 fun _ => 1]

theorem high_water_mark_invariant_small :
    twoWindows.file.na.recInitializedSize = 0 ∧ twoWindows.file.wrHwm = 1024 ∧
    ∀ x p, 0 ≤ x → x < 1024 → twoWindows.file.phys smallVolume.vol x = some p →
      twoWindows.file.disk p = 0 ∨ InFlight twoWindows.windows x := by
  have h1 : twoWindows.file.na.recInitializedSize = 0 := by decide +kernel
  have h2 : twoWindows.file.wrHwm = 1024 := by decide +kernel
  have hrun : Run (Sys.step (fullDisk 512 0) smallVolume) Succeeds ⟨staleFile 2 1024 0, [], []⟩
      twoWindows := Run.of_execAll (by decide +kernel)
  have hinv := high_water_mark_invariant smallSpec (by decide) (fun _ => rfl)
    (staleFile_sound (by decide) (by decide) (by decide)) rfl hrun
  rw [h1, h2] at hinv
  exact ⟨h1, h2, hinv.2.2.2⟩

section Mark

variable (hL : L.Spec v.vol) (hc : 0 < v.vol.clusterSize) (hop : L.AttrOpens)
include hL hc hop

/-- What the invariants say of the block at `initialized_size`. -/
theorem blockCovered_run {bs : ℤ} (hbs : 0 < bs) (hdvd : bs ∣ v.vol.clusterSize) {f : NkFile σ}
    (hf : f.Sound v.vol) (h0 : f.wrHwm = 0) {s : Sys σ}
    (hr : Run (Sys.step L v) (SucceedsAligned bs) ⟨f, [], []⟩ s) :
    s.Marked v.vol ∧ Aligned bs s.windows ∧ BlockCovered bs (s.proto v.vol) := by
  have hstep : ∀ (t : Sys σ) (e : Event), (t.Marked v.vol ∧ Aligned bs t.windows ∧
      BlockCovered bs (t.proto v.vol)) → SucceedsAligned bs t e (t.step L v e).1 →
      ((t.step L v e).2.Marked v.vol ∧ Aligned bs (t.step L v e).2.windows ∧
        BlockCovered bs ((t.step L v e).2.proto v.vol)) := by
    rintro t e ⟨hm, hal, hb⟩ hrule
    have hmv := (Sys.step_moves hL hc hm.good.placed hm.good.windows hrule.1.1).1
    exact ⟨hm.step hL hc hop hrule.1, hal.moves hrule.aligned hmv,
      hb.moves hbs hc hdvd hm.covered hal (hm.good.placed.sound.view_ok hc)
        hm.good.placed.sound.whole hm.good.windows hrule.aligned (moveOf_done hop hrule.1.2) hmv
        hrule.1.1.fair⟩
  refine hr.invariant hstep ⟨.fresh hf h0, fun _ _ h => by simp at h, fun h => ?_⟩
  have h1 : f.na.recInitializedSize < f.wrHwm := h
  have := hf.wf.init_nonneg
  omega

/-- Read maps show nothing stale: in every state that a run with block-aligned windows
reaches, in which all calls return 0 and `ntfs_attr_open` in `nk_abort_write` does not fail,
every byte at or above `initialized_size` that a read
map hands out as data is zero on the device, in flight, or beyond the end of the
file. -/
theorem read_map_shows_nothing_stale {f : NkFile σ} (hf : f.Sound v.vol) (h0 : f.wrHwm = 0)
    {s : Sys σ} {blocksize : ℤ}
    (hr : Run (Sys.step L v) (SucceedsAligned (blockSize blocksize)) ⟨f, [], []⟩ s)
    {offset length : ℤ} {cb : List Extent → Bool}
    (hret : (nkBlockmap L v offset length false blocksize cb s.file).ret = some 0) :
    ∀ e ∈ (nkBlockmap L v offset length false blocksize cb s.file).extents, 0 ≤ e.physical →
    ∀ x, e.logical ≤ x → x < e.logical + e.length → s.file.na.recInitializedSize ≤ x →
      (nkBlockmap L v offset length false blocksize cb s.file).file.disk
        (e.physical + (x - e.logical)) = 0 ∨ InFlight s.windows x ∨
      (nkBlockmap L v offset length false blocksize cb s.file).file.na.dataSize ≤ x := by
  have hg : s.Good v.vol :=
    (Sys.Good.fresh hf).run hL hc (hr.mono fun _ _ _ h => h.1.1)
  obtain ⟨c, hc', -, -, hread, -⟩ :=
    nkBlockmap_spec hL hc hg.placed.sound offset length false blocksize cb
  obtain ⟨hmod, hm⟩ := hread (Option.some.inj (hc'.symm.trans hret)) rfl
  have hbs := blockSize_pos blocksize
  obtain ⟨hmk, -, hblk⟩ :=
    blockCovered_run hL hc hop hbs (Int.dvd_of_emod_eq_zero hmod) hf h0 hr
  intro e he hp x h1 h2 hx
  rcases hm.right e he x h1 h2 with ⟨-, hphys, hie⟩ | ⟨hneg, -⟩
  · have hshow := MapRead.shows (p := s.proto v.vol) hbs hm.step (hg.placed.sound.view_ok hc)
      hmk.covered hblk hx hie
    have hdisk := Ntfs.content_of_phys hphys
    exact hshow.imp hdisk.symm.trans id
  · omega

end Mark

/-- A window over the block that `initialized_size` cuts. -/
def cutBlock : Sys Unit :=
  smallRun (staleFile 1 512 100) [.mapWrite 0 512 512 fun _ => false]

theorem read_map_shows_nothing_stale_small :
    (nkBlockmap (fullDisk 512 0) smallVolume 0 512 false 512 (fun _ => false)
      cutBlock.file).extents = [⟨0, 2048, 512⟩] ∧
    ∀ x, 100 ≤ x → x < 512 →
      (nkBlockmap (fullDisk 512 0) smallVolume 0 512 false 512 (fun _ => false)
        cutBlock.file).file.disk (2048 + (x - 0)) = 0 ∨ InFlight cutBlock.windows x ∨
      (nkBlockmap (fullDisk 512 0) smallVolume 0 512 false 512 (fun _ => false)
        cutBlock.file).file.na.dataSize ≤ x := by
  have hext : (nkBlockmap (fullDisk 512 0) smallVolume 0 512 false 512 (fun _ => false)
      cutBlock.file).extents = [⟨0, 2048, 512⟩] := by decide +kernel
  have hinit : cutBlock.file.na.recInitializedSize = 100 := by decide +kernel
  have hrun : Run (Sys.step (fullDisk 512 0) smallVolume) (SucceedsAligned (blockSize 512))
      ⟨staleFile 1 512 100, [], []⟩ cutBlock := Run.of_execAll (by decide +kernel)
  refine ⟨hext, fun x h1 h2 => ?_⟩
  exact read_map_shows_nothing_stale smallSpec (by decide) (fun _ => rfl)
    (staleFile_sound (by decide) (by decide) (by decide)) rfl hrun (by decide +kernel)
    ⟨0, 2048, 512⟩ (by rw [hext]; exact List.mem_singleton_self _) (by decide) x (by simp only; omega)
    (by simp only; omega) (by omega)

end NtfsKit
