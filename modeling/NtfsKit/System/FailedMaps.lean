import NtfsKit.Bridge.FailedTruncate
import NtfsKit.Bridge.InitSize
import NtfsKit.Protocol.Live
import NtfsKit.System.Writes

/-! A map for writing that fails leaves the contents of the file as they were, at whichever
step it failed, and writes no byte that is in flight. The runs here also contain truncations
that fail. One to a size below the mark lowers the mark under the windows in flight, and the
promise breaks with it; as long as no such truncation fails it holds in every state. -/

namespace NtfsKit

variable {σ : Type} {L : Libntfs σ} {v : NkVolume}

/-- A failing `ntfs_attr_truncate` leaves the attribute and its bytes as they were. -/
def Libntfs.TruncateKeeps (vol : NtfsVolume) (L : Libntfs σ) : Prop :=
  ∀ s size, s.Wf vol → (L.attrTruncate s size).1 ≠ 0 →
    (L.attrTruncate s size).2.na = s.na ∧
      (L.attrTruncate s size).2.content vol = s.content vol

/-- Runs in which truncations may fail, but none to a size below the mark. -/
def Attempts (s : Sys σ) : Event → Reply → Prop
  | .truncate size, r => r.ret = some 0 ∨ s.file.wrHwm ≤ size
  | .mapRead o l b cb, r => Rule s (.mapRead o l b cb) r
  | .mapWrite o l b cb, r => Rule s (.mapWrite o l b cb) r
  | .land i a b data, r => Rule s (.land i a b data) r
  | .complete i, r => Rule s (.complete i) r
  | .abort i, r => Rule s (.abort i) r

instance (s : Sys σ) : ∀ (e : Event) (r : Reply), Decidable (Attempts s e r)
  | .truncate size, r => inferInstanceAs (Decidable (r.ret = some 0 ∨ s.file.wrHwm ≤ size))
  | .mapRead o l b cb, r => inferInstanceAs (Decidable (Rule s (.mapRead o l b cb) r))
  | .mapWrite o l b cb, r => inferInstanceAs (Decidable (Rule s (.mapWrite o l b cb) r))
  | .land i a b data, r => inferInstanceAs (Decidable (Rule s (.land i a b data) r))
  | .complete i, r => inferInstanceAs (Decidable (Rule s (.complete i) r))
  | .abort i, r => inferInstanceAs (Decidable (Rule s (.abort i) r))

/-! ### Truncations that fail -/

/-- A truncation that changed nothing cuts nothing. -/
theorem truncate_idle {s : Sys σ} {size : ℤ} (hs : Placed v.vol s) (hw : WindowsOk (s.proto v.vol))
    (hopen : Opened v.vol s.file (nkTruncate L size s.file).2) :
    Moves v.vol.clusterSize (s.proto v.vol) .disturb ((s.truncate L size).2.proto v.vol) ∧
      Placed v.vol (s.truncate L size).2 := by
  have hsize : (nkTruncate L size s.file).2.na.dataSize = s.file.na.dataSize :=
    congrArg View.size hopen.view
  have hcut : s.windows.map (Window.cut (nkTruncate L size s.file).2.na.dataSize) = s.windows := by
    conv_rhs => rw [← List.map_id s.windows]
    refine List.map_congr_left fun w hmem => ?_
    obtain ⟨i, hi⟩ := List.mem_iff_getElem?.mp hmem
    have hle : w.live ≤ s.file.na.dataSize := (hw.each i w hi).live_size
    simp only [Window.cut, hsize, min_eq_left hle, id]
  have hstep : (s.truncate L size).2 = { s with file := (nkTruncate L size s.file).2 } := by
    simp only [Sys.truncate, hcut]
  rw [hstep]
  refine ⟨⟨?_, rfl⟩, hs.of_file hw (hopen.sound hs.sound) fun x p hx => by
    rw [hopen.phys]; exact hx⟩
  have hd : Disturb (s.file.view v.vol) ((nkTruncate L size s.file).2.view v.vol) := by
    rw [hopen.view]
    exact ⟨.refl _ _, le_rfl, hs.sound.wf.init_le, le_rfl, hs.sound.hwm_le⟩
  exact hd

section Step

variable (hL : L.Spec v.vol) (hT : L.TruncateKeeps v.vol) (hc : 0 < v.vol.clusterSize)
include hL hT hc

/-- A truncation to a size that is not below the mark is a move, whatever it returns. -/
theorem truncate_attempt {s : Sys σ} {size : ℤ} (hs : Placed v.vol s)
    (hw : WindowsOk (s.proto v.vol)) (hle : s.file.wrHwm ≤ size) :
    ∃ m, Moves v.vol.clusterSize (s.proto v.vol) m ((s.truncate L size).2.proto v.vol) ∧
      Fair s.windows m ∧ Placed v.vol (s.truncate L size).2 := by
  have hidle : Opened v.vol s.file (nkTruncate L size s.file).2 →
      ∃ m, Moves v.vol.clusterSize (s.proto v.vol) m ((s.truncate L size).2.proto v.vol) ∧
        Fair s.windows m ∧ Placed v.vol (s.truncate L size).2 := fun hopen =>
    ⟨.disturb, (truncate_idle hs hw hopen).1, trivial, (truncate_idle hs hw hopen).2⟩
  rcases nkTruncate_cases v.vol L size s.file with ⟨-, -, hsame⟩ | ⟨-, g, hg, hgw, hcase⟩
  · exact hidle hsame.opened
  have hghwm : g.wrHwm ≤ size := by
    have : g.wrHwm = s.file.wrHwm := congrArg View.hwm hg.view
    omega
  rcases hcase with ⟨-, hsame⟩ | ⟨-, hsame⟩
  · rw [clampHwm_same hghwm] at hsame
    exact hidle (hg.trans hsame.opened)
  by_cases hz : (L.attrTruncate g.toNtfs size).1 = 0
  · obtain ⟨hsound, -, ht, hp⟩ := hg.truncated hL hc hs.sound hz hsame
    obtain ⟨hm, hpl⟩ := ht.moves hs hw hsound hp
    exact ⟨.truncate size, hm, trivial, hpl⟩
  · obtain ⟨hna, hcont⟩ := hT g.toNtfs size (hg.sound hs.sound).wf hz
    set t := (g.lib fun s => L.attrTruncate s size).2 with ht
    have htw : t.wrHwm ≤ size := hghwm
    rw [clampHwm_same htw] at hsame
    have hopen : Opened v.vol g t := by
      refine ⟨?_, ?_, rfl, fun hgs => ?_⟩
      · simp only [NkFile.view, show t.content v.vol = g.content v.vol from hcont, Ntfs.tail,
          show t.na = g.na from hna]
        rfl
      · funext x
        simp only [Ntfs.phys, show t.na = g.na from hna]
      · exact ⟨hgs.wf.of_na_eq hna, hgs.distinct, hgs.hwm_nonneg, by
          rw [show t.na = g.na from hna]; exact hgs.hwm_le⟩
    exact hidle (hg.trans (hopen.trans hsame.opened))

theorem Attempts.moves {s : Sys σ} {e : Event} (hs : Placed v.vol s)
    (hw : WindowsOk (s.proto v.vol)) (hr : Attempts s e (s.step L v e).1) :
    ∃ m, Moves v.vol.clusterSize (s.proto v.vol) m ((s.step L v e).2.proto v.vol) ∧
      Fair s.windows m ∧ Placed v.vol (s.step L v e).2 := by
  have hrule : Rule s e (s.step L v e).1 →
      ∃ m, Moves v.vol.clusterSize (s.proto v.vol) m ((s.step L v e).2.proto v.vol) ∧
        Fair s.windows m ∧ Placed v.vol (s.step L v e).2 := fun h => by
    obtain ⟨hm, hp⟩ := Sys.step_moves hL hc hs hw h
    exact ⟨_, hm, h.fair, hp⟩
  cases e with
  | truncate size =>
    rcases hr with hr | hr
    · exact hrule hr
    · exact truncate_attempt hL hT hc hs hw hr
  | mapRead o l b cb => exact hrule hr
  | mapWrite o l b cb => exact hrule hr
  | land i a b data => exact hrule hr
  | complete i => exact hrule hr
  | abort i => exact hrule hr

/-- In every state reached, the system is in order and what is in flight is below the mark. -/
theorem attempts_run {f : NkFile σ} (hf : f.Sound v.vol) {s : Sys σ}
    (hr : Run (Sys.step L v) Attempts ⟨f, [], []⟩ s) :
    s.Good v.vol ∧ LiveBelow (s.proto v.vol) := by
  have hstep : ∀ (t : Sys σ) (e : Event), (t.Good v.vol ∧ LiveBelow (t.proto v.vol)) →
      Attempts t e (t.step L v e).1 →
      ((t.step L v e).2.Good v.vol ∧ LiveBelow ((t.step L v e).2.proto v.vol)) := by
    rintro t e ⟨hg, hlive⟩ hok
    obtain ⟨m, hm, hfair, hp⟩ := Attempts.moves hL hT hc hg.placed hg.windows hok
    exact ⟨⟨hp, hg.windows.moves (hg.placed.sound.view_ok hc) hm hfair⟩,
      hlive.moves hg.windows hm hfair⟩
  exact hr.invariant hstep ⟨.fresh hf, fun _ _ h => by simp [Sys.proto] at h⟩

variable (hlook : L.LooksUp)
include hlook

/-- A map for writing that fails, in any state of such a run: what could be read stays, the
bytes the file has grown by read as zero, and nothing in flight was written. -/
theorem failed_map_preserves_contents {f : NkFile σ} (hf : f.Sound v.vol) {s : Sys σ}
    (hr : Run (Sys.step L v) Attempts ⟨f, [], []⟩ s) (offset length blocksize : ℤ)
    (cb : List Extent → Bool)
    (_hfail : (nkBlockmap L v offset length true blocksize cb s.file).ret ≠ some 0) :
    (∀ pos count, 0 ≤ pos → 0 ≤ count → s.file.Opens L →
      (nkBlockmap L v offset length true blocksize cb s.file).file.Opens L →
      (pos + count ≤ s.file.na.dataSize →
        (nkRead L v pos count (nkBlockmap L v offset length true blocksize cb s.file).file).1 =
          (nkRead L v pos count s.file).1) ∧
      (s.file.na.dataSize ≤ pos →
        (nkRead L v pos count (nkBlockmap L v offset length true blocksize cb s.file).file).1 =
          some (bytes pos (min (pos + count)
            (nkBlockmap L v offset length true blocksize cb s.file).file.na.dataSize)
              fun _ => 0))) ∧
    ((nkBlockmap L v offset length true blocksize cb s.file).file.na.dataSize =
        s.file.na.dataSize ∨
      (nkBlockmap L v offset length true blocksize cb s.file).file.na.dataSize =
        max s.file.na.dataSize (offset + length)) ∧
    ∀ w ∈ s.windows, w.status = .outstanding → ∀ x p, w.start ≤ x → x < w.live →
      s.file.phys v.vol x = some p →
      (nkBlockmap L v offset length true blocksize cb s.file).file.disk p = s.file.disk p := by
  obtain ⟨hgood, hlive⟩ := attempts_run hL hT hc hf hr
  have hs := hgood.placed.sound
  obtain ⟨c, -, hm, -⟩ := nkBlockmap_spec hL hc hs offset length true blocksize cb
  obtain ⟨hleft, -⟩ := nkBlockmap_left hL hlook hc hs.wf offset length blocksize cb
  set m := (nkBlockmap L v offset length true blocksize cb s.file).file
  have hsize : s.file.na.dataSize ≤ m.na.dataSize := hm.disturb.keep.size_le
  have htail : s.file.na.dataSize ≤ s.file.tail v.vol := Ntfs.dataSize_le_tail hc
  have hinit : s.file.na.recInitializedSize ≤ s.file.na.dataSize := hs.wf.init_le
  have hmark : s.file.na.recInitializedSize ≤ (s.file.view v.vol).mark := le_max_left _ _
  -- what is read above the old `initialized_size` is zero on both sides
  have hzero : ∀ x, s.file.na.recInitializedSize ≤ x → (m.view v.vol).byte x = 0 := fun x hx => by
    unfold View.byte
    split_ifs with hlt
    · exact hleft.zero x hx hlt
    · rfl
  have hbyte : ∀ x, 0 ≤ x → x < s.file.na.dataSize →
      (m.view v.vol).byte x = (s.file.view v.vol).byte x := fun x h0 hx => by
    by_cases hlt : x < s.file.na.recInitializedSize
    · have hkeep : m.content v.vol x = s.file.content v.vol x :=
        hm.disturb.keep.eq_of_lt h0 (show x < s.file.tail v.vol by omega) (by omega)
      have hge := hleft.ge
      calc (m.view v.vol).byte x = m.content v.vol x :=
            if_pos (show x < m.na.recInitializedSize by omega)
        _ = s.file.content v.vol x := hkeep
        _ = (s.file.view v.vol).byte x := (if_pos hlt).symm
    · rw [hzero x (by omega)]
      exact (if_neg hlt).symm
  refine ⟨fun pos count hp hn ho ho' => ⟨fun hle => ?_, fun hge => ?_⟩, hleft.dataSize, ?_⟩
  · rw [nkRead_eq ho hp hn, nkRead_eq ho' hp hn, min_eq_left hle, min_eq_left (by omega)]
    exact congrArg some (bytes_congr fun x h1 h2 => hbyte x (by omega) (by omega))
  · rw [nkRead_eq ho' hp hn]
    exact congrArg some (bytes_congr fun x h1 _ => hzero x (by omega))
  · intro w hw ho x p h1 h2 hp
    obtain ⟨i, hi⟩ := List.mem_iff_getElem?.mp hw
    have hok := hgood.windows.each i w hi
    have hlt : x < s.file.na.dataSize := h2.trans_le hok.live_size
    have h0 : 0 ≤ x := hok.start_nonneg.trans h1
    have hkeep : m.content v.vol x = s.file.content v.vol x :=
      hm.disturb.keep.eq_of_lt h0 (show x < s.file.tail v.vol by omega) (hlive i w hi ho x h1 h2)
    rw [Ntfs.content_of_phys hp, Ntfs.content_of_phys (hm.phys x p hp)] at hkeep
    exact hkeep

end Step

/-- Runs in which any truncation may fail. -/
def Tries (s : Sys σ) : Event → Reply → Prop
  | .truncate _, _ => True
  | e, r => Rule s e r

instance (s : Sys σ) : ∀ (e : Event) (r : Reply), Decidable (Tries s e r)
  | .truncate _, _ => inferInstanceAs (Decidable True)
  | .mapRead o l b cb, r => inferInstanceAs (Decidable (Rule s (.mapRead o l b cb) r))
  | .mapWrite o l b cb, r => inferInstanceAs (Decidable (Rule s (.mapWrite o l b cb) r))
  | .land i a b data, r => inferInstanceAs (Decidable (Rule s (.land i a b data) r))
  | .complete i, r => inferInstanceAs (Decidable (Rule s (.complete i) r))
  | .abort i, r => inferInstanceAs (Decidable (Rule s (.abort i) r))

/-- Two clusters and a hole behind them, on a volume with no free cluster. -/
def holedFile : NkFile Unit where
  disk _ := 0xAA
  na := ⟨true, false, false, 1536, 0, 0, [⟨0, 4, 2⟩, ⟨2, -1, 1⟩], fun _ => 0⟩
  eng := ()
  mref := 7
  wr := []

/-- The two clusters are in flight and the bytes of the second have landed when the file is to
be cut to `size`, which fails: the volume would have to free clusters. -/
def holedRun (size : ℤ) : Sys Unit := execAll (Sys.step (fullDisk 512 0) craftedVolume)
  [.mapWrite 0 512 512 fun _ => false, .mapWrite 512 512 512 fun _ => false,
    .land 1 512 1024 fun _ => 1, .truncate size] ⟨holedFile, [], []⟩

theorem holedFile_sound : holedFile.Sound craftedVolume.vol := by
  refine ⟨⟨⟨by decide, fun x y p hx hy => ?_⟩, le_rfl, by decide, fun h => by cases h⟩,
    List.nodup_nil, by decide, by decide⟩
  -- the hole places no byte, so both offsets lie in the first run
  have hfirst : ∀ {x p}, Runlist.phys 512 holedFile.na.rl x = some p → p = 4 * 512 + x := by
    intro x p hx
    obtain ⟨e, he, hex⟩ := Runlist.phys_mem hx
    rw [show Runlist.elements holedFile.na.rl = [⟨0, 4, 2⟩, ⟨2, -1, 1⟩] by decide] at he
    obtain ⟨⟨hlcn, -⟩, hq⟩ := RunlistElement.phys_eq_some.mp hex
    rcases List.mem_pair.mp he with rfl | rfl
    · simpa using hq.symm
    · exact absurd hlcn (by decide)
  have h1 := hfirst hx
  have h2 := hfirst hy
  omega

/-- A truncation to the mark fails, and then the map of the hole. -/
theorem failed_map_preserves_contents_at_mark :
    (nkTruncate (fullDisk 512 0) 1024 (holedRun 1024).file).1 = -1 ∧
    (nkBlockmap (fullDisk 512 0) craftedVolume 1024 512 true 512 (fun _ => false)
      (holedRun 1024).file).ret = some (-1) ∧
    (nkBlockmap (fullDisk 512 0) craftedVolume 1024 512 true 512 (fun _ => false)
      (holedRun 1024).file).file.disk 2560 = (holedRun 1024).file.disk 2560 := by
  have hspec : (fullDisk 512 0).Spec craftedVolume.vol := fullDisk_spec (by decide) 0
  have htrunc : (fullDisk 512 0).TruncateKeeps craftedVolume.vol := fun s size _ hne => by
    simp only [fullDisk] at hne ⊢
    split_ifs at hne ⊢
    · exact absurd rfl hne
    · exact ⟨rfl, rfl⟩
  have hrun : Run (Sys.step (fullDisk 512 0) craftedVolume) Attempts ⟨holedFile, [], []⟩
      (holedRun 1024) := Run.of_execAll (by decide +kernel)
  obtain ⟨-, -, hkeep⟩ := failed_map_preserves_contents hspec htrunc (by decide) (fun _ => rfl)
    holedFile_sound hrun 1024 512 512 (fun _ => false) (by decide +kernel)
  have hwin : ∃ w ∈ (holedRun 1024).windows[1]?,
      w.status = .outstanding ∧ w.start ≤ 512 ∧ 512 < w.live := by decide +kernel
  obtain ⟨w, hw, ho, h1, h2⟩ := hwin
  exact ⟨by decide +kernel, by decide +kernel,
    hkeep w (List.mem_of_getElem? hw) ho 512 2560 h1 h2 (by decide +kernel)⟩

/-- The truncation to 512 fails too, but lowers the mark to 512. The map of the hole then zeroes
the landed bytes of the second cluster before it fails. -/
theorem failed_map_zeroes_in_flight :
    Run (Sys.step (fullDisk 512 0) craftedVolume) Tries ⟨holedFile, [], []⟩ (holedRun 512) ∧
    (∃ w ∈ (holedRun 512).windows[1]?, w.status = .outstanding ∧ w.start ≤ 512 ∧ 512 < w.live) ∧
    (holedRun 512).file.phys craftedVolume.vol 512 = some 2560 ∧
    (holedRun 512).file.disk 2560 = 1 ∧
    (nkBlockmap (fullDisk 512 0) craftedVolume 1024 512 true 512 (fun _ => false)
      (holedRun 512).file).ret = some (-1) ∧
    (nkBlockmap (fullDisk 512 0) craftedVolume 1024 512 true 512 (fun _ => false)
      (holedRun 512).file).file.disk 2560 = 0 := by
  refine ⟨Run.of_execAll (by decide +kernel), by decide +kernel, by decide +kernel,
    by decide +kernel, by decide +kernel, by decide +kernel⟩

end NtfsKit
