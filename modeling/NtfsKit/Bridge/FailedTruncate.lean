import NtfsKit.Bridge.EndSpec
import NtfsKit.Bridge.RawWrites

/-! Truncations that fail. `nk_truncate` clamps the tracked mark to the new size on every path
past the lookup of the file, also when the attribute could not be opened or was not truncated.
A mark above the new size is then lowered although the windows below it are still in flight,
and the next map or completion zeroes into them. -/

namespace NtfsKit

variable {σ : Type}

/-! ### What a truncation did -/

/-- A truncation ends at the lookup of the file, or clamps the mark of a file that it opened
and perhaps truncated. -/
theorem nkTruncate_cases (vol : NtfsVolume) (L : Libntfs σ) (size : ℤ) (f : NkFile σ) :
    ((L.pathnameToInode f.eng).1 = false ∧ (nkTruncate L size f).1 = -1 ∧
      SameFile f (nkTruncate L size f).2) ∨
    ((L.pathnameToInode f.eng).1 = true ∧ ∃ g : NkFile σ, Opened vol f g ∧ g.wr = f.wr ∧
      (((nkTruncate L size f).1 = -1 ∧ SameFile (clampHwm size g) (nkTruncate L size f).2) ∨
        ((L.attrTruncate g.toNtfs size).1 ≠ 0 → (nkTruncate L size f).1 = -1) ∧
        SameFile (clampHwm size (g.lib fun s => L.attrTruncate s size).2)
          (nkTruncate L size f).2)) := by
  have hao : Opened vol f ((f.libEng L.pathnameToInode).2.attrOpen L).2 :=
    (sameFile_libEng L.pathnameToInode f).opened.trans (attrOpen_opened L _)
  have hlib : (f.libEng L.pathnameToInode).1 = (L.pathnameToInode f.eng).1 := rfl
  unfold nkTruncate
  cases hino : (L.pathnameToInode f.eng).1 with
  | false =>
    simp only [hlib, hino, if_true]
    exact .inl ⟨trivial, trivial, ⟨rfl, rfl, rfl, rfl⟩⟩
  | true =>
    simp only [hlib, hino, Bool.true_eq_false, if_false]
    refine .inr ⟨trivial, _, hao, rfl, ?_⟩
    cases hatt : ((f.libEng L.pathnameToInode).2.attrOpen L).1 with
    | false => exact .inl ⟨by simp, ⟨rfl, rfl, rfl, rfl⟩⟩
    | true =>
      simp only [if_true]
      exact .inr ⟨fun hne => if_pos (.inl hne), ⟨rfl, rfl, rfl, rfl⟩⟩

/-- Clamping changes the entry exactly if it is above the size. -/
theorem clampHwm_entry {size hwm : ℤ} {f : NkFile σ} (h : SwapTable.find f.wr f.mref = some hwm) :
    SwapTable.find (clampHwm size f).wr f.mref = some (min hwm size) := by
  simp only [clampHwm, h]
  split_ifs with hlt
  · rw [show (f.marked size).wr = SwapTable.set f.wr f.mref size from rfl, SwapTable.find_set,
      if_pos rfl, min_eq_right (by omega)]
  · rw [h, min_eq_left (by omega)]

theorem clampHwm_same {size : ℤ} {f : NkFile σ} (h : f.wrHwm ≤ size) : clampHwm size f = f := by
  unfold clampHwm
  cases hw : SwapTable.find f.wr f.mref with
  | none => rfl
  | some hwm =>
    have hf : f.wrHwm = hwm := by simp [NkFile.wrHwm, hw]
    exact if_neg (by omega)

/-! ### The windows in flight -/

/-- The file's entry is the one `f` had, and neither a map nor a completion that follows, with
whatever has landed by then, changes a byte below the mark. -/
structure Undisturbed (L : Libntfs σ) (v : NkVolume) (f g : NkFile σ) : Prop where
  entry : SwapTable.find g.wr g.mref = SwapTable.find f.wr f.mref
  map : ∀ (disk : ℤ → UInt8) (eng : σ) (offset length blocksize : ℤ) (forWrite : Bool)
    (cb : List Extent → Bool) (x : ℤ), 0 ≤ x → x < f.wrHwm →
    (nkBlockmap L v offset length forWrite blocksize cb { g with disk, eng }).file.content v.vol x =
      ({ g with disk, eng } : NkFile σ).content v.vol x
  complete : ∀ (disk : ℤ → UInt8) (eng : σ) (offset length x : ℤ), 0 ≤ x → x < f.wrHwm →
    (nkCompleteWrite L v offset length { g with disk, eng }).2.content v.vol x =
      ({ g with disk, eng } : NkFile σ).content v.vol x

section Undisturbed

variable {L : Libntfs σ} {v : NkVolume} (hL : L.Spec v.vol) (hc : 0 < v.vol.clusterSize)
include hL hc

/-- A file that kept its entry is undisturbed: nothing zeroes below the mark. -/
theorem undisturbed_of_entry {f g : NkFile σ} (hg : g.Sound v.vol)
    (hentry : SwapTable.find g.wr g.mref = SwapTable.find f.wr f.mref) : Undisturbed L v f g := by
  have hhwm : g.wrHwm = f.wrHwm := by simp only [NkFile.wrHwm, hentry]
  have hsound : ∀ (disk : ℤ → UInt8) (eng : σ), ({ g with disk, eng } : NkFile σ).Sound v.vol :=
    fun disk eng => ⟨hg.wf.of_na_eq rfl, hg.distinct, hg.hwm_nonneg, hg.hwm_le⟩
  have hbelow : ∀ x, x < f.wrHwm → x < (g.view v.vol).mark ∧ x < g.tail v.vol := fun x hx => by
    have hle := hg.hwm_le
    have htail : g.na.dataSize ≤ g.tail v.vol := Ntfs.dataSize_le_tail hc
    exact ⟨(hhwm ▸ hx).trans_le (le_max_right _ _), by omega⟩
  refine ⟨hentry, fun disk eng offset length blocksize forWrite cb x h0 hx => ?_,
    fun disk eng offset length x h0 hx => ?_⟩
  · obtain ⟨c, -, hm, -⟩ :=
      nkBlockmap_spec hL hc (hsound disk eng) offset length forWrite blocksize cb
    exact hm.disturb.keep.eq_of_lt h0 (hbelow x hx).2 (hbelow x hx).1
  · obtain ⟨-, hany, -⟩ := nkCompleteWrite_spec hL hc (hsound disk eng) offset length
    rcases hany with h | h
    · exact h.keep.eq_of_lt h0 (hbelow x hx).2 (hbelow x hx).1
    · exact h.keep.eq_of_lt h0 (hbelow x hx).2 (hbelow x hx).1

/-- A failed truncate leaves what is in flight undisturbed exactly if it ended at the lookup of
the file or the mark is not above the size it was asked for. -/
theorem failed_truncate_undisturbed_iff {f : NkFile σ} (hf : f.Sound v.vol) {size : ℤ}
    (hfail : ∀ s, s.Wf v.vol → (L.attrTruncate s size).1 ≠ 0 → (L.attrTruncate s size).2.Wf v.vol)
    (htracked : (SwapTable.find f.wr f.mref).isSome)
    (hsize : (nkTruncate L size f).2.na.dataSize = f.na.dataSize) :
    Undisturbed L v f (nkTruncate L size f).2 ↔
      (L.pathnameToInode f.eng).1 = false ∨ f.wrHwm ≤ size := by
  obtain ⟨hwm, hwm'⟩ := Option.isSome_iff_exists.mp htracked
  have hfw : f.wrHwm = hwm := by simp [NkFile.wrHwm, hwm']
  rcases nkTruncate_cases v.vol L size f with ⟨hino, -, hsame⟩ | ⟨hino, g, hg, hgw, hcase⟩
  · refine ⟨fun _ => .inl hino, fun _ => undisturbed_of_entry hL hc (hsame.sound hf) ?_⟩
    rw [hsame.wr, hsame.mref]
  -- past the lookup: the clamped file `t`
  obtain ⟨t, htwf, htw, htm, hsame⟩ : ∃ t : NkFile σ, t.toNtfs.Wf v.vol ∧ t.wr = f.wr ∧
      t.mref = f.mref ∧ SameFile (clampHwm size t) (nkTruncate L size f).2 := by
    rcases hcase with ⟨-, hsame⟩ | ⟨-, hsame⟩
    · exact ⟨g, (hg.sound hf).wf, hgw, hg.mref, hsame⟩
    · refine ⟨(g.lib fun s => L.attrTruncate s size).2, ?_, hgw, hg.mref, hsame⟩
      by_cases hz : (L.attrTruncate g.toNtfs size).1 = 0
      · exact (hL.attrTruncate_ok _ _ (hg.sound hf).wf hz).wf
      · exact hfail _ (hg.sound hf).wf hz
  have htfind : SwapTable.find t.wr t.mref = some hwm := by rw [htw, htm, hwm']
  have hentry : SwapTable.find (nkTruncate L size f).2.wr (nkTruncate L size f).2.mref =
      some (min hwm size) := by
    rw [hsame.wr, hsame.mref, (clampHwm_na size t).2]
    exact clampHwm_entry htfind
  constructor
  · intro h
    have := h.entry
    rw [hentry, hwm', Option.some.injEq] at this
    omega
  · intro hle
    have hle : f.wrHwm ≤ size := hle.resolve_left (by simp [hino])
    have htw' : t.wrHwm ≤ size := by
      simp only [NkFile.wrHwm, htfind, Option.getD_some]
      omega
    rw [clampHwm_same htw'] at hsame
    have hnn := hf.hwm_nonneg
    have htop := hf.hwm_le
    have hthwm : t.wrHwm = f.wrHwm := by simp only [NkFile.wrHwm, htw, htm]
    have hsound : (nkTruncate L size f).2.Sound v.vol := by
      refine ⟨htwf.of_na_eq hsame.na, by rw [hsame.wr, htw]; exact hf.distinct, ?_, ?_⟩
      · rw [hsame.wrHwm, hthwm]
        exact hnn
      · rw [hsame.wrHwm, hthwm, hsize]
        exact htop
    refine undisturbed_of_entry hL hc hsound ?_
    rw [hsame.wr, hsame.mref, htw, htm]

end Undisturbed

/-- Two clusters, nothing initialized; the first is handed out and its bytes have landed. -/
def landedFile : NkFile Unit where
  disk _ := 0xAA
  na := ⟨true, false, false, 1024, 0, 0, [⟨0, 4, 2⟩], fun _ => 0⟩
  eng := ()
  mref := 7
  wr := [(7, 512)]

theorem landedFile_sound : landedFile.Sound craftedVolume.vol :=
  ⟨⟨.single (by decide) (by decide), le_rfl, by decide, fun h => by cases h⟩,
    List.nodup_singleton 7, by decide, by decide⟩

/-- A failed truncation to the end of the window. -/
theorem failed_truncate_undisturbed_at_mark :
    (nkTruncate (fullDisk 512 0) 512 landedFile).1 = -1 ∧
    Undisturbed (fullDisk 512 0) craftedVolume landedFile
      (nkTruncate (fullDisk 512 0) 512 landedFile).2 := by
  have hspec : (fullDisk 512 0).Spec craftedVolume.vol := fullDisk_spec (by decide) 0
  refine ⟨by decide +kernel, (failed_truncate_undisturbed_iff hspec (by decide) landedFile_sound
    (fun s hs hne => ?_) (by decide) (by decide +kernel)).mpr (.inr (by decide))⟩
  simp only [fullDisk] at hne ⊢
  split_ifs at hne ⊢
  · exact absurd rfl hne
  · exact hs

/-- A failed truncation to 0: the size and the runlist stay, the entry drops to 0, and the map
of the second cluster zeroes the bytes that landed in the first. -/
theorem failed_truncate_lowers_mark :
    (nkTruncate (fullDisk 512 0) 0 landedFile).1 = -1 ∧
    (nkTruncate (fullDisk 512 0) 0 landedFile).2.na.dataSize = landedFile.na.dataSize ∧
    (nkTruncate (fullDisk 512 0) 0 landedFile).2.na.rl = landedFile.na.rl ∧
    SwapTable.find landedFile.wr landedFile.mref = some 512 ∧
    SwapTable.find (nkTruncate (fullDisk 512 0) 0 landedFile).2.wr landedFile.mref = some 0 ∧
    (nkTruncate (fullDisk 512 0) 0 landedFile).2.content craftedVolume.vol 0 = 0xAA ∧
    (nkBlockmap (fullDisk 512 0) craftedVolume 512 512 true 512 (fun _ => false)
      (nkTruncate (fullDisk 512 0) 0 landedFile).2).ret = some 0 ∧
    (nkBlockmap (fullDisk 512 0) craftedVolume 512 512 true 512 (fun _ => false)
      (nkTruncate (fullDisk 512 0) 0 landedFile).2).file.content craftedVolume.vol 0 = 0 := by
  decide +kernel

end NtfsKit
