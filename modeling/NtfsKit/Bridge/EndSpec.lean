import NtfsKit.Bridge.Complete
import NtfsKit.Bridge.MapSpec

/-! `nk_complete_write`, `nk_abort_write`, `nk_truncate` and `nk_read` on views. The
first two leave the clusters where they are; when they fail, what they did is
still harmless for every window but their own. -/

namespace NtfsKit

variable {σ : Type} {vol : NtfsVolume}

open Prog

/-- A call that moves no cluster and does not change the size. -/
structure Kept (vol : NtfsVolume) (f g : NkFile σ) : Prop where
  sound : g.Sound vol
  mref : g.mref = f.mref
  phys : g.phys vol = f.phys vol
  dataSize : g.na.dataSize = f.na.dataSize

theorem Kept.refl {f : NkFile σ} (hf : f.Sound vol) : Kept vol f f := ⟨hf, rfl, rfl, rfl⟩

theorem Kept.trans {f g h : NkFile σ} (h₁ : Kept vol f g) (h₂ : Kept vol g h) : Kept vol f h :=
  ⟨h₂.sound, h₂.mref.trans h₁.mref, h₂.phys.trans h₁.phys, h₂.dataSize.trans h₁.dataSize⟩

theorem Opened.kept {f g : NkFile σ} (h : Opened vol f g) (hf : f.Sound vol) : Kept vol f g :=
  ⟨h.sound hf, h.mref, h.phys, congrArg View.size h.view⟩

theorem SameFile.kept {f g : NkFile σ} (h : SameFile f g) (hf : f.Sound vol) : Kept vol f g :=
  h.opened.kept hf

/-- Opening the unnamed data attribute of an open inode succeeds. -/
def Libntfs.AttrOpens (L : Libntfs σ) : Prop := ∀ e, (L.attrOpen e).1 = true

/-! ### The table -/

theorem NkFile.view_wrDrop {f : NkFile σ} (hf : SwapTable.Distinct f.wr) :
    f.wrDrop.view vol = { f.view vol with hwm := 0 } := by
  simp only [view, wrHwm, wrDrop, SwapTable.find_swapRemove hf, if_true, Option.getD_none]

theorem NkFile.Sound.wrDrop {f : NkFile σ} (hf : f.Sound vol) : Kept vol f f.wrDrop := by
  have hview : f.wrDrop.view vol = { f.view vol with hwm := 0 } := f.view_wrDrop hf.distinct
  have hwm : f.wrDrop.wrHwm = 0 := congrArg View.hwm hview
  refine ⟨⟨hf.wf.of_na_eq rfl, hf.distinct.swapRemove _, hwm.ge, ?_⟩, rfl, rfl, rfl⟩
  rw [hwm]
  exact hf.wf.init_nonneg.trans hf.wf.init_le

theorem NkFile.Sound.marked {f : NkFile σ} (hf : f.Sound vol) {hwm : ℤ} (h0 : 0 ≤ hwm)
    (hle : hwm ≤ f.na.dataSize) : Kept vol f (f.marked hwm) :=
  ⟨⟨hf.wf.of_na_eq rfl, hf.distinct.set _ _, (f.wrHwm_marked hwm).symm ▸ h0,
    (f.wrHwm_marked hwm).symm ▸ hle⟩, rfl, rfl, rfl⟩

/-! ### Completion -/

section Stages

variable {L : Libntfs σ} {v : NkVolume} (hL : L.Spec v.vol)
include hL

/-- Raw zeroing at or above the mark. -/
theorem zeroRaw_kept (hc : 0 < v.vol.clusterSize) (lo hi : ℤ) {f : NkFile σ}
    (hf : f.Sound v.vol) (hr : f.na.nonResident = true) :
    Kept v.vol f (zeroRaw L v lo hi f).2 ∧
      (zeroRaw L v lo hi f).2.view v.vol =
        { f.view v.vol with content := (zeroRaw L v lo hi f).2.content v.vol } := by
  obtain ⟨hz, -⟩ := zeroRaw_spec hL hc lo hi hf.wf hr
  have hwm : (zeroRaw L v lo hi f).2.wrHwm = f.wrHwm := by
    simp only [NkFile.wrHwm, hz.wr, hz.mref]
  refine ⟨⟨⟨hf.wf.of_na_eq hz.na, hz.wr ▸ hf.distinct, hwm ▸ hf.hwm_nonneg, ?_⟩, hz.mref, ?_, ?_⟩,
    ?_⟩
  · rw [hwm, hz.na]
    exact hf.hwm_le
  · funext x
    simp only [Ntfs.phys, hz.na]
  · rw [hz.na]
  · simp only [NkFile.view, hwm, hz.na, Ntfs.tail]

theorem zeroUnmapped_wp (hc : 0 < v.vol.clusterSize) {f : NkFile σ} (hf : f.Sound v.vol)
    (hi : f.na.initializedSize = f.na.recInitializedSize) {floor offset : ℤ}
    (hfloor : floor = (f.view v.vol).mark) (hoff : offset < f.na.dataSize) :
    wp (zeroUnmapped L v floor offset)
      (fun _ g => Kept v.vol f g ∧ Stalled (f.view v.vol) (g.view v.vol) ∧
        g.na.initializedSize = g.na.recInitializedSize ∧
        g.na.nonResident = f.na.nonResident ∧
        g.na.recInitializedSize = f.na.recInitializedSize ∧ g.wrHwm = f.wrHwm ∧
        g.tail v.vol = f.tail v.vol ∧
        ∀ x, floor ≤ x → x < offset → g.content v.vol x = 0)
      (fun e g => e = .out (-1) ∧ Kept v.vol f g ∧ Stalled (f.view v.vol) (g.view v.vol)) f := by
  have hm := hL.attrMapWholeRunlist f.toNtfs
  have hs : SameFile f (f.lib L.attrMapWholeRunlist).2 := ⟨hm.1, hm.2, rfl, rfl⟩
  have hdist : Stalled (f.view v.vol) (f.view v.vol) := .refl _
  unfold zeroUnmapped orFail
  rw [wp_bind, wp_read]
  refine wp_ite (fun hgap => ?_) (fun hgap => ?_)
  · rw [wp_bind, wp_bind, wp_call]
    refine wp_ite (fun _ => ⟨rfl, hs.kept hf, by rw [hs.view]; exact hdist⟩) (fun _ => ?_)
    rw [wp_pure, wp_bind, wp_call]
    generalize (f.lib L.attrMapWholeRunlist).2 = g at hs
    have hg := hs.kept hf
    have hgr : g.na.nonResident = true := by rw [hs.na]; exact hgap.1
    obtain ⟨hz, hzero⟩ := zeroRaw_spec hL hc floor offset hg.sound.wf hgr
    obtain ⟨hk, hview⟩ := zeroRaw_kept hL hc floor offset hg.sound hgr
    have hd : Stalled (f.view v.vol) ((zeroRaw L v floor offset g).2.view v.vol) := by
      rw [hview, hs.view]
      refine ⟨⟨le_rfl, le_rfl, fun x _ _ => ?_⟩, rfl, rfl, rfl⟩
      rcases hz.content x with h | ⟨h1, _, h2⟩
      · exact .inl (h.trans (congrFun hs.content x))
      · exact .inr ⟨by rw [← hfloor]; exact h1, h2⟩
    refine wp_ite (fun _ => ⟨rfl, hg.trans hk, hd⟩) (fun h0 => ?_)
    refine ⟨hg.trans hk, hd, by rw [hz.na, hs.na, hi], by rw [hz.na, hs.na], by rw [hz.na, hs.na],
      ?_, ?_, hzero (not_not.mp h0)⟩
    · have := congrArg View.hwm hview
      rw [hs.view] at this
      exact this
    · have := congrArg View.tail hview
      rw [hs.view] at this
      exact this
  · refine ⟨.refl hf, hdist, hi, rfl, rfl, rfl, rfl, fun x h1 h2 => ?_⟩
    -- a resident file is initialized up to its end
    rcases hres : f.na.nonResident with _ | _
    · have := (hf.wf.resident hres).2
      have hmark : (f.view v.vol).mark = max f.na.recInitializedSize f.wrHwm := rfl
      omega
    · exact absurd ⟨hres, by omega⟩ hgap

end Stages

theorem stamped_kept {f : NkFile σ} (hf : f.Sound vol) (hr : f.na.nonResident = true) {val : ℤ}
    (h0 : 0 ≤ val) (hle : val ≤ f.na.dataSize) : Kept vol f (f.stamped val) := by
  refine ⟨⟨⟨hf.wf.rl_ok, h0, hle, fun hn => ?_⟩, hf.distinct, hf.hwm_nonneg, hf.hwm_le⟩, rfl, rfl,
    rfl⟩
  rw [show (f.stamped val).na.nonResident = f.na.nonResident from rfl, hr] at hn
  cases hn

/-- `initialized_size` goes to the end of the window; a resident file needs nothing. -/
theorem stampWindow_wp (L : Libntfs σ) {f : NkFile σ} (hf : f.Sound vol)
    (hi : f.na.initializedSize = f.na.recInitializedSize) {target : ℤ} (h0 : 0 ≤ target)
    (hle : target ≤ f.na.dataSize) :
    wp (stampWindow L target)
      (fun _ g => Kept vol f g ∧ g.na.initializedSize = g.na.recInitializedSize ∧
        g.view vol = { f.view vol with init := max f.na.recInitializedSize target })
      (fun e g => e = .out (-1) ∧ SameFile f g) f := by
  unfold stampWindow orFail
  rw [wp_bind, wp_read]
  refine wp_ite (fun h => ?_) (fun h => ?_)
  · rw [wp_bind, wp_call]
    rcases stampInit_spec L target f with ⟨hz, hs⟩ | ⟨hz, hs⟩
    · rw [if_neg (by simp [hz]), wp_pure]
      have hk := stamped_kept hf h.1 h0 hle
      refine ⟨hk.trans (hs.kept hk.sound), ?_, ?_⟩
      · rw [hs.na]
        rfl
      · rw [hs.view, show max f.na.recInitializedSize target = target by omega]
        rfl
    · rw [if_pos (by simp [hz]), wp_exit]
      exact ⟨rfl, hs⟩
  · refine ⟨.refl hf, hi, ?_⟩
    have hmax : max f.na.recInitializedSize target = f.na.recInitializedSize := by
      rcases hr : f.na.nonResident with _ | _
      · have := (hf.wf.resident hr).2
        omega
      · simp only [hr, true_and, not_lt] at h
        omega
    rw [hmax]
    rfl

theorem dropLanded_spec {f : NkFile σ} (hf : f.Sound vol)
    (hi : f.na.initializedSize = f.na.recInitializedSize) :
    Kept vol f (dropLanded f) ∧ (dropLanded f).view vol = { f.view vol with
      hwm := if f.wrHwm ≤ f.na.recInitializedSize then 0 else f.wrHwm } := by
  unfold dropLanded
  rw [hi]
  split_ifs with h
  · exact ⟨hf.wrDrop, f.view_wrDrop hf.distinct⟩
  · exact ⟨.refl hf, rfl⟩

section Stages

variable {L : Libntfs σ} {v : NkVolume} (hL : L.Spec v.vol)
include hL

theorem completeBody_wp (hc : 0 < v.vol.clusterSize) {f : NkFile σ} (hf : f.Sound v.vol)
    (hi : f.na.initializedSize = f.na.recInitializedSize) {offset length : ℤ}
    (h0 : 0 ≤ offset) (hlen : 0 < length) :
    wp (completeBody L v offset length)
      (fun _ g => Kept v.vol f g ∧
        Complete offset (offset + length) (f.view v.vol) (g.view v.vol))
      (fun e g => Kept v.vol f g ∧
        ((e = .out 0 ∧ Complete offset (offset + length) (f.view v.vol) (g.view v.vol)) ∨
        (e = .out (-1) ∧ Stalled (f.view v.vol) (g.view v.vol)))) f := by
  unfold completeBody
  rw [wp_bind, wp_read]
  refine wp_ite (fun hout => ?_) (fun hin => ?_)
  · have hn : ¬ offset < (f.view v.vol).size := not_lt.mpr hout
    refine ⟨.refl hf, .inl ⟨rfl, .refl _ _, rfl, fun h => absurd h hn, ?_, ?_⟩⟩
    · rw [if_neg hn]
    · rw [if_neg (fun h => hn h.1)]
  extract_lets target floor
  have hlt : offset < f.na.dataSize := not_le.mp hin
  have hfloor : floor = (f.view v.vol).mark := by
    simp only [floor, View.mark, NkFile.view, hi]
    split_ifs <;> omega
  have htarget : target = min (offset + length) f.na.dataSize := by
    simp only [target]
    split_ifs <;> omega
  clear_value floor target
  rw [wp_bind]
  refine wp_mono (zeroUnmapped_wp hL hc hf hi hfloor hlt) ?_ ?_
  · rintro _ g ⟨hg, hd, hgi, hgr, hgrec, hgw, hgt, hz⟩
    have hgs := hg.dataSize
    rw [wp_bind]
    refine wp_mono (stampWindow_wp L hg.sound hgi (by omega) (by omega)) ?_ ?_
    · rintro _ k ⟨hk, hki, hkv⟩
      rw [wp_modify]
      obtain ⟨hdk, hdv⟩ := dropLanded_spec hk.sound hki
      have hinit : k.na.recInitializedSize = max f.na.recInitializedSize target := by
        rw [← hgrec]
        exact congrArg View.init hkv
      have hwm : k.wrHwm = f.wrHwm := (congrArg View.hwm hkv).trans hgw
      refine ⟨(hg.trans hk).trans hdk, ?_⟩
      rw [hdv, hwm, hinit, hkv, hgrec]
      refine ⟨⟨hd.keep.size_le, hd.keep.tail_le, hd.keep.content⟩, hgs, fun _ x h1 h2 => ?_, ?_, ?_⟩
      · exact hz x (hfloor ▸ h1) h2
      · rw [if_pos (show offset < (f.view v.vol).size from hlt), htarget]
        rfl
      · simp only [NkFile.view, hlt, true_and]
    · rintro e k ⟨rfl, hk⟩
      refine ⟨hg.trans (hk.kept hg.sound), .inr ⟨rfl, ?_⟩⟩
      rw [hk.view]
      exact hd
  · rintro e g ⟨rfl, hg, hd⟩
    exact ⟨hg, .inr ⟨rfl, hd⟩⟩

/-- What `nk_complete_write` does, and that it does it when it returns 0. -/
theorem nkCompleteWrite_spec (hc : 0 < v.vol.clusterSize) {f : NkFile σ} (hf : f.Sound v.vol)
    (offset length : ℤ) :
    Kept v.vol f (nkCompleteWrite L v offset length f).2 ∧
    (Stalled (f.view v.vol) ((nkCompleteWrite L v offset length f).2.view v.vol) ∨
      Complete offset (offset + length) (f.view v.vol)
        ((nkCompleteWrite L v offset length f).2.view v.vol)) ∧
    ((nkCompleteWrite L v offset length f).1 = 0 → Complete offset (offset + length)
      (f.view v.vol) ((nkCompleteWrite L v offset length f).2.view v.vol)) := by
  have hdist : Stalled (f.view v.vol) (f.view v.vol) := .refl _
  have hfail : ∀ g : NkFile σ, Opened v.vol f g → Kept v.vol f g ∧
      (Stalled (f.view v.vol) (g.view v.vol) ∨
        Complete offset (offset + length) (f.view v.vol) (g.view v.vol)) ∧
      ((-1 : ℤ) = 0 → Complete offset (offset + length) (f.view v.vol) (g.view v.vol)) :=
    fun g ho => ⟨ho.kept hf, .inl (by rw [ho.view]; exact hdist), fun h => absurd h (by decide)⟩
  unfold nkCompleteWrite
  by_cases hbad : badWindow offset length = true
  · rw [if_pos hbad]
    exact hfail f (SameFile.refl f).opened
  rw [if_neg hbad]
  extract_lets i a b
  have hio : Opened v.vol f i.2 := (sameFile_libEng L.pathnameToInode f).opened
  have hao : Opened v.vol f a.2 := hio.trans (attrOpen_opened L i.2)
  by_cases hino : i.1 = false
  · rw [if_pos hino]
    exact hfail i.2 hio
  rw [if_neg hino]
  by_cases hatt : a.1 = false
  · rw [if_pos hatt]
    exact hfail _ (hao.trans (sameFile_libEng L.inodeClose a.2).opened)
  rw [if_neg hatt]
  simp only [badWindow, Bool.or_eq_true, decide_eq_true_eq, not_or, not_lt, not_le] at hbad
  have hbody := completeBody_wp hL hc (hao.sound hf) rfl hbad.1.1 hbad.1.2
  rw [hao.view] at hbody
  obtain ⟨hfl, hfz⟩ := flush_spec L (exitCode b.1) b.2
  rw [hfl.view]
  rcases hb : completeBody L v offset length a.2 with ⟨e | _, g⟩
  · obtain ⟨hk, h⟩ := wp_error hbody hb
    have hbeq : b = (.error e, g) := hb
    rw [hbeq] at hfl hfz ⊢
    refine ⟨((hao.kept hf).trans hk).trans (hfl.kept hk.sound), ?_, fun hz => ?_⟩
    · exact h.elim (fun h => .inr h.2) (fun h => .inl h.2)
    · rcases h with ⟨rfl, h⟩ | ⟨rfl, h⟩
      · exact h
      · have : (-1 : ℤ) = 0 := hfz hz
        omega
  · obtain ⟨hk, h⟩ := wp_ok hbody hb
    have hbeq : b = (.ok (), g) := hb
    rw [hbeq] at hfl hfz ⊢
    exact ⟨((hao.kept hf).trans hk).trans (hfl.kept hk.sound), .inr h, fun _ => h⟩

end Stages

/-! ### Abort -/

theorem abortTop_spec {f : NkFile σ} (hf : f.Sound vol) {offset init : ℤ} (h0 : 0 ≤ offset)
    (hle : offset ≤ f.na.dataSize) : Kept vol f (abortTop offset init f) ∧
      (abortTop offset init f).view vol =
        { f.view vol with hwm := if offset ≤ init then 0 else offset } := by
  have hm := hf.marked h0 hle
  unfold abortTop
  split_ifs with h
  · refine ⟨hm.trans hm.sound.wrDrop, ?_⟩
    rw [NkFile.view_wrDrop hm.sound.distinct, NkFile.view_marked]
  · exact ⟨hm, f.view_marked offset⟩

section Stages

variable {L : Libntfs σ} {v : NkVolume} (hL : L.Spec v.vol)
include hL

/-- The zeroing of a lower window: only its bytes above `initialized_size` change,
and they are zeros when the call returns 0. -/
theorem abortLower_spec (hc : 0 < v.vol.clusterSize) {f : NkFile σ} (hf : f.Sound v.vol)
    (hr : f.na.nonResident = true) (offset stop init : ℤ) :
    Kept v.vol f (abortLower L v offset stop init f).2 ∧
    (∃ c, (abortLower L v offset stop init f).2.view v.vol = { f.view v.vol with content := c }) ∧
    (∀ x, (abortLower L v offset stop init f).2.content v.vol x = f.content v.vol x ∨
      (max offset init ≤ x ∧ x < stop ∧
        (abortLower L v offset stop init f).2.content v.vol x = 0)) ∧
    ((abortLower L v offset stop init f).1 = 0 → ∀ x, max offset init ≤ x → x < stop →
      (abortLower L v offset stop init f).2.content v.vol x = 0) := by
  have hm := hL.attrMapWholeRunlist f.toNtfs
  have hs : SameFile f (f.lib L.attrMapWholeRunlist).2 := ⟨hm.1, hm.2, rfl, rfl⟩
  unfold abortLower
  extract_lets lo m z
  have hlo : lo = max offset init := by
    simp only [lo]
    split_ifs <;> omega
  rw [← hlo]
  by_cases hgap : lo < stop
  · rw [if_pos hgap]
    by_cases hmap : m.1 ≠ 0
    · rw [if_pos hmap]
      exact ⟨hs.kept hf, ⟨_, hs.view⟩, fun x => .inl (congrFun hs.content x), fun h => by
        simp at h⟩
    rw [if_neg hmap]
    have hmr : m.2.na.nonResident = true := hs.na ▸ hr
    have hms : m.2.Sound v.vol := hs.sound hf
    obtain ⟨hz, hzero⟩ := zeroRaw_spec hL hc lo stop hms.wf hmr
    obtain ⟨hk, hview⟩ := zeroRaw_kept hL hc lo stop hms hmr
    rw [show m.2.view v.vol = f.view v.vol from hs.view] at hview
    refine ⟨(hs.kept hf).trans hk, ⟨_, hview⟩, fun x => ?_, fun h0 x h1 h2 => ?_⟩
    · rcases hz.content x with h | h
      · exact .inl (h.trans (congrFun hs.content x))
      · exact .inr h
    · refine hzero ?_ x h1 h2
      by_contra hne
      rw [if_pos hne] at h0
      exact absurd (show (-1 : ℤ) = 0 from h0) (by decide)
  · rw [if_neg hgap]
    exact ⟨.refl hf, ⟨_, rfl⟩, fun x => .inl rfl, fun _ x h1 h2 => by omega⟩

theorem abortBody_spec (hc : 0 < v.vol.clusterSize) {f : NkFile σ} (hf : f.Sound v.vol)
    {offset length : ℤ} (h0 : 0 ≤ offset) :
    Kept v.vol f (abortBody L v offset length f.wrHwm f).2 ∧
    AbortTry offset (offset + length) (f.view v.vol)
      ((abortBody L v offset length f.wrHwm f).2.view v.vol) ∧
    ((abortBody L v offset length f.wrHwm f).1 = 0 → L.AttrOpens →
      Abort offset (offset + length) (f.view v.vol)
        ((abortBody L v offset length f.wrHwm f).2.view v.vol)) := by
  unfold abortBody
  by_cases hlt : offset < f.wrHwm
  · rw [if_pos hlt]
    extract_lets a init
    have hao : Opened v.vol f a.2 := attrOpen_opened L f
    have hkept := hao.kept hf
    have hinit : init = if a.1 then f.na.recInitializedSize else 0 := rfl
    by_cases htop : offset + length ≥ f.wrHwm
    · rw [if_pos htop]
      have hle := hf.hwm_le
      obtain ⟨hk, hview⟩ := abortTop_spec hkept.sound h0 (by have := hkept.dataSize; omega)
      rw [hao.view] at hview
      refine ⟨hkept.trans hk, ?_, fun _ hop => ?_⟩
      · rw [hview]
        exact .top h0 hlt htop (by split_ifs at hinit <;> simp [hinit, NkFile.view])
      · rw [hview, hinit, if_pos (show a.1 = true from hop _)]
        exact .top hlt htop
    · rw [if_neg htop]
      by_cases hop : a.1 = true ∧ a.2.na.nonResident = true
      · rw [if_pos hop]
        rw [if_pos hop.1] at hinit
        obtain ⟨hk, ⟨c, hview⟩, hcont, hzero⟩ := abortLower_spec hL hc hkept.sound hop.2
          offset (offset + length) init
        have hgc := congrArg View.content hview
        change (abortLower L v offset (offset + length) init a.2).2.content v.vol = c at hgc
        have hac : a.2.content v.vol = f.content v.vol := congrArg View.content hao.view
        rw [hgc, hac, hinit] at hcont
        rw [hgc, hinit] at hzero
        rw [hview, hao.view]
        refine ⟨hkept.trans hk, .lower (not_le.mp htop) hcont, fun hz _ =>
          .lower hlt (not_le.mp htop) fun x => ?_⟩
        split_ifs with hx
        · exact hzero (by rw [← hinit]; exact hz) x hx.1 hx.2
        · rcases hcont x with h | h
          · exact h
          · exact absurd ⟨h.1, h.2.1⟩ hx
      · rw [if_neg hop, hao.view]
        refine ⟨hkept, .refl _ _ _, fun _ hopen => ?_⟩
        -- a resident file has nothing to zero: it is initialized up to its end
        have hres : f.na.nonResident = false := by
          by_contra hn
          exact hop ⟨hopen _, show f.na.nonResident = true by simpa using hn⟩
        refine .lower hlt (not_le.mp htop) fun x => ?_
        refine (if_neg ?_).symm
        rintro ⟨h1, h2⟩
        have h3 : f.na.recInitializedSize = f.na.dataSize := (hf.wf.resident hres).2
        have h4 : f.wrHwm ≤ f.na.dataSize := hf.hwm_le
        have h5 : (f.view v.vol).init = f.na.recInitializedSize := rfl
        omega
  · rw [if_neg hlt]
    exact ⟨.refl hf, .refl _ _ _, fun _ _ => .none hlt⟩

/-- What `nk_abort_write` does when it returns 0, and what it can do at all. -/
theorem nkAbortWrite_spec (hc : 0 < v.vol.clusterSize) {f : NkFile σ} (hf : f.Sound v.vol)
    (offset length : ℤ) :
    Kept v.vol f (nkAbortWrite L v offset length f).2 ∧
    AbortTry offset (offset + length) (f.view v.vol)
      ((nkAbortWrite L v offset length f).2.view v.vol) ∧
    ((nkAbortWrite L v offset length f).1 = 0 → L.AttrOpens →
      Abort offset (offset + length) (f.view v.vol)
        ((nkAbortWrite L v offset length f).2.view v.vol)) := by
  have hfail : ∀ g : NkFile σ, SameFile f g → Kept v.vol f g ∧
      AbortTry offset (offset + length) (f.view v.vol) (g.view v.vol) ∧
      ((-1 : ℤ) = 0 → L.AttrOpens →
        Abort offset (offset + length) (f.view v.vol) (g.view v.vol)) :=
    fun g hs => ⟨hs.kept hf, hs.view ▸ .refl _ _ _, fun h => absurd h (by decide)⟩
  unfold nkAbortWrite
  by_cases hbad : badWindow offset length = true
  · rw [if_pos hbad]
    exact hfail f (.refl f)
  rw [if_neg hbad]
  simp only [badWindow, Bool.or_eq_true, decide_eq_true_eq, not_or, not_lt, not_le] at hbad
  extract_lets i r
  have hi : SameFile f i.2 := sameFile_libEng L.pathnameToInode f
  by_cases hino : i.1 = false
  · rw [if_pos hino]
    exact hfail i.2 hi
  rw [if_neg hino]
  have hclose := sameFile_libEng L.inodeClose r.2
  suffices h : Kept v.vol i.2 r.2 ∧
      AbortTry offset (offset + length) (i.2.view v.vol) (r.2.view v.vol) ∧
      (r.1 = 0 → L.AttrOpens →
        Abort offset (offset + length) (i.2.view v.vol) (r.2.view v.vol)) by
    rw [hi.view] at h
    rw [hclose.view]
    exact ⟨((hi.kept hf).trans h.1).trans (hclose.kept h.1.sound), h.2⟩
  cases hw : SwapTable.find i.2.wr i.2.mref with
  | none =>
    have hr : r = (0, i.2) := by simp only [r, hw]
    have hwm : i.2.wrHwm = 0 := by simp [NkFile.wrHwm, hw]
    rw [hr]
    refine ⟨.refl (hi.sound hf), .refl _ _ _, fun _ _ => .none ?_⟩
    change ¬ offset < i.2.wrHwm
    omega
  | some hwm =>
    have hr : r = abortBody L v offset length i.2.wrHwm i.2 := by
      simp only [r, hw, NkFile.wrHwm, Option.getD_some]
    rw [hr]
    exact abortBody_spec hL hc (hi.sound hf) hbad.1.1

end Stages

/-! ### Truncation -/

theorem clampHwm_na (size : ℤ) (f : NkFile σ) : (clampHwm size f).toNtfs = f.toNtfs ∧
    (clampHwm size f).mref = f.mref := by
  unfold clampHwm
  split
  · exact ⟨rfl, rfl⟩
  · split_ifs <;> exact ⟨rfl, rfl⟩

theorem clampHwm_hwm {size : ℤ} (h0 : 0 ≤ size) (f : NkFile σ) :
    (clampHwm size f).wrHwm = min f.wrHwm size := by
  unfold clampHwm
  cases hw : SwapTable.find f.wr f.mref with
  | none =>
    simp only [NkFile.wrHwm, hw, Option.getD_none]
    omega
  | some hwm =>
    have hf : f.wrHwm = hwm := by simp [NkFile.wrHwm, hw]
    simp only
    split_ifs with h
    · rw [f.wrHwm_marked, hf]
      omega
    · rw [hf]
      omega

theorem clampHwm_distinct {size : ℤ} {f : NkFile σ} (hf : SwapTable.Distinct f.wr) :
    SwapTable.Distinct (clampHwm size f).wr := by
  unfold clampHwm
  split
  · exact hf
  · split_ifs
    · exact hf.set _ _
    · exact hf

/-- What a truncation that returned 0 did: open, truncate, clamp, close. -/
theorem nkTruncate_ok (vol : NtfsVolume) {L : Libntfs σ} {f : NkFile σ} {size : ℤ}
    (h0 : (nkTruncate L size f).1 = 0) : ∃ g : NkFile σ, Opened vol f g ∧
      (L.attrTruncate g.toNtfs size).1 = 0 ∧
      SameFile (clampHwm size (g.lib fun s => L.attrTruncate s size).2) (nkTruncate L size f).2 := by
  have hao : Opened vol f ((f.libEng L.pathnameToInode).2.attrOpen L).2 :=
    (sameFile_libEng L.pathnameToInode f).opened.trans (attrOpen_opened L _)
  unfold nkTruncate at h0 ⊢
  cases hino : (f.libEng L.pathnameToInode).1 with
  | false => simp [hino] at h0
  | true =>
    cases hatt : ((f.libEng L.pathnameToInode).2.attrOpen L).1 with
    | false => simp [hino, hatt] at h0
    | true =>
      simp only [hino, hatt, Bool.true_eq_false, if_false, if_true] at h0 ⊢
      refine ⟨_, hao, ?_, ⟨rfl, rfl, rfl, rfl⟩⟩
      by_contra hne
      rw [if_pos (.inl hne)] at h0
      exact absurd h0 (by decide)

/-- The attribute was truncated and the mark clamped: a `Truncate` that keeps the clusters
below the new end. -/
theorem Opened.truncated {L : Libntfs σ} (hL : L.Spec vol) (hc : 0 < vol.clusterSize)
    {f g r : NkFile σ} (hf : f.Sound vol) (hg : Opened vol f g) {size : ℤ}
    (hz : (L.attrTruncate g.toNtfs size).1 = 0)
    (hsame : SameFile (clampHwm size (g.lib fun s => L.attrTruncate s size).2) r) :
    r.Sound vol ∧ r.mref = f.mref ∧ Truncate vol.clusterSize size (f.view vol) (r.view vol) ∧
    ∀ x p, 0 ≤ x → x < f.na.dataSize → x < size → f.phys vol x = some p → r.phys vol x = some p := by
  have hgs := hg.sound hf
  have htr := hL.attrTruncate_ok g.toNtfs size hgs.wf hz
  set t := (g.lib fun s => L.attrTruncate s size).2 with ht
  have htn : t.toNtfs = (L.attrTruncate g.toNtfs size).2 := rfl
  rw [← htn] at htr
  obtain ⟨hna, hmref⟩ := clampHwm_na size t
  have hgw : g.wrHwm = f.wrHwm := congrArg View.hwm hg.view
  have hwm : (clampHwm size t).wrHwm = min f.wrHwm size := by
    rw [clampHwm_hwm htr.size_nonneg, show t.wrHwm = g.wrHwm from rfl, hgw]
  have hview : r.view vol = { t.view vol with hwm := min f.wrHwm size } := by
    rw [hsame.view, NkFile.view, hwm, hna]
    rfl
  have hphys : r.phys vol = t.phys vol := by
    rw [hsame.phys, hna]
  have hsize : g.na.dataSize = f.na.dataSize := congrArg View.size hg.view
  have hinit : g.na.recInitializedSize = f.na.recInitializedSize := congrArg View.init hg.view
  have htail : g.tail vol = f.tail vol := congrArg View.tail hg.view
  have hcont : g.content vol = f.content vol := congrArg View.content hg.view
  have hnn := htr.size_nonneg
  have hwf := htr.wf
  -- a file with uninitialized bytes is not resident
  have hres : f.na.recInitializedSize < f.na.dataSize → g.na.nonResident = true := fun hlt => by
    by_contra hn
    have := (hgs.wf.resident (by simpa using hn)).2
    omega
  refine ⟨hsame.sound ⟨hna ▸ htr.wf, clampHwm_distinct hgs.distinct, ?_, ?_⟩,
    hsame.mref.trans (hmref.trans hg.mref), ?_, fun x p hx0 hx1 hx2 hp => ?_⟩
  · have := hf.hwm_nonneg
    rw [hwm]
    omega
  · rw [hwm, hna, htr.dataSize]
    omega
  · rw [hview]
    refine ⟨htr.size_nonneg, htr.dataSize, rfl, ?_, fun hlt => ?_, ?_, fun x h1 h2 => ?_,
      fun x h1 h2 h3 => ?_, fun hlt x h1 h2 h3 => ?_⟩
    · have := htr.init_le
      rwa [hinit] at this
    · have := htr.init_eq (hres hlt)
      rwa [hinit] at this
    · exact hwf.init_le.trans htr.dataSize.le
    · exact htr.zero x (hsize.trans_le h1) h2
    · exact (htr.keep x h1 (hsize ▸ h2) h3).trans (congrFun hcont x)
    · exact (htr.keepTail (hres hlt) x h1 (htail ▸ h2) h3).2.trans (congrFun hcont x)
  · have hp' : g.phys vol x = some p := by rw [hg.phys]; exact hp
    have hdt : g.na.dataSize ≤ g.tail vol := Ntfs.dataSize_le_tail hc
    have hr : size ≤ roundUp vol.clusterSize size := le_roundUp hc size
    rw [hphys, (htr.keepTail (hgs.wf.nonResident_of_phys hp') x hx0 (by omega) (by omega)).1]
    exact hp'

/-- A truncation that returned 0. -/
theorem nkTruncate_spec {L : Libntfs σ} (hL : L.Spec vol) (hc : 0 < vol.clusterSize)
    {f : NkFile σ} (hf : f.Sound vol) {size : ℤ} (h0 : (nkTruncate L size f).1 = 0) :
    (nkTruncate L size f).2.Sound vol ∧ (nkTruncate L size f).2.mref = f.mref ∧
    Truncate vol.clusterSize size (f.view vol) ((nkTruncate L size f).2.view vol) ∧
    ∀ x p, 0 ≤ x → x < f.na.dataSize → x < size → f.phys vol x = some p →
      (nkTruncate L size f).2.phys vol x = some p := by
  obtain ⟨g, hg, hz, hsame⟩ := nkTruncate_ok vol h0
  exact hg.truncated hL hc hf hz hsame

/-! ### Reading -/

/-- The file opens: its path resolves and its data attribute can be opened. -/
def NkFile.Opens (L : Libntfs σ) (f : NkFile σ) : Prop :=
  (f.libEng L.pathnameToInode).1 = true ∧ ((f.libEng L.pathnameToInode).2.attrOpen L).1 = true

/-- `nk_read` returns the bytes of the view below the file's size, and changes
nothing. -/
theorem nkRead_eq {L : Libntfs σ} {v : NkVolume} {f : NkFile σ} (ho : f.Opens L) {offset count : ℤ}
    (h0 : 0 ≤ offset) (hn : 0 ≤ count) :
    (nkRead L v offset count f).1 =
      some (bytes offset (min (offset + count) f.na.dataSize) (f.view v.vol).byte) := by
  unfold nkRead
  simp only [ho.1, ho.2, Bool.true_eq_false, if_false, if_true, Ntfs.attrPread]
  rw [if_neg (by omega)]
  rfl

end NtfsKit
