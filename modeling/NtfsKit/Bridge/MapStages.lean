import NtfsKit.Bridge.Effect

/-! What each stage of `nk_blockmap` does to the file, on its normal path and on
its exits. `Quiet lo f g` is what all of them keep: allocated clusters stay where
they are, bytes below `lo` stay as they are, other bytes stay or become zero, and
`initialized_size` does not move down. -/

namespace NtfsKit

variable {σ : Type} {vol : NtfsVolume}

open Prog

structure Quiet (vol : NtfsVolume) (lo : ℤ) (f g : NkFile σ) : Prop where
  wf : g.toNtfs.Wf vol
  mref : g.mref = f.mref
  wr : g.wr = f.wr
  nonResident : f.na.nonResident = true → g.na.nonResident = true
  rec_le : f.na.recInitializedSize ≤ g.na.recInitializedSize
  phys : ∀ x p, f.phys vol x = some p → g.phys vol x = some p
  keep : ZeroesAbove lo (f.view vol) (g.view vol)

namespace Quiet

variable {lo : ℤ} {f g h : NkFile σ}

theorem refl (hf : f.toNtfs.Wf vol) (lo : ℤ) : Quiet vol lo f f :=
  ⟨hf, rfl, rfl, id, le_rfl, fun _ _ h => h, .refl _ _⟩

theorem trans (h₁ : Quiet vol lo f g) (h₂ : Quiet vol lo g h) : Quiet vol lo f h where
  wf := h₂.wf
  mref := h₂.mref.trans h₁.mref
  wr := h₂.wr.trans h₁.wr
  nonResident hr := h₂.nonResident (h₁.nonResident hr)
  rec_le := h₁.rec_le.trans h₂.rec_le
  phys x p hp := h₂.phys x p (h₁.phys x p hp)
  keep := h₁.keep.trans h₂.keep

theorem wrHwm (h : Quiet vol lo f g) : g.wrHwm = f.wrHwm := by
  simp only [NkFile.wrHwm, h.wr, h.mref]

theorem same (h : Quiet vol lo f g) {k : NkFile σ} (hs : SameFile g k) : Quiet vol lo f k where
  wf := h.wf.of_na_eq hs.na
  mref := hs.mref.trans h.mref
  wr := hs.wr.trans h.wr
  nonResident := by rw [hs.na]; exact h.nonResident
  rec_le := by rw [hs.na]; exact h.rec_le
  phys x p hp := by rw [hs.phys]; exact h.phys x p hp
  keep := by rw [hs.view]; exact h.keep

end Quiet

theorem Quiet.mono {lo lo' : ℤ} {f g : NkFile σ} (h : Quiet vol lo f g) (hle : lo' ≤ lo) :
    Quiet vol lo' f g :=
  { h with keep := h.keep.mono hle }

theorem SameFile.quiet {f g : NkFile σ} (h : SameFile f g) (hf : f.toNtfs.Wf vol) (lo : ℤ) :
    Quiet vol lo f g :=
  (Quiet.refl hf lo).same h

/-- A stage that neither moves `initialized_size` nor leaves the file resident. -/
structure Settled (f g : NkFile σ) : Prop where
  nonResident : g.na.nonResident = true
  init : g.na.initializedSize = f.na.initializedSize
  recInit : g.na.recInitializedSize = f.na.recInitializedSize

/-- A stage that leaves through `goto out` leaves a quiet file and a non-zero `r`;
no stage runs forever. -/
def Left (vol : NtfsVolume) (lo : ℤ) (f : NkFile σ) : Exit → NkFile σ → Prop
  | .out r, g => r ≠ 0 ∧ Quiet vol lo f g
  | .diverge, _ => False

theorem Left.trans {lo : ℤ} {f g : NkFile σ} (h : Quiet vol lo f g) :
    ∀ (e : Exit) (k : NkFile σ), Left vol lo g e k → Left vol lo f e k
  | .out _, _, hk => ⟨hk.1, h.trans hk.2⟩
  | .diverge, _, hk => hk

theorem Left.mono {lo lo' : ℤ} {f : NkFile σ} (hle : lo' ≤ lo) :
    ∀ (e : Exit) (k : NkFile σ), Left vol lo f e k → Left vol lo' f e k
  | .out _, _, hk => ⟨hk.1, hk.2.mono hle⟩
  | .diverge, _, hk => hk

/-- A hole fill that leaves early: the size stays, and the record is not ahead of the copy in
memory. -/
structure LeftFill (vol : NtfsVolume) (lo : ℤ) (f : NkFile σ) (e : Exit) (g : NkFile σ) :
    Prop where
  left : Left vol lo f e g
  dataSize : g.na.dataSize = f.na.dataSize
  rec_init : g.na.recInitializedSize ≤ g.na.initializedSize

/-! ### Zero fills through the library -/

/-- What a zero fill of `[a, b)` leaves behind wherever it stops. -/
structure PartFill (vol : NtfsVolume) (a b : ℤ) (f g : NkFile σ) : Prop where
  wf : g.toNtfs.Wf vol
  kind : SameKind f.toNtfs g.toNtfs
  mref : g.mref = f.mref
  wr : g.wr = f.wr
  dataSize : g.na.dataSize = f.na.dataSize
  init_le : f.na.initializedSize ≤ g.na.initializedSize
  rec_le : f.na.recInitializedSize ≤ g.na.recInitializedSize
  rec_init : g.na.recInitializedSize ≤ g.na.initializedSize
  phys : ∀ x p, f.phys vol x = some p → g.phys vol x = some p
  content : ∀ x, g.content vol x = f.content vol x ∨
    (g.content vol x = 0 ∧ (f.na.initializedSize ≤ x ∨ a ≤ x) ∧ x < b)

theorem tail_eq {f g : NkFile σ} (hk : SameKind f.toNtfs g.toNtfs)
    (hd : g.na.dataSize = f.na.dataSize) : g.tail vol = f.tail vol := by
  simp only [Ntfs.tail, hk.nonResident, hd]

/-- A fill is quiet when it reaches down to `lo` at most, holes apart. -/
theorem PartFill.quiet {a b lo : ℤ} {f g : NkFile σ} (h : PartFill vol a b f g)
    (hlo : ∀ x, a ≤ x → x < b → lo ≤ x ∨ f.content vol x = 0)
    (hi : f.na.initializedSize < a → lo ≤ f.na.initializedSize) : Quiet vol lo f g where
  wf := h.wf
  mref := h.mref
  wr := h.wr
  nonResident hr := h.kind.nonResident.trans hr
  rec_le := h.rec_le
  phys := h.phys
  keep := by
    refine ⟨h.dataSize.ge, (tail_eq h.kind h.dataSize).ge, fun x _ _ => ?_⟩
    rcases h.content x with hc | ⟨hz, hx, hb⟩
    · exact .inl hc
    · by_cases ha : a ≤ x
      · rcases hlo x ha hb with h1 | h1
        · exact .inr ⟨h1, hz⟩
        · exact .inl (hz.trans h1.symm)
      · have := hi (by omega)
        exact .inr ⟨by omega, hz⟩

theorem PartFill.refl {a : ℤ} {f : NkFile σ} (hf : f.toNtfs.Wf vol)
    (hr : f.na.recInitializedSize ≤ f.na.initializedSize) : PartFill vol a a f f :=
  ⟨hf, ⟨rfl, rfl, rfl⟩, rfl, rfl, rfl, le_rfl, le_rfl, hr, fun _ _ h => h, fun _ => .inl rfl⟩

theorem PartFill.trans {a p b : ℤ} {f g h : NkFile σ} (h₁ : PartFill vol a p f g)
    (h₂ : PartFill vol p b g h) (hap : a ≤ p) (hpb : p ≤ b) : PartFill vol a b f h where
  wf := h₂.wf
  kind := ⟨h₂.kind.1.trans h₁.kind.1, h₂.kind.2.trans h₁.kind.2, h₂.kind.3.trans h₁.kind.3⟩
  mref := h₂.mref.trans h₁.mref
  wr := h₂.wr.trans h₁.wr
  dataSize := h₂.dataSize.trans h₁.dataSize
  init_le := h₁.init_le.trans h₂.init_le
  rec_le := h₁.rec_le.trans h₂.rec_le
  rec_init := h₂.rec_init
  phys x q hq := h₂.phys x q (h₁.phys x q hq)
  content x := by
    have hi := h₁.init_le
    rcases h₂.content x with hc | ⟨hz, hx, hb⟩
    · rw [hc]
      rcases h₁.content x with hc | ⟨hz, hx, hp⟩
      · exact .inl hc
      · exact .inr ⟨hz, hx, by omega⟩
    · exact .inr ⟨hz, by omega, hb⟩

theorem PartFill.mono {a p b : ℤ} {f g : NkFile σ} (h : PartFill vol a p f g) (hpb : p ≤ b) :
    PartFill vol a b f g where
  wf := h.wf
  kind := h.kind
  mref := h.mref
  wr := h.wr
  dataSize := h.dataSize
  init_le := h.init_le
  rec_le := h.rec_le
  rec_init := h.rec_init
  phys := h.phys
  content x := (h.content x).imp id fun ⟨hz, hx, hb⟩ => ⟨hz, hx, hb.trans_le hpb⟩

theorem Written.partFill {a n : ℤ} {f g : NkFile σ}
    (h : Written vol f.toNtfs a n zeros g.toNtfs) (hn : 0 ≤ n) (hm : g.mref = f.mref)
    (hw : g.wr = f.wr) (hr : f.na.recInitializedSize ≤ f.na.initializedSize) :
    PartFill vol a (a + n) f g where
  wf := h.wf
  kind := h.kind
  mref := hm
  wr := hw
  dataSize := h.dataSize
  init_le := by rw [h.init]; exact le_max_left _ _
  rec_le := by rw [h.recInit]; split_ifs <;> omega
  rec_init := by rw [h.recInit, h.init]; split_ifs <;> omega
  phys := h.phys
  content x := by
    have hx := h.content x
    split_ifs at hx with h1 h2
    · exact .inr ⟨hx, .inr h1.1, h1.2⟩
    · exact .inr ⟨hx, .inl h2.1, by omega⟩
    · exact .inl hx

theorem PartlyWritten.partFill {a n : ℤ} {f g : NkFile σ}
    (h : PartlyWritten vol f.toNtfs a n zeros g.toNtfs) (hn : 0 ≤ n) (hm : g.mref = f.mref)
    (hw : g.wr = f.wr) (hr : f.na.recInitializedSize ≤ f.na.initializedSize) :
    PartFill vol a (a + n) f g where
  wf := h.wf
  kind := h.kind
  mref := hm
  wr := hw
  dataSize := h.dataSize
  init_le := h.init.ge
  rec_le := h.recInit.ge
  rec_init := by rw [h.recInit, h.init]; exact hr
  phys := h.phys
  content x := by
    rcases h.content x with hx | ⟨h1, h2, hx⟩ | ⟨h1, h2, hx⟩
    · exact .inl hx
    · exact .inr ⟨hx, .inl h1, by omega⟩
    · exact .inr ⟨hx, .inr h1, h2⟩

/-- Two adjacent writes of zeros are one. -/
theorem Written.append {a c n : ℤ} {s t u : Ntfs σ} (h₁ : Written vol s a c zeros t)
    (h₂ : Written vol t (a + c) n zeros u) (hc : 0 ≤ c) (hn : 0 ≤ n) :
    Written vol s a (c + n) zeros u where
  wf := h₂.wf
  kind := ⟨h₂.kind.1.trans h₁.kind.1, h₂.kind.2.trans h₁.kind.2, h₂.kind.3.trans h₁.kind.3⟩
  dataSize := h₂.dataSize.trans h₁.dataSize
  init := by rw [h₂.init, h₁.init]; omega
  recInit := by
    rw [h₂.recInit, h₁.recInit, h₁.init]
    split_ifs <;> omega
  phys x p hp := h₂.phys x p (h₁.phys x p hp)
  backed x h1 h2 := by
    by_cases hx : x < a + c
    · obtain ⟨p, hp⟩ := h₁.backed x h1 hx
      exact ⟨p, h₂.phys x p hp⟩
    · exact h₂.backed x (by omega) (by omega)
  content x := by
    have hi := h₁.init
    rw [h₂.content x, h₁.content x]
    simp only [zeros]
    split_ifs <;> first | rfl | omega

section Stages

variable {L : Libntfs σ} {v : NkVolume} (hL : L.Spec v.vol)
include hL

theorem pwriteZeroed_wp {f : NkFile σ} {p n : ℤ} (hf : f.toNtfs.Wf v.vol)
    (hr : f.na.nonResident = true) (hp : 0 ≤ p) (hn : 0 < n) (hb : p + n ≤ f.na.dataSize) :
    wp (pwriteZeroed L (p, n))
      (fun _ g => Written v.vol f.toNtfs p n zeros g.toNtfs ∧ g.mref = f.mref ∧ g.wr = f.wr)
      (fun e g => e = .out (-1) ∧ PartlyWritten v.vol f.toNtfs p n zeros g.toNtfs ∧
        g.mref = f.mref ∧ g.wr = f.wr) f := by
  unfold pwriteZeroed orFail
  rw [wp_bind, wp_call]
  refine wp_ite (fun h => ?_) (fun h => ?_)
  · exact ⟨rfl, hL.attrPwrite_short _ _ _ _ hf hr hp hn hb h, rfl, rfl⟩
  · exact ⟨hL.attrPwrite_ok _ _ _ _ hf hr hp hn hb (not_not.mp h), rfl, rfl⟩

/-- A zero fill in pieces writes the whole range or stops part way. -/
theorem fillZeros_wp {size : ℤ} (hs : 0 < size) {f : NkFile σ} {a b : ℤ}
    (hf : f.toNtfs.Wf v.vol) (hr : f.na.nonResident = true) (ha : 0 ≤ a) (hab : a < b)
    (hb : b ≤ f.na.dataSize) (hi : f.na.recInitializedSize ≤ f.na.initializedSize) :
    wp (each (pwriteZeroed L) (chunks size a b))
      (fun _ g => Written v.vol f.toNtfs a (b - a) zeros g.toNtfs ∧
        g.mref = f.mref ∧ g.wr = f.wr)
      (fun e g => e = .out (-1) ∧ PartFill v.vol a b f g) f := by
  let inv : ℤ → NkFile σ → Prop := fun p g => PartFill v.vol a p f g ∧ (p = a → g = f) ∧
    (a < p → Written v.vol f.toNtfs a (p - a) zeros g.toNtfs)
  refine wp_mono (wp_chunks hs inv hab.le ⟨.refl hf hi, fun _ => rfl, fun h => by omega⟩ ?_)
    (fun _ g hg => ⟨hg.2.2 hab, hg.1.mref, hg.1.wr⟩) (fun _ _ hx => hx)
  rintro p n g hp hn hpn ⟨hg, hga, hgw⟩
  have hgr : g.na.nonResident = true := hg.kind.nonResident.trans hr
  have hgd := hg.dataSize
  refine wp_mono (pwriteZeroed_wp hL hg.wf hgr (by omega) hn (by omega)) ?_ ?_
  · rintro _ h ⟨hw, hm, hwr⟩
    refine ⟨hg.trans (hw.partFill hn.le hm hwr hg.rec_init) hp (by omega), by omega, fun _ => ?_⟩
    rcases hp.eq_or_lt with rfl | hlt
    · obtain rfl := hga rfl
      rwa [show a + n - a = n by omega]
    · have := hgw hlt
      rw [show p + n - a = (p - a) + n by omega]
      exact this.append (by rwa [show a + (p - a) = p by omega]) (by omega) hn.le
  · rintro e h ⟨he, hw, hm, hwr⟩
    have := hg.trans (hw.partFill hn.le hm hwr hg.rec_init) hp (by omega)
    exact ⟨he, this.mono hpn⟩

/-- Mapping the runlist changes nothing; the list that passes is not bad. -/
theorem mapChecked_wp (f : NkFile σ) :
    wp (mapChecked L v) (fun _ g => SameFile f g ∧ badRunlist v.vol g.na.rl = false)
      (fun e g => e = .out (-1) ∧ SameFile f g) f := by
  have hm := hL.attrMapWholeRunlist f.toNtfs
  have hsame : SameFile f (f.lib L.attrMapWholeRunlist).2 := ⟨hm.1, hm.2, rfl, rfl⟩
  unfold mapChecked orFail
  rw [wp_bind, wp_bind, wp_call]
  refine wp_ite (fun _ => ⟨rfl, hsame⟩) (fun _ => ?_)
  rw [wp_pure, wp_bind, wp_read]
  refine wp_ite (fun _ => ⟨rfl, hsame⟩) (fun h => ⟨hsame, by simpa using h⟩)

theorem makeMappable_wp (hc : 0 < v.vol.clusterSize) {f : NkFile σ} (hf : f.toNtfs.Wf v.vol)
    (lo : ℤ) :
    wp (makeMappable L v) (fun _ g => Quiet v.vol lo f g ∧ Settled f g ∧
      g.na.dataSize = f.na.dataSize) (Left v.vol lo f) f := by
  have hout : Left v.vol lo f (.out (-2)) f := ⟨by decide, .refl hf lo⟩
  unfold makeMappable
  rw [wp_bind, wp_read]
  refine wp_ite (fun _ => hout) (fun _ => wp_ite (fun hr => ?_) (fun hr => wp_ite (fun _ => hout)
    (fun _ => ?_)))
  · exact ⟨.refl hf lo, ⟨hr, rfl, rfl⟩, rfl⟩
  · have hr : f.na.nonResident = false := by simpa using hr
    -- a resident file has no clusters and its bytes end at `data_size`
    have hnone : ∀ x, f.phys v.vol x = none := fun x => by
      simp [Ntfs.phys, Runlist.phys, (hf.resident hr).1, Runlist.elements]
    have htail : f.tail v.vol = f.na.dataSize := by simp [Ntfs.tail, hr]
    rw [wp_bind, wp_call]
    refine wp_ite (fun h => ?_) (fun h => ?_)
    · have hna : (f.lib L.attrForceNonResident).2.na = f.na :=
        hL.attrForceNonResident_fail f.toNtfs hf hr h
      refine ⟨by decide, ⟨hf.of_na_eq hna, rfl, rfl, fun h => hna ▸ h, hna ▸ le_rfl,
        fun x p hp => ?_, ?_⟩⟩
      · rw [hnone x] at hp
        cases hp
      · refine ⟨by simp [NkFile.view, hna], by simp [NkFile.view, Ntfs.tail, hna],
          fun x _ _ => .inl ?_⟩
        have hn : (f.lib L.attrForceNonResident).2.phys v.vol x = none := by
          rw [← hnone x, Ntfs.phys, Ntfs.phys, hna]
        simp only [NkFile.view, Ntfs.content, hn, hnone x, hna]
    · have hcv := hL.attrForceNonResident_ok f.toNtfs hf hr (not_not.mp h)
      refine ⟨⟨hcv.wf, rfl, rfl, fun _ => hcv.nonResident, hcv.recInit.ge, fun x p hp => ?_, ?_⟩,
        ⟨hcv.nonResident, hcv.init, hcv.recInit⟩, hcv.dataSize⟩
      · rw [hnone x] at hp
        cases hp
      · refine ⟨hcv.dataSize.ge, ?_, fun x h0 hx => .inl (hcv.content x h0 (htail ▸ hx))⟩
        change f.tail v.vol ≤ (f.lib L.attrForceNonResident).2.tail v.vol
        rw [htail, ← hcv.dataSize]
        exact Ntfs.dataSize_le_tail hc

theorem growSolid_wp (hc : 0 < v.vol.clusterSize) {f : NkFile σ} (hf : f.toNtfs.Wf v.vol)
    (hr : f.na.nonResident = true) (lo reqEnd : ℤ) (forWrite : Bool) :
    wp (growSolid L forWrite reqEnd) (fun _ g => Quiet v.vol lo f g ∧ Settled f g ∧
      g.na.dataSize = if forWrite then max f.na.dataSize reqEnd else f.na.dataSize)
      (Left v.vol lo f) f := by
  have hgrow : ∀ (size : ℤ) (g : NkFile σ), f.na.dataSize ≤ size → g.mref = f.mref →
      g.wr = f.wr → Grown v.vol f.toNtfs size g.toNtfs → Quiet v.vol lo f g := by
    intro size g hle hm hw hg
    refine ⟨hg.wf, hm, hw, hg.kind.nonResident.trans, hg.recInit.ge, hg.phys,
      ⟨hle.trans hg.dataSize.ge, ?_, fun x h0 hx => .inl (hg.content x h0 hx)⟩⟩
    simp only [NkFile.view, Ntfs.tail, hg.kind.nonResident, hr, if_true, hg.dataSize]
    exact roundUp_mono hc hle
  unfold growSolid orFail
  rw [wp_bind, wp_read]
  refine wp_ite (fun h => ?_) (fun h => ?_)
  · rw [wp_bind, wp_call]
    refine wp_ite (fun hz => ?_) (fun hz => ?_)
    · have hg := hL.attrTruncateSolid_fail f.toNtfs reqEnd hf hr h.2.le hz
      exact ⟨by decide, hgrow _ _ le_rfl rfl rfl hg⟩
    · have hg := hL.attrTruncateSolid_ok f.toNtfs reqEnd hf hr h.2.le (not_not.mp hz)
      refine ⟨hgrow _ _ h.2.le rfl rfl hg, ⟨hg.kind.nonResident.trans hr, hg.init, hg.recInit⟩, ?_⟩
      rw [if_pos h.1]
      exact hg.dataSize.trans (by omega)
  · refine ⟨.refl hf lo, ⟨hr, rfl, rfl⟩, ?_⟩
    cases forWrite
    · rfl
    · simp only [true_and, not_lt] at h
      simp only [if_true]
      omega

/-- The gap zeroing: below the window everything above the mark is zero. -/
theorem zeroBelow_wp (hc : 0 < v.vol.clusterSize) {f : NkFile σ} (hf : f.toNtfs.Wf v.vol)
    (hr : f.na.nonResident = true) {hwm init offset : ℤ}
    (hi : f.na.initializedSize = init) (hrec : f.na.recInitializedSize = init)
    (hoff : offset ≤ f.na.dataSize) :
    wp (zeroBelow L v hwm init offset) (fun _ g => Quiet v.vol (max init hwm) f g ∧
      g.na.nonResident = true ∧ g.na.dataSize = f.na.dataSize ∧
      g.na.initializedSize = (if hwm ≤ init then max init offset else init) ∧
      g.na.recInitializedSize = g.na.initializedSize ∧
      ∀ x, max init hwm ≤ x → x < offset → g.content v.vol x = 0)
      (Left v.vol (max init hwm) f) f := by
  have h0 : 0 ≤ init := hrec ▸ hf.init_nonneg
  unfold zeroBelow
  refine wp_ite (fun hle => ?_) (fun hle => wp_ite (fun hlt => ?_) (fun hlt => ?_))
  · rw [wp_bind]
    by_cases hgap : init < offset
    · refine wp_mono (fillZeros_wp hL (by decide) hf hr h0 hgap hoff (by omega)) ?_ ?_
      · rintro _ g ⟨hw, hm, hwr⟩
        have hq : Quiet v.vol (max init hwm) f g :=
          (hw.partFill (by omega) hm hwr (by omega)).quiet (fun x h1 _ => .inl (by omega))
            (fun h => by omega)
        refine wp_mono (mapChecked_wp hL g) ?_ ?_
        · rintro _ k ⟨hk, _⟩
          refine ⟨hq.same hk, ?_, ?_, ?_, ?_, fun x h1 h2 => ?_⟩
          · rw [hk.na, hw.kind.nonResident, hr]
          · rw [hk.na, hw.dataSize]
          · rw [hk.na, hw.init, if_pos hle, hi]
            omega
          · rw [hk.na, hw.recInit, hw.init, hi]
            split_ifs <;> omega
          · rw [hk.content, hw.content x]
            split_ifs with h3
            · rfl
            · omega
            · omega
        · rintro e k ⟨rfl, hk⟩
          exact ⟨by decide, hq.same hk⟩
      · rintro e g ⟨rfl, hg⟩
        exact ⟨by decide, hg.quiet (fun x h1 _ => .inl (by omega)) (fun h => by omega)⟩
    · rw [chunks_nil (by omega), each, wp_pure]
      refine wp_mono (mapChecked_wp hL f) ?_ ?_
      · rintro _ k ⟨hk, _⟩
        refine ⟨hk.quiet hf _, hk.na ▸ hr, by rw [hk.na], ?_, by rw [hk.na, hi, hrec],
          fun x h1 h2 => by omega⟩
        rw [hk.na, if_pos hle]
        omega
      · rintro e k ⟨rfl, hk⟩
        exact ⟨by decide, hk.quiet hf _⟩
  · obtain ⟨hz, hzero⟩ := zeroRaw_spec hL hc hwm offset hf hr
    have hq : Quiet v.vol (max init hwm) f (zeroRaw L v hwm offset f).2 := by
      refine ⟨hf.of_na_eq hz.na, hz.mref, hz.wr, by rw [hz.na]; exact id, by rw [hz.na],
        fun x p hp => ?_, ?_⟩
      · rw [Ntfs.phys, hz.na]
        exact hp
      · refine ⟨by simp [NkFile.view, hz.na], by simp [NkFile.view, Ntfs.tail, hz.na],
          fun x _ _ => ?_⟩
        exact (hz.content x).imp id fun h => ⟨by have := h.1; omega, h.2.2⟩
    unfold orFail
    rw [wp_bind, wp_call]
    refine wp_ite (fun _ => ⟨by decide, hq⟩) (fun h => ?_)
    refine ⟨hq, by rw [hz.na]; exact hr, by rw [hz.na], by rw [hz.na, if_neg hle]; exact hi,
      by rw [hz.na, hi, hrec], fun x h1 h2 => hzero (not_not.mp h) x (by omega) h2⟩
  · exact ⟨.refl hf _, hr, rfl, by rw [if_neg hle]; exact hi, by rw [hi, hrec],
      fun x h1 h2 => by omega⟩

end Stages

/-! ### The hole fill -/

theorem firstHole_some {csize offset reqEnd s t : ℤ} : ∀ {rl : List RunlistElement},
    firstHole csize offset reqEnd rl = some (s, t) →
      offset ≤ s ∧ s < t ∧ t ≤ reqEnd ∧ ∃ e ∈ rl, e.lcn = lcnHole ∧ e.vcn * csize ≤ s ∧
        t ≤ e.vcn * csize + e.length * csize
  | [], h => by cases h
  | e :: rl, h => by
    simp only [firstHole] at h
    by_cases hov : e.lcn = lcnHole ∧
        (if e.vcn * csize + e.length * csize < reqEnd then e.vcn * csize + e.length * csize
          else reqEnd) > (if e.vcn * csize > offset then e.vcn * csize else offset)
    · rw [if_pos hov] at h
      obtain ⟨rfl, rfl⟩ := Prod.mk.inj (Option.some.inj h)
      obtain ⟨he, hlt⟩ := hov
      refine ⟨?_, hlt, ?_, e, List.mem_cons_self, he, ?_, ?_⟩ <;> split_ifs <;> omega
    · rw [if_neg hov] at h
      obtain ⟨h1, h2, h3, a, ha, h4⟩ := firstHole_some h
      exact ⟨h1, h2, h3, a, List.mem_cons_of_mem _ ha, h4⟩

theorem firstHole_none {csize offset reqEnd : ℤ} : ∀ {rl : List RunlistElement},
    firstHole csize offset reqEnd rl = none → ∀ e ∈ rl, e.lcn = lcnHole → ∀ x, offset ≤ x →
      x < reqEnd → e.vcn * csize ≤ x → e.vcn * csize + e.length * csize ≤ x
  | [], _, _, he, _, _, _, _, _ => by cases he
  | a :: rl, h, e, he, hl, x, h1, h2, h3 => by
    simp only [firstHole] at h
    split_ifs at h with hov
    all_goals rcases List.mem_cons.mp he with rfl | he
    all_goals first | exact firstHole_none h e he hl x h1 h2 h3 | omega

/-- A hole of the window lies in no cluster. -/
theorem firstHole_phys {csize offset reqEnd s t v : ℤ} (hc : 0 < csize) {rl : Runlist}
    (hrl : Contiguous v rl.elements)
    (h : firstHole csize offset reqEnd rl.elements = some (s, t)) {x : ℤ} (h1 : s ≤ x)
    (h2 : x < t) : rl.phys csize x = none := by
  obtain ⟨-, -, -, e, he, hl, h3, h4⟩ := firstHole_some h
  rw [hrl.phys_eq hc he (h3.trans h1) (h2.trans_le h4)]
  exact RunlistElement.phys_hole hl x

/-- The bytes of a range that lie in no cluster. -/
noncomputable def unbacked (vol : NtfsVolume) (offset reqEnd : ℤ) (f : NkFile σ) : Finset ℤ :=
  (Finset.Ico offset reqEnd).filter fun x => f.phys vol x = none

/-- There are at most as many rounds as `fillWindow` allows. -/
theorem unbacked_card_lt_fuel (vol : NtfsVolume) (offset reqEnd : ℤ) (f : NkFile σ) :
    (unbacked vol offset reqEnd f).card < (reqEnd - offset).toNat + 1 := by
  have hle := Finset.card_filter_le (Finset.Ico offset reqEnd) fun x => f.phys vol x = none
  rw [Int.card_Ico] at hle
  exact Nat.lt_succ_of_le hle

/-- The range has fewer bytes in holes once one of them is backed and none lost its
cluster. -/
theorem unbacked_card_lt {offset reqEnd s : ℤ} {f g : NkFile σ} (h1 : offset ≤ s) (h2 : s < reqEnd)
    (hf : f.phys vol s = none) (hg : ∃ p, g.phys vol s = some p)
    (hkeep : ∀ x p, f.phys vol x = some p → ∃ q, g.phys vol x = some q) :
    (unbacked vol offset reqEnd g).card < (unbacked vol offset reqEnd f).card := by
  refine Finset.card_lt_card (Finset.ssubset_iff_of_subset ?_ |>.mpr ⟨s, ?_, ?_⟩)
  · intro x hx
    simp only [unbacked, Finset.mem_filter] at hx ⊢
    refine ⟨hx.1, ?_⟩
    cases hp : f.phys vol x with
    | none => rfl
    | some p =>
      obtain ⟨q, hq⟩ := hkeep x p hp
      rw [hx.2] at hq
      cases hq
  · simp only [unbacked, Finset.mem_filter, Finset.mem_Ico]
    exact ⟨⟨h1, h2⟩, hf⟩
  · simp only [unbacked, Finset.mem_filter, not_and]
    intro _ hn
    obtain ⟨p, hp⟩ := hg
    rw [hn] at hp
    cases hp

/-- What the hole fill keeps, from the file `f` it starts with. -/
structure FillInv (vol : NtfsVolume) (hwm oi : ℤ) (f g : NkFile σ) : Prop where
  quiet : Quiet vol (max oi hwm) f g
  nonResident : g.na.nonResident = true
  dataSize : g.na.dataSize = f.na.dataSize
  init_ge : oi ≤ g.na.initializedSize
  rec_init : g.na.recInitializedSize ≤ g.na.initializedSize

theorem skipInFlight_spec (vol : NtfsVolume) (hwm start : ℤ) (f : NkFile σ) :
    (skipInFlight hwm start f).phys vol = f.phys vol ∧
    (skipInFlight hwm start f).view vol = f.view vol ∧
    (skipInFlight hwm start f).na.nonResident = f.na.nonResident ∧
    f.na.initializedSize ≤ (skipInFlight hwm start f).na.initializedSize ∧
    ((skipInFlight hwm start f).na.initializedSize < start →
      max f.na.initializedSize hwm ≤ (skipInFlight hwm start f).na.initializedSize) := by
  unfold skipInFlight
  split_ifs with h
  · exact ⟨rfl, rfl, rfl, h.1.le, fun _ => by simp [NkFile.setInit]; omega⟩
  · exact ⟨rfl, rfl, rfl, le_rfl, fun _ => by omega⟩

theorem skipInFlight_wf {hwm start : ℤ} {f : NkFile σ} (hf : f.toNtfs.Wf vol) :
    (skipInFlight hwm start f).toNtfs.Wf vol := by
  unfold skipInFlight
  split_ifs
  · exact ⟨hf.rl_ok, hf.init_nonneg, hf.init_le, hf.resident⟩
  · exact hf

theorem skipInFlight_quiet (hwm start lo : ℤ) {f : NkFile σ} (hf : f.toNtfs.Wf vol) :
    Quiet vol lo f (skipInFlight hwm start f) := by
  obtain ⟨hp, hv, hr, -⟩ := skipInFlight_spec vol hwm start f
  refine ⟨skipInFlight_wf hf, ?_, ?_, hr.trans, (congrArg View.init hv).ge, fun x p hx => ?_, ?_⟩
  · unfold skipInFlight
    split_ifs <;> rfl
  · unfold skipInFlight
    split_ifs <;> rfl
  · rw [hp]
    exact hx
  · rw [hv]
    exact .refl _ _

section Holes

variable {L : Libntfs σ} {v : NkVolume} (hL : L.Spec v.vol)
include hL

theorem fillHole_wp {hwm oi start stop : ℤ} {f g : NkFile σ} (hg : FillInv v.vol hwm oi f g)
    (h0 : 0 ≤ start) (hlt : start < stop) (hb : stop ≤ f.na.dataSize)
    (hole : ∀ x, start ≤ x → x < stop → g.phys v.vol x = none) :
    wp (fillHole L v hwm start stop) (fun _ k => FillInv v.vol hwm oi f k ∧
      (∀ x p, g.phys v.vol x = some p → k.phys v.vol x = some p) ∧
      ∀ x, start ≤ x → x < stop → ∃ p, k.phys v.vol x = some p)
      (LeftFill v.vol (max oi hwm) f) g := by
  obtain ⟨hp, hv, hr, hle, hlo⟩ := skipInFlight_spec v.vol hwm start g
  have hq := skipInFlight_quiet hwm start (max oi hwm) hg.quiet.wf
  have hge := hg.init_ge
  have hsize : (skipInFlight hwm start g).na.dataSize = g.na.dataSize :=
    congrArg View.size hv
  have hrec : (skipInFlight hwm start g).na.recInitializedSize = g.na.recInitializedSize :=
    congrArg View.init hv
  have hri := hg.rec_init
  have hds := hg.dataSize
  -- only holes are written, and the zero fill before them starts above the mark
  have hpart : ∀ k, PartFill v.vol start stop (skipInFlight hwm start g) k →
      Quiet v.vol (max oi hwm) f k := fun k hk =>
    (hg.quiet.trans hq).trans (hk.quiet (fun x h1 h2 => .inr (Ntfs.content_of_hole
      (by rw [hp]; exact hole x h1 h2) (hr.trans hg.nonResident))) (fun h => by
        have := hlo h
        omega))
  unfold fillHole
  rw [wp_bind, wp_modify, wp_bind]
  refine wp_mono (fillZeros_wp hL (by decide) (skipInFlight_wf hg.quiet.wf)
    (hr.trans hg.nonResident) h0 hlt (by omega) (by omega)) ?_ ?_
  · rintro _ k ⟨hw, hm, hwr⟩
    have hk := hw.partFill (by omega) hm hwr (by omega)
    rw [show start + (stop - start) = stop by omega] at hk
    refine wp_mono (mapChecked_wp hL k) ?_ ?_
    · rintro _ l ⟨hl, _⟩
      refine ⟨⟨(hpart k hk).same hl, ?_, ?_, ?_, ?_⟩, fun x p hx => ?_, fun x h1 h2 => ?_⟩
      · rw [hl.na, hw.kind.nonResident, hr, hg.nonResident]
      · rw [hl.na, hw.dataSize, hsize, hg.dataSize]
      · rw [hl.na, hw.init]
        omega
      · rw [hl.na]
        exact hk.rec_init
      · rw [hl.phys]
        exact hw.phys x p (by rw [← hx]; exact congrFun hp x)
      · rw [hl.phys]
        exact hw.backed x h1 (by omega)
    · rintro e l ⟨rfl, hl⟩
      refine ⟨⟨by decide, (hpart k hk).same hl⟩, ?_, by rw [hl.na]; exact hk.rec_init⟩
      rw [hl.na, hw.dataSize, hsize, hds]
  · rintro e k ⟨rfl, hk⟩
    exact ⟨⟨by decide, hpart k hk⟩, by rw [hk.dataSize, hsize, hds], hk.rec_init⟩

/-- The loop ends after at most as many rounds as the window has bytes in holes,
and leaves none. -/
theorem fillHoles_wp (hc : 0 < v.vol.clusterSize) {hwm oi offset reqEnd : ℤ} (h0 : 0 ≤ offset)
    {f : NkFile σ} (hb : reqEnd ≤ f.na.dataSize) : ∀ (fuel : ℕ) (g : NkFile σ),
      FillInv v.vol hwm oi f g → (unbacked v.vol offset reqEnd g).card < fuel →
      wp (fillHoles L v hwm offset reqEnd fuel) (fun _ k => FillInv v.vol hwm oi f k ∧
        firstHole v.vol.clusterSize offset reqEnd k.na.rl.elements = none)
        (LeftFill v.vol (max oi hwm) f) g
  | 0, _, _, h => by omega
  | fuel + 1, g, hg, hcard => by
    rw [fillHoles, wp_bind, wp_read]
    cases hh : firstHole v.vol.clusterSize offset reqEnd g.na.rl.elements with
    | none => exact ⟨hg, hh⟩
    | some w =>
      obtain ⟨s, t⟩ := w
      obtain ⟨h1, h2, h3, -⟩ := firstHole_some hh
      have hole : ∀ x, s ≤ x → x < t → g.phys v.vol x = none := fun x hx1 hx2 =>
        firstHole_phys hc hg.quiet.wf.rl_ok.elements hh hx1 hx2
      rw [wp_bind]
      refine wp_mono (fillHole_wp hL hg (by omega) h2 (by omega) hole) ?_ (fun _ _ h => h)
      rintro _ k ⟨hk, hphys, hback⟩
      refine fillHoles_wp hc h0 hb fuel k hk ?_
      have hlt : (unbacked v.vol offset reqEnd k).card < (unbacked v.vol offset reqEnd g).card :=
        unbacked_card_lt h1 (by omega) (hole s le_rfl h2) (hback s le_rfl h2)
          fun x p hx => ⟨p, hphys x p hx⟩
      omega

end Holes

/-! ### The stages put together -/

/-- The file after a successful `stamp_init`. -/
def NkFile.stamped (val : ℤ) (f : NkFile σ) : NkFile σ :=
  { f with na := { f.na with initializedSize := val, recInitializedSize := val } }

theorem stampInit_spec (L : Libntfs σ) (val : ℤ) (f : NkFile σ) :
    ((f.stampInit L val).1 = 0 ∧ SameFile (f.stamped val) (f.stampInit L val).2) ∨
    ((f.stampInit L val).1 = -1 ∧ SameFile f (f.stampInit L val).2) := by
  unfold NkFile.stampInit
  cases h : (f.libEng L.attrLookup).1 with
  | true => exact .inl ⟨by simp [h], by simpa [h] using ⟨rfl, rfl, rfl, rfl⟩⟩
  | false => exact .inr ⟨by simp [h], by simpa [h] using ⟨rfl, rfl, rfl, rfl⟩⟩

/-- Stamping a size between the old one and `data_size` is quiet. -/
theorem Quiet.stamped {lo val : ℤ} {f g : NkFile σ} (h : Quiet vol lo f g)
    (hr : g.na.nonResident = true) (h1 : f.na.recInitializedSize ≤ val) (h0 : 0 ≤ val)
    (h2 : val ≤ g.na.dataSize) : Quiet vol lo f (g.stamped val) where
  wf := ⟨h.wf.rl_ok, h0, h2, fun hn => by
    have : g.na.nonResident = false := hn
    rw [hr] at this
    cases this⟩
  mref := h.mref
  wr := h.wr
  nonResident _ := hr
  rec_le := h1
  phys := h.phys
  keep := ⟨h.keep.size_le, h.keep.tail_le, h.keep.content⟩

section Assembly

variable {L : Libntfs σ} {v : NkVolume} (hL : L.Spec v.vol)
include hL

/-- `initialized_size` after the gap zeroing. -/
def initAfterGap (hwm init offset : ℤ) : ℤ := if hwm ≤ init then max init offset else init

/-- The file after the gap zeroing of a write map. -/
structure GapZeroed (vol : NtfsVolume) (offset reqEnd : ℤ) (f g : NkFile σ) : Prop where
  quiet : Quiet vol (f.view vol).mark f g
  nonResident : g.na.nonResident = true
  dataSize : g.na.dataSize = max f.na.dataSize reqEnd
  init : g.na.initializedSize = initAfterGap f.wrHwm f.na.recInitializedSize offset
  recInit : g.na.recInitializedSize = g.na.initializedSize
  zero : ∀ x, (f.view vol).mark ≤ x → x < offset → g.content vol x = 0

theorem prepare_write_wp (hc : 0 < v.vol.clusterSize) {f : NkFile σ} (hf : f.toNtfs.Wf v.vol)
    (hi : f.na.initializedSize = f.na.recInitializedSize) {offset reqEnd : ℤ}
    (hoff : offset ≤ reqEnd) :
    wp (prepare L v offset reqEnd true)
      (fun hwm g => hwm = f.wrHwm ∧ GapZeroed v.vol offset reqEnd f g)
      (Left v.vol (f.view v.vol).mark f) f := by
  unfold prepare
  rw [wp_bind]
  refine wp_mono (makeMappable_wp hL hc hf _) ?_ (fun _ _ h => h)
  rintro _ g ⟨hg, hgs, hgd⟩
  rw [wp_bind]
  refine wp_mono (growSolid_wp hL hc hg.wf hgs.nonResident _ reqEnd true) ?_ (Left.trans hg)
  rintro _ k ⟨hk, hks, hkd⟩
  have hk' := hg.trans hk
  rw [wp_bind]
  refine wp_mono (mapChecked_wp hL k) ?_ ?_
  · rintro _ l ⟨hl, _⟩
    have hl' := hk'.same hl
    have hinit : l.na.initializedSize = f.na.recInitializedSize := by
      rw [hl.na, hks.init, hgs.init, hi]
    have hrec : l.na.recInitializedSize = f.na.recInitializedSize := by
      rw [hl.na, hks.recInit, hgs.recInit]
    have hsize : l.na.dataSize = max f.na.dataSize reqEnd := by
      rw [hl.na, hkd, hgd]
      rfl
    rw [if_pos rfl]
    unfold zeroGap
    rw [wp_bind, wp_read, wp_bind, hinit, hl'.wrHwm]
    refine wp_mono (zeroBelow_wp hL hc hl'.wf (by rw [hl.na]; exact hks.nonResident) hinit hrec
      (by omega)) ?_ (Left.trans hl')
    rintro _ m ⟨hm, hmr, hmd, hmi, hmrec, hz⟩
    exact ⟨rfl, hl'.trans hm, hmr, hmd.trans hsize, hmi, hmrec, hz⟩
  · rintro e l ⟨rfl, hl⟩
    exact ⟨by decide, hk'.same hl⟩

theorem prepare_read_wp (hc : 0 < v.vol.clusterSize) {f : NkFile σ} (hf : f.toNtfs.Wf v.vol)
    (lo offset reqEnd : ℤ) :
    wp (prepare L v offset reqEnd false) (fun _ g => Quiet v.vol lo f g ∧ Settled f g ∧
      g.na.dataSize = f.na.dataSize) (Left v.vol lo f) f := by
  unfold prepare
  rw [wp_bind]
  refine wp_mono (makeMappable_wp hL hc hf lo) ?_ (fun _ _ h => h)
  rintro _ g ⟨hg, hgs, hgd⟩
  rw [wp_bind]
  refine wp_mono (growSolid_wp hL hc hg.wf hgs.nonResident lo reqEnd false) ?_ (Left.trans hg)
  rintro _ k ⟨hk, hks, hkd⟩
  rw [wp_bind]
  refine wp_mono (mapChecked_wp hL k) ?_ ?_
  · rintro _ l ⟨hl, _⟩
    refine ⟨(hg.trans hk).same hl, ⟨?_, ?_, ?_⟩, ?_⟩
    · rw [hl.na, hks.nonResident]
    · rw [hl.na, hks.init, hgs.init]
    · rw [hl.na, hks.recInit, hgs.recInit]
    · rw [hl.na, hkd, hgd]
      rfl
  · rintro e l ⟨rfl, hl⟩
    exact ⟨by decide, (hg.trans hk).same hl⟩

/-- The hole fill of a write map: no hole is left in the window and
`initialized_size` is back at `oi`. -/
theorem fillWindow_wp (hc : 0 < v.vol.clusterSize) {hwm oi offset reqEnd : ℤ} (h0 : 0 ≤ offset)
    {f : NkFile σ} (hf : f.toNtfs.Wf v.vol) (hr : f.na.nonResident = true)
    (hi : f.na.initializedSize = oi) (hrec : f.na.recInitializedSize = oi)
    (hb : reqEnd ≤ f.na.dataSize) :
    wp (fillWindow L v hwm offset reqEnd oi true) (fun _ g => Quiet v.vol (max oi hwm) f g ∧
      g.na.nonResident = true ∧ g.na.dataSize = f.na.dataSize ∧ g.na.initializedSize = oi ∧
      g.na.recInitializedSize = oi ∧
      firstHole v.vol.clusterSize offset reqEnd g.na.rl.elements = none)
      (LeftFill v.vol (max oi hwm) f) f := by
  have hcard := unbacked_card_lt_fuel v.vol offset reqEnd f
  have hinv : FillInv v.vol hwm oi f f := ⟨.refl hf _, hr, rfl, hi.ge, by omega⟩
  have hle := hf.init_le
  have hnn := hf.init_nonneg
  unfold fillWindow
  rw [if_pos rfl, wp_bind]
  refine wp_mono (fillHoles_wp hL hc h0 hb _ f hinv hcard) ?_ (fun _ _ h => h)
  rintro _ g ⟨hg, hno⟩
  have hgd := hg.dataSize
  have hge := hg.init_ge
  have hrl := hg.quiet.rec_le
  have hri := hg.rec_init
  unfold restoreInit orFail
  rw [wp_bind, wp_read]
  refine wp_ite (fun hgt => ?_) (fun hgt => ?_)
  · rw [wp_bind, wp_call]
    rcases stampInit_spec L oi g with ⟨hz, hs⟩ | ⟨hz, hs⟩
    · rw [if_neg (by simp [hz]), wp_pure]
      have hq := (hg.quiet.stamped hg.nonResident (by omega) (by omega) (by omega)).same hs
      refine ⟨hq, ?_, ?_, ?_, ?_, ?_⟩
      · rw [hs.na]; exact hg.nonResident
      · rw [hs.na]; exact hgd
      · rw [hs.na]; rfl
      · rw [hs.na]; rfl
      · rw [hs.na]; exact hno
    · rw [if_pos (by simp [hz]), wp_exit]
      exact ⟨⟨by decide, hg.quiet.same hs⟩, by rw [hs.na]; exact hgd, by rw [hs.na]; exact hri⟩
  · exact ⟨hg.quiet, hg.nonResident, hgd, by omega, by omega, hno⟩

end Assembly

end NtfsKit
