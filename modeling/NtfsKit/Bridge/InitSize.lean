import NtfsKit.Bridge.Tiling

/-! How far a map for writing may move `initialized_size`. The gap zeroing advances it with
the bytes it has zeroed, and only while nothing is in flight above it. The hole fill pushes it
further, in memory and in the record; both are put back before the call returns, on its normal
path and on every exit. -/

namespace NtfsKit

open Prog

variable {σ : Type} {vol : NtfsVolume}

/-- `initialized_size` is the same in memory and in the record, and lies in `[lo, hi]`; the
bytes it covers from `lo` on are zeros. -/
structure InitIn (vol : NtfsVolume) (lo hi : ℤ) (g : NkFile σ) : Prop where
  same : g.na.initializedSize = g.na.recInitializedSize
  ge : lo ≤ g.na.recInitializedSize
  le : g.na.recInitializedSize ≤ hi
  zero : ∀ x, lo ≤ x → x < g.na.recInitializedSize → g.content vol x = 0

theorem InitIn.start {lo hi : ℤ} {g : NkFile σ} (hm : g.na.initializedSize = lo)
    (hr : g.na.recInitializedSize = lo) (hle : lo ≤ hi) : InitIn vol lo hi g :=
  ⟨by omega, hr.ge, by omega, fun x h1 h2 => by omega⟩

theorem InitIn.of_same {lo hi : ℤ} {f g : NkFile σ} (h : InitIn vol lo hi f) (hs : SameFile f g) :
    InitIn vol lo hi g :=
  ⟨by rw [hs.na]; exact h.same, by rw [hs.na]; exact h.ge, by rw [hs.na]; exact h.le,
    by rw [hs.na, hs.content]; exact h.zero⟩

theorem le_initAfterGap (hwm init offset : ℤ) : init ≤ initAfterGap hwm init offset := by
  unfold initAfterGap
  split_ifs <;> omega

/-- The attribute lookups of `stamp_init` succeed. -/
def Libntfs.LooksUp (L : Libntfs σ) : Prop := ∀ e, (L.attrLookup e).1 = true

theorem stampInit_stamped {L : Libntfs σ} (h : L.LooksUp) (val : ℤ) (f : NkFile σ) :
    SameFile (f.stamped val) (f.stampInit L val).2 := by
  have h0 : (f.stampInit L val).1 = 0 := by simp [NkFile.stampInit, NkFile.libEng, h f.eng]
  rcases stampInit_spec L val f with ⟨-, hs⟩ | ⟨hz, -⟩
  · exact hs
  · rw [h0] at hz
    cases hz

/-- Where the stages before the hole fill may stop. -/
structure Halted (vol : NtfsVolume) (offset reqEnd : ℤ) (f g : NkFile σ) : Prop where
  init : InitIn vol f.na.recInitializedSize
    (initAfterGap f.wrHwm f.na.recInitializedSize offset) g
  dataSize : g.na.dataSize = f.na.dataSize ∨ g.na.dataSize = max f.na.dataSize reqEnd

section Stages

variable {L : Libntfs σ} {v : NkVolume} (hL : L.Spec v.vol)
include hL

/-- The sizes of the attribute. -/
def SameSizes (f g : NkFile σ) : Prop :=
  g.na.initializedSize = f.na.initializedSize ∧
    g.na.recInitializedSize = f.na.recInitializedSize ∧ g.na.dataSize = f.na.dataSize

theorem makeMappable_sizes {f : NkFile σ} (hf : f.toNtfs.Wf v.vol) :
    wp (makeMappable L v) (fun _ _ => True) (fun _ g => SameSizes f g) f := by
  have hself : SameSizes f f := ⟨rfl, rfl, rfl⟩
  unfold makeMappable
  rw [wp_bind, wp_read]
  refine wp_ite (fun _ => hself) (fun _ => wp_ite (fun _ => trivial) (fun hr =>
    wp_ite (fun _ => hself) (fun _ => ?_)))
  rw [wp_bind, wp_call]
  refine wp_ite (fun hne => ?_) (fun _ => trivial)
  have hna : (f.lib L.attrForceNonResident).2.na = f.na :=
    hL.attrForceNonResident_fail f.toNtfs hf (by simpa using hr) hne
  exact ⟨by rw [hna], by rw [hna], by rw [hna]⟩

theorem growSolid_sizes {f : NkFile σ} (hf : f.toNtfs.Wf v.vol) (hr : f.na.nonResident = true)
    (reqEnd : ℤ) :
    wp (growSolid L true reqEnd) (fun _ _ => True) (fun _ g => SameSizes f g) f := by
  unfold growSolid orFail
  rw [wp_bind, wp_read]
  refine wp_ite (fun hgt => ?_) (fun _ => trivial)
  rw [wp_bind, wp_call]
  refine wp_ite (fun hne => ?_) (fun _ => trivial)
  have hg := hL.attrTruncateSolid_fail f.toNtfs reqEnd hf hr (by omega) hne
  exact ⟨hg.init, hg.recInit, hg.dataSize⟩

/-- The zero fill below the window takes `initialized_size` along, piece by piece. -/
theorem fillGap_init {f : NkFile σ} (hf : f.toNtfs.Wf v.vol) (hr : f.na.nonResident = true)
    {init offset : ℤ} (hi : f.na.initializedSize = init) (hrec : f.na.recInitializedSize = init)
    (hlt : init ≤ offset) (hb : offset ≤ f.na.dataSize) :
    wp (each (pwriteZeroed L) (chunks gzSize init offset))
      (fun _ g => InitIn v.vol init offset g ∧ g.na.dataSize = f.na.dataSize)
      (fun _ g => InitIn v.vol init offset g ∧ g.na.dataSize = f.na.dataSize) f := by
  have h0 := hf.init_nonneg
  let inv : ℤ → NkFile σ → Prop := fun p g => (g.toNtfs.Wf v.vol ∧ g.na.nonResident = true) ∧
    g.na.dataSize = f.na.dataSize ∧ InitIn v.vol init p g ∧ g.na.recInitializedSize = p
  refine wp_mono (wp_chunks (by decide) inv hlt ⟨⟨hf, hr⟩, rfl, .start hi hrec le_rfl, hrec⟩ ?_)
    (fun _ g hg => ⟨hg.2.2.1, hg.2.1⟩) fun _ _ h => h
  rintro p n g hp hn hpn ⟨⟨hgw, hgr⟩, hgd, hgin, hgrec⟩
  have hsame := hgin.same
  refine wp_mono (pwriteZeroed_wp hL hgw hgr (by omega) hn (by omega)) ?_ ?_
  · rintro _ k ⟨hk, -, -⟩
    have hki : k.na.initializedSize = p + n := by rw [hk.init]; omega
    have hkr : k.na.recInitializedSize = p + n := by rw [hk.recInit, if_pos (by omega)]
    refine ⟨⟨hk.wf, hk.kind.nonResident.trans hgr⟩, hk.dataSize.trans hgd,
      ⟨by omega, by omega, hkr.le, fun x h1 h2 => ?_⟩, hkr⟩
    rw [hk.content x]
    split_ifs with hx
    · rfl
    · rfl
    · exact hgin.zero x h1 (by omega)
  · rintro _ k ⟨-, hk, -, -⟩
    have hki := hk.init
    have hkr := hk.recInit
    refine ⟨⟨by omega, by omega, by omega, fun x h1 h2 => ?_⟩, hk.dataSize.trans hgd⟩
    rcases hk.content x with hx | ⟨hx, -⟩ | ⟨hx, -⟩
    · rw [hx]
      exact hgin.zero x h1 (by omega)
    · omega
    · omega

theorem zeroBelow_init {f : NkFile σ} (hf : f.toNtfs.Wf v.vol) (hr : f.na.nonResident = true)
    {hwm init offset : ℤ} (hi : f.na.initializedSize = init) (hrec : f.na.recInitializedSize = init)
    (hc : 0 < v.vol.clusterSize) (hb : offset ≤ f.na.dataSize) :
    wp (zeroBelow L v hwm init offset) (fun _ _ => True)
      (fun _ g => InitIn v.vol init (initAfterGap hwm init offset) g ∧
        g.na.dataSize = f.na.dataSize) f := by
  have hle := le_initAfterGap hwm init offset
  unfold zeroBelow
  refine wp_ite (fun hh => ?_) (fun _ => wp_ite (fun _ => ?_) (fun _ => trivial))
  · have hmap : ∀ (g : NkFile σ) (hi : ℤ), InitIn v.vol init hi g → g.na.dataSize = f.na.dataSize →
        wp (mapChecked L v) (fun _ _ => True)
          (fun _ k => InitIn v.vol init hi k ∧ k.na.dataSize = f.na.dataSize) g := fun g hi hg hd =>
      wp_mono (mapChecked_wp hL g) (fun _ _ _ => trivial)
        fun _ k hk => ⟨hg.of_same hk.2, by rw [hk.2.na, hd]⟩
    rw [wp_bind]
    by_cases hlt : init ≤ offset
    · have hmax : initAfterGap hwm init offset = offset := by
        unfold initAfterGap
        rw [if_pos hh]
        omega
      rw [hmax]
      exact wp_mono (fillGap_init hL hf hr hi hrec hlt hb) (fun _ g hg => hmap g _ hg.1 hg.2)
        fun _ _ h => h
    · rw [chunks_nil (by omega)]
      exact hmap f _ (.start hi hrec hle) rfl
  · unfold orFail
    rw [wp_bind, wp_call]
    refine wp_ite (fun _ => ?_) fun _ => trivial
    have hna := (zeroRaw_spec hL hc hwm offset hf hr).1.na
    exact ⟨.start (by rw [hna]; exact hi) (by rw [hna]; exact hrec) hle, by rw [hna]⟩

/-- Wherever the stages before the hole fill stop, `initialized_size` covers bytes that were
initialized before or zeroed by them. -/
theorem prepare_write_init (hc : 0 < v.vol.clusterSize) {f : NkFile σ} (hf : f.toNtfs.Wf v.vol)
    (hi : f.na.initializedSize = f.na.recInitializedSize) {offset reqEnd : ℤ}
    (hoff : offset ≤ reqEnd) :
    wp (prepare L v offset reqEnd true) (fun _ _ => True)
      (fun _ g => Halted v.vol offset reqEnd f g) f := by
  have hle := le_initAfterGap f.wrHwm f.na.recInitializedSize offset
  unfold prepare
  rw [wp_bind]
  refine wp_mono (wp_and (makeMappable_wp hL hc hf 0) (makeMappable_sizes hL hf)) ?_ ?_
  swap
  · rintro _ g ⟨-, h1, h2, h3⟩
    exact ⟨.start (by omega) h2 hle, .inl h3⟩
  rintro _ g ⟨⟨hg, hgs, hgd⟩, -⟩
  have hgi := hgs.init
  have hgrec := hgs.recInit
  rw [wp_bind]
  refine wp_mono (wp_and (growSolid_wp hL hc hg.wf hgs.nonResident 0 reqEnd true)
    (growSolid_sizes hL hg.wf hgs.nonResident reqEnd)) ?_ ?_
  swap
  · rintro _ k ⟨-, h1, h2, h3⟩
    exact ⟨.start (by omega) (by omega) hle, .inl (h3.trans hgd)⟩
  rintro _ k ⟨⟨hk, hks, hkd⟩, -⟩
  have hki := hks.init
  have hkrec := hks.recInit
  have hsize : k.na.dataSize = max f.na.dataSize reqEnd := by
    rw [hkd, hgd]
    rfl
  rw [wp_bind]
  refine wp_mono (mapChecked_wp hL k) ?_ ?_
  swap
  · rintro _ l ⟨-, hl⟩
    exact ⟨.start (by rw [hl.na]; omega) (by rw [hl.na]; omega) hle, .inr (by rw [hl.na, hsize])⟩
  rintro _ l ⟨hl, -⟩
  have hlq := (hg.trans hk).same hl
  have hna := hl.na
  have hli : l.na.initializedSize = f.na.recInitializedSize := by rw [hna]; omega
  have hlrec : l.na.recInitializedSize = f.na.recInitializedSize := by rw [hna]; omega
  rw [← hna] at hsize
  rw [if_pos rfl]
  unfold zeroGap
  rw [wp_bind, wp_read, wp_bind, hli, hlq.wrHwm]
  exact wp_mono (zeroBelow_init hL hlq.wf (by rw [hna]; exact hks.nonResident) hli hlrec hc
    (by omega)) (fun _ _ _ => trivial) fun _ _ h => ⟨h.1, .inr (h.2.trans hsize)⟩

end Stages

/-! ### The whole call -/

section Whole

variable {L : Libntfs σ} {v : NkVolume}

/-- The exit path puts `initialized_size` back to `oi`. -/
theorem blockmapOut_init (hlook : L.LooksUp) {oi : ℤ} (h0 : 0 ≤ oi) (r : ℤ) (es : List Extent)
    {k : NkFile σ} (h1 : oi ≤ k.na.recInitializedSize)
    (h2 : k.na.recInitializedSize ≤ k.na.initializedSize) :
    (blockmapOut L oi r es k).file.na.initializedSize = oi ∧
      (blockmapOut L oi r es k).file.na.recInitializedSize = oi := by
  unfold blockmapOut
  rw [(flush_spec L r _).1.na]
  split_ifs with hc
  · rw [(stampInit_stamped hlook oi k).na]
    exact ⟨rfl, rfl⟩
  · exact ⟨by omega, by omega⟩

/-- The exit path stores nothing. -/
theorem blockmapOut_content (L : Libntfs σ) (oi r : ℤ) (es : List Extent) (k : NkFile σ) :
    (blockmapOut L oi r es k).file.content vol = k.content vol ∧
      (blockmapOut L oi r es k).file.na.dataSize = k.na.dataSize := by
  unfold blockmapOut
  rw [(flush_spec L r _).1.content, (flush_spec L r _).1.na]
  split_ifs
  · rcases stampInit_spec L oi k with ⟨-, hs⟩ | ⟨-, hs⟩
    · rw [hs.content, hs.na]
      exact ⟨rfl, rfl⟩
    · rw [hs.content, hs.na]
      exact ⟨rfl, rfl⟩
  · exact ⟨rfl, rfl⟩

/-- The extent loop and what follows it leave the attribute and the device alone. -/
theorem emitExtents_same (L : Libntfs σ) (v : NkVolume) (offset reqEnd : ℤ) (forWrite : Bool)
    (hwm ie : ℤ) (cb : List Extent → Bool) {oi : ℤ} {k : NkFile σ}
    (h : ¬ (0 ≤ oi ∧ k.na.initializedSize > oi)) :
    (emitExtents L v offset reqEnd forWrite hwm oi ie cb k).file.na = k.na ∧
      (emitExtents L v offset reqEnd forWrite hwm oi ie cb k).file.disk = k.disk := by
  unfold emitExtents
  extract_lets p m
  obtain ⟨hna, hdisk⟩ := handOut_same L reqEnd forWrite hwm p k
  have hout : SameFile m.file (blockmapOut L oi (m.ret.getD 0) m.extents m.file).file :=
    blockmapOut_same L oi _ _ (by rwa [show m.file.na = k.na from hna])
  exact ⟨hout.na.trans hna, hout.disk.trans hdisk⟩

variable (hL : L.Spec v.vol) (hlook : L.LooksUp) (hc : 0 < v.vol.clusterSize)
include hL hlook hc

/-- Wherever a write map stops, it leaves the file as the stages before the hole fill may
leave it; on success with the whole gap initialized. -/
theorem blockmapBody_halted {f : NkFile σ} (hf : f.toNtfs.Wf v.vol)
    (hi : f.na.initializedSize = f.na.recInitializedSize) {offset reqEnd : ℤ} (h0 : 0 ≤ offset)
    (hw : offset < reqEnd) (bs : ℤ) (cb : List Extent → Bool) :
    Halted v.vol offset reqEnd f (blockmapBody L v offset reqEnd true bs cb f).file ∧
    ((blockmapBody L v offset reqEnd true bs cb f).ret = some 0 →
      (blockmapBody L v offset reqEnd true bs cb f).file.na.recInitializedSize =
        initAfterGap f.wrHwm f.na.recInitializedSize offset) := by
  have hle := le_initAfterGap f.wrHwm f.na.recInitializedSize offset
  have hnn := hf.init_nonneg
  have hprep := wp_and (prepare_write_wp hL hc hf hi hw.le) (prepare_write_init hL hc hf hi hw.le)
  unfold blockmapBody
  rcases hp : prepare L v offset reqEnd true f with ⟨e | hwm, g⟩
  · obtain ⟨hleft, hin⟩ := wp_error hprep hp
    cases e with
    | diverge => exact hleft.elim
    | out r =>
      have hsame := blockmapOut_same L (-1) r [] (f := g) (by omega)
      refine ⟨⟨hin.init.of_same hsame, hsame.na ▸ hin.dataSize⟩, fun hret => ?_⟩
      obtain ⟨c, hc, hz⟩ := blockmapOut_ret L (-1) r [] g
      exact absurd (hz (Option.some.inj (hc.symm.trans hret))) hleft.1
  obtain ⟨⟨rfl, hg⟩, -⟩ := wp_ok hprep hp
  have hrec := hg.recInit
  have hoi := hg.init
  have hsize := hg.dataSize
  -- from here on `initialized_size` ends at `oi`, its value after the gap zeroing
  have hdone : ∀ k m : NkFile σ, Quiet v.vol (max g.na.initializedSize f.wrHwm) g k →
      m.na.initializedSize = g.na.initializedSize →
      m.na.recInitializedSize = g.na.initializedSize → m.content v.vol = k.content v.vol →
      m.na.dataSize = g.na.dataSize → Halted v.vol offset reqEnd f m ∧
      m.na.recInitializedSize = initAfterGap f.wrHwm f.na.recInitializedSize offset := by
    intro k m hq h1 h2 hcont hd
    refine ⟨⟨⟨by omega, by omega, by omega, fun x hx1 hx2 => ?_⟩, .inr (hd.trans hsize)⟩, by omega⟩
    have hmark : (f.view v.vol).mark = max f.na.recInitializedSize f.wrHwm := rfl
    have htail : g.na.dataSize ≤ g.tail v.vol := Ntfs.dataSize_le_tail hc
    have hlt : x < offset ∧ f.wrHwm ≤ f.na.recInitializedSize := by
      unfold initAfterGap at hoi
      split_ifs at hoi <;> omega
    rw [hcont]
    exact hq.keep.zero (by omega) (show x < g.tail v.vol by omega) (hg.zero x (by omega) hlt.1)
  have hfill : wp (fillWindow L v f.wrHwm offset reqEnd g.na.initializedSize true) _ _ g :=
    fillWindow_wp hL hc h0 hg.quiet.wf hg.nonResident rfl hrec (by omega)
  simp only [if_true]
  rcases hk : fillWindow L v f.wrHwm offset reqEnd g.na.initializedSize true g with ⟨e | _, k⟩
  · have hleft := wp_error hfill hk
    cases e with
    | diverge => exact hleft.left.elim
    | out r =>
      have hge := hleft.left.2.rec_le
      obtain ⟨h1, h2⟩ := blockmapOut_init hlook (show 0 ≤ g.na.initializedSize by omega) r []
        (show g.na.initializedSize ≤ k.na.recInitializedSize by omega) hleft.rec_init
      obtain ⟨h3, h4⟩ := blockmapOut_content L g.na.initializedSize r [] k
      have hend := hdone k _ hleft.left.2 h1 h2 h3 (h4.trans hleft.dataSize)
      exact ⟨hend.1, fun _ => hend.2⟩
  obtain ⟨hkq, -, hkd, hki, hkrec, -⟩ := wp_ok hfill hk
  obtain ⟨hna, hdisk⟩ := emitExtents_same L v offset reqEnd true f.wrHwm int64Max cb
    (show ¬ (0 ≤ g.na.initializedSize ∧ k.na.initializedSize > g.na.initializedSize) by omega)
  have hend := hdone k
    (emitExtents L v offset reqEnd true f.wrHwm g.na.initializedSize int64Max cb k).file hkq
    (by rw [hna]; exact hki) (by rw [hna]; exact hkrec)
    (by funext x; simp only [Ntfs.content, Ntfs.phys, hna, hdisk]) (by rw [hna]; exact hkd)
  exact ⟨hend.1, fun _ => hend.2⟩

/-- What a write map leaves of the sizes in the record. -/
structure MapLeft (vol : NtfsVolume) (offset reqEnd : ℤ) (f g : NkFile σ) : Prop where
  ge : f.na.recInitializedSize ≤ g.na.recInitializedSize
  le : g.na.recInitializedSize ≤ initAfterGap f.wrHwm f.na.recInitializedSize offset
  zero : ∀ x, f.na.recInitializedSize ≤ x → x < g.na.recInitializedSize → g.content vol x = 0
  dataSize : g.na.dataSize = f.na.dataSize ∨ g.na.dataSize = max f.na.dataSize reqEnd

theorem nkBlockmap_left {f : NkFile σ} (hf : f.toNtfs.Wf v.vol) (offset length blocksize : ℤ)
    (cb : List Extent → Bool) :
    MapLeft v.vol offset (offset + length) f
      (nkBlockmap L v offset length true blocksize cb f).file ∧
    (f.na.initializedSize = f.na.recInitializedSize →
      (nkBlockmap L v offset length true blocksize cb f).file.na.initializedSize =
        (nkBlockmap L v offset length true blocksize cb f).file.na.recInitializedSize) ∧
    ((nkBlockmap L v offset length true blocksize cb f).ret = some 0 →
      (nkBlockmap L v offset length true blocksize cb f).file.na.recInitializedSize =
        initAfterGap f.wrHwm f.na.recInitializedSize offset) := by
  -- a call that ends before the attribute is opened changes nothing
  have hself : MapLeft v.vol offset (offset + length) f f :=
    ⟨le_rfl, le_initAfterGap _ _ _, fun x h1 h2 => by omega, .inl rfl⟩
  have hbad : ∀ r : ℤ, r ≠ 0 → some r = some 0 → ∀ P : Prop, P :=
    fun r hne hr _ => absurd (Option.some.inj hr) hne
  unfold nkBlockmap
  dsimp only
  split_ifs with hwin
  · exact ⟨hself, id, fun h => hbad (-1) (by decide) h _⟩
  · exact ⟨hself, id, fun h => hbad (-2) (by decide) h _⟩
  · exact ⟨⟨hself.ge, hself.le, hself.zero, hself.dataSize⟩, id, fun h => hbad (-1) (by decide) h _⟩
  · exact ⟨⟨hself.ge, hself.le, hself.zero, hself.dataSize⟩, fun _ => rfl,
      fun h => hbad (-1) (by decide) h _⟩
  · have hopen : ((f.libEng L.pathnameToInode).2.attrOpen L).2.toNtfs.Wf v.vol :=
      ⟨hf.rl_ok, hf.init_nonneg, hf.init_le, hf.resident⟩
    obtain ⟨hh, hok⟩ := blockmapBody_halted hL hlook hc hopen rfl (by omega)
      (show offset < offset + length by omega) (blockSize blocksize) cb
    exact ⟨⟨hh.init.ge, hh.init.le, hh.init.zero, hh.dataSize⟩, fun _ => hh.init.same, hok⟩

/-- Mapping for write never declares unwritten bytes initialized. Whatever the call returns,
and wherever the holes of the window lie, `initialized_size` stays where it was while something
is in flight above it, and otherwise covers at most the zeroed gap below the window, all of it
on success; the copy in memory agrees with the record. -/
theorem write_map_keeps_uninitialized {f : NkFile σ} (hf : f.toNtfs.Wf v.vol)
    (hi : f.na.initializedSize = f.na.recInitializedSize) (offset length blocksize : ℤ)
    (cb : List Extent → Bool) :
    (nkBlockmap L v offset length true blocksize cb f).file.na.initializedSize =
      (nkBlockmap L v offset length true blocksize cb f).file.na.recInitializedSize ∧
    (f.wrHwm > f.na.recInitializedSize →
      (nkBlockmap L v offset length true blocksize cb f).file.na.recInitializedSize =
        f.na.recInitializedSize) ∧
    (f.wrHwm ≤ f.na.recInitializedSize → f.na.recInitializedSize ≤
        (nkBlockmap L v offset length true blocksize cb f).file.na.recInitializedSize ∧
      (nkBlockmap L v offset length true blocksize cb f).file.na.recInitializedSize ≤
        max f.na.recInitializedSize offset ∧
      ((nkBlockmap L v offset length true blocksize cb f).ret = some 0 →
        (nkBlockmap L v offset length true blocksize cb f).file.na.recInitializedSize =
          max f.na.recInitializedSize offset)) := by
  obtain ⟨hleft, hsame, hok⟩ := nkBlockmap_left hL hlook hc hf offset length blocksize cb
  have hge := hleft.ge
  have hle := hleft.le
  unfold initAfterGap at hle hok
  refine ⟨hsame hi, fun hlt => ?_, fun hh => ?_⟩
  · rw [if_neg (not_le.mpr hlt)] at hle
    omega
  · rw [if_pos hh] at hle hok
    exact ⟨hge, hle, hok⟩

end Whole

/-- The second window of a file of two stale clusters, the first one in flight. -/
theorem write_map_keeps_uninitialized_in_flight :
    (nkBlockmap (fullDisk 512 0) craftedVolume 512 512 true 512 (fun _ => false)
      (craftedFile 4 512)).ret = some 0 ∧
    (nkBlockmap (fullDisk 512 0) craftedVolume 512 512 true 512 (fun _ => false)
      (craftedFile 4 512)).file.na.recInitializedSize = 0 := by
  have hspec : (fullDisk 512 0).Spec craftedVolume.vol := fullDisk_spec (by decide) 0
  have hf : (craftedFile 4 512).toNtfs.Wf craftedVolume.vol :=
    ⟨.single (by decide) (by decide), le_rfl, by decide, fun h => by cases h⟩
  exact ⟨by decide +kernel, (write_map_keeps_uninitialized hspec (fun _ => rfl) (by decide) hf rfl
    512 512 512 fun _ => false).2.1 (by decide)⟩

end NtfsKit
