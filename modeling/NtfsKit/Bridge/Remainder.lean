import NtfsKit.Bridge.Pieces

/-! Mapping a window piece by piece. The first call of a series does all the work on the file:
what it leaves makes every later call for the rest of the window, in the same direction, change
nothing but the tracked mark. The extents of the series are those of one call with room for all
of them. -/

namespace NtfsKit

open Prog

variable {σ : Type}

/-- A full write up to `stop` advances `initialized_size`, in memory and in the record. -/
structure Advanced (s : Ntfs σ) (stop : ℤ) (t : Ntfs σ) : Prop where
  kind : SameKind s t
  dataSize : t.na.dataSize = s.na.dataSize
  init : t.na.initializedSize = max s.na.initializedSize stop
  recInit : t.na.recInitializedSize =
    if s.na.initializedSize < stop then stop else s.na.recInitializedSize

/-- What calls that succeed do to the kind and the sizes of an attribute, intact or not. -/
structure Libntfs.Accounts (L : Libntfs σ) : Prop where
  attrPwrite : ∀ s pos count buf, s.na.nonResident = true → s.na.compressed = false →
    s.na.encrypted = false → 0 < count → pos + count ≤ s.na.dataSize →
    (L.attrPwrite s pos count buf).1 = count →
    Advanced s (pos + count) (L.attrPwrite s pos count buf).2
  attrTruncateSolid : ∀ s size, s.na.nonResident = true → s.na.dataSize ≤ size →
    (L.attrTruncateSolid s size).1 = 0 → SameKind s (L.attrTruncateSolid s size).2 ∧
    (L.attrTruncateSolid s size).2.na.dataSize = size ∧
    (L.attrTruncateSolid s size).2.na.initializedSize = s.na.initializedSize ∧
    (L.attrTruncateSolid s size).2.na.recInitializedSize = s.na.recInitializedSize
  attrForceNonResident : ∀ s, s.na.nonResident = false → (L.attrForceNonResident s).1 = 0 →
    (L.attrForceNonResident s).2.na.nonResident = true ∧
    (L.attrForceNonResident s).2.na.compressed = s.na.compressed ∧
    (L.attrForceNonResident s).2.na.encrypted = s.na.encrypted ∧
    (L.attrForceNonResident s).2.na.initializedSize = s.na.initializedSize ∧
    (L.attrForceNonResident s).2.na.recInitializedSize = s.na.recInitializedSize
  attrMapWholeRunlist : ∀ s, (L.attrMapWholeRunlist s).2.na = s.na

/-- The calls that a map makes on a file it need not change succeed. -/
structure Libntfs.Steady (L : Libntfs σ) : Prop extends L.Settled where
  pathnameToInode : ∀ e, (L.pathnameToInode e).1 = true
  attrOpen : ∀ e, (L.attrOpen e).1 = true
  attrMapWholeRunlist : ∀ s, (∀ e ∈ s.na.rl.elements.head?, e.vcn = 0) →
    (L.attrMapWholeRunlist s).1 = 0
  realloc : ∀ e, (L.realloc e).1 = true

/-- Two states of one file with the same attribute and the same marks. -/
structure SameAttr (f g : NkFile σ) : Prop where
  na : g.na = f.na
  mref : g.mref = f.mref
  wr : g.wr = f.wr

theorem SameAttr.refl (f : NkFile σ) : SameAttr f f := ⟨rfl, rfl, rfl⟩

theorem SameAttr.trans {f g h : NkFile σ} (h₁ : SameAttr f g) (h₂ : SameAttr g h) :
    SameAttr f h :=
  ⟨h₂.na.trans h₁.na, h₂.mref.trans h₁.mref, h₂.wr.trans h₁.wr⟩

theorem SameFile.attr {f g : NkFile σ} (h : SameFile f g) : SameAttr f g := ⟨h.na, h.mref, h.wr⟩

theorem SameAttr.wrHwm {f g : NkFile σ} (h : SameAttr f g) : g.wrHwm = f.wrHwm := by
  simp only [NkFile.wrHwm, h.wr, h.mref]

/-- The data of `g` are in clusters, as a map of `f` leaves them: not compressed, not encrypted
and, for writing, grown up to the end of the window. -/
structure InClusters (forWrite : Bool) (reqEnd : ℤ) (f g : NkFile σ) : Prop where
  nonResident : g.na.nonResident = true
  compressed : g.na.compressed = false
  encrypted : g.na.encrypted = false
  mref : g.mref = f.mref
  wr : g.wr = f.wr
  size : forWrite = true → reqEnd ≤ g.na.dataSize

theorem InClusters.wrHwm {forWrite : Bool} {reqEnd : ℤ} {f g : NkFile σ}
    (h : InClusters forWrite reqEnd f g) : g.wrHwm = f.wrHwm := by
  simp only [NkFile.wrHwm, h.wr, h.mref]

theorem InClusters.same {forWrite : Bool} {reqEnd : ℤ} {f g k : NkFile σ}
    (h : InClusters forWrite reqEnd f g) (hs : SameAttr g k) : InClusters forWrite reqEnd f k :=
  ⟨by rw [hs.na]; exact h.nonResident, by rw [hs.na]; exact h.compressed,
    by rw [hs.na]; exact h.encrypted, hs.mref.trans h.mref, hs.wr.trans h.wr,
    fun hw => by rw [hs.na]; exact h.size hw⟩

/-- `initialized_size` is the same in memory and in the record. -/
def InStep (g : NkFile σ) : Prop := g.na.initializedSize = g.na.recInitializedSize

theorem InStep.same {g k : NkFile σ} (h : InStep g) (hs : SameAttr g k) : InStep k := by
  unfold InStep at h ⊢
  rwa [hs.na]

/-! ### The first call -/

section Stages

variable {L : Libntfs σ} {v : NkVolume} {forWrite : Bool} {reqEnd : ℤ} {f g : NkFile σ}
  (hA : L.Accounts)
include hA

omit hA in
theorem pwriteZeros_keeps (hM : L.Maps) : ∀ (cs : List (ℤ × ℤ)) (f : NkFile σ),
    SameAttr f (pwriteZeros L cs f).2
  | [], f => .refl f
  | c :: cs, f => by
    have hone : SameAttr f (f.lib fun s => L.pwrite s c.1 c.2 zeros).2 :=
      ⟨hM.pwrite _ _ _ _, rfl, rfl⟩
    simp only [pwriteZeros]
    split_ifs
    · exact hone
    · exact hone.trans (pwriteZeros_keeps hM cs _)

theorem mapChecked_keeps (g : NkFile σ) :
    wp (mapChecked L v) (fun _ k => SameAttr g k) (fun e _ => e.Errs) g := by
  unfold mapChecked
  rw [wp_bind]
  refine wp_mono (orFail_errs _ 0 g) ?_ fun _ _ h => h
  rintro _ k ⟨-, rfl⟩
  rw [wp_bind, wp_read]
  refine wp_ite (fun _ => (by decide : (-1 : ℤ) ≠ 0)) fun _ => ?_
  exact ⟨hA.attrMapWholeRunlist _, rfl, rfl⟩

theorem pwriteZeroed_advances (hg : InClusters forWrite reqEnd f g) {p n : ℤ} (hn : 0 < n)
    (hle : p + n ≤ g.na.dataSize) :
    wp (pwriteZeroed L (p, n)) (fun _ k => InClusters forWrite reqEnd f k ∧
      Advanced g.toNtfs (p + n) k.toNtfs) (fun e _ => e.Errs) g := by
  refine wp_mono (orFail_errs _ n g) ?_ fun _ _ h => h
  rintro _ k ⟨hr, rfl⟩
  have hk := hA.attrPwrite g.toNtfs p n zeros hg.nonResident hg.compressed hg.encrypted hn hle hr
  exact ⟨⟨hk.kind.nonResident.trans hg.nonResident, hk.kind.compressed.trans hg.compressed,
    hk.kind.encrypted.trans hg.encrypted, hg.mref, hg.wr,
    fun hw => (hg.size hw).trans hk.dataSize.ge⟩, hk⟩

/-- A zero fill from `initialized_size` on takes it along. -/
theorem fillFrom_advances (hg : InClusters forWrite reqEnd f g) (hs : InStep g) {size a b : ℤ}
    (hsize : 0 < size) (ha : a = g.na.initializedSize) (hb : b ≤ g.na.dataSize) :
    wp (each (pwriteZeroed L) (chunks size a b)) (fun _ k => InClusters forWrite reqEnd f k ∧ InStep k ∧
      k.na.dataSize = g.na.dataSize ∧ k.na.initializedSize = max a b) (fun e _ => e.Errs) g := by
  rcases le_or_gt a b with hab | hab
  · rw [max_eq_right hab]
    let inv : ℤ → NkFile σ → Prop := fun p k => InClusters forWrite reqEnd f k ∧ InStep k ∧
      k.na.dataSize = g.na.dataSize ∧ k.na.initializedSize = p
    refine wp_chunks hsize inv hab ⟨hg, hs, rfl, ha.symm⟩ ?_
    rintro p n k - hn hpn ⟨hk, hks, hkd, hki⟩
    refine wp_mono (pwriteZeroed_advances hA hk hn (by omega)) ?_ fun _ _ h => h
    rintro _ l ⟨hl, hadv⟩
    have hinit := hadv.init
    have hrec := hadv.recInit
    rw [if_pos (by omega)] at hrec
    exact ⟨hl, show l.na.initializedSize = _ by omega, hadv.dataSize.trans hkd, by omega⟩
  · rw [chunks_nil hab.le, max_eq_left hab.le]
    exact ⟨hg, hs, rfl, ha.symm⟩

theorem makeMappable_plain (hs : InStep f) :
    wp (makeMappable L v) (fun _ g => InClusters false 0 f g ∧ InStep g) (fun e _ => e.Errs) f := by
  have hout : (Exit.out (-2)).Errs := (by decide : (-2 : ℤ) ≠ 0)
  unfold makeMappable
  rw [wp_bind, wp_read]
  refine wp_ite (fun _ => hout) (fun hplain => ?_)
  obtain ⟨hcomp, hencr⟩ : f.na.compressed = false ∧ f.na.encrypted = false := by
    simpa using hplain
  refine wp_ite (fun hr => ⟨⟨hr, hcomp, hencr, rfl, rfl, fun h => by cases h⟩, hs⟩) (fun hr =>
    wp_ite (fun _ => hout) (fun _ => ?_))
  rw [wp_bind, wp_call]
  refine wp_ite (fun _ => hout) (fun h0 => ?_)
  obtain ⟨h1, h2, h3, h4, h5⟩ := hA.attrForceNonResident f.toNtfs (by simpa using hr)
    (not_not.mp h0)
  exact ⟨⟨h1, h2.trans hcomp, h3.trans hencr, rfl, rfl, fun h => by cases h⟩,
    h4.trans (Eq.trans hs h5.symm)⟩

theorem growSolid_plain (hg : InClusters false 0 f g) (hs : InStep g) :
    wp (growSolid L forWrite reqEnd) (fun _ k => InClusters forWrite reqEnd f k ∧ InStep k)
      (fun e _ => e.Errs) g := by
  unfold growSolid
  rw [wp_bind, wp_read]
  refine wp_ite (fun hw => ?_) (fun hw => ⟨⟨hg.nonResident, hg.compressed, hg.encrypted, hg.mref,
    hg.wr, fun h => not_lt.mp fun hlt => hw ⟨h, hlt⟩⟩, hs⟩)
  refine wp_mono (orFail_errs _ 0 g) ?_ fun _ _ h => h
  rintro _ k ⟨hr, rfl⟩
  obtain ⟨hkind, hsize, h1, h2⟩ := hA.attrTruncateSolid g.toNtfs reqEnd hg.nonResident
    (by omega) hr
  exact ⟨⟨hkind.nonResident.trans hg.nonResident, hkind.compressed.trans hg.compressed,
    hkind.encrypted.trans hg.encrypted, hg.mref, hg.wr, fun _ => hsize.ge⟩,
    h1.trans (Eq.trans hs h2.symm)⟩

theorem zeroBelow_plain (hM : L.Maps) (hg : InClusters true reqEnd f g) (hs : InStep g) {offset : ℤ}
    (hw : offset ≤ reqEnd) (hwm : ℤ) :
    wp (zeroBelow L v hwm g.na.initializedSize offset)
      (fun _ k => InClusters true reqEnd f k ∧ InStep k) (fun e _ => e.Errs) g := by
  have hsize := hg.size rfl
  unfold zeroBelow
  refine wp_ite (fun _ => ?_) (fun _ => wp_ite (fun _ => ?_) (fun _ => ⟨hg, hs⟩))
  · rw [wp_bind]
    refine wp_mono (fillFrom_advances hA hg hs (by decide) rfl (by omega)) ?_ fun _ _ h => h
    rintro _ k ⟨hk, hks, -, -⟩
    exact wp_mono (mapChecked_keeps hA k) (fun _ l hl => ⟨hk.same hl, hks.same hl⟩) fun _ _ h => h
  · refine wp_mono (orFail_errs _ 0 g) ?_ fun _ _ h => h
    rintro _ k ⟨-, rfl⟩
    have hraw : SameAttr g (zeroRaw L v hwm offset g).2 := pwriteZeros_keeps hM _ g
    exact ⟨hg.same hraw, hs.same hraw⟩

/-- Everything before the hole fill. -/
theorem prepare_inStep (hM : L.Maps) (hs : InStep f) {offset : ℤ} (hw : offset ≤ reqEnd) :
    wp (prepare L v offset reqEnd forWrite) (fun hwm g => InClusters forWrite reqEnd f g ∧ InStep g ∧
      (forWrite = true → hwm = f.wrHwm)) (fun e _ => e.Errs) f := by
  unfold prepare
  rw [wp_bind]
  refine wp_mono (makeMappable_plain hA hs) ?_ fun _ _ h => h
  rintro _ g ⟨hg, hgs⟩
  rw [wp_bind]
  refine wp_mono (growSolid_plain hA hg hgs) ?_ fun _ _ h => h
  rintro _ k ⟨hk, hks⟩
  rw [wp_bind]
  refine wp_mono (mapChecked_keeps hA k) (fun _ l hl => ?_) fun _ _ h => h
  have hlp := hk.same hl
  refine wp_ite (fun hwrite => ?_) (fun hread => ⟨hlp, hks.same hl, fun h => absurd h hread⟩)
  subst hwrite
  unfold zeroGap
  rw [wp_bind, wp_read, wp_bind]
  refine wp_mono (zeroBelow_plain hA hM hlp (hks.same hl) hw _) ?_ fun _ _ h => h
  rintro _ m ⟨hm, hms⟩
  exact ⟨hm, hms, fun _ => hlp.wrHwm⟩

/-- The hole fill, from `oi` on: whatever it does to `initialized_size` in memory shows. -/
structure Filling (reqEnd oi : ℤ) (f g : NkFile σ) : Prop where
  inClusters : InClusters true reqEnd f g
  init_ge : oi ≤ g.na.initializedSize
  rec_eq : g.na.initializedSize = oi → g.na.recInitializedSize = oi

theorem fillHole_filling {oi hwm start stop : ℤ} (hg : Filling reqEnd oi f g) (hlt : start ≤ stop)
    (hle : stop ≤ reqEnd) :
    wp (fillHole L v hwm start stop) (fun _ k => Filling reqEnd oi f k) (fun e _ => e.Errs) g := by
  have hskip : Filling reqEnd oi f (skipInFlight hwm start g) := by
    unfold skipInFlight
    split_ifs with h
    · have hge := hg.init_ge
      have hp := hg.inClusters
      refine ⟨⟨hp.nonResident, hp.compressed, hp.encrypted, hp.mref, hp.wr, hp.size⟩, ?_, fun h0 => ?_⟩
      · exact (by omega : oi ≤ hwm)
      · exact absurd (show hwm = oi from h0) (by omega)
    · exact hg
  unfold fillHole
  rw [wp_bind, wp_modify, wp_bind]
  refine wp_mono (wp_chunks (by decide) (fun _ => Filling reqEnd oi f) hlt hskip ?_)
    (fun _ k hk => wp_mono (mapChecked_keeps hA k) (fun _ l hl => ?_) fun _ _ h => h) fun _ _ h => h
  · rintro p n k - hn hpn hk
    have hsize := hk.inClusters.size rfl
    have hge := hk.init_ge
    refine wp_mono (pwriteZeroed_advances hA hk.inClusters hn (by omega)) ?_ fun _ _ h => h
    rintro _ l ⟨hl, hadv⟩
    have hinit := hadv.init
    refine ⟨hl, by omega, fun h0 => ?_⟩
    rw [hadv.recInit, if_neg (by omega)]
    exact hk.rec_eq (by omega)
  · exact ⟨hk.inClusters.same hl, by rw [hl.na]; exact hk.init_ge, by rw [hl.na]; exact hk.rec_eq⟩

theorem fillHoles_filling {oi : ℤ} (hwm offset : ℤ) : ∀ (fuel : ℕ) {g : NkFile σ},
    Filling reqEnd oi f g → wp (fillHoles L v hwm offset reqEnd fuel)
      (fun _ k => Filling reqEnd oi f k) (fun _ _ => True) g
  | 0, _, _ => trivial
  | fuel + 1, g, hg => by
    rw [fillHoles, wp_bind, wp_read]
    cases hh : firstHole v.vol.clusterSize offset reqEnd g.na.rl.elements with
    | none => exact hg
    | some w =>
      obtain ⟨s, t⟩ := w
      obtain ⟨-, h2, h3, -⟩ := firstHole_some hh
      rw [wp_bind]
      exact wp_mono (fillHole_filling hA hg h2.le h3)
        (fun _ k hk => fillHoles_filling hwm offset fuel hk) fun _ _ _ => trivial

/-- The hole fill leaves `initialized_size` as it was, in memory and in the record. -/
theorem fillWindow_inStep {hwm offset : ℤ} (hg : InClusters forWrite reqEnd f g) (hs : InStep g) :
    wp (fillWindow L v hwm offset reqEnd (if forWrite then g.na.initializedSize else -1) forWrite)
      (fun _ k => InClusters forWrite reqEnd f k ∧ InStep k ∧
        (forWrite = true → k.na.initializedSize = g.na.initializedSize)) (fun _ _ => True) g := by
  unfold fillWindow
  refine wp_ite (fun hwrite => ?_) (fun hread => ⟨hg, hs, fun h => absurd h hread⟩)
  subst hwrite
  rw [if_pos rfl, wp_bind]
  have hstart : Filling reqEnd g.na.initializedSize f g := ⟨hg, le_rfl, fun _ => hs.symm⟩
  refine wp_mono (fillHoles_filling hA hwm offset _ hstart) (fun _ k hk => ?_) fun _ _ h => h
  have hge := hk.init_ge
  unfold restoreInit
  rw [wp_bind, wp_read]
  refine wp_ite (fun _ => ?_) (fun hn => ?_)
  · refine wp_mono (orFail_errs _ 0 k) ?_ fun _ _ _ => trivial
    rintro _ l ⟨h0, rfl⟩
    rcases stampInit_spec L g.na.initializedSize k with ⟨-, hst⟩ | ⟨h1, -⟩
    · have hp : InClusters true reqEnd f (k.stamped g.na.initializedSize) :=
        ⟨hk.inClusters.nonResident, hk.inClusters.compressed, hk.inClusters.encrypted,
          hk.inClusters.mref, hk.inClusters.wr, hk.inClusters.size⟩
      have hin : InStep (k.stamped g.na.initializedSize) := rfl
      exact ⟨hp.same hst.attr, hin.same hst.attr, fun _ => by rw [hst.na]; rfl⟩
    · rw [h1] at h0
      cases h0
  · have heq : k.na.initializedSize = g.na.initializedSize := by omega
    exact ⟨hk.inClusters, heq.trans (hk.rec_eq heq).symm, fun _ => heq⟩

/-- Where the data of a read window ends is settled: `initialized_size` is at the end of a block
or of the file, or the rest of its block is in flight. -/
structure EndSettled (v : NkVolume) (bs : ℤ) (g : NkFile σ) : Prop where
  nonneg : 0 ≤ g.na.recInitializedSize
  settled : g.na.recInitializedSize % bs = 0 ∨ g.na.dataSize ≤ g.na.recInitializedSize ∨
    v.vol.readOnly = false ∧ g.na.recInitializedSize < g.wrHwm

theorem initEnd_settles {bs : ℤ} (hbs : 0 < bs) (hg : InClusters false reqEnd f g)
    (hs : InStep g) :
    wp (initEnd L v bs false) (fun ie k => InClusters false reqEnd f k ∧ InStep k ∧
      EndSettled v bs k ∧ ie = roundUp bs k.na.recInitializedSize) (fun e _ => e.Errs) g := by
  have hout : ∀ r : ℤ, r ≠ 0 → (Exit.out r).Errs := fun _ h => h
  unfold initEnd
  rw [if_neg (by decide), wp_bind, wp_read]
  extract_lets init up zend
  have hinit : init = g.na.recInitializedSize := hs
  refine wp_ite (fun _ => hout _ (by decide)) (fun h0 => wp_ite (fun hz => ?_) (fun hz => ?_))
  · refine ⟨hg, hs, ⟨by omega, .inl (hinit ▸ hz)⟩, ?_⟩
    rw [← hinit, roundUp_of_dvd hbs (Int.dvd_of_emod_eq_zero hz)]
  have hup : up = roundUp bs init := roundUp_of_emod hbs hz
  have hne : init < up := by
    have := Int.emod_lt_of_pos init hbs
    simp only [up]
    omega
  have hzend : zend = min up g.na.dataSize := by
    simp only [zend]
    split_ifs <;> omega
  clear_value init up zend
  refine wp_ite (fun _ => hout _ (by decide)) (fun hro => wp_ite (fun hpad => ?_) (fun hno => ?_))
  · rw [wp_bind]
    refine wp_mono (fillFrom_advances hA hg hs (by decide) (hinit.trans hs.symm) (by omega)) ?_
      fun _ _ h => h
    rintro _ k ⟨hk, hks, hkd, hki⟩
    rw [wp_bind]
    refine wp_mono (mapChecked_keeps hA k) (fun _ l hl => ?_) fun _ _ h => h
    rw [wp_bind, wp_read, wp_pure]
    have hls := hks.same hl
    have hrec : l.na.recInitializedSize = zend := by
      rw [← hls, hl.na]
      omega
    refine ⟨hk.same hl, hls, ⟨by omega, ?_⟩, by rw [hls]⟩
    rw [hl.na] at hrec ⊢
    rw [hrec, hkd, hzend]
    rcases le_or_gt up g.na.dataSize with hle | hgt
    · rw [min_eq_left hle, hup]
      exact .inl (Int.emod_eq_zero_of_dvd (dvd_roundUp bs init))
    · rw [min_eq_right hgt.le]
      exact .inr (.inl le_rfl)
  · refine ⟨hg, hs, ⟨by omega, .inr ?_⟩, by rw [hinit]⟩
    rw [← hinit]
    by_cases hd : g.na.dataSize ≤ init
    · exact .inl hd
    · have hgt : zend > init := by omega
      refine .inr ⟨?_, ?_⟩
      · simpa [hgt] using hro
      · exact not_le.mp fun h => hno ⟨hgt, h⟩

end Stages

/-- A file that a map of the window need not change. -/
structure Mappable (v : NkVolume) (offset reqEnd bs : ℤ) (forWrite : Bool) (ie : ℤ)
    (k : NkFile σ) : Prop where
  inClusters : InClusters forWrite reqEnd k k
  inStep : InStep k
  ready : Ready v offset reqEnd bs forWrite ie k
  read : forWrite = false → EndSettled v bs k ∧ ie = roundUp bs k.na.recInitializedSize

theorem InClusters.self {forWrite : Bool} {reqEnd : ℤ} {f g : NkFile σ}
    (h : InClusters forWrite reqEnd f g) : InClusters forWrite reqEnd g g :=
  ⟨h.nonResident, h.compressed, h.encrypted, rfl, rfl, h.size⟩

theorem Mappable.of_na {v : NkVolume} {offset reqEnd bs ie : ℤ} {forWrite : Bool}
    {g k : NkFile σ} (h : Mappable v offset reqEnd bs forWrite ie g) (hna : k.na = g.na)
    (hhwm : forWrite = false → k.wrHwm = g.wrHwm) : Mappable v offset reqEnd bs forWrite ie k where
  inClusters := ⟨by rw [hna]; exact h.inClusters.nonResident,
    by rw [hna]; exact h.inClusters.compressed, by rw [hna]; exact h.inClusters.encrypted, rfl, rfl,
    by rw [hna]; exact h.inClusters.size⟩
  inStep := by
    have hs := h.inStep
    unfold InStep at hs ⊢
    rwa [hna]
  ready := ⟨by rw [hna]; exact h.ready.accepted, by rw [hna]; exact h.ready.write, h.ready.read⟩
  read hread := by
    obtain ⟨hset, hie⟩ := h.read hread
    exact ⟨⟨by rw [hna]; exact hset.nonneg, by rw [hna, hhwm hread]; exact hset.settled⟩,
      by rw [hna]; exact hie⟩

theorem Mappable.same {v : NkVolume} {offset reqEnd bs ie : ℤ} {forWrite : Bool} {g k : NkFile σ}
    (h : Mappable v offset reqEnd bs forWrite ie g) (hs : SameAttr g k) :
    Mappable v offset reqEnd bs forWrite ie k :=
  h.of_na hs.na fun _ => hs.wrHwm

/-- `oi` as the extent loop and the exit path see it. -/
def initBefore (forWrite : Bool) (k : NkFile σ) : ℤ :=
  if forWrite then k.na.initializedSize else -1

section First

variable {L : Libntfs σ} {v : NkVolume} {forWrite : Bool} {offset reqEnd : ℤ}
  {cb : List Extent → Bool} (hA : L.Accounts) (hM : L.Maps)
include hA hM

theorem blockmapBody_first {bs : ℤ} (hbs : 0 < bs) (hw : offset ≤ reqEnd) {f : NkFile σ}
    (hs : InStep f) (h : (blockmapBody L v offset reqEnd forWrite bs cb f).ret = some 0) :
    ∃ hwm ie k, Mappable v offset reqEnd bs forWrite ie k ∧ k.wrHwm = f.wrHwm ∧
      (forWrite = true → hwm = f.wrHwm) ∧
      ∀ cb', blockmapBody L v offset reqEnd forWrite bs cb' f =
        emitExtents L v offset reqEnd forWrite hwm (initBefore forWrite k) ie cb' k := by
  have hprep := wp_and (prepare_accepts (v := v) hM offset reqEnd forWrite f)
    (@prepare_inStep σ L v forWrite reqEnd f hA hM hs offset hw)
  unfold blockmapBody at h ⊢
  rcases hp : prepare L v offset reqEnd forWrite f with ⟨e | hwm, g⟩
  · simp only [hp] at h
    exact absurd h (leave_ret (wp_error hprep hp).1.ne_zero _ _)
  simp only [hp] at h
  obtain ⟨hacc, hg, hgs, hhwm⟩ := wp_ok hprep hp
  have hfill := wp_and (fillWindow_accepts hM hwm offset reqEnd
    (if forWrite = true then g.na.initializedSize else -1) forWrite (f := g) hacc)
    (@fillWindow_inStep σ L v forWrite reqEnd f g hA hwm offset hg hgs)
  rcases hk : fillWindow L v hwm offset reqEnd
    (if forWrite = true then g.na.initializedSize else -1) forWrite g with ⟨e | u, k⟩
  · simp only [hk] at h
    have he := wp_error hfill hk
    exact absurd h (leave_ret he.1 _ _)
  simp only [hk] at h
  obtain ⟨⟨hkacc, hno⟩, hkp, hks, hki⟩ := wp_ok hfill hk
  have hie := initEnd_accepts (L := L) hM bs forWrite hkacc
  rcases hl : initEnd L v bs forWrite k with ⟨e | ie, l⟩
  · simp only [hl] at h
    exact absurd h (leave_ret (wp_error hie hl).ne_zero _ _)
  obtain ⟨hl1, hl2, hl3⟩ := wp_ok hie hl
  cases hforWrite : forWrite with
  | true =>
    subst hforWrite
    obtain ⟨rfl, rfl⟩ := hl2 rfl
    rw [if_pos rfl] at hk
    refine ⟨hwm, _, l, ⟨hkp.self, hks, ⟨hl1, fun _ => ⟨rfl, hno rfl⟩, hl3⟩,
      fun h => absurd h (by decide)⟩, hkp.wrHwm, hhwm, fun cb' => ?_⟩
    have hoi : initBefore true l = g.na.initializedSize := hki rfl
    simp only [hk, hl, hoi, if_true]
  | false =>
    subst hforWrite
    have hend := initEnd_settles (v := v) hA hbs hkp hks
    obtain ⟨hlp, hls, hset, hie⟩ := wp_ok hend hl
    rw [if_neg (by decide)] at hk
    refine ⟨hwm, ie, l, ⟨hlp.self, hls, ⟨hl1, fun h => absurd h (by decide), hl3⟩,
      fun _ => ⟨hset, hie⟩⟩, hlp.wrHwm, hhwm, fun cb' => ?_⟩
    simp only [hk, hl, initBefore, Bool.false_eq_true, if_false]

/-- A map that returns 0 leaves its stages with a file that later maps need not change. -/
theorem nkBlockmap_first {length blocksize : ℤ} {f : NkFile σ}
    (h : (nkBlockmap L v offset length forWrite blocksize cb f).ret = some 0) :
    ∃ hwm ie k, Mappable v offset (offset + length) (blockSize blocksize) forWrite ie k ∧
      k.wrHwm = f.wrHwm ∧ (forWrite = true → hwm = f.wrHwm) ∧
      ∀ cb', nkBlockmap L v offset length forWrite blocksize cb' f =
        emitExtents L v offset (offset + length) forWrite hwm (initBefore forWrite k) ie cb' k := by
  have hs : InStep ((f.libEng L.pathnameToInode).2.attrOpen L).2 := rfl
  have hin := nkBlockmap_enters h
  have hpos := hin.length_pos
  rw [hin.map_eq] at h
  simp only [hin.map_eq]
  exact blockmapBody_first hA hM (blockSize_pos blocksize) (by omega) hs h

end First

/-! ### A later call -/

theorem firstHole_later {csize offset reqEnd later : ℤ} (hle : offset ≤ later)
    {rl : List RunlistElement} (h : firstHole csize offset reqEnd rl = none) :
    firstHole csize later reqEnd rl = none := by
  cases hh : firstHole csize later reqEnd rl with
  | none => rfl
  | some w =>
    obtain ⟨h1, h2, h3, e, he, hl, h4, h5⟩ := firstHole_some hh
    have hend := firstHole_none h e he hl w.1 (hle.trans h1) (h2.trans_le h3) h4
    omega

theorem Mappable.later {v : NkVolume} {offset reqEnd bs ie later : ℤ} {forWrite : Bool}
    {k : NkFile σ} (h : Mappable v offset reqEnd bs forWrite ie k) (hle : offset ≤ later) :
    Mappable v later reqEnd bs forWrite ie k :=
  ⟨h.inClusters, h.inStep, ⟨h.ready.accepted, fun hwrite => ⟨(h.ready.write hwrite).1,
    firstHole_later hle (h.ready.write hwrite).2⟩, h.ready.read⟩, h.read⟩

section Later

variable {L : Libntfs σ} {v : NkVolume} {forWrite : Bool} {offset reqEnd bs ie later : ℤ}
  {k : NkFile σ} (hA : L.Accounts) (hM : L.Maps) (hst : L.Steady)
include hA hst

theorem mapChecked_steady {g : NkFile σ} (hacc : g.na.rl.Accepted v.vol) :
    wp (mapChecked L v) (fun _ k => SameAttr g k) (fun _ _ => False) g := by
  have h0 : (g.lib L.attrMapWholeRunlist).1 = 0 := hst.attrMapWholeRunlist g.toNtfs hacc.first
  have hna : (g.lib L.attrMapWholeRunlist).2.na = g.na := hA.attrMapWholeRunlist g.toNtfs
  unfold mapChecked orFail
  rw [wp_bind, wp_bind, wp_call, h0]
  refine wp_ite (fun h => absurd rfl h) fun _ => ?_
  rw [wp_pure, wp_bind, wp_read]
  refine wp_ite (fun h => ?_) fun _ => ⟨hna, rfl, rfl⟩
  rw [hna, hacc.checked] at h
  cases h

/-- The mark and `initialized_size` together cover what lies below the window. -/
def GapCovered (later : ℤ) (g : NkFile σ) : Prop := later ≤ max g.na.initializedSize g.wrHwm

theorem prepare_steady (hk : Mappable v offset reqEnd bs forWrite ie k)
    (hgap : forWrite = true → GapCovered later k) :
    wp (prepare L v later reqEnd forWrite)
      (fun hwm g => SameAttr k g ∧ (forWrite = true → hwm = k.wrHwm)) (fun _ _ => False) k := by
  have hp := hk.inClusters
  unfold prepare makeMappable
  rw [wp_bind, wp_bind, wp_read]
  refine wp_ite (fun h => ?_) fun _ => wp_ite (fun _ => wp_pure.mpr ?_) fun h => absurd hp.nonResident h
  · simp [hp.compressed, hp.encrypted] at h
  unfold growSolid
  rw [wp_bind, wp_bind, wp_read]
  refine wp_ite (fun h => ?_) fun _ => wp_pure.mpr ?_
  · have := hp.size h.1
    omega
  rw [wp_bind]
  refine wp_mono (mapChecked_steady hA hst hk.ready.accepted) (fun _ g hg => ?_) fun _ _ h => h
  refine wp_ite (fun hwrite => ?_) fun hread => ⟨hg, fun h => absurd h hread⟩
  have hcov := hgap hwrite
  unfold GapCovered at hcov
  unfold zeroGap
  rw [wp_bind, wp_read, wp_bind, hg.wrHwm, hg.na]
  unfold zeroBelow
  refine wp_ite (fun h => ?_) fun h => wp_ite (fun h' => by omega) fun _ => ⟨hg, fun _ => rfl⟩
  rw [wp_bind, chunks_nil (by omega), each, wp_pure]
  have hacc : g.na.rl.Accepted v.vol := by
    rw [hg.na]
    exact hk.ready.accepted
  exact wp_mono (mapChecked_steady hA hst hacc) (fun _ l hl => ⟨hg.trans hl, fun _ => rfl⟩)
    fun _ _ h => h

omit hA hst in
theorem fillWindow_steady {hwm oi : ℤ} (hk : Mappable v offset reqEnd bs forWrite ie k)
    (hle : offset ≤ later) (hoi : forWrite = true → oi = k.na.initializedSize) :
    wp (fillWindow L v hwm later reqEnd oi forWrite) (fun _ g => g = k) (fun _ _ => False) k := by
  unfold fillWindow
  refine wp_ite (fun hwrite => ?_) fun _ => rfl
  have hno := firstHole_later hle (hk.ready.write hwrite).2
  rw [wp_bind, fillHoles, wp_bind, wp_read, hno]
  unfold restoreInit
  rw [wp_pure, wp_bind, wp_read]
  refine wp_ite (fun h => ?_) fun _ => rfl
  have := hoi hwrite
  omega

omit hA hst in
theorem initEnd_steady (hbs : 0 < bs) (hk : Mappable v offset reqEnd bs forWrite ie k) :
    wp (initEnd L v bs forWrite) (fun ie' g => ie' = ie ∧ g = k) (fun _ _ => False) k := by
  unfold initEnd
  refine wp_ite (fun hwrite => ⟨(hk.ready.write hwrite).1.symm, rfl⟩) fun hread => ?_
  obtain ⟨hset, rfl⟩ := hk.read (by simpa using hread)
  have h0 := hset.nonneg
  have hs : k.na.initializedSize = k.na.recInitializedSize := hk.inStep
  rw [wp_bind, wp_read, hs]
  refine wp_ite (fun h => by omega) fun _ => wp_ite (fun hz => ⟨?_, rfl⟩) fun hz => ?_
  · rw [roundUp_of_dvd hbs (Int.dvd_of_emod_eq_zero hz)]
  extract_lets up zend
  have hzend : zend ≤ k.na.dataSize := by
    simp only [zend]
    split_ifs <;> omega
  rcases hset.settled with h | h | ⟨hro, hfl⟩
  · exact absurd h hz
  · exact wp_ite (fun h' => by omega) fun _ => wp_ite (fun h' => by omega) fun _ => ⟨rfl, rfl⟩
  · refine wp_ite (fun h' => ?_) fun _ => wp_ite (fun h' => by omega) fun _ => ⟨rfl, rfl⟩
    rw [hro] at h'
    cases h'.2

theorem blockmapBody_later (hbs : 0 < bs) (hk : Mappable v offset reqEnd bs forWrite ie k)
    (hle : offset ≤ later) (hgap : forWrite = true → GapCovered later k) :
    ∃ hwm g, SameAttr k g ∧ (forWrite = true → hwm = k.wrHwm) ∧
      ∀ cb, blockmapBody L v later reqEnd forWrite bs cb k =
        emitExtents L v later reqEnd forWrite hwm (initBefore forWrite g) ie cb g := by
  have hprep := prepare_steady hA hst hk hgap
  unfold blockmapBody
  rcases hp : prepare L v later reqEnd forWrite k with ⟨e | hwm, g⟩
  · exact (wp_error hprep hp).elim
  obtain ⟨hg, hhwm⟩ := wp_ok hprep hp
  have hmap : Mappable v offset reqEnd bs forWrite ie g := hk.same hg
  have hfill := @fillWindow_steady σ L v forWrite offset reqEnd bs ie later g hwm
    (initBefore forWrite g) hmap hle fun hwrite => by rw [initBefore, if_pos hwrite]
  rcases hf : fillWindow L v hwm later reqEnd (initBefore forWrite g) forWrite g with ⟨e | u, l⟩
  · exact (wp_error hfill hf).elim
  obtain rfl := wp_ok hfill hf
  have hend := initEnd_steady (L := L) hbs hmap
  rcases hi : initEnd L v bs forWrite l with ⟨e | ie', m⟩
  · exact (wp_error hend hi).elim
  obtain ⟨rfl, rfl⟩ := wp_ok hend hi
  refine ⟨hwm, m, hg, hhwm, fun cb => ?_⟩
  unfold initBefore at hf ⊢
  simp only [hf, hi]

/-- A later call on a file that needs no change goes straight to its extent loop. -/
theorem nkBlockmap_later {blocksize : ℤ} {g : NkFile σ}
    (hg : Mappable v offset reqEnd (blockSize blocksize) forWrite ie g) (h0 : 0 ≤ offset)
    (hle : offset ≤ later) (hlt : later < reqEnd) (hmax : reqEnd ≤ int64Max)
    (hvol : v.bde = false ∧ v.vol.clusterSize % blockSize blocksize = 0)
    (hgap : forWrite = true → GapCovered later g) :
    ∃ hwm k, SameAttr g k ∧ (forWrite = true → hwm = g.wrHwm) ∧
      ∀ cb, nkBlockmap L v later (reqEnd - later) forWrite blocksize cb g =
        emitExtents L v later reqEnd forWrite hwm (initBefore forWrite k) ie cb k := by
  have hino : (g.libEng L.pathnameToInode).1 = true := hst.pathnameToInode g.eng
  have hatt : ((g.libEng L.pathnameToInode).2.attrOpen L).1 = true := hst.attrOpen _
  have hopen : SameAttr g ((g.libEng L.pathnameToInode).2.attrOpen L).2 := by
    refine ⟨?_, rfl, rfl⟩
    have hin : g.na.recInitializedSize = g.na.initializedSize := hg.inStep.symm
    change { g.na with initializedSize := g.na.recInitializedSize } = g.na
    rw [hin]
  have hgap' : forWrite = true →
      GapCovered later ((g.libEng L.pathnameToInode).2.attrOpen L).2 := fun hwrite => by
    unfold GapCovered
    rw [hopen.na, hopen.wrHwm]
    exact hgap hwrite
  obtain ⟨hwm, k, hk, hhwm, hbody⟩ := blockmapBody_later hA hst (blockSize_pos blocksize)
    (hg.same hopen) hle hgap'
  refine ⟨hwm, k, hopen.trans hk, fun hwrite => (hhwm hwrite).trans hopen.wrHwm, fun cb => ?_⟩
  have hend : later + (reqEnd - later) = reqEnd := by omega
  have hin : Enters L v later (reqEnd - later) blocksize g :=
    ⟨by omega, by omega, by omega, hvol.1, hvol.2, hino, hatt⟩
  rw [hin.map_eq, hend]
  exact hbody cb

end Later

/-! ### What a call hands out -/

section HandOut

variable {L : Libntfs σ} {v : NkVolume} {forWrite : Bool} {offset reqEnd bs ie hwm : ℤ}
  {k : NkFile σ} {cb : List Extent → Bool}

theorem wrSet_steady (hst : L.Steady) (mark : ℤ) (g : NkFile σ) : (g.wrSet L mark).1 = 0 := by
  have hr : (g.libEng L.realloc).1 = true := hst.realloc g.eng
  unfold NkFile.wrSet
  split_ifs
  · rfl
  · simp [hr]

/-- With nothing to repair the exit path returns what the extent loop did. -/
theorem emitExtents_eq (hst : L.Steady) (cb : List Extent → Bool) :
    let p := packRuns v.vol.clusterSize offset reqEnd ie cb k.na.rl.elements ⟨[], offset, false⟩
    let m := emitExtents L v offset reqEnd forWrite hwm (initBefore forWrite k) ie cb k
    m.ret = some ((handOut L reqEnd forWrite hwm p k).ret.getD 0) ∧
      m.extents = (handOut L reqEnd forWrite hwm p k).extents ∧
      SameFile (handOut L reqEnd forWrite hwm p k).file m.file := by
  intro p m
  obtain ⟨hna, -⟩ := handOut_same L reqEnd forWrite hwm p k
  refine ⟨blockmapOut_settled hst.toSettled _ _ _ _, rfl, blockmapOut_same L _ _ _ ?_⟩
  rw [hna]
  unfold initBefore
  split_ifs <;> omega

theorem handOut_whole (hst : L.Steady) {p : Packed} (h : p.full = true ∨ reqEnd ≤ p.covered)
    (g : NkFile σ) : (handOut L reqEnd true hwm p g).ret.getD 0 = 0 := by
  have hshort : (!p.full && decide (p.covered < reqEnd)) = false := by
    rcases h with h | h <;> simp [h]
  simp only [handOut, hshort, Bool.false_and, Bool.false_eq_true, if_false, wrSet_steady hst,
    ne_eq, not_true_eq_false]
  split_ifs <;> rfl

theorem handOut_reads (L : Libntfs σ) (reqEnd hwm : ℤ) (p : Packed) (g : NkFile σ) :
    (handOut L reqEnd false hwm p g).ret.getD 0 = 0 ∧
      (handOut L reqEnd false hwm p g).file = g := by
  simp [handOut]

/-- The mark after a map up to `stop`. -/
def markAfter (forWrite : Bool) (hwm init stop : ℤ) : ℤ :=
  if forWrite = true ∧ hwm < stop ∧ init < stop then stop else hwm

theorem markAfter_trans {init stop reqEnd : ℤ} (forWrite : Bool) (hwm : ℤ) (hle : stop ≤ reqEnd) :
    markAfter forWrite (markAfter forWrite hwm init stop) init reqEnd =
      markAfter forWrite hwm init reqEnd := by
  unfold markAfter
  cases forWrite with
  | false => simp
  | true =>
    simp only [true_and]
    split_ifs <;> omega

/-- A write map leaves no gap between the bytes that are initialized or handed out and its end. -/
theorem le_markAfter (hwm init stop : ℤ) : stop ≤ max init (markAfter true hwm init stop) := by
  simp only [markAfter, true_and]
  split_ifs <;> omega

/-- A call on a file that needs no change hands out a piece of the window and moves the mark to
its end. -/
theorem emitExtents_piece (hst : L.Steady) (hc : 0 < v.vol.clusterSize) (h0 : 0 ≤ offset)
    (hw : offset < reqEnd) (hk : Mappable v offset reqEnd bs forWrite ie k)
    (hhwm : forWrite = true → hwm = k.wrHwm)
    (hreach : forWrite = true → Reaching v.vol.clusterSize offset reqEnd ie k.na.rl)
    (cb : List Extent → Bool) :
    let m := emitExtents L v offset reqEnd forWrite hwm (initBefore forWrite k) ie cb k
    m.ret = some 0 ∧ ∃ stop, Piece v.vol.clusterSize reqEnd ie k.na.rl offset m.extents stop ∧
      ((∀ es, cb es = false) → stop = reqEnd) ∧ m.file.na = k.na ∧
      m.file.wrHwm = markAfter forWrite k.wrHwm k.na.initializedSize stop := by
  intro m
  have hcont := hk.ready.accepted.contiguous
  obtain ⟨pos, hp, hend⟩ := packRuns_contiguous cb hc hw h0 ie hcont
  obtain ⟨post, hpre, hpost⟩ := @packRuns_stops v.vol.clusterSize offset reqEnd ie k.na.rl cb
  obtain ⟨hret, hext, hfile⟩ := @emitExtents_eq σ L v forWrite offset reqEnd ie hwm k hst cb
  set p := packRuns v.vol.clusterSize offset reqEnd ie cb k.na.rl.elements ⟨[], offset, false⟩
  have hnever : (∀ es, cb es = false) → p.full = false := fun h => packRuns_not_full h _ _ rfl
  cases hforWrite : forWrite with
  | true =>
    subst hforWrite
    have hwhole : p.full = false → p.covered = reqEnd := fun hf => by
      have hr : extentsEnd offset (windowRuns v.vol.clusterSize offset reqEnd ie k.na.rl) = reqEnd :=
        hreach rfl
      rwa [hpre, hpost hf, List.append_nil, hp.tiles.extentsEnd_eq] at hr
    have hcov : p.full = true ∨ reqEnd ≤ p.covered := by
      cases hf : p.full with
      | true => exact .inl rfl
      | false => exact .inr (hwhole hf).ge
    have hz : (handOut L reqEnd true hwm p k).ret.getD 0 = 0 := handOut_whole hst hcov k
    obtain ⟨hes, hlt, hsame⟩ := (handOut_write L hp hw hwm k).2.1 hz
    refine ⟨by rw [hret, hz], p.covered, ?_, fun h => hwhole (hnever h), ?_, ?_⟩
    · rw [show m.extents = p.extents from hext.trans hes]
      exact Piece.of_prefix hc h0 hw hcont hpre hp.tiles hlt
    · rw [hfile.na, (handOut_same L reqEnd true hwm p k).1]
    · rw [hfile.wrHwm, hsame.wrHwm, hhwm rfl, markAfter]
      split_ifs with h1 h2 h2
      · exact k.wrHwm_marked _
      · exact absurd ⟨rfl, h1⟩ h2
      · exact absurd h2.2 h1
      · rfl
  | false =>
    subst hforWrite
    obtain ⟨hz, hsame⟩ := handOut_reads L reqEnd hwm p k
    rw [hsame] at hfile
    have hhwm' : ∀ stop, m.file.wrHwm = markAfter false k.wrHwm k.na.initializedSize stop :=
      fun stop => by rw [hfile.wrHwm, markAfter, if_neg fun h => absurd h.1 (by decide)]
    refine ⟨by rw [hret, hz], ?_⟩
    rcases (handOut_spec L reqEnd false hwm p k).2 rfl with ⟨hes, hcov⟩ | ⟨hf, hlt, hes⟩
    · have hmore : offset < p.covered := by
        rcases hcov with h | h
        · exact hp.more h
        · omega
      refine ⟨p.covered, ?_, fun h => ?_, hfile.na, hhwm' _⟩
      · rw [show m.extents = p.extents from hext.trans hes]
        exact Piece.of_prefix hc h0 hw hcont hpre hp.tiles hmore
      · have hle := hp.le
        rcases hcov with hf | hge
        · rw [hnever h] at hf
          cases hf
        · omega
    · refine ⟨reqEnd, ?_, fun _ => rfl, hfile.na, hhwm' _⟩
      rw [show m.extents = _ from hext.trans hes]
      exact Piece.of_tail hw (by rw [hpre, hpost hf, List.append_nil]) hp.tiles hlt

/-- A write map that returns 0 with a packer that never fills up has found runs up to the end of
its window. -/
theorem emitExtents_reaching (hc : 0 < v.vol.clusterSize) (h0 : 0 ≤ offset) (hw : offset < reqEnd)
    {oi : ℤ} (hk : Mappable v offset reqEnd bs true ie k) (hcb : ∀ es, cb es = false)
    (hret : (emitExtents L v offset reqEnd true hwm oi ie cb k).ret = some 0) :
    Reaching v.vol.clusterSize offset reqEnd ie k.na.rl := by
  obtain ⟨stop, hh, -⟩ := emitExtents_handed hc hk.ready h0 hw hret
  obtain ⟨post, hpre, hpost⟩ := @packRuns_stops v.vol.clusterSize offset reqEnd ie k.na.rl cb
  have hf : (packRuns v.vol.clusterSize offset reqEnd ie cb k.na.rl.elements
      ⟨[], offset, false⟩).full = false := packRuns_not_full hcb _ _ rfl
  have hcov : stop = (packRuns v.vol.clusterSize offset reqEnd ie cb k.na.rl.elements
      ⟨[], offset, false⟩).covered := by
    rcases hh.shape with ⟨-, h⟩ | ⟨h, -⟩
    · exact h
    · cases h
  unfold Reaching
  rw [hpre, hpost hf, List.append_nil, hh.loop.extentsEnd_eq, ← hcov, hh.whole hf]

end HandOut

/-! ### The series -/

/-- Map a window up to `reqEnd`, each call for what the last one left, until it is covered. The
calls have the callbacks `cbs 0`, `cbs 1` and so on. No result is that a call failed, or that
`fuel` calls were not enough. -/
def mapRest (L : Libntfs σ) (v : NkVolume) (reqEnd : ℤ) (forWrite : Bool) (blocksize : ℤ) :
    ℕ → (ℕ → List Extent → Bool) → ℤ → NkFile σ → Option (List Extent × NkFile σ)
  | 0, _, _, _ => none
  | fuel + 1, cbs, offset, f =>
    let m := nkBlockmap L v offset (reqEnd - offset) forWrite blocksize (cbs 0) f
    if m.ret = some 0 then
      let stop := extentsEnd offset m.extents
      if reqEnd ≤ stop then some (m.extents, m.file)
      else (mapRest L v reqEnd forWrite blocksize fuel (fun i => cbs (i + 1)) stop m.file).map
        fun r => (m.extents ++ r.1, r.2)
    else none

section Series

variable {L : Libntfs σ} {v : NkVolume} {forWrite : Bool} {reqEnd blocksize ie : ℤ}
  (hA : L.Accounts) (hst : L.Steady) (hc : 0 < v.vol.clusterSize) (hmax : reqEnd ≤ int64Max)
  (hvol : v.bde = false ∧ v.vol.clusterSize % blockSize blocksize = 0)
include hA hst hc hmax hvol

/-- From a call that goes to its extent loop on, the series ends with the extents of the whole
window. -/
theorem mapRest_whole : ∀ (fuel : ℕ) (cbs : ℕ → List Extent → Bool) {offset hwm : ℤ}
    {f k : NkFile σ}, 0 ≤ offset → offset < reqEnd →
    Mappable v offset reqEnd (blockSize blocksize) forWrite ie k →
    (forWrite = true → hwm = k.wrHwm ∧ Reaching v.vol.clusterSize offset reqEnd ie k.na.rl) →
    (∀ cb, nkBlockmap L v offset (reqEnd - offset) forWrite blocksize cb f =
      emitExtents L v offset reqEnd forWrite hwm (initBefore forWrite k) ie cb k) →
    (wholeExtents v.vol.clusterSize offset reqEnd ie k.na.rl).length ≤ fuel →
    ∃ g, mapRest L v reqEnd forWrite blocksize fuel cbs offset f =
        some (wholeExtents v.vol.clusterSize offset reqEnd ie k.na.rl, g) ∧
      g.wrHwm = markAfter forWrite k.wrHwm k.na.initializedSize reqEnd
  | fuel, cbs, offset, hwm, f, k, h0, hw, hk, hwrite, hemit, hlen => by
    obtain ⟨hret, stop, hpiece, -, hna, hhwm⟩ := emitExtents_piece hst hc h0 hw hk
      (fun h => (hwrite h).1) (fun h => (hwrite h).2) (cbs 0)
    have hmap := hemit (cbs 0)
    set m := emitExtents L v offset reqEnd forWrite hwm (initBefore forWrite k) ie (cbs 0) k
    have hlt := hpiece.lt
    have hle := hpiece.le
    have hne : 0 < m.extents.length := by
      rw [List.length_pos_iff]
      intro hnil
      have ht := hpiece.tiles
      rw [hnil] at ht
      exact hlt.ne ht
    have hstop : extentsEnd offset m.extents = stop := hpiece.tiles.extentsEnd_eq
    have hparts : m.extents.length ≤
        (wholeExtents v.vol.clusterSize offset reqEnd ie k.na.rl).length := by
      rcases hle.lt_or_eq with h | h
      · rw [(hpiece.rest h).1, List.length_append]
        omega
      · rw [hpiece.last h]
    obtain ⟨n, rfl⟩ : ∃ n, fuel = n + 1 := ⟨fuel - 1, by omega⟩
    rw [mapRest, hmap]
    dsimp only
    rw [if_pos hret, hstop]
    rcases hle.lt_or_eq with h | rfl
    · obtain ⟨hsplit, hmore⟩ := hpiece.rest h
      have hmapped : Mappable v offset reqEnd (blockSize blocksize) forWrite ie m.file :=
        hk.of_na hna fun hread => by rw [hhwm, markAfter, if_neg (by simp [hread])]
      have hgap : forWrite = true → GapCovered stop m.file := fun hw' => by
        unfold GapCovered
        rw [hna, hhwm, hw']
        exact le_markAfter _ _ _
      obtain ⟨hwm', k', hk', hhwm', hemit'⟩ := nkBlockmap_later hA hst hmapped h0 hlt.le h hmax
        hvol hgap
      have hrl : k'.na.rl = k.na.rl := by rw [hk'.na, hna]
      obtain ⟨g, hg, hmark⟩ := mapRest_whole n (fun i => cbs (i + 1)) (by omega) h
        ((hmapped.same hk').later hlt.le)
        (fun hw' => ⟨by rw [hhwm' hw', hk'.wrHwm], by rw [hrl]; exact hmore (hwrite hw').2⟩) hemit'
        (by rw [hrl]; rw [hsplit, List.length_append] at hlen; omega)
      rw [hrl] at hg
      refine ⟨g, ?_, ?_⟩
      · rw [if_neg (by omega), hg, hsplit]
        rfl
      · rw [hmark, hk'.wrHwm, hhwm, hk'.na, hna, markAfter_trans _ _ h.le]
    · exact ⟨m.file, by rw [if_pos le_rfl, hpiece.last rfl], hhwm⟩

end Series

/-- Partial maps compose. If one map of the window with room for all extents returns 0, then a
series of maps of what is left each time ends, whenever each callback reports that it is full:
every call returns 0, and the extents and the mark are those of the one map. -/
theorem partial_maps_compose {L : Libntfs σ} {v : NkVolume} (hA : L.Accounts) (hM : L.Maps)
    (hst : L.Steady) (hc : 0 < v.vol.clusterSize) {offset length blocksize : ℤ} {forWrite : Bool}
    {f : NkFile σ}
    (hret : (nkBlockmap L v offset length forWrite blocksize (fun _ => false) f).ret = some 0)
    (cbs : ℕ → List Extent → Bool) :
    ∃ calls, ∀ fuel ≥ calls, ∃ g,
      mapRest L v (offset + length) forWrite blocksize fuel cbs offset f =
        some ((nkBlockmap L v offset length forWrite blocksize (fun _ => false) f).extents, g) ∧
      g.wrHwm = (nkBlockmap L v offset length forWrite blocksize (fun _ => false) f).file.wrHwm := by
  obtain ⟨⟨h0, hl, hmax, -⟩, -⟩ := nkBlockmap_ready hM hret
  obtain ⟨hwm, ie, k, hk, hkf, hhwm, hemit⟩ := nkBlockmap_first hA hM hret
  have hin := nkBlockmap_enters hret
  have hvol := And.intro hin.bde hin.blocks
  have hw : offset < offset + length := by omega
  rw [hemit] at hret ⊢
  have hmark : forWrite = true → hwm = k.wrHwm := fun h => (hhwm h).trans hkf.symm
  have hreach : forWrite = true →
      Reaching v.vol.clusterSize offset (offset + length) ie k.na.rl := fun h => by
    subst h
    exact emitExtents_reaching hc h0 hw hk (fun _ => rfl) hret
  obtain ⟨-, stop, hpiece, hstop, -, hset⟩ := emitExtents_piece hst hc h0 hw hk hmark hreach
    fun _ => false
  obtain rfl : stop = offset + length := hstop fun _ => rfl
  refine ⟨(wholeExtents v.vol.clusterSize offset (offset + length) ie k.na.rl).length,
    fun fuel hfuel => ?_⟩
  obtain ⟨g, hg, hgm⟩ := mapRest_whole hA hst hc hmax hvol fuel cbs h0 hw hk
    (fun h => ⟨hmark h, hreach h⟩)
    (fun cb => by rw [show offset + length - offset = length by omega]; exact hemit cb) hfuel
  exact ⟨g, by rw [hg, hpiece.last rfl], by rw [hgm, hset]⟩

theorem sparseDisk_accounts (csize free : ℤ) : (sparseDisk csize free).Accounts where
  attrPwrite s pos count buf _ _ _ hn _ h := by
    simp only [sparseDisk] at h ⊢
    split_ifs at h ⊢
    · exact ⟨⟨rfl, rfl, rfl⟩, rfl, rfl, rfl⟩
    · change (-1 : ℤ) = count at h
      omega
  attrTruncateSolid _ _ _ _ h := absurd (show (-1 : ℤ) = 0 from h) (by decide)
  attrForceNonResident _ _ h := absurd (show (-1 : ℤ) = 0 from h) (by decide)
  attrMapWholeRunlist s := by
    simp only [sparseDisk]
    split_ifs <;> rfl

theorem sparseDisk_steady (csize free : ℤ) : (sparseDisk csize free).Steady where
  inodeSync _ := rfl
  inodeClose _ := rfl
  pathnameToInode _ := rfl
  attrOpen _ := rfl
  attrMapWholeRunlist s h := by
    simp only [sparseDisk]
    rw [if_pos]
    rw [Option.all_eq_true]
    exact fun e he => decide_eq_true (h e he)
  realloc _ := rfl

/-- A window over a run, a hole and a run, mapped for writing one extent at a time. -/
theorem partial_maps_compose_sparse :
    (nkBlockmap (sparseDisk 512 20) craftedVolume 256 1280 true 512 (fun _ => false)
      sparseFile).extents = [⟨256, 2304, 256⟩, ⟨512, 10752, 512⟩, ⟨1024, 4608, 512⟩] ∧
    ∃ calls, ∀ fuel ≥ calls, ∃ g,
      mapRest (sparseDisk 512 20) craftedVolume 1536 true 512 fuel
          (fun _ es => decide (1 ≤ es.length)) 256 sparseFile =
        some ([⟨256, 2304, 256⟩, ⟨512, 10752, 512⟩, ⟨1024, 4608, 512⟩], g) ∧ g.wrHwm = 1536 := by
  have hext : (nkBlockmap (sparseDisk 512 20) craftedVolume 256 1280 true 512 (fun _ => false)
      sparseFile).extents = [⟨256, 2304, 256⟩, ⟨512, 10752, 512⟩, ⟨1024, 4608, 512⟩] := by
    decide +kernel
  have hmark : (nkBlockmap (sparseDisk 512 20) craftedVolume 256 1280 true 512 (fun _ => false)
      sparseFile).file.wrHwm = 1536 := by decide +kernel
  refine ⟨hext, ?_⟩
  rw [← hext, ← hmark]
  exact partial_maps_compose (sparseDisk_accounts 512 20) (sparseDisk_maps 512 20)
    (sparseDisk_steady 512 20) (by decide) (by decide +kernel) fun _ es => decide (1 ≤ es.length)

end NtfsKit
