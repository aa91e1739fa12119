import NtfsKit.Bridge.MapSpec
import NtfsKit.Bridge.RawWrites
import NtfsKit.Engine.Sparse

/-! The extents of a map, for any runlist the bridge accepts. `nk_blockmap` validates the
runlist every time the library has mapped it, so that its extent loop only meets lists that
`bad_runlist` passes. On those the extents tile the window, each data extent lies in one run
at the run's place on the volume, and block-aligned windows give block-aligned extents.
Nothing else is assumed of the file. -/

namespace NtfsKit

open Prog

variable {σ : Type}

/-! ### Accepted runlists -/

/-- A runlist that `bad_runlist` passes and that begins with the attribute's first
cluster. -/
structure Runlist.Accepted (vol : NtfsVolume) (rl : Runlist) : Prop where
  checked : badRunlist vol rl = false
  first : ∀ e ∈ rl.elements.head?, e.vcn = 0

section Accepted

variable {vol : NtfsVolume} {rl : Runlist}

/-- Past the first element, passing the validator is being contiguous. -/
theorem badFrom_contiguous : ∀ (x : ℤ) (rl : List RunlistElement), 0 ≤ x →
    badFrom vol x rl = false → Contiguous x rl
  | _, [], _, _ => trivial
  | x, e :: rl, hx, h => by
    rw [badFrom, Bool.or_eq_false_iff] at h
    obtain ⟨hlcn, ⟨hlen, -⟩, -, hnext⟩ := badElement_eq_false h.1
    have hv := hnext hx
    exact ⟨hv, hlen, hlcn, hv ▸ badFrom_contiguous _ rl (by omega) h.2⟩

/-- A list that passes is contiguous from its first element on. -/
theorem badRunlist_contiguous (h : badRunlist vol rl = false) : ∃ x, Contiguous x rl.elements := by
  unfold badRunlist at h
  cases hrl : rl.elements with
  | nil => exact ⟨0, trivial⟩
  | cons e es =>
    rw [hrl, badFrom, Bool.or_eq_false_iff] at h
    obtain ⟨hlcn, ⟨hlen, hvcn, -⟩, -⟩ := badElement_eq_false h.1
    exact ⟨e.vcn, rfl, hlen, hlcn, badFrom_contiguous _ es (by omega) h.2⟩

theorem Runlist.Accepted.contiguous (h : rl.Accepted vol) : Contiguous 0 rl.elements := by
  obtain ⟨x, hx⟩ := badRunlist_contiguous h.checked
  have hfirst := h.first
  cases hrl : rl.elements with
  | nil => trivial
  | cons e es =>
    rw [hrl] at hx hfirst
    rwa [← hx.1, hfirst e rfl] at hx

theorem Runlist.Accepted.fits (hc : 0 < vol.clusterSize) (h : rl.Accepted vol) :
    ∀ e ∈ rl.elements, e.Fits vol :=
  badFrom_fits hc _ _ h.checked

end Accepted

/-! ### The extent loop -/

/-- A data extent lies in one run, at the run's place, and on the volume. -/
structure Extent.InRun (vol : NtfsVolume) (rl : List RunlistElement) (e : Extent) : Prop where
  run : ∃ r ∈ rl, 0 ≤ r.lcn ∧ r.vcn * vol.clusterSize ≤ e.logical ∧
    e.logical + e.length ≤ (r.vcn + r.length) * vol.clusterSize ∧
    e.physical = r.lcn * vol.clusterSize + (e.logical - r.vcn * vol.clusterSize)
  nonneg : 0 ≤ e.physical
  stop_le : e.physical + e.length ≤ vol.nrClusters * vol.clusterSize

/-- Begins and ends at multiples of `bs`, in the file and, for data, on the volume. -/
structure Extent.Aligned (bs : ℤ) (e : Extent) : Prop where
  logical : bs ∣ e.logical
  length : bs ∣ e.length
  physical : 0 ≤ e.physical → bs ∣ e.physical

/-- An extent cut out of the run `r`: its ends are ends of the run or of the window, or
`init_end`. -/
structure Extent.CutFrom (csize offset reqEnd ie : ℤ) (r : RunlistElement) (e : Extent) :
    Prop where
  begin_eq : e.logical = r.vcn * csize ∨ e.logical = offset ∨ (e.logical = ie ∧ ie < reqEnd)
  end_eq : e.logical + e.length = r.vcn * csize + r.length * csize ∨
    e.logical + e.length = reqEnd ∨ (e.logical + e.length = ie ∧ ie < reqEnd)
  begin_ge : r.vcn * csize ≤ e.logical
  end_le : e.logical + e.length ≤ r.vcn * csize + r.length * csize
  meets : offset < e.logical + e.length ∧ e.logical < reqEnd
  place : e.physical = -1 ∨
    (0 ≤ r.lcn ∧ e.physical = r.lcn * csize + (e.logical - r.vcn * csize))
  data : 0 ≤ r.lcn → e.logical + e.length ≤ ie → e.physical ≠ -1

section Pack

variable {csize offset reqEnd ie : ℤ} {cb : List Extent → Bool}

/-- One element adds at most extents cut from it. -/
theorem packRun_cutFrom (hc : 0 < csize) {r : RunlistElement} {p : Packed} {e : Extent}
    (he : e ∈ (packRun csize offset reqEnd ie cb p r).extents) :
    e ∈ p.extents ∨ e.CutFrom csize offset reqEnd ie r := by
  unfold packRun at he
  extract_lets log len phys start stop q at he
  have hstart : (start = log ∨ start = offset) ∧ log ≤ start ∧ offset ≤ start := by
    simp only [start]
    split_ifs <;> omega
  have hstop : (stop = log + len ∨ stop = reqEnd) ∧ stop ≤ log + len ∧ stop ≤ reqEnd := by
    simp only [stop]
    split_ifs <;> omega
  have hphys : (0 ≤ phys → 0 ≤ r.lcn ∧ phys = r.lcn * csize) ∧ (0 ≤ r.lcn → 0 ≤ phys) := by
    simp only [phys]
    split_ifs with hl
    · exact ⟨fun _ => ⟨hl, rfl⟩, fun _ => mul_nonneg hl hc.le⟩
    · exact ⟨fun h => absurd h (by decide), fun h => absurd h hl⟩
  have hlog : log = r.vcn * csize := rfl
  have hlen : len = r.length * csize := rfl
  clear_value start stop phys
  -- an extent that begins and ends inside the run and the window
  have hcut : ∀ d : Extent, start ≤ d.logical → d.logical + d.length ≤ stop → 0 < d.length →
      (d.logical = start ∨ (d.logical = ie ∧ ie < reqEnd)) →
      (d.logical + d.length = stop ∨ (d.logical + d.length = ie ∧ ie < reqEnd)) →
      (d.physical = -1 ∨ (0 ≤ phys ∧ d.physical = phys + (d.logical - log))) →
      (0 ≤ phys → d.logical + d.length ≤ ie → d.physical ≠ -1) →
      d.CutFrom csize offset reqEnd ie r := by
    intro d h1 h2 h3 h4 h5 h6 h7
    refine ⟨by omega, by omega, by omega, by omega, ⟨by omega, by omega⟩, ?_,
      fun hl h => h7 (hphys.2 hl) h⟩
    rcases h6 with h6 | ⟨h6, h8⟩
    · exact .inl h6
    · obtain ⟨hl, heq⟩ := hphys.1 h6
      exact .inr ⟨hl, by rw [h8, heq]⟩
  split_ifs at he with hout hs hfull hz
  · exact .inl he
  · rcases List.mem_append.mp he with he | he
    · exact .inl he
    · rw [List.mem_singleton.mp he]
      exact .inr (hcut _ le_rfl (by dsimp only; omega) (by dsimp only; omega) (.inl rfl)
        (.inr ⟨by dsimp only; omega, by omega⟩) (.inr ⟨hs.1, rfl⟩)
        fun _ _ => by dsimp only; omega)
  · rcases List.mem_append.mp he with he | he
    · rcases List.mem_append.mp he with he | he
      · exact .inl he
      · rw [List.mem_singleton.mp he]
        exact .inr (hcut _ le_rfl (by dsimp only; omega) (by dsimp only; omega) (.inl rfl)
          (.inr ⟨by dsimp only; omega, by omega⟩) (.inr ⟨hs.1, rfl⟩)
          fun _ _ => by dsimp only; omega)
    · rw [List.mem_singleton.mp he]
      exact .inr (hcut _ (by dsimp only; omega) (by dsimp only; omega) (by dsimp only; omega)
        (.inr ⟨rfl, by omega⟩) (.inl (by dsimp only; omega)) (.inl rfl)
        fun _ h => by dsimp only at h; omega)
  · rcases List.mem_append.mp he with he | he
    · exact .inl he
    · rw [List.mem_singleton.mp he]
      exact .inr (hcut _ le_rfl (by dsimp only; omega) (by dsimp only; omega) (.inl rfl)
        (.inl (by dsimp only; omega)) (.inl rfl) fun hp h => by dsimp only at h; omega)
  · rcases List.mem_append.mp he with he | he
    · exact .inl he
    · rw [List.mem_singleton.mp he]
      exact .inr (hcut _ le_rfl (by dsimp only; omega) (by dsimp only; omega) (.inl rfl)
        (.inl (by dsimp only; omega)) (.inr ⟨by omega, rfl⟩) fun _ _ => by dsimp only; omega)

/-- Every extent of the loop is cut from one of the elements. -/
theorem packRuns_cutFrom (hc : 0 < csize) : ∀ (rl : List RunlistElement) (p : Packed) (e : Extent),
    e ∈ (packRuns csize offset reqEnd ie cb rl p).extents →
      e ∈ p.extents ∨ ∃ r ∈ rl, e.CutFrom csize offset reqEnd ie r
  | [], _, _, he => .inl he
  | r :: rl, p, e, he => by
    rw [packRuns] at he
    split_ifs at he
    · exact .inl he
    · rcases packRuns_cutFrom hc rl _ e he with he | ⟨d, hd, hcut⟩
      · exact (packRun_cutFrom hc he).imp id fun h => ⟨r, List.mem_cons_self, h⟩
      · exact .inr ⟨d, List.mem_cons_of_mem _ hd, hcut⟩

/-- The loop over a contiguous list reaches its end unless the packer is full. -/
theorem packRuns_contiguous (cb : List Extent → Bool) (hc : 0 < csize) (hw : offset < reqEnd)
    (h0 : 0 ≤ offset) (ie : ℤ) {rl : Runlist} (hrl : Contiguous 0 rl.elements) :
    ∃ pos, PackInv csize rl.elements offset reqEnd ie pos
        (packRuns csize offset reqEnd ie cb rl.elements ⟨[], offset, false⟩) ∧
      ((packRuns csize offset reqEnd ie cb rl.elements ⟨[], offset, false⟩).full = false →
        ∀ e ∈ rl.elements, e.vcn * csize + e.length * csize ≤ pos) := by
  have hstart : PackInv csize rl.elements offset reqEnd ie (0 * csize) ⟨[], offset, false⟩ :=
    ⟨rfl, fun _ he => absurd he List.not_mem_nil, fun x h1 h2 => absurd h1 (not_le.mpr h2), hw.le,
      fun h => Bool.noConfusion h, fun _ => show offset = _ by rw [zero_mul]; omega⟩
  have hself : Runlist.elements rl.elements = rl.elements := hrl.elements_eq
  have hrl' : Contiguous 0 (Runlist.elements rl.elements) := by rwa [hself]
  obtain ⟨pos, hpos, hend⟩ : ∃ pos, PackInv csize rl.elements offset reqEnd ie pos
      (packRuns csize offset reqEnd ie cb rl.elements ⟨[], offset, false⟩) ∧ _ :=
    packRuns_inv hc hw rl.elements 0 _ hrl
      (fun e he => ⟨he, fun x h1 h2 => hrl'.phys_eq hc (by rwa [hself]) h1 h2⟩) hstart
  exact ⟨pos, hpos, fun hn => (hend hn).2⟩

/-- The packer is full only after it said so. -/
theorem packRuns_full : ∀ (rl : List RunlistElement) (p : Packed), (p.full = true →
    cb p.extents = true) → (packRuns csize offset reqEnd ie cb rl p).full = true →
      cb (packRuns csize offset reqEnd ie cb rl p).extents = true
  | [], _, hp, h => hp h
  | r :: rl, p, hp, h => by
    rw [packRuns] at h ⊢
    split_ifs at h ⊢ with hf
    · exact hp hf
    · refine packRuns_full rl _ (fun hq => ?_) h
      simp only [packRun] at hq ⊢
      split_ifs at hq ⊢ <;> first | exact hp hq | exact hq

theorem Tiles.pos : ∀ {s t : ℤ} {es : List Extent}, Tiles s t es → ∀ e ∈ es, 0 < e.length
  | _, _, [], _, _, he => by cases he
  | _, _, _ :: _, ⟨_, hd, h⟩, e, he => by
    rcases List.mem_cons.mp he with rfl | he
    · exact hd
    · exact h.pos e he

/-- An end of the tiling is a multiple of `a` if its beginning and its extents are. -/
theorem Tiles.dvd {a : ℤ} : ∀ {s t : ℤ} {es : List Extent}, Tiles s t es → a ∣ s →
    (∀ e ∈ es, a ∣ e.length) → a ∣ t
  | _, _, [], h, hs, _ => h ▸ hs
  | _, _, e :: _, ⟨_, _, h⟩, hs, he =>
    h.dvd (hs.add (he e List.mem_cons_self)) fun d hd => he d (List.mem_cons_of_mem _ hd)

section Cut

variable {r : RunlistElement} {e : Extent}

theorem Extent.CutFrom.aligned {a : ℤ} (h : e.CutFrom csize offset reqEnd ie r) (hcs : a ∣ csize)
    (ho : a ∣ offset) (hr : a ∣ reqEnd) (hie : ie < reqEnd → a ∣ ie) : e.Aligned a := by
  have hlog : a ∣ r.vcn * csize := hcs.mul_left _
  have hb : a ∣ e.logical := by
    rcases h.begin_eq with hb | hb | ⟨hb, hlt⟩
    · exact hb ▸ hlog
    · exact hb ▸ ho
    · exact hb ▸ hie hlt
  have hend : a ∣ e.logical + e.length := by
    rcases h.end_eq with hb | hb | ⟨hb, hlt⟩
    · exact hb ▸ hlog.add (hcs.mul_left _)
    · exact hb ▸ hr
    · exact hb ▸ hie hlt
  refine ⟨hb, (Int.dvd_add_right hb).mp hend, fun h0 => ?_⟩
  rcases h.place with hp | ⟨-, hp⟩
  · omega
  · exact hp ▸ (hcs.mul_left _).add (hb.sub hlog)

theorem Extent.CutFrom.inRun {vol : NtfsVolume} {rl : List RunlistElement}
    (hc : 0 < vol.clusterSize) (h : e.CutFrom vol.clusterSize offset reqEnd ie r)
    (hr : r ∈ rl) (hf : r.Fits vol) : e.physical = -1 ∨ e.InRun vol rl := by
  refine h.place.imp id fun ⟨hl, hp⟩ => ?_
  have hvol : (r.lcn + r.length) * vol.clusterSize ≤ vol.nrClusters * vol.clusterSize :=
    mul_le_mul_of_nonneg_right (hf.clusters hl) hc.le
  have hlcn : 0 ≤ r.lcn * vol.clusterSize := mul_nonneg hl hc.le
  have h1 := h.begin_ge
  have h2 := h.end_le
  rw [add_mul] at hvol
  exact ⟨⟨r, hr, hl, h1, by rw [add_mul]; exact h2, hp⟩, by omega, by omega⟩

end Cut

end Pack

/-! ### The runlist the loop meets -/

/-- A stage that left through `goto out` with a non-zero `r`. -/
def Exit.Errs : Exit → Prop
  | .out r => r ≠ 0
  | .diverge => False

theorem Exit.Errs.ne_zero : ∀ {e : Exit}, e.Errs → e ≠ .out 0
  | .out _, h, rfl => h rfl

section Stages

variable {L : Libntfs σ} {v : NkVolume}

theorem orFail_errs (g : NkFile σ → ℤ × NkFile σ) (expect : ℤ) (f : NkFile σ) :
    wp (orFail (call g) expect) (fun _ t => (g f).1 = expect ∧ t = (g f).2)
      (fun e _ => e.Errs) f := by
  unfold orFail
  rw [wp_bind, wp_call]
  refine wp_ite (fun _ => ?_) (fun h => ⟨not_not.mp h, rfl⟩)
  exact (by decide : (-1 : ℤ) ≠ 0)

theorem eachZeroed_errs (cs : List (ℤ × ℤ)) (f : NkFile σ) :
    wp (each (pwriteZeroed L) cs) (fun _ _ => True) (fun e _ => e.Errs) f :=
  wp_each (fun _ _ => True) (fun c _ t _ =>
    wp_mono (orFail_errs _ c.2 t) (fun _ _ _ => trivial) fun _ _ h => h) cs f trivial

/-- Mapping and checking a runlist leaves an accepted one. -/
theorem mapChecked_accepts (hM : L.Maps) (f : NkFile σ) :
    wp (mapChecked L v) (fun _ g => g.na.rl.Accepted v.vol) (fun e _ => e.Errs) f := by
  unfold mapChecked
  rw [wp_bind]
  refine wp_mono (orFail_errs _ 0 f) ?_ (fun _ _ h => h)
  rintro _ g ⟨hr, rfl⟩
  rw [wp_bind, wp_read]
  refine wp_ite (fun _ => ?_) (fun h => ⟨by simpa using h, hM.first f.toNtfs hr⟩)
  exact (by decide : (-1 : ℤ) ≠ 0)

theorem pwriteZeros_na (hM : L.Maps) : ∀ (cs : List (ℤ × ℤ)) (f : NkFile σ),
    (pwriteZeros L cs f).2.na = f.na
  | [], _ => rfl
  | c :: cs, f => by
    have hna : (f.lib fun s => L.pwrite s c.1 c.2 zeros).2.na = f.na := hM.pwrite _ _ _ _
    simp only [pwriteZeros]
    split_ifs
    · exact hna
    · exact (pwriteZeros_na hM cs _).trans hna

theorem makeMappable_errs (f : NkFile σ) :
    wp (makeMappable L v) (fun _ _ => True) (fun e _ => e.Errs) f := by
  have hout : (Exit.out (-2)).Errs := (by decide : (-2 : ℤ) ≠ 0)
  unfold makeMappable
  rw [wp_bind, wp_read]
  refine wp_ite (fun _ => hout) (fun _ => wp_ite (fun _ => trivial) (fun _ => wp_ite (fun _ => hout)
    (fun _ => ?_)))
  rw [wp_bind, wp_call]
  exact wp_ite (fun _ => hout) (fun _ => trivial)

theorem growSolid_errs (forWrite : Bool) (reqEnd : ℤ) (f : NkFile σ) :
    wp (growSolid L forWrite reqEnd) (fun _ _ => True) (fun e _ => e.Errs) f := by
  unfold growSolid
  rw [wp_bind, wp_read]
  exact wp_ite (fun _ => wp_mono (orFail_errs _ 0 f) (fun _ _ _ => trivial) fun _ _ h => h)
    (fun _ => trivial)

theorem zeroBelow_accepts (hM : L.Maps) (hwm init offset : ℤ) {f : NkFile σ}
    (hf : f.na.rl.Accepted v.vol) :
    wp (zeroBelow L v hwm init offset) (fun _ g => g.na.rl.Accepted v.vol)
      (fun e _ => e.Errs) f := by
  unfold zeroBelow
  refine wp_ite (fun _ => ?_) (fun _ => wp_ite (fun _ => ?_) (fun _ => hf))
  · rw [wp_bind]
    exact wp_mono (eachZeroed_errs _ f) (fun _ g _ => mapChecked_accepts hM g) fun _ _ h => h
  · refine wp_mono (orFail_errs _ 0 f) ?_ fun _ _ h => h
    rintro _ g ⟨-, rfl⟩
    rw [zeroRaw, pwriteZeros_na hM]
    exact hf

theorem prepare_accepts (hM : L.Maps) (offset reqEnd : ℤ) (forWrite : Bool) (f : NkFile σ) :
    wp (prepare L v offset reqEnd forWrite) (fun _ g => g.na.rl.Accepted v.vol)
      (fun e _ => e.Errs) f := by
  unfold prepare
  rw [wp_bind]
  refine wp_mono (makeMappable_errs f) (fun _ g _ => ?_) fun _ _ h => h
  rw [wp_bind]
  refine wp_mono (growSolid_errs forWrite reqEnd g) (fun _ k _ => ?_) fun _ _ h => h
  rw [wp_bind]
  refine wp_mono (mapChecked_accepts hM k) (fun _ l hl => ?_) fun _ _ h => h
  refine wp_ite (fun _ => ?_) (fun _ => hl)
  unfold zeroGap
  rw [wp_bind, wp_read, wp_bind]
  exact wp_mono (zeroBelow_accepts hM _ _ offset hl) (fun _ _ h => h) fun _ _ h => h

theorem fillHole_accepts (hM : L.Maps) (hwm start stop : ℤ) (f : NkFile σ) :
    wp (fillHole L v hwm start stop) (fun _ g => g.na.rl.Accepted v.vol)
      (fun e _ => e.Errs) f := by
  unfold fillHole
  rw [wp_bind, wp_modify, wp_bind]
  exact wp_mono (eachZeroed_errs _ _) (fun _ g _ => mapChecked_accepts hM g) fun _ _ h => h

/-- The hole fill leaves a runlist with no hole in the window. -/
theorem fillHoles_accepts (hM : L.Maps) (hwm offset reqEnd : ℤ) : ∀ (fuel : ℕ) (f : NkFile σ),
    f.na.rl.Accepted v.vol → wp (fillHoles L v hwm offset reqEnd fuel)
      (fun _ g => g.na.rl.Accepted v.vol ∧
        firstHole v.vol.clusterSize offset reqEnd g.na.rl.elements = none)
      (fun e _ => e ≠ .out 0) f
  | 0, _, _ => Exit.noConfusion
  | fuel + 1, f, hf => by
    rw [fillHoles, wp_bind, wp_read]
    cases hh : firstHole v.vol.clusterSize offset reqEnd f.na.rl.elements with
    | none => exact ⟨hf, hh⟩
    | some w =>
      rw [wp_bind]
      exact wp_mono (fillHole_accepts hM hwm w.1 w.2 f)
        (fun _ g hg => fillHoles_accepts hM hwm offset reqEnd fuel g hg) fun _ _ h => h.ne_zero

theorem stampInit_rl (val : ℤ) (f : NkFile σ) : (f.stampInit L val).2.na.rl = f.na.rl := by
  unfold NkFile.stampInit
  extract_lets r
  split_ifs <;> rfl

theorem fillWindow_accepts (hM : L.Maps) (hwm offset reqEnd oi : ℤ) (forWrite : Bool)
    {f : NkFile σ} (hf : f.na.rl.Accepted v.vol) :
    wp (fillWindow L v hwm offset reqEnd oi forWrite) (fun _ g => g.na.rl.Accepted v.vol ∧
        (forWrite = true → firstHole v.vol.clusterSize offset reqEnd g.na.rl.elements = none))
      (fun e _ => e ≠ .out 0) f := by
  unfold fillWindow
  refine wp_ite (fun _ => ?_) (fun h => ⟨hf, fun hn => absurd hn h⟩)
  rw [wp_bind]
  refine wp_mono (fillHoles_accepts hM hwm offset reqEnd _ f hf) ?_ fun _ _ h => h
  rintro _ g ⟨hg, hno⟩
  unfold restoreInit
  rw [wp_bind, wp_read]
  refine wp_ite (fun _ => ?_) (fun _ => ⟨hg, fun _ => hno⟩)
  refine wp_mono (orFail_errs _ 0 g) ?_ fun _ _ h => h.ne_zero
  rintro _ k ⟨-, rfl⟩
  rw [stampInit_rl]
  exact ⟨hg, fun _ => hno⟩

/-- Where data ends: nowhere for a write, at a multiple of the block size for a read. -/
theorem initEnd_accepts (hM : L.Maps) (bs : ℤ) (forWrite : Bool) {f : NkFile σ}
    (hf : f.na.rl.Accepted v.vol) :
    wp (initEnd L v bs forWrite) (fun ie g => g.na.rl.Accepted v.vol ∧
        (forWrite = true → ie = int64Max ∧ g = f) ∧ (forWrite = false → bs ∣ ie))
      (fun e _ => e.Errs) f := by
  have hout : ∀ r : ℤ, r ≠ 0 → (Exit.out r).Errs := fun _ h => h
  unfold initEnd
  cases forWrite with
  | true => exact ⟨hf, fun _ => ⟨rfl, rfl⟩, fun h => absurd h (by decide)⟩
  | false =>
    rw [if_neg (by decide), wp_bind, wp_read]
    have hw : ∀ P : Prop, false = true → P := fun _ h => absurd h (by decide)
    refine wp_ite (fun _ => hout _ (by decide)) (fun _ => wp_ite (fun hz => ?_) (fun _ => ?_))
    · exact ⟨hf, hw _, fun _ => Int.dvd_of_emod_eq_zero hz⟩
    extract_lets up zend
    refine wp_ite (fun _ => hout _ (by decide)) (fun _ => wp_ite (fun _ => ?_) (fun _ => ?_))
    · rw [wp_bind]
      refine wp_mono (eachZeroed_errs _ f) (fun _ g _ => ?_) fun _ _ h => h
      rw [wp_bind]
      refine wp_mono (mapChecked_accepts hM g) (fun _ k hk => ?_) fun _ _ h => h
      exact ⟨hk, hw _, fun _ => dvd_roundUp bs _⟩
    · exact ⟨hf, hw _, fun _ => dvd_roundUp bs _⟩

end Stages

/-! ### The whole call -/

section Whole

variable {L : Libntfs σ} {v : NkVolume} {offset reqEnd : ℤ} {forWrite : Bool}
  {cb : List Extent → Bool}

theorem leave_ret {e : Exit} (h : e ≠ .out 0) (oi : ℤ) (f : NkFile σ) :
    (leave L oi e f).ret ≠ some 0 := by
  cases e with
  | diverge => exact fun hn => by cases hn
  | out r =>
    obtain ⟨c, hc, hz⟩ := blockmapOut_ret L oi r [] f
    intro hn
    have hc0 : c = 0 := Option.some.inj (hc.symm.trans hn)
    exact h (by rw [hz hc0])

/-- What the extent loop of a map that returns 0 runs on. -/
structure Ready (v : NkVolume) (offset reqEnd bs : ℤ) (forWrite : Bool) (ie : ℤ) (k : NkFile σ) :
    Prop where
  accepted : k.na.rl.Accepted v.vol
  write : forWrite = true →
    ie = int64Max ∧ firstHole v.vol.clusterSize offset reqEnd k.na.rl.elements = none
  read : forWrite = false → bs ∣ ie

theorem blockmapBody_ready (hM : L.Maps) (bs : ℤ) {f : NkFile σ}
    (h : (blockmapBody L v offset reqEnd forWrite bs cb f).ret = some 0) :
    ∃ hwm oi ie k, Ready v offset reqEnd bs forWrite ie k ∧
      blockmapBody L v offset reqEnd forWrite bs cb f =
        emitExtents L v offset reqEnd forWrite hwm oi ie cb k := by
  have hprep := prepare_accepts (v := v) hM offset reqEnd forWrite f
  unfold blockmapBody at h ⊢
  rcases hp : prepare L v offset reqEnd forWrite f with ⟨e | hwm, g⟩
  · simp only [hp] at h
    exact absurd h (leave_ret (wp_error hprep hp).ne_zero _ _)
  simp only [hp] at h
  have hg := wp_ok hprep hp
  have hfill := fillWindow_accepts hM hwm offset reqEnd
    (if forWrite = true then g.na.initializedSize else -1) forWrite (f := g) hg
  rcases hk : fillWindow L v hwm offset reqEnd
    (if forWrite = true then g.na.initializedSize else -1) forWrite g with ⟨e | u, k⟩
  · simp only [hk] at h
    have he := wp_error hfill hk
    exact absurd h (leave_ret he _ _)
  simp only [hk] at h
  obtain ⟨hacc, hno⟩ := wp_ok hfill hk
  have hie := initEnd_accepts (L := L) hM bs forWrite hacc
  rcases hl : initEnd L v bs forWrite k with ⟨e | ie, l⟩
  · simp only [hl] at h
    exact absurd h (leave_ret (wp_error hie hl).ne_zero _ _)
  obtain ⟨hl1, hl2, hl3⟩ := wp_ok hie hl
  refine ⟨hwm, if forWrite = true then g.na.initializedSize else -1, ie, l,
    ⟨hl1, fun hw => ⟨(hl2 hw).1, ?_⟩, hl3⟩, ?_⟩
  · rw [(hl2 hw).2]
    exact hno hw
  · simp only [hk, hl]

/-- A map that returns 0 had a proper window and ran its extent loop. -/
theorem nkBlockmap_ready (hM : L.Maps) {length blocksize : ℤ} {f : NkFile σ}
    (h : (nkBlockmap L v offset length forWrite blocksize cb f).ret = some 0) :
    (0 ≤ offset ∧ 0 < length ∧ offset + length ≤ int64Max ∧
      blockSize blocksize ∣ v.vol.clusterSize) ∧
    ∃ hwm oi ie k, Ready v offset (offset + length) (blockSize blocksize) forWrite ie k ∧
      nkBlockmap L v offset length forWrite blocksize cb f =
        emitExtents L v offset (offset + length) forWrite hwm oi ie cb k := by
  have hin := nkBlockmap_enters h
  refine ⟨⟨hin.offset_nonneg, hin.length_pos, hin.stop_le, Int.dvd_of_emod_eq_zero hin.blocks⟩, ?_⟩
  rw [hin.map_eq] at h ⊢
  exact blockmapBody_ready hM _ h

theorem blockmapOut_rl (oi r : ℤ) (es : List Extent) (f : NkFile σ) :
    (blockmapOut L oi r es f).file.na.rl = f.na.rl := by
  unfold blockmapOut
  rw [(flush_spec L r _).1.na]
  split_ifs
  · exact stampInit_rl oi f
  · rfl

theorem handOut_same (L : Libntfs σ) (reqEnd : ℤ) (forWrite : Bool) (hwm : ℤ) (p : Packed)
    (g : NkFile σ) : (handOut L reqEnd forWrite hwm p g).file.na = g.na ∧
      (handOut L reqEnd forWrite hwm p g).file.disk = g.disk := by
  have hset : (g.wrSet L (p.mappedEnd reqEnd)).2.na = g.na ∧
      (g.wrSet L (p.mappedEnd reqEnd)).2.disk = g.disk := by
    rcases wrSet_spec L (p.mappedEnd reqEnd) g with ⟨-, h⟩ | ⟨-, h⟩ <;> exact ⟨h.na, h.disk⟩
  simp only [handOut]
  split_ifs <;> first | exact ⟨rfl, rfl⟩ | exact hset

/-- What is handed out: a write map is whole unless the packer is full, a read map ends in
zeros. -/
theorem handOut_spec (L : Libntfs σ) (reqEnd : ℤ) (forWrite : Bool) (hwm : ℤ) (p : Packed)
    (g : NkFile σ) :
    ((handOut L reqEnd forWrite hwm p g).ret.getD 0 = 0 → forWrite = true →
      (handOut L reqEnd forWrite hwm p g).extents = p.extents ∧
        (p.full = true ∨ reqEnd ≤ p.covered)) ∧
    (forWrite = false → (handOut L reqEnd forWrite hwm p g).extents = p.extents ∧
        (p.full = true ∨ reqEnd ≤ p.covered) ∨
      p.full = false ∧ p.covered < reqEnd ∧ (handOut L reqEnd forWrite hwm p g).extents =
        p.extents ++ [⟨p.covered, -1, reqEnd - p.covered⟩]) := by
  unfold handOut
  extract_lets short extents mappedEnd r
  have hshort : short = true ↔ p.full = false ∧ p.covered < reqEnd := by
    simp [short]
  have hlong : short = false → p.full = true ∨ reqEnd ≤ p.covered := fun h => by
    have hn : ¬ (p.full = false ∧ p.covered < reqEnd) := fun hs => by
      rw [hshort.mpr hs] at h
      cases h
    cases hf : p.full with
    | true => exact .inl rfl
    | false => exact .inr (not_lt.mp fun hlt => hn ⟨hf, hlt⟩)
  cases forWrite <;> cases hs : short
  · simp only [extents, hs, Bool.false_and, Bool.false_eq_true, if_false, false_and]
    exact ⟨fun _ h => h.elim, fun _ => .inl ⟨trivial, hlong hs⟩⟩
  · simp only [extents, hs, Bool.and_false, Bool.not_false, Bool.and_true, Bool.false_eq_true,
      if_false, if_true, false_and]
    exact ⟨fun _ h => h.elim, fun _ => .inr ⟨(hshort.mp hs).1, (hshort.mp hs).2, trivial⟩⟩
  · simp only [extents, hs, Bool.false_and, Bool.false_eq_true, if_false, true_and]
    refine ⟨fun _ _ => ⟨?_, hlong hs⟩, fun h => absurd h (by decide)⟩
    split_ifs <;> rfl
  · simp only [Bool.and_true, if_true]
    exact ⟨fun h => absurd h (by decide), fun h => absurd h (by decide)⟩

/-- The extents `es` of a map that returned 0, up to the end `stop` of what the packer took:
those of the loop, and zeros after them where a read map ends past the last run. -/
structure Handed (reqEnd : ℤ) (forWrite : Bool) (offset : ℤ) (p : Packed) (es : List Extent)
    (stop : ℤ) : Prop where
  tiles : Tiles offset stop es
  lt : offset < stop
  le : stop ≤ reqEnd
  whole : p.full = false → stop = reqEnd
  loop : Tiles offset p.covered p.extents
  shape : es = p.extents ∧ stop = p.covered ∨
    forWrite = false ∧ es = p.extents ++ [⟨p.covered, -1, reqEnd - p.covered⟩]

theorem handOut_handed {csize ie pos hwm : ℤ} {rl : Runlist} {p : Packed} {g : NkFile σ}
    (hp : PackInv csize rl offset reqEnd ie pos p) (hw : offset < reqEnd)
    (hret : (handOut L reqEnd forWrite hwm p g).ret.getD 0 = 0) :
    ∃ stop, Handed reqEnd forWrite offset p (handOut L reqEnd forWrite hwm p g).extents stop := by
  obtain ⟨hwrite, hread⟩ := handOut_spec L reqEnd forWrite hwm p g
  have hle := hp.le
  have hwhole : (handOut L reqEnd forWrite hwm p g).extents = p.extents →
      (p.full = true ∨ reqEnd ≤ p.covered) →
      Handed reqEnd forWrite offset p (handOut L reqEnd forWrite hwm p g).extents p.covered := by
    intro hext hend
    refine ⟨hext ▸ hp.tiles, ?_, hle, fun hf => ?_, hp.tiles, .inl ⟨hext, rfl⟩⟩
    · rcases hend with hend | hend
      · exact hp.more hend
      · omega
    · rcases hend with hend | hend
      · rw [hf] at hend
        cases hend
      · omega
  cases hforWrite : forWrite with
  | true =>
    obtain ⟨hext, hend⟩ := hwrite hret hforWrite
    exact ⟨_, hforWrite ▸ hwhole hext hend⟩
  | false =>
    rcases hread hforWrite with ⟨hext, hend⟩ | ⟨-, hlt, hext⟩
    · exact ⟨_, hforWrite ▸ hwhole hext hend⟩
    · have ht := hp.tiles.append_one (e := ⟨p.covered, -1, reqEnd - p.covered⟩) rfl
        (by dsimp only; omega)
      rw [show p.covered + (reqEnd - p.covered) = reqEnd by omega, ← hext, hforWrite] at ht
      exact ⟨reqEnd, ht, hw, le_rfl, fun _ => rfl, hp.tiles, .inr ⟨rfl, hforWrite ▸ hext⟩⟩

/-- The extent loop of a map that returns 0, and what is handed out of it. -/
theorem emitExtents_handed (hc : 0 < v.vol.clusterSize) {bs ie hwm oi : ℤ} {k : NkFile σ}
    (hk : Ready v offset reqEnd bs forWrite ie k) (h0 : 0 ≤ offset) (hw : offset < reqEnd)
    (hret : (emitExtents L v offset reqEnd forWrite hwm oi ie cb k).ret = some 0) :
    ∃ stop, Handed reqEnd forWrite offset
        (packRuns v.vol.clusterSize offset reqEnd ie cb k.na.rl.elements ⟨[], offset, false⟩)
        (emitExtents L v offset reqEnd forWrite hwm oi ie cb k).extents stop ∧
      (emitExtents L v offset reqEnd forWrite hwm oi ie cb k).file.na.rl = k.na.rl := by
  obtain ⟨pos, hp, -⟩ := packRuns_contiguous cb hc hw h0 ie hk.accepted.contiguous
  simp only [emitExtents] at hret ⊢
  obtain ⟨c, hc, hz⟩ := blockmapOut_ret L oi _ _ _
  obtain ⟨stop, hh⟩ := handOut_handed hp hw (hz (Option.some.inj (hc.symm.trans hret)))
  refine ⟨stop, hh, ?_⟩
  rw [blockmapOut_rl, (handOut_same L reqEnd forWrite hwm _ k).1]

/-- The extents of a write map that returns 0 are data in runs of the file: the window holds
no hole, and no `init_end` cuts it. -/
theorem emitExtents_inRun (hc : 0 < v.vol.clusterSize) {bs ie hwm oi : ℤ} {k : NkFile σ}
    (hk : Ready v offset reqEnd bs true ie k) (h0 : 0 ≤ offset) (hw : offset < reqEnd)
    (hmax : reqEnd ≤ int64Max)
    (hret : (emitExtents L v offset reqEnd true hwm oi ie cb k).ret = some 0) :
    ∀ e ∈ (emitExtents L v offset reqEnd true hwm oi ie cb k).extents,
      e.InRun v.vol (emitExtents L v offset reqEnd true hwm oi ie cb k).file.na.rl.elements := by
  obtain ⟨stop, hh, hrl⟩ := emitExtents_handed hc hk h0 hw hret
  obtain ⟨hie, hno⟩ := hk.write rfl
  intro e he
  have hwithin := hh.tiles.within e he
  have hpos := hh.tiles.pos e he
  have hext : e ∈ (packRuns v.vol.clusterSize offset reqEnd ie cb k.na.rl.elements
      ⟨[], offset, false⟩).extents := by
    rcases hh.shape with ⟨hs, -⟩ | ⟨hs, -⟩
    · exact hs ▸ he
    · cases hs
  rw [hrl]
  rcases packRuns_cutFrom hc _ _ e hext with he | ⟨r, hr, hcut⟩
  · cases he
  -- the run holds the extent's first byte, so it is no hole
  obtain ⟨-, -, hlcn⟩ := hk.accepted.contiguous.vcn_ge r hr
  have hne : r.lcn ≠ lcnHole := fun hole => by
    have := firstHole_none hno r hr hole e.logical hwithin.1 hcut.meets.2 hcut.begin_ge
    have := hcut.end_le
    omega
  have hreal : 0 ≤ r.lcn := by
    unfold lcnHole at hlcn hne
    omega
  have hle := hh.le
  rcases hcut.inRun hc hr (hk.accepted.fits hc r hr) with hz | hin
  · exact absurd hz (hcut.data hreal (by omega))
  · exact hin

/-- The block size of the caller divides the one extents are aligned to. -/
theorem dvd_blockSize {blocksize csize : ℤ} {k : ℕ} (hb : 0 < blocksize) (hc : csize = 2 ^ k)
    (hdvd : blocksize ∣ csize) : blocksize ∣ blockSize blocksize := by
  unfold blockSize
  split_ifs with h
  · exact dvd_rfl
  · obtain ⟨j, -, hj⟩ := (Int.natAbs_dvd_natAbs.mpr hdvd |> fun h' => by
      rw [hc, Int.natAbs_pow] at h'
      exact (Nat.dvd_prime_pow Nat.prime_two).mp h' : ∃ j, j ≤ k ∧ blocksize.natAbs = 2 ^ j)
    have hlt : 2 ^ j < 2 ^ 9 := by omega
    have hle : j ≤ 9 := ((Nat.pow_lt_pow_iff_right (by decide)).mp hlt).le
    have h512 : blocksize.natAbs ∣ 512 := hj ▸ pow_dvd_pow 2 hle
    exact Int.natAbs_dvd.mp (Int.natCast_dvd_natCast.mpr h512)

/-- Extents tile the window. With a packer that never fills up, a map that returns 0 emits
extents that follow each other from the window's start to its end; a data extent lies in one
run of the file, at the run's place, inside the volume; and the extents of a window of whole
blocks are whole blocks. -/
theorem extents_tile_window (hM : L.Maps) {k : ℕ} (hpow : v.vol.clusterSize = 2 ^ k)
    {blocksize : ℤ} (hb : 0 < blocksize) (hdvd : blocksize ∣ v.vol.clusterSize)
    (hcb : ∀ es, cb es = false) {length : ℤ} {f : NkFile σ}
    (hret : (nkBlockmap L v offset length forWrite blocksize cb f).ret = some 0) :
    Tiles offset (offset + length) (nkBlockmap L v offset length forWrite blocksize cb f).extents ∧
    (∀ e ∈ (nkBlockmap L v offset length forWrite blocksize cb f).extents, e.physical = -1 ∨
      e.InRun v.vol (nkBlockmap L v offset length forWrite blocksize cb f).file.na.rl.elements) ∧
    (blocksize ∣ offset → blocksize ∣ length →
      ∀ e ∈ (nkBlockmap L v offset length forWrite blocksize cb f).extents,
        e.Aligned blocksize) := by
  have hc : 0 < v.vol.clusterSize := hpow ▸ by positivity
  obtain ⟨⟨h0, hl, hmax, -⟩, hwm, oi, ie, g, hg, heq⟩ := nkBlockmap_ready hM hret
  rw [heq] at hret ⊢
  obtain ⟨stop, hh, hrl⟩ := emitExtents_handed hc hg h0 (show offset < offset + length by omega)
    hret
  set p := packRuns v.vol.clusterSize offset (offset + length) ie cb g.na.rl.elements
    ⟨[], offset, false⟩
  set m := emitExtents L v offset (offset + length) forWrite hwm oi ie cb g
  have hfull : p.full = false := packRuns_not_full hcb _ _ rfl
  have hcut : ∀ e ∈ p.extents, ∃ r ∈ g.na.rl.elements,
      e.CutFrom v.vol.clusterSize offset (offset + length) ie r := fun e he => by
    rcases packRuns_cutFrom hc _ _ e he with he | hcut
    · cases he
    · exact hcut
  have hext : ∀ e ∈ m.extents, e ∈ p.extents ∨
      e = ⟨p.covered, -1, offset + length - p.covered⟩ := fun e he => by
    rcases hh.shape with ⟨hs, -⟩ | ⟨-, hs⟩
    · exact .inl (hs ▸ he)
    · rw [hs] at he
      exact (List.mem_append.mp he).imp id List.mem_singleton.mp
  refine ⟨hh.whole hfull ▸ hh.tiles, fun e he => ?_, fun ho hlen e he => ?_⟩
  · rw [hrl]
    rcases hext e he with he | rfl
    · obtain ⟨r, hr, hre⟩ := hcut e he
      exact hre.inRun hc hr (hg.accepted.fits hc r hr)
    · exact .inl rfl
  · have hie : ie < offset + length → blocksize ∣ ie := fun hlt => by
      cases hforWrite : forWrite with
      | true =>
        have := (hg.write hforWrite).1
        omega
      | false => exact (dvd_blockSize hb hpow hdvd).trans (hg.read hforWrite)
    have hal : ∀ e ∈ p.extents, e.Aligned blocksize := fun e he => by
      obtain ⟨r, -, hre⟩ := hcut e he
      exact hre.aligned hdvd ho (ho.add hlen) hie
    rcases hext e he with he | rfl
    · exact hal e he
    · have hcov : blocksize ∣ p.covered := hh.loop.dvd ho fun e he => (hal e he).length
      exact ⟨hcov, (ho.add hlen).sub hcov, fun h : 0 ≤ (-1 : ℤ) => absurd h (by decide)⟩

end Whole

/-- A file of three 512-byte clusters, the middle one a hole. -/
def sparseFile : NkFile Unit where
  disk _ := 0xAA
  na := ⟨true, false, false, 1536, 100, 100, [⟨0, 4, 1⟩, ⟨1, -1, 1⟩, ⟨2, 9, 1⟩], fun _ => 0⟩
  eng := ()
  mref := 7
  wr := []

theorem extents_tile_window_sparse :
    (nkBlockmap (sparseDisk 512 20) craftedVolume 0 2048 false 512 (fun _ => false)
      sparseFile).ret = some 0 ∧
    Tiles 0 2048 (nkBlockmap (sparseDisk 512 20) craftedVolume 0 2048 false 512 (fun _ => false)
      sparseFile).extents := by
  have hret : (nkBlockmap (sparseDisk 512 20) craftedVolume 0 2048 false 512 (fun _ => false)
      sparseFile).ret = some 0 := by decide +kernel
  exact ⟨hret, (extents_tile_window (sparseDisk_maps 512 20) (k := 9) (by decide) (by decide)
    (by decide) (fun _ => rfl) hret).1⟩

end NtfsKit
