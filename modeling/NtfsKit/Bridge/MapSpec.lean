import NtfsKit.Bridge.Extents
import NtfsKit.Bridge.MapStages

/-! `nk_blockmap` as a whole. Whatever it returns, it returns; no byte below the
mark changes and no cluster moves. A write map that returns 0 is a `MapWrite` of
the part of the window its extents tile, each byte of which is named where it
lies on the device. A read map that returns 0 is a `MapRead`, and its extents say
of every byte where it lies or that it is zero. -/

namespace NtfsKit

variable {σ : Type} {vol : NtfsVolume}

open Prog

theorem NkFile.wrHwm_marked (hwm : ℤ) (f : NkFile σ) : (f.marked hwm).wrHwm = hwm := by
  simp [wrHwm, marked, SwapTable.find_set]

theorem NkFile.view_marked (hwm : ℤ) (f : NkFile σ) :
    (f.marked hwm).view vol = { f.view vol with hwm := hwm } := by
  simp only [view, wrHwm_marked]
  rfl

theorem wrSet_spec (L : Libntfs σ) (hwm : ℤ) (f : NkFile σ) :
    ((f.wrSet L hwm).1 = 0 ∧ SameFile (f.marked hwm) (f.wrSet L hwm).2) ∨
    ((f.wrSet L hwm).1 = -1 ∧ SameFile f (f.wrSet L hwm).2) := by
  unfold NkFile.wrSet
  split_ifs with h
  · exact .inl ⟨rfl, .refl _⟩
  · cases hr : (f.libEng L.realloc).1 with
    | true => exact .inl ⟨by simp [hr], by simpa [hr] using ⟨rfl, rfl, rfl, rfl⟩⟩
    | false => exact .inr ⟨by simp [hr], by simpa [hr] using ⟨rfl, rfl, rfl, rfl⟩⟩

theorem flush_spec (L : Libntfs σ) (r : ℤ) (f : NkFile σ) :
    SameFile f (flush L r f).2 ∧ ((flush L r f).1 = 0 → r = 0) := by
  refine ⟨⟨rfl, rfl, rfl, rfl⟩, fun h => ?_⟩
  simp only [flush] at h
  split_ifs at h with h1 h2 h3
  exact h

/-- What every map keeps, whatever it returns. -/
structure Mapped (vol : NtfsVolume) (f g : NkFile σ) : Prop where
  sound : g.Sound vol
  mref : g.mref = f.mref
  phys : ∀ x p, f.phys vol x = some p → g.phys vol x = some p
  disturb : Disturb (f.view vol) (g.view vol)

theorem Mapped.same {f g h : NkFile σ} (hm : Mapped vol f g) (hs : SameFile g h) :
    Mapped vol f h where
  sound := hs.sound hm.sound
  mref := hs.mref.trans hm.mref
  phys x p hp := by rw [hs.phys]; exact hm.phys x p hp
  disturb := by rw [hs.view]; exact hm.disturb

theorem Quiet.mapped {f g : NkFile σ} (hf : f.Sound vol)
    (h : Quiet vol (f.view vol).mark f g) : Mapped vol f g where
  sound := ⟨h.wf, h.wr ▸ hf.distinct, h.wrHwm ▸ hf.hwm_nonneg,
    h.wrHwm ▸ hf.hwm_le.trans h.keep.size_le⟩
  mref := h.mref
  phys := h.phys
  disturb := ⟨h.keep, h.rec_le, h.wf.init_le, h.wrHwm.ge,
    h.wrHwm.trans_le (hf.hwm_le.trans h.keep.size_le)⟩

theorem Quiet.mapped_marked {f g : NkFile σ} (hf : f.Sound vol)
    (h : Quiet vol (f.view vol).mark f g) {m : ℤ} (hlt : f.wrHwm < m)
    (hle : m ≤ g.na.dataSize) : Mapped vol f (g.marked m) where
  sound := ⟨h.wf.of_na_eq rfl, (h.wr ▸ hf.distinct : SwapTable.Distinct g.wr).set _ _,
    by rw [g.wrHwm_marked]; exact hf.hwm_nonneg.trans hlt.le, by rw [g.wrHwm_marked]; exact hle⟩
  mref := h.mref
  phys := h.phys
  disturb := by
    rw [g.view_marked]
    exact ⟨⟨h.keep.size_le, h.keep.tail_le, h.keep.content⟩, h.rec_le, h.wf.init_le, hlt.le, hle⟩

/-! ### The exit path -/

theorem blockmapOut_ret (L : Libntfs σ) (oi r : ℤ) (es : List Extent) (f : NkFile σ) :
    ∃ c, (blockmapOut L oi r es f).ret = some c ∧ (c = 0 → r = 0) :=
  ⟨_, rfl, (flush_spec L r _).2⟩

/-- `ntfs_inode_sync` and `ntfs_inode_close` succeed. -/
structure Libntfs.Settled (L : Libntfs σ) : Prop where
  inodeSync : ∀ e, (L.inodeSync e).1 = 0
  inodeClose : ∀ e, (L.inodeClose e).1 = 0

/-- A settled library adds no failure at the end. -/
theorem blockmapOut_settled {L : Libntfs σ} (h : L.Settled) (oi r : ℤ) (es : List Extent)
    (f : NkFile σ) : (blockmapOut L oi r es f).ret = some r := by
  simp [blockmapOut, flush, NkFile.libEng, h.inodeSync, h.inodeClose]

/-- Nothing to repair: the exit path leaves the file as it is. -/
theorem blockmapOut_same (L : Libntfs σ) (oi r : ℤ) (es : List Extent) {f : NkFile σ}
    (h : ¬ (0 ≤ oi ∧ f.na.initializedSize > oi)) : SameFile f (blockmapOut L oi r es f).file := by
  unfold blockmapOut
  rw [if_neg h]
  exact (flush_spec L r f).1

/-- The exit path keeps a file quiet: the repair stamps `oi`. -/
theorem blockmapOut_quiet (L : Libntfs σ) {lo oi : ℤ} (r : ℤ) (es : List Extent)
    {f g : NkFile σ} (h : Quiet vol lo f g)
    (hoi : 0 ≤ oi → g.na.nonResident = true ∧ f.na.recInitializedSize ≤ oi ∧
      oi ≤ g.na.dataSize) : Quiet vol lo f (blockmapOut L oi r es g).file := by
  unfold blockmapOut
  refine Quiet.same ?_ (flush_spec L r _).1
  split_ifs with hc
  · obtain ⟨h1, h2, h3⟩ := hoi hc.1
    rcases stampInit_spec L oi g with ⟨_, hs⟩ | ⟨_, hs⟩
    · exact (h.stamped h1 h2 hc.1 h3).same hs
    · exact h.same hs
  · exact h

/-- A stage that left early: the call fails and the file is quiet. -/
theorem leave_spec (L : Libntfs σ) {lo oi : ℤ} {f g : NkFile σ} (h : Quiet vol lo f g)
    (hoi : 0 ≤ oi → g.na.nonResident = true ∧ f.na.recInitializedSize ≤ oi ∧
      oi ≤ g.na.dataSize) : ∀ (e : Exit) (k : NkFile σ), Left vol lo g e k →
      ∃ c, (leave L oi e k).ret = some c ∧ c ≠ 0 ∧ (leave L oi e k).extents = [] ∧
        Quiet vol lo f (leave L oi e k).file
  | .diverge, _, hl => hl.elim
  | .out r, k, ⟨hr, hk⟩ => by
    obtain ⟨c, hc, hz⟩ := blockmapOut_ret L oi r [] k
    refine ⟨c, hc, fun h0 => hr (hz h0), rfl, blockmapOut_quiet L r [] (h.trans hk) fun h0 => ?_⟩
    obtain ⟨h1, h2, h3⟩ := hoi h0
    exact ⟨hk.nonResident h1, h2, h3.trans hk.keep.size_le⟩

/-! ### Where data ends on a read -/

theorem roundUp_of_emod {m x : ℤ} (hm : 0 < m) (h : x % m ≠ 0) :
    x + (m - x % m) = roundUp m x := by
  have hlt := Int.emod_lt_of_pos x hm
  have hdiv := Int.mul_ediv_add_emod x m
  have hnn := Int.emod_nonneg x hm.ne'
  have hd : m ∣ x + (m - x % m) := ⟨x / m + 1, by rw [mul_add, mul_one]; omega⟩
  refine le_antisymm ?_ (roundUp_le hm (by omega) hd)
  obtain ⟨k, hk⟩ := dvd_roundUp m x
  have hge := le_roundUp hm x
  rw [hk] at hge ⊢
  -- a multiple of `m` at or above `x` is above the one below it
  have hlt' : m * (x / m) < m * k := by omega
  have : x / m + 1 ≤ k := Int.add_one_le_iff.mpr (lt_of_mul_lt_mul_left hlt' hm.le)
  have := Int.mul_le_mul_of_nonneg_left this hm.le
  rw [mul_add, mul_one] at this
  omega

/-- The file after the partial block at `initialized_size` was dealt with. -/
structure Padded (vol : NtfsVolume) (bs : ℤ) (f g : NkFile σ) : Prop where
  quiet : Quiet vol (f.view vol).mark f g
  nonResident : g.na.nonResident = true
  dataSize : g.na.dataSize = f.na.dataSize
  init : g.na.recInitializedSize = if f.wrHwm ≤ f.na.recInitializedSize then
    min (roundUp bs f.na.recInitializedSize) f.na.dataSize else f.na.recInitializedSize
  zero : ∀ x, f.na.recInitializedSize ≤ x → x < g.na.recInitializedSize → g.content vol x = 0

section Stages

variable {L : Libntfs σ} {v : NkVolume} (hL : L.Spec v.vol)
include hL

theorem initEnd_read_wp {bs : ℤ} (hbs : 0 < bs) {f : NkFile σ} (hf : f.toNtfs.Wf v.vol)
    (hr : f.na.nonResident = true) (hi : f.na.initializedSize = f.na.recInitializedSize) :
    wp (initEnd L v bs false)
      (fun ie g => Padded v.vol bs f g ∧ ie = roundUp bs g.na.recInitializedSize)
      (Left v.vol (f.view v.vol).mark f) f := by
  have h0 := hf.init_nonneg
  have hle := hf.init_le
  -- nothing to zero: the bytes above `init` may be in flight, or there are none
  have hself : (f.wrHwm ≤ f.na.recInitializedSize →
      f.na.recInitializedSize = min (roundUp bs f.na.recInitializedSize) f.na.dataSize) →
      Padded v.vol bs f f := fun hi => by
    refine ⟨.refl hf _, hr, rfl, ?_, fun x h1 h2 => by omega⟩
    split_ifs with hh
    · exact hi hh
    · rfl
  unfold initEnd
  rw [if_neg (by decide), wp_bind, wp_read]
  extract_lets init up zend
  have hinit : init = f.na.recInitializedSize := hi
  refine wp_ite (fun h => by omega) (fun _ => wp_ite (fun hz => ?_) (fun hz => ?_))
  · have hround : roundUp bs f.na.recInitializedSize = f.na.recInitializedSize := by
      rw [← hinit]
      exact roundUp_of_dvd hbs (Int.dvd_of_emod_eq_zero hz)
    exact ⟨hself fun _ => by omega, by omega⟩
  have hup : up = roundUp bs init := roundUp_of_emod hbs hz
  have hzend : zend = min up f.na.dataSize := by
    simp only [zend]
    split_ifs <;> omega
  have hupge : init ≤ up := hup ▸ le_roundUp hbs init
  clear_value init up zend
  refine wp_ite (fun _ => ⟨by decide, .refl hf _⟩) (fun _ => wp_ite (fun hpad => ?_) (fun hno => ?_))
  · rw [wp_bind]
    have hmark : (f.view v.vol).mark = max init f.wrHwm := by rw [hinit]; rfl
    refine wp_mono (fillZeros_wp hL (by decide) hf hr (by omega) hpad.1 (by omega)
      (by omega)) ?_ ?_
    · rintro _ g ⟨hw, hm, hwr⟩
      have hq : Quiet v.vol (f.view v.vol).mark f g :=
        (hw.partFill (by omega) hm hwr (by omega)).quiet (fun x h1 _ => .inl (by omega))
          (fun h => by omega)
      have hrec : g.na.recInitializedSize = zend := by
        rw [hw.recInit]
        split_ifs <;> omega
      have hin : g.na.initializedSize = zend := by
        rw [hw.init]
        omega
      rw [wp_bind]
      refine wp_mono (mapChecked_wp hL g) ?_ ?_
      · rintro _ k ⟨hk, _⟩
        rw [wp_bind, wp_read, wp_pure]
        refine ⟨⟨hq.same hk, ?_, ?_, ?_, fun x h1 h2 => ?_⟩, ?_⟩
        · rw [hk.na, hw.kind.nonResident, hr]
        · rw [hk.na, hw.dataSize]
        · rw [hk.na, hrec, if_pos (by omega), hzend, hup, hinit]
        · rw [hk.na] at h2
          rw [hk.content, hw.content x, if_pos (by omega)]
          rfl
        · rw [hk.na, hin, hrec]
      · rintro e k ⟨rfl, hk⟩
        exact ⟨by decide, hq.same hk⟩
    · rintro e g ⟨rfl, hg⟩
      exact ⟨by decide, hg.quiet (fun x h1 _ => .inl (by omega)) (fun h => by omega)⟩
  · exact ⟨hself fun hh => by rw [← hinit, ← hup]; omega, by rw [hinit]⟩

end Stages

/-! ### The window that is handed out -/

section HandOut

variable {csize offset reqEnd ie pos : ℤ} {rl : Runlist} {p : Packed}

/-- The end of the accepted part is the end of the extents unless the map is short. -/
theorem PackInv.mappedEnd_eq (h : PackInv csize rl offset reqEnd ie pos p)
    (hs : p.full = true ∨ reqEnd ≤ p.covered) : p.mappedEnd reqEnd = p.covered := by
  have := h.le
  unfold Packed.mappedEnd
  split_ifs with hf
  · rfl
  · rcases hs with hs | hs
    · exact absurd hs hf
    · omega

theorem handOut_write (L : Libntfs σ) (h : PackInv csize rl offset reqEnd ie pos p)
    (hw : offset < reqEnd) (hwm : ℤ) (g : NkFile σ) :
    (SameFile g (handOut L reqEnd true hwm p g).file ∨
      (hwm < p.covered ∧ SameFile (g.marked p.covered) (handOut L reqEnd true hwm p g).file)) ∧
    ((handOut L reqEnd true hwm p g).ret.getD 0 = 0 →
      (handOut L reqEnd true hwm p g).extents = p.extents ∧ offset < p.covered ∧
      SameFile (if hwm < p.covered ∧ g.na.initializedSize < p.covered then g.marked p.covered
        else g) (handOut L reqEnd true hwm p g).file) ∧
    ((handOut L reqEnd true hwm p g).ret.getD 0 ≠ 0 →
      SameFile g (handOut L reqEnd true hwm p g).file) := by
  unfold handOut
  extract_lets short extents mappedEnd r
  by_cases hs : p.full = true ∨ reqEnd ≤ p.covered
  · have hshort : short = false := by
      simp only [short]
      rcases hs with hs | hs <;> simp [hs]
    have hend : mappedEnd = p.covered := h.mappedEnd_eq hs
    have hpos : offset < p.covered := by
      rcases hs with hs | hs
      · exact h.more hs
      · omega
    simp only [hshort, Bool.false_and, Bool.false_eq_true, if_false, true_and, hend, extents,
      gt_iff_lt, hpos]
    by_cases hc : hwm < p.covered ∧ g.na.initializedSize < p.covered
    · simp only [if_pos hc, r, hend]
      rcases wrSet_spec L p.covered g with ⟨hz, hset⟩ | ⟨hz, hset⟩
      · exact ⟨.inr ⟨hc.1, hset⟩, fun _ => ⟨trivial, hset⟩, fun hn => by simp [hz] at hn⟩
      · exact ⟨.inl hset, fun hn => by simp [hz] at hn, fun _ => hset⟩
    · simp only [if_neg hc]
      exact ⟨.inl (.refl g), fun _ => ⟨trivial, .refl g⟩, fun _ => .refl g⟩
  · have hshort : short = true := by
      simp only [not_or, Bool.not_eq_true, not_le] at hs
      simp [short, hs.1, hs.2]
    simp only [hshort, Bool.true_and, if_true]
    exact ⟨.inl (.refl g), fun hn => by simp at hn, fun _ => .refl g⟩

/-- A read map emits the extents of the runs, then zeros up to the window's end. -/
theorem handOut_read (L : Libntfs σ) (h : PackInv csize rl offset reqEnd ie pos p)
    (hend : p.full = false → ∀ x, pos ≤ x → rl.phys csize x = none) (hw : offset < reqEnd)
    (hwm : ℤ) (g : NkFile σ) :
    (handOut L reqEnd false hwm p g).ret = some 0 ∧ (handOut L reqEnd false hwm p g).file = g ∧
    ∃ stop, offset < stop ∧ stop ≤ reqEnd ∧ (p.full = false → stop = reqEnd) ∧
      Tiles offset stop (handOut L reqEnd false hwm p g).extents ∧
      ∀ e ∈ (handOut L reqEnd false hwm p g).extents, e.Right csize rl ie := by
  have hle := h.le
  have hmore := h.more
  unfold handOut
  extract_lets short extents mappedEnd r
  simp only [Bool.and_false, Bool.false_eq_true, false_and, if_false]
  refine ⟨trivial, trivial, ?_⟩
  by_cases hs : p.full = false ∧ p.covered < reqEnd
  · have hext : extents = p.extents ++ [⟨p.covered, -1, reqEnd - p.covered⟩] := by
      simp [extents, short, hs.1, hs.2]
    have hcov := h.pos_eq hs.1
    refine ⟨reqEnd, hw, le_rfl, fun _ => rfl, ?_, ?_⟩
    · rw [hext]
      have ht := h.tiles.append_one (e := ⟨p.covered, -1, reqEnd - p.covered⟩) rfl
        (by simp only; omega)
      rwa [show p.covered + (reqEnd - p.covered) = reqEnd by omega] at ht
    · rw [hext]
      refine Packed.pack_right (fun _ => false) h.right fun x h1 _ => .inr ⟨rfl, .inl ?_⟩
      simp only at h1
      exact hend hs.1 x (by omega)
  · have hext : extents = p.extents := by
      rcases hf : p.full with _ | _
      · have : ¬ p.covered < reqEnd := fun hlt => hs ⟨hf, hlt⟩
        simp [extents, short, hf, this]
      · simp [extents, short, hf]
    refine ⟨p.covered, ?_, hle, fun hf => ?_, ?_, ?_⟩
    · rcases hf : p.full with _ | _
      · have : ¬ p.covered < reqEnd := fun hlt => hs ⟨hf, hlt⟩
        omega
      · exact hmore hf
    · have : ¬ p.covered < reqEnd := fun hlt => hs ⟨hf, hlt⟩
      omega
    · rw [hext]
      exact h.tiles
    · rw [hext]
      exact h.right

end HandOut

/-! ### The whole call -/

/-- A write map that returned 0. -/
structure WriteMapped (vol : NtfsVolume) (offset reqEnd : ℤ) (f : NkFile σ) (m : MapResult σ) :
    Prop where
  step : MapWrite offset (extentsEnd offset m.extents) reqEnd (f.view vol) (m.file.view vol)
  tiles : Tiles offset (extentsEnd offset m.extents) m.extents
  placed : ∀ e ∈ m.extents, ∀ x, e.logical ≤ x → x < e.logical + e.length →
    0 ≤ e.physical ∧ m.file.phys vol x = some (e.physical + (x - e.logical))

/-- A read map that returned 0. -/
structure ReadMapped (vol : NtfsVolume) (bs offset reqEnd : ℤ) (cb : List Extent → Bool)
    (f : NkFile σ) (m : MapResult σ) : Prop where
  nonResident : m.file.na.nonResident = true
  step : MapRead bs (f.view vol) (m.file.view vol)
  lt : offset < extentsEnd offset m.extents
  le : extentsEnd offset m.extents ≤ reqEnd
  whole : (∀ es, cb es = false) → extentsEnd offset m.extents = reqEnd
  tiles : Tiles offset (extentsEnd offset m.extents) m.extents
  right : ∀ e ∈ m.extents, e.Right vol.clusterSize m.file.na.rl
    (roundUp bs m.file.na.recInitializedSize)

/-- A packer that never fills up takes every extent. -/
theorem packRuns_not_full {csize offset reqEnd ie : ℤ} {cb : List Extent → Bool}
    (hcb : ∀ es, cb es = false) : ∀ (rl : List RunlistElement) (p : Packed), p.full = false →
      (packRuns csize offset reqEnd ie cb rl p).full = false
  | [], _, h => h
  | e :: rl, p, h => by
    rw [packRuns, if_neg (by simp [h])]
    refine packRuns_not_full hcb rl _ ?_
    simp only [packRun, Packed.pack, hcb]
    split_ifs <;> first | exact h | rfl

/-- A byte of the window that lies in a run is in a cluster once no hole is left. -/
theorem phys_of_firstHole_none {csize offset reqEnd x : ℤ} {rl : Runlist} {e : RunlistElement}
    (hc : 0 < csize) (hrl : rl.Ok csize)
    (hno : firstHole csize offset reqEnd rl.elements = none) (he : e ∈ rl) (h1 : offset ≤ x)
    (h2 : x < reqEnd) (h3 : e.vcn * csize ≤ x) (h4 : x < e.vcn * csize + e.length * csize) :
    rl.phys csize x ≠ none := by
  rw [hrl.phys_eq hc he h3 h4, RunlistElement.phys, if_pos]
  · simp
  · have hl := (hrl.contiguous.vcn_ge e he).2.2
    have hne : e.lcn ≠ lcnHole := fun hl => by
      have := firstHole_none hno e (hrl.elements_eq.symm ▸ he) hl x h1 h2 h3
      omega
    unfold lcnHole at hl hne
    exact ⟨by omega, h3, h4⟩

section Whole

/-- The window of a write map once its holes are filled. -/
structure Filled (vol : NtfsVolume) (offset reqEnd : ℤ) (f k : NkFile σ) : Prop where
  quiet : Quiet vol (f.view vol).mark f k
  nonResident : k.na.nonResident = true
  dataSize : k.na.dataSize = max f.na.dataSize reqEnd
  init : k.na.initializedSize = initAfterGap f.wrHwm f.na.recInitializedSize offset
  recInit : k.na.recInitializedSize = k.na.initializedSize
  zero : ∀ x, (f.view vol).mark ≤ x → x < offset → k.content vol x = 0
  noHole : firstHole vol.clusterSize offset reqEnd k.na.rl.elements = none

/-- The accepted part of a filled window is a `MapWrite`. -/
theorem Filled.writeMapped (hc : 0 < vol.clusterSize) {f k : NkFile σ} {offset reqEnd pos : ℤ}
    (h0 : 0 ≤ offset) (hmax : reqEnd ≤ int64Max) (hk : Filled vol offset reqEnd f k)
    {p : Packed} (hp : PackInv vol.clusterSize k.na.rl offset reqEnd int64Max pos p)
    (hpos : offset < p.covered) {m : MapResult σ} (hext : m.extents = p.extents)
    (hfile : SameFile (if f.wrHwm < p.covered ∧ k.na.initializedSize < p.covered
      then k.marked p.covered else k) m.file) : WriteMapped vol offset reqEnd f m := by
  have hle := hp.le
  have hend : extentsEnd offset m.extents = p.covered := by
    rw [hext]
    exact hp.tiles.extentsEnd_eq
  have hna : m.file.na = k.na := by
    rw [hfile.na]
    split_ifs <;> rfl
  have hcont : m.file.content vol = k.content vol := by
    rw [hfile.content]
    split_ifs <;> rfl
  have hview : m.file.view vol = { k.view vol with
      hwm := if f.wrHwm < p.covered ∧ k.na.initializedSize < p.covered then p.covered
        else f.wrHwm } := by
    rw [hfile.view]
    split_ifs with h
    · exact k.view_marked p.covered
    · rw [← hk.quiet.wrHwm]
      rfl
  have hsz := hk.quiet.keep
  refine ⟨?_, by rw [hend, hext]; exact hp.tiles, fun e he x h1 h2 => ?_⟩
  · rw [hview, hend]
    refine ⟨h0, hpos, hle, ⟨hsz.size_le, hsz.tail_le, hsz.content⟩, hk.zero, hk.dataSize, ?_, ?_⟩
    · exact hk.recInit.trans hk.init
    · simp only [NkFile.view, hk.recInit]
  · rw [hext] at he
    obtain ⟨h3, h4⟩ := hp.tiles.within e he
    rw [Ntfs.phys, hna]
    rcases hp.right e he x h1 h2 with ⟨h5, h6, -⟩ | ⟨-, h5⟩
    · exact ⟨h5, h6⟩
    · obtain ⟨r, hr, h6, h7⟩ := hp.inRun x (by omega) (by omega)
      rcases h5 with h5 | h5
      · exact absurd h5 (phys_of_firstHole_none hc hk.quiet.wf.rl_ok hk.noHole hr (by omega)
          (by omega) h6 h7)
      · omega

theorem emitExtents_write (L : Libntfs σ) {v : NkVolume} (hc : 0 < v.vol.clusterSize)
    {f k : NkFile σ} (hf : f.Sound v.vol) {offset reqEnd : ℤ} (h0 : 0 ≤ offset)
    (hw : offset < reqEnd) (hmax : reqEnd ≤ int64Max) (hk : Filled v.vol offset reqEnd f k)
    (cb : List Extent → Bool) {oi : ℤ} (hoi : k.na.initializedSize = oi) :
    ∃ c, (emitExtents L v offset reqEnd true f.wrHwm oi int64Max cb k).ret = some c ∧
      Mapped v.vol f (emitExtents L v offset reqEnd true f.wrHwm oi int64Max cb k).file ∧
      (c = 0 → WriteMapped v.vol offset reqEnd f
        (emitExtents L v offset reqEnd true f.wrHwm oi int64Max cb k)) ∧
      (L.Settled → c ≠ 0 →
        (emitExtents L v offset reqEnd true f.wrHwm oi int64Max cb k).file.wrHwm = f.wrHwm) := by
  unfold emitExtents
  extract_lets p m
  obtain ⟨pos, hpos, -⟩ : ∃ pos, PackInv v.vol.clusterSize k.na.rl offset reqEnd int64Max pos p ∧
      _ := packRuns_spec hc hw h0 hk.quiet.wf.rl_ok
  obtain ⟨hfile, hok, hfail⟩ := handOut_write L hpos hw f.wrHwm k
  change SameFile k m.file ∨ (f.wrHwm < p.covered ∧ SameFile (k.marked p.covered) m.file) at hfile
  have hmapped : Mapped v.vol f m.file := by
    have hle := hpos.le
    have hsize := hk.dataSize
    rcases hfile with h | ⟨hlt, h⟩
    · exact (hk.quiet.mapped hf).same h
    · exact (hk.quiet.mapped_marked hf hlt (by omega)).same h
  have hinit : m.file.na.initializedSize = oi := by
    rcases hfile with h | ⟨-, h⟩
    · rw [h.na, hoi]
    · rw [h.na]
      exact hoi
  have hout : SameFile m.file (blockmapOut L oi (m.ret.getD 0) m.extents m.file).file :=
    blockmapOut_same L _ _ _ (by omega)
  obtain ⟨c, hret, hz⟩ := blockmapOut_ret L oi (m.ret.getD 0) m.extents m.file
  refine ⟨c, hret, hmapped.same hout, fun hc0 => ?_, fun hset hne => ?_⟩
  · obtain ⟨hext, hlt, hsame⟩ := hok (hz hc0)
    exact hk.writeMapped hc h0 hmax hpos hlt hext (hsame.trans hout)
  · -- nothing failed after the extent loop, so the loop or `wr_set` did
    rw [blockmapOut_settled hset] at hret
    have hsame : SameFile k _ := (hfail (Option.some.inj hret ▸ hne)).trans hout
    exact hsame.wrHwm.trans hk.quiet.wrHwm

theorem emitExtents_read (L : Libntfs σ) {v : NkVolume} (hc : 0 < v.vol.clusterSize)
    {f k : NkFile σ} {bs offset reqEnd : ℤ} (h0 : 0 ≤ offset) (hw : offset < reqEnd)
    (hk : Padded v.vol bs f k) (hwm : ℤ) (cb : List Extent → Bool) :
    ∃ c, (emitExtents L v offset reqEnd false hwm (-1) (roundUp bs k.na.recInitializedSize)
        cb k).ret = some c ∧
      SameFile k (emitExtents L v offset reqEnd false hwm (-1)
        (roundUp bs k.na.recInitializedSize) cb k).file ∧
      ReadMapped v.vol bs offset reqEnd cb f (emitExtents L v offset reqEnd false hwm (-1)
        (roundUp bs k.na.recInitializedSize) cb k) := by
  unfold emitExtents
  extract_lets p m
  obtain ⟨pos, hpos, hnone⟩ : ∃ pos, PackInv v.vol.clusterSize k.na.rl offset reqEnd
      (roundUp bs k.na.recInitializedSize) pos p ∧ (p.full = false → ∀ x, pos ≤ x →
        k.na.rl.phys v.vol.clusterSize x = none) := packRuns_spec hc hw h0 hk.quiet.wf.rl_ok
  obtain ⟨-, hfile, stop, h1, h2, h3, htiles, hright⟩ := handOut_read L hpos hnone hw hwm k
  have hout : SameFile k (blockmapOut L (-1) (m.ret.getD 0) m.extents m.file).file := by
    have := blockmapOut_same L (-1) (m.ret.getD 0) m.extents (f := m.file) (by omega)
    rwa [show m.file = k from hfile] at this ⊢
  have hend : extentsEnd offset m.extents = stop := htiles.extentsEnd_eq
  obtain ⟨c, hret, -⟩ := blockmapOut_ret L (-1) (m.ret.getD 0) m.extents m.file
  refine ⟨c, hret, hout, ?_, ?_, hend ▸ h1, hend ▸ h2, fun hcb => ?_, ?_, ?_⟩
  · rw [hout.na]
    exact hk.nonResident
  · rw [hout.view]
    exact ⟨hk.quiet.keep, hk.dataSize, hk.quiet.wrHwm, hk.init, hk.quiet.rec_le, hk.zero⟩
  · exact hend.trans (h3 (packRuns_not_full hcb _ _ rfl))
  · exact hend.symm ▸ htiles
  · rw [hout.na]
    exact hright

variable {L : Libntfs σ} {v : NkVolume} (hL : L.Spec v.vol)
include hL

/-- A write map either fails before its extent loop and leaves the mark as it was, or runs the
loop on a file whose window is filled. -/
theorem blockmapBody_stages (hc : 0 < v.vol.clusterSize) {f : NkFile σ} (hf : f.Sound v.vol)
    (hi : f.na.initializedSize = f.na.recInitializedSize) {offset reqEnd : ℤ} (h0 : 0 ≤ offset)
    (hw : offset < reqEnd) (bs : ℤ) (cb : List Extent → Bool) :
    (∃ c, (blockmapBody L v offset reqEnd true bs cb f).ret = some c ∧ c ≠ 0 ∧
      Quiet v.vol (f.view v.vol).mark f (blockmapBody L v offset reqEnd true bs cb f).file ∧
      ∀ hwm g k, prepare L v offset reqEnd true f = (.ok hwm, g) →
        fillWindow L v hwm offset reqEnd g.na.initializedSize true g ≠ (.ok (), k)) ∨
    ∃ g k, prepare L v offset reqEnd true f = (.ok f.wrHwm, g) ∧
      fillWindow L v f.wrHwm offset reqEnd g.na.initializedSize true g = (.ok (), k) ∧
      Filled v.vol offset reqEnd f k ∧ k.na.initializedSize = g.na.initializedSize ∧
      blockmapBody L v offset reqEnd true bs cb f =
        emitExtents L v offset reqEnd true f.wrHwm g.na.initializedSize int64Max cb k := by
  have hprep := prepare_write_wp hL hc hf.wf hi hw.le
  unfold blockmapBody
  rcases hp : prepare L v offset reqEnd true f with ⟨e | hwm, g⟩
  · obtain ⟨c, hret, hne, _, hq⟩ := leave_spec L (Quiet.refl hf.wf _)
      (fun h : 0 ≤ (-1 : ℤ) => absurd h (by decide)) e g (wp_error hprep hp)
    exact .inl ⟨c, hret, hne, hq, fun _ _ _ h => by cases h⟩
  obtain ⟨rfl, hg⟩ := wp_ok hprep hp
  have hrec := hg.recInit
  have hsize := hg.dataSize
  have hmark : (f.view v.vol).mark = max f.na.recInitializedSize f.wrHwm := rfl
  have hge : f.na.recInitializedSize ≤ g.na.initializedSize := by
    rw [hg.init]
    unfold initAfterGap
    split_ifs <;> omega
  have hrep : 0 ≤ g.na.initializedSize → g.na.nonResident = true ∧
      f.na.recInitializedSize ≤ g.na.initializedSize ∧
      g.na.initializedSize ≤ g.na.dataSize := fun _ =>
    ⟨hg.nonResident, hge, hrec ▸ hg.quiet.wf.init_le⟩
  have hfill : wp (fillWindow L v f.wrHwm offset reqEnd g.na.initializedSize true) _ _ g :=
    fillWindow_wp hL hc h0 hg.quiet.wf hg.nonResident rfl hrec (by omega)
  simp only [if_true]
  rcases hk : fillWindow L v f.wrHwm offset reqEnd g.na.initializedSize true g with ⟨e | _, k⟩
  · have hl : Left v.vol (f.view v.vol).mark g e k :=
      Left.mono (by omega) e k (wp_error hfill hk).1
    obtain ⟨c, hret, hne, _, hq⟩ := leave_spec L hg.quiet hrep e k hl
    refine .inl ⟨c, hret, hne, hq, fun _ _ _ h => ?_⟩
    cases h
    rw [hk]
    exact fun h => by cases h
  obtain ⟨hkq, hkr, hkd, hki, hkrec, hno⟩ := wp_ok hfill hk
  have hfilled : Filled v.vol offset reqEnd f k := by
    refine ⟨hg.quiet.trans (hkq.mono (by omega)), hkr, hkd.trans hsize, hki.trans hg.init,
      hkrec.trans hki.symm, fun x h1 h2 => ?_, hno⟩
    have htail : g.na.dataSize ≤ g.tail v.vol := Ntfs.dataSize_le_tail hc
    have hx : 0 ≤ x := by
      have := hf.wf.init_nonneg
      omega
    exact hkq.keep.zero hx (show x < g.tail v.vol by omega) (hg.zero x h1 h2)
  exact .inr ⟨g, k, rfl, hk, hfilled, hki, rfl⟩

theorem blockmapBody_write (hc : 0 < v.vol.clusterSize) {f : NkFile σ} (hf : f.Sound v.vol)
    (hi : f.na.initializedSize = f.na.recInitializedSize) {offset reqEnd : ℤ} (h0 : 0 ≤ offset)
    (hw : offset < reqEnd) (hmax : reqEnd ≤ int64Max) (bs : ℤ) (cb : List Extent → Bool) :
    ∃ c, (blockmapBody L v offset reqEnd true bs cb f).ret = some c ∧
      Mapped v.vol f (blockmapBody L v offset reqEnd true bs cb f).file ∧
      (c = 0 → WriteMapped v.vol offset reqEnd f
        (blockmapBody L v offset reqEnd true bs cb f)) ∧
      (L.Settled → c ≠ 0 → (blockmapBody L v offset reqEnd true bs cb f).file.wrHwm = f.wrHwm) := by
  rcases blockmapBody_stages hL hc hf hi h0 hw bs cb with
    ⟨c, hret, hne, hq, -⟩ | ⟨g, k, -, -, hfilled, hki, heq⟩
  · exact ⟨c, hret, hq.mapped hf, fun h => absurd h hne, fun _ _ => hq.wrHwm⟩
  · rw [heq]
    exact emitExtents_write L hc hf h0 hw hmax hfilled cb hki

theorem blockmapBody_read (hc : 0 < v.vol.clusterSize) {f : NkFile σ} (hf : f.Sound v.vol)
    (hi : f.na.initializedSize = f.na.recInitializedSize) {offset reqEnd bs : ℤ} (h0 : 0 ≤ offset)
    (hw : offset < reqEnd) (hbs : 0 < bs) (cb : List Extent → Bool) :
    ∃ c, (blockmapBody L v offset reqEnd false bs cb f).ret = some c ∧
      Mapped v.vol f (blockmapBody L v offset reqEnd false bs cb f).file ∧
      (c = 0 → ReadMapped v.vol bs offset reqEnd cb f
        (blockmapBody L v offset reqEnd false bs cb f)) := by
  have hprep := prepare_read_wp hL hc hf.wf (f.view v.vol).mark offset reqEnd
  have hoi : ∀ P : Prop, 0 ≤ (-1 : ℤ) → P := fun _ h => absurd h (by decide)
  unfold blockmapBody
  rcases hp : prepare L v offset reqEnd false f with ⟨e | hwm, g⟩
  · obtain ⟨c, hret, hne, _, hq⟩ := leave_spec L (Quiet.refl hf.wf _) (hoi _) e g
      (wp_error hprep hp)
    exact ⟨c, hret, hq.mapped hf, fun h => absurd h hne⟩
  obtain ⟨hgq, hgs, hgd⟩ := wp_ok hprep hp
  have hfill : fillWindow L v hwm offset reqEnd (-1) false g = (.ok (), g) := rfl
  simp only [Bool.false_eq_true, if_false, hfill]
  have hgi : g.na.initializedSize = g.na.recInitializedSize := by
    rw [hgs.init, hgs.recInit, hi]
  have hie := initEnd_read_wp hL hbs hgq.wf hgs.nonResident hgi
  have hmark : (g.view v.vol).mark = (f.view v.vol).mark := by
    simp only [View.mark, NkFile.view, hgs.recInit, hgq.wrHwm]
  rcases hk : initEnd L v bs false g with ⟨e | ie, k⟩
  · have hl : Left v.vol (f.view v.vol).mark g e k :=
      Left.mono hmark.ge e k (wp_error hie hk)
    obtain ⟨c, hret, hne, _, hq⟩ := leave_spec L hgq (hoi _) e k hl
    exact ⟨c, hret, hq.mapped hf, fun h => absurd h hne⟩
  obtain ⟨hpad, rfl⟩ := wp_ok hie hk
  have hpad' : Padded v.vol bs f k := by
    have hi := hpad.init
    have hz := hpad.zero
    rw [hgs.recInit, hgq.wrHwm, hgd] at hi
    rw [hgs.recInit] at hz
    exact ⟨hgq.trans (hpad.quiet.mono hmark.ge), hpad.nonResident, hpad.dataSize.trans hgd, hi, hz⟩
  obtain ⟨c, hret, hsame, hread⟩ := emitExtents_read L hc h0 hw hpad' hwm cb
  exact ⟨c, hret, (hpad'.quiet.mapped hf).same hsame, fun _ => hread⟩

end Whole

/-! ### Opening the attribute -/

/-- Two states of one file that differ in what is loaded when it is opened. -/
structure Opened (vol : NtfsVolume) (f g : NkFile σ) : Prop where
  view : g.view vol = f.view vol
  phys : g.phys vol = f.phys vol
  mref : g.mref = f.mref
  sound : f.Sound vol → g.Sound vol

theorem SameFile.opened {f g : NkFile σ} (h : SameFile f g) : Opened vol f g :=
  ⟨h.view, h.phys, h.mref, h.sound⟩

theorem Opened.trans {f g h : NkFile σ} (h₁ : Opened vol f g) (h₂ : Opened vol g h) :
    Opened vol f h :=
  ⟨h₂.view.trans h₁.view, h₂.phys.trans h₁.phys, h₂.mref.trans h₁.mref,
    fun hf => h₂.sound (h₁.sound hf)⟩

theorem attrOpen_opened (L : Libntfs σ) (f : NkFile σ) : Opened vol f (f.attrOpen L).2 :=
  ⟨rfl, rfl, rfl, fun hf => ⟨⟨hf.wf.rl_ok, hf.wf.init_nonneg, hf.wf.init_le, hf.wf.resident⟩,
    hf.distinct, hf.hwm_nonneg, hf.hwm_le⟩⟩

theorem Opened.mapped {f g : NkFile σ} (h : Opened vol f g) (hf : f.Sound vol) :
    Mapped vol f g where
  sound := h.sound hf
  mref := h.mref
  phys x p hp := by rw [h.phys]; exact hp
  disturb := by
    rw [h.view]
    exact ⟨.refl _ _, le_rfl, hf.wf.init_le, le_rfl, hf.hwm_le⟩

theorem Mapped.of_opened {f g h : NkFile σ} (ho : Opened vol f g) (hm : Mapped vol g h) :
    Mapped vol f h where
  sound := hm.sound
  mref := hm.mref.trans ho.mref
  phys x p hp := hm.phys x p (by rw [ho.phys]; exact hp)
  disturb := ho.view ▸ hm.disturb

theorem WriteMapped.of_opened {f g : NkFile σ} {offset reqEnd : ℤ} {m : MapResult σ}
    (ho : Opened vol f g) (hm : WriteMapped vol offset reqEnd g m) :
    WriteMapped vol offset reqEnd f m :=
  ⟨ho.view ▸ hm.step, hm.tiles, hm.placed⟩

theorem ReadMapped.of_opened {f g : NkFile σ} {bs offset reqEnd : ℤ} {cb : List Extent → Bool}
    {m : MapResult σ} (ho : Opened vol f g) (hm : ReadMapped vol bs offset reqEnd cb g m) :
    ReadMapped vol bs offset reqEnd cb f m :=
  ⟨hm.nonResident, ho.view ▸ hm.step, hm.lt, hm.le, hm.whole, hm.tiles, hm.right⟩

theorem blockSize_pos (blocksize : ℤ) : 0 < blockSize blocksize := by
  unfold blockSize
  split_ifs <;> omega

/-- `nk_blockmap` returns, keeps the file sound, and does what it is for when it
returns 0. -/
theorem nkBlockmap_spec {L : Libntfs σ} {v : NkVolume} (hL : L.Spec v.vol)
    (hc : 0 < v.vol.clusterSize) {f : NkFile σ} (hf : f.Sound v.vol)
    (offset length : ℤ) (forWrite : Bool) (blocksize : ℤ) (cb : List Extent → Bool) :
    ∃ c, (nkBlockmap L v offset length forWrite blocksize cb f).ret = some c ∧
      Mapped v.vol f (nkBlockmap L v offset length forWrite blocksize cb f).file ∧
      (c = 0 → forWrite = true → WriteMapped v.vol offset (offset + length) f
        (nkBlockmap L v offset length forWrite blocksize cb f)) ∧
      (c = 0 → forWrite = false → v.vol.clusterSize % blockSize blocksize = 0 ∧
        ReadMapped v.vol (blockSize blocksize) offset (offset + length) cb f
          (nkBlockmap L v offset length forWrite blocksize cb f)) ∧
      (L.Settled → c ≠ 0 → forWrite = true →
        (nkBlockmap L v offset length forWrite blocksize cb f).file.wrHwm = f.wrHwm) := by
  have hfail : ∀ (c : ℤ) (g : NkFile σ), c ≠ 0 → Opened v.vol f g → ∀ P Q : MapResult σ → Prop,
      ∃ d, (⟨some c, [], g⟩ : MapResult σ).ret = some d ∧ Mapped v.vol f g ∧ (d = 0 →
        forWrite = true → P ⟨some c, [], g⟩) ∧ (d = 0 → forWrite = false → Q ⟨some c, [], g⟩) ∧
        (L.Settled → d ≠ 0 → forWrite = true → g.wrHwm = f.wrHwm) :=
    fun c g hne ho _ _ => ⟨c, rfl, ho.mapped hf, fun h => absurd h hne, fun h => absurd h hne,
      fun _ _ _ => congrArg View.hwm ho.view⟩
  unfold nkBlockmap
  by_cases hbad : offset < 0 ∨ length ≤ 0 ∨ offset > int64Max - length
  · rw [if_pos hbad]
    exact hfail (-1) f (by decide) (SameFile.refl f).opened _ fun m => _ ∧ _
  rw [if_neg hbad]
  extract_lets bs i a
  by_cases hbde : v.bde = true ∨ v.vol.clusterSize % bs ≠ 0
  · rw [if_pos hbde]
    exact hfail (-2) f (by decide) (SameFile.refl f).opened _ fun m => _ ∧ _
  rw [if_neg hbde]
  have hi : Opened v.vol f i.2 := (sameFile_libEng L.pathnameToInode f).opened
  have ha : Opened v.vol f a.2 := hi.trans (attrOpen_opened L i.2)
  by_cases hino : i.1 = false
  · rw [if_pos hino]
    exact hfail (-1) i.2 (by decide) hi _ fun m => _ ∧ _
  rw [if_neg hino]
  by_cases hatt : a.1 = false
  · rw [if_pos hatt]
    exact hfail (-1) _ (by decide) (ha.trans (sameFile_libEng L.inodeClose a.2).opened) _
      fun m => _ ∧ _
  rw [if_neg hatt]
  cases forWrite with
  | true =>
    obtain ⟨c, hret, hm, hw, hkeep⟩ := blockmapBody_write hL hc (ha.sound hf) rfl (by omega)
      (show offset < offset + length by omega) (by omega) bs cb
    exact ⟨c, hret, hm.of_opened ha, fun h _ => (hw h).of_opened ha,
      fun _ h => absurd h (by decide),
      fun hset hne _ => (hkeep hset hne).trans (congrArg View.hwm ha.view)⟩
  | false =>
    obtain ⟨c, hret, hm, hr⟩ := blockmapBody_read hL hc (ha.sound hf) rfl (by omega)
      (show offset < offset + length by omega) (blockSize_pos blocksize) cb
    refine ⟨c, hret, hm.of_opened ha, fun _ h => absurd h (by decide),
      fun h _ => ⟨?_, (hr h).of_opened ha⟩, fun _ _ h => absurd h (by decide)⟩
    by_contra hne
    exact hbde (.inr hne)

end NtfsKit
