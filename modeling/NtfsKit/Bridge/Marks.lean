import NtfsKit.Bridge.Complete
import NtfsKit.Lib.Respects

/-! A call on one file reads and changes no entry of the table but the file's own. Two
runs stand side by side, one with the volume's table and one with another table that has
the same entry for the file: every stage of every call gives the same answers and leaves
the two in step, and the entries of the other files stay what they were. -/

namespace NtfsKit

variable {σ : Type} {m : ℕ} {base : ℕ → Option ℤ} {f g : NkFile σ}

/-- One file under two tables: the same library state and the same entry of the file;
the other entries of the first table are those of `base`. -/
structure Mirrors (m : ℕ) (base : ℕ → Option ℤ) (f g : NkFile σ) : Prop where
  ntfs : f.toNtfs = g.toNtfs
  mref : f.mref = m
  mref' : g.mref = m
  distinct : SwapTable.Distinct f.wr
  distinct' : SwapTable.Distinct g.wr
  own : SwapTable.find f.wr m = SwapTable.find g.wr m
  rest : ∀ k, k ≠ m → SwapTable.find f.wr k = base k

namespace Mirrors

theorem na (h : Mirrors m base f g) : f.na = g.na := congrArg Ntfs.na h.ntfs

theorem eng (h : Mirrors m base f g) : f.eng = g.eng := congrArg Ntfs.eng h.ntfs

theorem find (h : Mirrors m base f g) :
    SwapTable.find f.wr f.mref = SwapTable.find g.wr g.mref := by
  rw [h.mref, h.mref', h.own]

theorem wrHwm (h : Mirrors m base f g) : f.wrHwm = g.wrHwm := by
  rw [NkFile.wrHwm, NkFile.wrHwm, h.find]

/-- The library may do anything to the file, as long as it does the same to both. -/
theorem withNtfs (h : Mirrors m base f g) {s t : Ntfs σ} (hst : s = t) :
    Mirrors m base { f with toNtfs := s } { g with toNtfs := t } :=
  { h with ntfs := hst }

theorem marked (h : Mirrors m base f g) (hwm : ℤ) :
    Mirrors m base (f.marked hwm) (g.marked hwm) where
  ntfs := h.ntfs
  mref := h.mref
  mref' := h.mref'
  distinct := h.distinct.set _ _
  distinct' := h.distinct'.set _ _
  own := by
    simp only [NkFile.marked, SwapTable.find_set, h.mref, h.mref', if_true]
  rest k hk := by
    simp only [NkFile.marked, SwapTable.find_set, h.mref, if_neg hk]
    exact h.rest k hk

theorem wrDrop (h : Mirrors m base f g) : Mirrors m base f.wrDrop g.wrDrop where
  ntfs := h.ntfs
  mref := h.mref
  mref' := h.mref'
  distinct := h.distinct.swapRemove _
  distinct' := h.distinct'.swapRemove _
  own := by
    simp only [NkFile.wrDrop, SwapTable.find_swapRemove h.distinct,
      SwapTable.find_swapRemove h.distinct', h.mref, h.mref', if_true]
  rest k hk := by
    simp only [NkFile.wrDrop, SwapTable.find_swapRemove h.distinct, h.mref, if_neg hk]
    exact h.rest k hk

theorem setInit (h : Mirrors m base f g) (val : ℤ) :
    Mirrors m base (f.setInit val) (g.setInit val) :=
  h.withNtfs (by rw [h.ntfs])

theorem ite {c : Prop} [Decidable c] {f' g' : NkFile σ} (ht : Mirrors m base f g)
    (hf : Mirrors m base f' g') : Mirrors m base (if c then f else f') (if c then g else g') := by
  split_ifs
  · exact ht
  · exact hf

end Mirrors

namespace NkFile

variable {A : Type} (L : Libntfs σ)

theorem lib_respects (c : Ntfs σ → A × Ntfs σ) : Respects (Mirrors m base) (lib c) := by
  intro f g h
  refine ⟨?_, h.withNtfs ?_⟩
  · simp only [lib, h.ntfs]
  · rw [h.ntfs]

theorem libEng_respects (c : σ → A × σ) : Respects (Mirrors m base) (libEng c) := by
  intro f g h
  refine ⟨?_, h.withNtfs ?_⟩
  · simp only [libEng, h.eng]
  · rw [h.ntfs]

theorem wrSet_respects (hwm : ℤ) : Respects (Mirrors m base) (wrSet L hwm) := by
  intro f g h
  have hfind : (SwapTable.find f.wr f.mref).isSome = (SwapTable.find g.wr g.mref).isSome := by
    rw [h.find]
  obtain ⟨hr, hs⟩ := libEng_respects L.realloc f g h
  simp only [wrSet, hfind, hr]
  split_ifs
  · exact ⟨rfl, h.marked hwm⟩
  · exact ⟨rfl, hs.marked hwm⟩
  · exact ⟨rfl, hs⟩

theorem stampInit_respects (val : ℤ) : Respects (Mirrors m base) (stampInit L val) := by
  intro f g h
  obtain ⟨hr, hs⟩ := libEng_respects L.attrLookup f g h
  simp only [stampInit, hr]
  split_ifs
  · exact ⟨rfl, hs.withNtfs (by rw [hs.ntfs])⟩
  · exact ⟨rfl, hs⟩

theorem attrOpen_respects : Respects (Mirrors m base) (attrOpen L) := by
  intro f g h
  obtain ⟨hr, hs⟩ := libEng_respects L.attrOpen f g h
  refine ⟨hr, ?_⟩
  simp only [attrOpen, hs.na]
  exact hs.setInit _

end NkFile

section Raw

variable (L : Libntfs σ) (v : NkVolume)

theorem pwriteZeros_respects : ∀ cs, Respects (Mirrors m base) (pwriteZeros L cs)
  | [], _, _, h => ⟨rfl, h⟩
  | c :: cs, f, g, h => by
    obtain ⟨hr, hs⟩ := NkFile.lib_respects (fun s => L.pwrite s c.1 c.2 zeros) f g h
    simp only [pwriteZeros, hr]
    split_ifs
    · exact ⟨rfl, hs⟩
    · exact pwriteZeros_respects cs _ _ hs

theorem zeroRaw_respects (lo hi : ℤ) : Respects (Mirrors m base) (zeroRaw L v lo hi) := by
  intro f g h
  rw [zeroRaw, zeroRaw, h.na]
  exact pwriteZeros_respects L _ f g h

end Raw

/-! ### The stages of a map -/

section Stages

open Prog

variable (L : Libntfs σ) (v : NkVolume)

theorem orFail_respects {c : Bridge σ ℤ} (h : Respects (Mirrors m base) c) (expect : ℤ) :
    Respects (Mirrors m base) (orFail c expect) :=
  h.bind fun _ => .ite (.exit _) (.pure _)

theorem pwriteZeroed_respects (c : ℤ × ℤ) : Respects (Mirrors m base) (pwriteZeroed L c) :=
  orFail_respects (.call (NkFile.lib_respects _)) _

theorem mapChecked_respects : Respects (Mirrors m base) (mapChecked L v) := by
  refine (orFail_respects (.call (NkFile.lib_respects _)) 0).bind fun _ => ?_
  refine .read (fun f g h => ?_) fun f => ?_
  · rw [h.na]
  · exact .ite (.exit _) (.pure _)

theorem makeMappable_respects : Respects (Mirrors m base) (makeMappable L v) := by
  refine .read (fun f g h => ?_) fun f => ?_
  · rw [h.na]
  · refine .ite (.exit _) (.ite (.pure _) (.ite (.exit _) ?_))
    exact (Respects.call (NkFile.lib_respects _)).bind fun _ => .ite (.exit _) (.pure _)

theorem growSolid_respects (forWrite : Bool) (reqEnd : ℤ) :
    Respects (Mirrors m base) (growSolid L forWrite reqEnd) := by
  refine .read (fun f g h => ?_) fun f => ?_
  · rw [h.na]
  · exact .ite (orFail_respects (.call (NkFile.lib_respects _)) 0) (.pure _)

theorem zeroBelow_respects (hwm init offset : ℤ) :
    Respects (Mirrors m base) (zeroBelow L v hwm init offset) := by
  refine .ite ?_ (.ite ?_ (.pure _))
  · exact (Respects.each (pwriteZeroed_respects L) _).bind fun _ => mapChecked_respects L v
  · exact orFail_respects (.call (zeroRaw_respects L v hwm offset)) 0

theorem zeroGap_respects (offset : ℤ) : Respects (Mirrors m base) (zeroGap L v offset) := by
  refine .read (fun f g h => ?_) fun f => ?_
  · rw [h.na, h.wrHwm]
  · exact (zeroBelow_respects L v _ _ offset).bind fun _ => .pure _

theorem prepare_respects (offset reqEnd : ℤ) (forWrite : Bool) :
    Respects (Mirrors m base) (prepare L v offset reqEnd forWrite) :=
  (makeMappable_respects L v).bind fun _ => (growSolid_respects L forWrite reqEnd).bind fun _ =>
    (mapChecked_respects L v).bind fun _ => .ite (zeroGap_respects L v offset) (.pure _)

theorem fillHole_respects (hwm start stop : ℤ) :
    Respects (Mirrors m base) (fillHole L v hwm start stop) := by
  refine (Respects.modify fun f g h => ?_).bind fun _ => ?_
  · simp only [skipInFlight, h.na]
    exact (h.setInit hwm).ite h
  · exact (Respects.each (pwriteZeroed_respects L) _).bind fun _ => mapChecked_respects L v

theorem fillHoles_respects (hwm offset reqEnd : ℤ) : ∀ fuel,
    Respects (Mirrors m base) (fillHoles L v hwm offset reqEnd fuel)
  | 0 => .exit _
  | fuel + 1 => by
    refine .read (fun f g h => ?_) fun f => ?_
    · rw [h.na]
    · split
      · exact .pure _
      · exact (fillHole_respects L v hwm _ _).bind fun _ =>
          fillHoles_respects hwm offset reqEnd fuel

theorem restoreInit_respects (oi : ℤ) : Respects (Mirrors m base) (restoreInit L oi) := by
  refine .read (fun f g h => ?_) fun f => ?_
  · rw [h.na]
  · exact .ite (orFail_respects (.call (NkFile.stampInit_respects L oi)) 0) (.pure _)

theorem fillWindow_respects (hwm offset reqEnd oi : ℤ) (forWrite : Bool) :
    Respects (Mirrors m base) (fillWindow L v hwm offset reqEnd oi forWrite) :=
  .ite ((fillHoles_respects L v hwm offset reqEnd _).bind fun _ => restoreInit_respects L oi)
    (.pure _)

theorem initEnd_respects (bs : ℤ) (forWrite : Bool) :
    Respects (Mirrors m base) (initEnd L v bs forWrite) := by
  refine .ite (.pure _) (.read (fun f g h => ?_) fun f => ?_)
  · rw [h.na, h.wrHwm]
  · refine .ite (.exit _) (.ite (.pure _) (.ite (.exit _) (.ite ?_ (.pure _))))
    refine (Respects.each (pwriteZeroed_respects L) _).bind fun _ =>
      (mapChecked_respects L v).bind fun _ => .read (fun f g h => ?_) fun f => .pure _
    rw [h.na]

end Stages

/-! ### Whole calls -/

/-- What a map answers, and the file it leaves. -/
def MapResult.split (r : MapResult σ) : (Option ℤ × List Extent) × NkFile σ :=
  ((r.ret, r.extents), r.file)

section Calls

variable (L : Libntfs σ) (v : NkVolume)

theorem handOut_respects (reqEnd : ℤ) (forWrite : Bool) (hwm : ℤ) (p : Packed) :
    Respects (Mirrors m base) fun f => (handOut L reqEnd forWrite hwm p f).split := by
  intro f g h
  obtain ⟨hr, hs⟩ := NkFile.wrSet_respects L (p.mappedEnd reqEnd) f g h
  simp only [handOut, h.na, hr]
  -- a short write, a window to record, and nothing to record
  by_cases hshort : (!p.full && decide (p.covered < reqEnd) && forWrite) = true
  · rw [if_pos hshort, if_pos hshort]
    exact ⟨rfl, h⟩
  · rw [if_neg hshort, if_neg hshort]
    split_ifs
    all_goals first | exact ⟨rfl, h⟩ | exact ⟨rfl, hs⟩

theorem flush_respects (r : ℤ) : Respects (Mirrors m base) (flush L r) := by
  intro f g h
  obtain ⟨hr, hs⟩ := NkFile.libEng_respects L.inodeSync f g h
  obtain ⟨hr', hs'⟩ := NkFile.libEng_respects L.inodeClose _ _ hs
  simp only [flush, hr, hr']
  exact ⟨trivial, hs'⟩

theorem blockmapOut_respects (oi r : ℤ) (extents : List Extent) :
    Respects (Mirrors m base) fun f => (blockmapOut L oi r extents f).split := by
  intro f g h
  have hrep : Mirrors m base
      (if 0 ≤ oi ∧ f.na.initializedSize > oi then (f.stampInit L oi).2 else f)
      (if 0 ≤ oi ∧ g.na.initializedSize > oi then (g.stampInit L oi).2 else g) := by
    rw [h.na]
    exact (NkFile.stampInit_respects L oi f g h).2.ite h
  obtain ⟨hr, hs⟩ := flush_respects L r _ _ hrep
  exact ⟨congrArg (fun r => (some r, extents)) hr, hs⟩

theorem leave_respects (oi : ℤ) (e : Exit) :
    Respects (Mirrors m base) fun f => (leave L oi e f).split := by
  cases e with
  | out r => exact blockmapOut_respects L oi r []
  | diverge => exact fun _ _ h => ⟨rfl, h⟩

theorem emitExtents_respects (offset reqEnd : ℤ) (forWrite : Bool) (hwm oi ie : ℤ)
    (cb : List Extent → Bool) : Respects (Mirrors m base) fun f =>
      (emitExtents L v offset reqEnd forWrite hwm oi ie cb f).split := by
  intro f g h
  simp only [emitExtents, h.na]
  obtain ⟨a, f', g', hf, hg, h'⟩ := (handOut_respects L reqEnd forWrite hwm
    (packRuns v.vol.clusterSize offset reqEnd ie cb g.na.rl.elements ⟨[], offset, false⟩)).run h
  have hout := blockmapOut_respects L oi (a.1.getD 0) a.2 f' g' h'
  rw [MapResult.split, Prod.mk.injEq] at hf hg
  obtain ⟨rfl, rfl⟩ := hf
  obtain ⟨ha, rfl⟩ := hg
  rw [Prod.mk.injEq] at ha
  rw [ha.1, ha.2]
  exact hout

theorem blockmapBody_respects (offset reqEnd : ℤ) (forWrite : Bool) (bs : ℤ)
    (cb : List Extent → Bool) : Respects (Mirrors m base) fun f =>
      (blockmapBody L v offset reqEnd forWrite bs cb f).split := by
  intro f g h
  dsimp only
  unfold blockmapBody
  obtain ⟨r, f₁, g₁, hf, hg, h₁⟩ := (prepare_respects L v offset reqEnd forWrite).run h
  rw [hf, hg]
  cases r with
  | error e => exact leave_respects L (-1) e f₁ g₁ h₁
  | ok hwm =>
    simp only [h₁.na]
    obtain ⟨r, f₂, g₂, hf, hg, h₂⟩ := (fillWindow_respects L v hwm offset reqEnd
      (if forWrite then g₁.na.initializedSize else -1) forWrite).run h₁
    rw [hf, hg]
    cases r with
    | error e => exact leave_respects L _ e f₂ g₂ h₂
    | ok _ =>
      obtain ⟨r, f₃, g₃, hf, hg, h₃⟩ := (initEnd_respects L v bs forWrite).run h₂
      dsimp only
      rw [hf, hg]
      cases r with
      | error e => exact leave_respects L _ e f₃ g₃ h₃
      | ok ie => exact emitExtents_respects L v offset reqEnd forWrite hwm _ ie cb f₃ g₃ h₃

theorem nkBlockmap_respects (offset length : ℤ) (forWrite : Bool) (blocksize : ℤ)
    (cb : List Extent → Bool) : Respects (Mirrors m base) fun f =>
      (nkBlockmap L v offset length forWrite blocksize cb f).split := by
  intro f g h
  obtain ⟨hi, h₁⟩ := NkFile.libEng_respects L.pathnameToInode f g h
  obtain ⟨ha, h₂⟩ := NkFile.attrOpen_respects L _ _ h₁
  simp only [nkBlockmap, hi, ha]
  split_ifs
  · exact ⟨rfl, h⟩
  · exact ⟨rfl, h⟩
  · exact ⟨rfl, h₁⟩
  · exact ⟨rfl, (NkFile.libEng_respects L.inodeClose _ _ h₂).2⟩
  · exact blockmapBody_respects L v offset (offset + length) forWrite _ cb _ _ h₂

theorem zeroUnmapped_respects (floor offset : ℤ) :
    Respects (Mirrors m base) (zeroUnmapped L v floor offset) := by
  refine .read (fun f g h => ?_) fun f => .ite ?_ (.pure _)
  · rw [h.na]
  · exact (orFail_respects (.call (NkFile.lib_respects _)) 0).bind fun _ =>
      orFail_respects (.call (zeroRaw_respects L v floor offset)) 0

theorem stampWindow_respects (target : ℤ) :
    Respects (Mirrors m base) (stampWindow L target) := by
  refine .read (fun f g h => ?_) fun f => .ite ?_ (.pure _)
  · rw [h.na]
  · exact orFail_respects (.call (NkFile.stampInit_respects L target)) 0

theorem completeBody_respects (offset length : ℤ) :
    Respects (Mirrors m base) (completeBody L v offset length) := by
  refine .read (fun f g h => ?_) fun f => .ite (.exit _) ?_
  · rw [h.na, h.wrHwm]
  · refine (zeroUnmapped_respects L v _ offset).bind fun _ =>
      (stampWindow_respects L _).bind fun _ => .modify fun f g h => ?_
    simp only [dropLanded, h.na, h.wrHwm]
    exact h.wrDrop.ite h

theorem nkCompleteWrite_respects (offset length : ℤ) :
    Respects (Mirrors m base) (nkCompleteWrite L v offset length) := by
  intro f g h
  obtain ⟨hi, h₁⟩ := NkFile.libEng_respects L.pathnameToInode f g h
  obtain ⟨ha, h₂⟩ := NkFile.attrOpen_respects L _ _ h₁
  obtain ⟨hb, h₃⟩ := completeBody_respects L v offset length _ _ h₂
  simp only [nkCompleteWrite, hi, ha, hb]
  split_ifs
  · exact ⟨rfl, h⟩
  · exact ⟨rfl, h₁⟩
  · exact ⟨rfl, (NkFile.libEng_respects L.inodeClose _ _ h₂).2⟩
  · exact flush_respects L _ _ _ h₃

theorem abortLower_respects (offset stop init : ℤ) :
    Respects (Mirrors m base) (abortLower L v offset stop init) := by
  intro f g h
  obtain ⟨hr, h₁⟩ := NkFile.lib_respects L.attrMapWholeRunlist f g h
  simp only [abortLower, hr]
  generalize (if offset > init then offset else init) = lo
  obtain ⟨hz, h₂⟩ := zeroRaw_respects L v lo stop _ _ h₁
  rw [hz]
  split_ifs
  · exact ⟨rfl, h₁⟩
  · exact ⟨rfl, h₂⟩
  · exact ⟨rfl, h₂⟩
  · exact ⟨rfl, h⟩

theorem abortBody_respects (offset length hwm : ℤ) :
    Respects (Mirrors m base) (abortBody L v offset length hwm) := by
  intro f g h
  obtain ⟨ha, h₁⟩ := NkFile.attrOpen_respects L f g h
  simp only [abortBody, ha, h₁.na]
  generalize (if (NkFile.attrOpen L g).1 = true then (NkFile.attrOpen L g).2.na.initializedSize
    else 0) = init
  split_ifs
  · exact ⟨rfl, (h₁.marked offset).wrDrop.ite (h₁.marked offset)⟩
  · exact abortLower_respects L v offset (offset + length) init _ _ h₁
  · exact ⟨rfl, h₁⟩
  · exact ⟨rfl, h⟩

theorem nkAbortWrite_respects (offset length : ℤ) :
    Respects (Mirrors m base) (nkAbortWrite L v offset length) := by
  intro f g h
  obtain ⟨hi, h₁⟩ := NkFile.libEng_respects L.pathnameToInode f g h
  simp only [nkAbortWrite, hi, h₁.find]
  split_ifs
  · exact ⟨rfl, h⟩
  · exact ⟨rfl, h₁⟩
  · cases SwapTable.find (g.libEng L.pathnameToInode).2.wr (g.libEng L.pathnameToInode).2.mref with
    | none => exact ⟨rfl, (NkFile.libEng_respects L.inodeClose _ _ h₁).2⟩
    | some hwm =>
      obtain ⟨hb, h₂⟩ := abortBody_respects L v offset length hwm _ _ h₁
      exact ⟨hb, (NkFile.libEng_respects L.inodeClose _ _ h₂).2⟩

theorem clampHwm_mirrors (size : ℤ) (h : Mirrors m base f g) :
    Mirrors m base (clampHwm size f) (clampHwm size g) := by
  simp only [clampHwm, h.find]
  cases SwapTable.find g.wr g.mref with
  | none => exact h
  | some hwm => exact (h.marked size).ite h

theorem nkTruncate_respects (size : ℤ) : Respects (Mirrors m base) (nkTruncate L size) := by
  intro f g h
  obtain ⟨hi, h₁⟩ := NkFile.libEng_respects L.pathnameToInode f g h
  have hcut : Respects (Mirrors m base) fun f : NkFile σ =>
      if (f.attrOpen L).1 then (f.attrOpen L).2.lib fun s => L.attrTruncate s size
      else ((-1 : ℤ), (f.attrOpen L).2) := by
    intro f g h
    obtain ⟨ha, h₂⟩ := NkFile.attrOpen_respects L f g h
    simp only [ha]
    split_ifs
    · exact NkFile.lib_respects _ _ _ h₂
    · exact ⟨rfl, h₂⟩
  obtain ⟨ht, h₂⟩ := hcut _ _ h₁
  obtain ⟨hc, h₃⟩ := NkFile.libEng_respects L.inodeClose _ _ (clampHwm_mirrors size h₂)
  unfold nkTruncate
  by_cases hopen : (g.libEng L.pathnameToInode).1 = false
  · rw [if_pos hopen, if_pos (hi.trans hopen)]
    exact ⟨rfl, h₁⟩
  · rw [if_neg hopen, if_neg (hi ▸ hopen)]
    dsimp only at ht hc ⊢
    rw [ht, hc]
    exact ⟨rfl, h₃⟩

end Calls

end NtfsKit
