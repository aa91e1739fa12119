import NtfsKit.Bridge.Complete
import NtfsKit.Engine.FullDisk
import NtfsKit.Engine.Logging

/-! Where the raw zeroing of the bridge lands when the runlist comes from an untrusted
disk. Nothing is assumed of the library: a log records the runlists it returns and the
device writes `zero_raw` issues. On a runlist that `bad_runlist` accepts every write lies
on the volume; `nk_blockmap` checks each runlist it maps, `nk_complete_write` and
`nk_abort_write` do not. -/

namespace NtfsKit

open Prog

variable {σ : Type}

/-! ### The writes of one element -/

section Arithmetic

variable {vol : NtfsVolume} {x : ℤ} {e : RunlistElement}

/-- What `bad_runlist` leaves of an element. -/
structure RunlistElement.Fits (vol : NtfsVolume) (e : RunlistElement) : Prop where
  vcn_nonneg : 0 ≤ e.vcn
  length_pos : 0 < e.length
  stop_le : (e.vcn + e.length) * vol.clusterSize ≤ int64Max
  clusters : 0 ≤ e.lcn → e.lcn + e.length ≤ vol.nrClusters

theorem badElement_fits (hc : 0 < vol.clusterSize) (h : badElement vol x e = false) :
    e.Fits vol := by
  obtain ⟨-, ⟨hlen, hvcn, hstop⟩, hrun, -⟩ := badElement_eq_false h
  exact ⟨hvcn, hlen, (Int.le_ediv_iff_mul_le hc).mp hstop, fun h0 => (hrun h0).2⟩

theorem badFrom_fits (hc : 0 < vol.clusterSize) : ∀ (x : ℤ) (rl : List RunlistElement),
    badFrom vol x rl = false → ∀ e ∈ rl, e.Fits vol
  | _, [], _, _, he => by cases he
  | x, d :: rl, h, e, he => by
    rw [badFrom, Bool.or_eq_false_iff] at h
    rcases List.mem_cons.mp he with rfl | he
    · exact badElement_fits hc h.1
    · exact badFrom_fits hc _ rl h.2 e he

/-- The writes for an element that fits lie on the volume. -/
theorem RunlistElement.Fits.writes (hc : 0 < vol.clusterSize) (h : e.Fits vol) {lo hi : ℤ}
    {c : ℤ × ℤ} (hw : c ∈ zeroRawRun vol.clusterSize lo hi e) :
    0 ≤ c.1 ∧ c.1 + c.2 ≤ vol.nrClusters * vol.clusterSize := by
  unfold zeroRawRun at hw
  split_ifs at hw with hl
  · cases hw
  extract_lets log stop s t at hw
  obtain ⟨d, hd, rfl⟩ := List.mem_map.mp hw
  obtain ⟨h1, h2, h3⟩ := chunks_mem (by decide) s t d hd
  have hs : log ≤ s := by
    simp only [s]
    split_ifs <;> omega
  have ht : t ≤ stop := by
    simp only [t]
    split_ifs <;> omega
  have hclusters : (e.lcn + e.length) * vol.clusterSize ≤ vol.nrClusters * vol.clusterSize :=
    mul_le_mul_of_nonneg_right (h.clusters (by omega)) hc.le
  have hlcn : 0 ≤ e.lcn * vol.clusterSize := mul_nonneg (by omega) hc.le
  have hstop : stop = log + e.length * vol.clusterSize := rfl
  rw [add_mul] at hclusters
  exact ⟨by dsimp only; omega, by dsimp only; omega⟩

/-- On a volume that a device can hold, no number `zero_raw` computes for an element that
fits leaves 64 bits: the products and the sum of the position are exact. For other
elements they are undefined in C, and nothing below depends on their values. -/
theorem RunlistElement.Fits.int64 (hc : 0 < vol.clusterSize) (h : e.Fits vol)
    (hvol : vol.nrClusters * vol.clusterSize ≤ int64Max) :
    0 ≤ e.vcn * vol.clusterSize ∧
    e.vcn * vol.clusterSize + e.length * vol.clusterSize ≤ int64Max ∧
    (0 ≤ e.lcn → e.lcn * vol.clusterSize + e.length * vol.clusterSize ≤ int64Max) := by
  refine ⟨mul_nonneg h.vcn_nonneg hc.le, ?_, fun h0 => ?_⟩
  · rw [← add_mul]
    exact h.stop_le
  · rw [← add_mul]
    exact (mul_le_mul_of_nonneg_right (h.clusters h0) hc.le).trans hvol

end Arithmetic

/-! ### Logs -/

/-- The calls of the library so far. -/
def NkFile.log (f : NkFile (Logged σ)) : List LibCall := f.eng.2

/-- The file with an empty log. -/
def NkFile.logged (f : NkFile σ) : NkFile (Logged σ) :=
  { f with toNtfs := f.toNtfs.logged [] }

/-- A write on the volume, or a runlist that `bad_runlist` accepts. -/
def LibCall.Calm (vol : NtfsVolume) : LibCall → Prop
  | .raw pos count => 0 ≤ pos ∧ pos + count ≤ vol.nrClusters * vol.clusterSize
  | .mapped rl => badRunlist vol rl = false

def Calm (vol : NtfsVolume) (log : List LibCall) : Prop := ∀ c ∈ log, c.Calm vol

/-- The log ends with a runlist that was not accepted. -/
def Refused (vol : NtfsVolume) (log : List LibCall) : Prop :=
  ∃ pre rl, log = pre ++ [.mapped rl] ∧ Calm vol pre

/-- What is asked of a call that returned `ret`: every raw write lies on the volume, and a
runlist that `bad_runlist` rejects makes the call fail, with no raw write after it. -/
structure Contained (vol : NtfsVolume) (ret : Option ℤ) (log : List LibCall) : Prop where
  inside : ∀ pos count, .raw pos count ∈ log →
    0 ≤ pos ∧ pos + count ≤ vol.nrClusters * vol.clusterSize
  refused : ∀ pre rl post, log = pre ++ .mapped rl :: post → badRunlist vol rl = true →
    ret ≠ some 0 ∧ ∀ pos count, .raw pos count ∉ post

section Logs

variable {vol : NtfsVolume} {log : List LibCall}

theorem Calm.contained (h : Calm vol log) (ret : Option ℤ) : Contained vol ret log := by
  refine ⟨fun pos count hm => h _ hm, fun pre rl post heq hbad => ?_⟩
  have hok : badRunlist vol rl = false := h (.mapped rl) (by simp [heq])
  rw [hok] at hbad
  cases hbad

theorem Refused.contained (h : Refused vol log) {ret : Option ℤ} (hret : ret ≠ some 0) :
    Contained vol ret log := by
  obtain ⟨front, last, rfl, hcalm⟩ := h
  refine ⟨fun pos count hm => ?_, fun pre rl post heq hbad => ⟨hret, fun pos count hm => ?_⟩⟩
  · rcases List.mem_append.mp hm with hm | hm
    · exact hcalm _ hm
    · simp at hm
  · -- a write after the rejected runlist would stand in the front, with the runlist itself
    obtain ⟨mid, c, rfl⟩ : ∃ mid c, post = mid ++ [c] := by
      rcases List.eq_nil_or_concat post with rfl | ⟨mid, c, rfl⟩
      · cases hm
      · exact ⟨mid, c, List.concat_eq_append⟩
    have hsplit : front ++ [LibCall.mapped last] = (pre ++ .mapped rl :: mid) ++ [c] := by
      rw [heq]
      simp
    obtain ⟨hfront, -⟩ := List.append_inj' hsplit rfl
    have hok : badRunlist vol rl = false := hcalm (.mapped rl) (by simp [hfront])
    rw [hok] at hbad
    cases hbad

theorem Calm.append (h : Calm vol log) {c : LibCall} (hc : c.Calm vol) :
    Calm vol (log ++ [c]) := by
  intro d hd
  rcases List.mem_append.mp hd with hd | hd
  · exact h d hd
  · rw [List.mem_singleton.mp hd]
    exact hc

end Logs

/-! ### Stages of a map -/

section Stages

variable {L : Libntfs σ} {v : NkVolume} {f : NkFile (Logged σ)}

/-- How a stage may leave: nothing bad was mapped, or the last map was refused. -/
def Leaves (vol : NtfsVolume) (e : Exit) (f : NkFile (Logged σ)) : Prop :=
  Calm vol f.log ∨ (e = .out (-1) ∧ Refused vol f.log)

/-- A check of a call that does not write to the log. -/
theorem orFail_calm {g : NkFile (Logged σ) → ℤ × NkFile (Logged σ)} {expect : ℤ}
    (h : Calm v.vol f.log) (hlog : (g f).2.log = f.log) :
    wp (orFail (call g) expect) (fun _ t => Calm v.vol t.log) (Leaves v.vol) f := by
  unfold orFail
  rw [wp_bind, wp_call]
  refine wp_ite (fun _ => ?_) fun _ => ?_
  · rw [wp_exit]
    exact .inl (by rw [hlog]; exact h)
  · rw [wp_pure, hlog]
    exact h

theorem pwriteZeroes_calm (cs : List (ℤ × ℤ)) (h : Calm v.vol f.log) :
    wp (each (pwriteZeroed L.logging) cs) (fun _ t => Calm v.vol t.log) (Leaves v.vol) f :=
  wp_each (fun _ t => Calm v.vol t.log) (fun _ _ _ ht => orFail_calm ht rfl) cs f h

theorem mapChecked_calm (h : Calm v.vol f.log) :
    wp (mapChecked L.logging v)
      (fun _ t => Calm v.vol t.log ∧ badRunlist v.vol t.na.rl = false) (Leaves v.vol) f := by
  set r := L.attrMapWholeRunlist f.toNtfs.unlogged with hr
  have hlog : (f.lib L.logging.attrMapWholeRunlist).2.log =
      if r.1 = 0 then f.log ++ [.mapped r.2.na.rl] else f.log := rfl
  unfold mapChecked orFail
  rw [wp_bind, wp_bind, wp_call]
  refine wp_ite (fun hne => ?_) fun h0 => ?_
  · rw [wp_exit]
    left
    rw [hlog, if_neg (show ¬ r.1 = 0 from hne)]
    exact h
  · rw [wp_pure, wp_bind, wp_read]
    rw [if_pos (show r.1 = 0 from not_not.mp h0)] at hlog
    refine wp_ite (fun hbad => ?_) fun hok => ?_
    · rw [wp_exit]
      exact .inr ⟨rfl, f.log, r.2.na.rl, hlog, h⟩
    · rw [wp_pure, hlog]
      have hok : badRunlist v.vol r.2.na.rl = false := eq_false_of_ne_true hok
      exact ⟨h.append hok, hok⟩

/-- Raw zeroing through an accepted runlist. -/
theorem zeroRaw_calm (hc : 0 < v.vol.clusterSize) (h : Calm v.vol f.log)
    (hok : badRunlist v.vol f.na.rl = false) (lo hi : ℤ) :
    Calm v.vol (zeroRaw L.logging v lo hi f).2.log := by
  have hwrites : ∀ c ∈ zeroRawWrites v.vol.clusterSize f.na.rl lo hi,
      0 ≤ c.1 ∧ c.1 + c.2 ≤ v.vol.nrClusters * v.vol.clusterSize := by
    intro c hmem
    obtain ⟨e, he, hce⟩ := List.mem_flatMap.mp hmem
    exact (badFrom_fits hc _ _ hok e he).writes hc hce
  have hloop : ∀ (cs : List (ℤ × ℤ)) (g : NkFile (Logged σ)), Calm v.vol g.log →
      (∀ c ∈ cs, 0 ≤ c.1 ∧ c.1 + c.2 ≤ v.vol.nrClusters * v.vol.clusterSize) →
      Calm v.vol (pwriteZeros L.logging cs g).2.log := by
    intro cs
    induction cs with
    | nil => exact fun g hg _ => hg
    | cons c cs ih =>
      intro g hg hcs
      have hnext : Calm v.vol (g.lib fun s => L.logging.pwrite s c.1 c.2 zeros).2.log :=
        hg.append (hcs c List.mem_cons_self)
      simp only [pwriteZeros]
      split_ifs
      · exact hnext
      · exact ih _ hnext fun d hd => hcs d (List.mem_cons_of_mem _ hd)
  exact hloop _ f h hwrites

theorem makeMappable_calm (h : Calm v.vol f.log) :
    wp (makeMappable L.logging v) (fun _ t => Calm v.vol t.log) (Leaves v.vol) f := by
  unfold makeMappable
  rw [wp_bind, wp_read]
  refine wp_ite (fun _ => .inl h) fun _ => ?_
  refine wp_ite (fun _ => h) fun _ => ?_
  refine wp_ite (fun _ => .inl h) fun _ => ?_
  rw [wp_bind, wp_call]
  exact wp_ite (fun _ => .inl h) fun _ => h

theorem growSolid_calm (forWrite : Bool) (reqEnd : ℤ) (h : Calm v.vol f.log) :
    wp (growSolid L.logging forWrite reqEnd) (fun _ t => Calm v.vol t.log) (Leaves v.vol) f := by
  unfold growSolid
  rw [wp_bind, wp_read]
  exact wp_ite (fun _ => orFail_calm h rfl) fun _ => h

theorem zeroBelow_calm (hc : 0 < v.vol.clusterSize) (hwm init offset : ℤ) (h : Calm v.vol f.log)
    (hok : badRunlist v.vol f.na.rl = false) :
    wp (zeroBelow L.logging v hwm init offset) (fun _ t => Calm v.vol t.log) (Leaves v.vol) f := by
  unfold zeroBelow
  refine wp_ite (fun _ => ?_) fun _ => wp_ite (fun _ => ?_) fun _ => h
  · rw [wp_bind]
    refine wp_mono (pwriteZeroes_calm _ h) (fun _ t ht => ?_) fun _ _ hx => hx
    exact wp_mono (mapChecked_calm ht) (fun _ _ hu => hu.1) fun _ _ hx => hx
  · have hz := zeroRaw_calm (L := L) hc h hok hwm offset
    unfold orFail
    rw [wp_bind, wp_call]
    exact wp_ite (fun _ => .inl hz) fun _ => hz

theorem prepare_calm (hc : 0 < v.vol.clusterSize) (offset reqEnd : ℤ) (forWrite : Bool)
    (h : Calm v.vol f.log) :
    wp (prepare L.logging v offset reqEnd forWrite) (fun _ t => Calm v.vol t.log)
      (Leaves v.vol) f := by
  unfold prepare
  rw [wp_bind]
  refine wp_mono (makeMappable_calm h) (fun _ t ht => ?_) fun _ _ hx => hx
  rw [wp_bind]
  refine wp_mono (growSolid_calm forWrite reqEnd ht) (fun _ u hu => ?_) fun _ _ hx => hx
  rw [wp_bind]
  refine wp_mono (mapChecked_calm hu) ?_ fun _ _ hx => hx
  rintro _ w ⟨hw, hok⟩
  refine wp_ite (fun _ => ?_) fun _ => hw
  unfold zeroGap
  rw [wp_bind, wp_read, wp_bind]
  exact wp_mono (zeroBelow_calm hc _ _ _ hw hok) (fun _ _ hx => hx) fun _ _ hx => hx

theorem fillHoles_calm (hwm offset reqEnd : ℤ) : ∀ (fuel : ℕ) (f : NkFile (Logged σ)),
    Calm v.vol f.log → wp (fillHoles L.logging v hwm offset reqEnd fuel)
      (fun _ t => Calm v.vol t.log) (Leaves v.vol) f
  | 0, _, h => .inl h
  | fuel + 1, f, h => by
    rw [fillHoles, wp_bind, wp_read]
    split
    · exact h
    · next start stop _ =>
      rw [wp_bind, fillHole, wp_bind, wp_modify, wp_bind]
      have hskip : Calm v.vol (skipInFlight hwm start f).log := by
        unfold skipInFlight
        split_ifs
        · exact h
        · exact h
      refine wp_mono (pwriteZeroes_calm _ hskip) (fun _ t ht => ?_) fun _ _ hx => hx
      refine wp_mono (mapChecked_calm ht) (fun _ u hu => ?_) fun _ _ hx => hx
      exact fillHoles_calm hwm offset reqEnd fuel u hu.1

theorem stampInit_log (val : ℤ) (f : NkFile (Logged σ)) :
    (f.stampInit L.logging val).2.log = f.log := by
  simp only [NkFile.stampInit]
  split_ifs <;> rfl

theorem fillWindow_calm (hwm offset reqEnd oi : ℤ) (forWrite : Bool) (h : Calm v.vol f.log) :
    wp (fillWindow L.logging v hwm offset reqEnd oi forWrite) (fun _ t => Calm v.vol t.log)
      (Leaves v.vol) f := by
  unfold fillWindow
  refine wp_ite (fun _ => ?_) fun _ => h
  rw [wp_bind]
  refine wp_mono (fillHoles_calm _ _ _ _ f h) (fun _ t ht => ?_) fun _ _ hx => hx
  unfold restoreInit
  rw [wp_bind, wp_read]
  exact wp_ite (fun _ => orFail_calm ht (stampInit_log _ _)) fun _ => ht

theorem initEnd_calm (bs : ℤ) (forWrite : Bool) (h : Calm v.vol f.log) :
    wp (initEnd L.logging v bs forWrite) (fun _ t => Calm v.vol t.log) (Leaves v.vol) f := by
  unfold initEnd
  refine wp_ite (fun _ => h) fun _ => ?_
  rw [wp_bind, wp_read]
  refine wp_ite (fun _ => .inl h) fun _ => wp_ite (fun _ => h) fun _ => ?_
  refine wp_ite (fun _ => .inl h) fun _ => wp_ite (fun _ => ?_) fun _ => h
  rw [wp_bind]
  refine wp_mono (pwriteZeroes_calm _ h) (fun _ t ht => ?_) fun _ _ hx => hx
  rw [wp_bind]
  exact wp_mono (mapChecked_calm ht) (fun _ _ hu => hu.1) fun _ _ hx => hx

theorem flush_log (r : ℤ) (f : NkFile (Logged σ)) : (flush L.logging r f).2.log = f.log := rfl

theorem blockmapOut_log (oi r : ℤ) (es : List Extent) (f : NkFile (Logged σ)) :
    (blockmapOut L.logging oi r es f).file.log = f.log := by
  simp only [blockmapOut, flush_log]
  split_ifs
  · exact stampInit_log _ _
  · rfl

theorem emitExtents_log (offset reqEnd : ℤ) (forWrite : Bool) (hwm oi ie : ℤ)
    (cb : List Extent → Bool) (f : NkFile (Logged σ)) :
    (emitExtents L.logging v offset reqEnd forWrite hwm oi ie cb f).file.log = f.log := by
  simp only [emitExtents, blockmapOut_log, handOut, NkFile.wrSet]
  split_ifs <;> rfl

/-- Leaving a stage: a refused runlist comes with the return value -1. -/
theorem leave_contained {e : Exit} (h : Leaves v.vol e f) (oi : ℤ) :
    Contained v.vol (leave L.logging oi e f).ret (leave L.logging oi e f).file.log := by
  cases e with
  | diverge =>
    rcases h with h | ⟨he, -⟩
    · exact h.contained _
    · cases he
  | out r =>
    simp only [leave, blockmapOut_log]
    rcases h with h | ⟨he, h⟩
    · exact h.contained _
    · obtain rfl : r = -1 := by
        cases he
        rfl
      refine h.contained ?_
      simp [blockmapOut, flush]

theorem blockmapBody_contained (hc : 0 < v.vol.clusterSize) (offset reqEnd : ℤ) (forWrite : Bool)
    (bs : ℤ) (cb : List Extent → Bool) (h : Calm v.vol f.log) :
    Contained v.vol (blockmapBody L.logging v offset reqEnd forWrite bs cb f).ret
      (blockmapBody L.logging v offset reqEnd forWrite bs cb f).file.log := by
  have hprep := prepare_calm (L := L) hc offset reqEnd forWrite h
  unfold blockmapBody
  rcases hp : prepare L.logging v offset reqEnd forWrite f with ⟨e | hwm, g⟩
  · exact leave_contained (wp_error hprep hp) _
  have hg := wp_ok hprep hp
  dsimp only
  set oi := if forWrite = true then g.na.initializedSize else -1
  have hfill := fillWindow_calm (L := L) hwm offset reqEnd oi forWrite hg
  rcases hw : fillWindow L.logging v hwm offset reqEnd oi forWrite g with ⟨e | _, k⟩
  · exact leave_contained (wp_error hfill hw) _
  have hk := wp_ok hfill hw
  have hend := initEnd_calm (L := L) bs forWrite hk
  dsimp only
  rcases hi : initEnd L.logging v bs forWrite k with ⟨e | ie, m⟩
  · exact leave_contained (wp_error hend hi) _
  · dsimp only
    rw [emitExtents_log]
    exact (wp_ok hend hi).contained _

/-- `nk_blockmap` keeps its raw writes on the volume and refuses what `bad_runlist`
rejects. -/
theorem nkBlockmap_contained (hc : 0 < v.vol.clusterSize) (offset length : ℤ) (forWrite : Bool)
    (blocksize : ℤ) (cb : List Extent → Bool) (f : NkFile σ) :
    Contained v.vol (nkBlockmap L.logging v offset length forWrite blocksize cb f.logged).ret
      (nkBlockmap L.logging v offset length forWrite blocksize cb f.logged).file.log := by
  have hnone : Calm v.vol [] := fun _ h => by cases h
  unfold nkBlockmap
  extract_lets bs i a
  split_ifs
  · exact hnone.contained _
  · exact hnone.contained _
  · exact hnone.contained _
  · exact hnone.contained _
  · exact blockmapBody_contained hc _ _ _ _ _ hnone

end Stages

/-! ### Completions and aborts -/

section Ends

variable {L : Libntfs σ} {v : NkVolume}

/-- The runlist with which `nk_complete_write` gets to `zero_raw`, if it does: there is a
gap between the bytes handed out or initialized and the window. -/
def completeZeroes (L : Libntfs σ) (offset length : ℤ) (f : NkFile σ) : Option Runlist :=
  let i := f.libEng L.pathnameToInode
  let a := i.2.attrOpen L
  let m := a.2.lib L.attrMapWholeRunlist
  if badWindow offset length = false ∧ i.1 = true ∧ a.1 = true ∧ a.2.na.nonResident = true ∧
      offset < a.2.na.dataSize ∧ max a.2.na.initializedSize a.2.wrHwm < offset ∧ m.1 = 0 then
    some m.2.na.rl
  else none

/-- The runlist with which `nk_abort_write` gets to `zero_raw`, if it does: the window is
tracked, is not the top one and reaches above `initialized_size`. -/
def abortZeroes (L : Libntfs σ) (offset length : ℤ) (f : NkFile σ) : Option Runlist :=
  let i := f.libEng L.pathnameToInode
  let a := i.2.attrOpen L
  let m := a.2.lib L.attrMapWholeRunlist
  if badWindow offset length = false ∧ i.1 = true ∧ a.1 = true ∧ a.2.na.nonResident = true ∧
      offset + length < f.wrHwm ∧ max offset a.2.na.initializedSize < offset + length ∧
      m.1 = 0 then
    some m.2.na.rl
  else none

/-- Looking up the attribute, syncing and closing succeed. -/
structure Libntfs.Settles (L : Libntfs σ) : Prop where
  attrLookup : ∀ e, (L.attrLookup e).1 = true
  inodeSync : ∀ e, (L.inodeSync e).1 = 0
  inodeClose : ∀ e, (L.inodeClose e).1 = 0

/-- `zero_raw` appends its writes to the log; if it makes none it returns 0. -/
theorem zeroRaw_log (lo hi : ℤ) (f : NkFile (Logged σ)) :
    ∃ raws, (zeroRaw L.logging v lo hi f).2.log = f.log ++ raws ∧
      (∀ c ∈ raws, ∃ pos count, c = .raw pos count) ∧
      (raws = [] → (zeroRaw L.logging v lo hi f).1 = 0) := by
  have hloop : ∀ (cs : List (ℤ × ℤ)) (g : NkFile (Logged σ)),
      ∃ raws, (pwriteZeros L.logging cs g).2.log = g.log ++ raws ∧
        (∀ c ∈ raws, ∃ pos count, c = .raw pos count) ∧
        (raws = [] → (pwriteZeros L.logging cs g).1 = 0) := by
    intro cs
    induction cs with
    | nil => exact fun g => ⟨[], by simp [pwriteZeros], by simp, fun _ => rfl⟩
    | cons c cs ih =>
      intro g
      have hlog : (g.lib fun s => L.logging.pwrite s c.1 c.2 zeros).2.log =
          g.log ++ [.raw c.1 c.2] := rfl
      simp only [pwriteZeros]
      split_ifs
      · exact ⟨[.raw c.1 c.2], hlog, by simp, by simp⟩
      · obtain ⟨raws, h1, h2, -⟩ := ih (g.lib fun s => L.logging.pwrite s c.1 c.2 zeros).2
        refine ⟨.raw c.1 c.2 :: raws, ?_, ?_, by simp⟩
        · rw [h1, hlog, List.append_assoc]
          rfl
        · intro d hd
          rcases List.mem_cons.mp hd with rfl | hd
          · exact ⟨_, _, rfl⟩
          · exact h2 d hd
  exact hloop _ f

/-- A call that went to `zero_raw` with a rejected runlist: there is a raw write in the
log, or the zeroing did nothing and the call went on. -/
theorem not_contained_of_bad {rl : Runlist} (hbad : badRunlist v.vol rl = true)
    {raws log : List LibCall} (hlog : log = .mapped rl :: raws)
    (hraw : ∀ c ∈ raws, ∃ pos count, c = .raw pos count) {ret : Option ℤ}
    (hret : raws = [] → ret = some 0) : ¬ Contained v.vol ret log := by
  intro h
  obtain ⟨hne, hno⟩ := h.refused [] rl raws hlog hbad
  cases raws with
  | nil => exact hne (hret rfl)
  | cons c raws =>
    obtain ⟨pos, count, rfl⟩ := hraw c List.mem_cons_self
    exact hno pos count List.mem_cons_self

theorem stampWindow_log (target : ℤ) (f : NkFile (Logged σ)) :
    (stampWindow L.logging target f).2.log = f.log ∧
      (L.Settles → (stampWindow L.logging target f).1 = .ok ()) := by
  have hwp : wp (stampWindow L.logging target) (fun _ g => g.log = f.log)
      (fun _ g => g.log = f.log ∧ ¬ L.Settles) f := by
    unfold stampWindow orFail
    rw [wp_bind, wp_read]
    refine wp_ite (fun _ => ?_) fun _ => rfl
    rw [wp_bind, wp_call]
    refine wp_ite (fun hne => ⟨stampInit_log target f, fun hs => hne ?_⟩) fun _ => stampInit_log target f
    have hl : (f.libEng L.logging.attrLookup).1 = true := hs.attrLookup f.eng.1
    simp only [NkFile.stampInit, if_pos hl]
  rcases h : stampWindow L.logging target f with ⟨e | _, g⟩
  · obtain ⟨h1, h2⟩ := wp_error hwp h
    exact ⟨h1, fun hs => absurd hs h2⟩
  · have hlog := wp_ok hwp h
    exact ⟨hlog, fun _ => rfl⟩

theorem dropLanded_log (f : NkFile (Logged σ)) : (dropLanded f).log = f.log := by
  unfold dropLanded
  split_ifs <;> rfl

/-- The end of `completeBody`: nothing is logged, and it succeeds if the lookup does. -/
theorem stampTail_log (target : ℤ) (f : NkFile (Logged σ)) :
    ((do stampWindow L.logging target; modify dropLanded : Bridge (Logged σ) Unit) f).2.log =
      f.log ∧
    (L.Settles →
      ((do stampWindow L.logging target; modify dropLanded : Bridge (Logged σ) Unit) f).1 =
        .ok ()) := by
  obtain ⟨h1, h2⟩ := stampWindow_log (L := L) target f
  rcases h : stampWindow L.logging target f with ⟨e | _, g⟩
  · rw [h] at h1 h2
    rw [bind_error h]
    exact ⟨h1, fun hs => absurd (h2 hs) (by simp)⟩
  · rw [h] at h1
    rw [bind_ok h]
    exact ⟨(dropLanded_log g).trans h1, fun _ => rfl⟩

/-- `floor` in `nk_complete_write`. -/
theorem completeFloor (f : NkFile σ) :
    (if f.wrHwm > f.na.initializedSize then f.wrHwm else f.na.initializedSize) =
      max f.na.initializedSize f.wrHwm := by
  split_ifs <;> omega

/-- The body of a completion with nothing to zero, or whose map fails, logs nothing. -/
theorem completeBody_log {offset : ℤ} {f : NkFile (Logged σ)}
    (h : ¬ (f.na.nonResident = true ∧ offset < f.na.dataSize ∧
      max f.na.initializedSize f.wrHwm < offset ∧ (f.lib L.logging.attrMapWholeRunlist).1 = 0))
    (length : ℤ) :
    (completeBody L.logging v offset length f).2.log = f.log := by
  rw [completeBody, bind_read]
  by_cases hout : offset ≥ f.na.dataSize
  · rw [if_pos hout]
    rfl
  rw [if_neg hout, completeFloor]
  by_cases hgap : f.na.nonResident = true ∧ offset > max f.na.initializedSize f.wrHwm
  · have hmap : (f.lib L.logging.attrMapWholeRunlist).1 ≠ 0 := fun h0 =>
      h ⟨hgap.1, not_le.mp hout, hgap.2, h0⟩
    have hfail : orFail (call (NkFile.lib L.logging.attrMapWholeRunlist)) 0 f =
        (.error (.out (-1)), (f.lib L.logging.attrMapWholeRunlist).2) := by
      simp only [orFail, bind, call, ne_eq, hmap, not_false_eq_true, if_true]
      rfl
    have hz : zeroUnmapped L.logging v (max f.na.initializedSize f.wrHwm) offset f =
        (.error (.out (-1)), (f.lib L.logging.attrMapWholeRunlist).2) := by
      rw [zeroUnmapped, bind_read, if_pos hgap, bind_error hfail]
    rw [bind_error hz]
    exact if_neg hmap
  · have hz : zeroUnmapped L.logging v (max f.na.initializedSize f.wrHwm) offset f =
        (.ok (), f) := by
      rw [zeroUnmapped, bind_read, if_neg hgap]
      rfl
    rw [bind_ok hz]
    exact (stampTail_log _ f).1

/-- The body of a completion that gets to `zero_raw`: the map and the raw writes are
logged, and if there are none the body succeeds. -/
theorem completeBody_zeroes {offset : ℤ} {f : NkFile (Logged σ)}
    (hr : f.na.nonResident = true) (hsize : offset < f.na.dataSize)
    (hgap : max f.na.initializedSize f.wrHwm < offset)
    (hmap : (f.lib L.logging.attrMapWholeRunlist).1 = 0) (length : ℤ) :
    ∃ raws, (completeBody L.logging v offset length f).2.log =
        (zeroRaw L.logging v (max f.na.initializedSize f.wrHwm) offset
          (f.lib L.logging.attrMapWholeRunlist).2).2.log ∧
      (completeBody L.logging v offset length f).2.log =
        f.log ++ .mapped (f.lib L.logging.attrMapWholeRunlist).2.na.rl :: raws ∧
      (∀ c ∈ raws, ∃ pos count, c = .raw pos count) ∧
      (raws = [] → L.Settles → (completeBody L.logging v offset length f).1 = .ok ()) := by
  set g := (f.lib L.logging.attrMapWholeRunlist).2 with hg
  have hglog : g.log = f.log ++ [.mapped g.na.rl] := if_pos hmap
  have hok : orFail (call (NkFile.lib L.logging.attrMapWholeRunlist)) 0 f = (.ok (), g) := by
    simp only [orFail, bind, call, ne_eq, hmap, not_true_eq_false, if_false]
    rfl
  obtain ⟨raws, h1, h2, h3⟩ := zeroRaw_log (L := L) (v := v)
    (max f.na.initializedSize f.wrHwm) offset g
  rw [hglog, List.append_assoc, List.singleton_append] at h1
  refine ⟨raws, ?_⟩
  rw [completeBody, bind_read, if_neg (not_le.mpr hsize), completeFloor]
  set z := zeroRaw L.logging v (max f.na.initializedSize f.wrHwm) offset g with hzdef
  have hzero : zeroUnmapped L.logging v (max f.na.initializedSize f.wrHwm) offset f =
      orFail (call (zeroRaw L.logging v (max f.na.initializedSize f.wrHwm) offset)) 0 g := by
    rw [zeroUnmapped, bind_read, if_pos ⟨hr, hgap⟩, bind_ok hok]
  by_cases h0 : z.1 = 0
  · have hz : zeroUnmapped L.logging v (max f.na.initializedSize f.wrHwm) offset f =
        (.ok (), z.2) := by
      rw [hzero]
      simp only [orFail, bind, call, ne_eq, ← hzdef, h0, not_true_eq_false, if_false]
      rfl
    rw [bind_ok hz]
    obtain ⟨h4, h5⟩ := stampTail_log (L := L)
      (if offset + length > f.na.dataSize then f.na.dataSize else offset + length) z.2
    exact ⟨h4, h4.trans h1, h2, fun _ hs => h5 hs⟩
  · have hz : zeroUnmapped L.logging v (max f.na.initializedSize f.wrHwm) offset f =
        (.error (.out (-1)), z.2) := by
      rw [hzero]
      simp only [orFail, bind, call, ne_eq, ← hzdef, h0, not_false_eq_true, if_true]
      rfl
    rw [bind_error hz]
    exact ⟨rfl, h1, h2, fun hnil _ => absurd (h3 hnil) h0⟩

/-- A completion meets the demand exactly when no rejected runlist gets to `zero_raw`.
The second direction takes a library whose later calls do not happen to fail. -/
theorem nkCompleteWrite_contained (hc : 0 < v.vol.clusterSize) (offset length : ℤ)
    (f : NkFile σ) :
    ((∀ rl ∈ completeZeroes L.logging offset length f.logged, badRunlist v.vol rl = false) →
      Contained v.vol (some (nkCompleteWrite L.logging v offset length f.logged).1)
        (nkCompleteWrite L.logging v offset length f.logged).2.log) ∧
    (L.Settles → Contained v.vol (some (nkCompleteWrite L.logging v offset length f.logged).1)
        (nkCompleteWrite L.logging v offset length f.logged).2.log →
      ∀ rl ∈ completeZeroes L.logging offset length f.logged, badRunlist v.vol rl = false) := by
  have hnone : Calm v.vol [] := fun _ h => by cases h
  unfold nkCompleteWrite completeZeroes
  extract_lets i a m b
  by_cases hopen : badWindow offset length = false ∧ i.1 = true ∧ a.1 = true
  · obtain ⟨h1, h2, h3⟩ := hopen
    simp only [h1, h2, h3, Bool.false_eq_true, if_false, reduceCtorEq, true_and]
    by_cases hz : a.2.na.nonResident = true ∧ offset < a.2.na.dataSize ∧
        max a.2.na.initializedSize a.2.wrHwm < offset ∧ m.1 = 0
    · rw [if_pos hz, flush_log]
      obtain ⟨hr, hsize, hgap, hmap⟩ := hz
      obtain ⟨raws, h4, h5, h6, h7⟩ := completeBody_zeroes (L := L) (v := v) hr hsize hgap hmap
        length
      have hlog : b.2.log = .mapped m.2.na.rl :: raws := h5
      constructor
      · intro hok
        have hok := hok _ rfl
        have hm : Calm v.vol m.2.log := by
          have hmlog : m.2.log = [.mapped m.2.na.rl] := if_pos hmap
          rw [hmlog]
          exact hnone.append hok
        refine Calm.contained ?_ _
        have hcalm := zeroRaw_calm (L := L) hc hm hok (max a.2.na.initializedSize a.2.wrHwm) offset
        exact h4 ▸ hcalm
      · intro hs hcont rl hrl
        obtain rfl := Option.some.inj hrl
        by_contra hbad
        refine not_contained_of_bad (eq_true_of_ne_false hbad) hlog h6 (fun hnil => ?_) hcont
        have hb : b.1 = .ok () := h7 hnil hs
        have hsync : ∀ e, (L.logging.inodeSync e).1 = 0 := fun e => hs.inodeSync e.1
        have hclose : ∀ e, (L.logging.inodeClose e).1 = 0 := fun e => hs.inodeClose e.1
        simp [hb, flush, exitCode, NkFile.libEng, hsync, hclose]
    · rw [if_neg hz, flush_log]
      have hlog : b.2.log = [] := completeBody_log (L := L) (v := v) hz length
      rw [hlog]
      exact ⟨fun _ => hnone.contained _, fun _ _ rl hrl => by cases hrl⟩
  · rw [if_neg fun h => hopen ⟨h.1, h.2.1, h.2.2.1⟩]
    split_ifs with g1 g2 g3
    · exact ⟨fun _ => hnone.contained _, fun _ _ rl hrl => by cases hrl⟩
    · exact ⟨fun _ => hnone.contained _, fun _ _ rl hrl => by cases hrl⟩
    · exact ⟨fun _ => hnone.contained _, fun _ _ rl hrl => by cases hrl⟩
    · exact absurd ⟨eq_false_of_ne_true g1, eq_true_of_ne_false g2, eq_true_of_ne_false g3⟩ hopen

/-- An abort of a tracked window that is not the top one and reaches above
`initialized_size` gets to `zero_raw` once the runlist is mapped. -/
theorem abortLower_contained (hc : 0 < v.vol.clusterSize) {offset stop init : ℤ}
    {f : NkFile (Logged σ)} (hlog : f.log = []) :
    Contained v.vol (some (abortLower L.logging v offset stop init f).1)
        (abortLower L.logging v offset stop init f).2.log ↔
      (max offset init < stop ∧ (f.lib L.logging.attrMapWholeRunlist).1 = 0 →
        badRunlist v.vol (f.lib L.logging.attrMapWholeRunlist).2.na.rl = false) := by
  have hnone : Calm v.vol [] := fun _ h => by cases h
  unfold abortLower
  extract_lets lo m z
  have hlo : lo = max offset init := by
    simp only [lo]
    split_ifs <;> omega
  by_cases hgap : lo < stop
  swap
  · rw [if_neg hgap, hlog]
    exact ⟨fun _ h => absurd (hlo ▸ h.1) hgap, fun _ => hnone.contained _⟩
  rw [if_pos hgap]
  by_cases hmap : m.1 = 0
  swap
  · have hmlog : m.2.log = [] := (if_neg hmap).trans hlog
    rw [if_pos hmap, hmlog]
    exact ⟨fun _ h => absurd h.2 hmap, fun _ => hnone.contained _⟩
  have hmlog : m.2.log = [.mapped m.2.na.rl] := by
    have hm : m.2.log = f.log ++ [.mapped m.2.na.rl] := if_pos hmap
    rw [hm, hlog]
    rfl
  rw [if_neg (not_not.mpr hmap)]
  constructor
  · rintro hcont -
    by_contra hbad
    obtain ⟨raws, h1, h2, h3⟩ := zeroRaw_log (L := L) (v := v) lo stop m.2
    rw [hmlog] at h1
    refine not_contained_of_bad (eq_true_of_ne_false hbad) h1 h2 (fun hnil => ?_) hcont
    have hz : z.1 = 0 := h3 hnil
    simp [hz]
  · intro hok
    have hok := hok ⟨hlo ▸ hgap, hmap⟩
    have hm : Calm v.vol m.2.log := by
      rw [hmlog]
      exact hnone.append hok
    exact (zeroRaw_calm hc hm hok lo stop).contained _

/-- An abort meets the demand exactly when no rejected runlist gets to `zero_raw`. -/
theorem nkAbortWrite_contained (hc : 0 < v.vol.clusterSize) (offset length : ℤ) (f : NkFile σ) :
    Contained v.vol (some (nkAbortWrite L.logging v offset length f.logged).1)
        (nkAbortWrite L.logging v offset length f.logged).2.log ↔
      ∀ rl ∈ abortZeroes L.logging offset length f.logged, badRunlist v.vol rl = false := by
  have hquiet : ∀ {ret log} {o : Option Runlist}, log = [] → o = none →
      (Contained v.vol ret log ↔ ∀ rl ∈ o, badRunlist v.vol rl = false) := by
    rintro ret _ _ rfl rfl
    have hnone : Calm v.vol [] := fun _ h => by cases h
    exact ⟨fun _ rl hrl => (by cases hrl), fun _ => hnone.contained _⟩
  unfold nkAbortWrite abortZeroes
  extract_lets i r a m
  by_cases hbad : badWindow offset length = true
  · rw [if_pos hbad]
    exact hquiet rfl (if_neg fun h => by simp [h.1] at hbad)
  rw [if_neg hbad]
  by_cases hino : i.1 = false
  · rw [if_pos hino]
    exact hquiet rfl (if_neg fun h => by simp [h.2.1] at hino)
  rw [if_neg hino]
  have hwm : f.logged.wrHwm = (SwapTable.find i.2.wr i.2.mref).getD 0 := rfl
  have hwin : 0 ≤ offset ∧ 0 < length := by
    simp only [badWindow, Bool.or_eq_true, decide_eq_true_eq, not_or, not_lt, not_le] at hbad
    exact hbad.1
  change Contained v.vol (some r.1) r.2.log ↔ _
  cases hfind : SwapTable.find i.2.wr i.2.mref with
  | none =>
    have hr : r = (0, i.2) := by simp only [r, hfind]
    rw [hr]
    refine hquiet rfl (if_neg fun h => ?_)
    rw [hwm, hfind] at h
    have := h.2.2.2.2.1
    simp only [Option.getD_none] at this
    omega
  | some hwm' =>
    have hr : r = abortBody L.logging v offset length hwm' i.2 := by simp only [r, hfind]
    rw [hwm, hfind, Option.getD_some, hr]
    unfold abortBody
    extract_lets init
    by_cases hlow : offset + length < hwm'
    swap
    · -- the top window, or none of the tracked ones
      refine hquiet ?_ (if_neg fun h => hlow h.2.2.2.2.1)
      by_cases htop : offset < hwm'
      · rw [if_pos htop, if_pos (not_lt.mp hlow)]
        simp only [abortTop]
        split_ifs <;> rfl
      · rw [if_neg htop]
        rfl
    rw [if_pos (by omega), if_neg (not_le.mpr hlow)]
    by_cases hatt : a.1 = true ∧ a.2.na.nonResident = true
    · have hinit : init = a.2.na.initializedSize := if_pos hatt.1
      rw [if_pos hatt, abortLower_contained hc rfl, hinit]
      by_cases hz : max offset a.2.na.initializedSize < offset + length ∧ m.1 = 0
      · rw [if_pos ⟨eq_false_of_ne_true hbad, eq_true_of_ne_false hino, hatt.1, hatt.2, hlow, hz⟩]
        exact ⟨fun h rl hrl => Option.some.inj hrl ▸ h hz, fun h _ => h _ rfl⟩
      · rw [if_neg fun h => hz h.2.2.2.2.2]
        exact ⟨fun _ rl hrl => (by cases hrl), fun _ h => absurd h hz⟩
    · rw [if_neg hatt]
      exact hquiet rfl (if_neg fun h => hatt ⟨h.2.2.1, h.2.2.2.1⟩)

end Ends

/-- 64 clusters of 512 bytes. -/
def craftedVolume : NkVolume := ⟨⟨512, 64, false⟩, false⟩

/-- Two clusters from cluster `lcn` on, nothing of them initialized, and handed out up to
`hwm`. -/
def craftedFile (lcn hwm : ℤ) : NkFile Unit where
  disk _ := 0
  na := ⟨true, false, false, 1024, 0, 0, [⟨0, lcn, 2⟩], fun _ => 0⟩
  eng := ()
  mref := 5
  wr := [(5, hwm)]

end NtfsKit
