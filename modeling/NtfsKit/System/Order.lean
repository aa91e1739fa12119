import NtfsKit.System.Writes

/-! The order of completions. A window mapped since the last abort or truncation lies
below the mark, and the mark does not come down, so its completion never zeroes: it
raises `initialized_size` and drops the table entry once nothing is above it. What a set
of completions leaves behind is then a maximum, whatever their order. -/

namespace NtfsKit

variable {σ : Type}

/-! ### Windows below the mark -/

/-- A move that neither aborts nor truncates. -/
def Move.Steady : Move → Prop
  | .abort _ | .abortTry _ | .truncate _ => False
  | _ => True

/-- The windows handed out from the `n`-th on lie below the mark and inside the file. -/
def Below (n : ℕ) (p : Proto) : Prop := ∀ (i : ℕ) w, n ≤ i → p.windows[i]? = some w →
  0 ≤ w.start ∧ w.start < w.stop ∧ w.stop ≤ p.view.mark ∧ w.stop ≤ p.view.size

section Steady

variable {n : ℕ} {p q : Proto}

theorem Below.of_grows (h : Below n p) (hg : Grows p.view q.view)
    (hw : ∀ (i : ℕ) w, n ≤ i → q.windows[i]? = some w →
      ∃ u, p.windows[i]? = some u ∧ w.start = u.start ∧ w.stop = u.stop) : Below n q := by
  intro i w hi hq
  obtain ⟨u, hu, h1, h2⟩ := hw i w hi hq
  obtain ⟨h3, h4, h5, h6⟩ := h i u hi hu
  rw [h1, h2]
  exact ⟨h3, h4, h5.trans hg.mark_le, h6.trans hg.keep.size_le⟩

/-- A change of one window that leaves its range alone. -/
theorem Below.of_modify (h : Below n p) (hg : Grows p.view q.view) {i : ℕ} {f : Window → Window}
    (hf : ∀ w, (f w).start = w.start ∧ (f w).stop = w.stop)
    (hw : q.windows = p.windows.modify i f) : Below n q := by
  refine h.of_grows hg fun j w _ hj => ?_
  rw [hw] at hj
  obtain ⟨u, hu, rfl⟩ := lookup_modify.mp hj
  refine ⟨u, hu, ?_⟩
  split_ifs
  · exact hf u
  · exact ⟨rfl, rfl⟩

theorem Land.mark_size {a b : ℤ} {data : ℤ → UInt8} {v w : View} (h : Land a b data v w) :
    v.mark = w.mark ∧ v.size = w.size :=
  ⟨by simp only [View.mark, h.init, h.hwm], h.size.symm⟩

theorem Below.moves {grain : ℤ} (h : Below n p) {m : Move} (hm : Moves grain p m q)
    (hs : m.Steady) : Below n q := by
  have hsame : Grows p.view q.view → q.windows = p.windows → Below n q := fun hg hw =>
    h.of_grows hg fun i w _ hi => ⟨w, hw ▸ hi, rfl, rfl⟩
  cases m with
  | read bs => exact hsame hm.1.grows hm.2
  | disturb => exact hsame hm.1.grows hm.2
  | map off stop req =>
    obtain ⟨hmap, hw⟩ := hm
    intro i w hi hq
    rw [hw] at hq
    rcases lookup_concat.mp hq with hj | ⟨-, rfl⟩
    · obtain ⟨u, hu, rfl⟩ := lookup_map.mp hj
      obtain ⟨-, h1, h2⟩ := u.overlap_same off stop
      obtain ⟨h3, h4, h5, h6⟩ := h i u hi hu
      rw [h1, h2]
      exact ⟨h3, h4, h5.trans hmap.grows.mark_le, h6.trans hmap.grows.keep.size_le⟩
    · have hsize := hmap.size
      have hle := hmap.le
      exact ⟨hmap.off_nonneg, hmap.lt, hmap.stop_le_mark, show stop ≤ q.view.size by omega⟩
  | land i a b data =>
    obtain ⟨hl, hw⟩ := hm
    obtain ⟨hmark, hsize⟩ := hl.mark_size
    intro j w hj hq
    rw [hw] at hq
    obtain ⟨u, hu, rfl⟩ := lookup_modify.mp hq
    have hu := h j u hj hu
    rw [hmark, hsize] at hu
    split_ifs
    · exact hu
    · exact hu
  | complete i =>
    obtain ⟨w, -, hc, hw⟩ := hm
    exact h.of_modify (f := Window.finish .completed) hc.grows (fun _ => ⟨rfl, rfl⟩) hw
  | giveUp i =>
    obtain ⟨w, -, hc, hw⟩ := hm
    exact h.of_modify (f := Window.finish .failed) (hc.elim Stalled.grows Complete.grows)
      (fun _ => ⟨rfl, rfl⟩) hw
  | abort i => exact hs.elim
  | abortTry i => exact hs.elim
  | truncate size => exact hs.elim

end Steady

/-! ### A completion below the mark -/

open Prog

section Quiet

variable {L : Libntfs σ} {v : NkVolume} {offset length : ℤ} {f : NkFile σ}

/-- `completeBody` of a window with no gap below it. -/
def stampAndDrop (L : Libntfs σ) (target : ℤ) : Bridge σ Unit := do
  stampWindow L target
  modify dropLanded

theorem completeBody_below (hi : f.na.initializedSize = f.na.recInitializedSize)
    (h : offset ≤ max f.na.recInitializedSize f.wrHwm) (hstop : offset + length ≤ f.na.dataSize)
    (hlen : 0 < length) :
    completeBody L v offset length f = stampAndDrop L (offset + length) f := by
  have hgap : ¬ (f.na.nonResident = true ∧
      offset > if f.wrHwm > f.na.initializedSize then f.wrHwm else f.na.initializedSize) := by
    rintro ⟨-, hgt⟩
    split_ifs at hgt <;> omega
  have hz : zeroUnmapped L v
      (if f.wrHwm > f.na.initializedSize then f.wrHwm else f.na.initializedSize) offset f =
      (.ok (), f) := by
    rw [zeroUnmapped, bind_read, if_neg hgap]
    rfl
  rw [completeBody, bind_read, if_neg (by omega), bind_ok hz, if_neg (by omega)]
  rfl

/-- What the body does to the disk and to the entry. -/
theorem stampAndDrop_spec (L : Libntfs σ) (hd : SwapTable.Distinct f.wr)
    (hi : f.na.initializedSize = f.na.recInitializedSize)
    (hres : f.na.nonResident = false → f.na.recInitializedSize = f.na.dataSize) {target : ℤ}
    (hle : target ≤ f.na.dataSize) :
    wp (stampAndDrop L target)
      (fun _ g => g.disk = f.disk ∧ SwapTable.find g.wr g.mref =
        if f.wrHwm ≤ max f.na.recInitializedSize target then none
        else SwapTable.find f.wr f.mref)
      (fun e g => e = .out (-1) ∧ g.disk = f.disk) f := by
  -- the entry goes by the new `initialized_size`
  have hdrop : ∀ g : NkFile σ, g.disk = f.disk → g.wr = f.wr → g.mref = f.mref →
      g.na.initializedSize = max f.na.recInitializedSize target →
      (dropLanded g).disk = f.disk ∧ SwapTable.find (dropLanded g).wr (dropLanded g).mref =
        if f.wrHwm ≤ max f.na.recInitializedSize target then none
        else SwapTable.find f.wr f.mref := by
    intro g hdisk hwr hmref hinit
    have hwm : g.wrHwm = f.wrHwm := by simp only [NkFile.wrHwm, hwr, hmref]
    unfold dropLanded
    rw [hinit, hwm]
    split_ifs with h
    · refine ⟨hdisk, ?_⟩
      simp only [NkFile.wrDrop, hwr, hmref, SwapTable.find_swapRemove hd, if_true]
    · exact ⟨hdisk, by rw [hwr, hmref]⟩
  unfold stampAndDrop stampWindow orFail
  rw [wp_bind, wp_bind, wp_read]
  refine wp_ite (fun h => ?_) (fun h => ?_)
  · rw [wp_bind, wp_call]
    rcases stampInit_spec L target f with ⟨hz, hs⟩ | ⟨hz, hs⟩
    · rw [if_neg (by simp [hz]), wp_pure, wp_modify]
      refine hdrop _ hs.disk hs.wr hs.mref ?_
      rw [hs.na]
      change target = max f.na.recInitializedSize target
      omega
    · rw [if_pos (by simp [hz]), wp_exit]
      exact ⟨rfl, hs.disk⟩
  · rw [wp_pure, wp_modify]
    refine hdrop f rfl rfl rfl ?_
    rcases hr : f.na.nonResident with _ | _
    · have := hres hr
      omega
    · simp only [hr, true_and, not_lt] at h
      omega

/-- The completion writes no data byte: the disk stays as it is, and whatever a device
write or an attribute write would do, the outcome is the same. -/
structure Silent (L : Libntfs σ) (v : NkVolume) (offset length : ℤ) (f : NkFile σ) : Prop where
  disk : (nkCompleteWrite L v offset length f).2.disk = f.disk
  unused : ∀ pwrite attrPwrite,
    nkCompleteWrite { L with pwrite := pwrite, attrPwrite := attrPwrite } v offset length f =
      nkCompleteWrite L v offset length f

/-- A call that does not get to the body changes nothing but the library's own state. -/
theorem nkCompleteWrite_cases (L : Libntfs σ) (v : NkVolume) (offset length : ℤ)
    (f : NkFile σ) :
    ((nkCompleteWrite L v offset length f).1 = -1 ∧
      (nkCompleteWrite L v offset length f).2.disk = f.disk ∧
      ∀ p q, nkCompleteWrite { L with pwrite := p, attrPwrite := q } v offset length f =
        nkCompleteWrite L v offset length f) ∨
    ∀ p q, nkCompleteWrite { L with pwrite := p, attrPwrite := q } v offset length f =
      (fun b : Except Exit Unit × NkFile σ => flush L (exitCode b.1) b.2)
        (completeBody { L with pwrite := p, attrPwrite := q } v offset length
          ((f.libEng L.pathnameToInode).2.attrOpen L).2) := by
  have hleft : ∀ g : NkFile σ, g.disk = f.disk →
      (∀ p q, nkCompleteWrite { L with pwrite := p, attrPwrite := q } v offset length f = (-1, g)) →
      (nkCompleteWrite L v offset length f).1 = -1 ∧
      (nkCompleteWrite L v offset length f).2.disk = f.disk ∧
      ∀ p q, nkCompleteWrite { L with pwrite := p, attrPwrite := q } v offset length f =
        nkCompleteWrite L v offset length f := by
    intro g hg hcall
    have hL : nkCompleteWrite L v offset length f = (-1, g) := hcall L.pwrite L.attrPwrite
    exact ⟨by rw [hL], by rw [hL]; exact hg, fun p q => (hcall p q).trans hL.symm⟩
  by_cases hbad : badWindow offset length = true
  · exact .inl (hleft f rfl fun _ _ => if_pos hbad)
  by_cases hino : (f.libEng L.pathnameToInode).1 = false
  · refine .inl (hleft (f.libEng L.pathnameToInode).2 rfl fun _ _ => ?_)
    simp only [nkCompleteWrite, if_neg hbad, if_pos hino]
  by_cases hatt : ((f.libEng L.pathnameToInode).2.attrOpen L).1 = false
  · refine .inl (hleft (((f.libEng L.pathnameToInode).2.attrOpen L).2.libEng L.inodeClose).2 rfl
      fun p q => ?_)
    have hatt' : ((f.libEng L.pathnameToInode).2.attrOpen
      { L with pwrite := p, attrPwrite := q }).1 = false := hatt
    simp only [nkCompleteWrite, if_neg hbad, if_neg hino, if_pos hatt']
    rfl
  · right
    intro p q
    have hatt' : ¬ ((f.libEng L.pathnameToInode).2.attrOpen
      { L with pwrite := p, attrPwrite := q }).1 = false := hatt
    simp only [nkCompleteWrite, if_neg hbad, if_neg hino, if_neg hatt']
    rfl

/-- A completion below the mark is silent, and drops the entry by the new
`initialized_size`. -/
theorem nkCompleteWrite_below {vol : NtfsVolume} (hf : f.Sound vol) (hlen : 0 < length)
    (h : offset ≤ (f.view vol).mark) (hstop : offset + length ≤ f.na.dataSize) :
    Silent L v offset length f ∧ ((nkCompleteWrite L v offset length f).1 = 0 →
      SwapTable.find (nkCompleteWrite L v offset length f).2.wr
        (nkCompleteWrite L v offset length f).2.mref =
        if f.wrHwm ≤ max f.na.recInitializedSize (offset + length) then none
        else SwapTable.find f.wr f.mref) := by
  rcases nkCompleteWrite_cases L v offset length f with ⟨hret, hdisk, hunused⟩ | hcall
  · exact ⟨⟨hdisk, hunused⟩, fun h0 => by omega⟩
  set a := ((f.libEng L.pathnameToInode).2.attrOpen L).2
  have hbody : ∀ M : Libntfs σ, completeBody M v offset length a =
      stampAndDrop M (offset + length) a := fun M => completeBody_below rfl h hstop hlen
  have hself : nkCompleteWrite L v offset length f =
      flush L (exitCode (stampAndDrop L (offset + length) a).1)
        (stampAndDrop L (offset + length) a).2 := by
    have hL := hcall L.pwrite L.attrPwrite
    rw [hbody] at hL
    exact hL
  have hunused : ∀ p q, nkCompleteWrite { L with pwrite := p, attrPwrite := q } v offset length f =
      nkCompleteWrite L v offset length f := by
    intro p q
    rw [hself, hcall p q, hbody]
    rfl
  have hwp := stampAndDrop_spec (f := a) L hf.distinct rfl (fun hr => (hf.wf.resident hr).2) hstop
  rcases hb : stampAndDrop L (offset + length) a with ⟨e | _, g⟩
  · obtain ⟨rfl, hdisk⟩ := wp_error hwp hb
    rw [hb] at hself
    obtain ⟨hfl, hz⟩ := flush_spec L (exitCode (.error (.out (-1)))) g
    refine ⟨⟨?_, hunused⟩, fun h0 => ?_⟩
    · rw [hself]
      exact hfl.disk.trans hdisk
    · rw [hself] at h0
      have : (-1 : ℤ) = 0 := hz h0
      omega
  · obtain ⟨hdisk, hfind⟩ := wp_ok hwp hb
    rw [hb] at hself
    obtain ⟨hfl, -⟩ := flush_spec L (exitCode (.ok ())) g
    refine ⟨⟨?_, hunused⟩, fun _ => ?_⟩
    · rw [hself]
      exact hfl.disk.trans hdisk
    · rw [hself]
      dsimp only
      rw [hfl.wr, hfl.mref]
      exact hfind

end Quiet

/-! ### Completions in a row -/

/-- Complete the windows in order, with no other call in between: the return values and
the file. -/
def completeAll (L : Libntfs σ) (v : NkVolume) : List Window → NkFile σ → List ℤ × NkFile σ
  | [], f => ([], f)
  | w :: ws, f =>
    let r := nkCompleteWrite L v w.start (w.stop - w.start) f
    let rest := completeAll L v ws r.2
    (r.1 :: rest.1, rest.2)

/-- No completion of the row writes a data byte. -/
def AllSilent (L : Libntfs σ) (v : NkVolume) : List Window → NkFile σ → Prop
  | [], _ => True
  | w :: ws, f => Silent L v w.start (w.stop - w.start) f ∧
      AllSilent L v ws (nkCompleteWrite L v w.start (w.stop - w.start) f).2

/-- The window is not empty and lies below the mark of the file and inside it. -/
structure Lies (vol : NtfsVolume) (f : NkFile σ) (w : Window) : Prop where
  lt : w.start < w.stop
  mark : w.stop ≤ (f.view vol).mark
  size : w.stop ≤ f.na.dataSize

section Row

variable {L : Libntfs σ} {v : NkVolume} (hL : L.Spec v.vol) (hc : 0 < v.vol.clusterSize)
include hL hc

/-- A completion, successful or not, lets every window lie where it lay. -/
theorem Lies.complete {f : NkFile σ} (hf : f.Sound v.vol) {w : Window} (h : Lies v.vol f w)
    (offset length : ℤ) : Lies v.vol (nkCompleteWrite L v offset length f).2 w := by
  obtain ⟨hk, hany, -⟩ := nkCompleteWrite_spec hL hc hf offset length
  have hg := hany.elim Stalled.grows Complete.grows
  exact ⟨h.lt, h.mark.trans hg.mark_le, hk.dataSize ▸ h.size⟩

omit hL hc in
theorem Lies.silent {f : NkFile σ} (hf : f.Sound v.vol) {w : Window} (h : Lies v.vol f w) :
    Silent L v w.start (w.stop - w.start) f ∧
      ((nkCompleteWrite L v w.start (w.stop - w.start) f).1 = 0 →
        SwapTable.find (nkCompleteWrite L v w.start (w.stop - w.start) f).2.wr
          (nkCompleteWrite L v w.start (w.stop - w.start) f).2.mref =
          if f.wrHwm ≤ max f.na.recInitializedSize w.stop then none
          else SwapTable.find f.wr f.mref) := by
  have hlt := h.lt
  have hm := h.mark
  have hs := h.size
  have hlen : 0 < w.stop - w.start := by omega
  have hb := nkCompleteWrite_below (L := L) (v := v) hf hlen (by omega)
    (by omega : w.start + (w.stop - w.start) ≤ _)
  rwa [show w.start + (w.stop - w.start) = w.stop by omega] at hb

theorem completeAll_silent : ∀ (ws : List Window) (f : NkFile σ), f.Sound v.vol →
    (∀ w ∈ ws, Lies v.vol f w) → AllSilent L v ws f ∧
      (completeAll L v ws f).2.disk = f.disk ∧
      (completeAll L v ws f).2.na.dataSize = f.na.dataSize
  | [], _, _, _ => ⟨trivial, rfl, rfl⟩
  | w :: ws, f, hf, h => by
    obtain ⟨hs, -⟩ := (h w List.mem_cons_self).silent hf
    obtain ⟨hk, -⟩ := nkCompleteWrite_spec hL hc hf w.start (w.stop - w.start)
    obtain ⟨h1, h2, h3⟩ := completeAll_silent ws _ hk.sound fun u hu =>
      (h u (List.mem_cons_of_mem _ hu)).complete hL hc hf w.start (w.stop - w.start)
    exact ⟨⟨hs, h1⟩, h2.trans hs.disk, h3.trans hk.dataSize⟩

/-- The end of the windows, if they go beyond `i`. -/
def lastStop (i : ℤ) (ws : List Window) : ℤ := ws.foldl (fun i w => max i w.stop) i

omit hL hc in
theorem le_lastStop (i : ℤ) (ws : List Window) : i ≤ lastStop i ws := by
  induction ws generalizing i with
  | nil => exact le_rfl
  | cons w ws ih => exact (le_max_left i w.stop).trans (ih (max i w.stop))

/-- What a row of successful completions leaves behind. -/
theorem completeAll_stamps : ∀ (ws : List Window) (f : NkFile σ), f.Sound v.vol →
    (∀ w ∈ ws, Lies v.vol f w) → (∀ r ∈ (completeAll L v ws f).1, r = 0) →
      (completeAll L v ws f).2.na.recInitializedSize = lastStop f.na.recInitializedSize ws ∧
      SwapTable.find (completeAll L v ws f).2.wr (completeAll L v ws f).2.mref =
        if ws ≠ [] ∧ f.wrHwm ≤ lastStop f.na.recInitializedSize ws then none
        else SwapTable.find f.wr f.mref
  | [], f, _, _, _ => ⟨rfl, by simp [completeAll]⟩
  | w :: ws, f, hf, h, hz => by
    have hw := h w List.mem_cons_self
    have hsize := hw.size
    have hlt := hw.lt
    have h0 := hz _ List.mem_cons_self
    obtain ⟨-, hfind⟩ := hw.silent hf
    specialize hfind h0
    obtain ⟨hk, -, hok⟩ := nkCompleteWrite_spec hL hc hf w.start (w.stop - w.start)
    specialize hok h0
    obtain ⟨h1, h2⟩ := completeAll_stamps ws _ hk.sound (fun u hu =>
      (h u (List.mem_cons_of_mem _ hu)).complete hL hc hf w.start (w.stop - w.start))
      fun r hr => hz r (List.mem_cons_of_mem _ hr)
    set g := (nkCompleteWrite L v w.start (w.stop - w.start) f).2 with hg
    have hinit : g.na.recInitializedSize = max f.na.recInitializedSize w.stop := by
      refine hok.init.trans ?_
      rw [show w.start + (w.stop - w.start) = w.stop by omega,
        if_pos (show w.start < (f.view v.vol).size from hlt.trans_le hsize)]
      exact congrArg (max _) (min_eq_left hsize)
    rw [hinit] at h1 h2
    refine ⟨h1, ?_⟩
    change SwapTable.find (completeAll L v ws g).2.wr (completeAll L v ws g).2.mref = _
    have hle := le_lastStop (max f.na.recInitializedSize w.stop) ws
    have hnn := hf.wf.init_nonneg
    rw [h2, hfind]
    have hgw : g.wrHwm = if f.wrHwm ≤ max f.na.recInitializedSize w.stop then 0 else f.wrHwm := by
      rw [NkFile.wrHwm, hfind]
      split_ifs <;> rfl
    have hlast : lastStop f.na.recInitializedSize (w :: ws) =
        lastStop (max f.na.recInitializedSize w.stop) ws := rfl
    rw [hlast, hgw]
    by_cases hP : f.wrHwm ≤ max f.na.recInitializedSize w.stop
    · rw [if_pos hP, if_pos hP, ite_self, if_pos ⟨List.cons_ne_nil _ _, hP.trans hle⟩]
    · rw [if_neg hP, if_neg hP]
      cases ws with
      | nil => rw [if_neg (fun h => h.1 rfl), if_neg (fun h => hP h.2)]
      | cons u us => simp only [ne_eq, reduceCtorEq, not_false_eq_true]

end Row

/-! ### Any two orders -/

theorem lastStop_perm {ws us : List Window} (h : ws.Perm us) (i : ℤ) :
    lastStop i ws = lastStop i us :=
  h.foldl_eq' (fun w _ u _ j => by rw [max_assoc, max_assoc, max_comm u.stop]) i

/-- Runs without an abort or a truncation. -/
def Steady (s : Sys σ) (e : Event) (r : Reply) : Prop :=
  Rule s e r ∧ match e with
    | .abort _ | .truncate _ => False
    | _ => True

theorem Steady.move {L : Libntfs σ} {s : Sys σ} {e : Event} {r : Reply} (h : Steady s e r) :
    (moveOf L e r).Steady := by
  have h2 := h.2
  cases e with
  | mapRead o l b cb =>
    simp only [moveOf]
    split_ifs <;> trivial
  | mapWrite o l b cb =>
    simp only [moveOf]
    split_ifs <;> trivial
  | land i a b d => trivial
  | complete i =>
    simp only [moveOf]
    split_ifs <;> trivial
  | abort i => exact h2.elim
  | truncate size => exact h2.elim

instance (s : Sys σ) : ∀ (e : Event) (r : Reply), Decidable (Steady s e r)
  | .mapRead o l b cb, r => inferInstanceAs (Decidable (Rule s (.mapRead o l b cb) r ∧ True))
  | .mapWrite o l b cb, r => inferInstanceAs (Decidable (Rule s (.mapWrite o l b cb) r ∧ True))
  | .land i a b d, r => inferInstanceAs (Decidable (Rule s (.land i a b d) r ∧ True))
  | .complete i, r => inferInstanceAs (Decidable (Rule s (.complete i) r ∧ True))
  | .abort i, r => inferInstanceAs (Decidable (Rule s (.abort i) r ∧ False))
  | .truncate n, r => inferInstanceAs (Decidable (Rule s (.truncate n) r ∧ False))

section Orders

variable {L : Libntfs σ} {v : NkVolume} (hL : L.Spec v.vol) (hc : 0 < v.vol.clusterSize)
include hL hc

/-- Windows mapped during a steady run stay below the mark. -/
theorem Sys.Good.steady {n : ℕ} {s t : Sys σ} (hs : s.Good v.vol) (hb : Below n (s.proto v.vol))
    (hr : Run (Sys.step L v) Steady s t) : t.Good v.vol ∧ Below n (t.proto v.vol) := by
  have hstep : ∀ (s : Sys σ) e, (s.Good v.vol ∧ Below n (s.proto v.vol)) →
      Steady s e (s.step L v e).1 →
      (s.step L v e).2.Good v.vol ∧ Below n ((s.step L v e).2.proto v.vol) := by
    rintro s e ⟨hg, hb⟩ hr
    obtain ⟨hm, -⟩ := Sys.step_moves hL hc hg.placed hg.windows hr.1
    exact ⟨hg.step hL hc hr.1, hb.moves hm hr.move⟩
  exact hr.invariant hstep ⟨hs, hb⟩

end Orders

/-- Two windows mapped in ascending order and landed. -/
def twoLanded : Sys Unit := smallRun (staleFile 2 1024 0)
  [.mapWrite 0 512 512 fun _ => false, .mapWrite 512 512 512 fun _ => false,
    .land 0 0 512 fun _ => 1, .land 1 512 1024 fun _ => 2]

end NtfsKit
