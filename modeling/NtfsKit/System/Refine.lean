import NtfsKit.Bridge.EndSpec
import NtfsKit.Protocol.Landed
import NtfsKit.System.Model

/-! The system refines the protocol: every event allowed by the rule is a move on the
view, and the extents of an outstanding window keep naming the device bytes of the
file, as far as no truncation cut them. -/

namespace NtfsKit

variable {σ : Type} {vol : NtfsVolume}

/-- The protocol's state of the system. -/
def Sys.proto (vol : NtfsVolume) (s : Sys σ) : Proto := ⟨s.file.view vol, s.windows⟩

open Classical in
/-- The move an event makes, by what the call returned. -/
noncomputable def moveOf (L : Libntfs σ) : Event → Reply → Move
  | .mapRead _ _ blocksize _, r => if r.ret = some 0 then .read (blockSize blocksize) else .disturb
  | .mapWrite offset length _ _, r =>
    if r.ret = some 0 then .map offset (extentsEnd offset r.extents) (offset + length)
    else .disturb
  | .land i a b data, _ => .land i a b data
  | .complete i, r => if r.ret = some 0 then .complete i else .giveUp i
  | .abort i, r => if r.ret = some 0 ∧ L.AttrOpens then .abort i else .abortTry i
  | .truncate size, _ => .truncate size

/-- The extents name where the bytes of a window lie, below `live`. -/
structure Names (vol : NtfsVolume) (f : NkFile σ) (w : Window) (es : List Extent) : Prop where
  tiles : Tiles w.start w.stop es
  at_phys : ∀ e ∈ es, ∀ x, e.logical ≤ x → x < e.logical + e.length → x < w.live →
    f.phys vol x = some (e.physical + (x - e.logical))

/-- A sound file whose outstanding windows lie where their extents say. -/
structure Placed (vol : NtfsVolume) (s : Sys σ) : Prop where
  sound : s.file.Sound vol
  length : s.extents.length = s.windows.length
  names : ∀ (i : ℕ) w es, s.windows[i]? = some w → s.extents[i]? = some es →
    w.status = .outstanding → Names vol s.file w es

theorem Rule.fair {L : Libntfs σ} {s : Sys σ} {e : Event} {r : Reply} (h : Rule s e r) :
    Fair s.windows (moveOf L e r) := by
  cases e with
  | mapRead o l b cb =>
    simp only [moveOf]
    split_ifs <;> trivial
  | mapWrite o l b cb =>
    simp only [moveOf]
    split_ifs with h0
    · exact fun i w hi => h h0 w (List.mem_of_getElem? hi)
    · trivial
  | land i a b d => exact h
  | complete i =>
    simp only [moveOf]
    split_ifs <;> exact h
  | abort i =>
    simp only [moveOf]
    split_ifs <;> exact h
  | truncate size => trivial

/-! ### Landing -/

theorem Names.landDisk_eq {f : NkFile σ} (hf : f.toNtfs.Wf vol) {w : Window} {es : List Extent}
    (h : Names vol f w es) {a b : ℤ} (ha : w.start ≤ a) (hb : b ≤ w.live) (hlive : w.live ≤ w.stop)
    (data : ℤ → UInt8) {x q : ℤ} (hx : f.phys vol x = some q) :
    landDisk es a b data f.disk q = if a ≤ x ∧ x < b then data x else f.disk q := by
  -- an extent that takes the byte `q` takes it for `x`: no two bytes share a place
  have huniq : ∀ e ∈ es, e.physical ≤ q → q < e.physical + e.length →
      a ≤ e.logical + (q - e.physical) → e.logical + (q - e.physical) < b →
      e.logical + (q - e.physical) = x := fun e he h1 h2 h3 h4 => by
    refine hf.phys_inj ?_ hx
    rw [h.at_phys e he _ (by omega) (by omega) (by omega)]
    congr 1
    omega
  unfold landDisk
  split
  · next e he =>
    have hp := List.find?_some he
    simp only [decide_eq_true_eq] at hp
    obtain ⟨h1, h2, h3, h4⟩ := hp
    have := huniq e (List.mem_of_find?_eq_some he) h1 h2 h3 h4
    rw [this] at h3 h4 ⊢
    rw [if_pos ⟨h3, h4⟩]
  · next hnone =>
    rw [if_neg]
    rintro ⟨h1, h2⟩
    obtain ⟨e, he, h3, h4⟩ := h.tiles.cover x (by omega) (by omega)
    have hq := h.at_phys e he x h3 h4 (by omega)
    rw [hx] at hq
    have hq := Option.some.inj hq
    have := List.find?_eq_none.mp hnone e he
    simp only [decide_eq_true_eq, not_and, not_lt] at this
    have := this (by omega) (by omega) (by omega)
    omega

/-- Bytes stored through the extents of a window are bytes of the file. -/
theorem Names.land {f : NkFile σ} (hf : f.toNtfs.Wf vol) {w : Window} {es : List Extent}
    (h : Names vol f w es) {a b : ℤ} (ha : w.start ≤ a) (hb : b ≤ w.live) (hlive : w.live ≤ w.stop)
    (data : ℤ → UInt8) : Land a b data (f.view vol)
      (({ f with disk := landDisk es a b data f.disk } : NkFile σ).view vol) := by
  refine ⟨rfl, rfl, rfl, rfl, fun x => ?_⟩
  cases hx : f.phys vol x with
  | some q =>
    have hnew : (({ f with disk := landDisk es a b data f.disk } : NkFile σ).content vol x) =
        landDisk es a b data f.disk q := Ntfs.content_of_phys hx
    have hold : f.content vol x = f.disk q := Ntfs.content_of_phys hx
    simp only [NkFile.view, hnew, hold]
    exact h.landDisk_eq hf ha hb hlive data hx
  | none =>
    -- every byte of `[a, b)` has a place
    rw [if_neg]
    · simp only [NkFile.view, Ntfs.content]
      rw [show ({ f with disk := landDisk es a b data f.disk } : NkFile σ).phys vol x = none
        from hx, hx]
    · rintro ⟨h1, h2⟩
      obtain ⟨e, he, h3, h4⟩ := h.tiles.cover x (by omega) (by omega)
      rw [h.at_phys e he x h3 h4 (by omega)] at hx
      cases hx

/-! ### One event -/

/-- The places stay named while the clusters stay. -/
theorem Names.mono {f g : NkFile σ} {w : Window} {es : List Extent} (h : Names vol f w es)
    (hp : ∀ x p, 0 ≤ x → x < w.live → f.phys vol x = some p → g.phys vol x = some p)
    (h0 : 0 ≤ w.start) : Names vol g w es := by
  refine ⟨h.tiles, fun e he x h1 h2 h3 => hp x _ ?_ h3 (h.at_phys e he x h1 h2 h3)⟩
  have := (h.tiles.within e he).1
  omega

/-- The windows change in their status at most, or are cut further. -/
theorem Names.window {f : NkFile σ} {w u : Window} {es : List Extent} (h : Names vol f w es)
    (h1 : u.start = w.start) (h2 : u.stop = w.stop) (h3 : u.live ≤ w.live) :
    Names vol f u es :=
  ⟨by rw [h1, h2]; exact h.tiles, fun e he x h4 h5 h6 => h.at_phys e he x h4 h5 (by omega)⟩

section Step

variable {L : Libntfs σ} {v : NkVolume} {s : Sys σ}

/-- The windows of `t` are those of `s`, perhaps ended or cut, and the clusters below
their `live` stayed. -/
theorem Placed.of_windows {t : Sys σ} (hs : Placed vol s) (hw : WindowsOk (s.proto vol))
    (hg : t.file.Sound vol) (hext : t.extents = s.extents)
    (hlen : t.windows.length = s.windows.length)
    (hwin : ∀ (i : ℕ) w, t.windows[i]? = some w → w.status = .outstanding →
      ∃ u, s.windows[i]? = some u ∧ u.status = .outstanding ∧ w.start = u.start ∧
        w.stop = u.stop ∧ w.live ≤ u.live ∧ ∀ x p, 0 ≤ x → x < w.live →
          s.file.phys vol x = some p → t.file.phys vol x = some p) : Placed vol t where
  sound := hg
  length := by rw [hext, hlen, hs.length]
  names i w es hi he ho := by
    obtain ⟨u, hu, huo, h1, h2, h3, hp⟩ := hwin i w hi ho
    have h0 := (hw.each i u hu).start_nonneg
    exact ((hs.names i u es hu (hext ▸ he) huo).window h1 h2 h3).mono hp (by omega)

/-- A call that touches no window. -/
theorem Placed.of_file {g : NkFile σ} (hs : Placed vol s) (hw : WindowsOk (s.proto vol))
    (hg : g.Sound vol)
    (hp : ∀ x p, s.file.phys vol x = some p → g.phys vol x = some p) :
    Placed vol { s with file := g } :=
  hs.of_windows hw hg rfl rfl fun _ w hi ho =>
    ⟨w, hi, ho, rfl, rfl, le_rfl, fun x p _ _ hx => hp x p hx⟩

/-- A call that ends window `i` and moves no cluster. -/
theorem Placed.of_finish {g : NkFile σ} (hs : Placed vol s) (hw : WindowsOk (s.proto vol))
    (hg : Kept vol s.file g) {i : ℕ} {st : Status} (hst : st ≠ .outstanding) :
    Placed vol { s with file := g, windows := s.windows.modify i (Window.finish st) } := by
  refine hs.of_windows hw hg.sound rfl (by simp) fun j w hj ho => ?_
  obtain ⟨u, hu, rfl⟩ := lookup_modify.mp hj
  split_ifs at ho ⊢ with hij
  · exact absurd ho hst
  · exact ⟨u, hu, ho, rfl, rfl, le_rfl, fun x p _ _ hx => by rw [hg.phys]; exact hx⟩

variable (hL : L.Spec v.vol) (hc : 0 < v.vol.clusterSize) (hs : Placed v.vol s)
  (hw : WindowsOk (s.proto v.vol))
include hL hc hs hw

theorem mapRead_moves (offset length blocksize : ℤ) (cb : List Extent → Bool) :
    Moves v.vol.clusterSize (s.proto v.vol)
      (moveOf L (.mapRead offset length blocksize cb)
        (s.mapRead L v offset length blocksize cb).1)
      ((s.mapRead L v offset length blocksize cb).2.proto v.vol) ∧
    Placed v.vol (s.mapRead L v offset length blocksize cb).2 := by
  obtain ⟨c, hret, hm, -, hr, -⟩ :=
    nkBlockmap_spec hL hc hs.sound offset length false blocksize cb
  refine ⟨?_, hs.of_file hw hm.sound hm.phys⟩
  simp only [moveOf, Sys.mapRead, hret, Option.some.injEq]
  split_ifs with h0
  · exact ⟨(hr h0 rfl).2.step, rfl⟩
  · exact ⟨hm.disturb, rfl⟩

theorem mapWrite_moves (offset length blocksize : ℤ) (cb : List Extent → Bool) :
    Moves v.vol.clusterSize (s.proto v.vol)
      (moveOf L (.mapWrite offset length blocksize cb)
        (s.mapWrite L v offset length blocksize cb).1)
      ((s.mapWrite L v offset length blocksize cb).2.proto v.vol) ∧
    Placed v.vol (s.mapWrite L v offset length blocksize cb).2 := by
  obtain ⟨c, hret, hm, hwr, -⟩ :=
    nkBlockmap_spec hL hc hs.sound offset length true blocksize cb
  simp only [moveOf, Sys.mapWrite, hret, Option.some.injEq]
  set m := nkBlockmap L v offset length true blocksize cb s.file with hmdef
  split_ifs with h0
  · have hmap := hwr h0 rfl
    refine ⟨⟨hmap.step, rfl⟩, hm.sound, by simp [hs.length], fun i w es hi he ho => ?_⟩
    rcases lookup_concat.mp hi with hj | ⟨hj, rfl⟩
    · obtain ⟨u, hu, rfl⟩ := lookup_map.mp hj
      have hlt : i < s.extents.length := by
        rw [hs.length]
        exact (List.getElem?_eq_some_iff.mp hu).1
      rw [List.getElem?_append_left hlt] at he
      obtain ⟨h1, h2, h3⟩ := u.overlap_same offset (extentsEnd offset m.extents)
      have hn := hs.names i u es hu he (h1 ▸ ho)
      exact (hn.window h2 h3 (u.overlap_live _ _).le).mono (fun x p _ _ hx => hm.phys x p hx)
        (by rw [h2]; exact (hw.each i u hu).start_nonneg)
    · have hlen : i = s.extents.length := by rw [hj, List.length_map, hs.length]
      have hes : m.extents = es := by
        rcases lookup_concat.mp he with h | ⟨-, h⟩
        · exact absurd (List.getElem?_eq_some_iff.mp h).1 (by omega)
        · exact h
      subst hes
      exact ⟨hmap.tiles, fun e he x h1 h2 _ => (hmap.placed e he x h1 h2).2⟩
  · exact ⟨⟨hm.disturb, rfl⟩, hs.of_file hw hm.sound hm.phys⟩

omit hL hc in
theorem land_moves {i : ℕ} {a b : ℤ} {data : ℤ → UInt8}
    (hr : Rule s (.land i a b data) ⟨some 0, []⟩) :
    Moves v.vol.clusterSize (s.proto v.vol) (.land i a b data)
      ((s.land i a b data).proto v.vol) ∧ Placed v.vol (s.land i a b data) := by
  obtain ⟨w, hi, ho, ha, hb⟩ := hr
  have hlt : i < s.extents.length := by
    rw [hs.length]
    exact (List.getElem?_eq_some_iff.mp hi).1
  have hes : s.extents[i]? = some (s.extents.getD i []) := by
    simp [List.getElem?_eq_getElem hlt]
  have hn := hs.names i w _ hi hes ho
  refine ⟨⟨hn.land hs.sound.wf ha hb (hw.each i w hi).live_le data, rfl⟩, ?_⟩
  have hsound : (s.land i a b data).file.Sound v.vol :=
    ⟨hs.sound.wf.of_na_eq rfl, hs.sound.distinct, hs.sound.hwm_nonneg, hs.sound.hwm_le⟩
  refine hs.of_windows hw hsound rfl (by simp [Sys.land]) fun j u hj hu => ?_
  obtain ⟨u', hu', rfl⟩ := lookup_modify.mp hj
  refine ⟨u', hu', ?_⟩
  split_ifs at hu ⊢
  · exact ⟨hu, rfl, rfl, le_rfl, fun x p _ _ hx => hx⟩
  · exact ⟨hu, rfl, rfl, le_rfl, fun x p _ _ hx => hx⟩

theorem complete_moves {i : ℕ} (hr : ∃ w, s.windows[i]? = some w ∧ w.status = .outstanding) :
    Moves v.vol.clusterSize (s.proto v.vol) (moveOf L (.complete i) (s.complete L v i).1)
      ((s.complete L v i).2.proto v.vol) ∧ Placed v.vol (s.complete L v i).2 := by
  obtain ⟨w, hi, -⟩ := hr
  obtain ⟨hk, hany, hok⟩ := nkCompleteWrite_spec hL hc hs.sound w.start (w.stop - w.start)
  rw [show w.start + (w.stop - w.start) = w.stop by omega] at hany hok
  simp only [moveOf, Sys.complete, hi, Option.some.injEq]
  split_ifs with h0
  · exact ⟨⟨w, hi, hok h0, rfl⟩, hs.of_finish hw hk (by decide)⟩
  · exact ⟨⟨w, hi, hany, rfl⟩, hs.of_finish hw hk (by decide)⟩

theorem abort_moves {i : ℕ} (hr : ∃ w, s.windows[i]? = some w ∧ w.status = .outstanding) :
    Moves v.vol.clusterSize (s.proto v.vol) (moveOf L (.abort i) (s.abort L v i).1)
      ((s.abort L v i).2.proto v.vol) ∧ Placed v.vol (s.abort L v i).2 := by
  obtain ⟨w, hi, -⟩ := hr
  obtain ⟨hk, hany, hok⟩ := nkAbortWrite_spec hL hc hs.sound w.start (w.stop - w.start)
  rw [show w.start + (w.stop - w.start) = w.stop by omega] at hany hok
  have hstep : s.abort L v i = (⟨some (nkAbortWrite L v w.start (w.stop - w.start) s.file).1, []⟩,
      { s with
        file := (nkAbortWrite L v w.start (w.stop - w.start) s.file).2
        windows := s.windows.modify i (Window.finish .aborted) }) := by
    simp only [Sys.abort, hi]
  rw [hstep]
  refine ⟨?_, hs.of_finish hw hk (by decide)⟩
  simp only [moveOf]
  split_ifs with h0
  · exact ⟨w, hi, hok (Option.some.inj h0.1) h0.2, rfl⟩
  · exact ⟨w, hi, hany, rfl⟩

omit hL hc in
/-- A truncation that took place is a move, whatever the call returned. -/
theorem Truncate.moves {size : ℤ} (hg : (nkTruncate L size s.file).2.Sound v.vol)
    (ht : Truncate v.vol.clusterSize size (s.file.view v.vol)
      ((nkTruncate L size s.file).2.view v.vol))
    (hp : ∀ x p, 0 ≤ x → x < s.file.na.dataSize → x < size → s.file.phys v.vol x = some p →
      (nkTruncate L size s.file).2.phys v.vol x = some p) :
    Moves v.vol.clusterSize (s.proto v.vol) (.truncate size)
      ((s.truncate L size).2.proto v.vol) ∧ Placed v.vol (s.truncate L size).2 := by
  have hsize : (nkTruncate L size s.file).2.na.dataSize = size := ht.size
  refine ⟨⟨ht, by simp only [Sys.proto, Sys.truncate, hsize]⟩,
    hs.of_windows hw hg rfl (by simp [Sys.truncate]) fun i w hi ho => ?_⟩
  obtain ⟨u, hu, rfl⟩ := lookup_map.mp hi
  refine ⟨u, hu, ho, rfl, rfl, min_le_left _ _, fun x p h0 hx => ?_⟩
  have hle : u.live ≤ s.file.na.dataSize := (hw.each i u hu).live_size
  simp only [Window.cut, hsize] at hx
  exact hp x p h0 (by omega) (by omega)

theorem truncate_moves {size : ℤ} (hr : (s.truncate L size).1.ret = some 0) :
    Moves v.vol.clusterSize (s.proto v.vol) (.truncate size)
      ((s.truncate L size).2.proto v.vol) ∧ Placed v.vol (s.truncate L size).2 := by
  obtain ⟨hg, -, ht, hp⟩ := nkTruncate_spec hL hc hs.sound (Option.some.inj hr)
  exact ht.moves hs hw hg hp

/-- Every event the rule allows is a move of the protocol. -/
theorem Sys.step_moves {e : Event} (hr : Rule s e (s.step L v e).1) :
    Moves v.vol.clusterSize (s.proto v.vol) (moveOf L e (s.step L v e).1)
      ((s.step L v e).2.proto v.vol) ∧ Placed v.vol (s.step L v e).2 := by
  cases e with
  | mapRead o l b cb => exact mapRead_moves hL hc hs hw o l b cb
  | mapWrite o l b cb => exact mapWrite_moves hL hc hs hw o l b cb
  | land i a b d => exact land_moves hs hw hr
  | complete i => exact complete_moves hL hc hs hw hr
  | abort i => exact abort_moves hL hc hs hw hr
  | truncate size => exact truncate_moves hL hc hs hw hr

end Step

/-! ### Whole runs -/

/-- A system in order: its extents name the file's bytes and its windows are in
order. -/
structure Sys.Good (vol : NtfsVolume) (s : Sys σ) : Prop where
  placed : Placed vol s
  windows : WindowsOk (s.proto vol)

/-- A file with no window handed out yet. -/
theorem Sys.Good.fresh {f : NkFile σ} (hf : f.Sound vol) : (⟨f, [], []⟩ : Sys σ).Good vol :=
  ⟨⟨hf, rfl, fun _ _ _ h => by simp at h⟩, ⟨fun _ _ h => by simp [Sys.proto] at h,
    fun _ _ _ _ h => by simp [Sys.proto] at h⟩⟩

section Runs

variable {L : Libntfs σ} {v : NkVolume} (hL : L.Spec v.vol) (hc : 0 < v.vol.clusterSize)
  {s : Sys σ} (hs : s.Good v.vol)
include hL hc hs

/-- One event keeps the system in order. -/
theorem Sys.Good.step {e : Event} (hr : Rule s e (s.step L v e).1) :
    (s.step L v e).2.Good v.vol := by
  obtain ⟨hm, hp⟩ := Sys.step_moves hL hc hs.placed hs.windows hr
  exact ⟨hp, hs.windows.moves (hs.placed.sound.view_ok hc) hm hr.fair⟩

end Runs

end NtfsKit
