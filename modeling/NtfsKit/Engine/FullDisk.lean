import NtfsKit.Engine.Libntfs

/-! An engine on a volume without free clusters: it opens, writes and syncs, cuts and
grows a file within its last cluster, and fails whenever it would have to allocate.
It behaves as `Libntfs.Spec` asks, so the assumptions on the library can be met. -/

namespace NtfsKit

/-- Which byte of `[lo, hi)` of the attribute the runlist stores at byte `q` of the
volume. -/
def Runlist.logical (csize lo hi : ℤ) (rl : Runlist) (q : ℤ) : Option ℤ :=
  rl.elements.findSome? fun e =>
    let x := e.vcn * csize + (q - e.lcn * csize)
    if (0 ≤ e.lcn ∧ e.lcn * csize ≤ q ∧ q < e.lcn * csize + e.length * csize) ∧
      lo ≤ x ∧ x < hi then some x else none

/-- Every cluster below byte `stop` is allocated. -/
def Runlist.solid (csize : ℤ) (rl : Runlist) (stop : ℤ) : Bool :=
  rl.all (fun e => 0 ≤ e.lcn) && stop ≤ (rl.map (·.length)).sum * csize

variable {σ : Type}

/-- A write into allocated clusters, with the zeroing that precedes it. -/
def Ntfs.overwrite (csize pos count : ℤ) (buf : ℤ → UInt8) (s : Ntfs σ) : Ntfs σ :=
  { s with
    disk := fun q => match s.na.rl.logical csize pos (pos + count) q with
      | some x => buf (x - pos)
      | none => match s.na.rl.logical csize s.na.initializedSize pos q with
        | some _ => 0
        | none => s.disk q
    na := { s.na with
      initializedSize := max s.na.initializedSize (pos + count)
      recInitializedSize :=
        if s.na.initializedSize < pos + count then pos + count else s.na.recInitializedSize } }

/-- The same clusters, another size. -/
def Ntfs.resize (size : ℤ) (s : Ntfs σ) : Ntfs σ :=
  { s with na := { s.na with
      dataSize := size
      initializedSize := min s.na.recInitializedSize size
      recInitializedSize := min s.na.recInitializedSize size } }

/-- The engine. `sync` is what `ntfs_inode_sync` returns. -/
def fullDisk (csize sync : ℤ) : Libntfs Unit where
  pathnameToInode e := (true, e)
  attrOpen e := (true, e)
  attrForceNonResident s := (-1, s)
  attrTruncateSolid s _ := (-1, s)
  attrTruncate s size :=
    if s.na.nonResident ∧ 0 < size ∧ roundUp csize size = roundUp csize s.na.dataSize then
      (0, s.resize size)
    else (-1, s)
  attrMapWholeRunlist s := (0, s)
  attrPwrite s pos count buf :=
    if s.na.rl.solid csize (pos + count) then (count, s.overwrite csize pos count buf) else (-1, s)
  pwrite s pos count buf := (count, { s with disk := diskWrite s.disk pos count buf })
  attrLookup e := (true, e)
  inodeSync e := (sync, e)
  inodeClose e := (0, e)
  realloc e := (true, e)

/-! ### Where a byte of the volume belongs -/

section Logical

variable {csize : ℤ} {rl : Runlist}

/-- A byte of the volume belongs to one byte of the attribute at most. -/
theorem Runlist.Ok.logical_eq (hc : 0 < csize) (h : rl.Ok csize) {x q : ℤ}
    (hx : rl.phys csize x = some q) (lo hi : ℤ) :
    rl.logical csize lo hi q = if lo ≤ x ∧ x < hi then some x else none := by
  have hone : ∀ {y}, rl.logical csize lo hi q = some y →
      rl.phys csize y = some q ∧ lo ≤ y ∧ y < hi := fun {y} hy => by
    obtain ⟨e, he, heq⟩ := List.exists_of_findSome?_eq_some hy
    simp only at heq
    split_ifs at heq with hin
    obtain rfl := Option.some.inj heq
    refine ⟨?_, hin.2⟩
    rw [h.phys_eq hc (h.elements_eq ▸ he) (by omega) (by omega), RunlistElement.phys_eq_some]
    exact ⟨⟨hin.1.1, by omega, by omega⟩, by omega⟩
  cases hl : rl.logical csize lo hi q with
  | some y =>
    obtain ⟨hy, hr⟩ := hone hl
    rw [h.disjoint x y q hx hy, if_pos hr]
  | none =>
    obtain ⟨e, he, heq⟩ := Runlist.phys_mem hx
    have hnone := List.findSome?_eq_none_iff.mp hl e he
    obtain ⟨hin, hq⟩ := RunlistElement.phys_eq_some.mp heq
    rw [if_neg]
    intro hr
    simp only at hnone
    rw [if_pos (by omega)] at hnone
    cases hnone

/-- Contiguous runs without holes place every byte up to their end. -/
theorem Contiguous.cover (hc : 0 < csize) : ∀ {v : ℤ} {rl : List RunlistElement},
    Contiguous v rl → ∀ x, v * csize ≤ x → x < (v + (rl.map (·.length)).sum) * csize →
      ∃ e ∈ rl, e.vcn * csize ≤ x ∧ x < e.vcn * csize + e.length * csize
  | v, [], _, x, h1, h2 => by
    simp only [List.map_nil, List.sum_nil, add_zero] at h2
    omega
  | v, e :: rl, ⟨hv, _, _, h⟩, x, h1, h2 => by
    by_cases hx : x < e.vcn * csize + e.length * csize
    · exact ⟨e, List.mem_cons_self, hv ▸ h1, hx⟩
    · rw [List.map_cons, List.sum_cons, ← add_assoc] at h2
      obtain ⟨d, hd, hdx⟩ := Contiguous.cover hc h x (by rw [add_mul]; rw [hv] at hx; omega) h2
      exact ⟨d, List.mem_cons_of_mem _ hd, hdx⟩

theorem Runlist.Ok.phys_of_solid (hc : 0 < csize) (h : rl.Ok csize) {stop : ℤ}
    (hs : rl.solid csize stop = true) {x : ℤ} (h0 : 0 ≤ x) (hx : x < stop) :
    ∃ p, rl.phys csize x = some p := by
  simp only [Runlist.solid, Bool.and_eq_true, List.all_eq_true, decide_eq_true_eq] at hs
  obtain ⟨e, he, h1, h2⟩ := h.contiguous.cover hc x (by omega) (by rw [zero_add]; omega)
  exact ⟨_, by
    rw [h.phys_eq hc he h1 h2]
    exact RunlistElement.phys_eq_some.mpr ⟨⟨hs.1 e he, h1, h2⟩, rfl⟩⟩

end Logical

/-! ### The engine meets the interface -/

theorem Ntfs.overwrite_spec {vol : NtfsVolume} (hc : 0 < vol.clusterSize) {s : Ntfs σ}
    (hs : s.Wf vol) (hr : s.na.nonResident = true) {pos count : ℤ} (hp : 0 ≤ pos)
    (hn : 0 < count) (hb : pos + count ≤ s.na.dataSize)
    (hsol : s.na.rl.solid vol.clusterSize (pos + count) = true) (buf : ℤ → UInt8) :
    Written vol s pos count buf (s.overwrite vol.clusterSize pos count buf) := by
  have h0 := hs.init_nonneg
  have hle := hs.init_le
  refine ⟨⟨hs.rl_ok, ?_, ?_, fun h => ?_⟩, ⟨rfl, rfl, rfl⟩, rfl, rfl, rfl, fun x p h => h,
    fun x h1 h2 => hs.rl_ok.phys_of_solid hc hsol (by omega) h2, fun x => ?_⟩
  · simp only [Ntfs.overwrite]
    split_ifs <;> omega
  · simp only [Ntfs.overwrite]
    split_ifs <;> omega
  · rw [show (s.overwrite vol.clusterSize pos count buf).na.nonResident = s.na.nonResident from rfl,
      hr] at h
    cases h
  · cases hx : s.na.rl.phys vol.clusterSize x with
    | some q =>
      have hnew : (s.overwrite vol.clusterSize pos count buf).content vol x =
          (s.overwrite vol.clusterSize pos count buf).disk q := by
        simp only [Ntfs.content, Ntfs.phys]
        rw [show (s.overwrite vol.clusterSize pos count buf).na.rl = s.na.rl from rfl, hx]
      have hold : s.content vol x = s.disk q := by
        simp only [Ntfs.content, Ntfs.phys, hx]
      rw [hnew, hold]
      simp only [Ntfs.overwrite, hs.rl_ok.logical_eq hc hx]
      split_ifs <;> rfl
    | none =>
      -- a byte without a cluster is a zero and outside the written range
      have hz : (s.overwrite vol.clusterSize pos count buf).content vol x = 0 := by
        simp only [Ntfs.content, Ntfs.phys]
        rw [show (s.overwrite vol.clusterSize pos count buf).na.rl = s.na.rl from rfl, hx]
        simp only [show (s.overwrite vol.clusterSize pos count buf).na.nonResident =
          s.na.nonResident from rfl, hr, if_true]
      have hold : s.content vol x = 0 := by
        simp only [Ntfs.content, Ntfs.phys, hx, hr, if_true]
      rw [hz, hold, if_neg]
      · split_ifs <;> rfl
      · rintro ⟨h1, h2⟩
        obtain ⟨p, hp'⟩ := hs.rl_ok.phys_of_solid hc hsol (by omega) h2
        rw [hx] at hp'
        cases hp'

theorem Ntfs.resize_spec {vol : NtfsVolume} {s : Ntfs σ} (hs : s.Wf vol)
    (hr : s.na.nonResident = true) {size : ℤ} (h0 : 0 < size) :
    Truncated vol s size (s.resize size) := by
  have hi := hs.init_nonneg
  have hle := hs.init_le
  refine ⟨⟨hs.rl_ok, ?_, min_le_right _ _, fun h => ?_⟩, h0.le, rfl, le_rfl, fun _ => rfl,
    fun x h1 h2 => ?_, fun _ _ _ _ => rfl, fun _ _ _ _ _ => ⟨rfl, rfl⟩⟩
  · simp only [Ntfs.resize]
    omega
  · rw [show (s.resize size).na.nonResident = s.na.nonResident from rfl, hr] at h
    cases h
  · simp only [Ntfs.resize] at h2
    omega

theorem Runlist.Ok.single {csize lcn length : ℤ} (hlen : 0 < length) (hl : 0 ≤ lcn) :
    Runlist.Ok csize [⟨0, lcn, length⟩] := by
  have hhole : lcnHole ≤ lcn := le_trans (by decide) hl
  refine ⟨⟨rfl, hlen, hhole, trivial⟩, fun x y p hx hy => ?_⟩
  obtain ⟨e, he, hex⟩ := Runlist.phys_mem hx
  obtain ⟨d, hd, hdy⟩ := Runlist.phys_mem hy
  have hmem : ∀ a ∈ Runlist.elements [⟨0, lcn, length⟩], a = ⟨0, lcn, length⟩ := fun a ha =>
    List.mem_singleton.mp (List.takeWhile_subset _ ha)
  rw [hmem e he] at hex
  rw [hmem d hd] at hdy
  have h1 := (RunlistElement.phys_eq_some.mp hex).2
  have h2 := (RunlistElement.phys_eq_some.mp hdy).2
  omega

theorem fullDisk_spec {vol : NtfsVolume} (hc : 0 < vol.clusterSize) (sync : ℤ) :
    (fullDisk vol.clusterSize sync).Spec vol where
  attrPwrite_ok s pos count buf hs hr hp hn hb h := by
    simp only [fullDisk] at h ⊢
    split_ifs at h ⊢ with hsol
    · exact Ntfs.overwrite_spec hc hs hr hp hn hb hsol buf
    · omega
  attrPwrite_short s pos count buf hs hr hp hn hb h := by
    simp only [fullDisk] at h ⊢
    split_ifs at h ⊢ with hsol
    · exact absurd rfl h
    · exact ⟨hs, ⟨rfl, rfl, rfl⟩, rfl, rfl, rfl, fun _ _ h => h, fun _ => .inl rfl⟩
  pwrite_ok _ _ _ _ _ := ⟨rfl, rfl⟩
  pwrite_short _ _ _ _ h := absurd rfl h
  attrMapWholeRunlist _ := ⟨rfl, rfl⟩
  attrTruncateSolid_ok _ _ _ _ _ h := by simp [fullDisk] at h
  attrTruncateSolid_fail _ _ hs _ _ _ :=
    ⟨hs, ⟨rfl, rfl, rfl⟩, rfl, rfl, rfl, fun _ _ h => h, fun _ _ _ => rfl⟩
  attrForceNonResident_ok _ _ _ h := by simp [fullDisk] at h
  attrForceNonResident_fail _ _ _ _ := rfl
  attrTruncate_ok s size hs h := by
    simp only [fullDisk] at h ⊢
    split_ifs at h ⊢ with hcond
    · exact Ntfs.resize_spec hs hcond.1 hcond.2.1
    · exact absurd (show (-1 : ℤ) = 0 from h) (by decide)

end NtfsKit
