import NtfsKit.Format.Mkntfs

/-! A second format in one process. Of all the globals a run reads before it sets them, only the
cluster number of the MFT survives the cleanup: the first run that places an MFT decides where
every later one puts it. A volume with clusters of 4096 bytes has its MFT at cluster 4, one with
larger clusters at cluster 2, where the other has the bitmap of its MFT. -/

namespace NtfsKit

open Prog

variable {M : ℕ} {c : FormatCall} {g : Globals}

theorem wp_demand {site : Site} {Q : Unit → Globals → Prop} {X : Unit → Globals → Prop}
    (hok : c.fails site = false → Q () g) (hno : c.fails site = true → X () g) :
    wp (demand c site) Q X g := by
  unfold demand
  cases h : c.fails site with
  | false => exact hok h
  | true => exact hno h

theorem wp_require {p : Prop} [Decidable p] {Q : Unit → Globals → Prop}
    {X : Unit → Globals → Prop} (hok : p → Q () g) (hno : ¬ p → X () g) :
    wp (require p) Q X g :=
  wp_ite (fun h => hok h) fun h => hno h

theorem wp_bitmapAllocate {nodeOk ok : Bool} {lcn length : ℕ} {l : List ClusterRun}
    {Q : Bool → Globals → Prop} {X : Unit → Globals → Prop}
    (h : allocateIn nodeOk lcn length g.allocation = (ok, l))
    (hQ : Q ok { g with allocation := l }) : wp (bitmapAllocate nodeOk lcn length) Q X g := by
  rw [bitmapAllocate, wp_call, h]
  exact hQ

/-- None of these fails. -/
def FormatCall.Gets (c : FormatCall) (sites : List Site) : Prop := ∀ s ∈ sites, c.fails s = false

/-! ### The geometry -/

def FormatCall.volumeSize (c : FormatCall) : ℕ := (c.size / 512 - 1) * 512

/-- The device has a size that can be formatted, with clusters of `clusterSize` bytes. -/
structure FormatCall.Sized (M : ℕ) (c : FormatCall) (clusterSize : ℕ) : Prop where
  size : 2 ^ 20 ≤ c.volumeSize
  grow : growCluster M c.volumeSize 20 4096 = some clusterSize
  sectors : clusterSize ≤ 4096 * 512
  le_max : clusterSize ≤ M

/-- The loop stops at the first power of two that is large enough. -/
theorem growCluster_spec {volumeSize cs : ℕ} : ∀ {fuel k : ℕ}, k + fuel ≤ 32 →
    growCluster M volumeSize fuel (2 ^ k) = some cs →
    ∃ e, k ≤ e ∧ cs = 2 ^ e ∧ e < 32 ∧ volumeSize < 2 ^ (e + 32) ∧
      (k < e → 2 ^ (e + 31) ≤ volumeSize)
  | 0, _, _, h => by cases h
  | fuel + 1, k, hk, h => by
    have hshift : volumeSize >>> (ffs (2 ^ k) - 1 + 32) ≠ 0 ↔ 2 ^ (k + 32) ≤ volumeSize := by
      rw [ffs_two_pow (by omega), Nat.add_sub_cancel, Nat.shiftRight_eq_div_pow, Ne,
        Nat.div_eq_zero_iff_lt (by positivity), not_lt]
    unfold growCluster at h
    split_ifs at h with h1 h2
    · rw [← pow_succ] at h
      obtain ⟨e, he, hcs, hlt, hub, hlb⟩ := growCluster_spec (by omega) h
      refine ⟨e, by omega, hcs, hlt, hub, fun _ => ?_⟩
      rcases Nat.eq_or_lt_of_le he with rfl | he
      · exact hshift.mp h1
      · exact hlb he
    · refine ⟨k, le_rfl, (Option.some.inj h).symm, by omega, ?_, fun hlt => absurd hlt (lt_irrefl k)⟩
      exact not_le.mp (mt hshift.mpr h1)

/-- A cluster size is 4096, or more on a volume of 16 TiB or more. -/
structure Cluster (volumeSize cs : ℕ) : Prop where
  pow : ∃ e, cs = 2 ^ e ∧ e < 32
  nr : volumeSize / cs < 2 ^ 32
  small : volumeSize < 2 ^ 44 → cs = 4096
  large : 2 ^ 44 ≤ volumeSize → 8192 ≤ cs ∧ 2 ^ 31 * cs ≤ volumeSize

theorem FormatCall.Sized.cluster {cs : ℕ} (h : c.Sized M cs) : Cluster c.volumeSize cs := by
  obtain ⟨e, he, rfl, hlt, hub, hlb⟩ := growCluster_spec (k := 12) (by decide) h.grow
  refine ⟨⟨e, rfl, hlt⟩, ?_, fun hv => ?_, fun hv => ?_⟩
  · rw [Nat.div_lt_iff_lt_mul (by positivity), ← pow_add, Nat.add_comm]
    exact hub
  · rcases Nat.eq_or_lt_of_le he with rfl | he
    · rfl
    · have : 2 ^ 44 ≤ 2 ^ (e + 31) := Nat.pow_le_pow_right (by decide) (by omega)
      have := hlb he
      omega
  · rcases Nat.eq_or_lt_of_le he with rfl | he
    · omega
    · have h13 : 2 ^ 13 ≤ 2 ^ e := Nat.pow_le_pow_right (by decide) he
      exact ⟨h13, by rw [← pow_add, Nat.add_comm]; exact hlb he⟩

/-! ### The list of allocated clusters -/

section Allocate

variable {nodeOk : Bool} {lcn length : ℕ} {front back : List ClusterRun} {q : ClusterRun}

theorem takeWhile_split (hfront : ∀ r ∈ front, r.lcn ≤ lcn) (hback : ∀ r ∈ back, lcn < r.lcn) :
    (front ++ back).takeWhile (·.lcn ≤ lcn) = front ∧
      (front ++ back).dropWhile (·.lcn ≤ lcn) = back := by
  have hpos : ∀ r ∈ front, (fun r : ClusterRun => decide (r.lcn ≤ lcn)) r = true := fun r hr =>
    decide_eq_true (hfront r hr)
  have hneg : back.takeWhile (·.lcn ≤ lcn) = [] ∧ back.dropWhile (·.lcn ≤ lcn) = back := by
    cases back with
    | nil => exact ⟨rfl, rfl⟩
    | cons r rs =>
      have hr := hback r List.mem_cons_self
      simp [not_le.mpr hr]
  rw [List.takeWhile_append_of_pos hpos, List.dropWhile_append_of_pos hpos, hneg.1, hneg.2]
  exact ⟨List.append_nil front, rfl⟩

/-- A run between others, with a gap in front of it. -/
theorem allocateIn_between (hlen : 0 < length)
    (hfront : ∀ r ∈ front, r.lcn ≤ lcn ∧ r.stop < lcn)
    (hback : ∀ r ∈ back, lcn + length ≤ r.lcn) :
    allocateIn nodeOk lcn length (front ++ back) =
      (nodeOk, if nodeOk then front ++ ⟨lcn, length⟩ :: back else front ++ back) := by
  obtain ⟨htake, hdrop⟩ := takeWhile_split (fun r hr => (hfront r hr).1)
    fun r hr => (by have := hback r hr; omega : lcn < r.lcn)
  have hq : ∀ r ∈ front.getLast?, ¬ lcn < r.stop ∧ r.stop ≠ lcn := fun r hr => by
    have := (hfront r (List.mem_of_getLast? hr)).2
    omega
  have hp : back.head?.any (·.lcn < lcn + length) = false := by
    cases back with
    | nil => rfl
    | cons r rs =>
      have := hback r List.mem_cons_self
      simp [this]
  unfold allocateIn
  simp only [htake, hdrop, hp, Bool.or_false]
  rw [if_neg (by omega)]
  cases hlast : front.getLast? with
  | none => cases nodeOk <;> simp
  | some r =>
    obtain ⟨h1, h2⟩ := hq r hlast
    cases nodeOk <;> simp [h1, h2]

/-- A run right behind another one extends it. -/
theorem allocateIn_extend (hlen : 0 < length) (hfront : ∀ r ∈ front, r.lcn ≤ lcn)
    (hq : q.stop = lcn) (hback : ∀ r ∈ back, lcn + length ≤ r.lcn) :
    allocateIn nodeOk lcn length (front ++ q :: back) =
      (true, front ++ ⟨q.lcn, q.length + length⟩ :: back) := by
  have hqle : q.lcn ≤ lcn := hq ▸ Nat.le_add_right _ _
  have hall : ∀ r ∈ front ++ [q], r.lcn ≤ lcn := fun r hr => by
    rcases List.mem_append.mp hr with h | h
    · exact hfront r h
    · rw [List.mem_singleton.mp h]
      exact hqle
  obtain ⟨htake, hdrop⟩ := takeWhile_split hall
    fun r hr => (by have := hback r hr; omega : lcn < r.lcn)
  rw [List.append_assoc, List.singleton_append] at htake hdrop
  have hp : back.head?.any (·.lcn < lcn + length) = false := by
    cases back with
    | nil => rfl
    | cons r rs =>
      have := hback r List.mem_cons_self
      simp [this]
  unfold allocateIn
  simp only [htake, hdrop, hp, Bool.or_false]
  rw [if_neg (by omega)]
  simp [hq]

end Allocate

/-! ### The stages before the MFT -/

/-- The clusters of `$Boot`. -/
def bootClusters (cs : ℕ) : ℕ := (8192 + cs - 1) / cs

/-- The bits of `$Bitmap` behind the end of the volume. -/
def tailLength (nr : ℕ) : ℕ := ((nr + 7) / 8 + 7) / 8 * 8 * 8 - nr

def tailRuns (nr : ℕ) : List ClusterRun :=
  if tailLength nr = 0 then [] else [⟨nr, tailLength nr⟩]

def FormatCall.nrClusters (c : FormatCall) (cs : ℕ) : ℕ := c.volumeSize / cs

/-- The call gets to place its MFT, with clusters of `cs` bytes: the device has the size for it,
and everything before that succeeds. -/
structure FormatCall.Reaches (M : ℕ) (c : FormatCall) (cs : ℕ) : Prop where
  sized : c.Sized M cs
  gets : c.Gets [.devctx, .device, .volume, .volName, .upcase, .attrdef, .openPartition,
    .dynamicBuf, .mftBitmap, .rlMftBmp, .bmpNode]
  tail : tailLength (c.nrClusters cs) ≠ 0 → c.fails .tailNode = false

/-- The globals when the MFT is about to be placed. -/
def Globals.ready (c : FormatCall) (cs : ℕ) (g : Globals) : Globals :=
  { g with
    sectorSize := 512
    numSectors := c.size / 512 - 1
    vol := ⟨cs, ffs cs - 1, c.nrClusters cs, 1024, 4096⟩
    lcnBitmapByteSize := ((c.nrClusters cs + 7) / 8 + 7) / 8 * 8
    mftSize := max (27 * 1024) cs
    mftBitmapByteSize := ((max (27 * 1024) cs / 1024 + 7) / 8 + 7) / 8 * 8
    rlMftBmp := some ⟨bootClusters cs, 1⟩
    allocation := ⟨bootClusters cs, 1⟩ :: tailRuns (c.nrClusters cs) }

theorem bootClusters_eq {cs : ℕ} (h : Cluster c.volumeSize cs) :
    bootClusters cs = if c.volumeSize < 2 ^ 44 then 2 else 1 := by
  split_ifs with hv
  · rw [h.small hv]
    rfl
  · have hcs := (h.large (by omega)).1
    unfold bootClusters
    rw [Nat.div_eq_iff (by omega)]
    omega

/-- The volume has more clusters than the first files take. -/
theorem FormatCall.Sized.nr_gt {cs : ℕ} (h : c.Sized M cs) :
    256 ≤ c.nrClusters cs ∧ 128 ≤ c.volumeSize / 2 / cs ∧
      c.volumeSize / 2 / cs + 64 ≤ c.nrClusters cs := by
  have hcl := h.cluster
  have hsize := h.size
  unfold FormatCall.nrClusters
  by_cases hv : c.volumeSize < 2 ^ 44
  · rw [hcl.small hv]
    omega
  · obtain ⟨hcs, hlarge⟩ := hcl.large (by omega)
    have hpos : 0 < cs := by omega
    have h1 : 2 ^ 31 ≤ c.volumeSize / cs := by
      rw [Nat.le_div_iff_mul_le hpos]
      exact hlarge
    have h2 : c.volumeSize / 2 / cs = c.volumeSize / cs / 2 := by
      rw [Nat.div_div_eq_div_mul, Nat.div_div_eq_div_mul, Nat.mul_comm]
    omega

theorem createVolume_wp : wp (createVolume c)
    (fun _ t => t = g ∧ c.Gets [.volume, .volName, .upcase, .attrdef, .openPartition])
    (fun _ t => t = g ∧ ¬ c.Gets [.volume, .volName, .upcase, .attrdef, .openPartition]) g := by
  have hno : ∀ {s}, s ∈ [Site.volume, .volName, .upcase, .attrdef, .openPartition] →
      c.fails s = true → ¬ c.Gets [.volume, .volName, .upcase, .attrdef, .openPartition] :=
    fun hs hf h => by simp [h _ hs] at hf
  unfold createVolume
  refine wp_bind.mpr (wp_demand (fun h1 => ?_) fun h => ⟨rfl, hno (by decide) h⟩)
  refine wp_bind.mpr (wp_demand (fun h2 => ?_) fun h => ⟨rfl, hno (by decide) h⟩)
  refine wp_bind.mpr (wp_demand (fun h3 => ?_) fun h => ⟨rfl, hno (by decide) h⟩)
  refine wp_bind.mpr (wp_demand (fun h4 => ?_) fun h => ⟨rfl, hno (by decide) h⟩)
  refine wp_demand (fun h5 => ⟨rfl, ?_⟩) fun h => ⟨rfl, hno (by decide) h⟩
  simp [FormatCall.Gets, h1, h2, h3, h4, h5]

theorem overrideVolParams_wp : wp (overrideVolParams M c)
    (fun _ t => ∃ cs, c.Sized M cs ∧ t = { g with
      sectorSize := 512
      numSectors := c.size / 512 - 1
      vol := ⟨cs, ffs cs - 1, c.nrClusters cs, 1024, 4096⟩ })
    (fun _ t => (∀ cs, ¬ c.Sized M cs) ∧ t.mftLcn = g.mftLcn) g := by
  unfold overrideVolParams
  refine wp_bind.mpr (wp_require (fun h1 => ?_) fun h1 => ⟨fun cs h => ?_, rfl⟩)
  · refine wp_bind.mpr (wp_modify.mpr ?_)
    refine wp_bind.mpr (wp_require (fun h2 => ?_) fun h2 => ⟨fun cs h => h2 h.size, rfl⟩)
    rw [show max 4096 512 = 4096 by rfl]
    have hvol : (c.size / 512 - 1) * 512 = c.volumeSize := rfl
    rw [hvol] at h2 ⊢
    cases hgrow : growCluster M c.volumeSize 20 4096 with
    | none =>
      refine ⟨fun cs h => ?_, rfl⟩
      have := h.grow
      rw [hgrow] at this
      cases this
    | some cs =>
      have hone : ∀ cs', c.Sized M cs' → cs' = cs := fun cs' h =>
        Option.some.inj (h.grow.symm.trans hgrow)
      obtain ⟨e, he, hpow, -, hub, -⟩ := growCluster_spec (k := 12) (by decide) hgrow
      have hnr : c.volumeSize / cs / 2 ^ 32 = 0 := by
        rw [hpow]
        refine Nat.div_eq_of_lt ?_
        rw [Nat.div_lt_iff_lt_mul (by positivity), ← pow_add, Nat.add_comm]
        exact hub
      have hge : 2 ^ 12 ≤ cs := hpow ▸ Nat.pow_le_pow_right (by decide) he
      refine wp_bind.mpr (wp_require (fun _ => ?_) fun h => absurd ?_ h)
      · refine wp_bind.mpr (wp_require (fun _ => ?_) fun h => absurd (by omega) h)
        refine wp_bind.mpr (wp_require (fun h3 => ?_) fun h3 => ⟨fun cs' h => ?_, rfl⟩)
        · refine wp_bind.mpr (wp_require (fun h4 => ?_) fun h4 => ⟨fun cs' h => ?_, rfl⟩)
          · refine wp_bind.mpr (wp_require (fun _ => ?_) fun h => absurd hnr h)
            exact wp_modify.mpr ⟨cs, ⟨h2, hgrow, h3, h4⟩, rfl⟩
          · exact h4 (hone cs' h ▸ h.le_max)
        · exact h3 (hone cs' h ▸ h.sectors)
      · rw [hpow, Nat.and_two_pow_sub_one_eq_mod, Nat.mod_self]
  · have := h.size
    unfold FormatCall.volumeSize at this
    omega

theorem tailRuns_allocate {nodeOk : Bool} {nr : ℕ} (h : tailLength nr ≠ 0 → nodeOk = true) :
    allocateIn nodeOk nr (tailLength nr) [] = (true, tailRuns nr) := by
  unfold tailRuns
  by_cases h0 : tailLength nr = 0
  · simp [allocateIn, h0]
  · have hnew : allocateIn nodeOk nr (tailLength nr) ([] ++ []) = _ :=
      allocateIn_between (Nat.pos_of_ne_zero h0) (by simp) (by simp)
    rw [if_neg h0, ← List.append_nil ([] : List ClusterRun), hnew, h h0]
    rfl

theorem tailRuns_refuse {nr : ℕ} (h : tailLength nr ≠ 0) :
    allocateIn false nr (tailLength nr) [] = (false, []) := by
  simp [allocateIn, h]

theorem tailRuns_ge {nr : ℕ} : ∀ r ∈ tailRuns nr, nr ≤ r.lcn := fun r hr => by
  unfold tailRuns at hr
  split_ifs at hr
  · simp at hr
  · rw [List.mem_singleton.mp hr]

theorem initializeBitmaps_wp {cs : ℕ} (hsz : c.Sized M cs)
    (hvol : g.vol = ⟨cs, ffs cs - 1, c.nrClusters cs, 1024, 4096⟩) (halloc : g.allocation = []) :
    wp (initializeBitmaps c)
      (fun _ t => t = { g with
          lcnBitmapByteSize := ((c.nrClusters cs + 7) / 8 + 7) / 8 * 8
          mftSize := max (27 * 1024) cs
          mftBitmapByteSize := ((max (27 * 1024) cs / 1024 + 7) / 8 + 7) / 8 * 8
          rlMftBmp := some ⟨bootClusters cs, 1⟩
          allocation := ⟨bootClusters cs, 1⟩ :: tailRuns (c.nrClusters cs) } ∧
        c.Gets [.dynamicBuf, .mftBitmap, .rlMftBmp, .bmpNode] ∧
        (tailLength (c.nrClusters cs) ≠ 0 → c.fails .tailNode = false))
      (fun _ t => ¬ (c.Gets [.dynamicBuf, .mftBitmap, .rlMftBmp, .bmpNode] ∧
        (tailLength (c.nrClusters cs) ≠ 0 → c.fails .tailNode = false)) ∧
        t.mftLcn = g.mftLcn) g := by
  have hno : ∀ {s}, s ∈ [Site.dynamicBuf, .mftBitmap, .rlMftBmp, .bmpNode] → c.fails s = true →
      ¬ (c.Gets [.dynamicBuf, .mftBitmap, .rlMftBmp, .bmpNode] ∧
        (tailLength (c.nrClusters cs) ≠ 0 → c.fails .tailNode = false)) :=
    fun hs hf h => by simp [h.1 _ hs] at hf
  have hnr := hsz.nr_gt.1
  have hboot : bootClusters cs + 1 ≤ c.nrClusters cs := by
    have := bootClusters_eq hsz.cluster
    split_ifs at this <;> omega
  have hbmp : allocateIn (!c.fails .bmpNode) (bootClusters cs) 1 ([] ++ tailRuns (c.nrClusters cs)) =
      _ := allocateIn_between (by decide) (by simp) fun r hr => hboot.trans (tailRuns_ge r hr)
  obtain ⟨sectorSize, numSectors, vol, mftBitmapByteSize, lcnBitmapByteSize, rlMft, rlMftBmp,
    rlMftmirr, rlLogfile, rlBoot, rlBad, mftSize, mftLcn, mftmirrLcn, logfileLcn, logfileSize,
    mftZoneEnd, numBadBlocks, allocation⟩ := g
  obtain rfl : vol = _ := hvol
  obtain rfl : allocation = _ := halloc
  unfold initializeBitmaps
  refine wp_bind.mpr (wp_read.mpr (wp_bind.mpr (wp_modify.mpr ?_)))
  refine wp_bind.mpr (wp_demand (fun h1 => ?_) fun h => ⟨hno (by decide) h, rfl⟩)
  by_cases htl : tailLength (c.nrClusters cs) ≠ 0 → c.fails .tailNode = false
  · refine wp_bind.mpr (wp_bitmapAllocate (tailRuns_allocate fun h0 => by simp [htl h0])
      (wp_bind.mpr (wp_require (fun _ => ?_) fun h => absurd rfl h)))
    refine wp_bind.mpr (wp_modify.mpr ?_)
    refine wp_bind.mpr (wp_demand (fun h2 => ?_) fun h => ⟨hno (by decide) h, rfl⟩)
    refine wp_bind.mpr (wp_demand (fun h3 => ?_) fun h => ⟨hno (by decide) h, rfl⟩)
    refine wp_bind.mpr (wp_modify.mpr ?_)
    cases h4 : c.fails .bmpNode with
    | false =>
      rw [h4] at hbmp
      refine wp_bind.mpr (wp_bitmapAllocate hbmp (wp_require (fun _ => ?_) fun h => absurd rfl h))
      exact ⟨rfl, by simp [FormatCall.Gets, h1, h2, h3, h4], htl⟩
    | true =>
      rw [h4] at hbmp
      exact wp_bind.mpr (wp_bitmapAllocate hbmp (wp_require (fun h => by cases h)
        fun _ => ⟨hno (s := .bmpNode) (by decide) h4, rfl⟩))
  · have h0 : tailLength (c.nrClusters cs) ≠ 0 ∧ c.fails .tailNode = true := by
      simpa using htl
    rw [h0.2]
    exact wp_bind.mpr (wp_bitmapAllocate (tailRuns_refuse h0.1)
      (wp_bind.mpr (wp_require (fun h => by cases h)
        fun _ => ⟨fun h => absurd (h.2 h0.1) (by decide), rfl⟩)))

/-- A call that gets the memory for it stands before its MFT with everything set anew but the
cluster number of the last one. -/
theorem beforeMft_wp (hdev : c.Gets [.devctx, .device]) (halloc : g.allocation = []) :
    wp (beforeMft M c) (fun _ t => ∃ cs, c.Reaches M cs ∧ t = g.ready c cs)
      (fun _ t => (∀ cs, ¬ c.Reaches M cs) ∧ t.mftLcn = g.mftLcn) g := by
  unfold beforeMft
  refine wp_bind.mpr (wp_mono createVolume_wp ?_ ?_)
  · rintro - t ⟨rfl, hvol⟩
    refine wp_bind.mpr (wp_mono overrideVolParams_wp ?_ ?_)
    · rintro - u ⟨cs, hsz, rfl⟩
      refine wp_mono (initializeBitmaps_wp hsz rfl halloc) ?_ ?_
      · rintro - w ⟨rfl, hgets, htail⟩
        refine ⟨cs, ⟨hsz, ?_, htail⟩, rfl⟩
        simp only [FormatCall.Gets, List.forall_mem_cons] at hdev hvol hgets ⊢
        tauto
      · rintro - w ⟨hno, hlcn⟩
        refine ⟨fun cs' h => hno ?_, hlcn⟩
        obtain rfl : cs' = cs := Option.some.inj (h.sized.grow.symm.trans hsz.grow)
        refine ⟨?_, h.tail⟩
        have hg := h.gets
        simp only [FormatCall.Gets, List.forall_mem_cons] at hg ⊢
        tauto
    · rintro - u ⟨hno, hlcn⟩
      exact ⟨fun cs h => hno cs h.sized, hlcn⟩
  · rintro - t ⟨rfl, hno⟩
    refine ⟨fun cs h => hno ?_, rfl⟩
    have hg := h.gets
    simp only [FormatCall.Gets, List.forall_mem_cons] at hg ⊢
    tauto

/-! ### Placing the MFT -/

/-- Where a new process puts the MFT. -/
def mftStart (cs : ℕ) : ℕ :=
  if (bootClusters cs + 1) * cs < 16 * 1024 then (16 * 1024 + cs - 1) / cs else bootClusters cs + 1

/-- Where a process puts it that has `lcn` from an earlier run. -/
def mftPlace (cs lcn : ℕ) : ℕ := if lcn = 0 then mftStart cs else lcn

def mftClusters (cs : ℕ) : ℕ := (max (27 * 1024) cs + cs - 1) / cs

def mirrClusters (cs : ℕ) : ℕ := (4 * 1024 + cs - 1) / cs

def FormatCall.mirrLcn (c : FormatCall) (cs : ℕ) : ℕ := c.volumeSize / 2 / cs

theorem FormatCall.Sized.mft {cs : ℕ} (h : c.Sized M cs) :
    mftStart cs = (if c.volumeSize < 2 ^ 44 then 4 else 2) ∧ 0 < mftClusters cs ∧
      mftClusters cs ≤ 7 ∧ mirrClusters cs = 1 := by
  have hboot := bootClusters_eq h.cluster
  split_ifs at hboot ⊢ with hv
  · rw [h.cluster.small hv]
    exact ⟨rfl, by decide, by decide, rfl⟩
  · have hcs := (h.cluster.large (by omega)).1
    refine ⟨?_, ?_, ?_, ?_⟩
    · rw [mftStart, hboot, if_neg (by omega)]
    · exact Nat.div_pos (by omega) (by omega)
    · refine Nat.le_of_lt_succ ((Nat.div_lt_iff_lt_mul (by omega)).mpr ?_)
      rcases max_cases (27 * 1024) cs with ⟨hm, -⟩ | ⟨hm, -⟩ <;> rw [hm] <;> omega
    · rw [mirrClusters, Nat.div_eq_iff (by omega)]
      omega

/-- The list of clusters with the MFT in it: short runs in front, then the bits behind the end
of the volume. -/
theorem allocate_mft {cs lcn : ℕ} {nodeOk : Bool} (h : c.Sized M cs) (hlo : 2 ≤ lcn)
    (hhi : lcn ≤ 4) : ∃ front, (allocateIn nodeOk lcn (mftClusters cs)
        (⟨bootClusters cs, 1⟩ :: tailRuns (c.nrClusters cs))).2 =
          front ++ tailRuns (c.nrClusters cs) ∧
      ∀ r ∈ front, bootClusters cs ≤ r.lcn ∧ r.stop ≤ 11 := by
  obtain ⟨-, hpos, hle, -⟩ := h.mft
  have hboot : 1 ≤ bootClusters cs ∧ bootClusters cs ≤ 2 := by
    have := bootClusters_eq h.cluster
    split_ifs at this <;> omega
  have hnr := h.nr_gt.1
  have hback : ∀ r ∈ tailRuns (c.nrClusters cs), lcn + mftClusters cs ≤ r.lcn := fun r hr =>
    le_trans (by omega) (tailRuns_ge r hr)
  rcases lt_trichotomy (bootClusters cs + 1) lcn with hlt | heq | hgt
  · have hnew : allocateIn nodeOk lcn (mftClusters cs)
        ([⟨bootClusters cs, 1⟩] ++ tailRuns (c.nrClusters cs)) = _ :=
      allocateIn_between hpos (fun r hr => by
        rw [List.mem_singleton.mp hr]
        simp only [ClusterRun.stop]
        omega) hback
    rw [← List.singleton_append, hnew]
    cases nodeOk with
    | false =>
      refine ⟨[⟨bootClusters cs, 1⟩], rfl, fun r hr => ?_⟩
      rw [List.mem_singleton.mp hr]
      exact ⟨le_rfl, by simp only [ClusterRun.stop]; omega⟩
    | true =>
      refine ⟨[⟨bootClusters cs, 1⟩, ⟨lcn, mftClusters cs⟩], rfl, fun r hr => ?_⟩
      rcases List.mem_pair.mp hr with rfl | rfl
      · exact ⟨le_rfl, by simp only [ClusterRun.stop]; omega⟩
      · simp only [ClusterRun.stop]
        omega
  · have hnew : allocateIn nodeOk lcn (mftClusters cs)
        ([] ++ ⟨bootClusters cs, 1⟩ :: tailRuns (c.nrClusters cs)) = _ :=
      allocateIn_extend hpos (by simp) heq hback
    rw [← List.nil_append (_ :: _), hnew]
    refine ⟨[⟨bootClusters cs, 1 + mftClusters cs⟩], rfl, fun r hr => ?_⟩
    rw [List.mem_singleton.mp hr]
    exact ⟨le_rfl, by simp only [ClusterRun.stop]; omega⟩
  · -- the MFT on top of its own bitmap
    obtain ⟨hb, hl⟩ : bootClusters cs = 2 ∧ lcn = 2 := by omega
    rw [hb, hl] at *
    obtain ⟨htake, hdrop⟩ := @takeWhile_split 2 [⟨2, 1⟩] (tailRuns (c.nrClusters cs))
      (by simp) fun r hr => (by have := hback r hr; omega : 2 < r.lcn)
    have hstop : ClusterRun.stop ⟨2, 1⟩ ≠ 2 := by decide
    refine ⟨if nodeOk then [⟨2, 1⟩, ⟨2, mftClusters cs⟩] else [⟨2, 1⟩], ?_, fun r hr => ?_⟩
    · rw [List.singleton_append] at htake hdrop
      unfold allocateIn
      simp only [htake, hdrop]
      rw [if_neg (by omega)]
      cases nodeOk <;> simp [hstop]
    · have hmem : r = ⟨2, 1⟩ ∨ r = ⟨2, mftClusters cs⟩ := by
        cases nodeOk with
        | false => exact Or.inl (List.mem_singleton.mp hr)
        | true => exact List.mem_pair.mp hr
      rcases hmem with rfl | rfl
      · exact ⟨le_rfl, by decide⟩
      · simp only [ClusterRun.stop]
        omega

/-- The list of allocated clusters once the MFT is in it. -/
def FormatCall.withMft (c : FormatCall) (cs lcn : ℕ) : List ClusterRun :=
  (allocateIn (!c.fails .mftNode) lcn (mftClusters cs)
    (⟨bootClusters cs, 1⟩ :: tailRuns (c.nrClusters cs))).2

/-- The globals when the MFT and its mirror are placed. -/
def Globals.placed (c : FormatCall) (cs lcn : ℕ) (l : List ClusterRun) (g : Globals) : Globals :=
  { g.ready c cs with
    mftLcn := lcn
    mftZoneEnd := c.nrClusters cs / 8 + lcn
    rlMft := some ⟨lcn, mftClusters cs⟩
    mftmirrLcn := c.mirrLcn cs
    rlMftmirr := some ⟨c.mirrLcn cs, mirrClusters cs⟩
    logfileLcn := c.mirrLcn cs + mirrClusters cs
    allocation := l }

theorem allocate_mirr {cs lcn : ℕ} {nodeOk : Bool} {front : List ClusterRun} (h : c.Sized M cs)
    (hl : c.withMft cs lcn = front ++ tailRuns (c.nrClusters cs))
    (hfront : ∀ r ∈ front, bootClusters cs ≤ r.lcn ∧ r.stop ≤ 11) :
    allocateIn nodeOk (c.mirrLcn cs) (mirrClusters cs) (c.withMft cs lcn) =
      (nodeOk, if nodeOk then front ++ ⟨c.mirrLcn cs, mirrClusters cs⟩ :: tailRuns (c.nrClusters cs)
        else front ++ tailRuns (c.nrClusters cs)) := by
  obtain ⟨-, hmid, hend⟩ := h.nr_gt
  obtain ⟨-, -, -, hmirr⟩ := h.mft
  have hlcn : c.mirrLcn cs = c.volumeSize / 2 / cs := rfl
  rw [hl]
  refine allocateIn_between (by omega) (fun r hr => ?_) fun r hr => ?_
  · have := (hfront r hr).2
    have hstop : r.lcn ≤ r.stop := Nat.le_add_right _ _
    omega
  · exact le_trans (by omega) (tailRuns_ge r hr)

/-- The MFT goes where the process has it from an earlier run. -/
theorem initializeRlMft_wp {cs : ℕ} {front : List ClusterRun} (h : c.Sized M cs)
    (hl : c.withMft cs (mftPlace cs g.mftLcn) = front ++ tailRuns (c.nrClusters cs))
    (hfront : ∀ r ∈ front, bootClusters cs ≤ r.lcn ∧ r.stop ≤ 11) :
    wp (initializeRlMft c)
      (fun _ t => c.Gets [.rlMft, .rlMftmirr, .mirrNode] ∧
        t = g.placed c cs (mftPlace cs g.mftLcn)
          (front ++ ⟨c.mirrLcn cs, mirrClusters cs⟩ :: tailRuns (c.nrClusters cs)))
      (fun _ t => ¬ c.Gets [.rlMft, .rlMftmirr, .mirrNode] ∧ t.mftLcn = mftPlace cs g.mftLcn)
      (g.ready c cs) := by
  have hno : ∀ {s}, s ∈ [Site.rlMft, .rlMftmirr, .mirrNode] → c.fails s = true →
      ¬ c.Gets [.rlMft, .rlMftmirr, .mirrNode] := fun hs hf h => by simp [h _ hs] at hf
  have hmirr := @allocate_mirr M c cs _ (!c.fails .mirrNode) front h hl hfront
  have hchoose : chooseMftLcn (g.ready c cs) =
      { g.ready c cs with mftLcn := mftPlace cs g.mftLcn } := by
    have hlcn : (g.ready c cs).mftLcn = g.mftLcn := rfl
    unfold chooseMftLcn mftPlace
    rw [hlcn]
    split_ifs <;> rfl
  unfold initializeRlMft
  rw [wp_bind, wp_modify, hchoose]
  simp only [Globals.ready]
  rw [wp_bind, wp_read]
  dsimp only
  refine wp_bind.mpr (wp_modify.mpr ?_)
  refine wp_bind.mpr (wp_demand (fun h1 => ?_) fun h => ⟨hno (by decide) h, rfl⟩)
  refine wp_bind.mpr (wp_modify.mpr (wp_bind.mpr (wp_bitmapAllocate (Prod.eta _).symm ?_)))
  refine wp_bind.mpr (wp_modify.mpr ?_)
  refine wp_bind.mpr (wp_demand (fun h2 => ?_) fun h => ⟨hno (by decide) h, rfl⟩)
  refine wp_bind.mpr (wp_modify.mpr (wp_bind.mpr (wp_bitmapAllocate hmirr ?_)))
  refine wp_bind.mpr (wp_modify.mpr ?_)
  dsimp only
  refine wp_require (fun h3 => ?_) fun h3 => ⟨?_, rfl⟩
  · rw [if_pos h3]
    refine ⟨?_, rfl⟩
    rw [Bool.not_eq_true'] at h3
    simp [FormatCall.Gets, h1, h2, h3]
  · exact hno (s := .mirrNode) (by decide) (by simpa using h3)

/-! ### The stages after the MFT -/

theorem logfileSizeFor_lt {volumeSize cs : ℕ} : logfileSizeFor volumeSize cs < 2 ^ 32 := by
  have hle := Nat.div_mul_le_self (volumeSize / 200) cs
  unfold logfileSizeFor
  split_ifs <;> omega

/-- The log file ends before the volume does. -/
theorem shrinkLogfile_lt {cs lcn nr : ℕ} (hlcn : lcn < nr) : ∀ {fuel size : ℕ}, size < 2 ^ fuel →
    lcn + shrinkLogfile cs lcn nr fuel size / cs < nr
  | 0, size, h => by
    obtain rfl : size = 0 := by omega
    simpa [shrinkLogfile] using hlcn
  | fuel + 1, size, h => by
    unfold shrinkLogfile
    split_ifs with hge
    · exact shrinkLogfile_lt hlcn (by rw [pow_succ] at h; omega)
    · exact not_le.mp hge

/-- The size of the log file before it is rounded up. -/
def FormatCall.logSize (c : FormatCall) (cs : ℕ) : ℕ :=
  shrinkLogfile cs (c.mirrLcn cs + mirrClusters cs) (c.nrClusters cs) 32
    (logfileSizeFor (c.nrClusters cs * 2 ^ (ffs cs - 1)) cs)

/-- What the stages after the MFT need. -/
structure FormatCall.Finishes (c : FormatCall) (cs : ℕ) : Prop where
  gets : c.Gets [.rlLogfile, .rlBoot, .bootNode, .buf, .rlBad]
  log : 256 * 1024 ≤ (c.logSize cs + cs - 1) / cs * cs

/-- The layout of a call whose MFT is at `lcn`, given the allocated runs in front of the mirror. -/
def FormatCall.plan (c : FormatCall) (cs lcn : ℕ) (front : List ClusterRun) : Layout where
  clusterSize := cs
  rlMft := some ⟨lcn, mftClusters cs⟩
  rlMftmirr := some ⟨c.mirrLcn cs, mirrClusters cs⟩
  rlLogfile := some ⟨c.mirrLcn cs + mirrClusters cs, c.logSize cs / cs⟩
  rlMftBmp := some ⟨bootClusters cs, 1⟩
  rlBoot := some ⟨0, bootClusters cs⟩
  allocation := ⟨0, bootClusters cs⟩ :: (front ++
    ⟨c.mirrLcn cs, mirrClusters cs + c.logSize cs / cs⟩ :: tailRuns (c.nrClusters cs))

section After

variable {cs : ℕ} {front : List ClusterRun}

/-- The log file lies right behind the mirror. -/
theorem allocate_log {nodeOk : Bool} (h : c.Sized M cs)
    (hfront : ∀ r ∈ front, bootClusters cs ≤ r.lcn ∧ r.stop ≤ 11) :
    allocateIn nodeOk (c.mirrLcn cs + mirrClusters cs) (c.logSize cs / cs)
        (front ++ ⟨c.mirrLcn cs, mirrClusters cs⟩ :: tailRuns (c.nrClusters cs)) =
      (true, front ++ ⟨c.mirrLcn cs, mirrClusters cs + c.logSize cs / cs⟩ ::
        tailRuns (c.nrClusters cs)) := by
  obtain ⟨-, hmid, hend⟩ := h.nr_gt
  obtain ⟨-, -, -, hmirr⟩ := h.mft
  have hlcn : c.mirrLcn cs = c.volumeSize / 2 / cs := rfl
  rcases Nat.eq_zero_or_pos (c.logSize cs / cs) with h0 | hpos
  · rw [h0, allocateIn, if_pos rfl, Nat.add_zero]
  · refine allocateIn_extend hpos (fun r hr => ?_) rfl fun r hr => ?_
    · have := (hfront r hr).2
      have hstop : r.lcn ≤ r.stop := Nat.le_add_right _ _
      omega
    · have hlt : c.mirrLcn cs + mirrClusters cs + c.logSize cs / cs < c.nrClusters cs :=
        shrinkLogfile_lt (by omega) logfileSizeFor_lt
      exact hlt.le.trans (tailRuns_ge r hr)

/-- `$Boot` fits in front of everything. -/
theorem allocate_boot {nodeOk : Bool} {length : ℕ} (h : c.Sized M cs)
    (hfront : ∀ r ∈ front, bootClusters cs ≤ r.lcn ∧ r.stop ≤ 11) :
    allocateIn nodeOk 0 (bootClusters cs)
        (front ++ ⟨c.mirrLcn cs, length⟩ :: tailRuns (c.nrClusters cs)) =
      (nodeOk, if nodeOk then ⟨0, bootClusters cs⟩ :: (front ++
          ⟨c.mirrLcn cs, length⟩ :: tailRuns (c.nrClusters cs))
        else front ++ ⟨c.mirrLcn cs, length⟩ :: tailRuns (c.nrClusters cs)) := by
  obtain ⟨hnr, hmid, -⟩ := h.nr_gt
  have hboot : 1 ≤ bootClusters cs ∧ bootClusters cs ≤ 2 := by
    have := bootClusters_eq h.cluster
    split_ifs at this <;> omega
  have hlcn : c.mirrLcn cs = c.volumeSize / 2 / cs := rfl
  refine @allocateIn_between nodeOk 0 _ [] _ hboot.1 (by simp) fun r hr => ?_
  rw [Nat.zero_add]
  rcases List.mem_append.mp hr with hr | hr
  · exact (hfront r hr).1
  · rcases List.mem_cons.mp hr with rfl | hr
    · exact le_trans (by omega) hmid
    · exact le_trans (by omega) (tailRuns_ge r hr)

theorem afterMft_wp {lcn : ℕ} (h : c.Sized M cs)
    (hfront : ∀ r ∈ front, bootClusters cs ≤ r.lcn ∧ r.stop ≤ 11) :
    wp (afterMft c) (fun _ t => c.Finishes cs ∧ t.layout = c.plan cs lcn front ∧ t.mftLcn = lcn)
      (fun _ t => ¬ c.Finishes cs ∧ t.mftLcn = lcn)
      (g.placed c cs lcn
        (front ++ ⟨c.mirrLcn cs, mirrClusters cs⟩ :: tailRuns (c.nrClusters cs))) := by
  have hno : ∀ {s}, s ∈ [Site.rlLogfile, .rlBoot, .bootNode, .buf, .rlBad] → c.fails s = true →
      ¬ c.Finishes cs := fun hs hf h => by simp [h.gets _ hs] at hf
  have hlog := @allocate_log M c cs front (!c.fails .logNode) h hfront
  have hboot := @allocate_boot M c cs front (!c.fails .bootNode)
    (mirrClusters cs + c.logSize cs / cs) h hfront
  unfold afterMft initializeRlLogfile
  simp only [Globals.placed, Globals.ready]
  refine wp_bind.mpr (wp_bind.mpr (wp_demand (fun h1 => ?_) fun h => ⟨hno (by decide) h, rfl⟩))
  rw [wp_bind, wp_read]
  dsimp only
  refine wp_bind.mpr (wp_modify.mpr ?_)
  refine wp_bind.mpr (wp_require (fun hsize => ?_) fun hsize => ⟨fun h => hsize h.log, rfl⟩)
  refine wp_bind.mpr (wp_modify.mpr (wp_bind.mpr (wp_bitmapAllocate hlog ?_)))
  refine wp_require (fun _ => ?_) fun h => absurd rfl h
  dsimp only
  unfold initializeRlBoot
  refine wp_bind.mpr (wp_bind.mpr (wp_demand (fun h2 => ?_) fun h => ⟨hno (by decide) h, rfl⟩))
  refine wp_bind.mpr (wp_read.mpr (wp_bind.mpr (wp_modify.mpr ?_)))
  refine wp_bind.mpr (wp_bitmapAllocate hboot ?_)
  dsimp only
  refine wp_require (fun h3 => ?_) fun h3 => ⟨?_, rfl⟩
  · refine wp_bind.mpr (wp_demand (fun h4 => ?_) fun h => ⟨hno (by decide) h, rfl⟩)
    unfold initializeRlBad
    refine wp_bind.mpr (wp_demand (fun h5 => ?_) fun h => ⟨hno (by decide) h, rfl⟩)
    refine wp_modify.mpr ⟨⟨?_, hsize⟩, ?_, rfl⟩
    · rw [Bool.not_eq_true'] at h3
      simp [FormatCall.Gets, h1, h2, h3, h4, h5]
    · rw [if_pos h3]
      rfl
  · exact hno (s := .bootNode) (by decide) (by simpa using h3)

end After

/-! ### Calls -/

/-- The call computes a layout, with clusters of `cs` bytes. -/
structure FormatCall.LaysOut (M : ℕ) (c : FormatCall) (cs : ℕ) : Prop where
  reaches : c.Reaches M cs
  mirr : c.Gets [.rlMft, .rlMftmirr, .mirrNode]
  finishes : c.Finishes cs

/-- The call gets to place its MFT. -/
def FormatCall.Places (M : ℕ) (c : FormatCall) : Prop := ∃ cs, c.Reaches M cs

/-- Where the call puts its MFT in a new process. -/
def FormatCall.ownStart (c : FormatCall) : ℕ := if c.volumeSize < 2 ^ 44 then 4 else 2

theorem FormatCall.ownStart_cases (c : FormatCall) : c.ownStart = 2 ∨ c.ownStart = 4 := by
  unfold FormatCall.ownStart
  split_ifs
  · exact Or.inr rfl
  · exact Or.inl rfl

/-- The globals between two calls. -/
structure Globals.Idle (g : Globals) : Prop where
  allocation : g.allocation = []
  mftLcn : g.mftLcn = 0 ∨ g.mftLcn = 2 ∨ g.mftLcn = 4

theorem Globals.idle_fresh : Globals.fresh.Idle := ⟨rfl, Or.inl rfl⟩

theorem nkFormat_of_not_places (hg : g.Idle) (h : ¬ c.Places M) :
    (nkFormat M c g).1 = none ∧ (nkFormat M c g).2.allocation = [] ∧
      (nkFormat M c g).2.mftLcn = g.mftLcn := by
  unfold nkFormat
  split_ifs with hdev
  · exact ⟨rfl, hg.allocation, rfl⟩
  · have hgets : c.Gets [.devctx, .device] := by simpa [FormatCall.Gets] using hdev
    have hwp : wp (layOut M c) (fun _ _ => False) (fun _ t => t.mftLcn = g.mftLcn)
        (initOptions g) := by
      refine wp_bind.mpr (wp_mono (beforeMft_wp hgets hg.allocation) ?_ fun _ t hx => hx.2)
      rintro - t ⟨cs, hr, -⟩
      exact absurd ⟨cs, hr⟩ h
    cases hrun : layOut M c (initOptions g) with
    | mk r t =>
      cases r with
      | ok => exact (wp_ok hwp hrun).elim
      | error =>
        have hlcn := wp_error hwp hrun
        exact ⟨rfl, rfl, hlcn⟩

/-- What a call does depends on the earlier ones only through the place of the MFT. -/
theorem nkFormat_of_reaches {cs lcn : ℕ} (h : c.Reaches M cs) (hlo : 2 ≤ lcn) (hhi : lcn ≤ 4) :
    ∃ front, ∀ g : Globals, g.Idle → mftPlace cs g.mftLcn = lcn →
      (c.LaysOut M cs → (nkFormat M c g).1 = some (c.plan cs lcn front)) ∧
      (¬ c.LaysOut M cs → (nkFormat M c g).1 = none) ∧
      (nkFormat M c g).2.allocation = [] ∧ (nkFormat M c g).2.mftLcn = lcn := by
  obtain ⟨front, hl, hfront⟩ := @allocate_mft M c cs lcn (!c.fails .mftNode) h.sized hlo hhi
  refine ⟨front, fun g hg hlcn => ?_⟩
  have hgets : c.Gets [.devctx, .device] := fun s hs => h.gets s (by simp at hs ⊢; tauto)
  have hdev : ¬ (c.fails .devctx ∨ c.fails .device) := by
    simpa [FormatCall.Gets] using hgets
  have hwp : wp (layOut M c)
      (fun _ t => c.LaysOut M cs ∧ t.layout = c.plan cs lcn front ∧ t.mftLcn = lcn)
      (fun _ t => ¬ c.LaysOut M cs ∧ t.mftLcn = lcn) (initOptions g) := by
    refine wp_bind.mpr (wp_mono (beforeMft_wp hgets hg.allocation) ?_ fun _ t hx =>
      absurd h (hx.1 cs))
    rintro - t ⟨cs', hr, rfl⟩
    obtain rfl : cs' = cs := Option.some.inj (hr.sized.grow.symm.trans h.sized.grow)
    subst hlcn
    refine wp_bind.mpr (wp_mono (initializeRlMft_wp h.sized hl hfront) ?_ fun _ t hx =>
      ⟨fun hlay => hx.1 hlay.mirr, hx.2⟩)
    rintro - t ⟨hmirr, rfl⟩
    exact wp_mono (afterMft_wp h.sized hfront) (fun _ t hq => ⟨⟨h, hmirr, hq.1⟩, hq.2⟩)
      fun _ t hx => ⟨fun hlay => hx.1 hlay.finishes, hx.2⟩
  unfold nkFormat
  rw [if_neg hdev]
  cases hrun : layOut M c (initOptions g) with
  | mk r t =>
    cases r with
    | ok =>
      obtain ⟨hlay, hplan, hm⟩ := wp_ok hwp hrun
      exact ⟨fun _ => congrArg some hplan, fun hno => absurd hlay hno, rfl, hm⟩
    | error =>
      obtain ⟨hno, hm⟩ := wp_error hwp hrun
      exact ⟨fun hlay => absurd hlay hno, fun _ => rfl, rfl, hm⟩

/-- The MFT of a call that is not the first to place one goes where the first put it. -/
theorem mftPlace_eq {cs : ℕ} (h : c.Reaches M cs) (lcn : ℕ) :
    mftPlace cs lcn = if lcn = 0 then c.ownStart else lcn := by
  rw [mftPlace, h.sized.mft.1, FormatCall.ownStart]

theorem mftPlace_bounds {cs : ℕ} (hg : g.Idle) (h : c.Reaches M cs) :
    2 ≤ mftPlace cs g.mftLcn ∧ mftPlace cs g.mftLcn ≤ 4 := by
  have hcases := hg.mftLcn
  have hstart := c.ownStart_cases
  rw [mftPlace_eq h]
  split_ifs <;> omega

/-- What a call leaves behind. -/
theorem nkFormat_leaves (hg : g.Idle) (c : FormatCall) [Decidable (c.Places M)] :
    (nkFormat M c g).2.allocation = [] ∧ (nkFormat M c g).2.mftLcn =
      if g.mftLcn = 0 then (if c.Places M then c.ownStart else 0) else g.mftLcn := by
  by_cases h : c.Places M
  · obtain ⟨cs, hr⟩ := id h
    obtain ⟨hlo, hhi⟩ := mftPlace_bounds hg hr
    obtain ⟨front, hf⟩ := nkFormat_of_reaches hr hlo hhi
    obtain ⟨-, -, halloc, hlcn⟩ := hf g hg rfl
    exact ⟨halloc, by rw [hlcn, mftPlace_eq hr, if_pos h]⟩
  · obtain ⟨-, halloc, hlcn⟩ := nkFormat_of_not_places hg h
    refine ⟨halloc, ?_⟩
    rw [hlcn, if_neg h]
    split_ifs with h0
    · exact h0
    · rfl

open Classical in
theorem nkFormat_idle (hg : g.Idle) (c : FormatCall) : (nkFormat M c g).2.Idle := by
  obtain ⟨halloc, hlcn⟩ := nkFormat_leaves (M := M) hg c
  refine ⟨halloc, ?_⟩
  rw [hlcn]
  split_ifs
  · exact Or.inr c.ownStart_cases
  · exact Or.inl rfl
  · exact hg.mftLcn

open Classical in
/-- The first call of a process that places an MFT decides the place for all. -/
theorem afterCalls_mftLcn : ∀ (calls : List FormatCall) {g : Globals}, g.Idle →
    (afterCalls M calls g).Idle ∧ (afterCalls M calls g).mftLcn =
      if g.mftLcn = 0 then ((calls.find? (·.Places M)).map FormatCall.ownStart).getD 0
      else g.mftLcn
  | [], g, hg => ⟨hg, by
      split_ifs with h0
      · exact h0
      · rfl⟩
  | c :: calls, g, hg => by
    obtain ⟨hidle, hlcn⟩ := afterCalls_mftLcn calls (nkFormat_idle hg c)
    refine ⟨hidle, hlcn.trans ?_⟩
    have hstart := c.ownStart_cases
    rw [(nkFormat_leaves hg c).2]
    by_cases h0 : g.mftLcn = 0
    · by_cases h : c.Places M
      · have hne : c.ownStart ≠ 0 := by omega
        simp [h0, h, hne]
      · simp [h0, h]
    · simp [h0]

/-! ### Two processes -/

/-- The clusters of a run. -/
def ClusterRun.clusters (r : ClusterRun) : Finset ℕ := Finset.Ico r.lcn r.stop

theorem ClusterRun.disjoint_of_le {r s : ClusterRun} (h : r.stop ≤ s.lcn) :
    Disjoint r.clusters s.clusters := by
  rw [Finset.disjoint_left]
  intro x hr hs
  have hlt := (Finset.mem_Ico.mp hr).2
  have hge := (Finset.mem_Ico.mp hs).1
  omega

/-- No two system files share a cluster. -/
def Layout.Separate (l : Layout) : Prop :=
  l.systemRuns.Pairwise fun r s => Disjoint r.clusters s.clusters

/-- In a new process the files lie in this order: boot, MFT bitmap, MFT, mirror, log. -/
theorem plan_separate {cs : ℕ} {front : List ClusterRun} (h : c.Reaches M cs) :
    (c.plan cs c.ownStart front).Separate := by
  obtain ⟨-, hmid, -⟩ := h.sized.nr_gt
  obtain ⟨-, -, hmft, -⟩ := h.sized.mft
  have hboot := bootClusters_eq h.sized.cluster
  have hown : bootClusters cs + 1 ≤ c.ownStart ∧ c.ownStart ≤ 4 := by
    unfold FormatCall.ownStart
    split_ifs at hboot ⊢ <;> omega
  have hlcn : c.mirrLcn cs = c.volumeSize / 2 / cs := rfl
  have hruns : (c.plan cs c.ownStart front).systemRuns =
      [⟨0, bootClusters cs⟩, ⟨bootClusters cs, 1⟩, ⟨c.ownStart, mftClusters cs⟩,
        ⟨c.mirrLcn cs, mirrClusters cs⟩,
        ⟨c.mirrLcn cs + mirrClusters cs, c.logSize cs / cs⟩] := rfl
  have hsorted : (c.plan cs c.ownStart front).systemRuns.Pairwise fun r s => r.stop ≤ s.lcn := by
    simp [hruns, ClusterRun.stop]
    omega
  exact hsorted.imp ClusterRun.disjoint_of_le

theorem nkFormat_none (hg : g.Idle) (h : ∀ cs, ¬ c.LaysOut M cs) : (nkFormat M c g).1 = none := by
  by_cases hp : c.Places M
  · obtain ⟨cs, hr⟩ := hp
    obtain ⟨hlo, hhi⟩ := mftPlace_bounds hg hr
    obtain ⟨front, hf⟩ := nkFormat_of_reaches hr hlo hhi
    exact (hf g hg rfl).2.1 (h cs)
  · exact (nkFormat_of_not_places hg hp).1

/-- A call that computes a layout computes that of a new process exactly if its MFT is in the
place it has there. -/
theorem nkFormat_agrees_iff {cs : ℕ} (hg : g.Idle) (h : c.LaysOut M cs) :
    ((nkFormat M c g).1 = (nkFormat M c .fresh).1 ∧ ∀ l ∈ (nkFormat M c g).1, l.Separate) ↔
      mftPlace cs g.mftLcn = c.ownStart := by
  have hfresh : mftPlace cs Globals.fresh.mftLcn = c.ownStart := mftPlace_eq h.reaches 0
  have hstart := c.ownStart_cases
  obtain ⟨front, hf⟩ := @nkFormat_of_reaches M c cs c.ownStart h.reaches (by omega) (by omega)
  have hown := (hf _ Globals.idle_fresh hfresh).1 h
  constructor
  · rintro ⟨heq, -⟩
    obtain ⟨hlo, hhi⟩ := mftPlace_bounds hg h.reaches
    obtain ⟨front', hf'⟩ := nkFormat_of_reaches h.reaches hlo hhi
    rw [hown, (hf' g hg rfl).1 h] at heq
    have hrun := congrArg Layout.rlMft (Option.some.inj heq)
    exact congrArg ClusterRun.lcn (Option.some.inj hrun)
  · intro hlcn
    have hsame := (hf g hg hlcn).1 h
    refine ⟨hsame.trans hown.symm, fun l hl => ?_⟩
    rw [hsame] at hl
    rw [← Option.some.inj hl]
    exact plan_separate h.reaches

open Classical in
/-- A call computes the layout of a new process, without an overlap, exactly if it computes none,
or if no earlier call got to place an MFT, or if the first one that did had a volume on the same
side of 16 TiB. -/
theorem format_independent_iff (M : ℕ) (calls : List FormatCall) (c : FormatCall) :
    ((nkFormat M c (afterCalls M calls .fresh)).1 = (nkFormat M c .fresh).1 ∧
        ∀ l ∈ (nkFormat M c (afterCalls M calls .fresh)).1, l.Separate) ↔
      ((∃ cs, c.LaysOut M cs) → ∀ m ∈ calls.find? (·.Places M),
        (m.volumeSize < 2 ^ 44 ↔ c.volumeSize < 2 ^ 44)) := by
  obtain ⟨hidle, hleak⟩ := afterCalls_mftLcn (M := M) calls Globals.idle_fresh
  have h0 : Globals.fresh.mftLcn = 0 := rfl
  rw [if_pos h0] at hleak
  by_cases hlay : ∃ cs, c.LaysOut M cs
  · obtain ⟨cs, h⟩ := hlay
    rw [nkFormat_agrees_iff hidle h, mftPlace_eq h.reaches, hleak]
    cases hfind : calls.find? (·.Places M) with
    | none => simp
    | some m =>
      have hstart := m.ownStart_cases
      have hne : m.ownStart ≠ 0 := by omega
      simp only [Option.map_some, Option.getD_some, if_neg hne, Option.mem_some_iff,
        forall_eq']
      rw [show (∃ cs, c.LaysOut M cs) ↔ True from iff_true_intro ⟨cs, h⟩, true_implies]
      unfold FormatCall.ownStart
      split_ifs <;> omega
  · have hno : ∀ cs, ¬ c.LaysOut M cs := fun cs h => hlay ⟨cs, h⟩
    rw [nkFormat_none hidle hno, nkFormat_none Globals.idle_fresh hno]
    simp [hlay]

/-- A device of so many bytes, with everything that is needed to format it. -/
def plainCall (size : ℕ) : FormatCall := ⟨size, fun _ => false, fun l n => (l, n)⟩

/-- A volume of 1 GiB, formatted after one of 32 TiB: its MFT is at the cluster of its bitmap. -/
theorem format_after_larger :
    (nkFormat (2 ^ 21) (plainCall (2 ^ 30)) (afterCalls (2 ^ 21) [plainCall (2 ^ 45)] .fresh)).1.map
        (fun l => (l.rlMft, l.rlMftBmp)) = some (some ⟨2, 7⟩, some ⟨2, 1⟩) ∧
      (nkFormat (2 ^ 21) (plainCall (2 ^ 30)) .fresh).1.map (fun l => (l.rlMft, l.rlMftBmp)) =
        some (some ⟨4, 7⟩, some ⟨2, 1⟩) ∧
      ¬ ((nkFormat (2 ^ 21) (plainCall (2 ^ 30))
            (afterCalls (2 ^ 21) [plainCall (2 ^ 45)] .fresh)).1 =
          (nkFormat (2 ^ 21) (plainCall (2 ^ 30)) .fresh).1 ∧
        ∀ l ∈ (nkFormat (2 ^ 21) (plainCall (2 ^ 30))
          (afterCalls (2 ^ 21) [plainCall (2 ^ 45)] .fresh)).1, l.Separate) := by
  have h1 : (nkFormat (2 ^ 21) (plainCall (2 ^ 30))
      (afterCalls (2 ^ 21) [plainCall (2 ^ 45)] .fresh)).1.map (fun l => (l.rlMft, l.rlMftBmp)) =
        some (some ⟨2, 7⟩, some ⟨2, 1⟩) := by decide +kernel
  have h2 : (nkFormat (2 ^ 21) (plainCall (2 ^ 30)) .fresh).1.map (fun l => (l.rlMft, l.rlMftBmp)) =
      some (some ⟨4, 7⟩, some ⟨2, 1⟩) := by decide +kernel
  refine ⟨h1, h2, fun h => ?_⟩
  rw [h.1, h2] at h1
  revert h1
  decide

end NtfsKit
