import NtfsKit.Format.Reentry
import NtfsKit.Format.Scatter

/-! What a successful layout leaves to the files that follow it. In a new process the list of
allocated clusters is in order and has exactly the clusters of the system files and the bits behind
the end of the volume, and the MFT zone ends inside the volume. From there every file gets clusters
of its own. -/

namespace NtfsKit

open Prog Finset

variable {M : ℕ} {c : FormatCall} {g : Globals} {cs : ℕ}

/-- What the files created after the layout start from, on a volume of `nr` clusters. -/
structure Globals.LaidOut (nr : ℕ) (t : Globals) : Prop where
  positive : 0 < nr
  ordered : AllocationOk t.allocation
  exact : clustersOf t.allocation =
    clustersOf t.layout.systemRuns ∪ Ico nr (nr + tailLength nr)
  separate : t.layout.Separate
  inside : ∀ r ∈ t.layout.systemRuns, r.stop ≤ nr
  boot : 0 ∈ clustersOf t.allocation
  zone : t.mftZoneEnd ≤ nr
  cluster : 0 < t.vol.clusterSize
  bitmap : t.lcnBitmapByteSize * 8 = nr + tailLength nr

/-- The stages after the MFT leave the geometry, the MFT and its zone alone. -/
theorem afterMft_frame : wp (afterMft c)
    (fun _ t => t.mftZoneEnd = g.mftZoneEnd ∧ t.vol = g.vol ∧
      t.lcnBitmapByteSize = g.lcnBitmapByteSize ∧ t.mftLcn = g.mftLcn ∧
      t.mftmirrLcn = g.mftmirrLcn ∧ t.mftSize = g.mftSize ∧ t.sectorSize = g.sectorSize)
    (fun _ _ => True) g := by
  unfold afterMft initializeRlLogfile
  refine wp_bind.mpr (wp_bind.mpr (wp_demand (fun _ => ?_) fun _ => trivial))
  rw [wp_bind, wp_read]
  refine wp_bind.mpr (wp_modify.mpr ?_)
  refine wp_bind.mpr (wp_require (fun _ => ?_) fun _ => trivial)
  refine wp_bind.mpr (wp_modify.mpr (wp_bind.mpr (wp_bitmapAllocate (Prod.eta _).symm ?_)))
  refine wp_require (fun _ => ?_) fun _ => trivial
  unfold initializeRlBoot
  refine wp_bind.mpr (wp_bind.mpr (wp_demand (fun _ => ?_) fun _ => trivial))
  refine wp_bind.mpr (wp_read.mpr (wp_bind.mpr (wp_modify.mpr ?_)))
  refine wp_bind.mpr (wp_bitmapAllocate (Prod.eta _).symm ?_)
  refine wp_require (fun _ => ?_) fun _ => trivial
  refine wp_bind.mpr (wp_demand (fun _ => ?_) fun _ => trivial)
  unfold initializeRlBad
  exact wp_bind.mpr (wp_demand (fun _ => wp_modify.mpr ⟨rfl, rfl, rfl, rfl, rfl, rfl, rfl⟩)
    fun _ => trivial)

/-- The MFT of a new process fits behind its bitmap. -/
theorem withMft_ok (h : c.Sized M cs) (hnode : c.fails .mftNode = false) :
    AllocationOk (c.withMft cs c.ownStart) ∧ clustersOf (c.withMft cs c.ownStart) =
      insert (bootClusters cs)
          (Ico (c.nrClusters cs) (c.nrClusters cs + tailLength (c.nrClusters cs)))
        ∪ Ico c.ownStart (c.ownStart + mftClusters cs) := by
  have hboot := bootClusters_eq h.cluster
  have hnr := h.nr_gt.1
  obtain ⟨-, -, hmft, -⟩ := h.mft
  have hown : bootClusters cs + 1 ≤ c.ownStart ∧ c.ownStart ≤ 4 := by
    unfold FormatCall.ownStart
    split_ifs at hboot ⊢ <;> omega
  have htail : clustersOf (tailRuns (c.nrClusters cs)) =
      Ico (c.nrClusters cs) (c.nrClusters cs + tailLength (c.nrClusters cs)) := by
    unfold tailRuns
    split_ifs with h0
    · simp [h0]
    · simp [ClusterRun.stop]
  have hset : clustersOf (⟨bootClusters cs, 1⟩ :: tailRuns (c.nrClusters cs)) =
      insert (bootClusters cs)
        (Ico (c.nrClusters cs) (c.nrClusters cs + tailLength (c.nrClusters cs))) := by
    rw [clustersOf_cons, htail, ClusterRun.stop, Nat.Ico_succ_singleton, insert_eq]
  have hok : AllocationOk (⟨bootClusters cs, 1⟩ :: tailRuns (c.nrClusters cs)) := by
    unfold tailRuns
    split_ifs with h0
    · exact ⟨by simp, by simp⟩
    · refine ⟨by simp; omega, ?_⟩
      simp only [List.pairwise_cons, List.mem_singleton, forall_eq, ClusterRun.stop]
      exact ⟨by omega, by simp⟩
  have hfree : Disjoint (clustersOf (⟨bootClusters cs, 1⟩ :: tailRuns (c.nrClusters cs)))
      (Ico c.ownStart (c.ownStart + mftClusters cs)) := by
    rw [hset, Finset.disjoint_left]
    intro k hk hk'
    simp only [mem_insert, mem_Ico] at hk hk'
    omega
  rw [FormatCall.withMft, hnode]
  exact ⟨hok.allocateIn hfree, by rw [Bool.not_false, clustersOf_allocateIn, hset]⟩

/-- The stages of a new process, run to their end. -/
theorem layOut_wp (hdev : c.Gets [.devctx, .device]) : wp (layOut M c)
    (fun _ t => ∃ cs front, c.Reaches M cs ∧
      c.withMft cs c.ownStart = front ++ tailRuns (c.nrClusters cs) ∧
      (∀ r ∈ front, bootClusters cs ≤ r.lcn ∧ r.stop ≤ 11) ∧
      t.layout = c.plan cs c.ownStart front ∧
      t.mftZoneEnd = c.nrClusters cs / 8 + c.ownStart ∧
      t.vol = ⟨cs, ffs cs - 1, c.nrClusters cs, 1024, 4096⟩ ∧
      t.lcnBitmapByteSize = ((c.nrClusters cs + 7) / 8 + 7) / 8 * 8 ∧ t.mftLcn = c.ownStart ∧
      t.mftmirrLcn = c.mirrLcn cs ∧ t.mftSize = max (27 * 1024) cs ∧ t.sectorSize = 512)
    (fun _ _ => True) (initOptions .fresh) := by
  have halloc : (initOptions .fresh).allocation = [] := rfl
  refine wp_bind.mpr (wp_mono (beforeMft_wp hdev halloc) ?_ fun _ _ _ => trivial)
  rintro - t ⟨cs, hr, rfl⟩
  have hplace : mftPlace cs (initOptions .fresh).mftLcn = c.ownStart := mftPlace_eq hr 0
  have hstart := c.ownStart_cases
  obtain ⟨front, hl, hfront⟩ := @allocate_mft M c cs c.ownStart (!c.fails .mftNode) hr.sized
    (by omega) (by omega)
  refine wp_bind.mpr (wp_mono (initializeRlMft_wp hr.sized (by rw [hplace]; exact hl) hfront) ?_
    fun _ _ _ => trivial)
  rintro - t ⟨-, rfl⟩
  rw [hplace]
  refine wp_mono (wp_and (afterMft_wp hr.sized hfront) afterMft_frame) ?_ fun _ _ _ => trivial
  rintro - t ⟨⟨-, hplan, -⟩, hrest⟩
  exact ⟨cs, front, hr, hl, hfront, hplan, hrest⟩

/-- The clusters of the plan. -/
theorem plan_exact {front : List ClusterRun} (h : c.Sized M cs) (hnode : c.fails .mftNode = false)
    (hl : c.withMft cs c.ownStart = front ++ tailRuns (c.nrClusters cs)) :
    clustersOf (c.plan cs c.ownStart front).allocation =
      clustersOf (c.plan cs c.ownStart front).systemRuns ∪
        Ico (c.nrClusters cs) (c.nrClusters cs + tailLength (c.nrClusters cs)) := by
  have hset := (withMft_ok h hnode).2
  rw [hl, clustersOf_append] at hset
  have hmirr : Ico (c.mirrLcn cs) (c.mirrLcn cs + (mirrClusters cs + c.logSize cs / cs)) =
      Ico (c.mirrLcn cs) (c.mirrLcn cs + mirrClusters cs) ∪ Ico (c.mirrLcn cs + mirrClusters cs)
        (c.mirrLcn cs + mirrClusters cs + c.logSize cs / cs) := by
    rw [Ico_union_Ico_eq_Ico (Nat.le_add_right _ _) (Nat.le_add_right _ _), add_assoc]
  have hruns : (c.plan cs c.ownStart front).systemRuns =
      [⟨0, bootClusters cs⟩, ⟨bootClusters cs, 1⟩, ⟨c.ownStart, mftClusters cs⟩,
        ⟨c.mirrLcn cs, mirrClusters cs⟩,
        ⟨c.mirrLcn cs + mirrClusters cs, c.logSize cs / cs⟩] := rfl
  rw [hruns]
  simp only [FormatCall.plan, clustersOf_cons, clustersOf_append, clustersOf_nil, ClusterRun.stop,
    hmirr, Nat.Ico_succ_singleton, union_empty] at hset ⊢
  ext k
  have hk := congrArg (k ∈ ·) hset
  simp only [mem_union, mem_insert, mem_singleton, eq_iff_iff] at hk ⊢
  tauto

/-- The list of the plan is in order. -/
theorem plan_ordered {front : List ClusterRun} (h : c.Sized M cs) (hnode : c.fails .mftNode = false)
    (hl : c.withMft cs c.ownStart = front ++ tailRuns (c.nrClusters cs))
    (hfront : ∀ r ∈ front, bootClusters cs ≤ r.lcn ∧ r.stop ≤ 11) :
    AllocationOk (c.plan cs c.ownStart front).allocation := by
  obtain ⟨-, hmid, hend⟩ := h.nr_gt
  obtain ⟨-, -, -, hmirr⟩ := h.mft
  have hboot := bootClusters_eq h.cluster
  have hlcn : c.mirrLcn cs = c.volumeSize / 2 / cs := rfl
  have hlog : c.mirrLcn cs + mirrClusters cs + c.logSize cs / cs < c.nrClusters cs :=
    shrinkLogfile_lt (by omega) logfileSizeFor_lt
  have hok := (withMft_ok h hnode).1
  rw [hl] at hok
  obtain ⟨hpf, hpt, -⟩ := List.pairwise_append.mp hok.apart
  have hpos : 0 < bootClusters cs ∧ bootClusters cs ≤ 2 := by split_ifs at hboot <;> omega
  simp only [FormatCall.plan]
  generalize c.logSize cs / cs = log at hlog ⊢
  constructor
  · intro r hr
    simp only [List.mem_cons, List.mem_append] at hr
    rcases hr with rfl | hr | rfl | hr
    · exact hpos.1
    · exact hok.positive r (List.mem_append_left _ hr)
    · exact Nat.add_pos_left (by omega) _
    · exact hok.positive r (List.mem_append_right _ hr)
  · refine List.pairwise_cons.mpr ⟨fun r hr => ?_, List.pairwise_append.mpr
      ⟨hpf, List.pairwise_cons.mpr ⟨fun r hr => ?_, hpt⟩, fun r hr s hs => ?_⟩⟩
    · simp only [ClusterRun.stop, Nat.zero_add]
      rcases List.mem_append.mp hr with hr | hr
      · exact (hfront r hr).1
      · rcases List.mem_cons.mp hr with rfl | hr
        · dsimp only
          omega
        · have := tailRuns_ge r hr
          omega
    · have := tailRuns_ge r hr
      simp only [ClusterRun.stop]
      omega
    · have hstop := (hfront r hr).2
      rcases List.mem_cons.mp hs with rfl | hs
      · dsimp only
        omega
      · have := tailRuns_ge s hs
        omega

/-- A layout that succeeds in a new process and gets the list node of the MFT: the list of allocated
clusters is in order and exact, and no two system files meet. -/
theorem layOut_laidOut (hdev : c.Gets [.devctx, .device]) (hnode : c.fails .mftNode = false)
    {t : Globals} (h : layOut M c (initOptions .fresh) = (.ok (), t)) :
    t.LaidOut t.vol.nrClusters := by
  obtain ⟨cs, front, hr, hl, hfront, hplan, hzone, hvol, hbitmap, -⟩ := wp_ok (layOut_wp hdev) h
  have hnr : t.vol.nrClusters = c.nrClusters cs := congrArg FormatVolume.nrClusters hvol
  have hcs : t.vol.clusterSize = cs := congrArg FormatVolume.clusterSize hvol
  obtain ⟨hlarge, hmid, hend⟩ := hr.sized.nr_gt
  obtain ⟨-, -, hmft, hmirr⟩ := hr.sized.mft
  have hboot := bootClusters_eq hr.sized.cluster
  have hstart := c.ownStart_cases
  have hlcn : c.mirrLcn cs = c.volumeSize / 2 / cs := rfl
  have hlog : c.mirrLcn cs + mirrClusters cs + c.logSize cs / cs < c.nrClusters cs :=
    shrinkLogfile_lt (by omega) logfileSizeFor_lt
  have halloc : t.allocation = (c.plan cs c.ownStart front).allocation :=
    congrArg Layout.allocation hplan
  rw [hnr]
  refine ⟨by omega, ?_, ?_, ?_, ?_, ?_, ?_, ?_, ?_⟩
  · rw [halloc]
    exact plan_ordered hr.sized hnode hl hfront
  · rw [halloc, hplan]
    exact plan_exact hr.sized hnode hl
  · rw [hplan]
    exact plan_separate hr
  · rw [hplan]
    intro r hr
    have hruns : (c.plan cs c.ownStart front).systemRuns =
        [⟨0, bootClusters cs⟩, ⟨bootClusters cs, 1⟩, ⟨c.ownStart, mftClusters cs⟩,
          ⟨c.mirrLcn cs, mirrClusters cs⟩,
          ⟨c.mirrLcn cs + mirrClusters cs, c.logSize cs / cs⟩] := rfl
    rw [hruns] at hr
    simp only [List.mem_cons, List.not_mem_nil, or_false] at hr
    rcases hr with rfl | rfl | rfl | rfl | rfl
    all_goals
      rw [ClusterRun.stop]
      dsimp only
      split_ifs at hboot <;> omega
  · rw [halloc]
    simp only [FormatCall.plan, clustersOf_cons, ClusterRun.stop, mem_union, mem_Ico]
    left
    split_ifs at hboot <;> omega
  · omega
  · obtain ⟨e, he, -⟩ := hr.sized.cluster.pow
    rw [hcs, he]
    positivity
  · rw [hbitmap, tailLength]
    omega

/-- The system file at a place of the layout has a cluster. -/
def Layout.Owns (l : Layout) (i k : ℕ) : Prop :=
  ∃ r, l.systemRuns[i]? = some r ∧ r.lcn ≤ k ∧ k < r.stop

theorem Layout.exists_owns {l : Layout} {k : ℕ} :
    (∃ i, l.Owns i k) ↔ ∃ r ∈ l.systemRuns, r.lcn ≤ k ∧ k < r.stop := by
  constructor
  · rintro ⟨i, r, hr, hk⟩
    exact ⟨r, List.mem_of_getElem? hr, hk⟩
  · rintro ⟨r, hr, hk⟩
    obtain ⟨i, hi⟩ := List.mem_iff_getElem?.mp hr
    exact ⟨i, r, hi, hk⟩

/-- Two system files that have a cluster in common are one. -/
theorem Layout.Separate.owner_unique {l : Layout} (h : l.Separate) {i j k : ℕ} (hi : l.Owns i k)
    (hj : l.Owns j k) : i = j := by
  obtain ⟨r, hr, hk⟩ := hi
  obtain ⟨s, hs, hk'⟩ := hj
  obtain ⟨hi, rfl⟩ := List.getElem?_eq_some_iff.mp hr
  obtain ⟨hj, rfl⟩ := List.getElem?_eq_some_iff.mp hs
  have hpair := List.pairwise_iff_getElem.mp h
  rcases lt_trichotomy i j with hlt | heq | hgt
  · exact absurd (mem_Ico.mpr hk') (Finset.disjoint_left.mp (hpair i j hi hj hlt) (mem_Ico.mpr hk))
  · exact heq
  · exact absurd (mem_Ico.mpr hk) (Finset.disjoint_left.mp (hpair j i hj hi hgt) (mem_Ico.mpr hk'))

/-- Two runs of system files that have a cluster in common are one. -/
theorem Layout.Separate.eq_of_mem {l : Layout} (h : l.Separate) {r r' : ClusterRun}
    (hr : r ∈ l.systemRuns) (hr' : r' ∈ l.systemRuns) {k : ℕ} (hk : r.lcn ≤ k ∧ k < r.stop)
    (hk' : r'.lcn ≤ k ∧ k < r'.stop) : r = r' := by
  obtain ⟨i, hi⟩ := List.mem_iff_getElem?.mp hr
  obtain ⟨j, hj⟩ := List.mem_iff_getElem?.mp hr'
  obtain rfl := h.owner_unique ⟨r, hi, hk⟩ ⟨r', hj, hk'⟩
  exact Option.some.inj (hi.symm.trans hj)

/-- A layout that succeeds in a new process and gets the list node of the MFT: a cluster is
allocated exactly when one system file has it, and no other, or it is a bit behind the end of the
volume. -/
theorem layOut_exact (hdev : c.Gets [.devctx, .device]) (hnode : c.fails .mftNode = false)
    {t : Globals} (h : layOut M c (initOptions .fresh) = (.ok (), t)) :
    AllocationOk t.allocation ∧ t.mftZoneEnd ≤ t.vol.nrClusters ∧
      ∀ k, k ∈ clustersOf t.allocation ↔
        (k < t.vol.nrClusters ∧ ∃! i, t.layout.Owns i k) ∨
          (t.vol.nrClusters ≤ k ∧ k < t.lcnBitmapByteSize * 8) := by
  have hlaid := layOut_laidOut hdev hnode h
  refine ⟨hlaid.ordered, hlaid.zone, fun k => ?_⟩
  rw [hlaid.exact, hlaid.bitmap, mem_union, mem_clustersOf, mem_Ico]
  refine or_congr_left ⟨?_, ?_⟩
  · rintro ⟨r, hr, hk⟩
    obtain ⟨i, hi⟩ := Layout.exists_owns.mpr ⟨r, hr, hk⟩
    exact ⟨hk.2.trans_le (hlaid.inside r hr), i, hi, fun j hj => hlaid.separate.owner_unique hj hi⟩
  · rintro ⟨-, i, hi, -⟩
    exact Layout.exists_owns.mp ⟨i, hi⟩

/-- A volume of 257 clusters. -/
def tinyVolume : Globals := (layOut (2 ^ 21) (plainCall (2 ^ 20 + 4608)) (initOptions .fresh)).2

theorem tinyVolume_layOut :
    layOut (2 ^ 21) (plainCall (2 ^ 20 + 4608)) (initOptions .fresh) = (.ok (), tinyVolume) := by
  have h : (layOut (2 ^ 21) (plainCall (2 ^ 20 + 4608)) (initOptions .fresh)).1 = .ok () := by
    decide +kernel
  exact Prod.ext h rfl

theorem layOut_exact_tiny : tinyVolume.vol.nrClusters = 257 ∧
    tinyVolume.allocation = [⟨0, 2⟩, ⟨2, 1⟩, ⟨4, 7⟩, ⟨128, 65⟩, ⟨257, 63⟩] ∧
    ∀ k, k ∈ clustersOf tinyVolume.allocation ↔
      (k < tinyVolume.vol.nrClusters ∧ ∃! i, tinyVolume.layout.Owns i k) ∨
      (tinyVolume.vol.nrClusters ≤ k ∧ k < tinyVolume.lcnBitmapByteSize * 8) :=
  ⟨by decide +kernel, by decide +kernel,
    (layOut_exact (fun _ _ => rfl) rfl tinyVolume_layOut).2.2⟩

end NtfsKit
