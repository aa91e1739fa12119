import NtfsKit.Format.Clusters
import NtfsKit.Engine.RunClusters
import Mathlib.Data.List.ModifyLast

/-! The clusters of a new file. `allocate_scattered_clusters` takes free clusters one by one, from
the end of the MFT zone to the end of the volume; when these run out it halves the zone and goes
on below. It joins neighbours into runs, and gives everything back when the volume is full. -/

namespace NtfsKit

open Finset

/-- The local state of `allocate_scattered_clusters`; `rlpos` is the length of `rl`. -/
structure Scatter where
  clusters : ℕ
  rl : List RunlistElement
  vcn : ℕ
  prevLcn : ℕ
  prevRunLen : ℕ
  rlsize : ℕ
  deriving DecidableEq

/-- The globals it works on. -/
structure Allocator where
  list : Clusters
  mftZoneEnd : ℕ
  deriving DecidableEq

/-- How the loop over a zone ends. -/
inductive ScanEnd
  | exhausted
  | done
  | noMemory
  deriving DecidableEq

section Allocate

-- `grow` tells which sizes of the runlist `realloc` grants
variable (memory grow : ℕ → Bool)

/-- Put a cluster into the runlist: a neighbour of the last run extends it. -/
def Scatter.take (w : Scatter) (lcn : ℕ) : Scatter :=
  if w.prevLcn + w.prevRunLen = lcn then
    { w with
      clusters := w.clusters - 1
      rl := w.rl.modifyLast fun e => { e with length := w.prevRunLen + 1 }
      prevRunLen := w.prevRunLen + 1
      vcn := w.vcn + 1 }
  else
    { w with
      clusters := w.clusters - 1
      rl := w.rl ++ [⟨w.vcn, lcn, 1⟩]
      vcn := w.vcn + 1
      prevLcn := lcn
      prevRunLen := 1 }

/-- The size of the runlist while a cluster is put in, with room for the terminator. An element
takes 24 bytes. -/
def Scatter.sizeFor (w : Scatter) : ℕ :=
  if (w.rl.length + 2) * 24 ≥ w.rlsize then w.rlsize + 4096 else w.rlsize

/-- The loop over `n` clusters of a zone from `lcn` on. -/
def scanZone : ℕ → ℕ → Scatter → Clusters → ScanEnd × Scatter × Clusters
  | 0, _, w, s => (.exhausted, w, s)
  | n + 1, lcn, w, s =>
    let r := s.getAndSet memory lcn
    if r.1 then scanZone n (lcn + 1) w r.2
    else if w.sizeFor ≠ w.rlsize ∧ grow w.sizeFor = false then (.noMemory, w, r.2)
    else
      let w := { w with rlsize := w.sizeFor }.take lcn
      if w.clusters = 0 then (.done, w, r.2) else scanZone n (lcn + 1) w r.2

/-- The loop over the zones. The zone is halved each time, so that `fuel` zones are enough if it
is not larger. -/
def scanZones : ℕ → ℕ → Scatter → Allocator → Bool × Scatter × Allocator
  | 0, _, w, g => (false, w, g)
  | fuel + 1, stop, w, g =>
    match scanZone memory grow (stop - g.mftZoneEnd) g.mftZoneEnd w g.list with
    | (.done, w, s) => (true, w, { g with list := s })
    | (.noMemory, w, s) => (false, w, { g with list := s })
    | (.exhausted, w, s) =>
      let g' : Allocator := ⟨s, g.mftZoneEnd / 2⟩
      if g'.mftZoneEnd = 0 then (false, w, g') else scanZones fuel g.mftZoneEnd w g'

/-- `deallocate_scattered_clusters`. -/
def deallocateScattered : List RunlistElement → Clusters → Clusters
  | [], s => s
  | e :: rl, s =>
    if e.length = 0 then s
    else if e.lcn = lcnHole then deallocateScattered rl s
    else deallocateScattered rl (s.deallocate memory e.lcn.toNat e.length.toNat).2

/-- `allocate_scattered_clusters` on a volume of `nrClusters`. -/
def allocateScattered (nrClusters clusters : ℕ) (g : Allocator) : Option Runlist × Allocator :=
  if clusters = 0 then (none, g)
  else
    match scanZones memory grow (g.mftZoneEnd + 1) nrClusters ⟨clusters, [], 0, 0, 0, 0⟩ g with
    | (true, w, g) => (some (w.rl ++ [⟨w.vcn, 0, 0⟩]), g)
    | (false, w, g) =>
      if w.rlsize = 0 then (none, g)
      else (none, { g with
        list := deallocateScattered memory (w.rl ++ [⟨w.vcn, lcnHole, 0⟩]) g.list })

end Allocate

/-! ### Taking clusters -/

/-- What the loops keep: the runlist describes `vcn` of the `n` clusters, and the last run is the
one that may be extended. -/
structure Scatter.Ok (n : ℕ) (w : Scatter) : Prop where
  contiguous : Contiguous 0 w.rl
  backed : Runlist.Backed w.rl
  length : (Runlist.clusters w.rl).length = w.vcn
  count : w.vcn + w.clusters = n
  last : (w.rl = [] ∧ w.prevLcn = 0 ∧ w.prevRunLen = 0) ∨
    ∃ front, ∃ v : ℤ, w.rl = front ++ [⟨v, w.prevLcn, w.prevRunLen⟩]
  room : w.rl ≠ [] → w.rlsize ≠ 0

theorem Scatter.sizeFor_pos (w : Scatter) : w.sizeFor ≠ 0 := by
  unfold sizeFor
  split_ifs <;> omega

theorem Scatter.Ok.resize {n : ℕ} {w : Scatter} (h : w.Ok n) :
    ({ w with rlsize := w.sizeFor } : Scatter).Ok n :=
  ⟨h.contiguous, h.backed, h.length, h.count, h.last, fun _ => w.sizeFor_pos⟩

/-- A cluster that is put in stands behind the others. -/
theorem Scatter.take_clusters {n lcn : ℕ} {w : Scatter} (h : w.Ok n) (hlcn : lcn ≠ 0) :
    Runlist.clusters (w.take lcn).rl = Runlist.clusters w.rl ++ [lcn] := by
  unfold take
  split_ifs with hnext
  · obtain ⟨-, h1, h2⟩ | ⟨front, v, hrl⟩ := h.last
    · omega
    · simp only [hrl, List.modifyLast_concat, Runlist.clusters_append, Runlist.clusters_cons,
        Runlist.clusters_nil, List.append_nil, List.append_assoc, List.append_cancel_left_eq]
      simp only [RunlistElement.clusters, Int.toNat_natCast]
      rw [show ((w.prevRunLen : ℤ) + 1).toNat = w.prevRunLen + 1 by omega,
        List.range'_1_concat, hnext]
  · simp [RunlistElement.clusters]

theorem Scatter.Ok.take {n lcn : ℕ} {w : Scatter} (h : w.Ok n) (hlcn : lcn ≠ 0)
    (hclusters : 0 < w.clusters) (hroom : w.rlsize ≠ 0) : (w.take lcn).Ok n := by
  have hcl := take_clusters h hlcn
  have hlen : (Runlist.clusters (w.take lcn).rl).length = w.vcn + 1 := by
    rw [hcl, List.length_append, h.length]
    rfl
  unfold Scatter.take at hlen ⊢
  split_ifs at hlen ⊢ with hnext
  · obtain ⟨-, h1, h2⟩ | ⟨front, v, hrl⟩ := h.last
    · omega
    · simp only [hrl, List.modifyLast_concat] at hlen ⊢
      obtain ⟨hfront, hv, hpos, hl⟩ := contiguous_concat.mp (hrl ▸ h.contiguous)
      refine ⟨contiguous_concat.mpr ⟨hfront, hv, ?_, hl⟩, ?_, hlen, ?_, .inr ⟨front, v, rfl⟩, ?_⟩
      · exact (by omega : (0 : ℤ) < w.prevRunLen + 1)
      · intro e he
        rcases List.mem_append.mp he with he | he
        · exact h.backed e (by simp [hrl, he])
        · rw [List.mem_singleton.mp he]
          exact Int.natCast_nonneg _
      · have := h.count
        change w.vcn + 1 + (w.clusters - 1) = n
        omega
      · exact fun _ => hroom
  · refine ⟨contiguous_concat.mpr ⟨h.contiguous, ?_, one_pos, ?_⟩, ?_, hlen, ?_,
      .inr ⟨_, _, rfl⟩, ?_⟩
    · change (w.vcn : ℤ) = _
      rw [h.length, zero_add]
    · exact (by unfold lcnHole; omega : lcnHole ≤ (lcn : ℤ))
    · intro e he
      rcases List.mem_append.mp he with he | he
      · exact h.backed e he
      · rw [List.mem_singleton.mp he]
        exact Int.natCast_nonneg _
    · have := h.count
      change w.vcn + 1 + (w.clusters - 1) = n
      omega
    · exact fun _ => hroom

/-- The clusters of the runlist are fresh, below `nr`, and with those that were allocated before
and those that are lost they are the allocated ones. -/
structure Scatter.Takes (nr : ℕ) (A lost : Finset ℕ) (w : Scatter) (s : Clusters) : Prop where
  ordered : AllocationOk s.runs
  set : clustersOf s.runs = A ∪ lost ∪ (Runlist.clusters w.rl).toFinset
  nodup : (Runlist.clusters w.rl).Nodup
  fresh : ∀ c ∈ Runlist.clusters w.rl, c < nr ∧ c ∉ A ∪ lost

section Loops

variable {memory : ℕ → Bool} {nr n : ℕ} {A : Finset ℕ} {w : Scatter} {s : Clusters}

theorem Scatter.Takes.put {lcn : ℕ} (h : w.Takes nr A ∅ s) (hok : w.Ok n) (hlcn : lcn ≠ 0)
    (hlt : lcn < nr) (hfree : lcn ∉ clustersOf s.runs) {s' : Clusters}
    (hset : clustersOf s'.runs = insert lcn (clustersOf s.runs)) (hs' : AllocationOk s'.runs) :
    ({ w with rlsize := w.sizeFor }.take lcn).Takes nr A ∅ s' := by
  have hcl : Runlist.clusters ({ w with rlsize := w.sizeFor }.take lcn).rl =
      Runlist.clusters w.rl ++ [lcn] := Scatter.take_clusters hok.resize hlcn
  have hold : lcn ∉ A ∪ ∅ ∧ lcn ∉ Runlist.clusters w.rl := by
    rw [h.set] at hfree
    simpa using hfree
  refine ⟨hs', ?_, ?_, ?_⟩
  · rw [hset, h.set, hcl]
    ext c
    simp only [mem_insert, mem_union, List.mem_toFinset, List.mem_append, List.mem_singleton]
    tauto
  · rw [hcl, ← List.concat_eq_append]
    exact h.nodup.concat hold.2
  · intro c hc
    rw [hcl] at hc
    rcases List.mem_append.mp hc with hc | hc
    · exact h.fresh c hc
    · rw [List.mem_singleton.mp hc]
      exact ⟨hlt, hold.1⟩

/-- The loop over a zone takes free clusters of it until there are enough, or none is left. -/
theorem scanZone_spec (grow : ℕ → Bool) (hm : ∀ k, memory k = true) (h0 : 0 ∈ A) (k : ℕ) :
    ∀ (lcn : ℕ) (w : Scatter) (s : Clusters), lcn + k ≤ nr → w.Ok n → 0 < w.clusters →
      w.Takes nr A ∅ s → ∃ e w' s', scanZone memory grow k lcn w s = (e, w', s') ∧ w'.Ok n ∧
        clustersOf s.runs ⊆ clustersOf s'.runs ∧
        ((e = .done ∧ w'.clusters = 0 ∧ w'.Takes nr A ∅ s') ∨
          (e = .exhausted ∧ 0 < w'.clusters ∧ w'.Takes nr A ∅ s' ∧
            Ico lcn (lcn + k) ⊆ clustersOf s'.runs) ∨
          (e = .noMemory ∧ (∃ size, grow size = false) ∧
            ∃ lost, w'.Takes nr A {lost} s' ∧ lost ∉ A)) := by
  induction k with
  | zero =>
    intro lcn w s _ hok hpos h
    exact ⟨_, w, s, rfl, hok, subset_rfl, .inr (.inl ⟨rfl, hpos, h, by simp⟩)⟩
  | succ k ih =>
    intro lcn w s hlt hok hpos h
    obtain ⟨hans, hset, hs'⟩ := Clusters.getAndSet_spec hm lcn h.ordered
    rw [scanZone]
    generalize s.getAndSet memory lcn = r at hans hset hs'
    obtain ⟨bit, s'⟩ := r
    dsimp only at hans hset hs' ⊢
    have hrange : ∀ {t : Clusters}, clustersOf s'.runs ⊆ clustersOf t.runs →
        Ico (lcn + 1) (lcn + 1 + k) ⊆ clustersOf t.runs →
        Ico lcn (lcn + (k + 1)) ⊆ clustersOf t.runs := by
      intro t hsub hrest c hc
      rcases eq_or_ne c lcn with rfl | hne
      · exact hsub (hset ▸ mem_insert_self _ _)
      · apply hrest
        simp only [mem_Ico] at hc ⊢
        omega
    have hgrows : clustersOf s.runs ⊆ clustersOf s'.runs := hset ▸ subset_insert _ _
    by_cases hin : lcn ∈ clustersOf s.runs
    · -- the cluster is taken already
      have hsame : clustersOf s'.runs = clustersOf s.runs := by rw [hset, insert_eq_of_mem hin]
      rw [if_pos (by simp [hans, hin])]
      obtain ⟨e, w', t, hrun, hok', hsub, hcases⟩ := ih (lcn + 1) w s' (by omega) hok hpos
        ⟨hs', hsame ▸ h.set, h.nodup, h.fresh⟩
      refine ⟨e, w', t, hrun, hok', hgrows.trans hsub, ?_⟩
      rcases hcases with hdone | ⟨he, hpos', htakes, hrest⟩ | hno
      · exact .inl hdone
      · exact .inr (.inl ⟨he, hpos', htakes, hrange hsub hrest⟩)
      · exact .inr (.inr hno)
    · have hlcn : lcn ≠ 0 := by
        rintro rfl
        apply hin
        rw [h.set]
        simp [h0]
      rw [if_neg (by simp [hans, hin])]
      split_ifs with hmem hlast
      · -- the cluster is marked, but there is no room for it in the runlist
        rw [h.set] at hin hset
        simp only [mem_union, List.mem_toFinset, not_or] at hin
        refine ⟨_, w, s', rfl, hok, hgrows, .inr (.inr ⟨rfl, ⟨_, hmem.2⟩, lcn, ?_, hin.1.1⟩)⟩
        refine ⟨hs', ?_, h.nodup, fun c hc => ?_⟩
        · rw [hset]
          ext c
          simp only [mem_insert, mem_union, mem_singleton, notMem_empty, or_false]
          tauto
        · obtain ⟨hc1, hc2⟩ := h.fresh c hc
          refine ⟨hc1, ?_⟩
          simp only [mem_union, notMem_empty, or_false, mem_singleton, not_or] at hc2 ⊢
          exact ⟨hc2, fun heq => hin.2 (heq ▸ hc)⟩
      · have hputOk : ({ w with rlsize := w.sizeFor }.take lcn).Ok n :=
          hok.resize.take hlcn hpos w.sizeFor_pos
        exact ⟨_, _, s', rfl, hputOk, hgrows,
          .inl ⟨rfl, hlast, h.put hok hlcn (by omega) hin hset hs'⟩⟩
      · have hputOk : ({ w with rlsize := w.sizeFor }.take lcn).Ok n :=
          hok.resize.take hlcn hpos w.sizeFor_pos
        obtain ⟨e, w', t, hrun, hok', hsub, hcases⟩ := ih (lcn + 1) _ s' (by omega) hputOk
          (Nat.pos_of_ne_zero hlast) (h.put hok hlcn (by omega) hin hset hs')
        refine ⟨e, w', t, hrun, hok', hgrows.trans hsub, ?_⟩
        rcases hcases with hdone | ⟨he, hpos', htakes, hrest⟩ | hno
        · exact .inl hdone
        · exact .inr (.inl ⟨he, hpos', htakes, hrange hsub hrest⟩)
        · exact .inr (.inr hno)

/-- The loop over the zones gives up only when every cluster of the volume is taken, or for want
of memory. -/
theorem scanZones_spec (grow : ℕ → Bool) (hm : ∀ k, memory k = true) (h0 : 0 ∈ A) (fuel : ℕ) :
    ∀ (stop : ℕ) (w : Scatter) (g : Allocator), g.mftZoneEnd < fuel → g.mftZoneEnd ≤ stop →
      stop ≤ nr → w.Ok n → 0 < w.clusters → w.Takes nr A ∅ g.list →
      Ico stop nr ⊆ clustersOf g.list.runs →
      ∃ b w' g', scanZones memory grow fuel stop w g = (b, w', g') ∧ w'.Ok n ∧
        g'.mftZoneEnd ≤ g.mftZoneEnd ∧
        ((b = true ∧ w'.clusters = 0 ∧ w'.Takes nr A ∅ g'.list) ∨
          (b = false ∧ 0 < w'.clusters ∧ w'.Takes nr A ∅ g'.list ∧
            range nr ⊆ clustersOf g'.list.runs) ∨
          (b = false ∧ (∃ size, grow size = false) ∧
            ∃ lost, w'.Takes nr A {lost} g'.list ∧ lost ∉ A)) := by
  induction fuel with
  | zero =>
    intro stop w g hfuel
    exact absurd hfuel (Nat.not_lt_zero _)
  | succ fuel ih =>
    intro stop w g hfuel hz hstop hok hpos h habove
    obtain ⟨e, w', s', hrun, hok', hsub, hcases⟩ := scanZone_spec grow hm h0
      (stop - g.mftZoneEnd) g.mftZoneEnd w g.list (by omega) hok hpos h
    rw [scanZones, hrun]
    rcases hcases with ⟨rfl, hdone, htakes⟩ | ⟨rfl, hpos', htakes, hzone⟩ | ⟨rfl, hno⟩
    · exact ⟨_, w', _, rfl, hok', le_rfl, .inl ⟨rfl, hdone, htakes⟩⟩
    · rw [show g.mftZoneEnd + (stop - g.mftZoneEnd) = stop by omega] at hzone
      have hall : Ico g.mftZoneEnd nr ⊆ clustersOf s'.runs := by
        intro c hc
        rcases lt_or_ge c stop with hlt | hge
        · exact hzone (mem_Ico.mpr ⟨(mem_Ico.mp hc).1, hlt⟩)
        · exact hsub (habove (mem_Ico.mpr ⟨hge, (mem_Ico.mp hc).2⟩))
      dsimp only
      split_ifs with hend
      · refine ⟨_, w', _, rfl, hok', Nat.div_le_self _ _, .inr (.inl ⟨rfl, hpos', htakes, ?_⟩)⟩
        intro c hc
        rcases Nat.eq_zero_or_pos c with rfl | hc0
        · rw [htakes.set]
          simp [h0]
        · apply hall
          simp only [mem_Ico, mem_range] at hc ⊢
          omega
      · obtain ⟨b, w'', g'', hrun', hok'', hle, hcases'⟩ := ih g.mftZoneEnd w'
          ⟨s', g.mftZoneEnd / 2⟩ (by dsimp only; omega) (Nat.div_le_self _ _) (hz.trans hstop) hok'
          hpos' htakes hall
        exact ⟨b, w'', g'', hrun', hok'', hle.trans (Nat.div_le_self _ _), hcases'⟩
    · exact ⟨_, w', _, rfl, hok', le_rfl, .inr (.inr ⟨rfl, hno⟩)⟩

/-- Giving a runlist back. -/
theorem deallocateScattered_spec (hm : ∀ k, memory k = true) {rl : List RunlistElement}
    (hback : Runlist.Backed rl) (hlen : ∀ e ∈ rl, 0 < e.length) (t : RunlistElement)
    (ht : t.length = 0) : ∀ s : Clusters, AllocationOk s.runs →
      AllocationOk (deallocateScattered memory (rl ++ [t]) s).runs ∧
        clustersOf (deallocateScattered memory (rl ++ [t]) s).runs =
          clustersOf s.runs \ (Runlist.clusters rl).toFinset := by
  induction rl with
  | nil =>
    intro s h
    simp [deallocateScattered, ht, h]
  | cons e rl ih =>
    intro s h
    have hpos := hlen e (by simp)
    have hlcn := hback e (by simp)
    rw [List.cons_append, deallocateScattered, if_neg hpos.ne', if_neg (by unfold lcnHole; omega)]
    obtain ⟨hok, hset⟩ := ih (fun f hf => hback f (by simp [hf]))
      (fun f hf => hlen f (by simp [hf])) _ (Clusters.deallocate_ok hm h).2
    refine ⟨hok, ?_⟩
    rw [hset, Clusters.deallocate_clusters hm]
    ext c
    simp only [mem_sdiff, mem_Ico, List.mem_toFinset, Runlist.clusters_cons, List.mem_append,
      RunlistElement.clusters, List.mem_range'_1]
    tauto

end Loops

/-- After a failure nothing stays taken but what the runlist does not have. -/
theorem Scatter.Takes.giveBack {memory : ℕ → Bool} (hm : ∀ k, memory k = true) {nr n : ℕ}
    {A lost : Finset ℕ} {w : Scatter} {s : Clusters} (h : w.Takes nr A lost s) (hok : w.Ok n) :
    AllocationOk (if w.rlsize = 0 then s
        else deallocateScattered memory (w.rl ++ [⟨w.vcn, lcnHole, 0⟩]) s).runs ∧
      clustersOf (if w.rlsize = 0 then s
        else deallocateScattered memory (w.rl ++ [⟨w.vcn, lcnHole, 0⟩]) s).runs = A ∪ lost := by
  split_ifs with hroom
  · have hnil : w.rl = [] := by
      by_contra hne
      exact hok.room hne hroom
    exact ⟨h.ordered, by simpa [hnil] using h.set⟩
  · obtain ⟨hord, hset⟩ := deallocateScattered_spec hm hok.backed
      (fun e he => (hok.contiguous.vcn_ge e he).2.1) ⟨w.vcn, lcnHole, 0⟩ rfl s h.ordered
    refine ⟨hord, ?_⟩
    rw [hset, h.set, union_sdiff_right, Finset.sdiff_eq_self_iff_disjoint, Finset.disjoint_left]
    intro c hc hcl
    exact (h.fresh c (List.mem_toFinset.mp hcl)).2 hc

/-! ### A call -/

/-- A runlist of `n` clusters of the volume outside `A`, in order and without a hole, that repeats
no cluster. -/
structure HandedOut (nr n : ℕ) (A : Finset ℕ) (rl : Runlist) : Prop where
  contiguous : Contiguous 0 rl.elements
  backed : Runlist.Backed rl.elements
  nodup : (Runlist.clusters rl.elements).Nodup
  length : (Runlist.clusters rl.elements).length = n
  fresh : ∀ c ∈ Runlist.clusters rl.elements, c < nr ∧ c ∉ A

/-- The bridge accepts such a runlist. -/
theorem HandedOut.accepted {vol : NtfsVolume} {nr n : ℕ} {A : Finset ℕ} {rl : Runlist}
    (h : HandedOut nr n A rl) (hvol : vol.nrClusters = nr) (hc : 0 < vol.clusterSize)
    (hfit : nr * vol.clusterSize ≤ int64Max) : badRunlist vol rl = false := by
  have hmax : (nr : ℤ) ≤ int64Max / vol.clusterSize := Int.le_ediv_of_mul_le hc hfit
  have hcount : ((Runlist.clusters rl.elements).length : ℤ) ≤ nr := by
    have hsub : (Runlist.clusters rl.elements).toFinset ⊆ range nr := fun c hcl =>
      mem_range.mpr (h.fresh c (List.mem_toFinset.mp hcl)).1
    have hcard := card_le_card hsub
    rw [List.toFinset_card_of_nodup h.nodup, card_range] at hcard
    exact_mod_cast hcard
  have hin : ∀ e ∈ rl.elements, 0 ≤ e.lcn ∧ 0 < e.length ∧ e.lcn + e.length ≤ nr := by
    intro e he
    have hlcn := h.backed e he
    have hpos := (h.contiguous.vcn_ge e he).2.1
    have hlast := (h.fresh (e.lcn.toNat + (e.length.toNat - 1))
      (Runlist.mem_clusters.mpr ⟨e, he, by omega, by omega⟩)).1
    omega
  have hall : ∀ (v x : ℤ) (l : List RunlistElement), 0 ≤ v → (0 ≤ x → x = v) → Contiguous v l →
      (∀ e ∈ l, e ∈ rl.elements) → badFrom vol x l = false := by
    intro v x l hv hx hl hmem
    induction l generalizing v x with
    | nil => rfl
    | cons e l ih =>
      obtain ⟨hev, hpos, -, hrest⟩ := hl
      obtain ⟨h1, -, h3⟩ := hin e (hmem e (by simp))
      have h4 := (h.contiguous.clusters_length e (hmem e (by simp))).2
      rw [badFrom, ih (v + e.length) (e.vcn + e.length) (by omega) (fun _ => by rw [hev]) hrest
        fun f hf => hmem f (by simp [hf]), Bool.or_false]
      have hhole : lcnHole = -1 := rfl
      simp only [badElement, hvol, Bool.or_eq_false_iff, Bool.and_eq_false_iff,
        decide_eq_false_iff_not]
      omega
  exact hall 0 (-1) rl.elements le_rfl (by omega) h.contiguous fun e he => he

/-- The elements before a terminator. -/
theorem Contiguous.elements_concat {v : ℤ} {rl : List RunlistElement} (h : Contiguous v rl)
    {t : RunlistElement} (ht : t.length = 0) : Runlist.elements (rl ++ [t]) = rl := by
  induction rl generalizing v with
  | nil => simp [Runlist.elements, ht]
  | cons e rl ih =>
    obtain ⟨-, hpos, -, hrest⟩ := h
    rw [Runlist.elements, List.cons_append, List.takeWhile_cons, if_pos (by simp; omega)]
    exact congrArg (e :: ·) (ih hrest)

/-- `allocate_scattered_clusters` hands out as many fresh clusters of the volume as were asked
for, and takes no others; or it hands out none and gives all back that it took. With memory for
the runlist it fails only if fewer clusters are free. -/
theorem allocateScattered_spec {memory : ℕ → Bool} (grow : ℕ → Bool)
    (hm : ∀ k, memory k = true) {nr n : ℕ} {g : Allocator} (hn : 0 < n)
    (h : AllocationOk g.list.runs) (h0 : 0 ∈ clustersOf g.list.runs) (hz : g.mftZoneEnd ≤ nr) :
    ∃ out g', allocateScattered memory grow nr n g = (out, g') ∧ AllocationOk g'.list.runs ∧
      g'.mftZoneEnd ≤ g.mftZoneEnd ∧
      (∀ rl, out = some rl → HandedOut nr n (clustersOf g.list.runs) rl ∧
        clustersOf g'.list.runs =
          clustersOf g.list.runs ∪ (Runlist.clusters rl.elements).toFinset) ∧
      (out = none → ∃ lost, clustersOf g'.list.runs = clustersOf g.list.runs ∪ lost ∧
        lost.card ≤ 1 ∧ ((∀ size, grow size = true) → lost = ∅ ∧
          (range nr \ clustersOf g.list.runs).card < n)) := by
  have hstart : Scatter.Ok n ⟨n, [], 0, 0, 0, 0⟩ :=
    ⟨trivial, by simp [Runlist.Backed], rfl, Nat.zero_add n, .inl ⟨rfl, rfl, rfl⟩, by simp⟩
  obtain ⟨b, w, g', hrun, hok, hle, hcases⟩ := scanZones_spec grow hm h0
    (g.mftZoneEnd + 1) nr ⟨n, [], 0, 0, 0, 0⟩ g (Nat.lt_succ_self _) hz le_rfl hstart hn
    ⟨h, by simp, by simp, by simp⟩ (by simp)
  have hlen : ∀ e ∈ w.rl, 0 < e.length := fun e he => (hok.contiguous.vcn_ge e he).2.1
  rw [allocateScattered, if_neg hn.ne', hrun]
  rcases hcases with ⟨rfl, hdone, htakes⟩ | hfail
  · have helements := hok.contiguous.elements_concat (t := ⟨w.vcn, 0, 0⟩) rfl
    refine ⟨_, g', rfl, htakes.ordered, hle, ?_, by simp⟩
    rintro rl ⟨⟩
    rw [helements]
    refine ⟨⟨?_, ?_, ?_, ?_, ?_⟩, by simpa using htakes.set⟩
    · rw [helements]; exact hok.contiguous
    · rw [helements]; exact hok.backed
    · rw [helements]; exact htakes.nodup
    · rw [helements, hok.length]
      have := hok.count
      omega
    · rw [helements]; simpa using htakes.fresh
  · have hlost : ∃ lost : Finset ℕ, w.Takes nr (clustersOf g.list.runs) lost g'.list ∧
        b = false ∧ lost.card ≤ 1 ∧ ((∀ size, grow size = true) → lost = ∅ ∧
          (range nr \ clustersOf g.list.runs).card < n) := by
      rcases hfail with ⟨rfl, hpos, htakes, hall⟩ | ⟨rfl, ⟨size, hsize⟩, c, htakes, -⟩
      · refine ⟨∅, htakes, rfl, by simp, fun _ => ⟨rfl, ?_⟩⟩
        have hsub : range nr \ clustersOf g.list.runs ⊆ (Runlist.clusters w.rl).toFinset := by
          intro c hc
          have hin := hall (mem_sdiff.mp hc).1
          rw [htakes.set, union_empty, mem_union] at hin
          exact hin.resolve_left (mem_sdiff.mp hc).2
        calc (range nr \ clustersOf g.list.runs).card
            ≤ (Runlist.clusters w.rl).toFinset.card := card_le_card hsub
          _ = w.vcn := by rw [List.toFinset_card_of_nodup htakes.nodup, hok.length]
          _ < n := by
            have := hok.count
            omega
      · exact ⟨{c}, htakes, rfl, by simp, fun hgrow => by simp [hgrow] at hsize⟩
    obtain ⟨lost, htakes, rfl, hone, hmemory⟩ := hlost
    obtain ⟨hord, hset⟩ := htakes.giveBack hm hok
    let s' := if w.rlsize = 0 then g'.list
      else deallocateScattered memory (w.rl ++ [⟨w.vcn, lcnHole, 0⟩]) g'.list
    refine ⟨none, { g' with list := s' }, ?_, hord, hle, by simp, fun _ => ⟨lost, hset, hone,
      hmemory⟩⟩
    dsimp only [s']
    split_ifs <;> rfl

/-- With memory `allocate_scattered_clusters` succeeds exactly if as many clusters of the volume are
free, and then its runlist is one of an intact file that the bridge accepts, on clusters that were
free; the list of allocated clusters has these in addition, or is as it was. -/
theorem scatter_allocates_exactly {memory grow : ℕ → Bool} (hm : ∀ k, memory k = true)
    (hgrow : ∀ size, grow size = true) {vol : NtfsVolume} {nr n : ℕ} {g : Allocator}
    (hvol : vol.nrClusters = nr) (hc : 0 < vol.clusterSize)
    (hfit : nr * vol.clusterSize ≤ int64Max) (hn : 0 < n) (h : AllocationOk g.list.runs)
    (h0 : 0 ∈ clustersOf g.list.runs) (hz : g.mftZoneEnd ≤ nr) :
    ((allocateScattered memory grow nr n g).1.isSome ↔
      n ≤ (range nr \ clustersOf g.list.runs).card) ∧
    (∀ rl, (allocateScattered memory grow nr n g).1 = some rl → badRunlist vol rl = false ∧
      Runlist.Ok vol.clusterSize rl.elements ∧ HandedOut nr n (clustersOf g.list.runs) rl) ∧
    clustersOf (allocateScattered memory grow nr n g).2.list.runs = clustersOf g.list.runs ∪
      ((allocateScattered memory grow nr n g).1.map fun rl =>
        (Runlist.clusters rl.elements).toFinset).getD ∅ := by
  obtain ⟨out, g', hrun, -, -, hsome, hnone⟩ := allocateScattered_spec grow hm hn h h0 hz
  rw [hrun]
  dsimp only
  cases out with
  | none =>
    obtain ⟨lost, hset, -, hmem⟩ := hnone rfl
    obtain ⟨rfl, hfew⟩ := hmem hgrow
    refine ⟨⟨by simp, fun hle => absurd hle (not_le.mpr hfew)⟩, by simp, ?_⟩
    simpa using hset
  | some rl =>
    obtain ⟨hout, hset⟩ := hsome rl rfl
    refine ⟨⟨fun _ => ?_, fun _ => rfl⟩, ?_, hset⟩
    · have hsub : (Runlist.clusters rl.elements).toFinset ⊆ range nr \ clustersOf g.list.runs := by
        intro c hcl
        obtain ⟨h1, h2⟩ := hout.fresh c (List.mem_toFinset.mp hcl)
        exact mem_sdiff.mpr ⟨mem_range.mpr h1, h2⟩
      have hcard := card_le_card hsub
      rwa [List.toFinset_card_of_nodup hout.nodup, hout.length] at hcard
    · rintro _ ⟨⟩
      exact ⟨hout.accepted hvol hc hfit, .of_nodup hc hout.contiguous hout.backed hout.nodup, hout⟩

/-- A volume of twelve clusters, of which 0, 1, 2 and 6 are taken; the bits behind its end are
set. -/
def twelveClusters : Allocator := ⟨⟨[⟨0, 3⟩, ⟨6, 1⟩, ⟨12, 52⟩], 0⟩, 5⟩

theorem twelveClusters_ok : AllocationOk twelveClusters.list.runs :=
  ⟨by simp [twelveClusters], by simp [twelveClusters, ClusterRun.stop]⟩

/-- The zone above cluster 5 has six free clusters, so that the seventh comes from below. -/
theorem scatter_allocates_exactly_seven :
    (allocateScattered (fun _ => true) (fun _ => true) 12 7 twelveClusters).1 =
      some [⟨0, 5, 1⟩, ⟨1, 7, 5⟩, ⟨6, 3, 1⟩, ⟨7, 0, 0⟩] ∧
    badRunlist ⟨4096, 12, false⟩ [⟨0, 5, 1⟩, ⟨1, 7, 5⟩, ⟨6, 3, 1⟩, ⟨7, 0, 0⟩] = false := by
  have hrun : (allocateScattered (fun _ => true) (fun _ => true) 12 7 twelveClusters).1 =
      some [⟨0, 5, 1⟩, ⟨1, 7, 5⟩, ⟨6, 3, 1⟩, ⟨7, 0, 0⟩] := by decide +kernel
  obtain ⟨-, hall, -⟩ := @scatter_allocates_exactly (fun _ => true) (fun _ => true)
    (fun _ => rfl) (fun _ => rfl) ⟨4096, 12, false⟩ 12 7 twelveClusters rfl (by decide) (by decide)
    (by decide) twelveClusters_ok (by decide +kernel) (by decide)
  exact ⟨hrun, (hall _ hrun).1⟩

/-! ### One file after the other -/

/-- A call, with what `realloc` grants it. -/
structure ScatterCall where
  clusters : ℕ
  grow : ℕ → Bool

def Allocator.step (memory : ℕ → Bool) (nrClusters : ℕ) (g : Allocator) (c : ScatterCall) :
    Option Runlist × Allocator :=
  allocateScattered memory c.grow nrClusters c.clusters g

/-- The clusters of the runlists that were handed out, one after the other. -/
def handedOut (outs : List (Option Runlist)) : List ℕ :=
  outs.flatMap fun out => (out.map fun rl => Runlist.clusters rl.elements).getD []

/-- One call, also of no clusters at all. -/
theorem Allocator.step_spec {memory : ℕ → Bool} (hm : ∀ k, memory k = true) {nr : ℕ}
    {g : Allocator} (h : AllocationOk g.list.runs) (h0 : 0 ∈ clustersOf g.list.runs)
    (hz : g.mftZoneEnd ≤ nr) (c : ScatterCall) :
    AllocationOk (g.step memory nr c).2.list.runs ∧ (g.step memory nr c).2.mftZoneEnd ≤ nr ∧
      (handedOut [(g.step memory nr c).1]).Nodup ∧
      (∀ k ∈ handedOut [(g.step memory nr c).1], k < nr ∧ k ∉ clustersOf g.list.runs) ∧
      ∃ lost, clustersOf (g.step memory nr c).2.list.runs =
          clustersOf g.list.runs ∪ lost ∪ (handedOut [(g.step memory nr c).1]).toFinset ∧
        ((∀ size, c.grow size = true) ∨ (g.step memory nr c).1 ≠ none → lost = ∅) := by
  rw [Allocator.step]
  rcases Nat.eq_zero_or_pos c.clusters with hc | hc
  · rw [allocateScattered, if_pos hc]
    exact ⟨h, hz, by simp [handedOut], by simp [handedOut], ∅, by simp [handedOut], fun _ => rfl⟩
  · obtain ⟨out, g', hrun, hok, hle, hsome, hnone⟩ :=
      allocateScattered_spec c.grow hm hc h h0 hz
    rw [hrun]
    dsimp only
    refine ⟨hok, hle.trans hz, ?_⟩
    cases out with
    | none =>
      obtain ⟨lost, hset, -, hmem⟩ := hnone rfl
      exact ⟨by simp [handedOut], by simp [handedOut], lost, by simpa [handedOut] using hset,
        fun h => h.elim (fun hgrow => (hmem hgrow).1) fun h => absurd rfl h⟩
    | some rl =>
      obtain ⟨hout, hset⟩ := hsome rl rfl
      exact ⟨by simpa [handedOut] using hout.nodup, by simpa [handedOut] using hout.fresh, ∅,
        by simpa [handedOut] using hset, fun _ => rfl⟩

/-- However many files are created, whichever of them fail, where every list node gets its memory:
no cluster is handed out twice, none that was allocated before, and none outside the volume. What is allocated at the end is what was
before, what was handed out, and what calls that failed for want of memory have lost. -/
theorem scattered_files_apart {memory : ℕ → Bool} (hm : ∀ k, memory k = true) {nr : ℕ}
    (calls : List ScatterCall) : ∀ g : Allocator, AllocationOk g.list.runs →
      0 ∈ clustersOf g.list.runs → g.mftZoneEnd ≤ nr →
      (handedOut (answers (Allocator.step memory nr) calls g)).Nodup ∧
      (∀ k ∈ handedOut (answers (Allocator.step memory nr) calls g),
        k < nr ∧ k ∉ clustersOf g.list.runs) ∧
      AllocationOk (execAll (Allocator.step memory nr) calls g).list.runs ∧
      ∃ lost, clustersOf (execAll (Allocator.step memory nr) calls g).list.runs =
          clustersOf g.list.runs ∪ lost ∪
            (handedOut (answers (Allocator.step memory nr) calls g)).toFinset ∧
        ((∀ c ∈ calls, ∀ size, c.grow size = true) ∨
          none ∉ answers (Allocator.step memory nr) calls g → lost = ∅) := by
  induction calls with
  | nil =>
    intro g h _ _
    exact ⟨by simp [handedOut, answers], by simp [handedOut, answers], h, ∅,
      by simp [handedOut, answers, execAll], fun _ => rfl⟩
  | cons c calls ih =>
    intro g h h0 hz
    obtain ⟨hok, hz', hnodup, hfresh, lost, hset, hlost⟩ := Allocator.step_spec hm h h0 hz c
    have h0' : 0 ∈ clustersOf (g.step memory nr c).2.list.runs := by
      rw [hset]
      simp [h0]
    obtain ⟨hnodup', hfresh', hok', lost', hset', hlost'⟩ := ih _ hok h0' hz'
    have hsplit : handedOut (answers (Allocator.step memory nr) (c :: calls) g) =
        handedOut [(g.step memory nr c).1] ++
          handedOut (answers (Allocator.step memory nr) calls (g.step memory nr c).2) := by
      simp [handedOut, answers]
    have hlater : ∀ k ∈ handedOut (answers (Allocator.step memory nr) calls (g.step memory nr c).2),
        k < nr ∧ k ∉ clustersOf g.list.runs ∧ k ∉ handedOut [(g.step memory nr c).1] := by
      intro k hk
      obtain ⟨h1, h2⟩ := hfresh' k hk
      rw [hset] at h2
      simp only [mem_union, List.mem_toFinset, not_or] at h2
      exact ⟨h1, h2.1.1, h2.2⟩
    refine ⟨?_, ?_, hok', lost ∪ lost', ?_, ?_⟩
    · rw [hsplit]
      refine List.nodup_append.mpr ⟨hnodup, hnodup', ?_⟩
      rintro a ha b hb rfl
      exact (hlater a hb).2.2 ha
    · intro k hk
      rw [hsplit] at hk
      rcases List.mem_append.mp hk with hk | hk
      · exact hfresh k hk
      · exact ⟨(hlater k hk).1, (hlater k hk).2.1⟩
    · rw [execAll, hset', hset, hsplit]
      ext k
      simp only [mem_union, List.mem_toFinset, List.mem_append]
      tauto
    · rw [answers, List.mem_cons, not_or]
      rintro (hgrow | ⟨hsome, hrest⟩)
      · rw [hlost (.inl (hgrow c (by simp))), hlost' (.inl fun d hd => hgrow d (by simp [hd])),
          union_empty]
      · rw [hlost (.inr (Ne.symm hsome)), hlost' (.inr hrest), union_empty]

/-- Of three files the second is larger than what is left; the zone is used up by it, so that the
third is laid out from the front. -/
theorem scattered_files_apart_three :
    answers (Allocator.step (fun _ => true) 12)
        [⟨3, fun _ => true⟩, ⟨9, fun _ => true⟩, ⟨5, fun _ => true⟩] twelveClusters =
      [some [⟨0, 5, 1⟩, ⟨1, 7, 2⟩, ⟨3, 0, 0⟩], none, some [⟨0, 3, 2⟩, ⟨2, 9, 3⟩, ⟨5, 0, 0⟩]] ∧
    (handedOut (answers (Allocator.step (fun _ => true) 12)
      [⟨3, fun _ => true⟩, ⟨9, fun _ => true⟩, ⟨5, fun _ => true⟩] twelveClusters)).Nodup :=
  ⟨by decide +kernel, (scattered_files_apart (fun _ => rfl) _ twelveClusters twelveClusters_ok
    (by decide +kernel) (by decide)).1⟩

end NtfsKit
