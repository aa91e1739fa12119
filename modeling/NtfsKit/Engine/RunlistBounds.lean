import NtfsKit.Engine.Runlist

/-! The numbers behind a runlist that `bad_runlist` accepts. The check divides where later
code multiplies, so that it does not overflow itself. It bounds the attribute's side of a run
by the largest number of 64 bits; on the volume's side it only asks for the volume's clusters,
whose number comes from the boot sector. -/

namespace NtfsKit

/-- The values of an `s64`. -/
def InInt64 (x : ℤ) : Prop := -2 ^ 63 ≤ x ∧ x ≤ int64Max

instance (x : ℤ) : Decidable (InInt64 x) := inferInstanceAs (Decidable (_ ∧ _))

/-- A runlist as C holds it: any values of 64 bits. -/
def Runlist.Fields64 (rl : Runlist) : Prop :=
  ∀ e ∈ rl, InInt64 e.vcn ∧ InInt64 e.lcn ∧ InInt64 e.length

instance (rl : Runlist) : Decidable rl.Fields64 := inferInstanceAs (Decidable (∀ e ∈ rl, _))

/-- A volume as C holds it: `cluster_size` has 32 bits, `nr_clusters` has 64. -/
structure NtfsVolume.Fields (vol : NtfsVolume) : Prop where
  clusterSize_pos : 0 < vol.clusterSize
  clusterSize_lt : vol.clusterSize < 2 ^ 32
  nrClusters_nonneg : 0 ≤ vol.nrClusters
  nrClusters_le : vol.nrClusters ≤ int64Max

/-! ### The check in 64 bits -/

/-- The value of a sum or difference in 64 bits. -/
def wrap64 (x : ℤ) : ℤ := x.bmod (2 ^ 64)

theorem wrap64_eq {x : ℤ} (h : InInt64 x) : wrap64 x = x := by
  obtain ⟨h1, h2⟩ := h
  unfold int64Max at h2
  exact Int.bmod_eq_of_le (by omega) (by omega)

/-- `badElement`, every difference taken in 64 bits. -/
def badElement64 (vol : NtfsVolume) (expectVcn : ℤ) (e : RunlistElement) : Bool :=
  let csize := vol.clusterSize
  e.lcn < lcnHole ||
  (e.length ≤ 0 || e.vcn < 0 || e.vcn > int64Max / csize || e.length > int64Max / csize ||
    e.length > wrap64 (int64Max / csize - e.vcn)) ||
  (0 ≤ e.lcn && (e.lcn ≥ vol.nrClusters || e.lcn > int64Max / csize ||
    e.length > wrap64 (vol.nrClusters - e.lcn))) ||
  (0 ≤ expectVcn && e.vcn ≠ expectVcn)

def badFrom64 (vol : NtfsVolume) : ℤ → List RunlistElement → Bool
  | _, [] => false
  | expectVcn, e :: rl =>
    badElement64 vol expectVcn e || badFrom64 vol (wrap64 (e.vcn + e.length)) rl

def badRunlist64 (vol : NtfsVolume) (rl : Runlist) : Bool := badFrom64 vol (-1) rl.elements

section

variable {vol : NtfsVolume} (hv : vol.Fields)
include hv

/-- The largest number of clusters that `bad_runlist` allows for the attribute's side. -/
theorem NtfsVolume.Fields.quotient : 0 ≤ int64Max / vol.clusterSize ∧
    int64Max / vol.clusterSize ≤ int64Max :=
  ⟨Int.ediv_nonneg (by decide) hv.clusterSize_pos.le, Int.ediv_le_self _ (by decide)⟩

/-- A difference is only taken where the comparisons before it keep it in range. -/
theorem badElement64_eq (x : ℤ) (e : RunlistElement) :
    badElement64 vol x e = badElement vol x e := by
  obtain ⟨hq0, hq⟩ := hv.quotient
  have hn := hv.nrClusters_le
  have hmax : int64Max = 2 ^ 63 - 1 := rfl
  have hvcn : ¬ e.vcn < 0 → ¬ e.vcn > int64Max / vol.clusterSize →
      wrap64 (int64Max / vol.clusterSize - e.vcn) = int64Max / vol.clusterSize - e.vcn :=
    fun h1 h2 => wrap64_eq ⟨by omega, by omega⟩
  have hlcn : 0 ≤ e.lcn → ¬ e.lcn ≥ vol.nrClusters →
      wrap64 (vol.nrClusters - e.lcn) = vol.nrClusters - e.lcn :=
    fun h1 h2 => wrap64_eq ⟨by omega, by omega⟩
  unfold badElement64 badElement
  dsimp only
  congr 2
  · congr 1
    by_cases h1 : e.vcn < 0
    · simp [h1]
    by_cases h2 : e.vcn > int64Max / vol.clusterSize
    · simp [h2]
    rw [hvcn h1 h2]
  · by_cases h1 : 0 ≤ e.lcn
    · by_cases h2 : e.lcn ≥ vol.nrClusters
      · simp [h2]
      rw [hlcn h1 h2]
    · simp [h1]

/-- The end of an accepted run is within 64 bits, so the next comparison is exact as well. -/
theorem badFrom64_eq : ∀ (x : ℤ) (rl : List RunlistElement), badFrom64 vol x rl = badFrom vol x rl
  | _, [] => rfl
  | x, e :: rl => by
    obtain ⟨hq0, hq⟩ := hv.quotient
    rw [badFrom64, badFrom, badElement64_eq hv]
    cases he : badElement vol x e with
    | true => rfl
    | false =>
      have hstop : InInt64 (e.vcn + e.length) := by
        obtain ⟨-, ⟨hlen, hvcn, hend⟩, -⟩ := badElement_eq_false he
        have hmax : int64Max = 2 ^ 63 - 1 := rfl
        exact ⟨by omega, by omega⟩
      rw [wrap64_eq hstop, badFrom64_eq]

/-- The check does not overflow itself. -/
theorem badRunlist64_eq (rl : Runlist) : badRunlist64 vol rl = badRunlist vol rl :=
  badFrom64_eq hv (-1) rl.elements

end

/-! ### What an accepted element leaves -/

variable {vol : NtfsVolume} {e : RunlistElement} {rl : Runlist}

/-- What `bad_runlist` has checked of an element it lets through. -/
structure RunlistElement.Checked (vol : NtfsVolume) (e : RunlistElement) : Prop where
  lcn_ge : lcnHole ≤ e.lcn
  vcn_nonneg : 0 ≤ e.vcn
  length_pos : 0 < e.length
  stop_le : e.vcn + e.length ≤ int64Max / vol.clusterSize
  lcn_le : e.lcn ≤ int64Max / vol.clusterSize
  inside : 0 ≤ e.lcn → e.lcn + e.length ≤ vol.nrClusters

theorem badElement_checked {x : ℤ} (hq : 0 ≤ int64Max / vol.clusterSize)
    (h : badElement vol x e = false) : e.Checked vol ∧ (0 ≤ x → e.vcn = x) := by
  obtain ⟨hlcn, ⟨hlen, hvcn, hstop⟩, hrun, hnext⟩ := badElement_eq_false h
  refine ⟨⟨hlcn, hvcn, hlen, hstop, ?_, fun h0 => (hrun h0).2⟩, hnext⟩
  by_cases h0 : 0 ≤ e.lcn
  · exact (hrun h0).1
  · omega

theorem badFrom_checked (hq : 0 ≤ int64Max / vol.clusterSize) : ∀ (x : ℤ)
    (rl : List RunlistElement), badFrom vol x rl = false → (∀ e ∈ rl, e.Checked vol) ∧
      (0 ≤ x → ∀ e ∈ rl.head?, e.vcn = x) ∧
      rl.IsChain fun d e => e.vcn = d.vcn + d.length
  | _, [], _ => ⟨fun _ he => absurd he List.not_mem_nil, fun _ _ he => (by cases he), .nil⟩
  | x, d :: rl, h => by
    rw [badFrom, Bool.or_eq_false_iff] at h
    obtain ⟨hd, hx⟩ := badElement_checked hq h.1
    obtain ⟨hall, hhead, hchain⟩ := badFrom_checked hq (d.vcn + d.length) rl h.2
    have h0 := hd.vcn_nonneg
    have hpos := hd.length_pos
    refine ⟨List.forall_mem_cons.mpr ⟨hd, hall⟩, fun hx0 e he => ?_, ?_⟩
    · obtain rfl := Option.some.inj he
      exact hx hx0
    · rw [List.isChain_cons]
      exact ⟨fun e he => hhead (by omega) e he, hchain⟩

/-! ### What later code computes -/

/-- Every number that `zero_raw`, the scan for holes and the extent loop compute from an
element has 64 bits. -/
structure RunlistElement.NoOverflow (csize : ℤ) (e : RunlistElement) : Prop where
  log : InInt64 (e.vcn * csize)
  len : InInt64 (e.length * csize)
  stop : InInt64 (e.vcn * csize + e.length * csize)
  phys : InInt64 (e.lcn * csize)
  inner : 0 ≤ e.lcn → ∀ d, 0 ≤ d → d ≤ e.length * csize → InInt64 (e.lcn * csize + d)

/-- What is promised of an accepted runlist. -/
structure Runlist.Exact (vol : NtfsVolume) (rl : Runlist) : Prop where
  noOverflow : ∀ e ∈ rl.elements, e.NoOverflow vol.clusterSize
  inside : ∀ e ∈ rl.elements, 0 ≤ e.lcn → e.lcn + e.length ≤ vol.nrClusters
  contiguous : rl.elements.IsChain fun d e => e.vcn = d.vcn + d.length

/-- Every allocated run ends within the clusters whose bytes 64 bits can count. -/
def Runlist.EndsBelow (vol : NtfsVolume) (rl : Runlist) : Prop :=
  ∀ e ∈ rl.elements, 0 ≤ e.lcn → e.lcn + e.length ≤ int64Max / vol.clusterSize

instance (vol : NtfsVolume) (rl : Runlist) : Decidable (rl.EndsBelow vol) :=
  inferInstanceAs (Decidable (∀ e ∈ rl.elements, _))

section

variable (hv : vol.Fields)
include hv

theorem inInt64_mul {n : ℤ} (h0 : 0 ≤ n) (hle : n ≤ int64Max / vol.clusterSize) :
    InInt64 (n * vol.clusterSize) := by
  have hpos : 0 ≤ n * vol.clusterSize := mul_nonneg h0 hv.clusterSize_pos.le
  exact ⟨by omega, (Int.le_ediv_iff_mul_le hv.clusterSize_pos).mp hle⟩

theorem RunlistElement.Checked.noOverflow (h : e.Checked vol)
    (hend : 0 ≤ e.lcn → e.lcn + e.length ≤ int64Max / vol.clusterSize) :
    e.NoOverflow vol.clusterSize := by
  have h1 := h.vcn_nonneg
  have h2 := h.length_pos
  have h3 := h.stop_le
  refine ⟨inInt64_mul hv h1 (by omega), inInt64_mul hv h2.le (by omega), ?_, ?_, fun h0 d hd hle => ?_⟩
  · rw [← add_mul]
    exact inInt64_mul hv (by omega) h3
  · by_cases h0 : 0 ≤ e.lcn
    · exact inInt64_mul hv h0 h.lcn_le
    · -- a hole
      have hge := h.lcn_ge
      unfold lcnHole at hge
      have hlcn : e.lcn = -1 := by omega
      have hlt := hv.clusterSize_lt
      have hpos := hv.clusterSize_pos
      have hmax : int64Max = 2 ^ 63 - 1 := rfl
      rw [hlcn]
      exact ⟨by omega, by omega⟩
  · have hlow := (inInt64_mul hv h0 h.lcn_le).1
    have hhigh : InInt64 (e.lcn * vol.clusterSize + e.length * vol.clusterSize) := by
      rw [← add_mul]
      exact inInt64_mul hv (by omega) (hend h0)
    exact ⟨by omega, by have := hhigh.2; omega⟩

/-- An accepted runlist keeps the promise exactly when its runs end where 64 bits reach. -/
theorem exact_iff_endsBelow (hok : badRunlist vol rl = false) :
    rl.Exact vol ↔ rl.EndsBelow vol := by
  obtain ⟨hall, -, hchain⟩ := badFrom_checked hv.quotient.1 (-1) rl.elements hok
  constructor
  · intro h e he h0
    have hlen := (hall e he).length_pos
    have hpos : 0 ≤ e.length * vol.clusterSize := mul_nonneg hlen.le hv.clusterSize_pos.le
    have hin := (h.noOverflow e he).inner h0 _ hpos le_rfl
    rw [Int.le_ediv_iff_mul_le hv.clusterSize_pos, add_mul]
    exact hin.2
  · intro h
    exact ⟨fun e he => (hall e he).noOverflow hv (h e he), fun e he => (hall e he).inside, hchain⟩

/-- One run that starts at cluster 1 and ends one cluster further than 64 bits reach. -/
def farRun (vol : NtfsVolume) : Runlist := [⟨0, 1, int64Max / vol.clusterSize⟩]

/-- Such a run is accepted wherever the volume has that many clusters. -/
theorem farRun_accepted (hn : int64Max / vol.clusterSize < vol.nrClusters) :
    (farRun vol).Fields64 ∧ badRunlist vol (farRun vol) = false ∧
      ¬ (farRun vol).EndsBelow vol := by
  obtain ⟨hq0, hq⟩ := hv.quotient
  have hlt := hv.clusterSize_lt
  have hq1 : 1 ≤ int64Max / vol.clusterSize := by
    rw [Int.le_ediv_iff_mul_le hv.clusterSize_pos]
    unfold int64Max
    omega
  have helem : (farRun vol).elements = farRun vol := by
    rw [Runlist.elements, farRun, List.takeWhile_cons, if_pos (by simp; omega)]
    rfl
  have hmax : int64Max = 2 ^ 63 - 1 := rfl
  refine ⟨?_, ?_, fun h => ?_⟩
  · intro e he
    obtain rfl := List.mem_singleton.mp he
    refine ⟨?_, ?_, ?_⟩ <;> exact ⟨by dsimp only; omega, by dsimp only; omega⟩
  · rw [badRunlist, helem, farRun, badFrom, badFrom, Bool.or_false]
    simp only [badElement, lcnHole]
    simp
    omega
  · have := h ⟨0, 1, int64Max / vol.clusterSize⟩ (by rw [helem]; exact List.mem_singleton_self _)
      Int.one_nonneg
    dsimp only at this
    omega

end

/-- The arithmetic of an accepted runlist is exact if and only if each of its allocated runs
ends within the clusters whose bytes 64 bits can count. On a volume this holds of all of them
if and only if the volume has no more clusters than that. -/
theorem accepted_runlist_exact_iff (hv : vol.Fields) :
    (∀ rl : Runlist, rl.Fields64 → ((badRunlist vol rl = false → rl.Exact vol) ↔
      (badRunlist vol rl = false → rl.EndsBelow vol))) ∧
    ((∀ rl : Runlist, rl.Fields64 → badRunlist vol rl = false → rl.Exact vol) ↔
      vol.nrClusters ≤ int64Max / vol.clusterSize) := by
  refine ⟨fun rl _ => forall_congr' fun hok => exact_iff_endsBelow hv hok, fun h => ?_,
    fun hn rl _ hok => ?_⟩
  · by_contra hlt
    obtain ⟨hfields, hok, hfar⟩ := farRun_accepted hv (not_le.mp hlt)
    exact hfar ((exact_iff_endsBelow hv hok).mp (h _ hfields hok))
  · obtain ⟨hall, -, -⟩ := badFrom_checked hv.quotient.1 (-1) rl.elements hok
    exact (exact_iff_endsBelow hv hok).mpr fun e he h0 => ((hall e he).inside h0).trans hn

/-- A volume of 64 clusters, and a file of two runs on it. -/
theorem accepted_runlist_exact_small :
    Runlist.Exact ⟨4096, 64, false⟩ [⟨0, 8, 4⟩, ⟨4, -1, 2⟩, ⟨6, 60, 4⟩] :=
  ((@accepted_runlist_exact_iff ⟨4096, 64, false⟩ (by constructor <;> decide)).2.mpr
    (by decide)) _ (by decide) (by decide)

/-- `2 ^ 52` clusters of 4096 bytes: the second cluster of an accepted run is at `2 ^ 63`. -/
theorem accepted_run_overflows :
    badRunlist ⟨4096, 2 ^ 52, false⟩ [⟨0, 2 ^ 51 - 1, 2 ^ 51 - 1⟩] = false ∧
    Runlist.Fields64 [⟨0, 2 ^ 51 - 1, 2 ^ 51 - 1⟩] ∧
    ¬ Runlist.Exact ⟨4096, 2 ^ 52, false⟩ [⟨0, 2 ^ 51 - 1, 2 ^ 51 - 1⟩] := by
  refine ⟨by decide, by decide, fun h => ?_⟩
  have hin := (h.noOverflow ⟨0, 2 ^ 51 - 1, 2 ^ 51 - 1⟩ (by decide)).inner (by decide) 4096
    (by decide) (by decide)
  exact absurd hin (by decide)

end NtfsKit
