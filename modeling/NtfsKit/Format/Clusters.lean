import NtfsKit.Format.Mkntfs
import NtfsKit.Lib.Run

/-! The list of allocated clusters as a set. The formatter keeps no bitmap while it works: it
keeps a list of runs, into which `bitmap_allocate` enters a run, `bitmap_deallocate` cuts a gap
and `bitmap_get_and_set` asks for one cluster and takes it. As long as no run is entered twice
the list is in order and apart, and the three are the operations of a set. -/

namespace NtfsKit

open Finset

/-- The allocator: its list, and how often it has asked for a node. -/
structure Clusters where
  runs : List ClusterRun
  mallocs : ℕ
  deriving DecidableEq

section Operations

-- whether the `k`-th request for a node is met
variable (memory : ℕ → Bool)

/-- `bitmap_allocate`. -/
def Clusters.allocate (lcn length : ℕ) (s : Clusters) : Bool × Clusters :=
  let r := allocateIn (memory s.mallocs) lcn length s.runs
  (r.1, ⟨r.2, s.mallocs + 1⟩)

/-- The run has a portion in common with the clusters from `lcn` to `stop`. -/
def ClusterRun.meets (lcn stop : ℕ) (p : ClusterRun) : Bool := max p.lcn lcn < min p.stop stop

/-- The rounds of `bitmap_deallocate`: each deletes the first run that has a common portion and
enters again what is kept of it. A round leaves one such run less. -/
def Clusters.deallocateRounds (lcn stop : ℕ) : ℕ → Clusters → Bool × Clusters
  | 0, s => (true, s)
  | fuel + 1, s =>
    match s.runs.find? (ClusterRun.meets lcn stop) with
    | none => (true, s)
    | some p =>
      let first := max p.lcn lcn
      let last := min p.stop stop
      let s := { s with runs := s.runs.eraseP (ClusterRun.meets lcn stop) }
      let b := s.allocate memory (first - (first - p.lcn)) (first - p.lcn)
      let e := b.2.allocate memory last (p.stop - last)
      let r := Clusters.deallocateRounds lcn stop fuel e.2
      (b.1 && e.1 && r.1, r.2)

/-- `bitmap_deallocate`. -/
def Clusters.deallocate (lcn length : ℕ) (s : Clusters) : Bool × Clusters :=
  s.deallocateRounds memory lcn (lcn + length) s.runs.length

/-- `bitmap_get_and_set` of a single cluster. The result of `bitmap_allocate` is not looked
at. -/
def Clusters.getAndSet (lcn : ℕ) (s : Clusters) : Bool × Clusters :=
  match (s.runs.takeWhile (·.lcn ≤ lcn)).getLast? with
  | some q => if lcn < q.stop then (true, s) else (false, (s.allocate memory lcn 1).2)
  | none => (false, (s.allocate memory lcn 1).2)

end Operations

theorem ClusterRun.meets_iff {lcn stop : ℕ} {p : ClusterRun} :
    p.meets lcn stop = true ↔ max p.lcn lcn < min p.stop stop := by
  simp [ClusterRun.meets]

/-! ### The set -/

/-- The clusters of a list of runs. -/
def clustersOf : List ClusterRun → Finset ℕ
  | [] => ∅
  | r :: l => Ico r.lcn r.stop ∪ clustersOf l

@[simp] theorem clustersOf_nil : clustersOf [] = ∅ := rfl

@[simp] theorem clustersOf_cons (r : ClusterRun) (l : List ClusterRun) :
    clustersOf (r :: l) = Ico r.lcn r.stop ∪ clustersOf l := rfl

@[simp] theorem clustersOf_append (l k : List ClusterRun) :
    clustersOf (l ++ k) = clustersOf l ∪ clustersOf k := by
  induction l with
  | nil => simp
  | cons r l ih => simp [ih, union_assoc]

theorem mem_clustersOf {l : List ClusterRun} {c : ℕ} :
    c ∈ clustersOf l ↔ ∃ r ∈ l, r.lcn ≤ c ∧ c < r.stop := by
  induction l with
  | nil => simp
  | cons r l ih => simp [ih]

/-- The runs are not empty, in order, and no two share a cluster. -/
structure AllocationOk (l : List ClusterRun) : Prop where
  positive : ∀ r ∈ l, 0 < r.length
  apart : l.Pairwise fun r s => r.stop ≤ s.lcn

/-! ### Entering a run -/

section Allocate

variable {lcn length c : ℕ} {l : List ClusterRun}

/-- The list is split at the first run that begins beyond `lcn`. -/
theorem runs_split (lcn : ℕ) (l : List ClusterRun) :
    (∀ r ∈ l.takeWhile (·.lcn ≤ lcn), r.lcn ≤ lcn) ∧
      ∀ r ∈ (l.dropWhile (·.lcn ≤ lcn)).head?, lcn < r.lcn := by
  constructor
  · intro r hr
    simpa using List.all_eq_true.mp List.all_takeWhile r hr
  · intro r hr
    have hhead := List.head?_dropWhile_not (·.lcn ≤ lcn) l
    rw [Option.mem_def.mp hr] at hhead
    simpa using hhead

/-- What `allocateIn` does to the list: the new run extends the one it follows, or stands behind
the runs that begin before it. -/
theorem allocateIn_cases (lcn : ℕ) (hlen : 0 < length) (l : List ClusterRun) :
    ∃ before after, l = before ++ after ∧ (∀ r ∈ before, r.lcn ≤ lcn) ∧
      (∀ r ∈ after.head?, lcn < r.lcn) ∧
      (allocateIn true lcn length l).1 = !(before.getLast?.any (lcn < ·.stop) ||
        after.head?.any (·.lcn < lcn + length)) ∧
      ((∃ front q, before = front ++ [q] ∧ q.stop = lcn ∧
          (allocateIn true lcn length l).2 = front ++ ⟨q.lcn, q.length + length⟩ :: after) ∨
        ((∀ q ∈ before.getLast?, q.stop ≠ lcn) ∧
          (allocateIn true lcn length l).2 = before ++ ⟨lcn, length⟩ :: after)) := by
  have hl : l = l.takeWhile (·.lcn ≤ lcn) ++ l.dropWhile (·.lcn ≤ lcn) :=
    List.takeWhile_append_dropWhile.symm
  obtain ⟨hbefore, hafter⟩ := runs_split lcn l
  rw [allocateIn, if_neg (by omega)]
  generalize l.takeWhile (·.lcn ≤ lcn) = before at hl hbefore ⊢
  generalize l.dropWhile (·.lcn ≤ lcn) = after at hl hafter ⊢
  refine ⟨before, after, hl, hbefore, hafter, ?_⟩
  cases hlast : before.getLast? with
  | none =>
    simp only [hlast]
    exact ⟨rfl, .inr ⟨by simp, rfl⟩⟩
  | some q =>
    obtain ⟨front, hfront⟩ := List.getLast?_eq_some_iff.mp hlast
    simp only [hlast]
    by_cases hq : q.stop = lcn
    · simp only [hq, if_true]
      refine ⟨by simp, .inl ⟨front, q, hfront, hq, ?_⟩⟩
      rw [hfront, List.dropLast_concat]
    · simp only [hq, if_false]
      exact ⟨rfl, .inr ⟨by simpa using hq, rfl⟩⟩

/-- Entering a run adds its clusters, whatever the list. -/
theorem clustersOf_allocateIn :
    clustersOf (allocateIn true lcn length l).2 = clustersOf l ∪ Ico lcn (lcn + length) := by
  rcases Nat.eq_zero_or_pos length with rfl | hlen
  · simp [allocateIn]
  obtain ⟨before, after, hl, -, -, -, h⟩ := allocateIn_cases lcn hlen l
  rcases h with ⟨front, q, hbefore, rfl, h⟩ | ⟨-, h⟩
  · have hjoin : Ico q.lcn (q.stop + length) = Ico q.lcn q.stop ∪ Ico q.stop (q.stop + length) :=
      (Ico_union_Ico_eq_Ico (Nat.le_add_right _ _) (Nat.le_add_right _ _)).symm
    rw [h, hl, hbefore]
    simp only [clustersOf_append, clustersOf_cons, clustersOf_nil, ClusterRun.stop, ← add_assoc]
      at hjoin ⊢
    rw [hjoin]
    ext c
    simp only [mem_union]
    tauto
  · rw [h, hl]
    ext c
    simp only [clustersOf_append, clustersOf_cons, ClusterRun.stop, mem_union]
    tauto

/-- The runs of an ordered list behind its first are behind all of it. -/
theorem AllocationOk.after {before after : List ClusterRun} (h : AllocationOk (before ++ after))
    (hhead : ∀ r ∈ after.head?, lcn < r.lcn) : ∀ r ∈ after, lcn < r.lcn := by
  cases after with
  | nil => simp
  | cons a after =>
    have ha : lcn < a.lcn := hhead a rfl
    intro r hr
    rcases List.mem_cons.mp hr with rfl | hr
    · exact ha
    · have hpos := h.positive a (by simp)
      have hstep := (List.pairwise_cons.mp (List.pairwise_append.mp h.apart).2.1).1 r hr
      simp only [ClusterRun.stop] at hstep
      omega

/-- Clusters are free if they fit between what begins before them and what begins behind. -/
theorem disjoint_clustersOf {before after : List ClusterRun} (hlen : 0 < length)
    (hpos : ∀ r ∈ after, 0 < r.length) (hbefore : ∀ r ∈ before, r.lcn ≤ lcn)
    (hafter : ∀ r ∈ after, lcn < r.lcn) :
    Disjoint (clustersOf (before ++ after)) (Ico lcn (lcn + length)) ↔
      (∀ r ∈ before, r.stop ≤ lcn) ∧ ∀ r ∈ after, lcn + length ≤ r.lcn := by
  simp only [Finset.disjoint_left, mem_clustersOf, mem_Ico, List.mem_append]
  constructor
  · intro h
    constructor
    · intro r hr
      by_contra hlt
      exact h ⟨r, .inl hr, hbefore r hr, by omega⟩ ⟨le_refl lcn, by omega⟩
    · intro r hr
      by_contra hlt
      have hr' := hpos r hr
      refine h ⟨r, .inr hr, le_refl r.lcn, ?_⟩ ⟨(hafter r hr).le, by omega⟩
      rw [ClusterRun.stop]
      omega
  · rintro ⟨hb, ha⟩ c ⟨r, hr | hr, h1, h2⟩ ⟨h3, h4⟩
    · have := hb r hr
      omega
    · have := ha r hr
      omega

/-- Of the runs that begin before a cluster the last one reaches farthest. -/
theorem AllocationOk.stop_le_iff {before after : List ClusterRun}
    (h : AllocationOk (before ++ after)) (hbefore : ∀ r ∈ before, r.lcn ≤ lcn) :
    (∀ r ∈ before, r.stop ≤ lcn) ↔ ∀ q ∈ before.getLast?, q.stop ≤ lcn := by
  constructor
  · intro hb q hq
    exact hb q (List.mem_of_getLast? hq)
  · intro hlast r hr
    obtain ⟨front, q, rfl⟩ := (List.eq_nil_or_concat' before).resolve_left (List.ne_nil_of_mem hr)
    rcases List.mem_append.mp hr with hr | hr
    · have hstep := (List.pairwise_append.mp (List.pairwise_append.mp h.apart).1).2.2 r hr q
        (by simp)
      exact hstep.trans (hbefore q (by simp))
    · rw [List.mem_singleton.mp hr]
      exact hlast q (by simp)

/-- On an ordered list `bitmap_allocate` succeeds exactly if the clusters are free. -/
theorem allocateIn_fst (h : AllocationOk l) :
    (allocateIn true lcn length l).1 = true ↔ Disjoint (clustersOf l) (Ico lcn (lcn + length)) := by
  rcases Nat.eq_zero_or_pos length with rfl | hlen
  · simp [allocateIn]
  obtain ⟨before, after, rfl, hbefore, hafter, hfst, -⟩ := allocateIn_cases lcn hlen l
  have hpos : ∀ r ∈ after, 0 < r.length := fun r hr => h.positive r (List.mem_append_right _ hr)
  rw [hfst, disjoint_clustersOf hlen hpos hbefore (h.after hafter)]
  simp only [Bool.not_eq_true', Bool.or_eq_false_iff, Option.any_eq_false,
    decide_eq_false_iff_not, not_lt]
  rw [h.stop_le_iff hbefore]
  refine and_congr_right fun _ => ⟨fun hhead r hr => ?_, fun ha a hhead => ?_⟩
  · cases after with
    | nil => simp at hr
    | cons a after =>
      have ha := hhead a rfl
      rcases List.mem_cons.mp hr with rfl | hr
      · exact ha
      · have hstep := (List.pairwise_cons.mp (List.pairwise_append.mp h.apart).2.1).1 r hr
        rw [ClusterRun.stop] at hstep
        omega
  · exact ha a (List.mem_of_head? hhead)

/-- Entering free clusters keeps the list in order. -/
theorem AllocationOk.allocateIn (h : AllocationOk l)
    (hfree : Disjoint (clustersOf l) (Ico lcn (lcn + length))) :
    AllocationOk (NtfsKit.allocateIn true lcn length l).2 := by
  rcases Nat.eq_zero_or_pos length with rfl | hlen
  · simpa [NtfsKit.allocateIn] using h
  obtain ⟨before, after, rfl, hbefore, hafter, -, hsnd⟩ := allocateIn_cases lcn hlen l
  have hpos : ∀ r ∈ after, 0 < r.length := fun r hr => h.positive r (List.mem_append_right _ hr)
  obtain ⟨hb, ha⟩ := (disjoint_clustersOf hlen hpos hbefore (h.after hafter)).mp hfree
  obtain ⟨hpb, hpa, hcross⟩ := List.pairwise_append.mp h.apart
  rcases hsnd with ⟨front, q, rfl, rfl, hsnd⟩ | ⟨-, hsnd⟩
  · obtain ⟨hfront, -, hlast⟩ := List.pairwise_append.mp hpb
    rw [hsnd]
    constructor
    · intro r hr
      rcases List.mem_append.mp hr with hr | hr
      · exact h.positive r (by simp [hr])
      · rcases List.mem_cons.mp hr with rfl | hr
        · exact Nat.add_pos_right _ hlen
        · exact hpos r hr
    · refine List.pairwise_append.mpr ⟨hfront, List.pairwise_cons.mpr ⟨?_, hpa⟩, ?_⟩
      · intro r hr
        have := ha r hr
        simp only [ClusterRun.stop] at this ⊢
        omega
      · intro r hr s hs
        rcases List.mem_cons.mp hs with rfl | hs
        · exact hlast r hr q (by simp)
        · exact hcross r (by simp [hr]) s hs
  · rw [hsnd]
    constructor
    · intro r hr
      rcases List.mem_append.mp hr with hr | hr
      · exact h.positive r (by simp [hr])
      · rcases List.mem_cons.mp hr with rfl | hr
        · exact hlen
        · exact hpos r hr
    · refine List.pairwise_append.mpr ⟨hpb, List.pairwise_cons.mpr ⟨fun r hr => ha r hr, hpa⟩, ?_⟩
      intro r hr s hs
      rcases List.mem_cons.mp hs with rfl | hs
      · exact hb r hr
      · exact hcross r hr s hs

end Allocate

/-! ### The operations of the allocator -/

/-- The other runs of an ordered list. -/
theorem AllocationOk.remove {front back : List ClusterRun} {p : ClusterRun}
    (h : AllocationOk (front ++ p :: back)) : AllocationOk (front ++ back) ∧
      Disjoint (clustersOf (front ++ back)) (Ico p.lcn p.stop) := by
  obtain ⟨hfront, hback, hcross⟩ := List.pairwise_append.mp h.apart
  obtain ⟨hp, hback⟩ := List.pairwise_cons.mp hback
  refine ⟨⟨?_, ?_⟩, ?_⟩
  · intro r hr
    apply h.positive
    rcases List.mem_append.mp hr with hr | hr <;> simp [hr]
  · exact List.pairwise_append.mpr ⟨hfront, hback, fun r hr s hs => hcross r hr s (by simp [hs])⟩
  · rw [Finset.disjoint_left]
    intro c hc hcp
    obtain ⟨r, hr, h1, h2⟩ := mem_clustersOf.mp hc
    obtain ⟨h3, h4⟩ := mem_Ico.mp hcp
    rcases List.mem_append.mp hr with hr | hr
    · have := hcross r hr p (by simp)
      omega
    · have := hp r hr
      omega

/-- A list without a run that meets the range has no cluster in it. -/
theorem clustersOf_sdiff {lcn stop : ℕ} {l : List ClusterRun}
    (h : ∀ r ∈ l, ¬ r.meets lcn stop = true) : clustersOf l \ Ico lcn stop = clustersOf l := by
  rw [Finset.sdiff_eq_self_iff_disjoint, Finset.disjoint_left]
  intro c hc hcr
  obtain ⟨r, hr, h1, h2⟩ := mem_clustersOf.mp hc
  obtain ⟨h3, h4⟩ := mem_Ico.mp hcr
  apply h r hr
  rw [ClusterRun.meets_iff]
  omega

namespace Clusters

variable {memory : ℕ → Bool} {lcn length stop c : ℕ} {s : Clusters}

section Memory

variable (hm : ∀ k, memory k = true)
include hm

theorem allocate_clusters : clustersOf (s.allocate memory lcn length).2.runs =
    clustersOf s.runs ∪ Ico lcn (lcn + length) := by
  rw [allocate, hm]
  exact clustersOf_allocateIn

theorem allocate_fst (h : AllocationOk s.runs) : (s.allocate memory lcn length).1 = true ↔
    Disjoint (clustersOf s.runs) (Ico lcn (lcn + length)) := by
  rw [allocate, hm]
  exact allocateIn_fst h

theorem allocate_ok (h : AllocationOk s.runs)
    (hfree : Disjoint (clustersOf s.runs) (Ico lcn (lcn + length))) :
    AllocationOk (s.allocate memory lcn length).2.runs := by
  rw [allocate, hm]
  exact h.allocateIn hfree

/-- Entering clusters outside makes no run meet the range. -/
theorem allocate_countP {a b : ℕ} (hout : 0 < b → a + b ≤ lcn ∨ stop ≤ a) :
    (s.allocate memory a b).2.runs.countP (ClusterRun.meets lcn stop) ≤
      s.runs.countP (ClusterRun.meets lcn stop) := by
  rw [allocate, hm]
  rcases Nat.eq_zero_or_pos b with rfl | hlen
  · simp [allocateIn]
  obtain ⟨before, after, hl, -, -, -, hsnd⟩ := allocateIn_cases a hlen s.runs
  have hout := hout hlen
  rcases hsnd with ⟨front, q, rfl, hq, hsnd⟩ | ⟨-, hsnd⟩
  · have hmeets : ClusterRun.meets lcn stop ⟨q.lcn, q.length + b⟩ = true →
        q.meets lcn stop = true := by
      rw [ClusterRun.meets_iff, ClusterRun.meets_iff]
      simp only [ClusterRun.stop] at hq ⊢
      omega
    rw [hsnd, hl]
    simp only [List.countP_append, List.countP_cons, List.countP_nil]
    split_ifs with h1 h2
    · omega
    · exact absurd (hmeets h1) h2
    · omega
    · omega
  · have hmeets : ¬ ClusterRun.meets lcn stop ⟨a, b⟩ = true := by
      rw [ClusterRun.meets_iff]
      simp only [ClusterRun.stop]
      omega
    rw [hsnd, hl]
    simp [hmeets]

end Memory

/-- The rounds take the range out of the list. -/
theorem deallocateRounds_spec (hm : ∀ k, memory k = true) (fuel : ℕ) :
    ∀ s : Clusters, s.runs.countP (ClusterRun.meets lcn stop) ≤ fuel →
      clustersOf (s.deallocateRounds memory lcn stop fuel).2.runs =
        clustersOf s.runs \ Ico lcn stop ∧
      (AllocationOk s.runs → (s.deallocateRounds memory lcn stop fuel).1 = true ∧
        AllocationOk (s.deallocateRounds memory lcn stop fuel).2.runs) := by
  induction fuel with
  | zero =>
    intro s hs
    have hnone : ∀ r ∈ s.runs, ¬ r.meets lcn stop = true := by simpa using hs
    exact ⟨(clustersOf_sdiff hnone).symm, fun h => ⟨rfl, h⟩⟩
  | succ fuel ih =>
    intro s hs
    rw [deallocateRounds]
    cases hfind : s.runs.find? (ClusterRun.meets lcn stop) with
    | none =>
      have hnone : ∀ r ∈ s.runs, ¬ r.meets lcn stop = true := by simpa using hfind
      exact ⟨(clustersOf_sdiff hnone).symm, fun h => ⟨rfl, h⟩⟩
    | some p =>
      obtain ⟨hp, front, back, hl, hfront⟩ := List.find?_eq_some_iff_append.mp hfind
      have hp' := ClusterRun.meets_iff.mp hp
      have herase : s.runs.eraseP (ClusterRun.meets lcn stop) = front ++ back := by
        rw [hl, List.eraseP_append_right _ (fun r hr => by simpa using hfront r hr),
          List.eraseP_cons_of_pos hp]
      have hbegin : max p.lcn lcn - (max p.lcn lcn - p.lcn) = p.lcn := by omega
      simp only [herase, hbegin]
      set s' : Clusters := ⟨front ++ back, s.mallocs⟩ with hs'
      set b := s'.allocate memory p.lcn (max p.lcn lcn - p.lcn) with hb
      set e := b.2.allocate memory (min p.stop stop) (p.stop - min p.stop stop) with he
      have hbl : clustersOf b.2.runs = clustersOf (front ++ back) ∪ Ico p.lcn (max p.lcn lcn) := by
        rw [hb, allocate_clusters hm, show p.lcn + (max p.lcn lcn - p.lcn) = max p.lcn lcn by omega]
      have hel : clustersOf e.2.runs = clustersOf b.2.runs ∪ Ico (min p.stop stop) p.stop := by
        rw [he, allocate_clusters hm,
          show min p.stop stop + (p.stop - min p.stop stop) = p.stop by omega]
      have hcount : e.2.runs.countP (ClusterRun.meets lcn stop) ≤ fuel := by
        have h1 : e.2.runs.countP (ClusterRun.meets lcn stop) ≤
            b.2.runs.countP (ClusterRun.meets lcn stop) := allocate_countP hm (by omega)
        have h2 : b.2.runs.countP (ClusterRun.meets lcn stop) ≤
            s'.runs.countP (ClusterRun.meets lcn stop) := allocate_countP hm (by omega)
        have h3 : s.runs.countP (ClusterRun.meets lcn stop) =
            s'.runs.countP (ClusterRun.meets lcn stop) + 1 := by
          rw [hl]
          simp [hs', hp, add_assoc]
        omega
      obtain ⟨hset, hok⟩ := ih e.2 hcount
      constructor
      · rw [hset, hel, hbl, hl]
        ext c
        simp only [clustersOf_append, clustersOf_cons, mem_sdiff, mem_union, mem_Ico]
        grind
      · intro h
        rw [hl] at h
        obtain ⟨hrest, hapart⟩ := h.remove
        have hsub : Ico p.lcn (p.lcn + (max p.lcn lcn - p.lcn)) ⊆ Ico p.lcn p.stop :=
          Ico_subset_Ico le_rfl (by omega)
        have hfree : Disjoint (clustersOf s'.runs) (Ico p.lcn (p.lcn + (max p.lcn lcn - p.lcn))) :=
          hapart.mono_right hsub
        have hb1 : b.1 = true := (allocate_fst hm hrest).mpr hfree
        have hb2 : AllocationOk b.2.runs := allocate_ok hm hrest hfree
        have hfree' : Disjoint (clustersOf b.2.runs)
            (Ico (min p.stop stop) (min p.stop stop + (p.stop - min p.stop stop))) := by
          rw [hbl, disjoint_union_left, show min p.stop stop + (p.stop - min p.stop stop) = p.stop
            by omega]
          constructor
          · exact hapart.mono_right (Ico_subset_Ico (by omega) le_rfl)
          · refine (Ico_disjoint_Ico_consecutive _ _ _).mono_right (Ico_subset_Ico ?_ le_rfl)
            omega
        have he1 : e.1 = true := (allocate_fst hm hb2).mpr hfree'
        obtain ⟨hr1, hr2⟩ := hok (allocate_ok hm hb2 hfree')
        exact ⟨by rw [hb1, he1, hr1]; rfl, hr2⟩

variable (hm : ∀ k, memory k = true)
include hm

theorem deallocate_clusters :
    clustersOf (s.deallocate memory lcn length).2.runs =
      clustersOf s.runs \ Ico lcn (lcn + length) :=
  (deallocateRounds_spec hm _ s List.countP_le_length).1

theorem deallocate_ok (h : AllocationOk s.runs) : (s.deallocate memory lcn length).1 = true ∧
    AllocationOk (s.deallocate memory lcn length).2.runs :=
  (deallocateRounds_spec hm _ s List.countP_le_length).2 h

omit hm in
/-- Whether a cluster is allocated shows in the last run that does not begin beyond it. -/
theorem mem_clusters_iff (h : AllocationOk s.runs) : lcn ∈ clustersOf s.runs ↔
    ∃ q ∈ (s.runs.takeWhile (·.lcn ≤ lcn)).getLast?, lcn < q.stop := by
  obtain ⟨hbefore, hafter⟩ := runs_split lcn s.runs
  have hl : s.runs = s.runs.takeWhile (·.lcn ≤ lcn) ++ s.runs.dropWhile (·.lcn ≤ lcn) :=
    List.takeWhile_append_dropWhile.symm
  rw [hl] at h
  have hlast := h.stop_le_iff hbefore
  constructor
  · intro hc
    by_contra hno
    obtain ⟨r, hr, h1, h2⟩ := mem_clustersOf.mp hc
    have hstop := hlast.mpr fun q hq => not_lt.mp fun hlt => hno ⟨q, hq, hlt⟩
    rw [hl] at hr
    rcases List.mem_append.mp hr with hr | hr
    · have := hstop r hr
      omega
    · have := h.after hafter r hr
      omega
  · rintro ⟨q, hq, hlt⟩
    have hmem := List.mem_of_getLast? hq
    rw [mem_clustersOf, hl]
    exact ⟨q, List.mem_append_left _ hmem, hbefore q hmem, hlt⟩

/-- On an ordered list `bitmap_get_and_set` answers whether the cluster was allocated, and takes
it. -/
theorem getAndSet_spec (lcn : ℕ) (h : AllocationOk s.runs) :
    (s.getAndSet memory lcn).1 = decide (lcn ∈ clustersOf s.runs) ∧
      clustersOf (s.getAndSet memory lcn).2.runs = insert lcn (clustersOf s.runs) ∧
      AllocationOk (s.getAndSet memory lcn).2.runs := by
  have hmem : lcn ∈ clustersOf s.runs ↔
      ∃ q ∈ (s.runs.takeWhile (·.lcn ≤ lcn)).getLast?, lcn < q.stop := mem_clusters_iff h
  have htake (hfree : lcn ∉ clustersOf s.runs) :
      false = decide (lcn ∈ clustersOf s.runs) ∧
        clustersOf (s.allocate memory lcn 1).2.runs = insert lcn (clustersOf s.runs) ∧
        AllocationOk (s.allocate memory lcn 1).2.runs := by
    refine ⟨by simp [hfree], ?_, allocate_ok hm h ?_⟩
    · rw [allocate_clusters hm, Nat.Ico_succ_singleton, union_comm, ← insert_eq]
    · rw [Nat.Ico_succ_singleton]
      exact disjoint_singleton_right.mpr hfree
  rw [getAndSet]
  cases hlast : (s.runs.takeWhile (·.lcn ≤ lcn)).getLast? with
  | none =>
    apply htake
    simp [hmem, hlast]
  | some q =>
    have hiff : lcn ∈ clustersOf s.runs ↔ lcn < q.stop := by simp [hmem, hlast]
    dsimp only
    split_ifs with hq
    · have hin := hiff.mpr hq
      exact ⟨by simp [hin], (insert_eq_of_mem hin).symm, h⟩
    · exact htake (mt hiff.mp hq)

end Clusters

/-! ### Runs -/

/-- A call of the allocator. -/
inductive ClusterOp
  | allocate (lcn length : ℕ)
  | deallocate (lcn length : ℕ)
  | getAndSet (lcn : ℕ)

def Clusters.step (memory : ℕ → Bool) (s : Clusters) : ClusterOp → Bool × Clusters
  | .allocate lcn length => s.allocate memory lcn length
  | .deallocate lcn length => s.deallocate memory lcn length
  | .getAndSet lcn => s.getAndSet memory lcn

/-- The calls on a set of clusters. -/
def clusterSetStep (A : Finset ℕ) : ClusterOp → Bool × Finset ℕ
  | .allocate lcn length =>
    (decide (Disjoint A (Ico lcn (lcn + length))), A ∪ Ico lcn (lcn + length))
  | .deallocate lcn length => (true, A \ Ico lcn (lcn + length))
  | .getAndSet lcn => (decide (lcn ∈ A), insert lcn A)

/-- The formatter gives up when `bitmap_allocate` fails. -/
def ClusterOp.Granted : ClusterOp → Bool → Prop
  | .allocate _ _, r => r = true
  | _, _ => True

instance (e : ClusterOp) (r : Bool) : Decidable (e.Granted r) := by
  cases e <;> unfold ClusterOp.Granted <;> infer_instance

/-- The list is in order and has the clusters of the set. -/
def Clusters.Holds (s : Clusters) (A : Finset ℕ) : Prop :=
  AllocationOk s.runs ∧ clustersOf s.runs = A

/-- The allocator is a set: until a `bitmap_allocate` fails every call answers as on the set of
the allocated clusters, the list stays in order, and it has the clusters of the set. A
`bitmap_allocate` fails exactly when one of its clusters is in the set. -/
theorem clusters_refine_set {memory : ℕ → Bool} (hm : ∀ k, memory k = true) (ops : List ClusterOp)
    (k : ℕ) :
    (AllOk (Clusters.step memory) (fun _ => ClusterOp.Granted) ops ⟨[], k⟩ ↔
      AllOk clusterSetStep (fun _ => ClusterOp.Granted) ops ∅) ∧
    (AllOk (Clusters.step memory) (fun _ => ClusterOp.Granted) ops ⟨[], k⟩ →
      answers (Clusters.step memory) ops ⟨[], k⟩ = answers clusterSetStep ops ∅ ∧
      (execAll (Clusters.step memory) ops ⟨[], k⟩).Holds (execAll clusterSetStep ops ∅)) := by
  apply execAll_sim Clusters.Holds
  · rintro s A e ⟨hok, rfl⟩
    cases e with
    | allocate lcn length =>
      exact Bool.eq_iff_iff.mpr ((Clusters.allocate_fst hm hok).trans decide_eq_true_iff.symm)
    | deallocate lcn length => exact (Clusters.deallocate_ok hm hok).1
    | getAndSet lcn => exact (Clusters.getAndSet_spec hm lcn hok).1
  · rintro s A e ⟨hok, rfl⟩ hgranted
    cases e with
    | allocate lcn length =>
      exact ⟨Clusters.allocate_ok hm hok ((Clusters.allocate_fst hm hok).mp hgranted),
        Clusters.allocate_clusters hm⟩
    | deallocate lcn length =>
      exact ⟨(Clusters.deallocate_ok hm hok).2, Clusters.deallocate_clusters hm⟩
    | getAndSet lcn =>
      obtain ⟨-, hset, hok'⟩ := Clusters.getAndSet_spec hm lcn hok
      exact ⟨hok', hset⟩
  · exact ⟨⟨by simp, .nil⟩, rfl⟩

/-- A gap is cut into a run of ten clusters, one cluster of it is taken again, and the run behind
is joined to it. -/
def clusterCalls : List ClusterOp :=
  [.allocate 0 10, .deallocate 4 3, .getAndSet 4, .getAndSet 8, .allocate 5 2, .allocate 20 4]

theorem clusters_refine_set_small :
    answers (Clusters.step fun _ => true) clusterCalls ⟨[], 0⟩ =
      [true, true, false, true, true, true] ∧
    (execAll (Clusters.step fun _ => true) clusterCalls ⟨[], 0⟩).Holds (range 10 ∪ Ico 20 24) := by
  obtain ⟨hanswers, hholds⟩ :=
    (clusters_refine_set (fun _ => rfl) clusterCalls 0).2 (by decide +kernel)
  refine ⟨hanswers.trans (by decide +kernel), ?_⟩
  rwa [show execAll clusterSetStep clusterCalls ∅ = range 10 ∪ Ico 20 24 by decide +kernel]
    at hholds

end NtfsKit
