import NtfsKit.Engine.Runlist

/-! A runlist without holes as the list of its clusters, in the order of the attribute. Where the
elements follow each other, cluster `k` of the attribute is the `k`-th of the list, so that the
runlist places no two bytes alike exactly when the list repeats no cluster. -/

namespace NtfsKit

/-- The clusters of an element. -/
def RunlistElement.clusters (e : RunlistElement) : List ℕ := List.range' e.lcn.toNat e.length.toNat

/-- The clusters of a runlist. -/
def Runlist.clusters (rl : List RunlistElement) : List ℕ := rl.flatMap RunlistElement.clusters

/-- No element is a hole. -/
def Runlist.Backed (rl : List RunlistElement) : Prop := ∀ e ∈ rl, 0 ≤ e.lcn

section Facts

variable {csize v : ℤ} {e : RunlistElement} {rl : List RunlistElement}

@[simp] theorem RunlistElement.length_clusters : e.clusters.length = e.length.toNat := by
  simp [clusters]

@[simp] theorem Runlist.clusters_nil : Runlist.clusters [] = [] := rfl

@[simp] theorem Runlist.clusters_cons :
    Runlist.clusters (e :: rl) = e.clusters ++ Runlist.clusters rl := rfl

@[simp] theorem Runlist.clusters_append {rl' : List RunlistElement} :
    Runlist.clusters (rl ++ rl') = Runlist.clusters rl ++ Runlist.clusters rl' := by
  simp [Runlist.clusters]

theorem RunlistElement.getElem_clusters {k : ℕ} (hk : k < e.clusters.length) :
    e.clusters[k] = e.lcn.toNat + k := by
  simp [clusters]

theorem Runlist.mem_clusters {c : ℕ} : c ∈ Runlist.clusters rl ↔
    ∃ e ∈ rl, e.lcn.toNat ≤ c ∧ c < e.lcn.toNat + e.length.toNat := by
  simp [Runlist.clusters, RunlistElement.clusters]

theorem contiguous_concat : Contiguous v (rl ++ [e]) ↔ Contiguous v rl ∧
    e.vcn = v + (Runlist.clusters rl).length ∧ 0 < e.length ∧ lcnHole ≤ e.lcn := by
  induction rl generalizing v with
  | nil => simp [Contiguous]
  | cons a rl ih =>
    simp only [List.cons_append, Contiguous, ih, Runlist.clusters_cons, List.length_append,
      RunlistElement.length_clusters]
    constructor
    · rintro ⟨hv, hpos, hlcn, h, he, hrest⟩
      exact ⟨⟨hv, hpos, hlcn, h⟩, by omega, hrest⟩
    · rintro ⟨⟨hv, hpos, hlcn, h⟩, he, hrest⟩
      exact ⟨hv, hpos, hlcn, h, by omega, hrest⟩

/-- The element that a cluster of the attribute lies in, and the cluster it is on. -/
theorem Contiguous.element_at : ∀ {v : ℤ} {rl : List RunlistElement}, Contiguous v rl →
    Runlist.Backed rl → ∀ {k : ℕ} (hk : k < (Runlist.clusters rl).length), ∃ e ∈ rl,
      e.vcn ≤ v + k ∧ v + k < e.vcn + e.length ∧
      (((Runlist.clusters rl)[k] : ℕ) : ℤ) = e.lcn + (v + k - e.vcn)
  | _, [], _, _, k, hk => by simp at hk
  | v, e :: rl, ⟨hv, hpos, _, h⟩, hback, k, hk => by
    have hlcn : 0 ≤ e.lcn := hback e (by simp)
    by_cases hin : k < e.clusters.length
    · refine ⟨e, by simp, by omega, ?_, ?_⟩
      · rw [RunlistElement.length_clusters] at hin
        omega
      · simp only [Runlist.clusters_cons, List.getElem_append_left hin,
          RunlistElement.getElem_clusters hin]
        omega
    · have hrest : k - e.clusters.length < (Runlist.clusters rl).length := by
        simp only [Runlist.clusters_cons, List.length_append] at hk
        omega
      obtain ⟨f, hf, h1, h2, h3⟩ := h.element_at (fun f hf => hback f (by simp [hf])) hrest
      have hlen : e.clusters.length = e.length.toNat := e.length_clusters
      refine ⟨f, by simp [hf], by omega, by omega, ?_⟩
      simp only [Runlist.clusters_cons, List.getElem_append_right (not_lt.mp hin), h3]
      omega

/-- The bytes that the elements cover. -/
theorem Contiguous.clusters_length : ∀ {v : ℤ} {rl : List RunlistElement}, Contiguous v rl →
    ∀ e ∈ rl, v ≤ e.vcn ∧ e.vcn + e.length ≤ v + (Runlist.clusters rl).length
  | _, [], _, e, he => by simp at he
  | v, a :: rl, ⟨hv, hpos, _, h⟩, e, he => by
    simp only [Runlist.clusters_cons, List.length_append, RunlistElement.length_clusters]
    rcases List.mem_cons.mp he with rfl | he
    · omega
    · have := h.clusters_length e he
      omega

theorem Contiguous.sum_length : ∀ {v : ℤ} {rl : List RunlistElement}, Contiguous v rl →
    (rl.map (·.length)).sum = (Runlist.clusters rl).length
  | _, [], _ => rfl
  | _, e :: rl, ⟨_, hpos, _, h⟩ => by
    simp only [List.map_cons, List.sum_cons, h.sum_length, Runlist.clusters_cons,
      List.length_append, RunlistElement.length_clusters]
    omega

/-- Where the runlist places the bytes of cluster `k`. -/
theorem Contiguous.phys_clusters (hc : 0 < csize) (h : Contiguous 0 rl) (hback : Runlist.Backed rl)
    {k : ℕ} (hk : k < (Runlist.clusters rl).length) {o : ℤ} (h0 : 0 ≤ o) (ho : o < csize) :
    Runlist.phys csize rl (k * csize + o) = some ((Runlist.clusters rl)[k] * csize + o) := by
  obtain ⟨e, he, h1, h2, h3⟩ := h.element_at hback hk
  have hlow : e.vcn * csize ≤ k * csize + o := by nlinarith
  have hhigh : k * csize + o < e.vcn * csize + e.length * csize := by nlinarith
  rw [Runlist.phys, h.elements_eq, h.findSome_eq hc e he _ hlow hhigh, RunlistElement.phys_eq_some]
  refine ⟨⟨hback e he, hlow, hhigh⟩, ?_⟩
  rw [h3]
  ring

/-- A byte that the runlist places lies in one of its clusters. -/
theorem Contiguous.cluster_of_phys (hc : 0 < csize) (h : Contiguous 0 rl) {x p : ℤ}
    (hx : Runlist.phys csize rl x = some p) :
    0 ≤ x ∧ x < (Runlist.clusters rl).length * csize := by
  obtain ⟨e, he, hep⟩ := Runlist.phys_mem hx
  obtain ⟨⟨-, h1, h2⟩, -⟩ := RunlistElement.phys_eq_some.mp hep
  obtain ⟨h3, h4⟩ := h.clusters_length e (h.elements_eq ▸ he)
  have h5 : e.vcn + e.length ≤ (Runlist.clusters rl).length := by omega
  constructor
  · nlinarith
  · nlinarith

/-- A byte that the runlist places, by its cluster and its offset in it. -/
theorem Contiguous.phys_split (hc : 0 < csize) (h : Contiguous 0 rl) (hback : Runlist.Backed rl)
    {x p : ℤ} (hx : Runlist.phys csize rl x = some p) :
    ∃ (k : ℕ) (hk : k < (Runlist.clusters rl).length), x = k * csize + x % csize ∧
      p = (Runlist.clusters rl)[k] * csize + x % csize := by
  obtain ⟨hx0, hxl⟩ := h.cluster_of_phys hc hx
  have hq : 0 ≤ x / csize := Int.ediv_nonneg hx0 hc.le
  have hk : (x / csize).toNat < (Runlist.clusters rl).length := by
    have := Int.ediv_lt_of_lt_mul hc hxl
    omega
  have hsplit : x = ((x / csize).toNat : ℤ) * csize + x % csize := by
    rw [Int.toNat_of_nonneg hq]
    exact (Int.ediv_mul_add_emod x csize).symm
  refine ⟨_, hk, hsplit, ?_⟩
  have hphys := h.phys_clusters hc hback hk (Int.emod_nonneg x hc.ne') (Int.emod_lt_of_pos x hc)
  rw [← hsplit, hx] at hphys
  exact Option.some.inj hphys

/-- A contiguous runlist without holes that repeats no cluster is one of an intact file. -/
theorem Runlist.Ok.of_nodup (hc : 0 < csize) (h : Contiguous 0 rl) (hback : Runlist.Backed rl)
    (hnodup : (Runlist.clusters rl).Nodup) : Runlist.Ok csize rl where
  contiguous := h
  disjoint x y p hx hy := by
    obtain ⟨k, hk, hxk, hpk⟩ := h.phys_split hc hback hx
    obtain ⟨l, hl, hyl, hpl⟩ := h.phys_split hc hback hy
    have hmod : x % csize = y % csize := by
      have h1 : p % csize = x % csize := by
        rw [hpk, Int.mul_add_emod_self_right, Int.emod_emod]
      have h2 : p % csize = y % csize := by
        rw [hpl, Int.mul_add_emod_self_right, Int.emod_emod]
      rw [← h1, h2]
    have hcl : (((Runlist.clusters rl)[k] : ℕ) : ℤ) = (Runlist.clusters rl)[l] := by
      have : ((Runlist.clusters rl)[k] : ℤ) * csize = (Runlist.clusters rl)[l] * csize := by
        omega
      exact Int.eq_of_mul_eq_mul_right hc.ne' this
    have hkl : k = l := (hnodup.getElem_inj_iff).mp (by exact_mod_cast hcl)
    rw [hxk, hyl, hkl, hmod]

/-- Behind an element that is not the last there is another cluster. -/
theorem Contiguous.before_last (h : Contiguous v rl) (he : e ∈ rl.dropLast) :
    e.vcn + e.length < v + (Runlist.clusters rl).length := by
  obtain rfl | ⟨front, l, rfl⟩ := List.eq_nil_or_concat' rl
  · simp at he
  · rw [List.dropLast_concat] at he
    obtain ⟨hfront, -, hpos, -⟩ := contiguous_concat.mp h
    have := (hfront.clusters_length e he).2
    simp only [Runlist.clusters_append, Runlist.clusters_cons, Runlist.clusters_nil,
      List.append_nil, List.length_append, RunlistElement.length_clusters]
    omega

end Facts

end NtfsKit
