import NtfsKit.Engine.FullDisk

/-! An engine with free clusters: a write into a hole gives the whole hole clusters from
`free` on, as many clusters into the free space as the hole is into the attribute. It maps
only runlists that begin with the attribute's first cluster, and writes only into runlists
that are in order. -/

namespace NtfsKit

variable {σ : Type}

instance : ∀ (v : ℤ) (rl : List RunlistElement), Decidable (Contiguous v rl)
  | _, [] => inferInstanceAs (Decidable True)
  | v, e :: rl =>
    have := instDecidableContiguous (v + e.length) rl
    inferInstanceAs (Decidable (e.vcn = v ∧ 0 < e.length ∧ lcnHole ≤ e.lcn ∧
      Contiguous (v + e.length) rl))

/-- Give a hole that meets `[pos, stop)` its clusters. -/
def RunlistElement.fill (csize free pos stop : ℤ) (e : RunlistElement) : RunlistElement :=
  if e.lcn = lcnHole ∧ e.vcn * csize < stop ∧ pos < e.vcn * csize + e.length * csize then
    { e with lcn := free + e.vcn }
  else e

/-- The bytes the runlist covers. -/
def Runlist.span (csize : ℤ) (rl : Runlist) : ℤ := (rl.map (·.length)).sum * csize

/-- The engine. -/
def sparseDisk (csize free : ℤ) : Libntfs Unit :=
  { fullDisk csize 0 with
    attrMapWholeRunlist := fun s =>
      if s.na.rl.elements.head?.all (·.vcn = 0) then (0, s) else (-1, s)
    attrPwrite := fun s pos count buf =>
      if Contiguous 0 s.na.rl ∧ 0 ≤ pos ∧ pos + count ≤ s.na.rl.span csize then
        (count, Ntfs.overwrite csize pos count buf { s with
          na := { s.na with rl := s.na.rl.map (RunlistElement.fill csize free pos (pos + count)) } })
      else (-1, s) }

section Fill

variable {csize free pos stop : ℤ} {rl : Runlist}

theorem RunlistElement.fill_vcn (csize free pos stop : ℤ) (e : RunlistElement) :
    (e.fill csize free pos stop).vcn = e.vcn ∧ (e.fill csize free pos stop).length = e.length := by
  unfold fill
  split_ifs <;> exact ⟨rfl, rfl⟩

theorem Contiguous.fill (hfree : 0 ≤ free) : ∀ {v : ℤ} {rl : List RunlistElement}, 0 ≤ v →
    Contiguous v rl → Contiguous v (rl.map (RunlistElement.fill csize free pos stop))
  | _, [], _, _ => trivial
  | v, e :: rl, h0, ⟨hv, hlen, hlcn, h⟩ => by
    obtain ⟨h1, h2⟩ := e.fill_vcn csize free pos stop
    refine ⟨h1.trans hv, h2 ▸ hlen, ?_, h2 ▸ h.fill hfree (by omega)⟩
    unfold RunlistElement.fill
    split_ifs
    · exact (by omega : (-1 : ℤ) ≤ free + e.vcn)
    · exact hlcn

/-- Where a contiguous list places the bytes of one of its elements. -/
theorem Contiguous.phys_mem (hc : 0 < csize) (h : Contiguous 0 rl) {e : RunlistElement}
    (he : e ∈ rl) {x : ℤ} (h1 : e.vcn * csize ≤ x) (h2 : x < e.vcn * csize + e.length * csize) :
    rl.phys csize x = e.phys csize x := by
  rw [Runlist.phys, h.elements_eq]
  exact h.findSome_eq hc e he x h1 h2

/-- Filling takes no cluster away. -/
theorem Contiguous.fill_keeps (hc : 0 < csize) (hfree : 0 ≤ free) (h : Contiguous 0 rl) {x : ℤ}
    (hx : (rl.phys csize x).isSome) :
    (Runlist.phys csize (rl.map (RunlistElement.fill csize free pos stop)) x).isSome := by
  obtain ⟨p, hp⟩ := Option.isSome_iff_exists.mp hx
  obtain ⟨e, he, hep⟩ := Runlist.phys_mem hp
  obtain ⟨⟨hl, h1, h2⟩, -⟩ := RunlistElement.phys_eq_some.mp hep
  have hfill : e.fill csize free pos stop = e := by
    rw [RunlistElement.fill, if_neg]
    rintro ⟨hole, -⟩
    exact absurd hole (by unfold lcnHole; omega)
  have hmem : e ∈ rl.map (RunlistElement.fill csize free pos stop) :=
    List.mem_map.mpr ⟨e, h.elements_eq ▸ he, hfill⟩
  rw [(h.fill hfree le_rfl).phys_mem hc hmem h1 h2, hep]
  rfl

/-- The range is backed once it is filled. -/
theorem Contiguous.fill_backs (hc : 0 < csize) (hfree : 0 ≤ free) (h : Contiguous 0 rl)
    (h0 : 0 ≤ pos) (hstop : stop ≤ rl.span csize) {x : ℤ} (h1 : pos ≤ x) (h2 : x < stop) :
    (Runlist.phys csize (rl.map (RunlistElement.fill csize free pos stop)) x).isSome := by
  unfold Runlist.span at hstop
  obtain ⟨e, he, h3, h4⟩ := h.cover hc x (by omega) (by rw [zero_add]; omega)
  obtain ⟨hv, hlen⟩ := e.fill_vcn csize free pos stop
  have hge := h.vcn_ge e he
  have hlcn : 0 ≤ (e.fill csize free pos stop).lcn := by
    have hl : (-1 : ℤ) ≤ e.lcn := hge.2.2
    unfold RunlistElement.fill lcnHole
    split_ifs with hf
    · exact (by omega : 0 ≤ free + e.vcn)
    · by_contra hn
      exact hf ⟨by omega, by omega, by omega⟩
  rw [(h.fill hfree le_rfl).phys_mem hc (List.mem_map_of_mem he) (by rw [hv]; exact h3)
    (by rw [hv, hlen]; exact h4)]
  rw [RunlistElement.phys, if_pos ⟨hlcn, by rw [hv]; exact h3, by rw [hv, hlen]; exact h4⟩]
  rfl

end Fill

theorem sparseDisk_maps (csize free : ℤ) : (sparseDisk csize free).Maps where
  first s h e he := by
    simp only [sparseDisk] at h he
    split_ifs at h he with hfirst
    · rw [Option.all_eq_true] at hfirst
      simpa using hfirst e he
    · change (-1 : ℤ) = 0 at h
      omega
  pwrite _ _ _ _ := rfl

theorem sparseDisk_fillsHoles {vol : NtfsVolume} (hc : 0 < vol.clusterSize) {free : ℤ}
    (hfree : 0 ≤ free) : (sparseDisk vol.clusterSize free).FillsHoles vol where
  backed s pos count buf h x h1 h2 := by
    simp only [sparseDisk] at h ⊢
    split_ifs at h ⊢ with hok
    · exact hok.1.fill_backs hc hfree hok.2.1 hok.2.2 h1 h2
    · change (-1 : ℤ) = count at h
      omega
  keeps s pos count buf _ x hx := by
    simp only [sparseDisk]
    split_ifs with hok
    · exact hok.1.fill_keeps hc hfree hx
    · exact hx
  maps s x hx := by
    simp only [sparseDisk]
    split_ifs <;> exact hx

end NtfsKit
