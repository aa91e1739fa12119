import NtfsKit.Bridge.Effect

/-! The extent loop of `nk_blockmap`. The emitted extents tile the window from its
start on; a data extent names the device bytes of the clusters, a zero extent
covers holes and what lies at or above `init_end`. -/

namespace NtfsKit

/-- The extents follow each other without gap from `a` to `b`. -/
def Tiles : ℤ → ℤ → List Extent → Prop
  | a, b, [] => a = b
  | a, b, e :: es => e.logical = a ∧ 0 < e.length ∧ Tiles (a + e.length) b es

theorem Tiles.append_one : ∀ {a b : ℤ} {es : List Extent}, Tiles a b es → ∀ {e : Extent},
    e.logical = b → 0 < e.length → Tiles a (e.logical + e.length) (es ++ [e])
  | _, _, [], h, e, hb, hp => ⟨hb.trans h.symm, hp, by rw [h, ← hb]; rfl⟩
  | _, _, _ :: _, ⟨h1, h2, h3⟩, _, hb, hp => ⟨h1, h2, h3.append_one hb hp⟩

theorem Tiles.le : ∀ {a b : ℤ} {es : List Extent}, Tiles a b es → a ≤ b
  | _, _, [], h => le_of_eq h
  | _, _, _ :: _, ⟨_, h2, h3⟩ => by
    have := h3.le
    omega

/-- Every byte of the tiled range lies in an extent. -/
theorem Tiles.cover : ∀ {a b : ℤ} {es : List Extent}, Tiles a b es → ∀ x, a ≤ x → x < b →
    ∃ e ∈ es, e.logical ≤ x ∧ x < e.logical + e.length
  | _, _, [], h, x, h1, h2 => by
    have : _ = _ := h
    omega
  | a, _, e :: _, ⟨h1, _, h3⟩, x, hx1, hx2 => by
    by_cases hx : x < a + e.length
    · exact ⟨e, List.mem_cons_self, by omega, by omega⟩
    · obtain ⟨d, hd, hdx⟩ := h3.cover x (by omega) hx2
      exact ⟨d, List.mem_cons_of_mem _ hd, hdx⟩

/-- No extent reaches out of the tiled range. -/
theorem Tiles.within : ∀ {a b : ℤ} {es : List Extent}, Tiles a b es → ∀ e ∈ es,
    a ≤ e.logical ∧ e.logical + e.length ≤ b
  | _, _, [], _, _, he => by cases he
  | _, _, d :: _, ⟨h1, h2, h3⟩, e, he => by
    have hle := h3.le
    rcases List.mem_cons.mp he with rfl | he
    · exact ⟨h1.ge, by omega⟩
    · have := h3.within e he
      exact ⟨by omega, this.2⟩

/-- The end of the last extent. -/
def extentsEnd (offset : ℤ) (es : List Extent) : ℤ :=
  (es.getLast?.map fun e => e.logical + e.length).getD offset

theorem Tiles.extentsEnd_eq : ∀ {a b : ℤ} {es : List Extent}, Tiles a b es →
    extentsEnd a es = b
  | _, _, [], h => h
  | a, _, [e], ⟨h1, _, h3⟩ => by
    have : a + e.length = _ := h3
    simp only [extentsEnd, List.getLast?_singleton, Option.map_some, Option.getD_some]
    omega
  | a, b, e :: d :: es, ⟨_, _, h3⟩ => by
    have ih := h3.extentsEnd_eq
    rw [extentsEnd, List.getLast?_cons_cons]
    rw [extentsEnd, List.getLast?_eq_some_getLast (List.cons_ne_nil d es)] at ih
    rw [List.getLast?_eq_some_getLast (List.cons_ne_nil d es)]
    exact ih

/-- The extent says where its bytes are: in clusters below `ie`, or zeros. -/
def Extent.Right (csize : ℤ) (rl : Runlist) (ie : ℤ) (e : Extent) : Prop :=
  ∀ x, e.logical ≤ x → x < e.logical + e.length →
    (0 ≤ e.physical ∧ rl.phys csize x = some (e.physical + (x - e.logical)) ∧ x < ie) ∨
    (e.physical = -1 ∧ (rl.phys csize x = none ∨ ie ≤ x))

/-- What the extent loop keeps up to the byte `pos` of the attribute. -/
structure PackInv (csize : ℤ) (rl : Runlist) (offset reqEnd ie pos : ℤ) (p : Packed) : Prop where
  tiles : Tiles offset p.covered p.extents
  right : ∀ e ∈ p.extents, e.Right csize rl ie
  inRun : ∀ x, offset ≤ x → x < p.covered →
    ∃ r ∈ rl, r.vcn * csize ≤ x ∧ x < r.vcn * csize + r.length * csize
  le : p.covered ≤ reqEnd
  more : p.full = true → offset < p.covered
  pos_eq : p.full = false → p.covered = max offset (min reqEnd pos)

section Pack

variable {csize offset reqEnd ie : ℤ} {rl : Runlist} {cb : List Extent → Bool}

theorem Packed.pack_tiles (cb : List Extent → Bool) {p : Packed} (e : Extent)
    (h : Tiles offset p.covered p.extents) (he : e.logical = p.covered) (hp : 0 < e.length) :
    Tiles offset (p.pack cb e).covered (p.pack cb e).extents :=
  h.append_one he hp

theorem Packed.pack_right (cb : List Extent → Bool) {p : Packed} {e : Extent}
    (h : ∀ e ∈ p.extents, e.Right csize rl ie) (he : e.Right csize rl ie) : ∀ d ∈ (p.pack cb e).extents, d.Right csize rl ie := by
  intro d hd
  rcases List.mem_append.mp hd with hd | hd
  · exact h d hd
  · rw [List.mem_singleton.mp hd]
    exact he

/-- One element moves the loop to the element's end. -/
theorem packRun_inv (cb : List Extent → Bool) (hc : 0 < csize) (hw : offset < reqEnd)
    {e : RunlistElement} {p : Packed} (he : e ∈ rl) (hlen : 0 < e.length) (hlcn : lcnHole ≤ e.lcn)
    (hrl : ∀ x, e.vcn * csize ≤ x → x < e.vcn * csize + e.length * csize →
      rl.phys csize x = e.phys csize x)
    (hf : p.full = false) (h : PackInv csize rl offset reqEnd ie (e.vcn * csize) p) :
    PackInv csize rl offset reqEnd ie (e.vcn * csize + e.length * csize)
      (packRun csize offset reqEnd ie cb p e) := by
  have hpos : 0 < e.length * csize := mul_pos hlen hc
  have hcov := h.pos_eq hf
  have hneg : e.lcn < 0 → e.lcn = -1 := fun hl => by
    have : (-1 : ℤ) ≤ e.lcn := hlcn
    omega
  unfold packRun
  extract_lets log len phys start stop q
  have hstart : start = max log offset := by
    simp only [start]
    split_ifs <;> omega
  have hstop : stop = min (log + len) reqEnd := by
    simp only [stop]
    split_ifs <;> omega
  have hlog : log = e.vcn * csize := rfl
  have hlen' : len = e.length * csize := rfl
  have hphys : 0 ≤ e.lcn → phys = e.lcn * csize ∧ 0 ≤ phys := fun hl => by
    simp only [phys, if_pos hl]
    exact ⟨trivial, mul_nonneg hl hc.le⟩
  have hphys' : e.lcn < 0 → phys = -1 := fun hl => by
    simp only [phys, if_neg (not_le.mpr hl)]
  have hdata : 0 ≤ e.lcn → ∀ x, start ≤ x → x < stop →
      rl.phys csize x = some (phys + (start - log) + (x - start)) := fun hl x h1 h2 => by
    rw [hrl x (by omega) (by omega), RunlistElement.phys_eq_some]
    have := (hphys hl).1
    exact ⟨⟨hl, by omega, by omega⟩, by omega⟩
  have hhole : e.lcn < 0 → ∀ x, start ≤ x → x < stop →
      rl.phys csize x = none := fun hl x h1 h2 => by
    rw [hrl x (by omega) (by omega), RunlistElement.phys, if_neg]
    rintro ⟨hn, _⟩
    omega
  clear_value start stop
  by_cases hout : stop ≤ start
  · rw [if_pos hout]
    exact { h with pos_eq := fun _ => by rw [hcov]; omega }
  · rw [if_neg hout]
    have hcs : p.covered = start := by omega
    have hin : ∀ c, c ≤ stop → ∀ x, offset ≤ x → x < c →
        ∃ r ∈ rl, r.vcn * csize ≤ x ∧ x < r.vcn * csize + r.length * csize := by
      intro c hc x h1 h2
      by_cases hx : x < p.covered
      · exact h.inRun x h1 hx
      · exact ⟨e, he, by omega, by omega⟩
    by_cases hs : 0 ≤ phys ∧ start < ie ∧ stop > ie
    · rw [if_pos hs]
      have hl : 0 ≤ e.lcn := by
        by_contra hl
        have := hphys' (by omega)
        omega
      have hr1 : (⟨start, phys + (start - log), ie - start⟩ : Extent).Right csize rl ie := by
        intro x h1 h2
        simp only at h1 h2 ⊢
        exact .inl ⟨by omega, hdata hl x h1 (by omega), by omega⟩
      have hr2 : (⟨ie, -1, stop - ie⟩ : Extent).Right csize rl ie := by
        intro x h1 h2
        exact .inr ⟨rfl, .inr h1⟩
      have ht1 : Tiles offset q.covered q.extents :=
        Packed.pack_tiles cb _ h.tiles hcs.symm (by simp only; omega)
      have hq1 : ∀ d ∈ q.extents, d.Right csize rl ie := Packed.pack_right cb h.right hr1
      have hqc : q.covered = ie := by
        simp only [q, Packed.pack]
        omega
      clear_value q
      split_ifs with hfull
      · refine ⟨ht1, hq1, hin _ (by omega), by omega, fun _ => by omega, fun hn => ?_⟩
        rw [hfull] at hn
        cases hn
      · refine ⟨Packed.pack_tiles cb _ ht1 hqc.symm (by simp only; omega),
          Packed.pack_right cb hq1 hr2, hin _ ?_, ?_, fun _ => ?_, fun _ => ?_⟩
        all_goals simp only [Packed.pack]; omega
    · rw [if_neg hs]
      have hr : (⟨start, if phys < 0 ∨ start ≥ ie then -1 else phys + (start - log), stop - start⟩ :
          Extent).Right csize rl ie := by
        intro x h1 h2
        simp only at h1 h2 ⊢
        split_ifs with hz
        · refine .inr ⟨rfl, ?_⟩
          rcases hz with hz | hz
          · refine .inl (hhole ?_ x h1 (by omega))
            by_contra hl
            have := (hphys (by omega)).2
            omega
          · exact .inr (by omega)
        · have hl : 0 ≤ e.lcn := by
            by_contra hl
            have := hphys' (by omega)
            omega
          exact .inl ⟨by omega, hdata hl x h1 (by omega), by omega⟩
      refine ⟨Packed.pack_tiles cb _ h.tiles hcs.symm (by simp only; omega),
        Packed.pack_right cb h.right hr, hin _ ?_, ?_, fun _ => ?_, fun _ => ?_⟩
      all_goals simp only [Packed.pack]; omega

/-- The loop over a contiguous list reaches its end unless the packer is full. -/
theorem packRuns_inv (hc : 0 < csize) (hw : offset < reqEnd) :
    ∀ (rl' : List RunlistElement) (v : ℤ) (p : Packed), Contiguous v rl' →
      (∀ e ∈ rl', e ∈ rl ∧ ∀ x, e.vcn * csize ≤ x → x < e.vcn * csize + e.length * csize →
        rl.phys csize x = e.phys csize x) →
      PackInv csize rl offset reqEnd ie (v * csize) p →
      ∃ pos, PackInv csize rl offset reqEnd ie pos (packRuns csize offset reqEnd ie cb rl' p) ∧
        ((packRuns csize offset reqEnd ie cb rl' p).full = false → v * csize ≤ pos ∧
          ∀ e ∈ rl', e.vcn * csize + e.length * csize ≤ pos)
  | [], v, p, _, _, h => ⟨_, h, fun _ => ⟨le_rfl, fun _ he => absurd he List.not_mem_nil⟩⟩
  | e :: rl', v, p, ⟨hv, hlen, hlcn, hcont⟩, hrl, h => by
    rw [packRuns]
    split_ifs with hf
    · exact ⟨_, h, fun hn => by rw [hf] at hn; cases hn⟩
    · subst hv
      have hstep := packRun_inv cb hc hw (hrl e List.mem_cons_self).1 hlen hlcn
        (hrl e List.mem_cons_self).2 (by simpa using hf) h
      rw [← add_mul] at hstep
      obtain ⟨pos, hpos, hend⟩ := packRuns_inv hc hw rl' _ _ hcont
        (fun d hd => hrl d (List.mem_cons_of_mem _ hd)) hstep
      refine ⟨pos, hpos, fun hn => ?_⟩
      obtain ⟨h1, h2⟩ := hend hn
      have hgrow : 0 < e.length * csize := mul_pos hlen hc
      rw [add_mul] at h1
      refine ⟨by omega, fun d hd => ?_⟩
      rcases List.mem_cons.mp hd with rfl | hd
      · exact h1
      · exact h2 d hd

/-- The extents of an intact runlist tile a prefix of the window, and the whole of
it unless the packer was full or the list ended. -/
theorem packRuns_spec (hc : 0 < csize) (hw : offset < reqEnd) (h0 : 0 ≤ offset)
    (hrl : rl.Ok csize) :
    ∃ pos, PackInv csize rl offset reqEnd ie pos
        (packRuns csize offset reqEnd ie cb rl.elements ⟨[], offset, false⟩) ∧
      ((packRuns csize offset reqEnd ie cb rl.elements ⟨[], offset, false⟩).full = false →
        ∀ x, pos ≤ x → rl.phys csize x = none) := by
  rw [hrl.elements_eq]
  have hstart : PackInv csize rl offset reqEnd ie (0 * csize) ⟨[], offset, false⟩ :=
    ⟨rfl, fun _ he => absurd he List.not_mem_nil, fun x h1 h2 => absurd h1 (not_le.mpr h2), hw.le,
      fun h => Bool.noConfusion h, fun _ => show offset = _ by rw [zero_mul]; omega⟩
  obtain ⟨pos, hpos, hend⟩ := packRuns_inv hc hw rl 0 _ hrl.contiguous
    (fun e he => ⟨he, fun x h1 h2 => hrl.phys_eq hc he h1 h2⟩) hstart
  refine ⟨pos, hpos, fun hn x hx => ?_⟩
  cases hp : rl.phys csize x with
  | none => rfl
  | some q =>
    obtain ⟨e, he, heq⟩ := Runlist.phys_mem hp
    have := (hend hn).2 e (hrl.elements_eq ▸ he)
    have := (RunlistElement.phys_eq_some.mp heq).1.2.2
    omega

end Pack

end NtfsKit
