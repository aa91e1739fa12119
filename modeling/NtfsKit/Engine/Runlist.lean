import Mathlib.Tactic

/-! Runlists: the map from an attribute's bytes to the bytes of the volume. An
element covers `length` clusters of the attribute from `vcn` on; they lie on the
volume from `lcn` on, or nowhere when the element is a hole. A list ends at its
first element of length zero. `badRunlist` is the bridge's validator for lists
read from an untrusted disk. -/

namespace NtfsKit

/-- A signed 64-bit value is at most this. -/
def int64Max : ℤ := 2 ^ 63 - 1

/-- `LCN_HOLE`. -/
def lcnHole : ℤ := -1

structure RunlistElement where
  vcn : ℤ
  lcn : ℤ
  length : ℤ
  deriving DecidableEq, Repr

abbrev Runlist := List RunlistElement

/-- The geometry of a mounted volume. -/
structure NtfsVolume where
  clusterSize : ℤ
  nrClusters : ℤ
  readOnly : Bool
  deriving DecidableEq, Repr

/-- The elements before the terminator, as every loop over a runlist sees them. -/
def Runlist.elements (rl : Runlist) : List RunlistElement := rl.takeWhile (·.length ≠ 0)

/-- Where the element puts byte `x` of the attribute on the volume. -/
def RunlistElement.phys (csize : ℤ) (e : RunlistElement) (x : ℤ) : Option ℤ :=
  if 0 ≤ e.lcn ∧ e.vcn * csize ≤ x ∧ x < e.vcn * csize + e.length * csize then
    some (e.lcn * csize + (x - e.vcn * csize))
  else none

/-- Where the runlist puts byte `x` of the attribute; `none` in a hole and past
the last run. -/
def Runlist.phys (csize : ℤ) (rl : Runlist) (x : ℤ) : Option ℤ :=
  rl.elements.findSome? (RunlistElement.phys csize · x)

/-- One element of `badRunlist`'s loop. `expectVcn` is negative before the first. -/
def badElement (vol : NtfsVolume) (expectVcn : ℤ) (e : RunlistElement) : Bool :=
  let csize := vol.clusterSize
  e.lcn < lcnHole ||
  (e.length ≤ 0 || e.vcn < 0 || e.vcn > int64Max / csize || e.length > int64Max / csize ||
    e.length > int64Max / csize - e.vcn) ||
  (0 ≤ e.lcn && (e.lcn ≥ vol.nrClusters || e.lcn > int64Max / csize ||
    e.length > vol.nrClusters - e.lcn)) ||
  (0 ≤ expectVcn && e.vcn ≠ expectVcn)

def badFrom (vol : NtfsVolume) : ℤ → List RunlistElement → Bool
  | _, [] => false
  | expectVcn, e :: rl => badElement vol expectVcn e || badFrom vol (e.vcn + e.length) rl

/-- `bad_runlist`: reject a list whose byte offsets would overflow, whose clusters
fall outside the volume or whose elements are not contiguous. -/
def badRunlist (vol : NtfsVolume) (rl : Runlist) : Bool := badFrom vol (-1) rl.elements

/-- What the loop has checked of an element it lets through. -/
theorem badElement_eq_false {vol : NtfsVolume} {expectVcn : ℤ} {e : RunlistElement}
    (h : badElement vol expectVcn e = false) :
    lcnHole ≤ e.lcn ∧ (0 < e.length ∧ 0 ≤ e.vcn ∧ e.vcn + e.length ≤ int64Max / vol.clusterSize) ∧
      (0 ≤ e.lcn → e.lcn ≤ int64Max / vol.clusterSize ∧ e.lcn + e.length ≤ vol.nrClusters) ∧
      (0 ≤ expectVcn → e.vcn = expectVcn) := by
  simp only [badElement, Bool.or_eq_false_iff, decide_eq_false_iff_not, Bool.and_eq_false_iff,
    not_lt, not_le, ne_eq, not_not] at h
  obtain ⟨⟨⟨hlcn, ⟨⟨⟨hlen, hvcn⟩, -⟩, -⟩, hstop⟩, hrun⟩, hnext⟩ := h
  refine ⟨hlcn, ⟨hlen, hvcn, by omega⟩, fun h0 => ?_, fun h0 => ?_⟩
  · obtain ⟨⟨-, hmax⟩, hin⟩ := hrun.resolve_left (by omega)
    exact ⟨hmax, by omega⟩
  · exact hnext.resolve_left (by omega)

/-- The elements follow each other from cluster `v` of the attribute on, each of
positive length and either a hole or allocated. -/
def Contiguous : ℤ → List RunlistElement → Prop
  | _, [] => True
  | v, e :: rl => e.vcn = v ∧ 0 < e.length ∧ lcnHole ≤ e.lcn ∧ Contiguous (v + e.length) rl

/-- A runlist an intact file has: contiguous from its first cluster on, with no
cluster of the volume used twice. -/
structure Runlist.Ok (csize : ℤ) (rl : Runlist) : Prop where
  contiguous : Contiguous 0 rl
  disjoint : ∀ x y p, rl.phys csize x = some p → rl.phys csize y = some p → x = y

section Facts

variable {csize : ℤ} {e : RunlistElement} {rl : Runlist}

theorem RunlistElement.phys_eq_some {x p : ℤ} : e.phys csize x = some p ↔
    (0 ≤ e.lcn ∧ e.vcn * csize ≤ x ∧ x < e.vcn * csize + e.length * csize) ∧
      e.lcn * csize + (x - e.vcn * csize) = p := by
  unfold RunlistElement.phys
  split_ifs with h <;> simp [h]

theorem Contiguous.elements_eq : ∀ {v : ℤ} {rl : Runlist}, Contiguous v rl → rl.elements = rl
  | _, [], _ => rfl
  | v, e :: rl, ⟨_, hpos, _, h⟩ => by
    have ih : rl.takeWhile (·.length ≠ 0) = rl := Contiguous.elements_eq h
    rw [Runlist.elements, List.takeWhile_cons, if_pos (by simp; omega), ih]

/-- Every element of a contiguous list starts at or after the list's first cluster. -/
theorem Contiguous.vcn_ge : ∀ {v : ℤ} {rl : List RunlistElement}, Contiguous v rl →
    ∀ e ∈ rl, v ≤ e.vcn ∧ 0 < e.length ∧ lcnHole ≤ e.lcn
  | _, [], _, _, he => by cases he
  | v, a :: rl, ⟨hv, hpos, hl, h⟩, e, he => by
    rcases List.mem_cons.mp he with rfl | he
    · exact ⟨hv.ge, hpos, hl⟩
    · have := Contiguous.vcn_ge h e he
      exact ⟨by omega, this.2⟩

/-- In a contiguous list no other element places a byte that one element covers. -/
theorem Contiguous.findSome_eq (hc : 0 < csize) : ∀ {v : ℤ} {rl : List RunlistElement},
    Contiguous v rl → ∀ e ∈ rl, ∀ x, e.vcn * csize ≤ x → x < e.vcn * csize + e.length * csize →
      rl.findSome? (RunlistElement.phys csize · x) = e.phys csize x
  | _, [], _, _, he, _, _, _ => by cases he
  | v, a :: rl, ⟨hv, hpos, _, h⟩, e, he, x, h1, h2 => by
    rw [List.findSome?_cons]
    rcases List.mem_cons.mp he with rfl | he
    · cases hp : e.phys csize x with
      | some p => rfl
      | none =>
        -- a hole: the elements after it start above `x`
        rw [List.findSome?_eq_none_iff]
        intro b hb
        have hge := (Contiguous.vcn_ge h b hb).1
        have : (v + e.length) * csize ≤ b.vcn * csize := Int.mul_le_mul_of_nonneg_right hge hc.le
        rw [RunlistElement.phys, if_neg]
        rintro ⟨_, h3, _⟩
        rw [← hv, add_mul] at this
        omega
    · have hge := (Contiguous.vcn_ge h e he).1
      have hle : (v + a.length) * csize ≤ e.vcn * csize := Int.mul_le_mul_of_nonneg_right hge hc.le
      rw [add_mul, ← hv] at hle
      have : a.phys csize x = none := by
        rw [RunlistElement.phys, if_neg]
        rintro ⟨_, _, h3⟩
        omega
      rw [this]
      exact Contiguous.findSome_eq hc h e he x h1 h2

theorem Runlist.Ok.elements_eq (h : rl.Ok csize) : rl.elements = rl := h.contiguous.elements_eq

theorem Runlist.Ok.elements (h : rl.Ok csize) : Contiguous 0 rl.elements :=
  h.elements_eq.symm ▸ h.contiguous

/-- The element that covers a byte places it. -/
theorem Contiguous.phys_eq (hc : 0 < csize) {v : ℤ} (h : Contiguous v rl.elements)
    (he : e ∈ rl.elements) {x : ℤ} (h1 : e.vcn * csize ≤ x)
    (h2 : x < e.vcn * csize + e.length * csize) : rl.phys csize x = e.phys csize x :=
  h.findSome_eq hc e he x h1 h2

theorem Runlist.Ok.phys_eq (hc : 0 < csize) (h : rl.Ok csize) (he : e ∈ rl) {x : ℤ}
    (h1 : e.vcn * csize ≤ x) (h2 : x < e.vcn * csize + e.length * csize) :
    rl.phys csize x = e.phys csize x :=
  h.elements.phys_eq hc (h.elements_eq.symm ▸ he) h1 h2

theorem RunlistElement.phys_hole (h : e.lcn = lcnHole) (x : ℤ) : e.phys csize x = none := by
  rw [RunlistElement.phys, if_neg]
  rintro ⟨hn, -⟩
  rw [h] at hn
  exact absurd hn (by decide)

/-- A placed byte is covered by an allocated element. -/
theorem Runlist.phys_mem {x p : ℤ} (h : rl.phys csize x = some p) :
    ∃ e ∈ rl.elements, e.phys csize x = some p :=
  List.exists_of_findSome?_eq_some h

end Facts

end NtfsKit
