import Mathlib.Tactic

/-! Looking up an entry of a table that only grows at its end: what an entry of the
changed table was before. -/

namespace NtfsKit

variable {A : Type} {l : List A} {a w : A} {f : A → A} {i j : ℕ}

theorem lookup_map : (l.map f)[j]? = some w ↔ ∃ u, l[j]? = some u ∧ f u = w := by
  rw [List.getElem?_map, Option.map_eq_some_iff]

theorem lookup_modify : (l.modify i f)[j]? = some w ↔
    ∃ u, l[j]? = some u ∧ (if i = j then f u else u) = w := by
  rw [List.getElem?_modify]
  cases l[j]? with
  | none => simp
  | some u => simp

theorem lookup_concat : (l ++ [a])[j]? = some w ↔
    l[j]? = some w ∨ (j = l.length ∧ a = w) := by
  rw [List.getElem?_append]
  split_ifs with h
  · constructor
    · exact .inl
    · rintro (h' | ⟨rfl, _⟩)
      · exact h'
      · exact absurd h (lt_irrefl _)
  · rw [List.getElem?_eq_none (not_lt.mp h), List.getElem?_singleton]
    constructor
    · intro h'
      split_ifs at h' with h0
      exact .inr ⟨by omega, Option.some.inj h'⟩
    · rintro (h' | ⟨rfl, rfl⟩)
      · cases h'
      · simp

end NtfsKit
