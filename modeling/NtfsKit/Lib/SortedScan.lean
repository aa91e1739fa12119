import Mathlib.Tactic

/-! Linear search in a sorted list. The search stops at the first element that is not smaller than
what is looked for: that element is it, or the place in front of it is where it belongs. Inserting
there keeps the list sorted. -/

namespace NtfsKit

variable {α κ : Type}

/-- How a search ends: at an element, or at a gap. -/
inductive Spot
  | found (i : ℕ)
  | gap (i : ℕ)
  deriving DecidableEq

def Spot.next : Spot → Spot
  | .found i => .found (i + 1)
  | .gap i => .gap (i + 1)

/-- Go on while what is looked for is greater. -/
def scan (cmp : α → Ordering) : List α → Spot
  | [] => .gap 0
  | x :: xs =>
    match cmp x with
    | .eq => .found 0
    | .lt => .gap 0
    | .gt => (scan cmp xs).next

/-- A search passes smaller elements and stops in front of the rest. -/
theorem scan_cases (cmp : α → Ordering) (xs : List α) : ∃ pre post, xs = pre ++ post ∧
    (∀ y ∈ pre, cmp y = .gt) ∧
    ((scan cmp xs = .gap pre.length ∧ ∀ y ∈ post.head?, cmp y = .lt) ∨
      (scan cmp xs = .found pre.length ∧ ∃ x rest, post = x :: rest ∧ cmp x = .eq)) := by
  induction xs with
  | nil => exact ⟨[], [], rfl, by simp, .inl ⟨rfl, by simp⟩⟩
  | cons x xs ih =>
    cases hx : cmp x with
    | lt => exact ⟨[], x :: xs, rfl, by simp, .inl ⟨by simp [scan, hx], by simp [hx]⟩⟩
    | eq => exact ⟨[], x :: xs, rfl, by simp, .inr ⟨by simp [scan, hx], x, xs, rfl, hx⟩⟩
    | gt =>
      obtain ⟨pre, post, rfl, hpre, hcases⟩ := ih
      refine ⟨x :: pre, post, rfl, by simpa [hx] using hpre, ?_⟩
      rcases hcases with ⟨hscan, hpost⟩ | ⟨hscan, hpost⟩
      · exact .inl ⟨by simp [scan, hx, hscan, Spot.next], hpost⟩
      · exact .inr ⟨by simp [scan, hx, hscan, Spot.next], hpost⟩

/-- The list is strictly sorted by its keys. -/
def SortedBy (ord : κ → κ → Ordering) (key : α → κ) (xs : List α) : Prop :=
  xs.Pairwise fun x y => ord (key x) (key y) = .lt

section Sorted

variable {ord : κ → κ → Ordering} {key : α → κ} {cmp : α → Ordering} {pre post : List α} {z : α}

/-- What is put between the smaller and the greater elements keeps the order. -/
theorem SortedBy.insert [Std.TransCmp ord] (h : SortedBy ord key (pre ++ post))
    (hpre : ∀ y ∈ pre, ord (key y) (key z) = .lt)
    (hpost : ∀ y ∈ post.head?, ord (key z) (key y) = .lt) :
    SortedBy ord key (pre ++ z :: post) := by
  obtain ⟨h1, h2, h3⟩ := List.pairwise_append.mp h
  have hrest : ∀ y ∈ post, ord (key z) (key y) = .lt := by
    cases post with
    | nil => simp
    | cons p rest =>
      have hp : ord (key z) (key p) = .lt := hpost p (by simp)
      intro y hy
      rcases List.mem_cons.mp hy with rfl | hy
      · exact hp
      · exact Std.TransCmp.lt_trans hp ((List.pairwise_cons.mp h2).1 y hy)
  refine List.pairwise_append.mpr ⟨h1, List.pairwise_cons.mpr ⟨hrest, h2⟩, fun x hx y hy => ?_⟩
  rcases List.mem_cons.mp hy with rfl | hy
  · exact hpre x hx
  · exact h3 x hx y hy

/-- In a sorted list a search ends at a gap only if what is looked for is not there. -/
theorem SortedBy.not_found (h : SortedBy ord key (pre ++ post)) (hpre : ∀ y ∈ pre, cmp y = .gt)
    (hpost : ∀ y ∈ post.head?, cmp y = .lt)
    (hmono : ∀ x ∈ pre ++ post, ∀ y ∈ pre ++ post, ord (key x) (key y) = .lt → cmp x = .lt →
      cmp y = .lt) : ∀ y ∈ pre ++ post, cmp y ≠ .eq := by
  intro y hy heq
  rcases List.mem_append.mp hy with hy | hy
  · rw [hpre y hy] at heq
    cases heq
  · cases post with
    | nil => simp at hy
    | cons p rest =>
      have hp : cmp p = .lt := hpost p (by simp)
      rcases List.mem_cons.mp hy with rfl | hy
      · rw [hp] at heq
        cases heq
      · have hlt := (List.pairwise_cons.mp (List.pairwise_append.mp h).2.1).1 y hy
        rw [hmono p (by simp) y (by simp [hy]) hlt hp] at heq
        cases heq

end Sorted

end NtfsKit
