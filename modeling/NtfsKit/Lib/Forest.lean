import Mathlib.Tactic
import Mathlib.Logic.Relation

/-! Rooted trees as relations. Every node has at most one parent, the root has none, and the
nodes of interest are below the root. Then no node is below itself. Moving a node elsewhere
keeps the tree when the new parent is not below the node, and a node without children can be
taken away. -/

namespace NtfsKit

open Relation

variable {α : Type} {E F : α → α → Prop} {root : α} {V : α → Prop}

/-- The nodes of `V` hang below the root in a tree. -/
structure Forest (E : α → α → Prop) (root : α) (V : α → Prop) : Prop where
  top : ∀ a, ¬ E a root
  parent : ∀ a b c, E a c → E b c → a = b
  reach : ∀ v, V v → ReflTransGen E root v

namespace Forest

/-- What is below the root is not below itself. -/
theorem not_below_self (h : Forest E root V) {v : α} (hv : ReflTransGen E root v) :
    ¬ TransGen E v v := by
  induction hv with
  | refl =>
    intro hc
    obtain ⟨b, -, hb⟩ := TransGen.tail'_iff.mp hc
    exact h.top b hb
  | tail hab hbc ih =>
    -- the cycle enters the node by its only parent, so the parent is on it
    intro hc
    obtain ⟨b', hb', hbc'⟩ := TransGen.tail'_iff.mp hc
    rw [h.parent b' _ _ hbc' hbc] at hb'
    exact ih (TransGen.head' hbc hb')

theorem acyclic (h : Forest E root V) {v : α} (hv : V v) : ¬ TransGen E v v :=
  h.not_below_self (h.reach v hv)

theorem congr (h : Forest E root V) (hE : ∀ a b, F a b ↔ E a b) {W : α → Prop}
    (hW : ∀ v, W v → V v) : Forest F root W where
  top a ha := h.top a ((hE a root).mp ha)
  parent a b c ha hb := h.parent a b c ((hE a c).mp ha) ((hE b c).mp hb)
  reach v hv := ReflTransGen.mono (fun a b hab => (hE a b).mpr hab) _ _ (h.reach v (hW v hv))

/-- Hang the node `x` below `d`. -/
theorem graft (h : Forest E root V) {x d : α} (hx : x ≠ root) (hd : V d)
    (hout : ¬ ReflTransGen E x d) (hF : ∀ a b, F a b ↔ (E a b ∧ b ≠ x) ∨ (a = d ∧ b = x)) :
    Forest F root V := by
  have hkeep : ∀ {a}, ReflTransGen E root a → ¬ ReflTransGen E x a → ReflTransGen F root a := by
    intro a ha
    induction ha with
    | refl => exact fun _ => .refl
    | tail hab hbc ih =>
      intro hno
      have hb : ¬ ReflTransGen E x _ := fun hp => hno (hp.tail hbc)
      refine (ih hb).tail ((hF _ _).mpr (.inl ⟨hbc, ?_⟩))
      rintro rfl
      exact hno .refl
  have hnew : ReflTransGen F root x :=
    (hkeep (h.reach d hd) hout).tail ((hF d x).mpr (.inr ⟨rfl, rfl⟩))
  refine ⟨?_, ?_, ?_⟩
  · intro a ha
    rcases (hF a root).mp ha with ⟨hE, -⟩ | ⟨-, heq⟩
    · exact h.top a hE
    · exact hx heq.symm
  · intro a b c ha hb
    rcases (hF a c).mp ha with ⟨ha, hc⟩ | ⟨rfl, hc⟩ <;>
      rcases (hF b c).mp hb with ⟨hb, hc'⟩ | ⟨rfl, hc'⟩
    · exact h.parent a b c ha hb
    · exact absurd hc' hc
    · exact absurd hc hc'
    · rfl
  · intro v hv
    have hall : ∀ {a}, ReflTransGen E root a → ReflTransGen F root a := by
      intro a ha
      induction ha with
      | refl => exact .refl
      | @tail b c _ hbc ih =>
        by_cases hc : c = x
        · rw [hc]
          exact hnew
        · exact ih.tail ((hF b c).mpr (.inl ⟨hbc, hc⟩))
    exact hall (h.reach v hv)

/-- Take a node without children away. -/
theorem prune (h : Forest E root V) {x : α} (hleaf : ∀ b, ¬ E x b)
    (hF : ∀ a b, F a b ↔ E a b ∧ b ≠ x) {W : α → Prop} (hW : ∀ v, W v → V v ∧ v ≠ x) :
    Forest F root W where
  top a ha := h.top a ((hF a root).mp ha).1
  parent a b c ha hb := h.parent a b c ((hF a c).mp ha).1 ((hF b c).mp hb).1
  reach v hv := by
    obtain ⟨hV, hne⟩ := hW v hv
    have hall : ∀ {a}, ReflTransGen E root a → a ≠ x → ReflTransGen F root a := by
      intro a ha
      induction ha with
      | refl => exact fun _ => .refl
      | @tail b c _ hbc ih =>
        intro hc
        have hb : b ≠ x := by
          rintro rfl
          exact hleaf c hbc
        exact (ih hb).tail ((hF b c).mpr ⟨hbc, hc⟩)
    exact hall (h.reach v hV) hne

end Forest

end NtfsKit
