import NtfsKit.Lib.Prog

/-! Two runs of one program side by side. A state function respects a relation when
related states get the same answer and stay related; what a program is built of
decides it, constructor by constructor. -/

namespace NtfsKit

variable {S E A B C : Type} {R : S → S → Prop}

/-- From related states, the same answer and related states. -/
def Respects (R : S → S → Prop) (g : S → A × S) : Prop :=
  ∀ s t, R s t → (g s).1 = (g t).1 ∧ R (g s).2 (g t).2

namespace Respects

/-- The two runs, written out. -/
theorem run {g : S → A × S} (h : Respects R g) {s t : S} (hst : R s t) :
    ∃ a s' t', g s = (a, s') ∧ g t = (a, t') ∧ R s' t' := by
  obtain ⟨h1, h2⟩ := h s t hst
  exact ⟨(g s).1, (g s).2, (g t).2, rfl, by rw [h1], h2⟩

theorem pure (a : A) : Respects R (Pure.pure a : Prog S E A) := fun _ _ h => ⟨rfl, h⟩

theorem exit (e : E) : Respects R (Prog.exit e : Prog S E A) := fun _ _ h => ⟨rfl, h⟩

theorem modify {g : S → S} (h : ∀ s t, R s t → R (g s) (g t)) :
    Respects R (Prog.modify g : Prog S E Unit) := fun s t hst => ⟨rfl, h s t hst⟩

theorem call {g : S → A × S} (h : Respects R g) : Respects R (Prog.call g : Prog S E A) :=
  fun s t hst => by
    obtain ⟨h1, h2⟩ := h s t hst
    exact ⟨congrArg Except.ok h1, h2⟩

theorem bind {m : Prog S E B} {k : B → Prog S E A} (hm : Respects R m)
    (hk : ∀ b, Respects R (k b)) : Respects R (m >>= k) := by
  intro s t hst
  obtain ⟨r, s', t', hs, ht, hst'⟩ := hm.run hst
  cases r with
  | ok b =>
    rw [Prog.bind_ok hs, Prog.bind_ok ht]
    exact hk b s' t' hst'
  | error e =>
    rw [Prog.bind_error hs, Prog.bind_error ht]
    exact ⟨rfl, hst'⟩

/-- What a program reads of the state may steer it when related states agree on it. -/
theorem read {k : S → Prog S E A} (heq : ∀ s t, R s t → k s = k t)
    (hk : ∀ s, Respects R (k s)) : Respects R (Prog.read >>= k) := by
  intro s t hst
  rw [Prog.bind_read, Prog.bind_read, ← heq s t hst]
  exact hk s s t hst

theorem ite {c : Prop} [Decidable c] {g h : S → A × S} (hg : Respects R g) (hh : Respects R h) :
    Respects R (if c then g else h) := by
  split_ifs
  · exact hg
  · exact hh

theorem each {body : B → Prog S E Unit} (h : ∀ b, Respects R (body b)) :
    ∀ bs, Respects R (Prog.each body bs)
  | [] => pure ()
  | b :: bs => bind (h b) fun _ => each h bs

/-- A function of the state that related states agree on, and then another one. -/
theorem comp {g : S → B × S} {k : B → S → A × S} (hg : Respects R g)
    (hk : ∀ b, Respects R (k b)) : Respects R fun s => k (g s).1 (g s).2 := by
  intro s t hst
  obtain ⟨h1, h2⟩ := hg s t hst
  dsimp only
  rw [h1]
  exact hk _ _ _ h2

end Respects

end NtfsKit
