import Mathlib.Tactic

/-! Labelled runs of a deterministic system. A step takes an event and answers
with a result; a run is restricted by a rule on the state before the step, the
event and the result. What every step allowed by the rule preserves holds in
every state a run reaches. -/

namespace NtfsKit

variable {S E R : Type}

/-- The runs of `step` whose steps all meet the rule `ok`. -/
inductive Run (step : S → E → R × S) (ok : S → E → R → Prop) : S → S → Prop
  | refl (s : S) : Run step ok s s
  | tail {s t : S} (e : E) : Run step ok s t → ok t e (step t e).1 →
      Run step ok s (step t e).2

variable {step : S → E → R × S} {ok : S → E → R → Prop}

/-- The invariant rule. -/
theorem Run.invariant {inv : S → Prop} (hstep : ∀ s e, inv s → ok s e (step s e).1 →
    inv (step s e).2) {s t : S} (hr : Run step ok s t) (hs : inv s) : inv t := by
  induction hr with
  | refl => exact hs
  | tail e _ hok ih => exact hstep _ e ih hok

theorem Run.mono {ok' : S → E → R → Prop} (h : ∀ s e r, ok s e r → ok' s e r) {s t : S}
    (hr : Run step ok s t) : Run step ok' s t := by
  induction hr with
  | refl => exact .refl _
  | tail e _ hok ih => exact .tail e ih (h _ _ _ hok)

/-- The transfer rule: where an invariant makes two systems take the same steps, the runs of
one are runs of the other. -/
theorem Run.transfer {step' : S → E → R × S} {ok' : S → E → R → Prop} {inv : S → Prop}
    (hstep : ∀ s e, inv s → ok s e (step s e).1 →
      step s e = step' s e ∧ ok' s e (step' s e).1 ∧ inv (step' s e).2)
    {s t : S} (hr : Run step ok s t) (hs : inv s) : Run step' ok' s t ∧ inv t := by
  induction hr with
  | refl => exact ⟨.refl _, hs⟩
  | tail e _ hok ih =>
    obtain ⟨hrun, hinv⟩ := ih
    obtain ⟨heq, hok', hnext⟩ := hstep _ e hinv hok
    rw [heq]
    exact ⟨.tail e hrun hok', hnext⟩

/-- Execute a list of events in order. -/
def execAll (step : S → E → R × S) : List E → S → S
  | [], s => s
  | e :: es, s => execAll step es (step s e).2

/-- Every event of the list meets the rule where it is executed. -/
def AllOk (step : S → E → R × S) (ok : S → E → R → Prop) : List E → S → Prop
  | [], _ => True
  | e :: es, s => ok s e (step s e).1 ∧ AllOk step ok es (step s e).2

instance [∀ s e r, Decidable (ok s e r)] : ∀ (es : List E) (s : S), Decidable (AllOk step ok es s)
  | [], _ => inferInstanceAs (Decidable True)
  | e :: es, s =>
    have : Decidable (AllOk step ok es (step s e).2) := instDecidableAllOk es (step s e).2
    inferInstanceAs (Decidable (ok s e (step s e).1 ∧ AllOk step ok es (step s e).2))

theorem Run.execAll_from {s₀ : S} : ∀ (es : List E) (s : S), Run step ok s₀ s →
    AllOk step ok es s → Run step ok s₀ (execAll step es s)
  | [], _, hr, _ => hr
  | e :: es, _, hr, ⟨h, hs⟩ => Run.execAll_from es _ (.tail e hr h) hs

/-- A list of events that meets the rule is a run. -/
theorem Run.of_execAll {es : List E} {s : S} (h : AllOk step ok es s) :
    Run step ok s (execAll step es s) :=
  Run.execAll_from es s (.refl s) h

/-- The answers to a list of events. -/
def answers (step : S → E → R × S) : List E → S → List R
  | [], _ => []
  | e :: es, s => (step s e).1 :: answers step es (step s e).2

/-- The simulation rule: two systems that answer alike from related states, and stay related
while the answers meet a rule, meet the rule on the same lists of events. -/
theorem execAll_sim {S' : Type} {step' : S' → E → R × S'} {ok : E → R → Prop} (rel : S → S' → Prop)
    (hans : ∀ s s' e, rel s s' → (step s e).1 = (step' s' e).1)
    (hrel : ∀ s s' e, rel s s' → ok e (step s e).1 → rel (step s e).2 (step' s' e).2)
    (es : List E) : ∀ s s', rel s s' →
      (AllOk step (fun _ => ok) es s ↔ AllOk step' (fun _ => ok) es s') ∧
      (AllOk step (fun _ => ok) es s → answers step es s = answers step' es s' ∧
        rel (execAll step es s) (execAll step' es s')) := by
  induction es with
  | nil =>
    intro s s' h
    exact ⟨Iff.rfl, fun _ => ⟨rfl, h⟩⟩
  | cons e es ih =>
    intro s s' h
    have ha := hans s s' e h
    constructor
    · simp only [AllOk, ← ha]
      exact and_congr_right fun hok => (ih _ _ (hrel s s' e h hok)).1
    · rintro ⟨hok, hall⟩
      obtain ⟨hanswers, hfinal⟩ := (ih _ _ (hrel s s' e h hok)).2 hall
      refine ⟨?_, hfinal⟩
      simp only [answers, ha, hanswers]

end NtfsKit
