import Mathlib.Tactic

/-! Programs over an explicit state with an early exit, and their weakest
preconditions. A program either returns a value or leaves through an exit code;
both outcomes carry the state it left behind, so a cleanup path can run after an
exit. The rules below follow the constructors: return, exit, sequencing, a call
of a state function, and a loop over a list of arguments. -/

namespace NtfsKit

variable {S E A B : Type}

/-- A program over `S` that returns an `A` or leaves through an `E`. -/
def Prog (S E A : Type) := S → Except E A × S

namespace Prog

instance : Monad (Prog S E) where
  pure a s := (.ok a, s)
  bind m k s := match m s with
    | (.ok a, t) => k a t
    | (.error e, t) => (.error e, t)

/-- Leave through the exit `e`. -/
def exit (e : E) : Prog S E A := fun s => (.error e, s)

/-- The current state. -/
def read : Prog S E S := fun s => (.ok s, s)

/-- Change the state. -/
def modify (g : S → S) : Prog S E Unit := fun s => (.ok (), g s)

/-- Run a state function that always returns. -/
def call (g : S → A × S) : Prog S E A := fun s => (.ok (g s).1, (g s).2)

/-- Run `body` on every argument of a list, in order. -/
def each (body : B → Prog S E Unit) : List B → Prog S E Unit
  | [] => pure ()
  | b :: bs => do body b; each body bs

theorem bind_read {k : S → Prog S E A} {s : S} : (read >>= k) s = k s s := rfl

theorem bind_ok {m : Prog S E B} {k : B → Prog S E A} {s t : S} {b : B} (h : m s = (.ok b, t)) :
    (m >>= k) s = k b t := by
  simp only [bind, h]

theorem bind_error {m : Prog S E B} {k : B → Prog S E A} {s t : S} {e : E}
    (h : m s = (.error e, t)) : (m >>= k) s = (.error e, t) := by
  simp only [bind, h]

/-- From `s` the program returns into `Q` or exits into `X`. -/
def wp (m : Prog S E A) (Q : A → S → Prop) (X : E → S → Prop) (s : S) : Prop :=
  match m s with
  | (.ok a, t) => Q a t
  | (.error e, t) => X e t

variable {Q Q' : A → S → Prop} {X X' : E → S → Prop} {s : S}

theorem wp_pure {a : A} : wp (pure a : Prog S E A) Q X s ↔ Q a s := Iff.rfl

theorem wp_exit {e : E} : wp (exit e : Prog S E A) Q X s ↔ X e s := Iff.rfl

theorem wp_read {Q : S → S → Prop} : wp (read : Prog S E S) Q X s ↔ Q s s := Iff.rfl

theorem wp_modify {g : S → S} {Q : Unit → S → Prop} :
    wp (modify g : Prog S E Unit) Q X s ↔ Q () (g s) := Iff.rfl

theorem wp_call {g : S → A × S} : wp (call g : Prog S E A) Q X s ↔ Q (g s).1 (g s).2 := Iff.rfl

theorem wp_bind {m : Prog S E B} {k : B → Prog S E A} :
    wp (m >>= k) Q X s ↔ wp m (fun b t => wp (k b) Q X t) X s := by
  simp only [wp, bind]
  cases m s with
  | mk r t => cases r <;> rfl

theorem wp_mono {m : Prog S E A} (h : wp m Q X s) (hQ : ∀ a t, Q a t → Q' a t)
    (hX : ∀ e t, X e t → X' e t) : wp m Q' X' s := by
  unfold wp at h ⊢
  split at h
  · exact hQ _ _ h
  · exact hX _ _ h

theorem wp_and {m : Prog S E A} (h : wp m Q X s) (h' : wp m Q' X' s) :
    wp m (fun a t => Q a t ∧ Q' a t) (fun e t => X e t ∧ X' e t) s := by
  unfold wp at h h' ⊢
  cases hm : m s with
  | mk r t =>
    rw [hm] at h h'
    cases r <;> exact ⟨h, h'⟩

theorem wp_ite {c : Prop} [Decidable c] {m n : Prog S E A} (ht : c → wp m Q X s)
    (hf : ¬ c → wp n Q X s) : wp (if c then m else n) Q X s := by
  split_ifs with h
  · exact ht h
  · exact hf h

theorem wp_ok {m : Prog S E A} {a : A} {t : S} (h : wp m Q X s) (hm : m s = (.ok a, t)) :
    Q a t := by
  simpa only [wp, hm] using h

theorem wp_error {m : Prog S E A} {e : E} {t : S} (h : wp m Q X s)
    (hm : m s = (.error e, t)) : X e t := by
  simpa only [wp, hm] using h

/-- A loop over a list keeps an invariant indexed by the arguments still to come. -/
theorem wp_each {body : B → Prog S E Unit} (inv : List B → S → Prop) {X : E → S → Prop}
    (hbody : ∀ b bs s, inv (b :: bs) s → wp (body b) (fun _ t => inv bs t) X s) :
    ∀ (bs : List B) (s : S), inv bs s → wp (each body bs) (fun _ t => inv [] t) X s
  | [], _, h => h
  | b :: bs, s, h => by
    rw [each, wp_bind]
    exact wp_mono (hbody b bs s h) (fun _ t ht => wp_each inv hbody bs t ht) (fun _ _ hx => hx)

end Prog

end NtfsKit
