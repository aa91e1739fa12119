import NtfsKit.Protocol.Landed

/-! The part of an outstanding window that no truncation cut off lies below the mark, so that
no zeroing of the engine reaches it. This holds along every move, for windows that a
truncation cut short as well as for whole ones. -/

namespace NtfsKit

/-- The live bytes of outstanding windows are below the mark. -/
def LiveBelow (p : Proto) : Prop :=
  ∀ (i : ℕ) w, p.windows[i]? = some w → w.status = .outstanding → ∀ x, w.start ≤ x → x < w.live →
    x < p.view.mark

section Moves

variable {grain : ℤ} {p q : Proto} (h : LiveBelow p)
include h

theorem LiveBelow.grow (hm : p.view.mark ≤ q.view.mark) (hw : q.windows = p.windows) :
    LiveBelow q := fun i w hi ho x h1 h2 =>
  (h i w (hw ▸ hi) ho x h1 h2).trans_le hm

/-- A window that ends gives up its bytes; the others keep theirs below the mark. -/
theorem LiveBelow.finish {i : ℕ} {st : Status} (hst : st ≠ .outstanding)
    (hw : q.windows = p.windows.modify i (Window.finish st))
    (hm : ∀ j w, p.windows[j]? = some w → i ≠ j → w.status = .outstanding → ∀ x, w.start ≤ x →
      x < w.live → x < p.view.mark → x < q.view.mark) : LiveBelow q := by
  intro j w hj ho x h1 h2
  rw [hw, lookup_modify] at hj
  obtain ⟨u, hu, rfl⟩ := hj
  split_ifs at ho h1 h2 with hij
  · exact absurd ho hst
  · exact hm j u hu hij ho x h1 h2 (h j u hu ho x h1 h2)

/-- An abort lowers the mark to the start of the top window, above which only that window had
bytes that are not initialized. -/
theorem LiveBelow.abort (hwin : WindowsOk p) {i : ℕ} {w : Window} (hi : p.windows[i]? = some w)
    (hf : ∃ u, p.windows[i]? = some u ∧ u.status = .outstanding)
    (ha : AbortTry w.start w.stop p.view q.view)
    (hw : q.windows = p.windows.modify i (Window.finish .aborted)) : LiveBelow q := by
  obtain ⟨w', hi', hs⟩ := hf
  obtain rfl : w = w' := Option.some.inj (hi.symm.trans hi')
  refine h.finish (by decide) hw fun j u hj hij ho x h1 h2 hlt => ?_
  have hu := hwin.each j u hj
  have hap := hwin.apart i j w u hi hj hij hs (hu.fresh ho)
  have hlive := hu.live_le
  have hinit := ha.init
  unfold View.mark at hlt ⊢
  unfold Window.Apart at hap
  rcases ha.hwm with hh | ⟨h3, h4, hh | ⟨hh, h5⟩⟩ <;> omega

/-- The invariant along a move. -/
theorem LiveBelow.moves (hwin : WindowsOk p) {m : Move} (hm : Moves grain p m q)
    (hf : Fair p.windows m) : LiveBelow q := by
  cases m with
  | read bs => exact h.grow hm.1.grows.mark_le hm.2
  | disturb => exact h.grow hm.1.grows.mark_le hm.2
  | map off stop req =>
    intro j w hj ho x h1 h2
    rw [hm.2] at hj
    rcases lookup_concat.mp hj with hj | ⟨-, rfl⟩
    · obtain ⟨u, hu, rfl⟩ := lookup_map.mp hj
      obtain ⟨h3, h4, -⟩ := u.overlap_same off stop
      rw [u.overlap_live] at h2
      exact (h j u hu (h3 ▸ ho) x (h4 ▸ h1) h2).trans_le hm.1.grows.mark_le
    · exact lt_of_lt_of_le h2 hm.1.stop_le_mark
  | land i a b data =>
    intro j w hj ho x h1 h2
    rw [hm.2, lookup_modify] at hj
    obtain ⟨u, hu, rfl⟩ := hj
    have hmark : q.view.mark = p.view.mark := by
      simp only [View.mark, hm.1.init, hm.1.hwm]
    rw [hmark]
    split_ifs at ho h1 h2
    · exact h j u hu ho x h1 h2
    · exact h j u hu ho x h1 h2
  | complete i =>
    obtain ⟨w, -, hc, hw⟩ := hm
    exact h.finish (by decide) hw fun _ _ _ _ _ x _ _ hlt => hlt.trans_le hc.grows.mark_le
  | giveUp i =>
    obtain ⟨w, -, hc, hw⟩ := hm
    have hg : Grows p.view q.view := hc.elim Stalled.grows Complete.grows
    exact h.finish (by decide) hw fun _ _ _ _ _ x _ _ hlt => hlt.trans_le hg.mark_le
  | abort i =>
    obtain ⟨w, hi, hc, hw⟩ := hm
    exact h.abort hwin hi hf hc.abortTry hw
  | abortTry i =>
    obtain ⟨w, hi, hc, hw⟩ := hm
    exact h.abort hwin hi hf hc hw
  | truncate size =>
    intro j w hj ho x h1 h2
    rw [hm.2, lookup_map] at hj
    obtain ⟨u, hu, rfl⟩ := hj
    simp only [Window.cut] at h2
    have hlt := h j u hu ho x h1 (by omega)
    have h3 := hm.1.init_le
    have h4 := hm.1.hwm
    unfold View.mark at hlt ⊢
    omega

end Moves

end NtfsKit
