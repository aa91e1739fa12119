import NtfsKit.Bridge.Tiling

/-! The hole fill of a write map. Every round of its loop takes a byte of the window out of a
hole for good, whatever the file, as long as a full `ntfs_attr_pwrite` leaves no hole where it
wrote and no call takes clusters away. The extents of a map that returns 0 are then all in
clusters. -/

namespace NtfsKit

open Prog

variable {σ : Type}

/-- The clusters of `f` are still there in `g`. -/
def StillBacked (vol : NtfsVolume) (f g : NkFile σ) : Prop :=
  ∀ x, (f.phys vol x).isSome → (g.phys vol x).isSome

section Ends

variable {L : Libntfs σ} {v : NkVolume} (hF : L.FillsHoles v.vol)
include hF

/-- A fill that returns has backed the whole hole. -/
theorem fillHole_backs (hwm : ℤ) {start stop : ℤ} (hlt : start ≤ stop) (f : NkFile σ) :
    wp (fillHole L v hwm start stop) (fun _ g => StillBacked v.vol f g ∧
      ∀ x, start ≤ x → x < stop → (g.phys v.vol x).isSome) (fun e _ => e.Errs) f := by
  let inv : ℤ → NkFile σ → Prop := fun p g => StillBacked v.vol f g ∧
    ∀ x, start ≤ x → x < p → (g.phys v.vol x).isSome
  have hskip : inv start (skipInFlight hwm start f) :=
    ⟨fun x hx => by rw [(skipInFlight_spec v.vol hwm start f).1]; exact hx, fun x h1 h2 => by omega⟩
  unfold fillHole
  rw [wp_bind, wp_modify, wp_bind]
  refine wp_mono (wp_chunks (by decide) inv hlt hskip ?_) ?_ fun _ _ h => h
  · rintro p n g - - - ⟨hkeep, hback⟩
    refine wp_mono (orFail_errs _ n g) ?_ fun _ _ h => h
    rintro _ k ⟨hr, rfl⟩
    refine ⟨fun x hx => hF.keeps _ _ _ _ hr x (hkeep x hx), fun x h1 h2 => ?_⟩
    by_cases hx : x < p
    · exact hF.keeps _ _ _ _ hr x (hback x h1 hx)
    · exact hF.backed _ _ _ _ hr x (by dsimp only; omega) h2
  · rintro _ g ⟨hkeep, hback⟩
    unfold mapChecked
    rw [wp_bind]
    refine wp_mono (orFail_errs _ 0 g) ?_ fun _ _ h => h
    rintro _ k ⟨-, rfl⟩
    rw [wp_bind, wp_read]
    refine wp_ite (fun _ => (by decide : (-1 : ℤ) ≠ 0)) fun _ => ?_
    exact ⟨fun x hx => hF.maps _ x (hkeep x hx), fun x h1 h2 => hF.maps _ x (hback x h1 h2)⟩

/-- Every round takes a byte of the window out of a hole for good. -/
theorem fillHoles_ends (hM : L.Maps) (hc : 0 < v.vol.clusterSize) (hwm offset reqEnd : ℤ) :
    ∀ (fuel : ℕ) (f : NkFile σ), f.na.rl.Accepted v.vol →
      (unbacked v.vol offset reqEnd f).card < fuel →
      wp (fillHoles L v hwm offset reqEnd fuel) (fun _ _ => True) (fun e _ => e ≠ .diverge) f
  | 0, _, _, h => by omega
  | fuel + 1, f, hf, hcard => by
    rw [fillHoles, wp_bind, wp_read]
    cases hh : firstHole v.vol.clusterSize offset reqEnd f.na.rl.elements with
    | none => trivial
    | some w =>
      obtain ⟨s, t⟩ := w
      obtain ⟨h1, h2, h3, -⟩ := firstHole_some hh
      have hole : f.phys v.vol s = none := firstHole_phys hc hf.contiguous hh le_rfl h2
      rw [wp_bind]
      refine wp_mono (wp_and (fillHole_backs hF hwm h2.le f) (fillHole_accepts hM hwm s t f)) ?_ ?_
      · rintro _ g ⟨⟨hkeep, hback⟩, hacc⟩
        refine fillHoles_ends hM hc hwm offset reqEnd fuel g hacc ?_
        have hlt : (unbacked v.vol offset reqEnd g).card < (unbacked v.vol offset reqEnd f).card :=
          unbacked_card_lt h1 (by omega) hole
            (Option.isSome_iff_exists.mp (hback s le_rfl h2)) fun x p hx =>
              Option.isSome_iff_exists.mp (hkeep x (by rw [hx]; rfl))
        omega
      · rintro e _ ⟨he, -⟩ rfl
        exact he

theorem fillWindow_ends (hM : L.Maps) (hc : 0 < v.vol.clusterSize) (hwm offset reqEnd oi : ℤ)
    (forWrite : Bool) {f : NkFile σ} (hf : f.na.rl.Accepted v.vol) :
    wp (fillWindow L v hwm offset reqEnd oi forWrite) (fun _ _ => True)
      (fun e _ => e ≠ .diverge) f := by
  have hcard := unbacked_card_lt_fuel v.vol offset reqEnd f
  unfold fillWindow
  refine wp_ite (fun _ => ?_) (fun _ => trivial)
  rw [wp_bind]
  refine wp_mono (fillHoles_ends hF hM hc hwm offset reqEnd _ f hf hcard) (fun _ g _ => ?_)
    fun _ _ h => h
  unfold restoreInit
  rw [wp_bind, wp_read]
  refine wp_ite (fun _ => ?_) (fun _ => trivial)
  refine wp_mono (orFail_errs _ 0 g) (fun _ _ _ => trivial) ?_
  rintro e _ he rfl
  exact he

omit hF in
theorem leave_returns {e : Exit} (h : e ≠ .diverge) (oi : ℤ) (f : NkFile σ) :
    ∃ c, (leave L oi e f).ret = some c := by
  cases e with
  | out r => exact ⟨_, rfl⟩
  | diverge => exact absurd rfl h

omit hF in
theorem Exit.Errs.ne_diverge {e : Exit} (h : e.Errs) : e ≠ .diverge := by
  rintro rfl
  exact h

/-- The call returns. -/
theorem nkBlockmap_returns (hM : L.Maps) (hc : 0 < v.vol.clusterSize) (offset length : ℤ)
    (forWrite : Bool) (blocksize : ℤ) (cb : List Extent → Bool) (f : NkFile σ) :
    ∃ c, (nkBlockmap L v offset length forWrite blocksize cb f).ret = some c := by
  have hbody : ∀ (reqEnd bs : ℤ) (f : NkFile σ),
      ∃ c, (blockmapBody L v offset reqEnd forWrite bs cb f).ret = some c := by
    intro reqEnd bs f
    have hprep := prepare_accepts (L := L) (v := v) hM offset reqEnd forWrite f
    unfold blockmapBody
    rcases hp : prepare L v offset reqEnd forWrite f with ⟨e | hwm, g⟩
    · exact leave_returns (wp_error hprep hp).ne_diverge _ _
    have hg := wp_ok hprep hp
    have hfill := wp_and (fillWindow_ends hF hM hc hwm offset reqEnd
      (if forWrite = true then g.na.initializedSize else -1) forWrite (f := g) hg)
      (fillWindow_accepts hM hwm offset reqEnd
        (if forWrite = true then g.na.initializedSize else -1) forWrite (f := g) hg)
    rcases hk : fillWindow L v hwm offset reqEnd
      (if forWrite = true then g.na.initializedSize else -1) forWrite g with ⟨e | _, k⟩
    · have he := wp_error hfill hk
      simp only [hk]
      exact leave_returns he.1 _ _
    have hie := initEnd_accepts (L := L) hM bs forWrite (wp_ok hfill hk).2.1
    rcases hl : initEnd L v bs forWrite k with ⟨e | ie, l⟩
    · simp only [hk, hl]
      exact leave_returns (wp_error hie hl).ne_diverge _ _
    · simp only [hk, hl]
      exact ⟨_, rfl⟩
  unfold nkBlockmap
  dsimp only
  split_ifs
  · exact ⟨_, rfl⟩
  · exact ⟨_, rfl⟩
  · exact ⟨_, rfl⟩
  · exact ⟨_, rfl⟩
  · exact hbody _ _ _

end Ends

end NtfsKit
