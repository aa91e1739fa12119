import Mathlib.Tactic
import NtfsKit.Lib.Prog

/-! A byte range cut into consecutive pieces of bounded length, in increasing
order: the argument list of every loop that handles a range through a buffer of
fixed size. The rule for such a loop is an invariant indexed by the position
reached so far. -/

namespace NtfsKit

/-- The pieces of `[p, e)`, at most `fuel` of them. -/
def chunksFrom (size : ℤ) : ℕ → ℤ → ℤ → List (ℤ × ℤ)
  | 0, _, _ => []
  | n + 1, p, e =>
    if p < e then
      let chunk := if e - p < size then e - p else size
      (p, chunk) :: chunksFrom size n (p + chunk) e
    else []

/-- The pieces `(position, length)` of `[p, e)`, none longer than `size`. -/
def chunks (size p e : ℤ) : List (ℤ × ℤ) := chunksFrom size (e - p).toNat p e

theorem chunks_nil {size p e : ℤ} (h : e ≤ p) : chunks size p e = [] := by
  rw [chunks, Int.toNat_of_nonpos (by omega)]
  rfl

/-- The length of the first piece. -/
def headChunk (size p e : ℤ) : ℤ := if e - p < size then e - p else size

theorem headChunk_pos {size p e : ℤ} (hs : 0 < size) (h : p < e) : 0 < headChunk size p e := by
  unfold headChunk
  split_ifs <;> omega

theorem headChunk_le (size p e : ℤ) : p + headChunk size p e ≤ e := by
  unfold headChunk
  split_ifs <;> omega

/-- Fuel beyond the length of the range changes nothing. -/
theorem chunksFrom_eq {size : ℤ} (hs : 0 < size) :
    ∀ (n m : ℕ) (p e : ℤ), (e - p).toNat ≤ n → (e - p).toNat ≤ m →
      chunksFrom size n p e = chunksFrom size m p e
  | 0, m, p, e, h, _ => by
    cases m with
    | zero => rfl
    | succ m => rw [chunksFrom, chunksFrom, if_neg (by omega)]
  | n + 1, 0, p, e, _, h => by rw [chunksFrom, chunksFrom, if_neg (by omega)]
  | n + 1, m + 1, p, e, hn, hm => by
    simp only [chunksFrom]
    split_ifs with h1 h2
    · rw [chunksFrom_eq hs n m _ _ (by omega) (by omega)]
    · rw [chunksFrom_eq hs n m _ _ (by omega) (by omega)]
    · rfl

theorem chunks_cons {size p e : ℤ} (hs : 0 < size) (h : p < e) :
    chunks size p e =
      (p, headChunk size p e) :: chunks size (p + headChunk size p e) e := by
  have hpos := headChunk_pos hs h
  obtain ⟨n, hn⟩ : ∃ n, (e - p).toNat = n + 1 := ⟨(e - p).toNat - 1, by omega⟩
  rw [chunks, hn, chunksFrom, if_pos h]
  change (p, headChunk size p e) :: chunksFrom size n (p + headChunk size p e) e = _
  rw [chunksFrom_eq hs n (e - (p + headChunk size p e)).toNat _ _ (by omega) le_rfl]
  rfl

/-- Every piece lies in the range. -/
theorem chunks_mem {size : ℤ} (hs : 0 < size) (p e : ℤ) :
    ∀ c ∈ chunks size p e, p ≤ c.1 ∧ 0 < c.2 ∧ c.1 + c.2 ≤ e := by
  induction hn : (e - p).toNat using Nat.strong_induction_on generalizing p with
  | h n ih =>
    intro c hc
    by_cases h : p < e
    · have hpos := headChunk_pos hs h
      have hle := headChunk_le size p e
      rw [chunks_cons hs h, List.mem_cons] at hc
      rcases hc with rfl | hc
      · exact ⟨le_rfl, hpos, hle⟩
      · obtain ⟨h1, h2, h3⟩ := ih _ (by omega) (p + headChunk size p e) rfl c hc
        exact ⟨by omega, h2, h3⟩
    · rw [chunks_nil (by omega)] at hc
      cases hc

/-- Every byte of the range lies in a piece. -/
theorem chunks_cover {size : ℤ} (hs : 0 < size) (p e x : ℤ) (h1 : p ≤ x) (h2 : x < e) :
    ∃ c ∈ chunks size p e, c.1 ≤ x ∧ x < c.1 + c.2 := by
  induction hn : (e - p).toNat using Nat.strong_induction_on generalizing p with
  | h n ih =>
    have h : p < e := by omega
    have hpos := headChunk_pos hs h
    rw [chunks_cons hs h]
    by_cases hx : x < p + headChunk size p e
    · exact ⟨_, List.mem_cons_self, h1, hx⟩
    · obtain ⟨c, hc, hcx⟩ := ih _ (by omega) (p + headChunk size p e) (by omega) rfl
      exact ⟨c, List.mem_cons_of_mem _ hc, hcx⟩

variable {S E : Type}

/-- A loop over the pieces of `[a, e)` moves an invariant from `a` to `e`. -/
theorem Prog.wp_chunks {size : ℤ} (hs : 0 < size) {body : ℤ × ℤ → Prog S E Unit}
    (inv : ℤ → S → Prop) {X : E → S → Prop} {a e : ℤ} {s : S} (hae : a ≤ e) (h : inv a s)
    (hbody : ∀ p n s, a ≤ p → 0 < n → p + n ≤ e → inv p s →
      wp (body (p, n)) (fun _ t => inv (p + n) t) X s) :
    wp (each body (chunks size a e)) (fun _ t => inv e t) X s := by
  induction hn : (e - a).toNat using Nat.strong_induction_on generalizing a s with
  | h n ih =>
    by_cases hlt : a < e
    · have hpos := headChunk_pos hs hlt
      have hle := headChunk_le size a e
      rw [chunks_cons hs hlt, each, wp_bind]
      refine wp_mono (hbody a _ s le_rfl hpos hle h) (fun _ t ht => ?_) (fun _ _ hx => hx)
      exact ih _ (by omega) hle ht (fun p n s hp => hbody p n s (by omega)) rfl
    · rw [chunks_nil (by omega)]
      obtain rfl : a = e := by omega
      exact h

end NtfsKit
