import Mathlib.Tactic
import NtfsKit.Lib.Prog

/-! Finite buffers over a flat store. A store is a function of addresses and a buffer a
list; a stretch of the store fills a buffer, and a buffer overwrites a stretch. A loop in
strides of one length handles a buffer piece by piece. -/

namespace NtfsKit

variable {V : Type}

/-- The `n` values of the store from address `a` on. -/
def stretch (f : ℤ → V) (a : ℤ) (n : ℕ) : List V := (List.range n).map fun i : ℕ => f (a + i)

/-- The store with the buffer `l` put down at address `a`. -/
def overwrite (f : ℤ → V) (a : ℤ) (l : List V) : ℤ → V := fun q =>
  if a ≤ q then l.getD (q - a).toNat (f q) else f q

/-- The elements `[o, o + n)` of a buffer; `none` when the slice is not inside it. -/
def slice? (l : List V) (o n : ℕ) : Option (List V) :=
  if o + n ≤ l.length then some ((l.drop o).take n) else none

/-- The buffer with `x` put down at `o`; `none` when `x` does not fit. -/
def splice? (l : List V) (o : ℕ) (x : List V) : Option (List V) :=
  if o + x.length ≤ l.length then some (l.take o ++ x ++ l.drop (o + x.length)) else none

@[simp] theorem length_stretch (f : ℤ → V) (a : ℤ) (n : ℕ) : (stretch f a n).length = n := by
  simp [stretch]

theorem getElem?_stretch {f : ℤ → V} {a : ℤ} {n i : ℕ} (h : i < n) :
    (stretch f a n)[i]? = some (f (a + i)) := by
  simp [stretch, h]

theorem stretch_congr {f g : ℤ → V} {a : ℤ} {n : ℕ}
    (h : ∀ q, a ≤ q → q < a + n → f q = g q) : stretch f a n = stretch g a n := by
  refine List.map_congr_left fun i hi => ?_
  have hi := List.mem_range.mp hi
  exact h _ (by omega) (by omega)

/-- A stretch inside another one. -/
theorem slice?_stretch {f : ℤ → V} {a : ℤ} {o n m : ℕ} (h : o + n ≤ m) :
    slice? (stretch f a m) o n = some (stretch f (a + o) n) := by
  rw [slice?, length_stretch, if_pos h]
  congr 1
  apply List.ext_getElem?
  intro i
  by_cases hi : i < n
  · rw [List.getElem?_take_of_lt hi, List.getElem?_drop, getElem?_stretch (by omega),
      getElem?_stretch hi]
    congr 2
    push_cast
    ring
  · rw [List.getElem?_eq_none (by simp; omega), List.getElem?_eq_none (by simp; omega)]

theorem overwrite_apply (f : ℤ → V) (a : ℤ) (l : List V) {q : ℤ} {v : V} (ha : a ≤ q)
    (h : l[(q - a).toNat]? = some v) : overwrite f a l q = v := by
  rw [overwrite, if_pos ha, List.getD, h]
  rfl

theorem overwrite_outside (f : ℤ → V) (a : ℤ) (l : List V) {q : ℤ}
    (h : ¬ (a ≤ q ∧ q < a + l.length)) : overwrite f a l q = f q := by
  unfold overwrite
  split_ifs with ha
  · rw [List.getD, List.getElem?_eq_none (by omega)]
    rfl
  · rfl

/-- A buffer put down piece by piece. -/
theorem overwrite_take (f : ℤ → V) (a : ℤ) (l : List V) {p n : ℕ} (h : p + n ≤ l.length) :
    overwrite (overwrite f a (l.take p)) (a + p) ((l.drop p).take n) =
      overwrite f a (l.take (p + n)) := by
  funext q
  by_cases h1 : a ≤ q ∧ q < a + p
  · rw [overwrite_outside _ _ _ (by omega)]
    unfold overwrite
    rw [if_pos h1.1, if_pos h1.1, List.getD, List.getD, List.getElem?_take_of_lt (by omega),
      List.getElem?_take_of_lt (by omega)]
  by_cases h2 : a + p ≤ q ∧ q < a + p + n
  · have hlen : (q - a).toNat < l.length := by omega
    rw [overwrite_apply (v := l[(q - a).toNat]) _ _ _ h2.1, overwrite_apply (v := l[(q - a).toNat])]
    · omega
    · rw [List.getElem?_take_of_lt (by omega), List.getElem?_eq_getElem hlen]
    · rw [List.getElem?_take_of_lt (by omega), List.getElem?_drop,
        show p + (q - (a + p)).toNat = (q - a).toNat by omega, List.getElem?_eq_getElem hlen]
  · rw [overwrite_outside _ _ _ (by simp; omega), overwrite_outside _ _ _ (by simp; omega),
      overwrite_outside _ _ _ (by simp; omega)]

theorem length_splice? {l x m : List V} {o : ℕ} (h : splice? l o x = some m) :
    m.length = l.length := by
  unfold splice? at h
  split_ifs at h with hle
  obtain rfl := Option.some.inj h
  simp
  omega

/-- Reading a spliced buffer. -/
theorem getElem?_splice? {l x m : List V} {o : ℕ} (h : splice? l o x = some m) (i : ℕ) :
    m[i]? = if o ≤ i ∧ i < o + x.length then x[i - o]? else l[i]? := by
  unfold splice? at h
  split_ifs at h with hle
  obtain rfl := Option.some.inj h
  have hlen : (l.take o).length = o := by simp; omega
  split_ifs with hi
  · rw [List.append_assoc, List.getElem?_append_right (by omega), hlen,
      List.getElem?_append_left (by omega)]
  · by_cases hlt : i < o
    · rw [List.append_assoc, List.getElem?_append_left (by omega), List.getElem?_take_of_lt hlt]
    · rw [List.getElem?_append_right (by simp; omega), List.getElem?_drop]
      congr 1
      simp
      omega

/-! ### Strides -/

/-- The first `n` multiples of `g` from `p` on. -/
def strideFrom (g : ℕ) : ℕ → ℕ → List ℕ
  | 0, _ => []
  | n + 1, p => p :: strideFrom g n (p + g)

/-- `stride(from: 0, to: length, by: g)`. -/
def strides (length g : ℕ) : List ℕ := strideFrom g ((length + g - 1) / g) 0

theorem wp_strideFrom {S E : Type} {body : ℕ → Prog S E Unit} {inv : ℕ → S → Prop}
    {X : E → S → Prop} {g l : ℕ}
    (hbody : ∀ p s, p + g ≤ l → g ∣ p → inv p s → Prog.wp (body p) (fun _ t => inv (p + g) t) X s) :
    ∀ (n p : ℕ) (s : S), p + n * g = l → g ∣ p → inv p s →
      Prog.wp (Prog.each body (strideFrom g n p)) (fun _ t => inv l t) X s
  | 0, p, s, hp, _, h => by
    obtain rfl : p = l := by omega
    exact h
  | n + 1, p, s, hp, hd, h => by
    rw [Nat.succ_mul] at hp
    rw [strideFrom, Prog.each, Prog.wp_bind]
    refine Prog.wp_mono (hbody p s (by omega) hd h) (fun _ t ht => ?_) (fun _ _ hx => hx)
    exact wp_strideFrom hbody n (p + g) t (by omega) (hd.add (dvd_refl g)) ht

/-- The rule for a loop in strides over a buffer they divide. -/
theorem wp_strides {S E : Type} {body : ℕ → Prog S E Unit} (inv : ℕ → S → Prop)
    {X : E → S → Prop} {g l : ℕ} (hg : 0 < g) (hdvd : g ∣ l) {s : S} (h : inv 0 s)
    (hbody : ∀ p s, p + g ≤ l → g ∣ p → inv p s →
      Prog.wp (body p) (fun _ t => inv (p + g) t) X s) :
    Prog.wp (Prog.each body (strides l g)) (fun _ t => inv l t) X s := by
  obtain ⟨k, rfl⟩ := hdvd
  have hn : (g * k + g - 1) / g = k := by
    rw [Nat.add_sub_assoc hg, Nat.mul_add_div hg, Nat.div_eq_of_lt (by omega), Nat.add_zero]
  rw [strides, hn]
  exact wp_strideFrom hbody k 0 s (by rw [Nat.zero_add, Nat.mul_comm]) (dvd_zero g) h

end NtfsKit
