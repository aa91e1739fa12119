import Mathlib.Tactic

/-! Code over 64-bit signed integers and arrays in which an operation that leaves its domain
traps. Values are integers; every operation says what it computes and when it stops the
program. The rules give the value of an operation in its domain, as a natural number, so that
a run is followed by rewriting with one rule for each step. -/

namespace NtfsKit

/-- How code ends before its value: it returns `nil`, it traps, or it does not end. -/
inductive Halt
  | nil
  | trap
  | spin
  deriving DecidableEq

abbrev Trapping (A : Type) := Except Halt A

namespace Trapping

variable {A B V : Type}

/-! ### Operations -/

/-- The result of 64-bit arithmetic. -/
def int64 (x : ℤ) : Trapping ℤ := if -2 ^ 63 ≤ x ∧ x < 2 ^ 63 then .ok x else .error .trap

def add (x y : ℤ) : Trapping ℤ := int64 (x + y)

def sub (x y : ℤ) : Trapping ℤ := int64 (x - y)

def mul (x y : ℤ) : Trapping ℤ := int64 (x * y)

def neg (x : ℤ) : Trapping ℤ := int64 (-x)

def div (x y : ℤ) : Trapping ℤ := if y = 0 then .error .trap else int64 (x.tdiv y)

/-- The remainder of `div`. -/
def mod (x y : ℤ) : Trapping ℤ := do
  let _ ← div x y
  pure (x.tmod y)

/-- A shift by less than the word; bits may be lost. -/
def shl (x n : ℤ) : Trapping ℤ :=
  if 0 ≤ n ∧ n < 64 then .ok (BitVec.ofInt 64 x <<< n.toNat).toInt else .error .trap

def lor (x y : ℤ) : ℤ := (BitVec.ofInt 64 x ||| BitVec.ofInt 64 y).toInt

def land (x y : ℤ) : ℤ := (BitVec.ofInt 64 x &&& BitVec.ofInt 64 y).toInt

/-- `b[i]` -/
def index (b : List V) (i : ℤ) : Trapping V :=
  if h : 0 ≤ i ∧ i.toNat < b.length then .ok (b.get ⟨i.toNat, h.2⟩) else .error .trap

/-- `b[i] = x` -/
def store (b : List V) (i : ℤ) (x : V) : Trapping (List V) :=
  if 0 ≤ i ∧ i.toNat < b.length then .ok (b.set i.toNat x) else .error .trap

/-- `b[lo..<hi]` -/
def slice (b : List V) (lo hi : ℤ) : Trapping (List V) :=
  if 0 ≤ lo ∧ lo ≤ hi ∧ hi ≤ b.length then .ok ((b.drop lo.toNat).take (hi - lo).toNat)
  else .error .trap

/-- `[V](repeating: x, count: n)` -/
def repeating (x : V) (n : ℤ) : Trapping (List V) :=
  if 0 ≤ n then .ok (List.replicate n.toNat x) else .error .trap

/-- `lo..<hi` -/
def range (lo hi : ℤ) : Trapping (List ℤ) :=
  if lo ≤ hi then .ok ((List.range (hi - lo).toNat).map fun i : ℕ => lo + i) else .error .trap

/-- `guard c else { return nil }` -/
def orNil (c : Prop) [Decidable c] : Trapping Unit := if c then .ok () else .error .nil

/-- A value, or `return nil`. -/
def ofOption : Option A → Trapping A
  | some a => .ok a
  | none => .error .nil

/-! ### Rules -/

theorem bind_ok {m : Trapping A} {k : A → Trapping B} {a : A} (h : m = .ok a) :
    (m >>= k) = k a := by
  rw [h]
  rfl

/-- A guard that holds under the condition `d` lets the rest of the code run. -/
theorem orNil_eq {c d : Prop} [Decidable c] [Decidable d] {k : Unit → Trapping A}
    {m : Trapping A} (hcd : c ↔ d) (h : d → k () = m) :
    (orNil c >>= k) = if d then m else .error .nil := by
  by_cases hd : d
  · rw [if_pos hd, ← h hd, orNil, if_pos (hcd.mpr hd)]
    rfl
  · rw [if_neg hd, orNil, if_neg (mt hcd.mp hd)]
    rfl

theorem ofOption_unless (c : Prop) [Decidable c] (o : Option A) :
    ofOption (if ¬ c then none else o) = if c then ofOption o else .error .nil := by
  by_cases h : c
  · rw [if_pos h, if_neg (not_not_intro h)]
  · rw [if_neg h, if_pos h]
    rfl

theorem ofOption_guard (c : Prop) [Decidable c] (k : Unit → Option A) :
    ofOption (guard c >>= k) = if c then ofOption (k ()) else .error .nil := by
  by_cases h : c
  · rw [if_pos h, guard, if_pos h]
    rfl
  · rw [if_neg h, guard, if_neg h]
    rfl

theorem ofOption_map_guard (c : Prop) [Decidable c] (k : Unit → Option A) (f : A → B) :
    ofOption ((guard c >>= k).map f) = if c then ofOption ((k ()).map f) else .error .nil := by
  rw [← ofOption_guard c fun u => (k u).map f]
  exact congrArg ofOption (Option.map_bind ..)

/-- A value that code and its counterpart over options both compute. -/
theorem bind_ofOption {C D : Type} {m : Trapping A} {k : A → Trapping B} {o : Option C} {g : C → A}
    {l : C → Option D} {f : D → B} (hm : m = ofOption (o.map g))
    (h : ∀ c, o = some c → k (g c) = ofOption ((l c).map f)) :
    (m >>= k) = ofOption ((o >>= l).map f) := by
  subst hm
  cases o with
  | none => rfl
  | some c => exact h c rfl

section Values

variable {x y : ℤ} {n : ℕ}

theorem int64_ok (h : x = n) (hn : n < 2 ^ 63) : int64 x = .ok (n : ℤ) := by
  subst h
  exact if_pos (by omega)

theorem int64_nonneg (h0 : 0 ≤ x) (h : x < 2 ^ 63) : int64 x = .ok x := if_pos ⟨by omega, h⟩

theorem add_ok (h : x + y = n) (hn : n < 2 ^ 63) : add x y = .ok (n : ℤ) := int64_ok h hn

theorem sub_ok (h : x - y = n) (hn : n < 2 ^ 63) : sub x y = .ok (n : ℤ) := int64_ok h hn

theorem mul_ok (h : x * y = n) (hn : n < 2 ^ 63) : mul x y = .ok (n : ℤ) := int64_ok h hn

theorem neg_ok (h : -x = n) (hn : n < 2 ^ 63) : neg x = .ok (n : ℤ) := int64_ok h hn

theorem div_ok {m : ℕ} (hx : x = n) (hy : y = m) (hm : 0 < m) (hn : n < 2 ^ 63) :
    div x y = .ok ((n / m : ℕ) : ℤ) := by
  subst hx hy
  rw [div, if_neg (by omega)]
  exact int64_ok (Int.ofNat_tdiv n m).symm ((Nat.div_le_self n m).trans_lt hn)

theorem mod_ok {m : ℕ} (hx : x = n) (hy : y = m) (hm : 0 < m) (hn : n < 2 ^ 63) :
    mod x y = .ok ((n % m : ℕ) : ℤ) := by
  rw [mod, bind_ok (div_ok hx hy hm hn), hx, hy]
  rfl

/-- The word of a natural number. -/
theorem toInt_ofNat (hn : n < 2 ^ 63) : (BitVec.ofNat 64 n).toInt = n := by
  have h : (BitVec.ofNat 64 n).toNat = n := by
    rw [BitVec.toNat_ofNat, Nat.mod_eq_of_lt (by omega)]
  rw [BitVec.toInt_eq_toNat_of_lt (by omega), h]

theorem shl_ok {k : ℕ} (hx : x = n) (hy : y = k) (hk : k < 64) (h : n <<< k < 2 ^ 63) :
    shl x y = .ok ((n <<< k : ℕ) : ℤ) := by
  subst hx hy
  have hword : BitVec.ofNat 64 n <<< k = BitVec.ofNat 64 (n <<< k) := by
    apply BitVec.eq_of_toNat_eq
    rw [BitVec.toNat_shiftLeft, BitVec.toNat_ofNat, BitVec.toNat_ofNat, Nat.shiftLeft_eq,
      Nat.shiftLeft_eq, Nat.mod_mul_mod]
  rw [shl, if_pos (by omega), BitVec.ofInt_natCast, Int.toNat_natCast, hword, toInt_ofNat h]

theorem lor_eq {m : ℕ} (hn : n < 2 ^ 63) (hm : m < 2 ^ 63) : lor n m = ((n ||| m : ℕ) : ℤ) := by
  rw [lor, BitVec.ofInt_natCast, BitVec.ofInt_natCast, ← BitVec.ofNat_or,
    toInt_ofNat (Nat.or_lt_two_pow hn hm)]

theorem land_eq {m : ℕ} (hm : m < 2 ^ 63) : land n m = ((n &&& m : ℕ) : ℤ) := by
  rw [land, BitVec.ofInt_natCast, BitVec.ofInt_natCast, ← BitVec.ofNat_and,
    toInt_ofNat (Nat.and_lt_two_pow n hm)]

end Values

section Arrays

variable {b : List V} {i : ℤ} {n : ℕ} {x : V}

theorem index_ok (hi : i = n) (hn : n < b.length) : index b i = .ok (b.get ⟨n, hn⟩) := by
  subst hi
  exact dif_pos ⟨by omega, by simpa using hn⟩

theorem store_ok (hi : i = n) (hn : n < b.length) : store b i x = .ok (b.set n x) := by
  subst hi
  exact if_pos ⟨by omega, by simpa using hn⟩

theorem slice_ok {lo hi : ℤ} {m : ℕ} (hlo : lo = n) (hhi : hi = (n + m : ℕ))
    (h : n + m ≤ b.length) : slice b lo hi = .ok ((b.drop n).take m) := by
  subst hlo hhi
  rw [slice, if_pos (by omega), Int.toNat_natCast]
  congr 2
  omega

theorem repeating_ok (hi : i = n) : repeating x i = .ok (List.replicate n x) := by
  subst hi
  exact if_pos (by omega)

theorem range_ok {lo hi : ℤ} {m : ℕ} (hlo : lo = n) (hhi : hi = (n + m : ℕ)) :
    range lo hi = .ok ((List.range' n m).map (Nat.cast : ℕ → ℤ)) := by
  subst hlo hhi
  rw [range, if_pos (by omega), List.range'_eq_map_range, List.map_map]
  have hlen : (((n + m : ℕ) : ℤ) - n).toNat = m := by omega
  rw [hlen]
  rfl

end Arrays

end Trapping

end NtfsKit
