import NtfsKit.Lib.Bytes

/-! Blocks that lie end to end in a buffer. A block is put between two others by moving everything
behind the place up, and filling in the room that this makes. -/

namespace NtfsKit

/-- The `n` bytes from offset `o` on. -/
def cut (b : List UInt8) (o n : ℕ) : List UInt8 := (b.drop o).take n

section Cut

variable {b c x y : List UInt8} {a o i n : ℕ}

theorem length_cut (h : o + n ≤ b.length) : (cut b o n).length = n := by
  rw [cut, List.length_take, List.length_drop]
  omega

theorem byteAt_cut (hi : i < n) : byteAt (cut b o n) i = byteAt b (o + i) := by
  rw [cut, byteAt, byteAt, List.getD_eq_getElem?_getD, List.getD_eq_getElem?_getD,
    List.getElem?_take_of_lt hi, List.getElem?_drop]

theorem holds_cut (h : o + n ≤ b.length) : Holds b o (cut b o n) := fun i hi => by
  rw [length_cut h] at hi
  rw [byteAt_cut hi]

/-- What stands in a part that is cut out. -/
theorem Holds.of_cut (h : Holds b (o + i) x) (hx : i + x.length ≤ n) : Holds (cut b o n) i x :=
  fun j hj => by rw [byteAt_cut (by omega), ← Nat.add_assoc, h j hj]

/-- A part of what stands in a buffer. -/
theorem Holds.cut_inside (h : Holds b o x) (hb : o + x.length ≤ b.length)
    (hi : i + n ≤ x.length) : cut b (o + i) n = cut x i n := by
  have hlen : (cut b (o + i) n).length = (cut x i n).length := by
    rw [length_cut (by omega), length_cut hi]
  refine List.ext_getElem hlen fun k h1 h2 => ?_
  rw [length_cut hi] at h2
  have hk := h (i + k) (by omega)
  rw [← Nat.add_assoc, ← byteAt_cut (o := o + i) h2, ← byteAt_cut (o := i) h2] at hk
  simpa [byteAt, List.getD_eq_getElem?_getD, List.getElem?_eq_getElem h1,
    List.getElem?_eq_getElem (show k < (cut x i n).length by rw [length_cut hi]; exact h2)] using hk

theorem Holds.append (h : Holds b o x) (h' : Holds b (o + x.length) y) : Holds b o (x ++ y) := by
  intro i hi
  by_cases hlt : i < x.length
  · rw [h i hlt, byteAt, byteAt, List.getD_append _ _ _ _ hlt]
  · have hy := h' (i - x.length) (by rw [List.length_append] at hi; omega)
    rw [show o + x.length + (i - x.length) = o + i by omega] at hy
    rw [hy, byteAt, byteAt, List.getD_append_right _ _ _ _ (not_lt.mp hlt)]

/-- Everything from `a` to `stop` is moved up by `n`. -/
def moveUp (b : List UInt8) (a stop n : ℕ) : List UInt8 := patch b (a + n) (cut b a (stop - a))

variable {stop : ℕ}

theorem length_moveUp (ha : a ≤ stop) (h : stop + n ≤ b.length) :
    (moveUp b a stop n).length = b.length :=
  length_patch (by rw [length_cut (by omega)]; omega)

theorem byteAt_moveUp (ha : a ≤ stop) (h : stop + n ≤ b.length) (i : ℕ) :
    byteAt (moveUp b a stop n) i =
      if a + n ≤ i ∧ i < stop + n then byteAt b (i - n) else byteAt b i := by
  have hlen : (cut b a (stop - a)).length = stop - a := length_cut (by omega)
  rw [moveUp, byteAt_patch (by rw [hlen]; omega), hlen]
  by_cases hi : a + n ≤ i ∧ i < stop + n
  · rw [if_pos (by omega), if_pos hi, byteAt_cut (by omega)]
    congr 1
    omega
  · rw [if_neg (by omega), if_neg hi]

/-- What lies before the place stays, what lies behind it is found higher up. -/
theorem Holds.moveUp_before (h : Holds b o x) (ha : a ≤ stop) (hb : stop + n ≤ b.length)
    (hx : o + x.length ≤ a) : Holds (moveUp b a stop n) o x :=
  h.congr fun i h1 h2 => by rw [byteAt_moveUp ha hb, if_neg (by omega)]

theorem Holds.moveUp_behind (h : Holds b a x) (hb : stop + n ≤ b.length)
    (hx : a + x.length = stop) : Holds (moveUp b a stop n) (a + n) x := fun i hi => by
  rw [byteAt_moveUp (by omega) hb, if_pos (by omega), show a + n + i - n = a + i by omega, h i hi]

/-- A block put between two others: what was in front stays, what was behind is found `n` higher. -/
theorem Holds.insert_between {front back : List UInt8} (h : Holds b o (front ++ back))
    (ha : a = o + front.length) (hstop : stop = a + back.length) (hfit : stop + n ≤ b.length)
    (hlen : c.length = b.length)
    (hc : ∀ i, o ≤ i → (i < a ∨ a + n ≤ i) → byteAt c i = byteAt (moveUp b a stop n) i) :
    Holds c o (front ++ (cut c a n ++ back)) := by
  have hfront : Holds c o front :=
    (h.append_left.moveUp_before (by omega) hfit ha.ge).congr fun i h1 h2 =>
      hc i h1 (by omega)
  have hback : Holds c (a + n) back :=
    ((ha ▸ h.append_right).moveUp_behind hfit hstop.symm).congr fun i h1 h2 =>
      hc i (by omega) (by omega)
  refine hfront.append (ha ▸ (holds_cut (by omega)).append ?_)
  rw [length_cut (by omega)]
  exact hback

end Cut

theorem length_patchAll : ∀ {fields : List (ℕ × List UInt8)} {b : List UInt8},
    (∀ p ∈ fields, p.1 + p.2.length ≤ b.length) → (patchAll b fields).length = b.length
  | [], _, _ => rfl
  | p :: ps, b, h => by
    have hp := length_patch (h p List.mem_cons_self)
    have hrest : (patchAll (patch b p.1 p.2) ps).length = (patch b p.1 p.2).length :=
      length_patchAll fun q hq => by rw [hp]; exact h q (List.mem_cons_of_mem _ hq)
    exact hrest.trans hp

/-- Fields in order. -/
theorem Laid.of_chain {n : ℕ} {fields : List (ℕ × List UInt8)}
    (h : fields.IsChain fun p q => p.1 + p.2.length ≤ q.1)
    (hn : ∀ p ∈ fields, p.1 + p.2.length ≤ n) : Laid n fields := by
  have htrans : IsTrans (ℕ × List UInt8) fun p q => p.1 + p.2.length ≤ q.1 :=
    ⟨fun p q r h1 h2 => by omega⟩
  exact ⟨hn, (List.isChain_iff_pairwise.mp h).imp fun hpq => .inl hpq⟩

/-- Fields that are put down further on. -/
theorem Laid.shift {n pos len : ℕ} {fields : List (ℕ × List UInt8)} (h : Laid n fields)
    (hlen : pos + n ≤ len) : Laid len (fields.map fun p => (pos + p.1, p.2)) := by
  refine ⟨fun p hp => ?_, ?_⟩
  · obtain ⟨q, hq, rfl⟩ := List.mem_map.mp hp
    have := h.1 q hq
    dsimp only
    omega
  · rw [List.pairwise_map]
    refine h.2.imp fun hpq => ?_
    dsimp only
    omega

end NtfsKit
