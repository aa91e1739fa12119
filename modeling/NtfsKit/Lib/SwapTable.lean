import Mathlib.Tactic

/-! A table of keyed entries in an array without order: linear search, update in
place, append, and removal by moving the last entry over the removed one. While
no key occurs twice such a table is a finite map, whatever order the entries are
in. -/

namespace NtfsKit

namespace SwapTable

variable {K V : Type} [DecidableEq K]

/-- The value of the first entry with key `k`. -/
def find (t : List (K × V)) (k : K) : Option V := (t.find? (·.1 = k)).map Prod.snd

/-- Overwrite the value of the first entry with key `k`. -/
def store (k : K) (v : V) : List (K × V) → List (K × V)
  | [] => []
  | e :: t => if e.1 = k then (k, v) :: t else e :: store k v t

/-- Overwrite the entry of `k`, or append one. -/
def set (t : List (K × V)) (k : K) (v : V) : List (K × V) :=
  if (find t k).isSome then store k v t else t ++ [(k, v)]

/-- Move the last entry over the first entry with key `k`. -/
def swapRemove (t : List (K × V)) (k : K) : List (K × V) :=
  match t.findIdx? (·.1 = k), t.getLast? with
  | some i, some l => (t.set i l).dropLast
  | _, _ => t

/-- No key occurs twice. -/
def Distinct (t : List (K × V)) : Prop := (t.map Prod.fst).Nodup

theorem find_eq_some {t : List (K × V)} (h : Distinct t) {k : K} {v : V} :
    find t k = some v ↔ (k, v) ∈ t := by
  induction t with
  | nil => simp [find]
  | cons e t ih =>
    obtain ⟨a, b⟩ := e
    simp only [Distinct, List.map_cons, List.nodup_cons] at h
    specialize ih h.2
    simp only [find, List.find?_cons, List.mem_cons, Prod.mk.injEq] at ih ⊢
    by_cases hk : a = k
    · subst hk
      have : (a, v) ∉ t := fun hm => h.1 (List.mem_map_of_mem (f := Prod.fst) hm)
      simp [this, eq_comm]
    · simp only [hk, decide_false, ih, Ne.symm hk, false_and, false_or]

theorem find_eq_none {t : List (K × V)} {k : K} : find t k = none ↔ k ∉ t.map Prod.fst := by
  simp only [find, Option.map_eq_none_iff, List.find?_eq_none, decide_eq_true_eq, List.mem_map,
    not_exists, not_and]

theorem map_store (k : K) (v : V) (t : List (K × V)) :
    (store k v t).map Prod.fst = t.map Prod.fst := by
  induction t with
  | nil => rfl
  | cons e t ih =>
    simp only [store]
    split_ifs with h
    · simp [h]
    · simp [ih]

theorem find_store_self {k : K} {v : V} {t : List (K × V)} (h : (find t k).isSome) :
    find (store k v t) k = some v := by
  induction t with
  | nil => simp [find] at h
  | cons e t ih =>
    by_cases hk : e.1 = k
    · simp [store, find, hk]
    · rw [store, if_neg hk]
      simp only [find, List.find?_cons, hk, decide_false] at h ih ⊢
      exact ih h

theorem find_store_of_ne {k k' : K} (hne : k' ≠ k) (v : V) (t : List (K × V)) :
    find (store k v t) k' = find t k' := by
  induction t with
  | nil => rfl
  | cons e t ih =>
    by_cases hk : e.1 = k
    · simp [store, find, hk, hne.symm]
    · simp only [store, if_neg hk, find, List.find?_cons] at ih ⊢
      split
      · rfl
      · exact ih

theorem find_append_single {t : List (K × V)} {k : K} (h : find t k = none) (v : V) (k' : K) :
    find (t ++ [(k, v)]) k' = if k' = k then some v else find t k' := by
  unfold find at h ⊢
  rw [List.find?_append]
  by_cases hk : k' = k
  · subst hk
    rw [Option.map_eq_none_iff] at h
    simp [h]
  · cases List.find? (fun x => decide (x.1 = k')) t <;> simp [hk, Ne.symm hk]

theorem find_set (t : List (K × V)) (k : K) (v : V) (k' : K) :
    find (set t k v) k' = if k' = k then some v else find t k' := by
  unfold set
  split_ifs with h hk hk
  · subst hk; exact find_store_self h
  · exact find_store_of_ne hk v t
  all_goals
    rw [find_append_single (by simpa using h)]
    simp [hk]

theorem Distinct.set {t : List (K × V)} (h : Distinct t) (k : K) (v : V) :
    Distinct (SwapTable.set t k v) := by
  unfold SwapTable.set
  split_ifs with hf
  · rw [Distinct, map_store]
    exact h
  · have hn : find t k = none := by simpa using hf
    rw [find_eq_none] at hn
    simp only [Distinct, List.map_append, List.map_cons, List.map_nil]
    exact List.nodup_append.mpr ⟨h, by simp, by
      intro a ha b hb
      rw [List.mem_singleton.mp hb]
      rintro rfl
      exact hn ha⟩

theorem mem_set {t : List (K × V)} (h : Distinct t) {k k' : K} {v v' : V} :
    (k', v') ∈ set t k v ↔ (k' = k ∧ v' = v) ∨ (k' ≠ k ∧ (k', v') ∈ t) := by
  rw [← find_eq_some (h.set k v), find_set]
  split_ifs with hk
  · simp [hk, eq_comm]
  · rw [find_eq_some h]
    simp [hk]

/-- Moving the last entry over the removed one only changes the order. -/
theorem swapRemove_perm {t : List (K × V)} {k : K} {v : V} (h : find t k = some v) :
    ∃ a b w, t = a ++ (k, w) :: b ∧ (swapRemove t k).Perm (a ++ b) := by
  obtain ⟨e, he, hv⟩ : ∃ e, t.find? (·.1 = k) = some e ∧ e.2 = v := by
    simpa [find, Option.map_eq_some_iff] using h
  rw [List.find?_eq_some_iff_append] at he
  obtain ⟨hk, a, b, rfl, ha⟩ := he
  have hk : e.1 = k := by simpa using hk
  have hidx : (a ++ e :: b).findIdx? (·.1 = k) = some a.length := by
    rw [List.findIdx?_append, List.findIdx?_eq_none_iff.mpr (by simpa using ha)]
    simp [hk, List.findIdx?_cons]
  refine ⟨a, b, e.2, by rw [← hk], ?_⟩
  unfold swapRemove
  rcases List.eq_nil_or_concat b with rfl | ⟨c, l, rfl⟩
  · simp [hidx]
  · rw [List.concat_eq_append] at hidx ⊢
    have hlast : (a ++ e :: (c ++ [l])).getLast? = some l := by
      rw [show a ++ e :: (c ++ [l]) = (a ++ e :: c) ++ [l] by simp, List.getLast?_concat]
    simp only [hidx, hlast]
    rw [List.set_append_right _ _ le_rfl, Nat.sub_self, List.set_cons_zero]
    rw [show a ++ l :: (c ++ [l]) = (a ++ l :: c) ++ [l] by simp, List.dropLast_concat]
    exact List.Perm.append_left a (List.perm_append_singleton l c).symm

theorem swapRemove_of_none {t : List (K × V)} {k : K} (h : find t k = none) :
    swapRemove t k = t := by
  have : t.findIdx? (·.1 = k) = none := by
    rw [List.findIdx?_eq_none_iff]
    intro e he
    have hk := find_eq_none.mp h
    simpa using fun hek => hk (List.mem_map.mpr ⟨e, he, hek⟩)
  simp [swapRemove, this]

theorem Distinct.swapRemove {t : List (K × V)} (h : Distinct t) (k : K) :
    Distinct (SwapTable.swapRemove t k) := by
  cases hf : find t k with
  | none => rwa [swapRemove_of_none hf]
  | some v =>
    obtain ⟨a, b, w, rfl, hp⟩ := swapRemove_perm hf
    have : Distinct (a ++ b) := by
      refine List.Nodup.sublist ?_ h
      exact List.Sublist.map _ (List.Sublist.append_left (List.sublist_cons_self _ _) a)
    exact (hp.map Prod.fst).nodup_iff.mpr this

theorem find_swapRemove {t : List (K × V)} (h : Distinct t) (k k' : K) :
    find (swapRemove t k) k' = if k' = k then none else find t k' := by
  cases hf : find t k with
  | none =>
    rw [swapRemove_of_none hf]
    split_ifs with hk
    · rw [hk, hf]
    · rfl
  | some v =>
    have hd := h.swapRemove k
    obtain ⟨a, b, w, ht, hp⟩ := swapRemove_perm hf
    apply Option.ext
    intro u
    have hk : k ∉ (a ++ b).map Prod.fst := by
      have hperm : t.Perm ((k, w) :: (a ++ b)) := ht ▸ List.perm_middle
      have := (hperm.map Prod.fst).nodup_iff.mp h
      rw [List.map_cons, List.nodup_cons] at this
      exact this.1
    rw [find_eq_some hd, hp.mem_iff]
    split_ifs with hkk
    · subst hkk
      simp only [iff_false]
      exact fun hm => hk (List.mem_map_of_mem (f := Prod.fst) hm)
    · rw [find_eq_some h, ht]
      simp [hkk]

end SwapTable

end NtfsKit
