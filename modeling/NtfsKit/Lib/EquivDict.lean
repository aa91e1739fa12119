import NtfsKit.Lib.SwapTable

/-! Dictionaries whose keys compare by a form of theirs, not by themselves. Keys of one form
are the same key; the dictionary keeps the spelling it was given first. The lemmas say what
is found afterwards and which entries there can be, and that two forms that identify the same
keys make the same dictionaries. -/

namespace NtfsKit

namespace EquivDict

variable {K C C' V : Type} [DecidableEq C] [DecidableEq C'] (form : K → C)

def find (d : List (K × V)) (k : K) : Option V :=
  (d.find? fun e => form e.1 = form k).map Prod.snd

/-- Give the key a value; a key of this form keeps its spelling. -/
def set : List (K × V) → K → V → List (K × V)
  | [], k, v => [(k, v)]
  | e :: d, k, v => if form e.1 = form k then (e.1, v) :: d else e :: set d k v

def drop (d : List (K × V)) (k : K) : List (K × V) := d.filter fun e => form e.1 ≠ form k

/-- Set one entry after the other. -/
def setAll (es d : List (K × V)) : List (K × V) := es.foldl (fun d e => set form d e.1 e.2) d

variable {form} {form' : K → C'} {d es : List (K × V)} {k k' : K} {v v' : V}

theorem mem_of_find (h : find form d k = some v) : ∃ k', (k', v) ∈ d ∧ form k' = form k := by
  obtain ⟨⟨k', w⟩, he, rfl⟩ := Option.map_eq_some_iff.mp h
  exact ⟨k', List.mem_of_find?_eq_some he, by simpa using List.find?_some he⟩

theorem find_congr (h : form k = form k') : find form d k = find form d k' := by
  rw [find, find, h]

theorem find_cons (e : K × V) :
    find form (e :: d) k = if form e.1 = form k then some e.2 else find form d k := by
  by_cases h : form e.1 = form k <;> simp [find, h]

theorem find_set_of_ne (h : form k' ≠ form k) : find form (set form d k v) k' = find form d k' := by
  induction d with
  | nil => simp [set, find, Ne.symm h]
  | cons e d ih =>
    simp only [set]
    split_ifs with he
    · rw [find_cons, find_cons, he, if_neg (Ne.symm h), if_neg (Ne.symm h)]
    · rw [find_cons, find_cons, ih]

theorem find_set_self : find form (set form d k v) k = some v := by
  induction d with
  | nil => simp [set, find]
  | cons e d ih =>
    simp only [set]
    split_ifs with he
    · rw [find_cons, if_pos he]
    · rw [find_cons, if_neg he, ih]

theorem mem_set (h : (k', v') ∈ set form d k v) : (form k' = form k ∧ v' = v) ∨ (k', v') ∈ d := by
  induction d with
  | nil =>
    obtain ⟨rfl, rfl⟩ : k' = k ∧ v' = v := by simpa [set] using h
    exact .inl ⟨rfl, rfl⟩
  | cons e d ih =>
    simp only [set] at h
    split_ifs at h with he <;> rcases List.mem_cons.mp h with heq | hmem
    · obtain ⟨rfl, rfl⟩ := Prod.mk.inj heq
      exact .inl ⟨he, rfl⟩
    · exact .inr (List.mem_cons_of_mem _ hmem)
    · exact .inr (heq ▸ List.mem_cons_self)
    · exact (ih hmem).imp_right (List.mem_cons_of_mem _)

theorem mem_drop : (k', v') ∈ drop form d k ↔ (k', v') ∈ d ∧ form k' ≠ form k := by
  simp [drop]

theorem mem_setAll (h : (k, v) ∈ setAll form es d) :
    (∃ e ∈ es, form k = form e.1 ∧ v = e.2) ∨ (k, v) ∈ d := by
  induction es generalizing d with
  | nil => exact .inr h
  | cons e es ih =>
    rcases ih h with ⟨f, hf, heq⟩ | hmem
    · exact .inl ⟨f, List.mem_cons_of_mem _ hf, heq⟩
    · rcases mem_set hmem with heq | hd
      · exact .inl ⟨e, List.mem_cons_self, heq⟩
      · exact .inr hd

/-! ### Where the keys come from -/

variable {S : Set K}

theorem keys_set (hd : ∀ e ∈ d, e.1 ∈ S) (hk : k ∈ S) : ∀ e ∈ set form d k v, e.1 ∈ S := by
  induction d with
  | nil => simpa [set] using hk
  | cons e d ih =>
    obtain ⟨he, hd⟩ := List.forall_mem_cons.mp hd
    simp only [set]
    split_ifs
    · exact List.forall_mem_cons.mpr ⟨he, hd⟩
    · exact List.forall_mem_cons.mpr ⟨he, ih hd⟩

theorem keys_setAll (hes : ∀ e ∈ es, e.1 ∈ S) (hd : ∀ e ∈ d, e.1 ∈ S) :
    ∀ e ∈ setAll form es d, e.1 ∈ S := by
  induction es generalizing d with
  | nil => exact hd
  | cons e es ih =>
    obtain ⟨he, hes⟩ := List.forall_mem_cons.mp hes
    exact ih hes (keys_set hd he)

/-! ### Two forms -/

/-- The two forms identify the same keys of `S`. -/
def Agree (form : K → C) (form' : K → C') (S : Set K) : Prop :=
  ∀ a ∈ S, ∀ b ∈ S, form a = form b ↔ form' a = form' b

namespace Agree

variable (h : Agree form form' S)
include h

theorem find (hd : ∀ e ∈ d, e.1 ∈ S) (hk : k ∈ S) :
    EquivDict.find form d k = EquivDict.find form' d k := by
  induction d with
  | nil => rfl
  | cons e d ih =>
    obtain ⟨he, hd⟩ := List.forall_mem_cons.mp hd
    simp only [find_cons, h e.1 he k hk, ih hd]

theorem set (hd : ∀ e ∈ d, e.1 ∈ S) (hk : k ∈ S) :
    EquivDict.set form d k v = EquivDict.set form' d k v := by
  induction d with
  | nil => rfl
  | cons e d ih =>
    obtain ⟨he, hd⟩ := List.forall_mem_cons.mp hd
    simp only [EquivDict.set, h e.1 he k hk, ih hd]

theorem drop (hd : ∀ e ∈ d, e.1 ∈ S) (hk : k ∈ S) :
    EquivDict.drop form d k = EquivDict.drop form' d k := by
  refine List.filter_congr fun e he => ?_
  simp only [ne_eq, h e.1 (hd e he) k hk]

theorem setAll (hes : ∀ e ∈ es, e.1 ∈ S) (hd : ∀ e ∈ d, e.1 ∈ S) :
    EquivDict.setAll form es d = EquivDict.setAll form' es d := by
  induction es generalizing d with
  | nil => rfl
  | cons e es ih =>
    obtain ⟨he, hes⟩ := List.forall_mem_cons.mp hes
    simp only [EquivDict.setAll, List.foldl_cons, h.set hd he] at ih ⊢
    exact ih hes (keys_set hd he)

end Agree

/-! ### Keys that compare by themselves -/

section

variable [DecidableEq K]

theorem find_id : find id d k = SwapTable.find d k := rfl

theorem set_id : set id d k v = SwapTable.set d k v := by
  induction d with
  | nil => rfl
  | cons e d ih =>
    have hfind : SwapTable.find (e :: d) k = if e.1 = k then some e.2 else SwapTable.find d k :=
      show find id (e :: d) k = _ from find_cons e
    rw [SwapTable.set, hfind, SwapTable.store]
    simp only [set, id_eq]
    by_cases he : e.1 = k
    · simp [he]
    · simp only [if_neg he]
      rw [ih, SwapTable.set]
      by_cases hs : (SwapTable.find d k).isSome = true
      · rw [if_pos hs, if_pos hs]
      · rw [if_neg hs, if_neg hs, List.cons_append]

theorem distinct_setAll_id (hd : SwapTable.Distinct d) : SwapTable.Distinct (setAll id es d) := by
  induction es generalizing d with
  | nil => exact hd
  | cons e es ih =>
    have hset : SwapTable.Distinct (set id d e.1 e.2) := set_id (d := d) ▸ hd.set e.1 e.2
    exact ih hset

theorem mem_setAll_id (hes : SwapTable.Distinct es) (hd : SwapTable.Distinct d) :
    (k, v) ∈ setAll id es d ↔ (k, v) ∈ es ∨ ((k, v) ∈ d ∧ ∀ w, (k, w) ∉ es) := by
  induction es generalizing d with
  | nil => simp [setAll]
  | cons e es ih =>
    obtain ⟨a, w⟩ := e
    obtain ⟨hfresh, hes⟩ := List.nodup_cons.mp hes
    have hset : SwapTable.Distinct (set id d a w) := set_id (d := d) ▸ hd.set a w
    have hnone : ∀ w', (a, w') ∉ es := fun w' hw =>
      hfresh (List.mem_map.mpr ⟨(a, w'), hw, rfl⟩)
    change (k, v) ∈ setAll id es (set id d a w) ↔ _
    rw [ih hes hset, set_id, SwapTable.mem_set hd]
    simp only [List.mem_cons, Prod.mk.injEq, not_or, not_and]
    by_cases hk : k = a
    · subst hk
      simp [hnone]
    · simp [hk]

end

end EquivDict

end NtfsKit
