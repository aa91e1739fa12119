import NtfsKit.Lib.EquivDict

/-! Paths as the volume keeps them, in strings. Swift compares strings by canonical
equivalence, as keys of a dictionary and with `==`, and the beginning of a string by whole
characters: a combining mark at the start of a name takes the slash in front of it into its
character. The engine compares names unit by unit. What Swift sees of a name is a parameter;
where no two names are equivalent and none begins with a combining mark, paths compare as
lists of names. -/

namespace NtfsKit

/-- One component of a path. `nkOver` is `.nk-over-<UUID>-...`, the hidden name under which
`renameItem` parks a victim. A UUID is drawn for one parking only, so the name tells the
inode it was drawn for. -/
inductive Name
  | plain (name : String)
  | nkOver (uuid inode : ℕ)
  deriving DecidableEq, Repr

/-- A path by its components; the root is the empty list. -/
abbrev Path := List Name

/-- How Swift reads names: their canonical form, and whether a name in this form begins with
a scalar that extends the character before it. -/
structure PathText where
  canon : Name → Name
  joins : Name → Bool

namespace PathText

variable (T : PathText)

/-- The canonical form of a path; equal paths are `==`. -/
def form (p : Path) : Path := p.map T.canon

/-- `q.hasPrefix(p + "/")`: the slash is a character of its own. Nothing starts with `//`. -/
def Beneath (p q : Path) : Prop :=
  p ≠ [] ∧ T.form p <+: T.form q ∧ ∃ n ∈ (T.form q)[p.length]?, T.joins n = false

instance (p q : Path) : Decidable (T.Beneath p q) :=
  inferInstanceAs (Decidable (p ≠ [] ∧ T.form p <+: T.form q ∧
    ∃ n ∈ (T.form q)[p.length]?, T.joins n = false))

/-- `d[p]`. -/
def find (d : List (Path × ℕ)) (p : Path) : Option ℕ := EquivDict.find T.form d p

/-- `d[p] = v`. -/
def set (d : List (Path × ℕ)) (p : Path) (v : ℕ) : List (Path × ℕ) := EquivDict.set T.form d p v

/-- `d[p] = nil`. -/
def drop (d : List (Path × ℕ)) (p : Path) : List (Path × ℕ) := EquivDict.drop T.form d p

/-- Drop every key that has the prefix `p + "/"`. -/
def dropBelow (d : List (Path × ℕ)) (p : Path) : List (Path × ℕ) :=
  d.filter fun e => ¬ T.Beneath p e.1

/-- Move every key with the prefix `old + "/"` under `new`, over whatever was there. -/
def rekeyBelow (old new : Path) (d : List (Path × ℕ)) : List (Path × ℕ) :=
  let moved := (d.filter fun e => T.Beneath old e.1).map fun e =>
    (new ++ e.1.drop old.length, e.2)
  EquivDict.setAll T.form moved (d.filter fun e => ¬ T.Beneath old e.1)

variable {T} {p q old new : Path} {n m : Name} {d : List (Path × ℕ)} {c v : ℕ}

theorem form_append : T.form (p ++ q) = T.form p ++ T.form q := List.map_append

theorem form_drop (k : ℕ) : T.form (p.drop k) = (T.form p).drop k := List.map_drop

theorem find_congr (h : T.form p = T.form q) : T.find d p = T.find d q := EquivDict.find_congr h

theorem find_set_self : T.find (T.set d p v) p = some v := EquivDict.find_set_self

theorem find_set_of_ne (h : T.form q ≠ T.form p) : T.find (T.set d p v) q = T.find d q :=
  EquivDict.find_set_of_ne h

theorem form_concat_inj : T.form (p ++ [n]) = T.form (p ++ [m]) ↔ T.canon n = T.canon m := by
  rw [form_append, form_append, List.append_cancel_left_eq]
  simp [form]

theorem beneath_congr (h : T.form p = T.form q) : T.Beneath old p ↔ T.Beneath old q := by
  rw [Beneath, Beneath, h]

/-- What is beneath a path, seen from the directory it is in. -/
theorem Beneath.of_concat (h : T.Beneath p (q ++ [n])) : T.form q = T.form p ∨ T.Beneath p q := by
  obtain ⟨hne, hpre, m, hm, hjoins⟩ := h
  have hlen : (T.form p).length = p.length := List.length_map _
  rw [form_append] at hpre hm
  rw [Option.mem_def, List.getElem?_eq_some_iff] at hm
  obtain ⟨hlt, hm⟩ := hm
  obtain ⟨k, hk⟩ := hpre
  -- the prefix ends before the last component
  have hshort : p.length ≤ (T.form q).length := by
    rw [List.length_append] at hlt
    simp only [form, List.map_cons, List.map_nil, List.length_singleton] at hlt ⊢
    omega
  have hpre : T.form p <+: T.form q :=
    List.prefix_of_prefix_length_le ⟨k, hk⟩ (List.prefix_append _ _) (hlen ▸ hshort)
  rcases hshort.lt_or_eq with hlt' | heq
  · refine .inr ⟨hne, hpre, m, ?_, hjoins⟩
    rw [Option.mem_def, List.getElem?_eq_some_iff]
    exact ⟨hlt', by rw [← hm, List.getElem_append_left hlt']⟩
  · exact .inl (hpre.eq_of_length (hlen.trans heq)).symm

/-- What lies below a path, under a spelling of it that Swift takes for equal, begins with that
path unless the next name joins the slash. -/
theorem beneath_of_form (hne : p ≠ []) (hform : T.form q = T.form p) (hpre : q <+: old)
    (hjoins : ∀ n ∈ old[q.length]?, T.joins (T.canon n) = false) :
    T.form old = T.form p ∨ T.Beneath p old := by
  obtain ⟨rest, rfl⟩ := hpre
  cases rest with
  | nil => exact .inl (by rw [List.append_nil, hform])
  | cons n rest =>
    have hlen : p.length = q.length := by
      simpa [form] using congrArg List.length hform.symm
    refine .inr ⟨hne, ?_, T.canon n, ?_, hjoins n (by simp)⟩
    · rw [form_append, hform]
      exact List.prefix_append _ _
    · rw [hlen]
      simp [form]

/-! ### Names compared unit by unit -/

/-- Names as the engine compares them. -/
def exact : PathText := ⟨id, fun _ => false⟩

@[simp] theorem exact_form (p : Path) : exact.form p = p := List.map_id p

theorem exact_form_eq : exact.form = id := funext exact_form

@[simp] theorem exact_find : exact.find d p = SwapTable.find d p := by
  rw [find, exact_form_eq, EquivDict.find_id]

@[simp] theorem exact_set : exact.set d p v = SwapTable.set d p v := by
  rw [set, exact_form_eq, EquivDict.set_id]

theorem mem_exact_drop : (q, c) ∈ exact.drop d p ↔ (q, c) ∈ d ∧ q ≠ p := by
  rw [drop, EquivDict.mem_drop, exact_form, exact_form]

@[simp] theorem exact_beneath : exact.Beneath p q ↔ p ≠ [] ∧ p <+: q ∧ p ≠ q := by
  unfold Beneath
  refine and_congr_right fun _ => ?_
  rw [exact_form, exact_form]
  refine and_congr_right fun hpre => ?_
  obtain ⟨rest, rfl⟩ := hpre
  cases rest with
  | nil => simp
  | cons n rest => simp [exact]

/-! ### Names that Swift and the engine tell apart alike -/

/-- The names are of different forms, and none joins the slash before it; the hidden names are
among them. -/
structure Faithful (T : PathText) (names : Set Name) : Prop where
  inj : ∀ n ∈ names, ∀ m ∈ names, T.canon n = T.canon m → n = m
  apart : ∀ n ∈ names, T.joins (T.canon n) = false
  hidden : ∀ u i, Name.nkOver u i ∈ names

end PathText

/-- The paths made of these names. -/
def pathsOver (names : Set Name) : Set Path := {p | ∀ n ∈ p, n ∈ names}

namespace PathText

variable {T : PathText} {names : Set Name} {p q old new : Path} {d : List (Path × ℕ)}

theorem append_over {p q : Path} :
    p ++ q ∈ pathsOver names ↔ p ∈ pathsOver names ∧ q ∈ pathsOver names :=
  List.forall_mem_append

theorem drop_over (k : ℕ) (h : p ∈ pathsOver names) : p.drop k ∈ pathsOver names :=
  fun n hn => h n (List.mem_of_mem_drop hn)

theorem dropLast_over (h : p ∈ pathsOver names) : p.dropLast ∈ pathsOver names :=
  fun n hn => h n (List.mem_of_mem_dropLast hn)

namespace Faithful

variable (hT : T.Faithful names)
include hT

theorem form_inj (hp : p ∈ pathsOver names) (hq : q ∈ pathsOver names)
    (h : T.form p = T.form q) : p = q := by
  induction p generalizing q with
  | nil => exact (List.map_eq_nil_iff.mp h.symm).symm
  | cons n p ih =>
    cases q with
    | nil => cases h
    | cons m q =>
      obtain ⟨hn, hp⟩ := List.forall_mem_cons.mp hp
      obtain ⟨hm, hq⟩ := List.forall_mem_cons.mp hq
      obtain ⟨hnm, hpq⟩ := List.cons.inj h
      rw [hT.inj n hn m hm hnm, ih hp hq hpq]

theorem agree : EquivDict.Agree T.form exact.form (pathsOver names) := by
  intro p hp q hq
  rw [exact_form, exact_form]
  exact ⟨hT.form_inj hp hq, fun h => by rw [h]⟩

theorem find (hd : ∀ e ∈ d, e.1 ∈ pathsOver names) (hp : p ∈ pathsOver names) :
    T.find d p = exact.find d p :=
  hT.agree.find hd hp

theorem set (hd : ∀ e ∈ d, e.1 ∈ pathsOver names) (hp : p ∈ pathsOver names) (v : ℕ) :
    T.set d p v = exact.set d p v :=
  hT.agree.set hd hp

theorem drop (hd : ∀ e ∈ d, e.1 ∈ pathsOver names) (hp : p ∈ pathsOver names) :
    T.drop d p = exact.drop d p :=
  hT.agree.drop hd hp

theorem beneath (hp : p ∈ pathsOver names) (hq : q ∈ pathsOver names) :
    T.Beneath p q ↔ exact.Beneath p q := by
  rw [exact_beneath, Beneath]
  refine and_congr_right fun _ => ?_
  constructor
  · intro h
    have hlen : (T.form p).length = p.length := List.length_map _
    obtain ⟨hpre, n, hn, -⟩ := h
    have htake : T.form (q.take p.length) = T.form p := by
      rw [form, List.map_take, ← hlen]
      exact (List.prefix_iff_eq_take.mp hpre).symm
    have heq : q.take p.length = p :=
      hT.form_inj (fun n hn => hq n (List.mem_of_mem_take hn)) hp htake
    refine ⟨heq ▸ List.take_prefix _ _, ?_⟩
    rintro rfl
    rw [Option.mem_def, List.getElem?_eq_some_iff] at hn
    exact absurd hn.1 (by simp [form])
  · rintro ⟨⟨rest, rfl⟩, hne⟩
    refine ⟨by rw [form_append]; exact List.prefix_append _ _, ?_⟩
    cases rest with
    | nil => simp at hne
    | cons n rest =>
      refine ⟨T.canon n, ?_, hT.apart n (hq n (by simp))⟩
      simp [form]

theorem dropBelow (hd : ∀ e ∈ d, e.1 ∈ pathsOver names) (hp : p ∈ pathsOver names) :
    T.dropBelow d p = exact.dropBelow d p := by
  refine List.filter_congr fun e he => ?_
  simp only [hT.beneath hp (hd e he)]

theorem rekeyBelow (hd : ∀ e ∈ d, e.1 ∈ pathsOver names) (hold : old ∈ pathsOver names)
    (hnew : new ∈ pathsOver names) : T.rekeyBelow old new d = exact.rekeyBelow old new d := by
  have hmoved : d.filter (fun e => T.Beneath old e.1) = d.filter fun e => exact.Beneath old e.1 :=
    List.filter_congr fun e he => by simp only [hT.beneath hold (hd e he)]
  have hrest : d.filter (fun e => ¬ T.Beneath old e.1) = d.filter fun e => ¬ exact.Beneath old e.1 :=
    List.filter_congr fun e he => by simp only [hT.beneath hold (hd e he)]
  simp only [PathText.rekeyBelow, hmoved, hrest]
  refine hT.agree.setAll ?_ fun e he => hd e (List.mem_of_mem_filter he)
  rintro e he
  obtain ⟨f, hf, rfl⟩ := List.mem_map.mp he
  exact append_over.mpr ⟨hnew, drop_over _ (hd f (List.mem_of_mem_filter hf))⟩

end Faithful

/-- `e` with an acute accent, composed and decomposed, and a name that begins with the
accent. -/
def accented : PathText where
  canon
    | .plain "e\u0301" => .plain "\u00e9"
    | n => n
  joins n := n = .plain "\u0301x"

def unaccented : Set Name := {n | n ≠ .plain "e\u0301" ∧ n ≠ .plain "\u0301x"}

instance : DecidablePred (· ∈ unaccented) := fun n =>
  inferInstanceAs (Decidable (n ≠ .plain "e\u0301" ∧ n ≠ .plain "\u0301x"))

theorem accented_faithful : accented.Faithful unaccented := by
  have hcanon : ∀ n ∈ unaccented, accented.canon n = n := by
    rintro n ⟨hn, -⟩
    simp only [accented]
  refine ⟨fun n hn m hm h => ?_, fun n hn => ?_, fun u i => ⟨by simp, by simp⟩⟩
  · rwa [hcanon n hn, hcanon m hm] at h
  · rw [hcanon n hn]
    simpa [accented] using hn.2

theorem keys_set (hd : ∀ e ∈ d, e.1 ∈ pathsOver names) (hp : p ∈ pathsOver names) (v : ℕ) :
    ∀ e ∈ T.set d p v, e.1 ∈ pathsOver names :=
  EquivDict.keys_set hd hp

theorem keys_drop (hd : ∀ e ∈ d, e.1 ∈ pathsOver names) :
    ∀ e ∈ T.drop d p, e.1 ∈ pathsOver names :=
  fun e he => hd e (List.mem_of_mem_filter he)

theorem keys_dropBelow (hd : ∀ e ∈ d, e.1 ∈ pathsOver names) :
    ∀ e ∈ T.dropBelow d p, e.1 ∈ pathsOver names :=
  fun e he => hd e (List.mem_of_mem_filter he)

theorem keys_rekeyBelow (hd : ∀ e ∈ d, e.1 ∈ pathsOver names) (hnew : new ∈ pathsOver names) :
    ∀ e ∈ T.rekeyBelow old new d, e.1 ∈ pathsOver names := by
  refine EquivDict.keys_setAll ?_ fun e he => hd e (List.mem_of_mem_filter he)
  rintro e he
  obtain ⟨f, hf, rfl⟩ := List.mem_map.mp he
  exact append_over.mpr ⟨hnew, drop_over _ (hd f (List.mem_of_mem_filter hf))⟩

end PathText

end NtfsKit
