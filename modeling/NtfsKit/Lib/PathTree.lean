import NtfsKit.Lib.SwapTable

/-! A tree of names as a table from paths to nodes. Linking a path under a second name
makes the whole subtree visible there; unlinking a name takes the subtree below it
away. A move is a link followed by an unlink. The lemmas say what every path resolves
to afterwards. -/

namespace NtfsKit

namespace PathTree

variable {N V : Type} [DecidableEq N]

/-- What a path resolves to. -/
def node (t : List (List N × V)) (p : List N) : Option V := SwapTable.find t p

/-- Make the subtree at `old` visible at `new` as well. -/
def link (old new : List N) (t : List (List N × V)) : List (List N × V) :=
  t.filterMap (fun e => if old <+: e.1 then some (new ++ e.1.drop old.length, e.2) else none) ++ t

/-- Take the subtree at `old` away. -/
def unlink (old : List N) (t : List (List N × V)) : List (List N × V) :=
  t.filter fun e => ¬ old <+: e.1

def move (old new : List N) (t : List (List N × V)) : List (List N × V) :=
  unlink old (link old new t)

/-- Nothing lies strictly below `p`. -/
def leaf (t : List (List N × V)) (p : List N) : Bool := t.all fun e => ¬ (p <+: e.1 ∧ p ≠ e.1)

variable {t : List (List N × V)} {old new p rest : List N}

theorem node_isSome : (node t p).isSome ↔ ∃ e ∈ t, e.1 = p := by
  simp [node, SwapTable.find]

theorem node_cons (e : List N × V) :
    node (e :: t) p = if e.1 = p then some e.2 else node t p := by
  simp only [node, SwapTable.find, List.find?_cons]
  by_cases h : e.1 = p <;> simp [h]

theorem node_append (u : List (List N × V)) : node (t ++ u) p = (node t p).or (node u p) := by
  induction t with
  | nil => rfl
  | cons e t ih =>
    rw [List.cons_append, node_cons, node_cons, ih]
    split_ifs <;> rfl

theorem node_unlink : node (unlink old t) p = if old <+: p then none else node t p := by
  induction t with
  | nil => simp [unlink, node, SwapTable.find]
  | cons e t ih =>
    unfold unlink at ih ⊢
    rw [List.filter_cons]
    by_cases he : old <+: e.1
    · rw [if_neg (by simpa using he), ih, node_cons]
      by_cases hp : e.1 = p
      · rw [if_pos (hp ▸ he), if_pos (hp ▸ he)]
      · rw [if_neg hp]
    · rw [if_pos (by simpa using he), node_cons, node_cons, ih]
      by_cases hp : e.1 = p
      · rw [if_pos hp, if_pos hp, if_neg (hp ▸ he)]
      · rw [if_neg hp, if_neg hp]

/-- The linked copy shows the subtree at `old`. -/
theorem node_link_new : node (link old new t) (new ++ rest) =
    (node t (old ++ rest)).or (node t (new ++ rest)) := by
  rw [link, node_append]
  congr 1
  induction t with
  | nil => rfl
  | cons e t ih =>
    rw [List.filterMap_cons]
    by_cases he : old <+: e.1
    · obtain ⟨r, hr⟩ := he
      have hdrop : e.1.drop old.length = r := by rw [← hr, List.drop_left]
      rw [if_pos ⟨r, hr⟩]
      simp only [hdrop, node_cons, ih]
      by_cases heq : r = rest
      · rw [if_pos (by rw [heq]), if_pos (by rw [← hr, heq])]
      · rw [if_neg (fun h => heq (List.append_cancel_left h)), if_neg]
        rw [← hr]
        exact fun h => heq (List.append_cancel_left h)
    · rw [if_neg he]
      simp only [ih, node_cons]
      rw [if_neg]
      intro h
      exact he ⟨rest, h.symm⟩

theorem node_link_of_not (h : ¬ new <+: p) : node (link old new t) p = node t p := by
  rw [link, node_append]
  suffices hnone : node (t.filterMap fun e =>
      if old <+: e.1 then some (new ++ e.1.drop old.length, e.2) else none) p = none by
    rw [hnone]
    rfl
  rw [← Option.not_isSome_iff_eq_none, node_isSome]
  rintro ⟨e, he, rfl⟩
  obtain ⟨d, -, hd⟩ := List.mem_filterMap.mp he
  split_ifs at hd
  obtain rfl := Option.some.inj hd
  exact h ⟨_, rfl⟩

theorem node_move_old (h : old <+: p) : node (move old new t) p = none := by
  rw [move, node_unlink, if_pos h]

theorem node_move_new (h : ¬ old <+: new ++ rest) (hnone : node t (new ++ rest) = none) :
    node (move old new t) (new ++ rest) = node t (old ++ rest) := by
  rw [move, node_unlink, if_neg h, node_link_new, hnone, Option.or_none]

theorem node_move_of_not (h : ¬ old <+: p) (hn : ¬ new <+: p) :
    node (move old new t) p = node t p := by
  rw [move, node_unlink, if_neg h, node_link_of_not hn]

/-- A move makes no new nodes. -/
theorem move_origin {v : V} (h : node (move old new t) p = some v) : ∃ q, node t q = some v := by
  by_cases ho : old <+: p
  · rw [node_move_old ho] at h
    cases h
  · rw [move, node_unlink, if_neg ho] at h
    by_cases hn : new <+: p
    · obtain ⟨rest, rfl⟩ := hn
      rw [node_link_new] at h
      cases hq : node t (old ++ rest) with
      | none =>
        rw [hq, Option.none_or] at h
        exact ⟨_, h⟩
      | some w =>
        rw [hq, Option.some_or] at h
        exact ⟨_, hq.trans h⟩
    · rw [node_link_of_not hn] at h
      exact ⟨p, h⟩

theorem leaf_iff : leaf t p = true ↔ ∀ rest, rest ≠ [] → node t (p ++ rest) = none := by
  simp only [leaf, List.all_eq_true, decide_eq_true_eq, not_and, not_not]
  constructor
  · intro h rest hne
    rw [← Option.not_isSome_iff_eq_none, node_isSome]
    rintro ⟨e, he, heq⟩
    have := h e he ⟨rest, heq.symm⟩
    rw [heq] at this
    exact hne (by simpa using this.symm)
  · rintro h e he ⟨rest, hr⟩
    by_contra hne
    have hn := h rest (by rintro rfl; exact hne (by simpa using hr))
    rw [← Option.not_isSome_iff_eq_none, node_isSome] at hn
    exact hn ⟨e, he, hr.symm⟩

end PathTree

end NtfsKit
