import NtfsKit.Volume.Namespace

/-! What the engine's calls on names keep of its tree: every entry lies in a directory,
only files have several names, a parking name belongs to the inode it was drawn for, and
inode numbers not given out yet are free. -/

namespace NtfsKit

open PathTree

/-- Neither path is above the other. -/
def Aside (a b : Path) : Prop := ¬ a <+: b ∧ ¬ b <+: a

theorem Aside.not_prefix_append {a b : Path} (h : Aside a b) (rest : Path) :
    ¬ a <+: b ++ rest := by
  intro hp
  rcases List.prefix_or_prefix_of_prefix hp (List.prefix_append b rest) with h1 | h1
  · exact h.1 h1
  · exact h.2 h1

theorem Aside.symm {a b : Path} (h : Aside a b) : Aside b a := ⟨h.2, h.1⟩

/-- A path above an entry of a directory is the entry or above the directory. -/
theorem prefix_concat {a d : Path} {n : Name} (h : a <+: d ++ [n]) : a = d ++ [n] ∨ a <+: d := by
  rwa [List.prefix_concat_iff] at h

/-- Two entries of one directory lie aside each other. -/
theorem aside_siblings {d : Path} {m n : Name} (h : m ≠ n) : Aside (d ++ [m]) (d ++ [n]) := by
  have hno : ∀ {m n : Name}, m ≠ n → ¬ d ++ [m] <+: d ++ [n] := by
    intro m n hne hp
    have heq := hp.eq_of_length (by simp)
    exact hne (by simpa using heq)
  exact ⟨hno h, hno h.symm⟩

/-- Every entry lies in a directory. -/
def Tree.Closed (t : Tree) : Prop :=
  ∀ p n, (node t (p ++ [n])).isSome → ∃ d, node t p = some d ∧ d.kind = .directory

namespace Tree.Closed

variable {t : Tree}

/-- Whatever has something below it is a directory. -/
theorem below (h : t.Closed) {p rest : Path} (hr : rest ≠ [])
    (hs : (node t (p ++ rest)).isSome) : ∃ d, node t p = some d ∧ d.kind = .directory := by
  induction rest using List.reverseRecOn with
  | nil => exact absurd rfl hr
  | append_singleton rest n ih =>
    rw [← List.append_assoc] at hs
    obtain ⟨d, hd, hk⟩ := h _ n hs
    by_cases hrest : rest = []
    · subst hrest
      rw [List.append_nil] at hd
      exact ⟨d, hd, hk⟩
    · exact ih hrest (by rw [hd]; rfl)

theorem none_below (h : t.Closed) {p : Path} (hp : node t p = none) (rest : Path) :
    node t (p ++ rest) = none := by
  by_cases hr : rest = []
  · rw [hr, List.append_nil, hp]
  · rw [← Option.not_isSome_iff_eq_none]
    intro hs
    obtain ⟨d, hd, -⟩ := h.below hr hs
    rw [hp] at hd
    cases hd

theorem unlink (h : t.Closed) (path : Path) : Tree.Closed (unlink path t) := by
  intro p n hs
  rw [node_unlink] at hs
  split_ifs at hs with hp
  · cases hs
  · obtain ⟨d, hd, hk⟩ := h p n hs
    refine ⟨d, ?_, hk⟩
    rw [node_unlink, if_neg, hd]
    exact fun hpp => hp (hpp.trans (List.prefix_append _ _))

/-- A new entry of a directory. -/
theorem cons (h : t.Closed) {dir : Path} {name : Name} {d i : Inode} (hd : node t dir = some d)
    (hk : d.kind = .directory) (hnew : node t (dir ++ [name]) = none) :
    Tree.Closed ((dir ++ [name], i) :: t) := by
  intro p n hs
  have hp : ∀ {q e}, node t q = some e → node ((dir ++ [name], i) :: t) q = some e := by
    intro q e hq
    rw [node_cons, if_neg, hq]
    rintro rfl
    rw [hnew] at hq
    cases hq
  rw [node_cons] at hs
  split_ifs at hs with heq
  · obtain ⟨rfl, -⟩ := List.append_inj' heq rfl
    exact ⟨d, hp hd, hk⟩
  · obtain ⟨e, he, hke⟩ := h p n hs
    exact ⟨e, hp he, hke⟩

/-- Linking to a free name shadows nothing. -/
theorem node_link (h : t.Closed) {old new : Path} (hnew : node t new = none) {p : Path}
    {i : Inode} (hi : node t p = some i) : node (link old new t) p = some i := by
  rw [node_link_of_not, hi]
  rintro ⟨rest, rfl⟩
  rw [h.none_below hnew] at hi
  cases hi

theorem link (h : t.Closed) {old dir : Path} {name : Name} {d : Inode}
    (hd : node t dir = some d) (hk : d.kind = .directory)
    (hnew : node t (dir ++ [name]) = none) : Tree.Closed (link old (dir ++ [name]) t) := by
  intro p n hs
  by_cases hp : dir ++ [name] <+: p ++ [n]
  · rcases prefix_concat hp with heq | ⟨rest, rfl⟩
    · obtain ⟨rfl, -⟩ := List.append_inj' heq rfl
      exact ⟨d, h.node_link hnew hd, hk⟩
    · rw [List.append_assoc, node_link_new, h.none_below hnew, Option.or_none,
        ← List.append_assoc] at hs
      obtain ⟨e, he, hke⟩ := h _ n hs
      refine ⟨e, ?_, hke⟩
      rw [node_link_new, he]
      rfl
  · rw [node_link_of_not hp] at hs
    obtain ⟨e, he, hke⟩ := h p n hs
    exact ⟨e, h.node_link hnew he, hke⟩

theorem move (h : t.Closed) {old dir : Path} {name : Name} {d : Inode}
    (hd : node t dir = some d) (hk : d.kind = .directory)
    (hnew : node t (dir ++ [name]) = none) : Tree.Closed (move old (dir ++ [name]) t) :=
  (h.link hd hk hnew).unlink old

end Tree.Closed

/-- A tree as the engine keeps it, with inodes below `bound`. -/
structure Tree.Wf (t : Tree) (bound : ℕ) : Prop where
  parent : ∀ p n, (node t (p ++ [n])).isSome → ∃ d, node t p = some d ∧ d.kind = .directory
  single : ∀ p q i j, node t p = some i → node t q = some j → i.number = j.number → p ≠ q →
    i.kind = j.kind ∧ i.kind ≠ .directory
  token : ∀ p u i j, node t (p ++ [.nkOver u i]) = some j → j.number = i
  bound : ∀ p i, node t p = some i → i.number < bound

namespace Tree.Wf

variable {t : Tree} {b : ℕ}

theorem closed (h : t.Wf b) : t.Closed := h.parent

theorem none_below (h : t.Wf b) {p : Path} (hp : node t p = none) (rest : Path) :
    node t (p ++ rest) = none :=
  h.closed.none_below hp rest

theorem mono (h : t.Wf b) {c : ℕ} (hc : b ≤ c) : t.Wf c :=
  ⟨h.parent, h.single, h.token, fun p i hi => (h.bound p i hi).trans_le hc⟩

/-- Only what paths resolve to matters. -/
theorem congr (h : t.Wf b) {u : Tree} (hu : ∀ p, node u p = node t p) : u.Wf b where
  parent p n hs := by
    rw [hu] at hs ⊢
    exact h.parent p n hs
  single p q i j hi hj := h.single p q i j (hu p ▸ hi) (hu q ▸ hj)
  token p u' i j hj := h.token p u' i j (hu _ ▸ hj)
  bound p i hi := h.bound p i (hu p ▸ hi)

/-- A new entry of a directory, with a new inode. -/
theorem cons (h : t.Wf b) {dir : Path} {name : Name} {d i : Inode} (hd : node t dir = some d)
    (hk : d.kind = .directory) (hi : i.number = b) (hname : ∀ u j, name ≠ .nkOver u j)
    (hnew : node t (dir ++ [name]) = none) : Tree.Wf ((dir ++ [name], i) :: t) (b + 1) where
  parent := h.closed.cons hd hk hnew
  single p q x y hx hy hxy hne := by
    rw [node_cons] at hx hy
    split_ifs at hx hy with h1 h2 h2
    · exact absurd (h1.symm.trans h2) hne
    · have hlt := h.bound q y hy
      rw [← hxy, ← Option.some.inj hx, hi] at hlt
      exact absurd hlt (lt_irrefl b)
    · have hlt := h.bound p x hx
      rw [hxy, ← Option.some.inj hy, hi] at hlt
      exact absurd hlt (lt_irrefl b)
    · exact h.single p q x y hx hy hxy hne
  token p u j x hx := by
    rw [node_cons] at hx
    split_ifs at hx with h1
    · obtain ⟨-, h2⟩ := List.append_inj' h1 rfl
      exact absurd (List.cons.inj h2).1 (hname u j)
    · exact h.token p u j x hx
  bound p x hx := by
    rw [node_cons] at hx
    split_ifs at hx
    · rw [← Option.some.inj hx, hi]
      exact Nat.lt_succ_self b
    · exact (h.bound p x hx).trans (Nat.lt_succ_self b)

/-- A subtree goes. -/
theorem unlink (h : t.Wf b) (path : Path) : Tree.Wf (unlink path t) b where
  parent := h.closed.unlink path
  single p q i j hi hj := by
    rw [node_unlink] at hi hj
    split_ifs at hi hj
    exact h.single p q i j hi hj
  token p u i j hj := by
    rw [node_unlink] at hj
    split_ifs at hj
    exact h.token p u i j hj
  bound p i hi := by
    rw [node_unlink] at hi
    split_ifs at hi
    exact h.bound p i hi

/-- A subtree moves to a free name. -/
theorem move (h : t.Wf b) {old dir : Path} {name : Name} {x d : Inode}
    (hold : node t old = some x) (hd : node t dir = some d) (hk : d.kind = .directory)
    (hnew : node t (dir ++ [name]) = none)
    (htok : ∀ u i, name = .nkOver u i → x.number = i) :
    Tree.Wf (move old (dir ++ [name]) t) b := by
  -- every entry of the new tree was one of the old tree
  have horig : ∀ p i, node (PathTree.move old (dir ++ [name]) t) p = some i →
      ¬ old <+: p ∧ ((∃ rest, p = dir ++ [name] ++ rest ∧ node t (old ++ rest) = some i) ∨
        (¬ dir ++ [name] <+: p ∧ node t p = some i)) := by
    intro p i hi
    by_cases hp : old <+: p
    · rw [node_move_old hp] at hi
      cases hi
    refine ⟨hp, ?_⟩
    by_cases hq : dir ++ [name] <+: p
    · obtain ⟨rest, rfl⟩ := hq
      rw [node_move_new hp (h.none_below hnew rest)] at hi
      exact .inl ⟨rest, rfl, hi⟩
    · rw [node_move_of_not hp hq] at hi
      exact .inr ⟨hq, hi⟩
  refine ⟨h.closed.move hd hk hnew, ?_, ?_, ?_⟩
  · intro p q i j hi hj hij hne
    rcases horig p i hi with ⟨hnp, ⟨r1, rfl, h1⟩ | ⟨hn1, h1⟩⟩ <;>
      rcases horig q j hj with ⟨hnq, ⟨r2, rfl, h2⟩ | ⟨hn2, h2⟩⟩
    · exact h.single _ _ i j h1 h2 hij fun heq => hne (by rw [List.append_cancel_left heq])
    · exact h.single _ _ i j h1 h2 hij fun heq => hnq (heq ▸ List.prefix_append _ _)
    · exact h.single _ _ i j h1 h2 hij fun heq => hnp (heq ▸ List.prefix_append _ _)
    · exact h.single p q i j h1 h2 hij hne
  · intro p u i j hj
    rcases horig _ j hj with ⟨hno, ⟨rest, hp, hr⟩ | ⟨-, hr⟩⟩
    · rcases List.eq_nil_or_concat rest with rfl | ⟨rest, m, rfl⟩
      · rw [List.append_nil] at hp hr
        obtain ⟨-, hn⟩ := List.append_inj' hp rfl
        rw [hold] at hr
        rw [← Option.some.inj hr]
        exact htok u i (List.cons.inj hn).1.symm
      · rw [List.concat_eq_append, ← List.append_assoc] at hp hr
        obtain ⟨-, hn⟩ := List.append_inj' hp rfl
        rw [← (List.cons.inj hn).1] at hr
        exact h.token _ u i j hr
    · exact h.token p u i j hr
  · intro p i hi
    rcases horig p i hi with ⟨-, ⟨rest, -, hr⟩ | ⟨-, hr⟩⟩
    · exact h.bound _ i hr
    · exact h.bound _ i hr

/-- A path that ends in a parking name resolves to the inode the name was drawn for. -/
theorem parkedAt (h : t.Wf b) {p d : Path} {u i : ℕ} (hp : p = d ++ [.nkOver u i]) :
    t.inodeAt p = none ∨ t.inodeAt p = some i := by
  subst hp
  unfold Tree.inodeAt
  cases hn : node t (d ++ [.nkOver u i]) with
  | none => exact .inl rfl
  | some j => exact .inr (by rw [Option.map_some, h.token d u i j hn])

end Tree.Wf

/-! ### The engine's calls -/

variable {t : Tree} {ok : RenameSteps} {old dir : Path} {name : Name}

theorem Tree.inodeAt_congr {u : Tree} {p q : Path} (h : node u p = node t q) :
    u.inodeAt p = t.inodeAt q := by
  rw [inodeAt, inodeAt, h]

theorem Tree.inodeAt_eq_some {p : Path} {n : ℕ} :
    t.inodeAt p = some n ↔ ∃ i, node t p = some i ∧ i.number = n := by
  rw [inodeAt, Option.map_eq_some_iff]

theorem Tree.inodeAt_eq_none {p : Path} : t.inodeAt p = none ↔ node t p = none := by
  rw [inodeAt, Option.map_eq_none_iff]

/-- A rename that succeeds found another name of the file, or moved the subtree to a free
name. -/
theorem nkRename_ok (h : (nkRename ok old dir name t).1 = true) :
    ∃ x d, node t old = some x ∧ node t dir = some d ∧ d.kind = .directory ∧
      ((t.inodeAt (dir ++ [name]) = some x.number ∧ (nkRename ok old dir name t).2 = t) ∨
        (node t (dir ++ [name]) = none ∧
          (nkRename ok old dir name t).2 = move old (dir ++ [name]) t)) := by
  unfold nkRename at h ⊢
  cases hx : node t old with
  | none => simp [hx] at h
  | some x =>
    cases hd : node t dir with
    | none => simp [hx, hd] at h
    | some d =>
      simp only [hx, hd] at h ⊢
      refine ⟨x, d, rfl, rfl, ?_⟩
      split_ifs at h ⊢ with hk hsame hfree hdel hundo
      · exact ⟨not_not.mp hk, .inl ⟨hsame, rfl⟩⟩
      · rw [not_or, Option.not_isSome_iff_eq_none] at hfree
        exact ⟨not_not.mp hk, .inr ⟨hfree.1, rfl⟩⟩

/-- A rename that fails and takes its link back changes nothing. -/
theorem nkRename_failed (h : (nkRename ok old dir name t).1 = false) (hold : old ≠ [])
    (hundo : ok.delete = true ∨ ok.undo = true) : (nkRename ok old dir name t).2 = t := by
  unfold nkRename at h ⊢
  cases hx : node t old with
  | none => rfl
  | some x =>
    cases hd : node t dir with
    | none => rfl
    | some d =>
      simp only [hx, hd] at h ⊢
      split_ifs at h ⊢ with hk hsame hfree hdel hun
      · rfl
      · rfl
      · rfl
      · exact absurd hundo (by simp [hun, show ok.delete ≠ true from fun h => hdel ⟨h, hold⟩])

/-- A rename to a free name whose steps succeed. -/
theorem nkRename_succeeds {x d : Inode} (hx : node t old = some x) (hd : node t dir = some d)
    (hk : d.kind = .directory) (hnew : node t (dir ++ [name]) = none) (hold : old ≠ [])
    (hlink : ok.link = true) (hdel : ok.delete = true) :
    nkRename ok old dir name t = (true, move old (dir ++ [name]) t) := by
  unfold nkRename
  extract_lets new
  simp only [hx, hd]
  rw [if_neg (not_not.mpr hk), if_neg, if_neg, if_pos ⟨hdel, hold⟩]
  · rw [hnew, hlink]
    simp
  · rw [Tree.inodeAt_eq_none.mpr hnew]
    simp

theorem nkDelete_cases (ok : Bool) (path : Path) (t : Tree) :
    nkDelete ok path t = (false, t) ∨
      (nkDelete ok path t = (true, unlink path t) ∧ leaf t path = true) := by
  unfold nkDelete
  split_ifs with h
  · exact .inr ⟨rfl, h.2.2.2⟩
  · exact .inl rfl

theorem createNode_cases (made closed : Bool) (dir : Path) (name : Name) (i : Inode) (t : Tree) :
    createNode made closed dir name i t = (false, t) ∨
      (createNode made closed dir name i t = (closed, (dir ++ [name], i) :: t) ∧
        node t (dir ++ [name]) = none ∧ ∃ d, node t dir = some d ∧ d.kind = .directory) := by
  unfold createNode
  cases hd : node t dir with
  | none => exact .inl rfl
  | some d =>
    simp only
    split_ifs with h
    · exact .inr ⟨rfl, Option.isNone_iff_eq_none.mp h.2.1, d, rfl, h.1⟩
    · exact .inl rfl

end NtfsKit
