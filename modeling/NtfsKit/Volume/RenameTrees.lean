import NtfsKit.Volume.TreeSpec

/-! `nk_rename` one library call at a time: it links the new name, deletes the old one, and
takes the link back when that fails. No file is without a name in between, and only what lies
below the old name moves. -/

namespace NtfsKit

open PathTree

/-- The inode has a name. -/
def Tree.Named (t : Tree) (i : ℕ) : Prop := ∃ p, t.inodeAt p = some i

/-- The trees `nk_rename` passes through: after `ntfs_link`, and after `nk_delete` of the old
name or, when that failed, `ntfs_delete` of the new one. -/
def nkRenameTrees (ok : RenameSteps) (old dir : Path) (name : Name) (t : Tree) : List Tree :=
  let new := dir ++ [name]
  let linked := link old new t
  match node t old, node t dir with
  | some ni, some d =>
    if d.kind ≠ .directory then []
    else if t.inodeAt new = some ni.number then []
    else if (node t new).isSome ∨ ok.link = false then []
    else if ok.delete ∧ old ≠ [] then [linked, unlink old linked]
    else if ok.undo then [linked, unlink new linked]
    else [linked]
  | _, _ => []

variable {t u : Tree} {ok : RenameSteps} {old dir : Path} {name : Name}

/-- Taking a link to a free name back leaves the tree as it was. -/
theorem unlink_link (h : t.Closed) {old new : Path} (hnew : node t new = none) :
    unlink new (link old new t) = t := by
  rw [unlink, link, List.filter_append]
  have hlinked : (t.filterMap fun e => if old <+: e.1 then
      some (new ++ e.1.drop old.length, e.2) else none).filter (fun e => ¬ new <+: e.1) = [] := by
    rw [List.filter_eq_nil_iff]
    intro e he
    obtain ⟨d, -, hd⟩ := List.mem_filterMap.mp he
    split_ifs at hd
    obtain rfl := Option.some.inj hd
    simp
  have hold : t.filter (fun e => ¬ new <+: e.1) = t := by
    rw [List.filter_eq_self]
    intro e he
    rw [decide_eq_true_eq]
    rintro ⟨rest, hr⟩
    have hs : (node t (new ++ rest)).isSome := node_isSome.mpr ⟨e, he, hr.symm⟩
    rw [h.none_below hnew] at hs
    cases hs
  rw [hlinked, hold, List.nil_append]

/-- What `nk_rename` does, by its library calls: nothing, or a link to a free name followed by
the delete of the old name, by the delete of the new one, or by nothing. -/
theorem nkRenameTrees_cases (h : t.Closed) (ok : RenameSteps) (old dir : Path) (name : Name) :
    (nkRenameTrees ok old dir name t = [] ∧ (nkRename ok old dir name t).2 = t) ∨
    ∃ x d, node t old = some x ∧ node t dir = some d ∧ d.kind = .directory ∧
      node t (dir ++ [name]) = none ∧
      ((old ≠ [] ∧ nkRename ok old dir name t = (true, move old (dir ++ [name]) t) ∧
          nkRenameTrees ok old dir name t =
            [link old (dir ++ [name]) t, move old (dir ++ [name]) t]) ∨
        (nkRename ok old dir name t = (false, t) ∧
          nkRenameTrees ok old dir name t = [link old (dir ++ [name]) t, t]) ∨
        ((ok.delete = true → old = []) ∧ ok.undo = false ∧
          nkRename ok old dir name t = (false, link old (dir ++ [name]) t) ∧
          nkRenameTrees ok old dir name t = [link old (dir ++ [name]) t])) := by
  unfold nkRenameTrees nkRename
  cases hx : node t old with
  | none => exact .inl ⟨rfl, rfl⟩
  | some x =>
    cases hd : node t dir with
    | none => exact .inl ⟨rfl, rfl⟩
    | some d =>
      simp only
      split_ifs with hk hsame hfree hdel hundo
      · exact .inl ⟨rfl, rfl⟩
      · exact .inl ⟨rfl, rfl⟩
      · exact .inl ⟨rfl, rfl⟩
      all_goals
        rw [not_or, Option.not_isSome_iff_eq_none] at hfree
        refine .inr ⟨x, d, rfl, rfl, not_not.mp hk, hfree.1, ?_⟩
      · exact .inl ⟨hdel.2, rfl, rfl⟩
      · exact .inr (.inl ⟨rfl, by rw [unlink_link h hfree.1]⟩)
      · refine .inr (.inr ⟨fun hok => ?_, by simpa using hundo, rfl, rfl⟩)
        by_contra hne
        exact hdel ⟨hok, hne⟩

/-- The last of these trees is the one `nk_rename` leaves. -/
theorem nkRenameTrees_getLast (h : t.Closed) (ok : RenameSteps) (old dir : Path) (name : Name) :
    (t :: nkRenameTrees ok old dir name t).getLast? = some (nkRename ok old dir name t).2 := by
  rcases nkRenameTrees_cases h ok old dir name with ⟨htrees, hlast⟩ |
    ⟨x, d, -, -, -, -, ⟨-, hr, htrees⟩ | ⟨hr, htrees⟩ | ⟨-, -, hr, htrees⟩⟩
  · rw [htrees, hlast]
    rfl
  all_goals
    rw [htrees, hr]
    rfl

/-- Every file with a name in `t` has one in `u`. -/
def Tree.Keeps (t u : Tree) : Prop := ∀ i, t.Named i → u.Named i

theorem Tree.Keeps.refl (t : Tree) : t.Keeps t := fun _ h => h

theorem Tree.Keeps.trans {v : Tree} (h : t.Keeps u) (h' : u.Keeps v) : t.Keeps v :=
  fun i hi => h' i (h i hi)

theorem inodeAt_link (h : t.Closed) {old new p : Path} (hnew : node t new = none) {i : ℕ}
    (hi : t.inodeAt p = some i) : Tree.inodeAt (link old new t) p = some i := by
  obtain ⟨x, hx, rfl⟩ := Tree.inodeAt_eq_some.mp hi
  exact Tree.inodeAt_eq_some.mpr ⟨x, h.node_link hnew hx, rfl⟩

theorem keeps_link (h : t.Closed) {old new : Path} (hnew : node t new = none) :
    Tree.Keeps t (link old new t) := by
  rintro i ⟨p, hp⟩
  exact ⟨p, inodeAt_link h hnew hp⟩

/-- A free name that is not below a path in use lies aside it. -/
theorem aside_free (h : t.Closed) {old new : Path} (hold : (node t old).isSome)
    (hnew : node t new = none) (hout : ¬ old <+: new) : Aside old new := by
  refine ⟨hout, ?_⟩
  rintro ⟨rest, rfl⟩
  rw [h.none_below hnew] at hold
  cases hold

/-- What lay below the old name is found below the new one. -/
theorem keeps_move (h : t.Closed) {old new : Path} (hold : (node t old).isSome)
    (hnew : node t new = none) (hout : ¬ old <+: new) : Tree.Keeps t (move old new t) := by
  have haside := aside_free h hold hnew hout
  rintro i ⟨p, hp⟩
  by_cases hpre : old <+: p
  · obtain ⟨rest, rfl⟩ := hpre
    refine ⟨new ++ rest, ?_⟩
    rw [← hp]
    exact Tree.inodeAt_congr
      (node_move_new (haside.not_prefix_append rest) (h.none_below hnew rest))
  · refine ⟨p, ?_⟩
    have hnp : ¬ new <+: p := by
      rintro ⟨rest, rfl⟩
      rw [Tree.inodeAt, h.none_below hnew rest] at hp
      cases hp
    rw [← hp]
    exact Tree.inodeAt_congr (node_move_of_not hpre hnp)

/-- A name resolves, so the tree is not the one in which it was moved away. -/
theorem ne_move {new : Path} {x : Inode} (hx : node t old = some x) : move old new t ≠ t := by
  intro heq
  rw [← heq, node_move_old (List.prefix_refl _)] at hx
  cases hx

/-- The root's name cannot be deleted. -/
theorem nkRename_root (hok : (nkRename ok [] dir name t).1 = true) :
    t.inodeAt (dir ++ [name]) = t.inodeAt [] ∧ (nkRename ok [] dir name t).2 = t := by
  unfold nkRename at hok ⊢
  cases hx : node t [] with
  | none => simp [hx] at hok
  | some x =>
    cases hd : node t dir with
    | none => simp [hx, hd] at hok
    | some d =>
      simp only [hx, hd] at hok ⊢
      split_ifs at hok ⊢ with hk hsame hfree hdel
      · rw [hsame, Tree.inodeAt, hx, Option.map_some]
        exact ⟨rfl, rfl⟩
      · exact absurd rfl hdel.2

/-- `nk_rename` goes through to a free name. -/
structure Relocates (ok : RenameSteps) (old dir : Path) (name : Name) (t : Tree) : Prop where
  link : ok.link = true
  delete : ok.delete = true
  proper : old ≠ []
  source : (node t old).isSome
  directory : ∃ d, node t dir = some d ∧ d.kind = .directory
  free : node t (dir ++ [name]) = none

theorem relocates_iff : Relocates ok old dir name t ↔
    nkRename ok old dir name t = (true, move old (dir ++ [name]) t) := by
  constructor
  · intro h
    obtain ⟨x, hx⟩ := Option.isSome_iff_exists.mp h.source
    obtain ⟨d, hd, hk⟩ := h.directory
    exact nkRename_succeeds hx hd hk h.free h.proper h.link h.delete
  · intro hr
    unfold nkRename at hr
    cases hx : node t old with
    | none => simp [hx] at hr
    | some x =>
      cases hd : node t dir with
      | none => simp [hx, hd] at hr
      | some d =>
        simp only [hx, hd] at hr
        split_ifs at hr with hk hsame hfree hdel hundo
        · cases congrArg Prod.fst hr
        · exact absurd (congrArg Prod.snd hr).symm (ne_move hx)
        · cases congrArg Prod.fst hr
        · rw [not_or, Option.not_isSome_iff_eq_none, Bool.not_eq_false] at hfree
          exact ⟨hfree.2, hdel.1, hdel.2, by rw [hx]; rfl, ⟨d, hd, not_not.mp hk⟩, hfree.1⟩
        all_goals cases congrArg Prod.fst hr

/-- If the rename moves anything, the new name lies outside of it. -/
def MovesOut (ok : RenameSteps) (old dir : Path) (name : Name) (t : Tree) : Prop :=
  nkRename ok old dir name t = (true, move old (dir ++ [name]) t) → ¬ old <+: dir ++ [name]

/-- A name is not moved to itself, nor is the root. -/
theorem MovesOut.of_below (hout : old <+: dir ++ [name] → old = dir ++ [name] ∨ old = []) :
    MovesOut ok old dir name t := by
  intro hr hp
  have hok : (nkRename ok old dir name t).1 = true := by rw [hr]
  obtain ⟨x, d, hx, -, -, hcase⟩ := nkRename_ok hok
  have hstays : (nkRename ok old dir name t).2 = t := by
    rcases hout hp with heq | rfl
    · rcases hcase with ⟨-, hsame⟩ | ⟨hfree, -⟩
      · exact hsame
      · rw [← heq, hx] at hfree
        cases hfree
    · exact (nkRename_root hok).2
  rw [hr] at hstays
  exact ne_move hx hstays

section

variable (h : t.Closed)
include h

/-- What holds of the tree before a rename, with the new name linked, and with the old name
gone holds of every tree it passes through. -/
theorem forall_nkRenameTrees {P : Tree → Prop} (h0 : P t)
    (hlink : ∀ d, node t dir = some d → d.kind = .directory → node t (dir ++ [name]) = none →
      P (link old (dir ++ [name]) t))
    (hmove : ∀ x, node t old = some x → node t (dir ++ [name]) = none → old ≠ [] →
      nkRename ok old dir name t = (true, move old (dir ++ [name]) t) →
      P (link old (dir ++ [name]) t) → P (move old (dir ++ [name]) t)) :
    ∀ u ∈ t :: nkRenameTrees ok old dir name t, P u := by
  rcases nkRenameTrees_cases h ok old dir name with ⟨htrees, -⟩ |
    ⟨x, d, hx, hd, hk, hnew, hcase⟩
  · rw [htrees]
    simpa using h0
  have hl := hlink d hd hk hnew
  rcases hcase with ⟨hne, hr, htrees⟩ | ⟨-, htrees⟩ | ⟨-, -, -, htrees⟩
  · have hm := hmove x hx hnew hne hr hl
    rw [htrees]
    simpa using ⟨h0, hl, hm⟩
  · rw [htrees]
    simpa using ⟨h0, hl, h0⟩
  · rw [htrees]
    simpa using ⟨h0, hl⟩

/-- The tree `nk_rename` leaves is one of those it passes through. -/
theorem nkRename_mem {b : Bool} (hr : nkRename ok old dir name t = (b, u)) :
    u ∈ t :: nkRenameTrees ok old dir name t := by
  have hlast := nkRenameTrees_getLast h ok old dir name
  rw [hr] at hlast
  exact List.mem_of_getLast? hlast

theorem nkRename_closed {b : Bool} (hr : nkRename ok old dir name t = (b, u)) : u.Closed :=
  forall_nkRenameTrees h h (fun _ hd hk hnew => h.link hd hk hnew)
    (fun _ _ _ _ _ hl => hl.unlink old) u (nkRename_mem h hr)

omit h in
theorem nkDelete_closed (h : t.Closed) (ok : Bool) (path : Path) : (nkDelete ok path t).2.Closed := by
  rcases nkDelete_cases ok path t with hd | ⟨hd, -⟩
  · rwa [hd]
  · rw [hd]
    exact h.unlink path

/-- No library call of a rename leaves a file without a name, if the new name is not below
the old one. -/
theorem nkRename_keeps (hout : MovesOut ok old dir name t) :
    ∀ u ∈ t :: nkRenameTrees ok old dir name t, t.Keeps u := by
  apply forall_nkRenameTrees h (Tree.Keeps.refl t)
  · intro _ _ _ hnew
    exact keeps_link h hnew
  · intro x hx hnew _ hr _
    exact keeps_move h (by rw [hx]; rfl) hnew (hout hr)

/-- A rename touches nothing that is in use outside the old name's subtree. -/
theorem nkRename_frame {p : Path} {i : ℕ} (hp : ¬ old <+: p) (hi : t.inodeAt p = some i) :
    ∀ u ∈ t :: nkRenameTrees ok old dir name t, u.inodeAt p = some i := by
  apply forall_nkRenameTrees (P := fun u => u.inodeAt p = some i) h hi
  · intro _ _ _ hnew
    exact inodeAt_link h hnew hi
  · intro _ _ _ _ _ hl
    rw [← hl]
    refine Tree.inodeAt_congr ?_
    rw [move, node_unlink, if_neg hp]

/-- A rename that fails leaves every name in place on its way. -/
theorem nkRename_failed_frame {p : Path} {i : ℕ} (hi : t.inodeAt p = some i)
    (hf : (nkRename ok old dir name t).1 = false) :
    ∀ u ∈ t :: nkRenameTrees ok old dir name t, u.inodeAt p = some i := by
  apply forall_nkRenameTrees (P := fun u => u.inodeAt p = some i) h hi
  · intro _ _ _ hnew
    exact inodeAt_link h hnew hi
  · intro _ _ _ _ hr
    rw [hr] at hf
    cases hf

/-- A rename that succeeded has brought the file to the new name. -/
theorem nkRename_arrives (hout : MovesOut ok old dir name t)
    (hr : nkRename ok old dir name t = (true, u)) :
    u.inodeAt (dir ++ [name]) = t.inodeAt old := by
  obtain ⟨x, d, hx, -, -, ⟨hsame, hu⟩ | ⟨hnew, hu⟩⟩ := nkRename_ok (congrArg Prod.fst hr)
  · rw [hr] at hu
    rw [show u = t from hu, hsame, Tree.inodeAt, hx, Option.map_some]
  · have hno : ¬ old <+: dir ++ [name] := hout (Prod.ext (by rw [hr]) hu)
    have haside := aside_free h (by rw [hx]; rfl) hnew hno
    have hm := node_move_new (haside.not_prefix_append []) (h.none_below hnew [])
    rw [List.append_nil, List.append_nil] at hm
    rw [hr] at hu
    rw [show u = _ from hu]
    exact Tree.inodeAt_congr hm

/-- A file is under any of its names until the renamed file is under the new one. -/
theorem nkRename_or_arrived (hout : MovesOut ok old dir name t) {p : Path} {i : ℕ}
    (hi : t.inodeAt p = some i) :
    ∀ u ∈ t :: nkRenameTrees ok old dir name t, u.inodeAt p = some i ∨
      (u.inodeAt (dir ++ [name]) = t.inodeAt old ∧ t.inodeAt old ≠ none) := by
  apply forall_nkRenameTrees (P := fun u => u.inodeAt p = some i ∨
    (u.inodeAt (dir ++ [name]) = t.inodeAt old ∧ t.inodeAt old ≠ none)) h (.inl hi)
  · intro _ _ _ hnew
    exact .inl (inodeAt_link h hnew hi)
  · intro x hx _ _ hr _
    refine .inr ⟨nkRename_arrives h hout hr, ?_⟩
    rw [Ne, Tree.inodeAt_eq_none, hx]
    exact Option.some_ne_none x

end

end NtfsKit
