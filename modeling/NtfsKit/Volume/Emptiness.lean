import NtfsKit.Volume.Paging
import NtfsKit.Volume.Aliasing
import NtfsKit.Volume.Lossless

/-! Whether a directory may be replaced. `renameItem` lists the victim and refuses when the
listing shows an entry; listings leave out the system's inodes, the dot entries and every
name without a UTF-8 form. The engine's own test, which the delete of the parked victim
makes, leaves out nothing. -/

namespace NtfsKit

open PathTree

/-- `nk_list` with `firstEntryCallback`: whether the listing shows an entry. `utf8` tells the
names `ntfs_ucstombs` can convert. -/
def firstEntry (utf8 : Name → Bool) (t : Tree) (path : Path) : Bool :=
  (t.names path).any fun n => utf8 n && (nkFilldir t path n).isSome

/-- An entry of the user: none of the system's inodes, and no dot entry. -/
def UserEntry (t : Tree) (path : Path) (n : Name) : Prop := (nkFilldir t path n).isSome

/-- A tree of names whose listings leave out what `nk_filldir` does. -/
def listingEngine (utf8 : Name → Bool) : NameEngine Tree :=
  { treeEngine with firstEntry := fun t p => (node t p).bind fun d =>
      if d.kind = .directory then some (firstEntry utf8 t p) else none }

/-- The engine has a directory at the victim's path, and its listing goes through. -/
def RenameCall.Lists (a : RenameCall) (o : ℕ) (s : Namespace) : Prop :=
  a.listed = true ∧ ∃ d ∈ node s.tree (s.pathOf o), d.kind = .directory

/-- What makes the call refuse a directory as its victim. -/
def RenameCall.Declines (T : PathText) (utf8 : Name → Bool) (a : RenameCall) (o : ℕ)
    (s : Namespace) : Prop :=
  s.readOnly = true ∨ a.IntoItself T s ∨ (¬ a.SameInode treeEngine o s ∧
    (s.pathOf o = [] ∨ ¬ a.Lists o s ∨ ∃ n, UserEntry s.tree (s.pathOf o) n ∧ utf8 n = true))

section Listing

variable {utf8 : Name → Bool} {t : Tree} {p : Path}

theorem firstEntry_iff : firstEntry utf8 t p = true ↔ ∃ n, UserEntry t p n ∧ utf8 n = true := by
  simp only [firstEntry, List.any_eq_true, Bool.and_eq_true, UserEntry]
  constructor
  · rintro ⟨n, -, hu, hf⟩
    exact ⟨n, hf, hu⟩
  · rintro ⟨n, hf, hu⟩
    refine ⟨n, mem_names.mpr ?_, hu, hf⟩
    obtain ⟨d, hd⟩ := Option.isSome_iff_exists.mp hf
    obtain ⟨i, hi, -⟩ := Option.bind_eq_some_iff.mp hd
    rw [hi]
    rfl

/-- A directory that shows an entry is not empty. -/
theorem leaf_of_firstEntry (h : firstEntry utf8 t p = true) : leaf t p = false := by
  obtain ⟨n, hf, -⟩ := firstEntry_iff.mp h
  obtain ⟨d, hd⟩ := Option.isSome_iff_exists.mp hf
  obtain ⟨i, hi, -⟩ := Option.bind_eq_some_iff.mp hd
  rw [Bool.eq_false_iff]
  intro hl
  rw [leaf_iff.mp hl [n] (by simp)] at hi
  cases hi

/-- The two tests agree on a directory exactly when it is empty or shows an entry. -/
theorem firstEntry_agrees : firstEntry utf8 t p = (!leaf t p) ↔
    leaf t p = true ∨ ∃ n, UserEntry t p n ∧ utf8 n = true := by
  rw [← firstEntry_iff]
  cases hf : firstEntry utf8 t p with
  | true => simp [leaf_of_firstEntry hf]
  | false => cases leaf t p <;> simp

/-- The listing shows nothing: the path is a directory's, and no entry of the user has a UTF-8
form. -/
theorem firstEntry_eq_false : (listingEngine utf8).firstEntry t p = some false ↔
    (∃ d ∈ node t p, d.kind = .directory) ∧ ¬ ∃ n, UserEntry t p n ∧ utf8 n = true := by
  rw [← firstEntry_iff, Bool.not_eq_true]
  simp only [listingEngine]
  cases node t p with
  | none => simp
  | some d => by_cases hd : d.kind = .directory <;> simp [hd]

end Listing

/-! ### The call -/

/-- The victim a call would park. -/
def victimOf (a : RenameCall) (o : ℕ) (s : Namespace) : Victim :=
  ⟨o, s.pathOf o, .nkOver a.uuid (((s.items[o]?).map Item.inode).getD 0)⟩

/-- Every library step succeeds, except that a parked victim cannot be linked back. -/
def stuckSteps : Phase → RenameSteps
  | .rollback => ⟨false, true, true⟩
  | _ => allOk

/-- The root cannot be parked. -/
theorem nkRename_root_free {t : Tree} (ok : RenameSteps) {dir : Path} {n : Name}
    (hfree : node t (dir ++ [n]) = none) :
    ∃ u, nkRename ok [] dir n t = (false, u) ∧ u.inodeAt [] = t.inodeAt [] := by
  have hlink : Tree.inodeAt (link [] (dir ++ [n]) t) [] = t.inodeAt [] :=
    Tree.inodeAt_congr (node_link_of_not (by simp))
  have hnew : t.inodeAt (dir ++ [n]) = none := Tree.inodeAt_eq_none.mpr hfree
  unfold nkRename
  cases node t [] with
  | none => exact ⟨t, rfl, rfl⟩
  | some x =>
    cases node t dir with
    | none => exact ⟨t, rfl, rfl⟩
    | some d =>
      simp only [hnew, hfree, ne_eq, not_true_eq_false, and_false, if_false, reduceCtorEq,
        Option.isSome_none, Bool.false_eq_true, false_or]
      split_ifs
      · exact ⟨t, rfl, rfl⟩
      · exact ⟨t, rfl, rfl⟩
      · exact ⟨_, rfl, hlink⟩
      · exact ⟨t, rfl, rfl⟩

theorem nkRename_unlinked {t : Tree} {ok : RenameSteps} {old dir : Path} {n : Name}
    (hlink : ok.link = false) : (nkRename ok old dir n t).2 = t := by
  unfold nkRename
  split
  · simp only [hlink, or_true, if_true]
    split_ifs <;> rfl
  · rfl

section Call

variable {T : PathText} {utf8 : Name → Bool} {a : RenameCall} {s : Namespace} {o : ℕ}
  (hover : a.overItem = some o) (hne : o ≠ a.item)
include hover hne

theorem overItem_filter : a.overItem.filter (· ≠ a.item) = some o := by
  rw [hover, Option.filter_some, if_pos (by simpa using hne)]

theorem overItem_rename : (a.rename s).overItem = some (victimOf a o s) := by
  rw [RenameCall.rename, overItem_filter hover hne, Option.map_some, victimOf]

/-- When a call with a directory for its victim passes the checks. -/
theorem accepted_dir (hkind : (s.items[o]?).map Item.kind = some .directory) :
    a.Accepted T (listingEngine utf8) s ↔ s.readOnly = false ∧ ¬ a.IntoItself T s ∧
      ¬ a.SameInode treeEngine o s ∧ a.Lists o s ∧
      ¬ ∃ n, UserEntry s.tree (s.pathOf o) n ∧ utf8 n = true := by
  rw [RenameCall.Accepted, overItem_filter hover hne]
  simp only [Option.mem_def, Option.some.injEq, forall_eq', hkind, forall_const,
    firstEntry_eq_false, RenameCall.Lists]
  tauto

/-- A call finds another link of the item's file exactly when the victim is one. -/
theorem relinks_iff : a.Relinks T (listingEngine utf8) s ↔
    s.readOnly = false ∧ ¬ a.IntoItself T s ∧ a.SameInode treeEngine o s := by
  rw [RenameCall.Relinks, overItem_filter hover hne]
  simp only [Option.mem_def, Option.some.injEq, exists_eq_left']
  rfl

variable (hkind : (s.items[o]?).map Item.kind = some .directory)
include hkind

/-- What makes the call decline lets it throw and leave the directory where it is. -/
theorem declines_throws (hidle : s.pending = none) (h : a.Declines T utf8 o s)
    (hfree : node s.tree ((victimOf a o s).dir ++ [(victimOf a o s).tmpName]) = none) :
    (∃ e, (s.renameCall T (listingEngine utf8) a).result = some (.error e)) ∧
      (s.renameCall T (listingEngine utf8) a).final.tree.inodeAt (s.pathOf o) =
        s.tree.inodeAt (s.pathOf o) := by
  have hend := renameCall_ending T (listingEngine utf8) a hidle
  have hover' := overItem_rename (s := s) hover hne
  -- a call that passes the checks is one whose victim is the root, and that is not parked
  have hroot : a.Accepted T (listingEngine utf8) s → s.pathOf o = [] := by
    rw [accepted_dir hover hne hkind]
    rintro ⟨hro, hinto, hsame, hlists, hshown⟩
    rcases h with hro' | hinto' | ⟨-, hroot | hlists' | hshown'⟩
    · rw [hro] at hro'
      cases hro'
    · exact absurd hinto' hinto
    · exact hroot
    · exact absurd hlists hlists'
    · exact absurd hshown' hshown
  have hpark : a.Accepted T (listingEngine utf8) s → ∃ u, nkRename (a.steps .park)
      (victimOf a o s).path (victimOf a o s).dir (victimOf a o s).tmpName s.tree = (false, u) ∧
      u.inodeAt (s.pathOf o) = s.tree.inodeAt (s.pathOf o) := by
    intro hacc
    obtain ⟨u, hu, hat⟩ := nkRename_root_free (a.steps .park) hfree
    refine ⟨u, ?_, by rw [hroot hacc]; exact hat⟩
    rw [← hu, victimOf, hroot hacc]
  generalize (s.renameCall T (listingEngine utf8) a).result = res at hend ⊢
  generalize (s.renameCall T (listingEngine utf8) a).final = t at hend ⊢
  cases hend with
  | refused res hno why =>
    rcases why with ⟨⟨e, rfl⟩, -⟩ | ⟨-, hrel⟩
    · exact ⟨⟨e, rfl⟩, rfl⟩
    · obtain ⟨hro, hinto, hsame⟩ := (relinks_iff hover hne).mp hrel
      rcases h with hro' | hinto' | ⟨hno', -⟩
      · rw [hro] at hro'
        cases hro'
      · exact absurd hinto' hinto
      · exact absurd hsame hno'
  | @unparked o' u hacc ho hp =>
    obtain rfl := Option.some.inj (hover'.symm.trans ho)
    obtain ⟨u', hu', hat⟩ := hpark hacc
    obtain rfl : u' = u := congrArg Prod.snd (hu'.symm.trans hp)
    exact ⟨⟨_, rfl⟩, hat⟩
  | givenBack hacc ho hp | replaced hacc ho hp =>
    obtain rfl := Option.some.inj (hover'.symm.trans ho)
    obtain ⟨u', hu', -⟩ := hpark hacc
    cases congrArg Prod.fst (hu'.symm.trans hp)
  | kept hacc ho | moved hacc ho =>
    rw [hover'] at ho
    cases ho

/-- Where the call does not decline, it may end without an error, or with the directory under
its hidden name. -/
theorem replaced_of_not_declines (hclosed : s.tree.Closed) (hidle : s.pending = none)
    (h : ¬ a.Declines T utf8 o s) (hsteps : a.steps = stuckSteps)
    (hfree : node s.tree ((victimOf a o s).dir ++ [(victimOf a o s).tmpName]) = none) :
    (s.renameCall T (listingEngine utf8) a).result = some (.ok none) ∨
      (s.renameCall T (listingEngine utf8) a).final.tree.inodeAt (s.pathOf o) = none := by
  have hend := renameCall_ending T (listingEngine utf8) a hidle
  have hover' := overItem_rename (s := s) hover hne
  obtain ⟨hro, hinto, hrest⟩ : s.readOnly = false ∧ ¬ a.IntoItself T s ∧
      ¬ (¬ a.SameInode treeEngine o s ∧ (s.pathOf o = [] ∨ ¬ a.Lists o s ∨
        ∃ n, UserEntry s.tree (s.pathOf o) n ∧ utf8 n = true)) := by
    rw [RenameCall.Declines, not_or, not_or, Bool.not_eq_true] at h
    exact h
  -- an accepted victim is parked
  have hpark : a.Accepted T (listingEngine utf8) s → nkRename (a.steps .park) (victimOf a o s).path
      (victimOf a o s).dir (victimOf a o s).tmpName s.tree =
        (true, move (s.pathOf o) (victimOf a o s).parked s.tree) := by
    rw [accepted_dir hover hne hkind]
    rintro ⟨-, -, hsame, ⟨-, x, hx, -⟩, -⟩
    have hroot : s.pathOf o ≠ [] := fun hroot => hrest ⟨hsame, .inl hroot⟩
    obtain ⟨d, hd, hk⟩ := hclosed (s.pathOf o).dropLast ((s.pathOf o).getLast hroot)
      (by rw [List.dropLast_append_getLast, hx]; rfl)
    rw [hsteps]
    exact nkRename_succeeds hx hd hk hfree hroot rfl rfl
  generalize (s.renameCall T (listingEngine utf8) a).result = res at hend ⊢
  generalize (s.renameCall T (listingEngine utf8) a).final = t at hend ⊢
  cases hend with
  | refused res hno why =>
    rcases why with ⟨-, hrel⟩ | ⟨rfl, -⟩
    · rw [relinks_iff hover hne] at hrel
      rw [accepted_dir hover hne hkind] at hno
      tauto
    · exact .inl rfl
  | unparked hacc ho hp =>
    obtain rfl := Option.some.inj (hover'.symm.trans ho)
    cases congrArg Prod.fst ((hpark hacc).symm.trans hp)
  | @givenBack o' u v hacc ho hp hm =>
    obtain rfl := Option.some.inj (hover'.symm.trans ho)
    have hu : move (s.pathOf o) (victimOf a o s).parked s.tree = u :=
      congrArg Prod.snd ((hpark hacc).symm.trans hp)
    -- the main rename fails without a trace, and the victim cannot be linked back
    obtain rfl : v = u := nkRename_undone (nkRename_closed hclosed hp) hm
      (.inl (by rw [hsteps]; rfl))
    right
    change Tree.inodeAt (nkRename (a.steps .rollback) _ _ _ v).2 (s.pathOf o) = none
    rw [nkRename_unlinked (by rw [hsteps]; rfl), ← hu]
    exact Tree.inodeAt_eq_none.mpr (node_move_old (List.prefix_refl (s.pathOf o)))
  | replaced => exact .inl rfl
  | kept hacc ho | moved hacc ho =>
    rw [hover'] at ho
    cases ho

/-- A rename throws and leaves the directory it was to replace at its path, whichever of the
library's steps succeed, exactly when the volume is read-only, the destination is below the
item, or the victim is another file than the item and is the root, cannot be listed, or has an
entry of the user with a UTF-8 name. The two emptiness tests agree on a directory exactly when it
is empty or has such an entry. -/
theorem replaces_only_shown_empty (utf8 : Name → Bool) (hclosed : s.tree.Closed)
    (hidle : s.pending = none) (hnode : (node s.tree (s.pathOf o)).isSome)
    (hfree : node s.tree ((victimOf a o s).dir ++ [(victimOf a o s).tmpName]) = none) :
    ((∀ steps,
      (∃ e, (s.renameCall T (listingEngine utf8) { a with steps := steps }).result =
        some (.error e)) ∧
      (s.renameCall T (listingEngine utf8) { a with steps := steps }).final.tree.inodeAt
        (s.pathOf o) = s.tree.inodeAt (s.pathOf o)) ↔ a.Declines T utf8 o s) ∧
    (firstEntry utf8 s.tree (s.pathOf o) = (!leaf s.tree (s.pathOf o)) ↔
      leaf s.tree (s.pathOf o) = true ∨
        ∃ n, UserEntry s.tree (s.pathOf o) n ∧ utf8 n = true) := by
  refine ⟨⟨fun h => ?_, fun h steps => ?_⟩, firstEntry_agrees⟩
  · by_contra hno
    obtain ⟨⟨e, he⟩, hat⟩ := h stuckSteps
    rcases replaced_of_not_declines (a := { a with steps := stuckSteps }) hover hne hkind hclosed
      hidle hno rfl hfree with hok | hgone
    · rw [he] at hok
      cases hok
    · rw [hgone] at hat
      rw [Tree.inodeAt_eq_none.mp hat.symm] at hnode
      cases hnode
  · exact declines_throws (a := { a with steps := steps }) hover hne hkind hidle h hfree

end Call

/-- Two directories, the second with one file in it, all looked up. -/
def oneInside (name : String) : Namespace := fromEmpty .accented
  [.createItem 0 (.plain "a") .directory true true, .createItem 0 (.plain "b") .directory true true,
    .createItem 2 (.plain name) .file true true]

/-- The first directory renamed over the second. -/
def overSecond (steps : Phase → RenameSteps) : RenameCall :=
  ⟨1, 0, .plain "b", some 2, 7, true, steps⟩

/-- A directory whose file has a UTF-8 name is kept. -/
theorem replaces_only_shown_empty_file :
    let c := (oneInside "c").renameCall .accented (listingEngine fun _ => true)
      (overSecond fun _ => allOk)
    (∃ e, c.result = some (.error e)) ∧ c.final.tree.inodeAt [.plain "b"] = some 65 := by
  have hclosed : (oneInside "c").tree.Closed := by
    have ha : Tree.Closed (([] ++ [.plain "a"], ⟨64, .directory⟩) :: rootOnly) :=
      rootOnly_wf.closed.cons (d := ⟨5, .directory⟩) rfl rfl (by decide)
    have hb : Tree.Closed (([] ++ [.plain "b"], ⟨65, .directory⟩) :: _) :=
      ha.cons (d := ⟨5, .directory⟩) (by decide) rfl (by decide)
    have hc : Tree.Closed (([.plain "b"] ++ [.plain "c"], ⟨66, .file⟩) :: _) :=
      hb.cons (d := ⟨65, .directory⟩) (by decide) rfl (by decide)
    exact hc
  have hmain := (replaces_only_shown_empty (T := .accented) (a := overSecond fun _ => allOk)
    (s := oneInside "c") (o := 2) rfl (by decide) (by decide +kernel) (fun _ => true) hclosed
    (by decide +kernel) (by decide +kernel) (by decide +kernel)).1
  have hshown : UserEntry (oneInside "c").tree [.plain "b"] (.plain "c") := by
    show (nkFilldir _ _ _).isSome = true
    decide +kernel
  exact hmain.mpr (.inr (.inr ⟨by decide +kernel, .inr (.inr ⟨.plain "c", hshown, rfl⟩)⟩))
    fun _ => allOk

/-- A directory whose one file has no UTF-8 name is listed as empty and replaced. The delete of
the parked directory fails, and it stays under the hidden name with the file in it. -/
theorem replaces_unshown :
    let c := (oneInside "lone surrogate").renameCall .accented
      (listingEngine fun n => n ≠ .plain "lone surrogate") (overSecond fun _ => allOk)
    (nkFilldir (oneInside "lone surrogate").tree [.plain "b"] (.plain "lone surrogate")).isSome ∧
      c.result = some (.ok none) ∧ c.final.tree.inodeAt [.plain "b"] = some 64 ∧
      c.final.tree.inodeAt [.nkOver 7 65] = some 65 ∧
      c.final.tree.inodeAt [.nkOver 7 65, .plain "lone surrogate"] = some 66 := by
  decide +kernel

end NtfsKit
