import NtfsKit.System.TableMap

/-! Marks and the end of a file. `nk_delete` reads the link count before the delete and drops
the entry of the file when it is at most one. A long name and its 8.3 alias count as two
links, and one delete takes both: the entry of a file whose last name is such a pair stays,
and a later file with the same reference starts with it. -/

namespace NtfsKit

variable {σ : Type}

open Files

/-- No name of the file `x` is left; the root needs none. -/
def Unnamed (g : DirGraph) (x : ℕ) : Prop := x ≠ g.root ∧ ∀ e ∈ g.entries, e.inode ≠ x

instance (g : DirGraph) (x : ℕ) : Decidable (Unnamed g x) :=
  inferInstanceAs (Decidable (x ≠ g.root ∧ ∀ e ∈ g.entries, e.inode ≠ x))

/-- The name is the last one of its file. -/
def LastName (g : DirGraph) (e : Entry) : Prop := ∀ f ∈ g.entries, f.inode = e.inode → f = e

instance (g : DirGraph) (e : Entry) : Decidable (LastName g e) :=
  inferInstanceAs (Decidable (∀ f ∈ g.entries, f.inode = e.inode → f = e))

/-- The library makes a file in a free MFT record, whose sequence number is not zero. -/
def TakesFree (s : Files σ) : FileCall → Prop
  | .create _ _ _ _ _ ref => ref ≠ 0 ∧ Unnamed s.names ref
  | _ => True

instance (s : Files σ) : ∀ c, Decidable (TakesFree s c)
  | .create _ _ _ _ _ ref => inferInstanceAs (Decidable (ref ≠ 0 ∧ Unnamed s.names ref))
  | .blockmap .. => isTrue trivial
  | .completeWrite .. => isTrue trivial
  | .abortWrite .. => isTrue trivial
  | .truncate .. => isTrue trivial
  | .rename .. => isTrue trivial
  | .delete .. => isTrue trivial

/-- The delete of a name finds one link at most, or no mark to drop. -/
def CountsOne (s : Files σ) (e : Entry) : Prop :=
  s.names.linkCount e.inode ≤ 1 ∨ SwapTable.find s.wr e.inode = none

instance (s : Files σ) (e : Entry) : Decidable (CountsOne s e) :=
  inferInstanceAs (Decidable (_ ∨ _))

/-- No file with a mark loses a pair of names as its last. -/
def SingleLast (s : Files σ) : FileCall → Prop
  | .delete _ path => ∀ e ∈ s.names.entryAt path, LastName s.names e → CountsOne s e
  | _ => True

instance (s : Files σ) : ∀ c, Decidable (SingleLast s c)
  | .delete _ path => inferInstanceAs
      (Decidable (∀ e ∈ s.names.entryAt path, LastName s.names e → CountsOne s e))
  | .blockmap .. => isTrue trivial
  | .completeWrite .. => isTrue trivial
  | .abortWrite .. => isTrue trivial
  | .truncate .. => isTrue trivial
  | .create .. => isTrue trivial
  | .rename .. => isTrue trivial

/-- No file has the reference zero, no mark is kept twice, and none for a file without a
name. -/
structure MarksNamed (s : Files σ) : Prop where
  zero : Unnamed s.names 0
  distinct : SwapTable.Distinct s.wr
  named : ∀ x, Unnamed s.names x → SwapTable.find s.wr x = none

/-- A volume just mounted tracks nothing. -/
theorem MarksNamed.mounted {s : Files σ} (hw : s.wr = []) (h0 : Unnamed s.names 0) :
    MarksNamed s :=
  ⟨h0, by rw [hw]; exact List.nodup_nil, fun x _ => by rw [hw]; rfl⟩

section Names

variable {g : DirGraph} {d x y : ℕ} {n : Name} {e : Entry} {p : Path}

/-- A path leads to the root or to a name. -/
theorem DirGraph.resolve_named (h : g.resolve p = some x) : ¬ Unnamed g x := by
  rintro ⟨hroot, hnone⟩
  rcases List.eq_nil_or_concat p with rfl | ⟨q, k, rfl⟩
  · exact hroot (Option.some.inj h).symm
  · rw [List.concat_eq_append] at h
    obtain ⟨m, e, -, he, hx⟩ := resolve_eq_some h
    exact hnone e (lookup_mem he).1 hx

theorem Unnamed.of_subset {g' : DirGraph} (h : Unnamed g' x) (hr : g'.root = g.root)
    (hsub : ∀ e ∈ g.entries, e.inode = x → ∃ f ∈ g'.entries, f.inode = x) : Unnamed g x :=
  ⟨hr ▸ h.1, fun e he hx => by
    obtain ⟨f, hf, hfx⟩ := hsub e he hx
    exact h.2 f hf hfx⟩

/-- A delete takes no name of another file. -/
theorem Unnamed.of_remove (h : Unnamed (g.remove e) x) (hx : x ≠ e.inode) : Unnamed g x := by
  refine h.of_subset rfl fun f hf hfx => ⟨f, ?_, hfx⟩
  simp only [DirGraph.remove, List.mem_filter, decide_eq_true_eq]
  exact ⟨hf, fun hfe => hx (hfx.symm.trans (congrArg Entry.inode hfe))⟩

/-- A file that loses its last name loses that one. -/
theorem Unnamed.last (h : Unnamed (g.remove e) e.inode) : LastName g e := by
  intro f hf hfx
  by_contra hne
  refine h.2 f ?_ hfx
  simp only [DirGraph.remove, List.mem_filter, decide_eq_true_eq]
  exact ⟨hf, hne⟩

theorem unnamed_link : Unnamed (g.link d n y) x ↔ Unnamed g x ∧ x ≠ y := by
  constructor
  · intro h
    refine ⟨⟨h.1, fun e he => h.2 e (DirGraph.mem_link.mpr (.inl he))⟩, fun hxy => ?_⟩
    exact h.2 _ (DirGraph.mem_link.mpr (.inr rfl)) hxy.symm
  · rintro ⟨h, hxy⟩
    refine ⟨h.1, fun e he => ?_⟩
    rcases DirGraph.mem_link.mp he with he | rfl
    · exact h.2 e he
    · exact hxy.symm

theorem unnamed_create {isDir : Bool} :
    Unnamed (g.create d n isDir y) x ↔ Unnamed g x ∧ x ≠ y :=
  unnamed_link (g := g) (d := d) (n := n)

theorem Unnamed.remove (h : Unnamed g x) : Unnamed (g.remove e) x :=
  ⟨h.1, fun f hf => h.2 f (List.mem_of_mem_filter hf)⟩

theorem linkCount_link : (g.link d n x).linkCount x = g.linkCount x + 1 := by
  simp [DirGraph.linkCount, DirGraph.link]

theorem linkCount_pos (he : e ∈ g.entries) : 1 ≤ g.linkCount e.inode := by
  have hmem : (if e.dosName.isSome then 2 else 1) ∈
      (g.entries.filter fun f => f.inode = e.inode).map fun f =>
        if f.dosName.isSome then 2 else 1 :=
    List.mem_map_of_mem (List.mem_filter.mpr ⟨he, by simp⟩)
  have hle := List.single_le_sum (fun k _ => Nat.zero_le k) _ hmem
  unfold DirGraph.linkCount
  split_ifs at hle <;> omega

end Names

/-! ### What a call does to the names -/

/-- The names after a call: as before, with a new file, with a further name of the call's
file, with another name in place of one, or without a name. -/
inductive NamesAfter (g : DirGraph) (c : FileCall) : DirGraph → Prop
  | same : NamesAfter g c g
  | created {dir : Path} {name : Name} {isDir made closed : Bool} {ref : ℕ} (d : ℕ)
      (hc : c = .create dir name isDir made closed ref) : NamesAfter g c (g.create d name isDir ref)
  | linked {x : ℕ} (d : ℕ) (n : Name) (hx : target g c = some x) : NamesAfter g c (g.link d n x)
  | moved {x d : ℕ} {n : Name} {e : Entry} (hx : target g c = some x) (hn : g.lookup d n = none)
      (he : e ∈ g.entries) (hex : e.inode = x) : NamesAfter g c ((g.link d n x).remove e)
  | removed {e : Entry} {ok : Bool} {path : Path} (hc : c = .delete ok path)
      (he : g.entryAt path = some e) : NamesAfter g c (g.remove e)

/-- `nk_delete` fails and changes nothing, or takes the name away, and with it the entry of
a file that had one link. -/
theorem Files.nkDelete_spec (s : Files σ) (ok : Bool) (path : Path) :
    s.nkDelete ok path = (-1, s) ∨ ∃ e, s.names.entryAt path = some e ∧
      s.nkDelete ok path = (0, { s with
        names := s.names.remove e
        wr := if s.names.linkCount e.inode ≤ 1 ∧ e.inode ≠ 0 then
          SwapTable.swapRemove s.wr e.inode else s.wr }) := by
  unfold Files.nkDelete
  cases he : s.names.entryAt path with
  | none => exact .inl rfl
  | some e =>
    dsimp only
    by_cases hr : (s.names.nkDelete ok path).1 = false
    · refine .inl ?_
      rw [if_pos hr]
      unfold DirGraph.nkDelete at hr ⊢
      rw [he] at hr ⊢
      dsimp only at hr ⊢
      split_ifs at hr ⊢
      rfl
    · refine .inr ⟨e, rfl, ?_⟩
      have hg : (s.names.nkDelete ok path).2 = s.names.remove e := by
        unfold DirGraph.nkDelete at hr ⊢
        rw [he] at hr ⊢
        dsimp only at hr ⊢
        split_ifs at hr ⊢ with hc
        · rfl
        · exact absurd rfl hr
      rw [if_neg hr, hg]
      by_cases hl : s.names.linkCount e.inode ≤ 1
      · by_cases h0 : e.inode = 0
        · simp [h0]
        · simp [hl, h0]
      · simp [hl]

/-- What `nk_rename` leaves is the old names, the old names and the new link, or the move; the
table stays, since the delete of the old name finds the new link. -/
theorem Files.nkRename_spec (s : Files σ) (ok : RenameSteps) (old dir : Path) (name : Name) :
    (s.nkRename ok old dir name).2.wr = s.wr ∧
      NamesAfter s.names (.rename ok old dir name) (s.nkRename ok old dir name).2.names := by
  unfold Files.nkRename
  cases hx : s.names.resolve old with
  | none => exact ⟨rfl, .same⟩
  | some x =>
    cases s.names.resolve dir with
    | none => exact ⟨rfl, .same⟩
    | some d =>
      dsimp only
      by_cases hd : d ∉ s.names.dirs
      · rw [if_pos hd]
        exact ⟨rfl, .same⟩
      rw [if_neg hd]
      cases hn : s.names.lookup d name with
      | some e => exact ⟨rfl, .same⟩
      | none =>
        dsimp only
        by_cases hl : ok.link = false
        · rw [if_pos hl]
          exact ⟨rfl, .same⟩
        rw [if_neg hl]
        rcases Files.nkDelete_spec { s with names := s.names.link d name x } ok.delete old with
          h | ⟨e, he, h⟩
        · rw [h]
          dsimp only
          rw [if_neg (by decide)]
          split_ifs
          · exact ⟨rfl, .same⟩
          · exact ⟨rfl, .linked d name hx⟩
        · have hold : old ≠ [] := by
            rintro rfl
            simp [DirGraph.entryAt] at he
          obtain ⟨e', he', hmem, hex⟩ := DirGraph.entryAt_link (d := d) (n := name) hold hx
          obtain rfl : e' = e := Option.some.inj (he'.symm.trans he)
          have htwo : ¬ (s.names.link d name x).linkCount e'.inode ≤ 1 := by
            have hone := linkCount_pos hmem
            rw [hex] at hone ⊢
            rw [linkCount_link]
            omega
          rw [h, if_pos rfl]
          simp only [htwo, false_and, if_false]
          exact ⟨trivial, .moved hx hn hmem hex⟩

theorem step_names (L : Libntfs σ) (v : NkVolume) (s : Files σ) (c : FileCall) :
    NamesAfter s.names c (step L v s c).2.names := by
  have hfile : ∀ {A : Type} (path : Path) (k : Libntfs σ → NkFile σ → A × NkFile σ),
      (s.onPath L path k).2.names = s.names := fun path k => by
    unfold Files.onPath
    split <;> rfl
  cases c with
  | blockmap path =>
    rw [step, hfile]
    exact .same
  | completeWrite path =>
    rw [step, code, hfile]
    exact .same
  | abortWrite path =>
    rw [step, code, hfile]
    exact .same
  | truncate path =>
    rw [step, code, hfile]
    exact .same
  | create dir name isDir made closed ref =>
    rw [step, code]
    unfold Files.createNode
    cases s.names.resolve dir with
    | none => exact .same
    | some d =>
      dsimp only
      by_cases hc : d ∈ s.names.dirs ∧ s.names.lookup d name = none ∧ made
      · rw [if_pos hc]
        exact .created d rfl
      · rw [if_neg hc]
        exact .same
  | rename ok old dir name => exact (Files.nkRename_spec s ok old dir name).2
  | delete ok path =>
    rw [step, code]
    rcases Files.nkDelete_spec s ok path with h | ⟨e, he, h⟩
    · rw [h]
      exact .same
    · rw [h]
      exact .removed rfl he

section After

variable {g g' : DirGraph} {c : FileCall} {x : ℕ}

/-- A call works on a file with a name. -/
theorem target_named (hx : target g c = some x) : ¬ Unnamed g x := by
  cases c with
  | create => cases hx
  | blockmap => exact DirGraph.resolve_named hx
  | completeWrite => exact DirGraph.resolve_named hx
  | abortWrite => exact DirGraph.resolve_named hx
  | truncate => exact DirGraph.resolve_named hx
  | rename => exact DirGraph.resolve_named hx
  | delete => exact DirGraph.resolve_named hx

/-- A file the call does not work on loses no name. -/
theorem NamesAfter.back (h : NamesAfter g c g') (hx : target g c ≠ some x) (hu : Unnamed g' x) :
    Unnamed g x := by
  cases h with
  | same => exact hu
  | created d hc => exact (unnamed_create.mp hu).1
  | linked d n hy => exact (unnamed_link.mp hu).1
  | moved hy hn he hex =>
    have hne : x ≠ _ := fun heq => hx (by rw [hy, heq])
    exact (unnamed_link.mp (hu.of_remove (hex ▸ hne))).1
  | removed hc he =>
    subst hc
    exact hu.of_remove fun heq => hx (heq ▸ DirGraph.resolve_of_entryAt he)

/-- A file the call works on keeps a name, unless the call is the delete of its last one. -/
theorem NamesAfter.last (h : NamesAfter g c g') (hx : target g c = some x) (hu : Unnamed g' x) :
    ∃ ok path e, c = .delete ok path ∧ g.entryAt path = some e ∧ e.inode = x ∧ LastName g e := by
  have hnamed : ¬ Unnamed g x := target_named hx
  cases h with
  | same => exact absurd hu hnamed
  | created d hc => exact absurd (unnamed_create.mp hu).1 hnamed
  | linked d n hy => exact absurd (unnamed_link.mp hu).1 hnamed
  | moved hy hn he hex =>
    have hnew := hu.2 _ ((DirGraph.mem_move hn he).mpr (.inr rfl))
    exact absurd (Option.some.inj (hy.symm.trans hx)) hnew
  | removed hc he =>
    subst hc
    have hxe : x = _ := Option.some.inj (hx.symm.trans (DirGraph.resolve_of_entryAt he))
    subst hxe
    exact ⟨_, _, _, rfl, he, rfl, hu.last⟩

/-- A call names no file that had no name, except the one it creates. -/
theorem NamesAfter.keep (h : NamesAfter g c g') (hu : Unnamed g x)
    (hx : ∀ dir name isDir made closed, c ≠ .create dir name isDir made closed x) :
    Unnamed g' x := by
  have hnot : ∀ y, target g c = some y → x ≠ y := fun y hy hxy => target_named hy (hxy ▸ hu)
  cases h with
  | same => exact hu
  | created d hc => exact unnamed_create.mpr ⟨hu, fun heq => hx _ _ _ _ _ (heq ▸ hc)⟩
  | linked d n hy => exact unnamed_link.mpr ⟨hu, hnot _ hy⟩
  | moved hy hn he hex => exact (unnamed_link.mpr ⟨hu, hnot _ hy⟩).remove
  | removed hc he => exact hu.remove

end After

/-- A delete that succeeds leaves no mark of its file exactly when it counted one link, or there
was no mark. -/
theorem nkDelete_drops {s : Files σ} (hd : SwapTable.Distinct s.wr) {ok : Bool} {path : Path}
    {e : Entry} (he : s.names.entryAt path = some e) (h0 : e.inode ≠ 0)
    (hok : (s.nkDelete ok path).1 = 0) :
    SwapTable.find (s.nkDelete ok path).2.wr e.inode = none ↔ CountsOne s e := by
  rcases Files.nkDelete_spec s ok path with h | ⟨e', he', h⟩
  · rw [h] at hok
    cases hok
  · obtain rfl : e' = e := Option.some.inj (he'.symm.trans he)
    rw [h, CountsOne]
    dsimp only
    by_cases hl : s.names.linkCount e'.inode ≤ 1
    · rw [if_pos ⟨hl, h0⟩, SwapTable.find_swapRemove hd, if_pos rfl]
      exact iff_of_true rfl (.inl hl)
    · rw [if_neg fun h => hl h.1]
      exact (or_iff_right hl).symm

/-- One call that meets the rules keeps every mark with a name. -/
theorem MarksNamed.step {s : Files σ} (h : MarksNamed s) (L : Libntfs σ) (v : NkVolume)
    {c : FileCall} (hfree : TakesFree s c) (hlast : SingleLast s c) :
    MarksNamed (Files.step L v s c).2 where
  zero := (step_names L v s c).keep h.zero fun dir name isDir made closed hc => by
    subst hc
    exact hfree.1 rfl
  distinct := step_distinct L v h.distinct c
  named x hx := by
    by_cases ht : target s.names c = some x
    · -- the delete of a last name: it finds one link, or there is no mark
      obtain ⟨ok, path, e, rfl, he, rfl, hle⟩ := (step_names L v s c).last ht hx
      refine (nkDelete_drops h.distinct he ?_ ?_).mpr (hlast e he hle)
      · exact h.zero.2 e (DirGraph.entryAt_mem he)
      · rcases Files.nkDelete_spec s ok path with hs | ⟨e', -, hs⟩
        · rw [Files.step, code, hs] at hx
          exact absurd hx (target_named ht)
        · rw [hs]
    · rw [step_isolated L v h.distinct c ht]
      exact h.named x ((step_names L v s c).back ht hx)

/-- A file just created has no mark above its `initialized_size`. -/
def StartsClean (s : Files σ) (c : FileCall) (t : Files σ) : Prop :=
  ∀ dir name isDir made closed ref, c = .create dir name isDir made closed ref →
    Unnamed s.names ref → ¬ Unnamed t.names ref →
      (t.file ref).wrHwm ≤ (t.attrs ref).initializedSize ∧
        (t.file ref).wrHwm ≤ (t.attrs ref).recInitializedSize

theorem createNode_clean {s : Files σ} (h : MarksNamed s) (L : Libntfs σ) (v : NkVolume)
    (c : FileCall) : StartsClean s c (Files.step L v s c).2 := by
  rintro dir name isDir made closed ref rfl hs ht
  have hwr : (Files.step L v s (.create dir name isDir made closed ref)).2.wr = s.wr :=
    step_wr_of_target_none L v rfl
  have hmark : ((Files.step L v s (.create dir name isDir made closed ref)).2.file ref).wrHwm = 0 := by
    rw [NkFile.wrHwm, Files.file, hwr, h.named ref hs]
    rfl
  rw [hmark]
  rw [Files.step, code] at ht ⊢
  unfold Files.createNode at ht ⊢
  cases hr : s.names.resolve dir with
  | none =>
    rw [hr] at ht
    exact absurd hs ht
  | some d =>
    rw [hr] at ht
    dsimp only at ht ⊢
    by_cases hc : d ∈ s.names.dirs ∧ s.names.lookup d name = none ∧ made
    · rw [if_pos hc]
      simp [emptyData]
    · rw [if_neg hc] at ht
      exact absurd hs ht

/-- From the mount on, in every run whose deletes of last names count one link or find no mark:
no mark is left of a file without a name, and a file just created starts with none above its
`initialized_size`. In every state of such a run, a delete that succeeds leaves no mark of its
file exactly when it counted one link or there was none. -/
theorem marks_end_with_last_name (L : Libntfs σ) (v : NkVolume) {s t : Files σ} (hw : s.wr = [])
    (h0 : Unnamed s.names 0)
    (hr : Run (step L v) (fun s c _ => TakesFree s c ∧ SingleLast s c) s t) :
    (∀ x, Unnamed t.names x → SwapTable.find t.wr x = none) ∧
    (∀ c, StartsClean t c (step L v t c).2) ∧
    ∀ ok path e, t.names.entryAt path = some e → (t.nkDelete ok path).1 = 0 →
      (SwapTable.find (t.nkDelete ok path).2.wr e.inode = none ↔ CountsOne t e) := by
  have hstep : ∀ (s : Files σ) (c : FileCall), MarksNamed s → TakesFree s c ∧ SingleLast s c →
      MarksNamed (step L v s c).2 := fun s c h hc => h.step L v hc.1 hc.2
  have ht : MarksNamed t := hr.invariant hstep (.mounted hw h0)
  refine ⟨ht.named, createNode_clean ht L v, fun ok path e he hok => ?_⟩
  exact nkDelete_drops ht.distinct he (ht.zero.2 e (DirGraph.entryAt_mem he)) hok

/-- A file with one name: its mark goes with it, and its record starts clean. -/
theorem marks_end_with_last_name_single :
    let t := execAll (step (fullDisk 512 0) smallVolume)
      [.blockmap [.plain "b"] 0 512 true 512 fun _ => false, .delete true [.plain "b"]] pairedFiles
    Unnamed t.names 8 ∧ SwapTable.find t.wr 8 = none := by
  intro t
  have hr : Run (step (fullDisk 512 0) smallVolume) (fun s c _ => TakesFree s c ∧ SingleLast s c)
      pairedFiles t := Run.of_execAll (by decide +kernel)
  have hu : Unnamed t.names 8 := by decide +kernel
  exact ⟨hu, (marks_end_with_last_name _ _ rfl (by decide) hr).1 8 hu⟩

/-- The last name is a pair: the delete takes both, counts two links and keeps the mark, and
the next file in the record starts with it. -/
theorem pair_leaves_mark :
    let long : Path := [.plain "long name.txt"]
    let t := execAll (step (fullDisk 512 0) smallVolume)
      [.blockmap long 0 512 true 512 fun _ => false, .delete true long] pairedFiles
    let u := (step (fullDisk 512 0) smallVolume t (.create [] (.plain "new") false true true 7)).2
    Run (step (fullDisk 512 0) smallVolume) (fun s c _ => TakesFree s c) pairedFiles u ∧
      Unnamed t.names 7 ∧ SwapTable.find t.wr 7 = some 512 ∧
      (u.attrs 7).initializedSize < (u.file 7).wrHwm := by
  refine ⟨.tail _ (Run.of_execAll ?_) ?_, ?_⟩
  all_goals decide +kernel

end NtfsKit
