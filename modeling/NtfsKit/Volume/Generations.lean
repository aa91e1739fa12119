import NtfsKit.Volume.Enumerate
import NtfsKit.Volume.Spellings

/-! Generations and the directories they stand for. Generations come from one counter, so one
that was handed out is never given to a path again; a call that changes the entries of a
directory gives the directory's path a new one. A directory whose path has kept its generation
was at that path all along, with the same entries. -/

namespace NtfsKit

open PathTree

variable {T : PathText} {s : Namespace} {t u w : Tree} {d : ℕ} {P : Path}

/-! ### The counter -/

/-- No path has a generation the counter has not reached. -/
structure Counted (s : Namespace) : Prop where
  pos : 1 ≤ s.genCounter
  bound : ∀ e ∈ s.dirGen, e.2 ≤ s.genCounter

theorem Counted.le (h : Counted s) (path : Path) : generation T s path ≤ s.genCounter := by
  unfold generation
  cases hf : T.find s.dirGen path with
  | none => exact h.pos
  | some v =>
    obtain ⟨q, hq, -⟩ := EquivDict.mem_of_find hf
    exact h.bound _ hq

variable (T) in
/-- After a mutation a path has a new generation if it is among the bumped ones, and else the
one it had. -/
theorem mutateNamespace_counts (dirs : List Path) (h : Counted s) :
    Counted (s.mutateNamespace T dirs) ∧
    s.genCounter ≤ (s.mutateNamespace T dirs).genCounter ∧
    ∀ path, ((∃ b ∈ dirs, T.form b = T.form path) →
        s.genCounter < generation T (s.mutateNamespace T dirs) path) ∧
      ((∀ b ∈ dirs, T.form b ≠ T.form path) →
        generation T (s.mutateNamespace T dirs) path =
          generation T s path) := by
  induction dirs generalizing s with
  | nil => exact ⟨h, le_rfl, fun path => ⟨fun ⟨b, hb, _⟩ => absurd hb List.not_mem_nil, fun _ => rfl⟩⟩
  | cons b dirs ih =>
    let t : Namespace := { s with
      genCounter := s.genCounter + 1
      dirGen := T.set s.dirGen b (s.genCounter + 1) }
    have ht : Counted t := by
      refine ⟨Nat.le_add_left 1 s.genCounter, ?_⟩
      rintro ⟨q, v⟩ hq
      change v ≤ s.genCounter + 1
      rcases EquivDict.mem_set hq with ⟨-, rfl⟩ | hq
      · exact le_rfl
      · exact Nat.le_succ_of_le (h.bound _ hq)
    obtain ⟨hcount, hle, hgen⟩ := ih ht
    refine ⟨hcount, (Nat.le_succ _).trans hle, fun path => ⟨fun hin => ?_, fun hout => ?_⟩⟩
    · by_cases hrest : ∃ b ∈ dirs, T.form b = T.form path
      · exact (Nat.lt_succ_self _).trans ((hgen path).1 hrest)
      · -- only the first of the paths: it keeps the generation it got first
        obtain ⟨b', hb', heq⟩ := hin
        have hb : T.form b = T.form path := by
          rcases List.mem_cons.mp hb' with rfl | hb'
          · exact heq
          · exact absurd ⟨b', hb', heq⟩ hrest
        have hsame := (hgen path).2 fun b hb heq => hrest ⟨b, hb, heq⟩
        have hnew : generation T t path = s.genCounter + 1 := by
          rw [generation, PathText.find_congr hb.symm, PathText.find_set_self]
          rfl
        change s.genCounter < generation T (t.mutateNamespace T dirs) path
        rw [hsame, hnew]
        exact Nat.lt_succ_self _
    · have hsame := (hgen path).2 fun b' hb' => hout b' (List.mem_cons_of_mem _ hb')
      refine hsame.trans ?_
      rw [generation, PathText.find_set_of_ne (Ne.symm (hout b List.mem_cons_self))]
      rfl

/-! ### What a call leaves alone -/

/-- Wherever the directory `d` is afterwards, except at the paths of `L`, it was before, with
the same entries. -/
def Untouched (L : List Path) (d : ℕ) (t u : Tree) : Prop :=
  ∀ P, node u P = some ⟨d, .directory⟩ → P ∉ L →
    node t P = some ⟨d, .directory⟩ ∧ ∀ n, node u (P ++ [n]) = node t (P ++ [n])

/-- Where the directory is now, it is not strictly below `p`. -/
def NotBelow (t : Tree) (d : ℕ) (p : Path) : Prop :=
  ∀ P, node t P = some ⟨d, .directory⟩ → ¬ (p <+: P ∧ p ≠ P)

theorem untouched_same {L : List Path} (h : ∀ p, node u p = node t p) : Untouched L d t u :=
  fun P hP _ => ⟨h P ▸ hP, fun n => h (P ++ [n])⟩

theorem Untouched.trans {L M : List Path} (h : Untouched L d t u) (h' : Untouched M d u w) :
    Untouched (L ++ M) d t w := by
  intro P hP hL
  rw [List.mem_append, not_or] at hL
  obtain ⟨hu, hnew⟩ := h' P hP hL.2
  obtain ⟨ht, hold⟩ := h P hu hL.1
  exact ⟨ht, fun n => (hnew n).trans (hold n)⟩

theorem untouched_cons (dir : Path) (name : Name) (i : Inode) :
    Untouched [dir, dir ++ [name]] d t ((dir ++ [name], i) :: t) := by
  intro P hP hL
  rw [List.mem_cons, List.mem_singleton, not_or] at hL
  rw [node_cons, if_neg (Ne.symm hL.2)] at hP
  refine ⟨hP, fun n => ?_⟩
  rw [node_cons, if_neg]
  intro heq
  exact hL.1 (List.append_inj' heq rfl).1.symm

theorem untouched_unlink (path : Path) :
    Untouched [path.dropLast, path] d t (unlink path t) := by
  intro P hP hL
  rw [List.mem_cons, List.mem_singleton, not_or] at hL
  rw [node_unlink] at hP
  split_ifs at hP with hpre
  refine ⟨hP, fun n => ?_⟩
  rw [node_unlink, if_neg]
  intro hn
  rcases prefix_concat hn with heq | hp
  · exact hL.1 (by rw [heq, List.dropLast_concat])
  · exact hpre hp

theorem untouched_move (hc : t.Closed) {old new : Path} (hfree : node t new = none)
    (hbelow : NotBelow t d old) :
    Untouched [old.dropLast, new.dropLast, old, new] d t (move old new t) := by
  intro P hP hL
  simp only [List.mem_cons, List.not_mem_nil, or_false, not_or] at hL
  obtain ⟨h1, h2, -, h4⟩ := hL
  have hout : ¬ old <+: P := by
    intro hp
    rw [node_move_old hp] at hP
    cases hP
  have hnot : ¬ new <+: P := by
    rintro ⟨rest, rfl⟩
    rw [node_move_new hout (hc.none_below hfree rest)] at hP
    have hrest : rest ≠ [] := by
      rintro rfl
      exact h4 (List.append_nil new)
    exact hbelow _ hP ⟨List.prefix_append _ _, by simpa using hrest⟩
  rw [node_move_of_not hout hnot] at hP
  refine ⟨hP, fun n => node_move_of_not ?_ ?_⟩
  · intro hn
    rcases prefix_concat hn with heq | hp
    · exact h1 (by rw [heq, List.dropLast_concat])
    · exact hout hp
  · intro hn
    rcases prefix_concat hn with heq | hp
    · exact h2 (by rw [heq, List.dropLast_concat])
    · exact hnot hp

/-- A rename to `dir ++ [name]` that succeeded. -/
theorem untouched_nkRename (hc : t.Closed) {ok : RenameSteps} {old dir : Path} {name : Name}
    (hok : (nkRename ok old dir name t).1 = true) (hbelow : NotBelow t d old) :
    Untouched [old.dropLast, dir, old, dir ++ [name]] d t (nkRename ok old dir name t).2 := by
  obtain ⟨x, e, -, -, -, ⟨-, hsame⟩ | ⟨hfree, hmove⟩⟩ := nkRename_ok hok
  · rw [hsame]
    exact untouched_same fun p => rfl
  · rw [hmove]
    have h := untouched_move hc hfree hbelow
    rwa [List.dropLast_concat] at h

/-! ### The rule -/

/-- The kernel renames anything but the root and passes the item under the destination's name
as `overItem`; a UUID is drawn once. -/
def Namespace.Offered (s : Namespace) : NameCall → Prop
  | .renameItem a => (a.rename s).oldPath ≠ [] ∧ s.Unused a.uuid ∧
      ∀ o ∈ (a.rename s).overItem, o.path = (a.rename s).newPath
  | _ => True

/-- A call that fails leaves the names as they were: a node that could not be flushed is not
there, and a failed rename is rolled back. -/
def NameCall.Clean : NameCall → Prop
  | .createItem _ _ _ made closed => made = true → closed = true
  | .renameItem a => ∀ p : Phase, p.rollsBack (a.steps p) = true
  | _ => True

/-- No directory above `d` is renamed, and neither `d` nor one above it is replaced. -/
def Namespace.Still (s : Namespace) (d : ℕ) : NameCall → Prop
  | .renameItem a => NotBelow s.tree d (a.rename s).oldPath ∧
      ∀ o ∈ (a.rename s).overItem, ∀ P, node s.tree P = some ⟨d, .directory⟩ → ¬ o.path <+: P
  | _ => True

instance : Fintype Phase where
  elems := {.park, .move, .rollback, .point, .drop, .rekey}
  complete p := by cases p <;> decide

/-- The paths of a node are among those of the tree. -/
def decidableNodes (t : Tree) (i : Inode) (Q : Path → Prop) [DecidablePred Q] :
    Decidable (∀ P, node t P = some i → Q P) :=
  decidable_of_iff (∀ e ∈ t, node t e.1 = some i → Q e.1) ⟨fun h P hP => by
    obtain ⟨e, he, rfl⟩ := node_isSome.mp (Option.isSome_iff_exists.mpr ⟨i, hP⟩)
    exact h e he hP, fun h e _ => h e.1⟩

instance (s : Namespace) : ∀ e : NameCall, Decidable (s.Offered e)
  | .renameItem a => inferInstanceAs (Decidable ((a.rename s).oldPath ≠ [] ∧ s.Unused a.uuid ∧
      ∀ o ∈ (a.rename s).overItem, o.path = (a.rename s).newPath))
  | .lookupItem _ _ | .createItem _ _ _ _ _ | .createSymbolicLink _ _ _ | .removeItem _ _
  | .reclaimItem _ | .seed _ => inferInstanceAs (Decidable True)

instance : ∀ e : NameCall, Decidable e.Clean
  | .createItem _ _ _ made closed => inferInstanceAs (Decidable (made = true → closed = true))
  | .renameItem a => inferInstanceAs (Decidable (∀ p : Phase, p.rollsBack (a.steps p) = true))
  | .lookupItem _ _ | .createSymbolicLink _ _ _ | .removeItem _ _ | .reclaimItem _ | .seed _ =>
    inferInstanceAs (Decidable True)

instance (s : Namespace) : ∀ e : NameCall, Decidable (s.Still d e)
  | .renameItem a =>
    have : Decidable (NotBelow s.tree d (a.rename s).oldPath) := decidableNodes _ _ _
    have : ∀ o : Victim, Decidable (∀ P, node s.tree P = some ⟨d, .directory⟩ → ¬ o.path <+: P) :=
      fun _ => decidableNodes _ _ _
    inferInstanceAs (Decidable (NotBelow s.tree d (a.rename s).oldPath ∧
      ∀ o ∈ (a.rename s).overItem, ∀ P, node s.tree P = some ⟨d, .directory⟩ → ¬ o.path <+: P))
  | .lookupItem _ _ | .createItem _ _ _ _ _ | .createSymbolicLink _ _ _ | .removeItem _ _
  | .reclaimItem _ | .seed _ => inferInstanceAs (Decidable True)

/-! ### One call -/

/-- Wherever `d` is after the call, if its path has a generation from before, it was there
before the call, with the same generation and entries. -/
structure Stays (T : PathText) (d : ℕ) (s s' : Namespace) : Prop where
  counted : Counted s'
  grows : s.genCounter ≤ s'.genCounter
  same : ∀ P, node s'.tree P = some ⟨d, .directory⟩ → generation T s' P ≤ s.genCounter →
    node s.tree P = some ⟨d, .directory⟩ ∧ generation T s P = generation T s' P ∧
      ∀ n, node s'.tree (P ++ [n]) = node s.tree (P ++ [n])

theorem stays_quiet {s' : Namespace} (h : Counted s) (hd : s'.dirGen = s.dirGen)
    (hg : s'.genCounter = s.genCounter) (ht : ∀ p, node s'.tree p = node s.tree p) :
    Stays T d s s' := by
  have hgen : ∀ P, generation T s' P = generation T s P := by
    intro P
    rw [generation, generation, hd]
  refine ⟨⟨hg ▸ h.pos, fun e he => hg ▸ h.bound e (hd ▸ he)⟩, hg.ge, fun P hP _ => ?_⟩
  exact ⟨ht P ▸ hP, (hgen P).symm, fun n => ht _⟩

theorem stays_booked {s' b : Namespace} {L : List Path} (h : Counted s) (hd : b.dirGen = s.dirGen)
    (hg : b.genCounter = s.genCounter) (ht : Untouched L d s.tree s'.tree)
    (hd' : s'.dirGen = (b.mutateNamespace T L).dirGen)
    (hg' : s'.genCounter = (b.mutateNamespace T L).genCounter) :
    Stays T d s s' := by
  have hb : Counted b := ⟨hg ▸ h.pos, fun e he => hg ▸ h.bound e (hd ▸ he)⟩
  obtain ⟨hcount, hle, hgen⟩ := mutateNamespace_counts T L hb
  have heq : ∀ P, generation T s' P =
      generation T (b.mutateNamespace T L) P := by
    intro P
    rw [generation, generation, hd']
  refine ⟨⟨hg' ▸ hcount.pos, fun e he => hg' ▸ hcount.bound e (hd' ▸ he)⟩, ?_, fun P hP hold => ?_⟩
  · rw [hg', ← hg]
    exact hle
  · rw [heq, ← hg] at hold
    have hout : ∀ c ∈ L, T.form c ≠ T.form P := fun c hc hform =>
      absurd ((hgen P).1 ⟨c, hc, hform⟩) (Nat.not_lt.mpr hold)
    obtain ⟨hnode, hentries⟩ := ht P hP fun hL => hout P hL rfl
    refine ⟨hnode, ?_, hentries⟩
    rw [heq, (hgen P).2 hout, generation, generation, hd]

/-- A rename of the engine that fails and is rolled back changes nothing. -/
theorem nkRename_clean {ok : RenameSteps} (hok : (ok.delete || ok.undo) = true) {old dir : Path}
    {name : Name} (hne : old ≠ []) (hfail : (nkRename ok old dir name t).1 = false) :
    (nkRename ok old dir name t).2 = t :=
  nkRename_failed hfail hne (by simpa using hok)

/-- The tree once the victim is under its unused hidden name. -/
theorem parked_tree {o : Victim} {ok : RenameSteps} (hfree : node t o.parked = none)
    (hok : (nkRename ok o.path o.dir o.tmpName t).1 = true) :
    (nkRename ok o.path o.dir o.tmpName t).2 = move o.path o.parked t ∧
      ∃ x e, node t o.path = some x ∧ node t o.dir = some e ∧ e.kind = .directory := by
  obtain ⟨x, e, hx, he, hk, ⟨hsame, -⟩ | ⟨-, hmove⟩⟩ := nkRename_ok hok
  · rw [← Victim.parked, Tree.inodeAt_eq_none.mpr hfree] at hsame
    cases hsame
  · exact ⟨hmove, x, e, hx, he, hk⟩

section

variable {r : Rename} {o : Victim} (hc : t.Closed) (hpath : o.path = r.newPath)
  (hfree : node t o.parked = none)
  (hvictim : ∀ P, node t P = some ⟨d, .directory⟩ → ¬ o.path <+: P)
include hc hfree hvictim

/-- A directory that is not replaced is where it was, not under the hidden name. -/
theorem parked_origin (hP : node (move o.path o.parked t) P = some ⟨d, .directory⟩) :
    node t P = some ⟨d, .directory⟩ ∧ ¬ o.parked <+: P := by
  have hout : ¬ o.path <+: P := by
    intro hp
    rw [node_move_old hp] at hP
    cases hP
  have hnot : ¬ o.parked <+: P := by
    rintro ⟨rest, rfl⟩
    rw [node_move_new hout (hc.none_below hfree rest)] at hP
    exact hvictim _ hP (List.prefix_append _ _)
  rw [node_move_of_not hout hnot] at hP
  exact ⟨hP, hnot⟩

include hpath

/-- The directories after a rename that replaced another file: the hidden name is gone or is
not `d`'s. -/
theorem untouched_replace {ok : RenameSteps} {drop : Bool} (hname : o.tmpName ≠ r.newName)
    (hbelow : NotBelow t d r.oldPath)
    (hok : (nkRename ok r.oldPath r.destPath r.newName (move o.path o.parked t)).1 = true)
    (hu : Tree.Closed (move o.path o.parked t)) :
    Untouched [r.oldPath.dropLast, r.destPath, r.oldPath, r.newPath] d t
      (nkDelete drop o.parked
        (nkRename ok r.oldPath r.destPath r.newName (move o.path o.parked t)).2).2 := by
  have hdir : o.path.dropLast = r.destPath := by
    rw [hpath, Rename.newPath, List.dropLast_concat]
  have hparked : o.parked = r.destPath ++ [o.tmpName] := by
    rw [Victim.parked, Victim.dir, hdir]
  have hpark : Untouched [o.path.dropLast, o.parked.dropLast, o.path, o.parked] d t
      (move o.path o.parked t) :=
    untouched_move hc hfree fun P hP hp => hvictim P hP hp.1
  have hbelow' : NotBelow (move o.path o.parked t) d r.oldPath :=
    fun P hP => hbelow P (parked_origin hc hfree hvictim hP).1
  have hmain := untouched_nkRename hu hok hbelow'
  set v := (nkRename ok r.oldPath r.destPath r.newName (move o.path o.parked t)).2 with hv
  have hdrop : Untouched [o.parked.dropLast, o.parked] d v (nkDelete drop o.parked v).2 := by
    rcases nkDelete_cases drop o.parked v with hd | ⟨hd, -⟩
    · rw [hd]
      exact untouched_same fun p => rfl
    · rw [hd]
      exact untouched_unlink o.parked
  intro P hP hL
  -- the hidden name is not the directory's, so only the other paths matter
  have hne : P ≠ o.parked := by
    rintro rfl
    have hvnode : node v o.parked = some ⟨d, .directory⟩ := by
      rcases nkDelete_cases drop o.parked v with hd | ⟨hd, -⟩
      · rwa [hd] at hP
      · rw [hd, node_unlink, if_pos List.prefix_rfl] at hP
        cases hP
    have hunode : node (move o.path o.parked t) o.parked = some ⟨d, .directory⟩ := by
      obtain ⟨x, e, -, -, -, ⟨-, hsame⟩ | ⟨-, hmove⟩⟩ := nkRename_ok hok
      · rwa [hv, hsame] at hvnode
      · rw [hv, hmove] at hvnode
        by_cases hp : r.oldPath <+: o.parked
        · rw [node_move_old hp] at hvnode
          cases hvnode
        · rwa [node_move_of_not hp] at hvnode
          intro hn
          have heq := hn.eq_of_length (by simp [hparked])
          rw [hparked] at heq
          exact hname (by simpa using (List.append_cancel_left heq).symm)
    exact (parked_origin hc hfree hvictim hunode).2 List.prefix_rfl
  have hall := (hpark.trans hmain).trans hdrop
  refine hall P hP ?_
  have hlast : o.parked.dropLast = r.destPath := by rw [hparked, List.dropLast_concat]
  rw [hdir, hlast, hpath]
  intro hmem
  simp only [List.mem_append, List.mem_cons, List.not_mem_nil, or_false] at hmem hL
  rw [← Rename.newPath] at hmem
  tauto

end

namespace Canonical

theorem rekey_stays {r : Rename} {b : Namespace} (h : Counted s) (hd : b.dirGen = s.dirGen)
    (hg : b.genCounter = s.genCounter)
    (ht : Untouched [r.oldPath.dropLast, r.destPath, r.oldPath, r.newPath] d s.tree b.tree) :
    Stays T d s (b.rekey T r) := by
  refine stays_booked (b := b) h hd hg ?_ rfl rfl
  rw [rekey_tree]
  exact ht

/-- The rollback of a failed replacement puts every name back. -/
theorem rollback_restores {o : Victim} {ok ok' : RenameSteps} (hc : t.Closed) (hroot : o.path ≠ [])
    (hfree : node t o.parked = none) (hok : (nkRename ok o.path o.dir o.tmpName t).1 = true)
    (hroll : Phase.rollsBack ok' .rollback = true) (p : Path) :
    node (nkRename ok' o.parked o.dir o.overName (nkRename ok o.path o.dir o.tmpName t).2).2 p =
      node t p := by
  obtain ⟨hlink, hdel⟩ : ok'.link = true ∧ ok'.delete = true := by
    simpa [Phase.rollsBack] using hroll
  obtain ⟨htree, x, e, hx, he, hk⟩ := parked_tree hfree hok
  have hlen : o.path.length = o.dir.length + 1 := by
    have := List.length_pos_iff.mpr hroot
    rw [Victim.dir, List.length_dropLast]
    omega
  have hout : ∀ {q rest : Path}, q.length = o.dir.length + 1 → q ++ rest = o.dir → False := by
    intro q rest hq heq
    have := congrArg List.length heq
    rw [List.length_append] at this
    omega
  have hparkedLen : o.parked.length = o.dir.length + 1 := by simp [Victim.parked]
  have hne : ¬ o.path <+: o.parked := by
    intro hp
    rw [hp.eq_of_length (hlen.trans hparkedLen.symm), hfree] at hx
    cases hx
  have hx' : node (move o.path o.parked t) o.parked = some x := by
    have hmove : node (move o.path o.parked t) (o.parked ++ []) = node t (o.path ++ []) :=
      node_move_new (by rwa [List.append_nil]) (by rwa [List.append_nil])
    rw [List.append_nil, List.append_nil] at hmove
    exact hmove.trans hx
  have he' : node (move o.path o.parked t) o.dir = some e := by
    rw [node_move_of_not, he]
    · rintro ⟨rest, hr⟩
      exact hout hlen hr
    · rintro ⟨rest, hr⟩
      exact hout hparkedLen hr
  have hnone : node (move o.path o.parked t) (o.dir ++ [o.overName]) = none := by
    rw [o.back_path hroot]
    exact node_move_old List.prefix_rfl
  have hback := nkRename_succeeds hx' he' hk hnone (by simp [Victim.parked]) hlink hdel
  have hparked : nkRename ok o.path o.dir o.tmpName t = (true, move o.path o.parked t) :=
    Prod.ext hok htree
  rw [htree, hback]
  exact Victim.given_back hc hroot hparked hback p

/-- The tree after a rename that succeeded, without a victim or with one that was parked under
an unused name and deleted as far as that worked. -/
inductive Relocated (r : Rename) (t : Tree) : Tree → Prop
  | plain {ok : RenameSteps} (item : r.overItem = none)
      (done : (nkRename ok r.oldPath r.destPath r.newName t).1 = true) :
      Relocated r t (nkRename ok r.oldPath r.destPath r.newName t).2
  | replace {o : Victim} {ok : RenameSteps} {drop : Bool} (item : r.overItem = some o)
      (path : o.path = r.newPath) (free : node t o.parked = none) (name : o.tmpName ≠ r.newName)
      (closed : Tree.Closed (move o.path o.parked t))
      (done : (nkRename ok r.oldPath r.destPath r.newName (move o.path o.parked t)).1 = true) :
      Relocated r t (nkDelete drop o.parked
        (nkRename ok r.oldPath r.destPath r.newName (move o.path o.parked t)).2).2

variable (T) in
/-- What a rename under the rule can do: nothing to the names, or move them and do the
bookkeeping. -/
theorem renameCall_cases {a : RenameCall} (hidle : s.pending = none) (hc : s.tree.Closed)
    (hoffer : s.Offered (.renameItem a)) (hclean : NameCall.Clean (.renameItem a)) :
    (∃ u, (∀ p, node u p = node s.tree p) ∧
      (s.renameCall T treeEngine a).final = { s with tree := u }) ∨
    ∃ u, Relocated (a.rename s) s.tree u ∧ a.Accepted T treeEngine s ∧
      (s.renameCall T treeEngine a).final =
        { s with tree := u, items := (a.rename s).repointed s.items }.rekey T (a.rename s) := by
  obtain ⟨hold, hunused, hover⟩ := hoffer
  have hmove := hclean .move
  have hpark := hclean .park
  have hroll := hclean .rollback
  have hroot : ∀ {o}, (a.rename s).overItem = some o → o.path ≠ [] :=
    fun ho => hover _ ho ▸ Rename.newPath_ne _
  have hend := renameCall_ending T treeEngine a hidle
  generalize (s.renameCall T treeEngine a).result = res at hend
  generalize (s.renameCall T treeEngine a).final = t at hend ⊢
  cases hend with
  | refused => exact .inl ⟨s.tree, fun p => rfl, rfl⟩
  | @unparked o u _ ho hp =>
    obtain rfl : _ = u := congrArg Prod.snd hp
    refine .inl ⟨_, fun p => congrArg (fun u => node u p) ?_, rfl⟩
    exact nkRename_clean hpark (hroot ho) (congrArg Prod.fst hp)
  | @kept u _ ho hm =>
    obtain rfl : _ = u := congrArg Prod.snd hm
    refine .inl ⟨_, fun p => congrArg (fun u => node u p) ?_, rfl⟩
    exact nkRename_clean hmove hold (congrArg Prod.fst hm)
  | @givenBack o u v _ ho hp hm =>
    obtain rfl : _ = u := congrArg Prod.snd hp
    obtain rfl : _ = v := congrArg Prod.snd hm
    refine .inl ⟨_, fun p => ?_, rfl⟩
    rw [show (treeEngine.rename (a.steps .move) _ _ _ _).2 = _ from
      nkRename_clean hmove hold (congrArg Prod.fst hm)]
    exact rollback_restores hc (hroot ho) (hunused.victim ho) (congrArg Prod.fst hp) hroll p
  | @moved u hacc ho hm =>
    obtain rfl : _ = u := congrArg Prod.snd hm
    refine .inr ⟨_, .plain ho (congrArg Prod.fst hm), hacc, ?_⟩
    rw [Rename.repointed, ho]
    rfl
  | @replaced o u v hacc ho hp hm =>
    have hpath : o.path = (a.rename s).newPath := hover o ho
    have hfree := hunused.victim ho
    obtain ⟨htree, x, e, -, he, hk⟩ := parked_tree hfree (congrArg Prod.fst hp)
    obtain rfl : u = _ := (congrArg Prod.snd hp).symm.trans htree
    obtain rfl : _ = v := congrArg Prod.snd hm
    -- the victim's own name was there before the UUID was drawn
    have hname : o.tmpName ≠ (a.rename s).newName := by
      intro heq
      obtain ⟨c, -, rfl⟩ := Option.map_eq_some_iff.mp ho
      rw [Rename.newPath, ← heq] at hpath
      change s.pathOf c = _ at hpath
      cases hi : s.items[c]? with
      | none => simp [Namespace.pathOf, hi] at hpath
      | some it =>
        rw [pathOf_eq hi] at hpath
        exact (hunused.parked _ _).2 it (List.mem_of_getElem? hi) hpath
    exact .inr ⟨_, .replace ho hpath hfree hname (hc.move he hk hfree) (congrArg Prod.fst hm), hacc,
      rfl⟩

/-- A rename under the rule. -/
theorem renameCall_stays {a : RenameCall} (h : Counted s) (hidle : s.pending = none)
    (hc : s.tree.Closed) (hoffer : s.Offered (.renameItem a)) (hclean : NameCall.Clean (.renameItem a))
    (hstill : s.Still d (.renameItem a)) : Stays T d s (s.renameCall T treeEngine a).final := by
  obtain ⟨hbelow, hvictim⟩ := hstill
  rcases renameCall_cases T hidle hc hoffer hclean with ⟨u, hu, heq⟩ | ⟨u, hrel, -, heq⟩
  · rw [heq]
    exact stays_quiet h rfl rfl hu
  · rw [heq]
    refine rekey_stays h rfl rfl ?_
    cases hrel with
    | plain _ hok => exact untouched_nkRename hc hok hbelow
    | replace ho hpath hfree hname hclosed hok =>
      exact untouched_replace hc hpath hfree (hvictim _ ho) hname hbelow hok hclosed

theorem createNode_unmade (closed : Bool) (dir : Path) (name : Name) (i : Inode) (t : Tree) :
    createNode false closed dir name i t = (false, t) := by
  unfold createNode
  cases node t dir <;> simp

theorem create_stays (h : Counted s) (dir : ℕ) (name : Name) (kind : Kind) {made closed : Bool}
    (hclean : made = true → closed = true) :
    Stays T d s (s.create T dir name kind made closed).2 := by
  unfold Namespace.create
  split_ifs with hro
  · exact stays_quiet h rfl rfl fun p => rfl
  extract_lets dirPath calls c t childPath r
  have hfailed : c = (false, s.tree) → Stays T d s t := by
    intro hcase
    refine stays_quiet h rfl rfl fun p => ?_
    rw [show t.tree = s.tree from congrArg Prod.snd hcase]
  cases made with
  | false =>
    have hcase : c = (false, s.tree) := createNode_unmade closed dirPath name _ s.tree
    rw [if_pos (congrArg Prod.fst hcase)]
    exact hfailed hcase
  | true =>
    rcases createNode_cases true closed dirPath name ⟨s.nextInode, kind⟩ s.tree
      with hcase | ⟨hcase, -⟩
    · rw [if_pos (congrArg Prod.fst hcase)]
      exact hfailed hcase
    · have hdone : c.1 = true := (congrArg Prod.fst hcase).trans (hclean rfl)
      rw [if_neg (by rw [hdone]; simp)]
      refine stays_booked (b := t) (L := [dirPath, childPath]) h rfl rfl ?_
        (Namespace.itemFor_dirGen T _ _ _ _) (Namespace.itemFor_genCounter T _ _ _ _)
      rw [Namespace.itemFor_tree, Namespace.mutateNamespace_tree,
        show t.tree = _ from congrArg Prod.snd hcase]
      exact untouched_cons dirPath name _

theorem removeItem_stays (h : Counted s) (x : ℕ) (ok : Bool) :
    Stays T d s (s.removeItem T x ok).2 := by
  unfold Namespace.removeItem
  split_ifs with hro
  · exact stays_quiet h rfl rfl fun p => rfl
  extract_lets path calls r t
  rcases nkDelete_cases ok path s.tree with hcase | ⟨hcase, -⟩
  · have hfail : r.1 = false := congrArg Prod.fst hcase
    rw [if_pos hfail]
    refine stays_quiet h rfl rfl fun p => ?_
    rw [show r.2 = s.tree from congrArg Prod.snd hcase]
  · have hdone : ¬ r.1 = false := by
      rw [show r.1 = true from congrArg Prod.fst hcase]
      simp
    rw [if_neg hdone]
    refine stays_booked (b := { s with tree := r.2 }) (L := [path.dropLast, path]) h rfl rfl ?_ rfl rfl
    have htree : t.tree = unlink path s.tree :=
      (Namespace.mutateNamespace_tree T _ _).trans (congrArg Prod.snd hcase)
    change Untouched _ d s.tree t.tree
    rw [htree]
    exact untouched_unlink path

/-- One call under the rule. -/
theorem nameStep_stays {e : NameCall} (h : Counted s) (hidle : s.pending = none)
    (hc : s.tree.Closed) (hoffer : s.Offered e) (hclean : e.Clean) (hstill : s.Still d e) :
    Stays T d s (s.nameStep T e).2 := by
  cases e with
  | lookupItem dir name =>
    simp only [Namespace.nameStep, Namespace.lookupItem, Prod.map_snd, id_eq]
    cases treeEngine.stat s.tree (s.pathOf dir ++ [name]) with
    | none => exact stays_quiet h rfl rfl fun p => rfl
    | some i =>
      exact stays_quiet h (Namespace.itemFor_dirGen T _ _ _ s) (Namespace.itemFor_genCounter T _ _ _ s)
        fun p => by rw [Namespace.itemFor_tree]
  | createItem dir name kind made closed =>
    simp only [Namespace.nameStep, Namespace.createItem, Prod.map_snd, id_eq]
    split_ifs
    · exact stays_quiet h rfl rfl fun p => rfl
    · exact create_stays h dir name kind hclean
  | createSymbolicLink dir name made => exact create_stays h dir name .symlink fun _ => rfl
  | removeItem x ok => exact removeItem_stays h x ok
  | reclaimItem x =>
    simp only [Namespace.nameStep, Namespace.reclaimItem, Prod.map_snd, id_eq]
    split_ifs <;> exact stays_quiet h rfl rfl fun p => rfl
  | renameItem a => exact renameCall_stays h hidle hc hoffer hclean hstill
  | seed path =>
    exact stays_quiet h (Namespace.idFor_dirGen T path s) (Namespace.idFor_genCounter T path s)
      fun p => congrArg (fun u => node u p) (Namespace.idFor_tree T path s)

/-! ### Runs -/

/-- What every call keeps: a tree whose entries lie in directories, the counter, and that no
rename is under way. -/
structure Kempt (s : Namespace) : Prop where
  closed : s.tree.Closed
  counted : Counted s
  idle : s.pending = none

theorem Kempt.congr {s' : Namespace} (h : Kempt s) (hc : s'.tree.Closed) (hd : s'.dirGen = s.dirGen)
    (hg : s'.genCounter = s.genCounter) (hp : s'.pending = s.pending) : Kempt s' :=
  ⟨hc, ⟨hg ▸ h.counted.pos, fun e he => hg ▸ h.counted.bound e (hd ▸ he)⟩, hp.trans h.idle⟩

theorem Kempt.withTree (h : Kempt s) (hc : t.Closed) (items : List Item) :
    Kempt { s with tree := t, items := items } :=
  h.congr hc rfl rfl rfl

theorem Kempt.mutated (h : Kempt s) (dirs : List Path) : Kempt (s.mutateNamespace T dirs) where
  closed := (Namespace.mutateNamespace_tree T dirs s).symm ▸ h.closed
  counted := (mutateNamespace_counts T dirs h.counted).1
  idle := (Namespace.mutateNamespace_pending T dirs s).trans h.idle

theorem Kempt.rekey (h : Kempt s) (r : Rename) : Kempt (s.rekey T r) :=
  have hm : Kempt (s.mutateNamespace T [r.oldPath.dropLast, r.destPath, r.oldPath, r.newPath]) :=
    h.mutated _
  hm.congr (by rw [rekey_tree]; exact h.closed) rfl rfl hm.idle.symm

theorem Kempt.renameCall (h : Kempt s) (a : RenameCall) :
    Kempt (s.renameCall T treeEngine a).final := by
  have hend := renameCall_ending T treeEngine a h.idle
  generalize (s.renameCall T treeEngine a).result = res at hend
  generalize (s.renameCall T treeEngine a).final = t at hend ⊢
  cases hend with
  | refused => exact h
  | unparked _ _ hp => exact h.withTree (nkRename_closed h.closed hp) s.items
  | kept _ _ hm => exact h.withTree (nkRename_closed h.closed hm) s.items
  | givenBack _ _ hp hm =>
    have hclosed := nkRename_closed (nkRename_closed h.closed hp) hm
    exact h.withTree (nkRename_closed hclosed rfl) s.items
  | moved _ _ hm => exact (h.withTree (nkRename_closed h.closed hm) s.items).rekey _
  | replaced _ _ hp hm =>
    have hclosed := nkRename_closed (nkRename_closed h.closed hp) hm
    exact (h.withTree (nkDelete_closed hclosed _ _) _).rekey _

theorem Kempt.itemFor (h : Kempt s) (path : Path) (kind : Kind) (i : ℕ) :
    Kempt (s.itemFor T path kind i).2 := by
  refine h.congr ?_ ?_ ?_ ?_ <;> simp [h.closed]

theorem Kempt.create (h : Kempt s) (dir : ℕ) (name : Name) (kind : Kind) (made closed : Bool) :
    Kempt (s.create T dir name kind made closed).2 := by
  unfold Namespace.create
  split_ifs
  · exact h
  extract_lets dirPath calls c t childPath r
  have ht : Kempt t := by
    refine h.congr ?_ rfl rfl rfl
    rcases createNode_cases made closed dirPath name ⟨s.nextInode, kind⟩ s.tree
      with hcase | ⟨hcase, hnew, d, hd, hk⟩
    · rw [show t.tree = s.tree from congrArg Prod.snd hcase]
      exact h.closed
    · rw [show t.tree = _ from congrArg Prod.snd hcase]
      exact h.closed.cons hd hk hnew
  split_ifs
  · exact ht
  · exact (ht.mutated [dirPath, childPath]).itemFor childPath kind s.nextInode

theorem Kempt.removeItem (h : Kempt s) (x : ℕ) (ok : Bool) : Kempt (s.removeItem T x ok).2 := by
  unfold Namespace.removeItem
  split_ifs
  · exact h
  extract_lets path calls r t
  have hb : Kempt { s with tree := r.2 } := h.withTree (nkDelete_closed h.closed ok path) s.items
  split_ifs
  · exact hb
  · have ht : Kempt t := hb.mutated [path.dropLast, path]
    exact ht.congr ht.closed rfl rfl rfl

theorem Kempt.step (h : Kempt s) (e : NameCall) : Kempt (s.nameStep T e).2 := by
  cases e with
  | lookupItem dir name =>
    simp only [Namespace.nameStep, Namespace.lookupItem, Prod.map_snd, id_eq]
    cases treeEngine.stat s.tree (s.pathOf dir ++ [name]) with
    | none => exact h
    | some i => exact h.itemFor _ i.kind i.number
  | createItem dir name kind made closed =>
    simp only [Namespace.nameStep, Namespace.createItem, Prod.map_snd, id_eq]
    split_ifs
    · exact h
    · exact h.create dir name kind made closed
  | createSymbolicLink dir name made => exact h.create dir name .symlink made true
  | removeItem x ok => exact h.removeItem x ok
  | reclaimItem x =>
    simp only [Namespace.nameStep, Namespace.reclaimItem, Prod.map_snd, id_eq]
    split_ifs <;> exact h.congr h.closed rfl rfl rfl
  | renameItem a => exact h.renameCall a
  | seed path => refine h.congr ?_ ?_ ?_ ?_ <;> simp [Namespace.nameStep, h.closed]

theorem mounted_kempt (readOnly : Bool) (ht : t.Closed) (b root : ℕ) :
    Kempt (.mounted readOnly t b root) :=
  ⟨ht, ⟨le_rfl, fun _ he => absurd he List.not_mem_nil⟩, rfl⟩

end Canonical

end NtfsKit
