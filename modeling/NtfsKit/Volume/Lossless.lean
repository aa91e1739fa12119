import NtfsKit.Volume.RenameCall
import NtfsKit.Volume.Aliasing

/-! When a rename loses a file. Whichever engine steps of a `renameItem` fail, no file it touches
is without a name on the way, and a call that throws has put everything back, unless a directory
is moved below itself. The check against that compares characters of path strings, and a name
that begins with a combining mark takes the slash in front of it into its first one. -/

namespace NtfsKit

open PathTree

variable {t u : Tree} {ok : RenameSteps} {old dir : Path} {name : Name}

/-! ### Putting everything back -/

/-- A rename that fails and takes its link back changes nothing. -/
theorem nkRename_undone (h : t.Closed) (hr : nkRename ok old dir name t = (false, u))
    (hundo : ok.undo = true ∨ (ok.delete = true ∧ old ≠ [])) : u = t := by
  rcases nkRenameTrees_cases h ok old dir name with ⟨-, hlast⟩ |
    ⟨-, -, -, -, -, -, ⟨-, hmove, -⟩ | ⟨hback, -⟩ | ⟨hdel, hno, -, -⟩⟩
  · rw [hr] at hlast
    exact hlast
  · rw [hr] at hmove
    cases hmove
  · rw [hr] at hback
    exact congrArg Prod.snd hback
  · rcases hundo with hundo | ⟨hd, hne⟩
    · rw [hno] at hundo
      cases hundo
    · exact absurd (hdel hd) hne

/-- The victim parked and given its name back. -/
theorem Victim.given_back {o : Victim} {ok' : RenameSteps} {w : Tree} (h : t.Closed)
    (hroot : o.path ≠ []) (hok : nkRename ok' o.path o.dir o.tmpName t = (true, u))
    (hr : nkRename ok o.parked o.dir o.overName u = (true, w)) (p : Path) :
    node w p = node t p := by
  obtain ⟨x, d, hx, -, -, hparked⟩ := nkRename_ok (congrArg Prod.fst hok)
  obtain ⟨y, d', -, -, -, hback⟩ := nkRename_ok (congrArg Prod.fst hr)
  rw [hok] at hparked
  rw [hr, o.back_path hroot] at hback
  change (_ ∧ u = t) ∨ (node t o.parked = none ∧ u = move o.path o.parked t) at hparked
  change (_ ∧ w = u) ∨ (node u o.path = none ∧ w = move o.parked o.path u) at hback
  rcases hparked with ⟨-, rfl⟩ | ⟨hfree, rfl⟩
  · rcases hback with ⟨-, rfl⟩ | ⟨hnone, -⟩
    · rfl
    · rw [hx] at hnone
      cases hnone
  · rcases hback with ⟨hsame, -⟩ | ⟨-, rfl⟩
    · rw [Tree.inodeAt_eq_none.mpr (node_move_old (List.prefix_refl _))] at hsame
      cases hsame
    · by_cases h1 : o.parked <+: p
      · obtain ⟨rest, rfl⟩ := h1
        rw [node_move_old (List.prefix_append _ _), h.none_below hfree]
      · by_cases h2 : o.path <+: p
        · obtain ⟨rest, rfl⟩ := h2
          have hout : ¬ o.path <+: o.parked := o.park_out hok
          have haside := aside_free h (by rw [hx]; rfl) hfree hout
          rw [node_move_new h1 (node_move_old (List.prefix_append _ _)),
            node_move_new (haside.not_prefix_append rest) (h.none_below hfree rest)]
        · rw [node_move_of_not h1 h2, node_move_of_not h2 h1]

theorem Rename.ParkedIn.back {r : Rename} {o : Victim} {ok' : RenameSteps} {w : Tree}
    (h : t.Proper) (hp : r.ParkedIn ok t u) (ho : r.overItem = some o)
    (hr : nkRename ok' o.parked o.dir o.overName u = (true, w)) (p : Path) :
    node w p = node t p := by
  exact Victim.given_back h.closed (hp.not_root h ho) (hp.victim ho) hr p

/-- Every rollback the step makes succeeds. -/
def Undoes (steps : Phase → RenameSteps) (s : Namespace) : Prop :=
  ∀ q ∈ s.pending, s.RolledBack (steps q.phase) q

instance (ok : RenameSteps) (r : Rename) (s : Namespace) : Decidable (s.RolledBack ok r) := by
  unfold Namespace.RolledBack
  split <;> infer_instance

instance (steps : Phase → RenameSteps) (s : Namespace) : Decidable (Undoes steps s) :=
  inferInstanceAs (Decidable (∀ q ∈ s.pending, s.RolledBack (steps q.phase) q))

/-- After a step: if it threw the tree is as it was, and if the victim is to be given its name
back nothing else has changed. -/
def Restored (ok : RenameSteps) (r : Rename) (t : Tree) (c : UpcallReply × Namespace) : Prop :=
  (∀ e, c.1.result = some (.error e) → ∀ p, node c.2.tree p = node t p) ∧
    ∀ q, c.2.pending = some q → q.phase = .rollback → r.ParkedIn ok t c.2.tree

/-- A step that neither throws nor has the victim to give back. -/
theorem Restored.of_quiet {r : Rename} {c : UpcallReply × Namespace}
    (h : ∀ e, c.1.result ≠ some (.error e)) (hp : ∀ q ∈ c.2.pending, q.phase ≠ .rollback) :
    Restored ok r t c :=
  ⟨fun e he => absurd he (h e), fun q hq hr => absurd hr (hp q hq)⟩

/-- A step whose rollbacks succeed puts back what it cannot carry through. -/
theorem step_restores {T : PathText} {s₀ s : Namespace} {r q : Rename}
    {steps : Phase → RenameSteps} (h : s₀.tree.Proper) (hs : s.pending = some q)
    (hundo : Undoes steps s) (hu : Underway steps r s₀ q s)
    (hkeep : q.phase = .rollback → r.ParkedIn (steps .park) s₀.tree s.tree) :
    Restored (steps .park) r s₀.tree (s.advance T treeEngine (steps q.phase) q) := by
  have hq := hu.rename
  have hundo := hundo q hs
  have hstage := hu.stage
  cases hp : q.phase with
  | park =>
    rw [hp] at hq hundo hstage
    obtain ⟨htree, hsome⟩ := hstage
    obtain ⟨o, ho⟩ := Option.isSome_iff_exists.mp hsome
    subst hq
    simp only [Namespace.RolledBack, ho] at hundo
    cases hr : nkRename (steps .park) o.path o.dir o.tmpName s.tree with
    | mk b u =>
      rw [advance_park_eq ho hr]
      cases b with
      | true => exact .of_quiet (by simp) (by simp)
      | false =>
        have hsame := nkRename_undone (htree ▸ h.closed) hr hundo
        exact ⟨fun _ _ p => by rw [hsame, htree], fun q' hq' => by cases hq'⟩
  | move =>
    rw [hp] at hq hundo hstage
    subst hq
    simp only [Namespace.RolledBack] at hundo
    cases hr : nkRename (steps .move) r.oldPath r.destPath r.newName s.tree with
    | mk b u =>
      cases b with
      | true =>
        rw [advance_move_eq rfl hr]
        cases r.overItem.isSome <;> exact .of_quiet (by simp) (by simp)
      | false =>
        obtain rfl := nkRename_undone (Rename.ParkedIn.closed h.closed hstage) hr hundo
        cases hover : r.overItem.isSome with
        | true =>
          rw [advance_move_eq hover hr]
          exact ⟨fun e he => absurd he (by simp), fun _ _ _ => hstage⟩
        | false =>
          rw [advance_move_eq hover hr]
          have hnone : r.overItem = none := by simpa using hover
          have htree : s.tree = s₀.tree := by
            simpa only [Rename.At, Rename.ParkedIn, hnone] using hstage
          exact ⟨fun _ _ p => by rw [htree], fun q' hq' => by cases hq'⟩
  | rollback =>
    have hparked := hkeep hp
    rw [hp] at hq hundo hstage
    obtain ⟨hsome, -⟩ := hstage
    obtain ⟨o, ho⟩ := Option.isSome_iff_exists.mp hsome
    subst hq
    simp only [Namespace.RolledBack, ho] at hundo
    cases hr : nkRename (steps .rollback) o.parked o.dir o.overName s.tree with
    | mk b u =>
      rw [hr] at hundo
      rw [advance_rollback_eq ho hr]
      refine ⟨fun _ _ p => ?_, fun q' hq' => by cases hq'⟩
      obtain rfl : b = true := hundo
      exact hparked.back h ho hr p
  | point =>
    rw [hp] at hq hstage
    obtain ⟨o, ho⟩ := Option.isSome_iff_exists.mp hstage.1
    subst hq
    rw [advance_point_eq ho]
    exact .of_quiet (by simp) (by simp)
  | drop =>
    rw [hp] at hq hstage
    obtain ⟨o, ho⟩ := Option.isSome_iff_exists.mp hstage.1
    subst hq
    rw [advance_drop_eq ho]
    exact .of_quiet (by simp) (by simp)
  | rekey =>
    rw [hp] at hq
    subst hq
    rw [advance_rekey_eq]
    exact .of_quiet (by simp) (fun q' hq' => by cases hq')

/-! ### The whole call -/

/-- A call that ends with the checks. -/
theorem ended_at_once (r : Rename) (s : Namespace) (res : Except Errno (Option ℕ)) :
    Ended r s (some res) s :=
  ⟨rfl, .of_keeps (.refl _) fun _ _ _ _ _ hv => .inr (.inl hv), fun _ _ => ⟨.refl _, rfl⟩⟩

/-- A call that has passed the checks. -/
theorem underway_begins {r : Rename} {s : Namespace} {p : Phase} {steps : Phase → RenameSteps}
    (hp : p = .move ∧ r.overItem = none ∨ p = .park ∧ r.overItem.isSome) :
    Underway steps r s { r with phase := p } { s with pending := some { r with phase := p } } := by
  refine ⟨rfl, ?_, fun _ => rfl⟩
  rcases hp with ⟨rfl, hnone⟩ | ⟨rfl, hsome⟩
  · simp only [Rename.At, Rename.ParkedIn, hnone]
  · exact ⟨rfl, hsome⟩

theorem begins_left {r : Rename} {p : Phase}
    (hp : p = .move ∧ r.overItem = none ∨ p = .park ∧ r.overItem.isSome) : p.left ≤ 5 := by
  rcases hp with ⟨rfl, -⟩ | ⟨rfl, -⟩ <;> simp [Phase.left]

/-- The call moves a directory below itself: the code's checks let it through, the victim can be
parked, and the engine finds the destination below the directory and the new name free. -/
structure RenameCall.Swallows (T : PathText) (a : RenameCall) (s : Namespace) : Prop where
  accepted : a.Accepted T treeEngine s
  parks : ∀ o ∈ (a.rename s).overItem, Relocates (a.steps .park) o.path o.dir o.tmpName s.tree
  below : (a.rename s).oldPath <+: (a.rename s).destPath
  moves : Relocates (a.steps .move) (a.rename s).oldPath (a.rename s).destPath a.name
    ((a.rename s).parkedTree s.tree)

/-- No file is lost. `steps` says which library calls succeed, and `r` is the rename that began
in `s`. -/
structure Course.LosesNothing (c : Course) (steps : Phase → RenameSteps) (r : Rename)
    (s : Namespace) : Prop where
  returns : c.result.isSome ∧ c.final.pending = none
  /-- The renamed file has a name in every state of the call and afterwards. -/
  source : ∀ i, s.tree.inodeAt r.oldPath = some i →
    ∀ u ∈ c.points steps ++ [c.final], u.tree.Named i
  /-- So has the victim until the main rename has succeeded, and after a call that throws. -/
  victim : ∀ o, r.overItem = some o → ∀ v, s.tree.inodeAt o.path = some v →
    (∀ u ∈ c.points steps, (∀ q ∈ u.pending, q.phase.unmoved = true) → u.tree.Named v) ∧
      (c.Throws → c.final.tree.Named v)
  /-- A call that throws with its rollbacks successful leaves tree and tables as they were. -/
  undone : c.Throws → (∀ u ∈ c.began, Undoes steps u) →
    (∀ p, node c.final.tree p = node s.tree p) ∧ c.final = { s with tree := c.final.tree }
  /-- The victim stands under its own name or its hidden one until the renamed file stands under
  the new path. -/
  swap : ∀ o, r.overItem = some o → ∀ i v,
    s.tree.inodeAt r.oldPath = some i → s.tree.inodeAt o.path = some v →
    ∀ u ∈ c.points steps ++ [c.final], u.tree.inodeAt r.newPath = some i ∨
      u.tree.inodeAt o.path = some v ∨ u.tree.inodeAt o.parked = some v
  /-- When the victim is deleted, the renamed file stands under the new path. -/
  deletes : ∀ u ∈ c.points steps, (∃ q ∈ u.pending, q.phase = .drop) →
    ∀ i, s.tree.inodeAt r.oldPath = some i → u.tree.inodeAt r.newPath = some i

section

variable {T : PathText} {s : Namespace} {a : RenameCall} {r : Rename}

theorem Namespace.Unused.victim (h : s.Unused a.uuid) {o : Victim}
    (ho : (a.rename s).overItem = some o) : node s.tree o.parked = none := by
  obtain ⟨c, -, rfl⟩ := Option.map_eq_some_iff.mp ho
  exact (h.parked _ _).1

/-- With a hidden name that is free, the victim is parked by moving it. -/
theorem Rename.ParkedIn.moved (hfree : ∀ o ∈ r.overItem, node t o.parked = none)
    (hp : r.ParkedIn ok t u) : u = r.parkedTree t ∧
      ∀ o ∈ r.overItem, Relocates ok o.path o.dir o.tmpName t := by
  cases ho : r.overItem with
  | none =>
    rw [ParkedIn, ho] at hp
    rw [hp, parkedTree, ho]
    exact ⟨rfl, fun o ho => by cases ho⟩
  | some o =>
    have hok := hp.victim ho
    have hnone := hfree o ho
    obtain ⟨x, -, hx, -, -, ⟨hsame, -⟩ | ⟨-, hu⟩⟩ := nkRename_ok (congrArg Prod.fst hok)
    · rw [← Victim.parked, Tree.inodeAt_eq_none.mpr hnone] at hsame
      cases hsame
    · rw [hok] at hu
      obtain rfl : u = _ := hu
      rw [parkedTree, ho]
      refine ⟨rfl, fun o' ho' => ?_⟩
      obtain rfl := Option.some.inj ho'
      exact relocates_iff.mpr hok

/-- A call that moves nothing below itself has what its steps need. -/
theorem RenameCall.Accepted.checked (hunused : s.Unused a.uuid)
    (hacc : a.Accepted T treeEngine s) (hno : ¬ a.Swallows T s) :
    (a.rename s).Checked a.steps s.tree := by
  refine ⟨fun u hp hr hpre => ?_, fun o ho i hi => hacc.differ ho hi⟩
  obtain ⟨rfl, hparks⟩ := hp.moved fun o ho => hunused.victim ho
  rcases prefix_concat hpre with heq | hbelow
  · exact MovesOut.of_below (fun _ => .inl heq) hr hpre
  · exact hno ⟨hacc, hparks, hbelow, relocates_iff.mpr hr⟩

/-- What a call goes through and leaves. -/
theorem renameCall_sound (h : s.tree.Proper) (hidle : s.pending = none) (hunused : s.Unused a.uuid)
    (hno : ¬ a.Swallows T s) :
    (∀ u ∈ (s.renameCall T treeEngine a).points a.steps, InCall (a.rename s) s u) ∧
    (s.renameCall T treeEngine a).final.pending = none ∧
    Ended (a.rename s) s (s.renameCall T treeEngine a).result
      (s.renameCall T treeEngine a).final := by
  unfold Namespace.renameCall
  rcases renameItem_begins T treeEngine a s with ⟨-, calls, res, hr, -⟩ | ⟨hacc, calls, p, hp, hr⟩
  · rw [hr, Namespace.finish_done hidle]
    exact ⟨by simp [Course.points], hidle, ended_at_once _ s _⟩
  · rw [hr]
    have hc := hacc.checked hunused hno
    have hends := Namespace.finish_ends (T := T) (E := treeEngine) a.steps 5
      (⟨calls, none⟩, { s with pending := some { a.rename s with phase := p } })
      (fun q hq => by rw [← Option.some.inj hq]; exact begins_left hp)
    obtain ⟨hpoints, hfinal⟩ := Namespace.finish_rule (fun _ => True)
      (fun q u hu _ hinv => step_sound T h hidle hc hu hinv) 5
      (⟨calls, none⟩, { s with pending := some { a.rename s with phase := p } })
      (fun _ _ => trivial) (fun q hq => by rw [← Option.some.inj hq]; exact underway_begins hp)
      (fun hn => by cases hn)
    refine ⟨fun u hu => ?_, hends, hfinal hends⟩
    obtain ⟨v, hv, huv⟩ := List.mem_flatMap.mp hu
    exact hpoints v hv u huv

/-- A call that throws and whose rollbacks succeed leaves the tree as it was. -/
theorem renameCall_restores (h : s.tree.Proper) (hidle : s.pending = none)
    (hunused : s.Unused a.uuid) (hno : ¬ a.Swallows T s)
    (hundo : ∀ u ∈ (s.renameCall T treeEngine a).began, Undoes a.steps u)
    (hthrow : (s.renameCall T treeEngine a).Throws) (p : Path) :
    node (s.renameCall T treeEngine a).final.tree p = node s.tree p := by
  obtain ⟨e, he⟩ := hthrow
  have hends := (renameCall_sound h hidle hunused hno).2.1
  unfold Namespace.renameCall at hundo he hends ⊢
  rcases renameItem_begins T treeEngine a s with ⟨-, calls, res, hr, -⟩ | ⟨hacc, calls, p', hp, hr⟩
  · rw [hr, Namespace.finish_done hidle]
  · rw [hr] at hundo he hends ⊢
    have hc := hacc.checked hunused hno
    have hstep : ∀ q u, u.pending = some q → Undoes a.steps u →
        (Underway a.steps (a.rename s) s q u ∧
          (q.phase = .rollback → (a.rename s).ParkedIn (a.steps .park) s.tree u.tree)) →
        Namespace.StepRule T treeEngine (fun q u => Underway a.steps (a.rename s) s q u ∧
            (q.phase = .rollback → (a.rename s).ParkedIn (a.steps .park) s.tree u.tree))
          (fun _ => True)
          (fun res u => ∀ e, res = some (.error e) → ∀ p, node u.tree p = node s.tree p)
          (a.steps q.phase) q u := by
      rintro q u hu hok ⟨hinv, hkeep⟩
      have hsound := step_sound T h hidle hc hu hinv
      obtain ⟨hthrown, hback⟩ := step_restores h hu hok hinv hkeep
      exact ⟨trivial, fun _ => hthrown, fun q' hq' => ⟨hsound.next q' hq', hback q' hq'⟩⟩
    obtain ⟨-, hfinal⟩ := Namespace.finish_rule (Undoes a.steps) hstep 5
      (⟨calls, none⟩, { s with pending := some { a.rename s with phase := p' } }) hundo
      (fun q hq => by
        rw [← Option.some.inj hq]
        refine ⟨underway_begins hp, fun hroll => ?_⟩
        rcases hp with ⟨rfl, -⟩ | ⟨rfl, -⟩ <;> cases hroll)
      (fun hn => by cases hn)
    exact hfinal hends e he p

theorem renameCall_losesNothing (htree : s.tree.Proper) (hidle : s.pending = none)
    (hunused : s.Unused a.uuid) (hno : ¬ a.Swallows T s) :
    (s.renameCall T treeEngine a).LosesNothing a.steps (a.rename s) s := by
  obtain ⟨hpoints, hends, hended⟩ := renameCall_sound htree hidle hunused hno
  have hsafe : ∀ u ∈ (s.renameCall T treeEngine a).points a.steps ++
      [(s.renameCall T treeEngine a).final], Safe (a.rename s) s.tree u.tree := by
    intro u hu
    rcases List.mem_append.mp hu with hu | hu
    · obtain ⟨q, -, hpt⟩ := hpoints u hu
      exact hpt.safe
    · rw [List.mem_singleton.mp hu]
      exact hended.safe
  refine ⟨⟨hended.result, hends⟩, fun i hi u hu => (hsafe u hu).source i hi, ?_, ?_,
    fun o ho i v hi hv u hu => (hsafe u hu).swap o ho i v hi hv, ?_⟩
  · intro o _ v hv
    refine ⟨fun u hu hun => ?_, fun ⟨e, he⟩ => (hended.thrown e he).1 v ⟨_, hv⟩⟩
    obtain ⟨q, hq, hpt⟩ := hpoints u hu
    exact hpt.kept (hun q hq) v ⟨_, hv⟩
  · intro hthrow hundo
    refine ⟨renameCall_restores htree hidle hunused hno hundo hthrow, ?_⟩
    obtain ⟨e, he⟩ := hthrow
    exact (hended.thrown e he).2
  · rintro u hu ⟨q, hq, hdrop⟩ i hi
    obtain ⟨q', hq', hpt⟩ := hpoints u hu
    rw [hq'] at hq
    obtain rfl := Option.some.inj hq
    exact hpt.drop hdrop i hi

end

/-! ### A directory below itself -/

section

variable {T : PathText} {s : Namespace} {a : RenameCall} {r : Rename} {c : UpcallReply × Namespace}
  {q : Rename} {steps : Phase → RenameSteps} {n : ℕ}

/-- A node of the tree with the victim parked has the path it had, or had one at or below the
victim's. -/
theorem parkedTree_origin (hc : t.Closed) (hfree : ∀ o ∈ r.overItem, node t o.parked = none)
    {p : Path} {j : Inode} (hj : node (r.parkedTree t) p = some j) : ∃ p₀, node t p₀ = some j ∧
      (p = p₀ ∨ ∃ o ∈ r.overItem, o.path <+: p₀ ∧ node (r.parkedTree t) p₀ = none) := by
  unfold Rename.parkedTree at hj ⊢
  cases ho : r.overItem with
  | none =>
    rw [ho] at hj
    exact ⟨p, hj, .inl rfl⟩
  | some o =>
    rw [ho] at hj
    simp only at hj ⊢
    have hout : ¬ o.path <+: p := by
      intro hp
      rw [node_move_old hp] at hj
      cases hj
    by_cases hp : o.parked <+: p
    · obtain ⟨rest, rfl⟩ := hp
      rw [node_move_new hout (hc.none_below (hfree o ho) rest)] at hj
      exact ⟨o.path ++ rest, hj, .inr ⟨o, rfl, List.prefix_append _ _,
        node_move_old (List.prefix_append _ _)⟩⟩
    · rw [node_move_of_not hout hp] at hj
      exact ⟨p, hj, .inl rfl⟩

/-- The renamed item's path does not run through a name that was drawn just now. -/
theorem Namespace.Unused.aside (h : s.Unused a.uuid) {o : Victim}
    (ho : (a.rename s).overItem = some o) (hroot : (a.rename s).oldPath ≠ []) :
    ¬ o.parked <+: (a.rename s).oldPath := by
  obtain ⟨c, -, rfl⟩ := Option.map_eq_some_iff.mp ho
  rintro ⟨rest, hr⟩
  change _ = s.pathOf a.item at hr
  change s.pathOf a.item ≠ [] at hroot
  unfold Namespace.pathOf at hr hroot
  cases hi : s.items[a.item]? with
  | none => simp [hi] at hroot
  | some it =>
    rw [hi, Option.map_some, Option.getD_some] at hr
    have hno := h.2 it (List.mem_of_getElem? hi)
      (.nkOver a.uuid (((s.items[c]?).map Item.inode).getD 0)) (by rw [← hr]; simp [Victim.parked])
    simp [Name.drawn] at hno

/-- The directory is where its item says, with the victim parked as before. -/
theorem RenameCall.Swallows.source (hc : s.tree.Closed) (hunused : s.Unused a.uuid)
    (h : a.Swallows T s) : ∃ x, x.kind = .directory ∧
      node s.tree (a.rename s).oldPath = some x ∧
      node ((a.rename s).parkedTree s.tree) (a.rename s).oldPath = some x := by
  set r := a.rename s
  have hfree : ∀ o ∈ r.overItem, node s.tree o.parked = none := fun o ho => hunused.victim ho
  have hu : (r.parkedTree s.tree).Closed := by
    unfold Rename.parkedTree
    cases ho : r.overItem with
    | none => exact hc
    | some o =>
      obtain ⟨d, hd, hk⟩ := (h.parks o ho).directory
      exact hc.move hd hk (hfree o ho)
  obtain ⟨d, hd, -⟩ := h.moves.directory
  obtain ⟨rest, hrest⟩ := h.below
  have hne : rest ≠ [] := by
    rintro rfl
    rw [List.append_nil] at hrest
    exact h.accepted.2.1 (.inl (congrArg T.form hrest.symm))
  change node (r.parkedTree s.tree) r.destPath = some d at hd
  rw [← hrest] at hd
  obtain ⟨x, hx, hk⟩ := hu.below hne (by rw [hd]; rfl)
  refine ⟨x, hk, ?_, hx⟩
  unfold Rename.parkedTree at hx
  cases ho : r.overItem with
  | none => rwa [ho] at hx
  | some o =>
    rw [ho] at hx
    simp only at hx
    rwa [node_move_of_not] at hx
    · intro hp
      rw [node_move_old hp] at hx
      cases hx
    · exact hunused.aside ho h.moves.proper

/-- Once it is below itself, no path leads to the directory. -/
theorem RenameCall.Swallows.lost (htree : s.tree.Proper) (hunused : s.Unused a.uuid)
    (h : a.Swallows T s) : ∃ i, s.tree.inodeAt (a.rename s).oldPath = some i ∧
      ¬ Tree.Named (move (a.rename s).oldPath (a.rename s).newPath
        ((a.rename s).parkedTree s.tree)) i := by
  obtain ⟨x, hk, hx, hux⟩ := h.source htree.closed hunused
  refine ⟨x.number, Tree.inodeAt_eq_some.mpr ⟨x, hx, rfl⟩, ?_⟩
  rintro ⟨p, hp⟩
  obtain ⟨j, hj, hnum⟩ := Tree.inodeAt_eq_some.mp hp
  have hout : ¬ (a.rename s).oldPath <+: p := by
    intro hpre
    rw [node_move_old hpre] at hj
    cases hj
  have hnew : ¬ (a.rename s).newPath <+: p :=
    fun hpre => hout ((h.below.trans (List.prefix_append _ _)).trans hpre)
  rw [node_move_of_not hout hnew] at hj
  obtain ⟨p₀, hj₀, hcase⟩ :=
    parkedTree_origin htree.closed (fun o ho => hunused.victim ho) hj
  -- a directory has one path
  obtain rfl := htree.single _ _ _ _ hx hj₀ hnum.symm hk
  rcases hcase with rfl | ⟨-, -, -, hnone⟩
  · exact hout (List.prefix_refl _)
  · rw [hux] at hnone
    cases hnone

theorem mem_began (h : c.2.pending = some q) :
    c.2 ∈ (Namespace.finish T treeEngine steps (n + 1) c).began := by
  rw [Namespace.finish_next h]
  exact List.mem_cons_self

theorem mem_began_next {c' : UpcallReply × Namespace} {u : Namespace} (h : c.2.pending = some q)
    (hadv : c.2.advance T treeEngine (steps q.phase) q = c')
    (hu : u ∈ (Namespace.finish T treeEngine steps n c').began) :
    u ∈ (Namespace.finish T treeEngine steps (n + 1) c).began := by
  rw [Namespace.finish_next h, hadv]
  exact List.mem_cons_of_mem _ hu

/-- The call comes to the state in which the directory is below itself. -/
theorem RenameCall.Swallows.point (h : a.Swallows T s) :
    ∃ u ∈ (s.renameCall T treeEngine a).points a.steps, u.tree =
      move (a.rename s).oldPath (a.rename s).newPath ((a.rename s).parkedTree s.tree) := by
  have hmoves := relocates_iff.mp h.moves
  suffices hsuff : ∃ u ∈ (s.renameCall T treeEngine a).began, u.tree =
      move (a.rename s).oldPath (a.rename s).newPath ((a.rename s).parkedTree s.tree) by
    obtain ⟨u, hu, htree⟩ := hsuff
    exact ⟨u, List.mem_flatMap.mpr ⟨u, hu, List.mem_cons_self⟩, htree⟩
  unfold Namespace.renameCall
  rcases renameItem_begins T treeEngine a s with ⟨hno, -⟩ | ⟨-, calls, p, hp, hr⟩
  · exact absurd h.accepted hno
  rw [hr]
  rcases hp with ⟨rfl, ho⟩ | ⟨rfl, ho⟩
  · have htree : (a.rename s).parkedTree s.tree = s.tree := by rw [Rename.parkedTree, ho]
    rw [htree] at hmoves ⊢
    refine ⟨_, mem_began_next rfl (advance_move_eq (r := a.rename s) (by rw [ho]) hmoves)
      (mem_began rfl), rfl⟩
  · obtain ⟨o, ho⟩ := Option.isSome_iff_exists.mp ho
    have hpark := relocates_iff.mp (h.parks o ho)
    have htree : (a.rename s).parkedTree s.tree = move o.path o.parked s.tree := by
      rw [Rename.parkedTree, ho]
    rw [htree] at hmoves ⊢
    refine ⟨_, mem_began_next rfl (advance_park_eq (r := a.rename s) ho hpark)
      (mem_began_next rfl (advance_move_eq (r := a.rename s) (by rw [ho]) hmoves)
        (mem_began rfl)), rfl⟩

end

theorem Tree.Wf.proper {b : ℕ} (h : t.Wf b) : t.Proper := by
  refine ⟨h.closed, fun p q i j hi hj hij hk => ?_⟩
  by_contra hne
  exact (h.single p q i j hi hj hij hne).2 hk

theorem fromEmpty_proper {es : List Upcall} (hp : (fromEmpty .exact es).pending = none)
    (hrun : Run (Namespace.step .exact) (fun s e _ => s.Allowed .exact e ∧ s.RollsBack e)
      (.mounted false rootOnly 64 5) (fromEmpty .exact es)) :
    (fromEmpty .exact es).tree.Proper :=
  ((Namespace.good_none hp).mp (good_of_run rootOnly_wf rfl hrun)).wf.proper

/-- Two files, `a` and `b`. -/
def twoFiles : Namespace := fromEmpty .exact
  [.createItem 0 (.plain "a") .file true true, .createItem 0 (.plain "b") .file true true]

/-- Rename `a` over `b`; the main rename cannot delete the old name and takes its link back. -/
def failedReplace : RenameCall where
  item := 1
  dest := 0
  name := .plain "b"
  overItem := some 2
  uuid := 7
  listed := true
  steps
    | .move => ⟨true, false, true⟩
    | _ => ⟨true, true, true⟩

/-- A directory `d`, and in it one whose name begins with the accent. -/
def markedBelow : List Upcall :=
  [.createItem 0 (.plain "d") .directory true true,
    .createItem 1 (.plain "\u0301x") .directory true true]

/-- Rename `d` to `y` in the directory below it. -/
def intoMarked : RenameCall := ⟨1, 2, .plain "y", none, 7, true, fun _ => ⟨true, true, true⟩⟩

instance (t : Tree) (i : ℕ) : Decidable (t.Named i) :=
  decidable_of_iff (∃ e ∈ t, t.inodeAt e.1 = some i) ⟨fun ⟨e, _, he⟩ => ⟨e.1, he⟩, by
    rintro ⟨p, hp⟩
    obtain ⟨x, hx, -⟩ := Tree.inodeAt_eq_some.mp hp
    obtain ⟨e, he, rfl⟩ := node_isSome.mp (Option.isSome_iff_exists.mpr ⟨x, hx⟩)
    exact ⟨e, he, hp⟩⟩

end NtfsKit
