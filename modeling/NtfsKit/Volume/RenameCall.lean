import NtfsKit.Volume.Course
import NtfsKit.Volume.RenameTrees

/-! A whole call of `renameItem` on a tree of names, with the states inside its steps. The victim
is parked first and deleted last; each step keeps what the call needs to put everything back or
to bring the renamed file to its new name. -/

namespace NtfsKit

open PathTree

variable {t u : Tree} {ok : RenameSteps}

/-! ### The states in between -/

namespace Namespace

/-- The states one step of `renameItem` passes through. -/
def inside (ok : RenameSteps) (r : Rename) (s : Namespace) : List Namespace :=
  let trees := match r.phase, r.overItem with
    | .park, some o => nkRenameTrees ok o.path o.dir o.tmpName s.tree
    | .move, _ => nkRenameTrees ok r.oldPath r.destPath r.newName s.tree
    | .rollback, some o => nkRenameTrees ok o.parked o.dir o.overName s.tree
    | _, _ => []
  trees.map fun t => { s with tree := t }

/-- The states the next step of the rename in progress passes through. -/
def insideNext (steps : Phase → RenameSteps) (s : Namespace) : List Namespace :=
  match s.pending with
  | some r => s.inside (steps r.phase) r
  | none => []

/-- The rollback made in this step, if one is, succeeds: the engine takes the new link back
after it could not delete the old name, and the victim's rename back succeeds. -/
def RolledBack (ok : RenameSteps) (r : Rename) (s : Namespace) : Prop :=
  match r.phase, r.overItem with
  | .park, some o => ok.undo = true ∨ (ok.delete = true ∧ o.path ≠ [])
  | .move, _ => ok.undo = true ∨ (ok.delete = true ∧ r.oldPath ≠ [])
  | .rollback, some o => (nkRename ok o.parked o.dir o.overName s.tree).1 = true
  | _, _ => True

end Namespace

/-- All states a call went through, with those inside its steps. -/
def Course.points (c : Course) (steps : Phase → RenameSteps) : List Namespace :=
  c.began.flatMap fun u => u :: u.insideNext steps

/-! ### The victim -/

theorem Victim.park_out (o : Victim) : MovesOut ok o.path o.dir o.tmpName t := by
  refine .of_below fun hp => ?_
  rcases prefix_concat hp with heq | hpre
  · exact .inl heq
  · refine .inr (List.eq_nil_of_length_eq_zero ?_)
    have hlen := hpre.length_le
    rw [Victim.dir, List.length_dropLast] at hlen
    omega

theorem Victim.back_out (o : Victim) : MovesOut ok o.parked o.dir o.overName t := by
  refine .of_below fun hp => ?_
  exact .inl (hp.eq_of_length (by simp [Victim.parked]))

theorem Victim.back_path (o : Victim) (h : o.path ≠ []) : o.dir ++ [o.overName] = o.path := by
  rw [Victim.dir, Victim.overName, List.getLast?_eq_some_getLast h, Option.getD_some,
    List.dropLast_append_getLast]

/-- A directory tree: every entry lies in a directory, and a directory has one name. -/
structure Tree.Proper (t : Tree) : Prop where
  closed : t.Closed
  single : ∀ p q i j, node t p = some i → node t q = some j → i.number = j.number →
    i.kind = .directory → p = q

/-- The tree once the victim, if there is one, is parked. -/
def Rename.ParkedIn (ok : RenameSteps) (r : Rename) (t u : Tree) : Prop :=
  match r.overItem with
  | none => u = t
  | some o => nkRename ok o.path o.dir o.tmpName t = (true, u)

section

variable {r : Rename} {o : Victim} (h : t.Closed) (hp : r.ParkedIn ok t u)
include hp

theorem Rename.ParkedIn.victim (ho : r.overItem = some o) :
    nkRename ok o.path o.dir o.tmpName t = (true, u) := by
  rw [ParkedIn, ho] at hp
  exact hp

include h

theorem Rename.ParkedIn.closed : u.Closed := by
  cases ho : r.overItem with
  | none =>
    rw [ParkedIn, ho] at hp
    rw [hp]
    exact h
  | some o =>
    have hok := hp.victim ho
    exact nkRename_closed h hok

theorem Rename.ParkedIn.keeps : t.Keeps u := by
  cases ho : r.overItem with
  | none =>
    rw [ParkedIn, ho] at hp
    rw [hp]
    exact Tree.Keeps.refl t
  | some o =>
    have hok := hp.victim ho
    exact nkRename_keeps h o.park_out u (nkRename_mem h hok)

/-- The victim is under its hidden name. -/
theorem Rename.ParkedIn.parked (ho : r.overItem = some o) :
    u.inodeAt o.parked = t.inodeAt o.path := by
  have hok := hp.victim ho
  exact nkRename_arrives h o.park_out hok

/-- The file to be renamed is still under its path, or went along with the victim. -/
theorem Rename.ParkedIn.source {i : ℕ} (hi : t.inodeAt r.oldPath = some i) :
    u.inodeAt r.oldPath = some i ∨ u.inodeAt r.oldPath = none := by
  cases ho : r.overItem with
  | none =>
    rw [ParkedIn, ho] at hp
    rw [hp]
    exact .inl hi
  | some o =>
    have hok := hp.victim ho
    by_cases hpre : o.path <+: r.oldPath
    · obtain ⟨x, d, -, -, -, ⟨-, hu⟩ | ⟨-, hu⟩⟩ := nkRename_ok (congrArg Prod.fst hok)
      · rw [hok] at hu
        obtain rfl : u = t := hu
        exact .inl hi
      · rw [hok] at hu
        obtain rfl : u = _ := hu
        exact .inr (Tree.inodeAt_eq_none.mpr (node_move_old hpre))
    · exact .inl (nkRename_frame h hpre hi u (nkRename_mem h hok))

end

/-! ### The steps of the call -/

/-- What the checks of `renameItem` are for: the main rename moves nothing below itself, and the
victim is another file. -/
structure Rename.Checked (steps : Phase → RenameSteps) (r : Rename) (t : Tree) : Prop where
  out : ∀ u, r.ParkedIn (steps .park) t u →
    MovesOut (steps .move) r.oldPath r.destPath r.newName u
  differ : ∀ o, r.overItem = some o → ∀ i, t.inodeAt r.oldPath = some i → t.inodeAt o.path ≠ some i

/-- How far a rename that began in `t` has come. -/
def Rename.At (steps : Phase → RenameSteps) (r : Rename) (t : Tree) : Phase → Tree → Prop
  | .park, u => u = t ∧ r.overItem.isSome
  | .move, u => r.ParkedIn (steps .park) t u
  | .rollback, u => r.overItem.isSome ∧ ∃ v, r.ParkedIn (steps .park) t v ∧
      nkRename (steps .move) r.oldPath r.destPath r.newName v = (false, u)
  | .point, u | .drop, u => r.overItem.isSome ∧ ∀ i, t.inodeAt r.oldPath = some i →
      u.inodeAt r.newPath = some i ∧ ∀ o, r.overItem = some o → r.newPath ≠ o.parked
  | .rekey, u => ∀ i, t.inodeAt r.oldPath = some i → u.inodeAt r.newPath = some i

/-- The rename `r` of the state `s₀` is under way. -/
structure Underway (steps : Phase → RenameSteps) (r : Rename) (s₀ : Namespace) (q : Rename)
    (s : Namespace) : Prop where
  rename : q = { r with phase := q.phase }
  stage : r.At steps s₀.tree q.phase s.tree
  tables : q.phase.unmoved = true → s = { s₀ with tree := s.tree, pending := some q }

/-- No file is lost in the tree `u` of a call that began in `t`. -/
structure Safe (r : Rename) (t u : Tree) : Prop where
  source : ∀ i, t.inodeAt r.oldPath = some i → u.Named i
  swap : ∀ o, r.overItem = some o → ∀ i v, t.inodeAt r.oldPath = some i →
    t.inodeAt o.path = some v → u.inodeAt r.newPath = some i ∨ u.inodeAt o.path = some v ∨
      u.inodeAt o.parked = some v

/-- What holds in every state of a call: while the main rename has not succeeded no file at
all is without a name, and the victim is deleted once the renamed file has arrived. -/
structure Point (r : Rename) (t : Tree) (p : Phase) (u : Tree) : Prop where
  safe : Safe r t u
  kept : p.unmoved = true → t.Keeps u
  drop : p = .drop → ∀ i, t.inodeAt r.oldPath = some i → u.inodeAt r.newPath = some i

section

variable {r : Rename} {o : Victim} {steps : Phase → RenameSteps}

theorem Safe.of_new (h : ∀ i, t.inodeAt r.oldPath = some i → u.inodeAt r.newPath = some i) :
    Safe r t u :=
  ⟨fun i hi => ⟨_, h i hi⟩, fun _ _ i _ hi _ => .inl (h i hi)⟩

theorem Safe.of_keeps (hk : t.Keeps u) (hs : ∀ o, r.overItem = some o → ∀ i v,
    t.inodeAt r.oldPath = some i → t.inodeAt o.path = some v → u.inodeAt r.newPath = some i ∨
      u.inodeAt o.path = some v ∨ u.inodeAt o.parked = some v) : Safe r t u :=
  ⟨fun i hi => hk i ⟨_, hi⟩, hs⟩

theorem Point.of_unmoved {p : Phase} (hs : Safe r t u) (hk : t.Keeps u)
    (hp : p.unmoved = true) : Point r t p u := by
  refine ⟨hs, fun _ => hk, ?_⟩
  rintro rfl
  cases hp

theorem Point.of_new {p : Phase} (hp : p.unmoved = false)
    (h : ∀ i, t.inodeAt r.oldPath = some i → u.inodeAt r.newPath = some i) : Point r t p u := by
  refine ⟨.of_new h, fun hu => ?_, fun _ => h⟩
  rw [hp] at hu
  cases hu

variable (h : t.Closed)
include h

theorem park_points (ho : r.overItem = some o) :
    ∀ u ∈ t :: nkRenameTrees ok o.path o.dir o.tmpName t, Point r t .park u := by
  intro u hu
  have hk : t.Keeps u := nkRename_keeps h o.park_out u hu
  refine .of_unmoved (.of_keeps hk ?_) hk rfl
  intro o' ho' i v _ hv
  obtain rfl : o = o' := Option.some.inj (ho ▸ ho')
  rcases nkRename_or_arrived h o.park_out hv u hu with hp | ⟨hp, -⟩
  · exact .inr (.inl hp)
  · exact .inr (.inr (hp.trans hv))

theorem move_points (hc : r.Checked steps t) (hp : r.ParkedIn (steps .park) t u) :
    ∀ w ∈ u :: nkRenameTrees (steps .move) r.oldPath r.destPath r.newName u, Point r t .move w := by
  have hu := hp.closed h
  intro w hw
  have hk : t.Keeps w := (hp.keeps h).trans (nkRename_keeps hu (hc.out u hp) w hw)
  refine .of_unmoved (.of_keeps hk ?_) hk rfl
  intro o ho i v hi hv
  have hparked : u.inodeAt o.parked = some v := (hp.parked h ho).trans hv
  rcases nkRename_or_arrived hu (hc.out u hp) hparked w hw with hw | ⟨hw, hne⟩
  · exact .inr (.inr hw)
  · rcases hp.source h hi with hs | hs
    · exact .inl (hw.trans hs)
    · exact absurd hs hne

omit h in
theorem rollback_points (ho : r.overItem = some o) (hroot : o.path ≠ []) (hk : t.Keeps u)
    (hu : u.Closed) (hparked : ∀ v, t.inodeAt o.path = some v → u.inodeAt o.parked = some v)
    (ok : RenameSteps) :
    ∀ w ∈ u :: nkRenameTrees ok o.parked o.dir o.overName u, Point r t .rollback w := by
  intro w hw
  have hkw : t.Keeps w := hk.trans (nkRename_keeps hu o.back_out w hw)
  refine .of_unmoved (.of_keeps hkw ?_) hkw rfl
  intro o' ho' i v _ hv
  obtain rfl : o = o' := Option.some.inj (ho ▸ ho')
  rcases nkRename_or_arrived hu o.back_out (hparked v hv) w hw with hp | ⟨hp, -⟩
  · exact .inr (.inr hp)
  · rw [o.back_path hroot, hparked v hv] at hp
    exact .inr (.inl hp)

end

/-- The root is not parked: it has no second name. -/
theorem Rename.ParkedIn.not_root {r : Rename} {o : Victim} (h : t.Proper) (hp : r.ParkedIn ok t u)
    (ho : r.overItem = some o) : o.path ≠ [] := by
  intro hroot
  have hok := hp.victim ho
  obtain ⟨x, d, hx, hd, hk, -⟩ := nkRename_ok (congrArg Prod.fst hok)
  rw [hroot] at hok hx
  have hsame := (nkRename_root (congrArg Prod.fst hok)).1
  rw [Tree.inodeAt_eq_some.mpr ⟨x, hx, rfl⟩, Tree.inodeAt_eq_some] at hsame
  obtain ⟨y, hy, hnum⟩ := hsame
  rw [Victim.dir, hroot, List.dropLast_nil] at hd hy
  rw [hx] at hd
  rw [← Option.some.inj hd] at hk
  have heq := h.single [] _ x y hx hy hnum.symm hk
  cases heq

/-- What holds when a call has ended with `res`. -/
structure Ended (r : Rename) (s₀ : Namespace) (res : Option (Except Errno (Option ℕ)))
    (s : Namespace) : Prop where
  result : res.isSome
  safe : Safe r s₀.tree s.tree
  thrown : ∀ e, res = some (.error e) → s₀.tree.Keeps s.tree ∧ s = { s₀ with tree := s.tree }

/-- What holds in a state of a call that has not ended. -/
def InCall (r : Rename) (s₀ u : Namespace) : Prop :=
  ∃ q, u.pending = some q ∧ Point r s₀.tree q.phase u.tree

/-- A step of the rename `r` that began in `s₀` loses nothing. -/
def StepSound (T : PathText) (steps : Phase → RenameSteps) (r : Rename) (s₀ : Namespace)
    (q : Rename) (s : Namespace) : Prop :=
  Namespace.StepRule T treeEngine (Underway steps r s₀)
    (fun u => ∀ v ∈ u :: u.insideNext steps, InCall r s₀ v) (Ended r s₀) (steps q.phase) q s

section

variable {T : PathText} {steps : Phase → RenameSteps} {s₀ s : Namespace} {r q : Rename}
  {o : Victim} {p : Phase} {trees : List Tree}

theorem insideNext_eq (hs : s.pending = some q) :
    s.insideNext steps = s.inside (steps q.phase) q := by
  rw [Namespace.insideNext, hs]

theorem points_of_trees (hs : s.pending = some { r with phase := p })
    (hi : s.inside (steps p) { r with phase := p } = trees.map fun t => { s with tree := t })
    (h : ∀ u ∈ s.tree :: trees, Point r s₀.tree p u) :
    ∀ u ∈ s :: s.insideNext steps, InCall r s₀ u := by
  rw [insideNext_eq hs, hi]
  intro u hu
  rcases List.mem_cons.mp hu with rfl | hu
  · exact ⟨_, hs, h _ List.mem_cons_self⟩
  · obtain ⟨t, ht, rfl⟩ := List.mem_map.mp hu
    exact ⟨_, hs, h t (List.mem_cons_of_mem _ ht)⟩

/-- A step that throws leaves the tables as they were. -/
theorem Ended.of_throw {e : Errno} (hidle : s₀.pending = none)
    (htab : s = { s₀ with tree := s.tree, pending := some { r with phase := p } })
    (hpt : Point r s₀.tree p u) (hp : p.unmoved = true) :
    Ended r s₀ (some (.error e)) { s with tree := u, pending := none } := by
  refine ⟨rfl, hpt.safe, fun _ _ => ⟨hpt.kept hp, ?_⟩⟩
  rw [htab, ← hidle]

theorem Underway.of_unmoved {p' : Phase}
    (htab : s = { s₀ with tree := s.tree, pending := some { r with phase := p } })
    (hat : r.At steps s₀.tree p' u) :
    Underway steps r s₀ { r with phase := p' }
      { s with tree := u, pending := some { r with phase := p' } } :=
  ⟨rfl, hat, fun _ => by rw [htab]⟩

section

variable {reply : UpcallReply} {s' : Namespace}
  (hpts : ∀ u ∈ s :: s.insideNext steps, InCall r s₀ u)
  (hadv : s.advance T treeEngine (steps q.phase) q = (reply, s'))
include hpts hadv

theorem StepSound.of_next {q' : Rename} (hp : s'.pending = some q')
    (hu : Underway steps r s₀ q' s') : StepSound T steps r s₀ q s := by
  refine ⟨hpts, ?_, ?_⟩ <;> rw [hadv]
  · intro hn
    rw [hp] at hn
    cases hn
  · intro q'' hq
    rw [hp] at hq
    rwa [← Option.some.inj hq]

theorem StepSound.of_end (hp : s'.pending = none) (he : Ended r s₀ reply.result s') :
    StepSound T steps r s₀ q s := by
  refine ⟨hpts, ?_, ?_⟩ <;> rw [hadv]
  · exact fun _ => he
  · intro q' hq
    rw [hp] at hq
    cases hq

end

theorem inside_park (ho : r.overItem = some o) {ok : RenameSteps} :
    s.inside ok { r with phase := .park } =
      (nkRenameTrees ok o.path o.dir o.tmpName s.tree).map fun t => { s with tree := t } := by
  simp [Namespace.inside, ho]

theorem inside_rollback (ho : r.overItem = some o) {ok : RenameSteps} :
    s.inside ok { r with phase := .rollback } =
      (nkRenameTrees ok o.parked o.dir o.overName s.tree).map fun t => { s with tree := t } := by
  simp [Namespace.inside, ho]

theorem step_park (h : s₀.tree.Closed) (hidle : s₀.pending = none)
    (hs : s.pending = some { r with phase := .park })
    (hu : Underway steps r s₀ { r with phase := .park } s) :
    StepSound T steps r s₀ { r with phase := .park } s := by
  obtain ⟨-, ⟨htree, hsome⟩, htab⟩ := hu
  obtain ⟨o, ho⟩ := Option.isSome_iff_exists.mp hsome
  specialize htab rfl
  have htrees : ∀ u ∈ s.tree :: nkRenameTrees (steps .park) o.path o.dir o.tmpName s.tree,
      Point r s₀.tree .park u := by
    rw [htree]
    exact park_points h ho
  have hpts := points_of_trees hs (inside_park ho) htrees
  cases hc : nkRename (steps .park) o.path o.dir o.tmpName s.tree with
  | mk b u =>
    cases b with
    | true =>
      refine .of_next hpts (advance_park_eq ho hc) rfl (.of_unmoved htab ?_)
      rw [htree] at hc
      simp only [Rename.At, Rename.ParkedIn, ho]
      exact hc
    | false =>
      refine .of_end hpts (advance_park_eq ho hc) rfl (.of_throw hidle htab ?_ rfl)
      exact htrees u (nkRename_mem (htree ▸ h) hc)

theorem step_move (h : s₀.tree.Closed) (hidle : s₀.pending = none) (hc : r.Checked steps s₀.tree)
    (hs : s.pending = some { r with phase := .move })
    (hu : Underway steps r s₀ { r with phase := .move } s) :
    StepSound T steps r s₀ { r with phase := .move } s := by
  obtain ⟨-, hparked, htab⟩ := hu
  specialize htab rfl
  have htrees := move_points h hc hparked
  have hpts := points_of_trees hs rfl htrees
  have hclosed := Rename.ParkedIn.closed h hparked
  cases hr : nkRename (steps .move) r.oldPath r.destPath r.newName s.tree with
  | mk b u =>
    cases b with
    | false =>
      cases hover : r.overItem.isSome with
      | false =>
        refine .of_end hpts (advance_move_eq hover hr) rfl (.of_throw hidle htab ?_ rfl)
        exact htrees u (nkRename_mem hclosed hr)
      | true =>
        refine .of_next hpts (advance_move_eq hover hr) rfl (.of_unmoved htab ?_)
        exact ⟨hover, s.tree, hparked, hr⟩
    | true =>
      obtain ⟨x, d, hx, -, -, hcase⟩ := nkRename_ok (congrArg Prod.fst hr)
      have hold : ∀ i, s₀.tree.inodeAt r.oldPath = some i → s.tree.inodeAt r.oldPath = some i := by
        intro i hi
        rcases hparked.source h hi with hsrc | hsrc
        · exact hsrc
        · rw [Tree.inodeAt_eq_none, hx] at hsrc
          cases hsrc
      have harrive : ∀ i, s₀.tree.inodeAt r.oldPath = some i → u.inodeAt r.newPath = some i :=
        fun i hi => (nkRename_arrives hclosed (hc.out _ hparked) hr).trans (hold i hi)
      cases hover : r.overItem.isSome with
      | false => exact .of_next hpts (advance_move_eq hover hr) rfl (.of_unmoved htab harrive)
      | true =>
        refine .of_next hpts (advance_move_eq hover hr) rfl
          (.of_unmoved htab ⟨hover, fun i hi => ⟨harrive i hi, ?_⟩⟩)
        intro o ho heq
        -- the new name was free or a name of the same file, the hidden name is the victim's
        have hv := hparked.parked h ho
        rw [← heq] at hv
        rcases hcase with ⟨hsame, -⟩ | ⟨hfree, -⟩
        · rw [Rename.newPath, hsame, ← Tree.inodeAt_eq_some.mpr ⟨x, hx, rfl⟩, hold i hi] at hv
          exact hc.differ o ho i hi hv.symm
        · rw [Rename.newPath, Tree.inodeAt_eq_none.mpr hfree] at hv
          have hok := hparked.victim ho
          obtain ⟨y, -, hy, -⟩ := nkRename_ok (congrArg Prod.fst hok)
          rw [eq_comm, Tree.inodeAt_eq_none, hy] at hv
          cases hv

theorem step_rollback (h : s₀.tree.Proper) (hidle : s₀.pending = none) (hc : r.Checked steps s₀.tree)
    (hs : s.pending = some { r with phase := .rollback })
    (hu : Underway steps r s₀ { r with phase := .rollback } s) :
    StepSound T steps r s₀ { r with phase := .rollback } s := by
  obtain ⟨-, ⟨hsome, v, hparked, hr⟩, htab⟩ := hu
  obtain ⟨o, ho⟩ := Option.isSome_iff_exists.mp hsome
  specialize htab rfl
  have hv := Rename.ParkedIn.closed h.closed hparked
  have hclosed := nkRename_closed hv hr
  have hkeeps : s₀.tree.Keeps s.tree :=
    (Rename.ParkedIn.keeps h.closed hparked).trans
      (nkRename_keeps hv (hc.out v hparked) s.tree (nkRename_mem hv hr))
  have hat : ∀ i, s₀.tree.inodeAt o.path = some i → s.tree.inodeAt o.parked = some i :=
    fun i hi => nkRename_failed_frame hv ((hparked.parked h.closed ho).trans hi)
      (congrArg Prod.fst hr) s.tree (nkRename_mem hv hr)
  have htrees := rollback_points ho (hparked.not_root h ho) hkeeps hclosed hat (steps .rollback)
  have hpts := points_of_trees hs (inside_rollback ho) htrees
  cases hb : nkRename (steps .rollback) o.parked o.dir o.overName s.tree with
  | mk b u =>
    refine .of_end hpts (advance_rollback_eq ho hb) rfl (.of_throw hidle htab ?_ rfl)
    exact htrees u (nkRename_mem hclosed hb)

theorem points_alone (hs : s.pending = some { r with phase := p })
    (hi : s.inside (steps p) { r with phase := p } = []) (h : Point r s₀.tree p s.tree) :
    ∀ u ∈ s :: s.insideNext steps, InCall r s₀ u := by
  rw [insideNext_eq hs, hi, List.forall_mem_singleton]
  exact ⟨_, hs, h⟩

theorem step_point (hs : s.pending = some { r with phase := .point })
    (hu : Underway steps r s₀ { r with phase := .point } s) :
    StepSound T steps r s₀ { r with phase := .point } s := by
  obtain ⟨-, ⟨hsome, hnew⟩, -⟩ := hu
  obtain ⟨o, ho⟩ := Option.isSome_iff_exists.mp hsome
  have hpt : Point r s₀.tree .point s.tree := .of_new rfl fun i hi => (hnew i hi).1
  refine .of_next (points_alone hs rfl hpt) (advance_point_eq ho) rfl ?_
  exact ⟨rfl, ⟨hsome, hnew⟩, fun hp => by cases hp⟩

/-- Deleting the victim leaves the renamed file under its new name. -/
theorem inodeAt_nkDelete {t : Tree} {i : ℕ} {path p : Path} {b : Bool}
    (hi : t.inodeAt p = some i) (hne : p ≠ path) : (nkDelete b path t).2.inodeAt p = some i := by
  rcases nkDelete_cases b path t with hd | ⟨hd, hleaf⟩
  · rw [hd]
    exact hi
  · rw [hd, ← hi]
    refine Tree.inodeAt_congr ?_
    rw [node_unlink, if_neg]
    rintro ⟨rest, rfl⟩
    have hr : rest ≠ [] := by
      rintro rfl
      exact hne (List.append_nil _)
    rw [Tree.inodeAt, leaf_iff.mp hleaf rest hr] at hi
    cases hi

theorem step_drop (hs : s.pending = some { r with phase := .drop })
    (hu : Underway steps r s₀ { r with phase := .drop } s) :
    StepSound T steps r s₀ { r with phase := .drop } s := by
  obtain ⟨-, ⟨hsome, hnew⟩, -⟩ := hu
  obtain ⟨o, ho⟩ := Option.isSome_iff_exists.mp hsome
  have hpt : Point r s₀.tree .drop s.tree := .of_new rfl fun i hi => (hnew i hi).1
  refine .of_next (points_alone hs rfl hpt) (advance_drop_eq ho) rfl ?_
  refine ⟨rfl, ?_, fun hp => by cases hp⟩
  intro i hi
  exact inodeAt_nkDelete (hnew i hi).1 ((hnew i hi).2 o ho)

theorem rekey_tree {σ : Type} (T : PathText) (r : Rename) (s : Namespace σ) :
    (s.rekey T r).tree = s.tree :=
  Namespace.mutateNamespace_tree T _ s

theorem rekey_nextInode {σ : Type} (T : PathText) (r : Rename) (s : Namespace σ) :
    (s.rekey T r).nextInode = s.nextInode :=
  Namespace.mutateNamespace_nextInode T _ s

theorem step_rekey (hs : s.pending = some { r with phase := .rekey })
    (hu : Underway steps r s₀ { r with phase := .rekey } s) :
    StepSound T steps r s₀ { r with phase := .rekey } s := by
  obtain ⟨-, hnew, -⟩ := hu
  have hpt : Point r s₀.tree .rekey s.tree := .of_new rfl hnew
  refine .of_end (points_alone hs rfl hpt) advance_rekey_eq rfl ⟨rfl, ?_, fun e he => by cases he⟩
  rw [rekey_tree]
  exact .of_new hnew

/-- Every step of a call is sound. -/
theorem step_sound (T : PathText) (h : s₀.tree.Proper) (hidle : s₀.pending = none)
    (hc : r.Checked steps s₀.tree) (hs : s.pending = some q) (hu : Underway steps r s₀ q s) :
    StepSound T steps r s₀ q s := by
  have hq := hu.rename
  cases hp : q.phase with
  | park =>
    rw [hp] at hq
    subst hq
    exact step_park h.closed hidle hs hu
  | move =>
    rw [hp] at hq
    subst hq
    exact step_move h.closed hidle hc hs hu
  | rollback =>
    rw [hp] at hq
    subst hq
    exact step_rollback h hidle hc hs hu
  | point =>
    rw [hp] at hq
    subst hq
    exact step_point hs hu
  | drop =>
    rw [hp] at hq
    subst hq
    exact step_drop hs hu
  | rekey =>
    rw [hp] at hq
    subst hq
    exact step_rekey hs hu

end

end NtfsKit
