import NtfsKit.Volume.Namespace

/-! A whole call of `renameItem`, over any engine and any reading of names: its checks, the
steps it then takes under `stateLock`, and the ways in which it ends. -/

namespace NtfsKit

/-- A call of `renameItem` and, for each of its engine calls, which library steps succeed. -/
structure RenameCall where
  item : ℕ
  dest : ℕ
  name : Name
  overItem : Option ℕ
  uuid : ℕ
  listed : Bool
  steps : Phase → RenameSteps

/-- All library steps succeed. -/
def allOk : RenameSteps := ⟨true, true, true⟩

/-- What a call went through: the states its steps began in, how it ended, and the state it
left. -/
structure Course (σ : Type := Tree) where
  began : List (Namespace σ)
  result : Option (Except Errno (Option ℕ))
  final : Namespace σ

/-- The call threw. -/
def Course.Throws {σ : Type} (c : Course σ) : Prop := ∃ e, c.result = some (.error e)

/-- The main rename has not succeeded so far. -/
def Phase.unmoved : Phase → Bool
  | .park | .move | .rollback => true
  | .point | .drop | .rekey => false

/-- How many steps a call in this phase may still make. -/
def Phase.left : Phase → ℕ
  | .park => 5
  | .move => 4
  | .point => 3
  | .drop => 2
  | .rollback | .rekey => 1

variable {σ : Type}

/-- The rename a call asks for, with the victim it would park. -/
def RenameCall.rename (a : RenameCall) (s : Namespace σ) : Rename where
  item := a.item
  oldPath := s.pathOf a.item
  dest := a.dest
  destPath := s.pathOf a.dest
  newName := a.name
  overItem := (a.overItem.filter (· ≠ a.item)).map fun o =>
    ⟨o, s.pathOf o, .nkOver a.uuid (((s.items[o]?).map Item.inode).getD 0)⟩
  phase := .park

variable (T : PathText) (E : NameEngine σ)

/-- The destination is the item itself or, as the code sees it, below it. -/
def RenameCall.IntoItself (a : RenameCall) (s : Namespace σ) : Prop :=
  T.form (s.pathOf a.dest) = T.form (s.pathOf a.item) ∨
    T.Beneath (s.pathOf a.item) (s.pathOf a.dest)

/-- The item and the victim are the same file. -/
def RenameCall.SameInode (a : RenameCall) (o : ℕ) (s : Namespace σ) : Prop :=
  (E.inodeAt s.tree (s.pathOf a.item)).isSome ∧
    E.inodeAt s.tree (s.pathOf a.item) = E.inodeAt s.tree (s.pathOf o)

/-- The volume can be written to, the destination is not below the item, and the victim is
another file and, if it is a directory, can be listed and shows no entry. -/
def RenameCall.Accepted (a : RenameCall) (s : Namespace σ) : Prop :=
  s.readOnly = false ∧ ¬ a.IntoItself T s ∧
  ∀ o ∈ a.overItem.filter (· ≠ a.item), ¬ a.SameInode E o s ∧
    ((s.items[o]?).map Item.kind = some .directory →
      E.firstEntry s.tree (s.pathOf o) = some false ∧ a.listed = true)

/-- The call has nothing to do: the victim is another link of the item's file. -/
def RenameCall.Relinks (a : RenameCall) (s : Namespace σ) : Prop :=
  s.readOnly = false ∧ ¬ a.IntoItself T s ∧
    ∃ o ∈ a.overItem.filter (· ≠ a.item), a.SameInode E o s

instance (a : RenameCall) (s : Namespace σ) : Decidable (a.IntoItself T s) :=
  inferInstanceAs (Decidable (_ ∨ _))

instance (a : RenameCall) (o : ℕ) (s : Namespace σ) : Decidable (a.SameInode E o s) :=
  inferInstanceAs (Decidable (_ ∧ _))

instance (a : RenameCall) (s : Namespace σ) : Decidable (a.Accepted T E s) :=
  inferInstanceAs (Decidable (_ ∧ _ ∧ ∀ o ∈ a.overItem.filter (· ≠ a.item), _))

namespace Namespace

/-- Carry the rename in progress to its end. -/
def finish (steps : Phase → RenameSteps) : ℕ → UpcallReply × Namespace σ → Course σ
  | 0, c => ⟨[], c.1.result, c.2⟩
  | n + 1, c => match c.2.pending with
    | none => ⟨[], c.1.result, c.2⟩
    | some r =>
      let rest := finish steps n (c.2.advance T E (steps r.phase) r)
      { rest with began := c.2 :: rest.began }

/-- `renameItem` from its checks to its return: at most five steps. -/
def renameCall (a : RenameCall) (s : Namespace σ) : Course σ :=
  finish T E a.steps 5 (s.renameItem T E a.item a.dest a.name a.overItem a.uuid a.listed)

end Namespace

variable {T E} {a : RenameCall} {s : Namespace σ} {r : Rename} {o : Victim} {ok : RenameSteps}
  {b : Bool} {u : σ}

/-! ### The checks -/

/-- How `renameItem` begins: it throws, it finds another link of the same file, or it has
checked what it needs. -/
theorem renameItem_begins (T : PathText) (E : NameEngine σ) (a : RenameCall) (s : Namespace σ) :
    (¬ a.Accepted T E s ∧ ∃ calls res,
      s.renameItem T E a.item a.dest a.name a.overItem a.uuid a.listed = (⟨calls, some res⟩, s) ∧
      ((∃ e, res = .error e) ∧ ¬ a.Relinks T E s ∨ res = .ok none ∧ a.Relinks T E s)) ∨
    (a.Accepted T E s ∧ ∃ calls p, (p = .move ∧ (a.rename s).overItem = none ∨
        p = .park ∧ (a.rename s).overItem.isSome) ∧
      s.renameItem T E a.item a.dest a.name a.overItem a.uuid a.listed =
        (⟨calls, none⟩, { s with pending := some { a.rename s with phase := p } })) := by
  unfold Namespace.renameItem RenameCall.Accepted RenameCall.Relinks
  split_ifs with hro
  · exact .inl ⟨fun h => by simp [hro] at h, _, _, rfl, .inl ⟨⟨_, rfl⟩, fun h => by simp [hro] at h⟩⟩
  extract_lets oldPath destPath start
  split_ifs with hguard
  · exact .inl ⟨fun h => h.2.1 hguard, _, _, rfl, .inl ⟨⟨_, rfl⟩, fun h => h.2.1 hguard⟩⟩
  have hwritable : s.readOnly = false := by simpa using hro
  cases ho : a.overItem.filter (· ≠ a.item) with
  | none =>
    have hnone : (a.rename s).overItem = none := by simp only [RenameCall.rename, ho, Option.map_none]
    refine .inr ⟨⟨hwritable, hguard, fun o ho => by cases ho⟩, [], .move, .inl ⟨rfl, hnone⟩, ?_⟩
    exact congrArg (fun r : Rename => ((⟨[], none⟩ : UpcallReply), { s with pending := some r }))
      (congrArg (fun o => ⟨a.item, oldPath, a.dest, destPath, a.name, o, .move⟩) hnone.symm)
  | some o =>
    have hsome : (a.rename s).overItem = some ⟨o, s.pathOf o, .nkOver a.uuid
        (((s.items[o]?).map Item.inode).getD 0)⟩ := by
      simp only [RenameCall.rename, ho, Option.map_some]
    have hlinks : (s.readOnly = false ∧ ¬ a.IntoItself T s ∧ ∃ o' ∈ some o, a.SameInode E o' s) →
        a.SameInode E o s := by
      rintro ⟨-, -, o', ho', h⟩
      exact Option.some.inj ho' ▸ h
    simp only
    split_ifs with hsame hlist hempty
    · exact .inl ⟨fun h => (h.2.2 o rfl).1 hsame, _, _, rfl,
        .inr ⟨rfl, hwritable, hguard, o, rfl, hsame⟩⟩
    · refine .inl ⟨fun h => ?_, _, _, rfl, .inl ⟨⟨_, rfl⟩, fun h => hsame (hlinks h)⟩⟩
      obtain ⟨hshown, hlisted⟩ := (h.2.2 o rfl).2 hlist.1
      rcases hlist.2 with hnone | hno
      · rw [hshown] at hnone
        cases hnone
      · rw [hlisted] at hno
        cases hno
    · refine .inl ⟨fun h => ?_, _, _, rfl, .inl ⟨⟨_, rfl⟩, fun h => hsame (hlinks h)⟩⟩
      have hshown := ((h.2.2 o rfl).2 hempty.1).1
      rw [hempty.2] at hshown
      cases hshown
    · refine .inr ⟨⟨hwritable, hguard, fun o' ho' => ?_⟩, [s.callThrough E a.item oldPath,
        s.callThrough E o (s.pathOf o)], .park, .inr ⟨rfl, by rw [hsome]; rfl⟩, ?_⟩
      · obtain rfl := Option.some.inj ho'
        refine ⟨hsame, fun hdir => ?_⟩
        rw [not_and, not_or] at hlist
        rw [not_and] at hempty
        obtain ⟨hnone, hno⟩ := hlist hdir
        cases hs : E.firstEntry s.tree (s.pathOf o) with
        | none => simp [hs] at hnone
        | some shown =>
          cases shown with
          | false => exact ⟨rfl, by simpa using hno⟩
          | true => exact absurd hs (hempty hdir)
      · exact congrArg (fun r : Rename => ((⟨_, none⟩ : UpcallReply), { s with pending := some r }))
          (congrArg (fun o => ⟨a.item, oldPath, a.dest, destPath, a.name, o, .park⟩) hsome.symm)

/-- The victim is not the renamed file. -/
theorem RenameCall.Accepted.differ (h : a.Accepted T E s) (ho : (a.rename s).overItem = some o)
    {i : ℕ} (hi : E.inodeAt s.tree (a.rename s).oldPath = some i) :
    E.inodeAt s.tree o.path ≠ some i := by
  obtain ⟨c, hc, rfl⟩ := Option.map_eq_some_iff.mp ho
  intro hv
  exact (h.2.2 c hc).1 ⟨by rw [show E.inodeAt s.tree (s.pathOf a.item) = some i from hi]; rfl,
    hi.trans hv.symm⟩

/-- With names compared as the engine does, the destination is not below the item. -/
theorem RenameCall.Accepted.outside (h : a.Accepted .exact E s) (hroot : s.pathOf a.item ≠ []) :
    ¬ s.pathOf a.item <+: s.pathOf a.dest := by
  intro hpre
  have hno := h.2.1
  rw [RenameCall.IntoItself, PathText.exact_form, PathText.exact_form, PathText.exact_beneath, not_or] at hno
  exact hno.2 ⟨hroot, hpre, Ne.symm hno.1⟩

/-! ### The steps -/

theorem advance_park_eq (ho : r.overItem = some o)
    (hr : E.rename ok o.path o.dir o.tmpName s.tree = (b, u)) :
    s.advance T E ok { r with phase := .park } =
      (⟨[s.callThrough E o.item o.path], bif b then none else some (.error .engine)⟩,
        { s with tree := u, pending := bif b then some { r with phase := .move } else none }) := by
  cases b <;> simp [Namespace.advance, ho, hr]

theorem advance_move_eq {replaces : Bool} (ho : r.overItem.isSome = replaces)
    (hr : E.rename ok r.oldPath r.destPath r.newName s.tree = (b, u)) :
    s.advance T E ok { r with phase := .move } =
      (⟨[s.callThrough E r.item r.oldPath, s.callThrough E r.dest r.destPath],
          bif b || replaces then none else some (.error .engine)⟩,
        { s with
          tree := u
          pending := bif b then some { r with phase := bif replaces then .point else .rekey }
            else bif replaces then some { r with phase := .rollback } else none }) := by
  cases b <;> cases replaces <;> simp [Namespace.advance, ho, hr]

theorem advance_rollback_eq (ho : r.overItem = some o)
    (hr : E.rename ok o.parked o.dir o.overName s.tree = (b, u)) :
    s.advance T E ok { r with phase := .rollback } =
      (⟨[s.callThrough E o.item o.parked], some (.error .engine)⟩,
        { s with tree := u, pending := none }) := by
  simp [Namespace.advance, ho, hr]

theorem advance_point_eq (ho : r.overItem = some o) :
    s.advance T E ok { r with phase := .point } = (⟨[], none⟩, { s with
      items := s.items.modify o.item fun it => { it with path := o.parked }
      pending := some { r with phase := .drop } }) := by
  simp [Namespace.advance, ho]

theorem advance_drop_eq (ho : r.overItem = some o) :
    s.advance T E ok { r with phase := .drop } = (⟨[s.callThrough E o.item o.parked], none⟩, { s with
      tree := (E.delete ok.delete o.parked s.tree).2
      pending := some { r with phase := .rekey } }) := by
  simp [Namespace.advance, ho]

theorem advance_rekey_eq : s.advance T E ok { r with phase := .rekey } =
    (⟨[], some (.ok none)⟩, s.rekey T { r with phase := .rekey }) := by
  simp [Namespace.advance]

theorem advance_left {q q' : Rename} (h : (s.advance T E ok q).2.pending = some q') :
    q'.phase.left < q.phase.left := by
  unfold Namespace.advance at h
  cases hp : q.phase <;> cases ho : q.overItem <;> simp only [hp, ho] at h <;>
    try split_ifs at h
  all_goals
    cases h
    try simp [Phase.left]

/-! ### Runs of steps -/

namespace Namespace

theorem finish_done {steps : Phase → RenameSteps} {c : UpcallReply × Namespace σ} {n : ℕ}
    (h : c.2.pending = none) : finish T E steps n c = ⟨[], c.1.result, c.2⟩ := by
  cases n with
  | zero => rfl
  | succ n => simp [finish, h]

theorem finish_next {steps : Phase → RenameSteps} {c : UpcallReply × Namespace σ} {q : Rename}
    {n : ℕ} (h : c.2.pending = some q) : finish T E steps (n + 1) c =
      { finish T E steps n (c.2.advance T E (steps q.phase) q) with
        began := c.2 :: (finish T E steps n (c.2.advance T E (steps q.phase) q)).began } := by
  rw [finish, h]

/-- What a call comes to after a step that goes on. -/
theorem finish_of_next {P : Option (Except Errno (Option ℕ)) → Namespace σ → Prop}
    {steps : Phase → RenameSteps} {c c' : UpcallReply × Namespace σ} {q : Rename} {n : ℕ}
    (h : c.2.pending = some q) (hadv : c.2.advance T E (steps q.phase) q = c')
    (hp : P (finish T E steps n c').result (finish T E steps n c').final) :
    P (finish T E steps (n + 1) c).result (finish T E steps (n + 1) c).final := by
  rw [finish_next h, hadv]
  exact hp

theorem finish_of_done {P : Option (Except Errno (Option ℕ)) → Namespace σ → Prop}
    {steps : Phase → RenameSteps} {c : UpcallReply × Namespace σ} {n : ℕ}
    (h : c.2.pending = none) (hp : P c.1.result c.2) :
    P (finish T E steps n c).result (finish T E steps n c).final := by
  rw [finish_done h]
  exact hp

theorem finish_ends (steps : Phase → RenameSteps) : ∀ n c,
    (∀ q, c.2.pending = some q → q.phase.left ≤ n) →
      (finish T E steps n c).final.pending = none
  | 0, c, h => by
    rw [Option.eq_none_iff_forall_ne_some]
    intro q hq
    have hleft := h q hq
    cases hp : q.phase <;> rw [hp] at hleft <;> simp [Phase.left] at hleft
  | n + 1, c, h => by
    cases hp : c.2.pending with
    | none => rwa [finish_done hp]
    | some q =>
      rw [finish_next hp]
      refine finish_ends steps n _ fun q' hq' => ?_
      have hlt := advance_left hq'
      have hle := h q hp
      omega

/-- One step of a call: `P` holds of the state it begins in, and afterwards `Q` if the call has
ended and `I` if it goes on. -/
structure StepRule (T : PathText) (E : NameEngine σ) (I : Rename → Namespace σ → Prop)
    (P : Namespace σ → Prop) (Q : Option (Except Errno (Option ℕ)) → Namespace σ → Prop)
    (ok : RenameSteps) (r : Rename) (s : Namespace σ) : Prop where
  begins : P s
  ends : (s.advance T E ok r).2.pending = none →
    Q (s.advance T E ok r).1.result (s.advance T E ok r).2
  next : ∀ r', (s.advance T E ok r).2.pending = some r' → I r' (s.advance T E ok r).2

/-- The run rule of a call: what every step keeps holds until the call ends, and every state
in between is as the steps say. `K` is known of the states the steps begin in. -/
theorem finish_rule {I : Rename → Namespace σ → Prop} {P : Namespace σ → Prop}
    (K : Namespace σ → Prop) {Q : Option (Except Errno (Option ℕ)) → Namespace σ → Prop}
    {steps : Phase → RenameSteps}
    (hstep : ∀ r s, s.pending = some r → K s → I r s → StepRule T E I P Q (steps r.phase) r s) :
    ∀ n c, (∀ u ∈ (finish T E steps n c).began, K u) → (∀ r, c.2.pending = some r → I r c.2) →
      (c.2.pending = none → Q c.1.result c.2) →
      (∀ u ∈ (finish T E steps n c).began, P u) ∧
        ((finish T E steps n c).final.pending = none →
          Q (finish T E steps n c).result (finish T E steps n c).final)
  | 0, c, _, _, hq => ⟨fun _ hu => absurd hu List.not_mem_nil, hq⟩
  | n + 1, c, hok, hinv, hq => by
    cases hp : c.2.pending with
    | none =>
      rw [finish_done hp]
      exact ⟨fun _ hu => absurd hu List.not_mem_nil, fun _ => hq hp⟩
    | some r =>
      rw [finish_next hp] at hok ⊢
      have hrule := hstep r c.2 hp (hok _ List.mem_cons_self) (hinv r hp)
      obtain ⟨hrest, hfinal⟩ := finish_rule K hstep n _
        (fun u hu => hok u (List.mem_cons_of_mem _ hu)) hrule.next hrule.ends
      exact ⟨List.forall_mem_cons.mpr ⟨hrule.begins, hrest⟩, hfinal⟩

end Namespace

/-! ### How a call ends -/

/-- The ways in which a call that began in `s` ends: refused, or with nothing to do; with the
victim not parked; with the main rename failed, and the victim, if there is one, renamed back;
and with the bookkeeping done, after the victim has been deleted as far as that worked. -/
inductive RenameCall.Ending (T : PathText) (E : NameEngine σ) (a : RenameCall) (s : Namespace σ) :
    Option (Except Errno (Option ℕ)) → Namespace σ → Prop
  | refused (res : Except Errno (Option ℕ)) (h : ¬ a.Accepted T E s)
      (why : (∃ e, res = .error e) ∧ ¬ a.Relinks T E s ∨ res = .ok none ∧ a.Relinks T E s) :
      Ending T E a s (some res) s
  | unparked {o : Victim} {u : σ} (h : a.Accepted T E s) (item : (a.rename s).overItem = some o)
      (park : E.rename (a.steps .park) o.path o.dir o.tmpName s.tree = (false, u)) :
      Ending T E a s (some (.error .engine)) { s with tree := u }
  | kept {u : σ} (h : a.Accepted T E s) (item : (a.rename s).overItem = none)
      (move : E.rename (a.steps .move) (a.rename s).oldPath (a.rename s).destPath
        (a.rename s).newName s.tree =
        (false, u)) :
      Ending T E a s (some (.error .engine)) { s with tree := u }
  | givenBack {o : Victim} {u v : σ} (h : a.Accepted T E s)
      (item : (a.rename s).overItem = some o)
      (park : E.rename (a.steps .park) o.path o.dir o.tmpName s.tree = (true, u))
      (move : E.rename (a.steps .move) (a.rename s).oldPath (a.rename s).destPath
        (a.rename s).newName u =
        (false, v)) :
      Ending T E a s (some (.error .engine))
        { s with tree := (E.rename (a.steps .rollback) o.parked o.dir o.overName v).2 }
  | moved {u : σ} (h : a.Accepted T E s) (item : (a.rename s).overItem = none)
      (move : E.rename (a.steps .move) (a.rename s).oldPath (a.rename s).destPath
        (a.rename s).newName s.tree =
        (true, u)) :
      Ending T E a s (some (.ok none)) (({ s with tree := u } : Namespace σ).rekey T (a.rename s))
  | replaced {o : Victim} {u v : σ} (h : a.Accepted T E s)
      (item : (a.rename s).overItem = some o)
      (park : E.rename (a.steps .park) o.path o.dir o.tmpName s.tree = (true, u))
      (move : E.rename (a.steps .move) (a.rename s).oldPath (a.rename s).destPath
        (a.rename s).newName u =
        (true, v)) :
      Ending T E a s (some (.ok none))
        (({ s with
          tree := (E.delete (a.steps .drop).delete o.parked v).2
          items := (a.rename s).repointed s.items } : Namespace σ).rekey T (a.rename s))

open Namespace in
theorem renameCall_ending (T : PathText) (E : NameEngine σ) (a : RenameCall) {s : Namespace σ}
    (hidle : s.pending = none) :
    a.Ending T E s (s.renameCall T E a).result (s.renameCall T E a).final := by
  have hfail : ∀ u : σ, ({ s with tree := u } : Namespace σ) = { s with tree := u, pending := none } :=
    fun u => by rw [← hidle]
  unfold Namespace.renameCall
  rcases renameItem_begins T E a s with ⟨h, calls, res, hr, hwhy⟩ | ⟨h, calls, p, hp, hr⟩
  · rw [hr, finish_done hidle]
    exact .refused res h hwhy
  rw [hr]
  rcases hp with ⟨rfl, ho⟩ | ⟨rfl, ho⟩
  · cases hm : E.rename (a.steps .move) (a.rename s).oldPath (a.rename s).destPath a.name s.tree with
    | mk b u =>
      refine finish_of_next rfl (advance_move_eq (r := a.rename s) (by rw [ho]) hm) ?_
      cases b with
      | false => exact finish_of_done rfl (hfail u ▸ .kept h ho hm)
      | true => exact finish_of_next rfl advance_rekey_eq (finish_of_done rfl (.moved h ho hm))
  · obtain ⟨o, ho⟩ := Option.isSome_iff_exists.mp ho
    cases hp : E.rename (a.steps .park) o.path o.dir o.tmpName s.tree with
    | mk b u =>
      refine finish_of_next rfl (advance_park_eq (r := a.rename s) ho hp) ?_
      cases b with
      | false => exact finish_of_done rfl (hfail u ▸ .unparked h ho hp)
      | true =>
        cases hm : E.rename (a.steps .move) (a.rename s).oldPath (a.rename s).destPath a.name u with
        | mk b v =>
          refine finish_of_next rfl (advance_move_eq (r := a.rename s) (by rw [ho]) hm) ?_
          cases b with
          | false =>
            refine finish_of_next rfl (advance_rollback_eq (r := a.rename s) ho rfl) ?_
            exact finish_of_done rfl (hfail _ ▸ .givenBack h ho hp hm)
          | true =>
            refine finish_of_next rfl (advance_point_eq (r := a.rename s) ho) ?_
            refine finish_of_next rfl (advance_drop_eq (r := a.rename s) ho) ?_
            refine finish_of_next rfl advance_rekey_eq (finish_of_done rfl ?_)
            have hend := RenameCall.Ending.replaced h ho hp hm
            rw [Rename.repointed, ho] at hend
            exact hend

end NtfsKit
