import NtfsKit.Volume.PlainNames

/-! An item reaches its own file or nothing, in every run of upcalls in which no removed item
is used once its name is taken again, no I/O goes through the victim of a rename before it
points at its hidden name, and failed renames are rolled back. -/

namespace NtfsKit

open PathTree

namespace Namespace

variable {s : Namespace} {x : ℕ} {e : Upcall}

/-- The engine has renamed a file over this item's, and the item still has the path. -/
def Exposed (s : Namespace) (x : ℕ) : Prop :=
  ∃ r ∈ s.pending, r.phase = .point ∧ ∃ o ∈ r.overItem, o.item = x

/-- No I/O goes through a removed item whose path names a file again, nor through the victim
of a rename in the gap before it points at its hidden name; failed renames are rolled
back. -/
def Sheltered (s : Namespace) : Upcall → Prop
  | .io x => (∀ it ∈ s.items[x]?, it.gone = true → s.tree.inodeAt it.path = none) ∧ ¬ s.Exposed x
  | e => s.RollsBack e

instance (s : Namespace) (x : ℕ) : Decidable (s.Exposed x) :=
  inferInstanceAs (Decidable (∃ r ∈ s.pending, r.phase = .point ∧ ∃ o ∈ r.overItem, o.item = x))

instance (s : Namespace) : ∀ e : Upcall, Decidable (s.Sheltered e)
  | .io x => inferInstanceAs (Decidable ((∀ it ∈ s.items[x]?, it.gone = true →
      s.tree.inodeAt it.path = none) ∧ ¬ s.Exposed x))
  | .advance ok => inferInstanceAs (Decidable (s.RollsBack (.advance ok)))
  | .lookupItem _ _ | .createItem _ _ _ _ _ | .createSymbolicLink _ _ _ | .removeItem _ _
  | .reclaimItem _ | .renameItem _ _ _ _ _ _ => inferInstanceAs (Decidable True)

theorem Sheltered.rollsBack (h : s.Sheltered e) : s.RollsBack e := by
  cases e with
  | io x => trivial
  | _ => exact h

theorem renameItem_result (dest : ℕ) (name : Name) (overItem : Option ℕ) (uuid : ℕ) (listed : Bool)
    (y : ℕ) : (s.renameItem .exact treeEngine x dest name overItem uuid listed).1.result ≠
      some (.ok (some y)) := by
  unfold renameItem
  extract_lets
  split_ifs
  · simp
  · simp
  split
  · simp
  · simp only
    split_ifs <;> simp

theorem advance_result (ok : RenameSteps) (r : Rename) (y : ℕ) :
    (s.advance .exact treeEngine ok r).1.result ≠ some (.ok (some y)) := by
  unfold advance
  extract_lets
  split
  · simp only
    split_ifs <;> simp
  · split_ifs <;> simp
  all_goals simp

/-- Every step keeps the invariant. -/
theorem step_good (h : s.Good) (hok : s.Allowed .exact e) (hback : s.RollsBack e) :
    (s.step .exact e).2.Good ∧
      ∀ y, (s.step .exact e).1.result = some (.ok (some y)) → (s.step .exact e).2.HandedOut y := by
  cases e with
  | lookupItem dir name =>
    exact (lookupItem_settles hok.1 ((good_none hok.1).mp h) dir name).2
  | createItem dir name kind made closed =>
    have hidle := (good_none hok.1).mp h
    simp only [step, createItem]
    split_ifs
    · exact (settles_of_idle hok.1 hidle (by simp)).2
    · exact (create_settles hok.1 hidle dir hok.2.2 kind made closed).2
  | createSymbolicLink dir name made =>
    exact (create_settles hok.1 ((good_none hok.1).mp h) dir hok.2.2 .symlink made true).2
  | removeItem x ok => exact (removeItem_settles hok.1 ((good_none hok.1).mp h) hok.2 ok).2
  | reclaimItem x => exact (reclaimItem_settles hok.1 ((good_none hok.1).mp h) hok.2).2
  | renameItem x dest name overItem uuid listed =>
    have hidle := (good_none hok.1).mp h
    refine ⟨renameItem_good hok.1 hidle hok, fun y hy => ?_⟩
    exact absurd hy (renameItem_result dest name overItem uuid listed y)
  | advance ok =>
    cases hr : s.pending with
    | none => exact absurd hr hok
    | some r =>
      simp only [step, hr]
      exact ⟨advance_good hr h hback, fun y hy => absurd hy (advance_result ok r y)⟩
  | io x => exact ⟨h, by simp [step]⟩

/-! ### Calls through items -/

/-- An item in use reaches its own file or nothing, unless it is exposed. -/
theorem Good.own (h : s.Good) {it : Item} (hi : s.items[x]? = some it) (hg : it.gone = false)
    (hx : ¬ s.Exposed x) : it.Own s.tree := by
  cases hr : s.pending with
  | none => exact ((good_none hr).mp h).own hi hg
  | some r =>
    obtain ⟨t, items, hB, hS⟩ := (good_some hr).mp h
    -- an item by its record while the victim points at its hidden name
    have hlate : Carried t s.tree s.nextInode s.itemByPath r → s.items = r.repointed items →
        it.Own s.tree := by
      intro hcar hitems
      rw [hitems] at hi
      obtain ⟨jt, hj, ⟨o, ho, rfl, rfl⟩ | ⟨hov, rfl⟩⟩ := repointed_lookup.mp hi
      · have v := hB.victim o ho
        obtain ⟨kt, u, hk, htok⟩ := v.token
        rw [hj] at hk
        obtain rfl := Option.some.inj hk
        have hparked : Item.Parked { jt with path := o.parked } :=
          ⟨r.destPath, u, by rw [v.parked_eq, htok]⟩
        exact hparked.own hcar.wf
      · exact hcar.own hB hj hg hov
    cases hphase : r.phase <;> simp only [Rename.Stage, hphase] at hS
    case park =>
      obtain ⟨rfl, rfl⟩ := hS
      exact hB.idle.own hi hg
    case move =>
      obtain ⟨htree, rfl⟩ := hS
      rw [htree]
      exact hB.own_parked hi hg
    case rollback =>
      obtain ⟨htree, rfl, -⟩ := hS
      rw [htree]
      exact hB.own_parked hi hg
    case point =>
      obtain ⟨hcar, rfl, -⟩ := hS
      refine hcar.own hB hi hg fun o ho hc => hx ⟨r, hr, hphase, o, ho, hc.symm⟩
    case drop => exact hlate hS.1 hS.2.1
    case rekey => exact hlate hS.1 hS.2

end Namespace

/-- The call resolved to the file of the item it was made through, or to none. -/
def EngineCall.Own (c : EngineCall) (s : Namespace) : Prop :=
  c.resolved = none ∨ ∃ it ∈ s.items[c.item]?, c.resolved = some it.inode

namespace Namespace

variable {s : Namespace} {x : ℕ} {e : Upcall}

theorem callThrough_own {it : Item} (hi : s.items[x]? = some it) {p : Path} (hp : it.path = p)
    (ho : it.Own s.tree) : (s.callThrough treeEngine x p).Own s := by
  subst hp
  rcases ho with ho | ho
  · exact .inl ho
  · exact .inr ⟨it, hi, ho⟩

/-- A call through an item in use, outside a rename. -/
theorem Live.own (hx : s.Live x) (hp : s.pending = none) (h : s.Good) :
    (s.callThrough treeEngine x (s.pathOf x)).Own s := by
  obtain ⟨it, hi, hg, hpath⟩ := hx.lookup
  exact callThrough_own hi hpath.symm (((good_none hp).mp h).own hi hg)

/-- The calls of `renameItem` before it changes names. -/
theorem renameItem_calls (h : s.Good) {dest uuid : ℕ} {name : Name} {overItem : Option ℕ}
    {listed : Bool} (hok : s.Allowed .exact (.renameItem x dest name overItem uuid listed)) :
    ∀ c ∈ (s.renameItem .exact treeEngine x dest name overItem uuid listed).1.calls, c.Own s := by
  obtain ⟨hp, hx, -, -, -, hover, -⟩ := hok
  have hidle := (good_none hp).mp h
  unfold renameItem
  extract_lets
  split_ifs
  · simp
  · simp
  split
  · simp
  · rename_i o hf
    have hov : overItem = some o := (Option.filter_eq_some_iff.mp hf).1
    have hcached := (SwapTable.find_eq_some hidle.distinct).mp
      (PathText.exact_find.symm.trans (hover ▸ hov))
    obtain ⟨it, hi, -, hg, -⟩ := hidle.cached _ o hcached
    have hlive : s.Live o := ⟨it, hi, hg⟩
    have hcalls : ∀ c ∈ [s.callThrough treeEngine x (s.pathOf x),
        s.callThrough treeEngine o (s.pathOf o)], c.Own s := by
      simp only [List.mem_cons, List.not_mem_nil, or_false, forall_eq_or_imp, forall_eq]
      exact ⟨hx.own hp h, hlive.own hp h⟩
    simp only
    split_ifs <;> exact hcalls

theorem not_exposed {r : Rename} (hr : s.pending = some r) (hphase : r.phase ≠ .point) :
    ¬ s.Exposed x := by
  rintro ⟨r', hr', hp, -⟩
  rw [hr] at hr'
  rw [Option.mem_some_iff.mp hr'] at hphase
  exact hphase hp

/-- The calls of the later steps of `renameItem`. -/
theorem advance_calls {r : Rename} (hr : s.pending = some r) (h : s.Good) (ok : RenameSteps) :
    ∀ c ∈ (s.advance .exact treeEngine ok r).1.calls, c.Own s := by
  obtain ⟨t, items, hB, hS⟩ := (good_some hr).mp h
  -- the hidden name belongs to the victim's inode
  have htmp : ∀ o, r.overItem = some o → s.tree.Wf s.nextInode →
      (s.items = items ∨ s.items = r.repointed items) →
      (s.callThrough treeEngine o.item o.parked).Own s := by
    intro o ho hw hitems
    have v := hB.victim o ho
    obtain ⟨it, u, hi, htok⟩ := v.token
    have hfind : ∃ jt, s.items[o.item]? = some jt ∧ jt.inode = it.inode := by
      rcases hitems with hitems | hitems
      · exact ⟨it, by rw [hitems, hi], rfl⟩
      · refine ⟨{ it with path := o.parked }, ?_, rfl⟩
        rw [hitems, repointed_lookup]
        exact ⟨it, hi, .inl ⟨o, ho, rfl, rfl⟩⟩
    obtain ⟨jt, hj, hinode⟩ := hfind
    have hparked : o.parked = r.destPath ++ [.nkOver u it.inode] := by rw [v.parked_eq, htok]
    rcases hw.parkedAt hparked with hn | hn
    · exact .inl hn
    · exact .inr ⟨jt, hj, by rw [hinode]; exact hn⟩
  cases hphase : r.phase <;> simp only [Rename.Stage, hphase] at hS
  case park =>
    obtain ⟨-, rfl⟩ := hS
    simp only [advance, hphase]
    cases ho : r.overItem with
    | none => simp
    | some o =>
      have v := hB.victim o ho
      obtain ⟨it, hi, hp, hg, -⟩ := hB.idle.cached _ _ v.cached
      have hcall : (s.callThrough treeEngine o.item o.path).Own s :=
        callThrough_own hi (hp.trans v.path.symm)
        (h.own hi hg (not_exposed hr (by rw [hphase]; decide)))
      simp only
      split_ifs <;> simpa using hcall
  case move =>
    obtain ⟨-, rfl⟩ := hS
    obtain ⟨it, hi, hp, hg⟩ := hB.item
    obtain ⟨jt, hj, hq, hg'⟩ := hB.dest
    have hno : ∀ y, ¬ s.Exposed y := fun y => not_exposed hr (by rw [hphase]; decide)
    have hcalls : ∀ c ∈ [s.callThrough treeEngine r.item r.oldPath,
        s.callThrough treeEngine r.dest r.destPath],
        c.Own s := by
      simp only [List.mem_cons, List.not_mem_nil, or_false, forall_eq_or_imp, forall_eq]
      exact ⟨callThrough_own hi hp (h.own hi hg (hno _)), callThrough_own hj hq (h.own hj hg' (hno _))⟩
    simp only [advance, hphase]
    split_ifs <;> exact hcalls
  case rollback =>
    obtain ⟨htree, hitems, ho⟩ := hS
    obtain ⟨o, ho⟩ := Option.isSome_iff_exists.mp ho
    simpa [advance, hphase, ho] using htmp o ho (htree ▸ hB.wf_parked) (.inl hitems)
  case point =>
    obtain ⟨-, -, ho⟩ := hS
    obtain ⟨o, ho⟩ := Option.isSome_iff_exists.mp ho
    simp [advance, hphase, ho]
  case drop =>
    obtain ⟨hcar, hitems, ho⟩ := hS
    obtain ⟨o, ho⟩ := Option.isSome_iff_exists.mp ho
    simpa [advance, hphase, ho] using htmp o ho hcar.wf (.inr hitems)
  case rekey => simp [advance, hphase]

/-- Every call of an allowed, sheltered upcall. -/
theorem step_calls (h : s.Good) (hok : s.Allowed .exact e) (hs : s.Sheltered e) :
    ∀ c ∈ (s.step .exact e).1.calls, c.Own s := by
  have hone : ∀ {y : ℕ}, s.Live y → s.pending = none →
      ∀ c ∈ [s.callThrough treeEngine y (s.pathOf y)], c.Own s := fun hy hp c hc => by
    rw [List.mem_singleton.mp hc]
    exact hy.own hp h
  have hcreate : ∀ dir name kind made closed, s.Live dir → s.pending = none →
      ∀ c ∈ (s.create .exact dir name kind made closed).1.calls, c.Own s := by
    intro dir name kind made closed hd hp
    unfold create
    extract_lets
    split_ifs
    · simp
    · exact hone hd hp
    · exact hone hd hp
  cases e with
  | lookupItem dir name =>
    simp only [step, lookupItem]
    split <;> exact hone hok.2 hok.1
  | createItem dir name kind made closed =>
    simp only [step, createItem]
    split_ifs
    · simp
    · exact hcreate dir name kind made closed hok.2.1 hok.1
  | createSymbolicLink dir name made => exact hcreate dir name .symlink made true hok.2.1 hok.1
  | removeItem x ok =>
    simp only [step, removeItem]
    split_ifs
    · simp
    · exact hone hok.2 hok.1
    · exact hone hok.2 hok.1
  | reclaimItem x => simp [step, reclaimItem]
  | renameItem x dest name overItem uuid listed => exact renameItem_calls h hok
  | advance ok =>
    cases hr : s.pending with
    | none => exact absurd hr hok
    | some r =>
      simp only [step, hr]
      exact advance_calls hr h ok
  | io x =>
    obtain ⟨it, hi⟩ : ∃ it, s.items[x]? = some it := ⟨_, List.getElem?_eq_getElem hok⟩
    have hpath : it.path = s.pathOf x := by
      rw [pathOf, hi]
      rfl
    have hown : it.Own s.tree := by
      cases hg : it.gone with
      | true => exact .inl (hs.1 it hi hg)
      | false => exact h.own hi hg hs.2
    simpa [step] using callThrough_own hi hpath hown

end Namespace

/-! ### Runs -/

theorem mounted_good (readOnly : Bool) {t : Tree} {b root : ℕ} (ht : t.Wf b)
    (hroot : node t [] = some ⟨root, .directory⟩) : (Namespace.mounted readOnly t b root).Good := by
  rw [Namespace.good_none rfl]
  have hitem : ∀ {c : ℕ} {it : Item}, (Namespace.mounted readOnly t b root).items[c]? = some it →
      c = 0 ∧ it = ⟨[], .directory, 2, root, false⟩ := by
    intro c it hi
    simp only [Namespace.mounted, List.getElem?_singleton] at hi
    split_ifs at hi with hc
    exact ⟨hc, (Option.some.inj hi).symm⟩
  refine ⟨ht, by simp [SwapTable.Distinct, Namespace.mounted], ?_, ?_, ?_, ?_⟩
  · intro p c hc
    obtain ⟨rfl, rfl⟩ : p = [] ∧ c = 0 := by simpa [Namespace.mounted] using hc
    refine ⟨_, rfl, rfl, rfl, ?_⟩
    rw [Tree.inodeAt]
    simp [Namespace.mounted, hroot]
  · intro c it hi _
    obtain ⟨rfl, rfl⟩ := hitem hi
    exact .inl (by simp [Namespace.mounted])
  · intro c it p i hi hn hnum
    obtain ⟨rfl, rfl⟩ := hitem hi
    by_cases hp : p = []
    · rw [hp, show (Namespace.mounted readOnly t b root).tree = t from rfl, hroot] at hn
      rw [← Option.some.inj hn]
    · exact (ht.single p [] i _ hn hroot hnum hp).1
  · intro c it hi
    obtain ⟨rfl, rfl⟩ := hitem hi
    exact ht.bound [] _ hroot

/-- What holds along every run whose failed renames are rolled back. -/
theorem good_of_run {readOnly : Bool} {t : Tree} {b root : ℕ} (ht : t.Wf b)
    (hroot : node t [] = some ⟨root, .directory⟩) {s : Namespace}
    (hrun : Run (Namespace.step .exact) (fun s e _ => s.Allowed .exact e ∧ s.RollsBack e)
      (.mounted readOnly t b root) s) : s.Good := by
  have hstep : ∀ (s : Namespace) (e : Upcall), s.Good → s.Allowed .exact e ∧ s.RollsBack e →
      (s.step .exact e).2.Good := fun s e h hok => (Namespace.step_good h hok.1 hok.2).1
  exact Run.invariant hstep hrun (mounted_good readOnly ht hroot)

/-- An empty volume. -/
def rootOnly : Tree := [([], ⟨5, .directory⟩)]

theorem node_rootOnly {p : Path} {i : Inode} (h : node rootOnly p = some i) :
    p = [] ∧ i = ⟨5, .directory⟩ := by
  rw [rootOnly, node_cons] at h
  split_ifs at h with hp
  · exact ⟨hp.symm, (Option.some.inj h).symm⟩
  · cases h

theorem rootOnly_wf : rootOnly.Wf 64 where
  parent p n hs := by
    obtain ⟨i, hi⟩ := Option.isSome_iff_exists.mp hs
    exact absurd (node_rootOnly hi).1 (by simp)
  single p q i j hi hj _ hne := by
    exact absurd ((node_rootOnly hi).1.trans (node_rootOnly hj).1.symm) hne
  token p u i j hj := absurd (node_rootOnly hj).1 (by simp)
  bound p i hi := by
    rw [(node_rootOnly hi).2]
    decide

/-- A run of upcalls from an empty volume. -/
def fromEmpty (T : PathText) (es : List Upcall) : Namespace :=
  execAll (Namespace.step T) es (.mounted false rootOnly 64 5)

/-- Two files, and the first renamed over the second, up to its last `n` steps. -/
def renamedOver (n : ℕ) : Namespace := fromEmpty .accented <|
  [.createItem 0 (.plain "a") .file true true, .createItem 0 (.plain "b") .file true true,
    .renameItem 1 0 (.plain "b") (some 2) 7 true] ++
  (List.replicate 5 (.advance ⟨true, true, true⟩)).take (5 - n)

/-- A file is created, removed and created again under its name. -/
def nameTakenAgain : Namespace :=
  fromEmpty .accented [.createItem 0 (.plain "a") .file true true, .removeItem 1 true,
    .createItem 0 (.plain "a") .file true true]

-- the victim of a rename, just after the engine's rename
example : ((renamedOver 3).step .accented (.io 2)).1.calls = [⟨2, [.plain "b"], some 64⟩] := by
  decide +kernel

/-- A directory with a file whose name begins with the accent, renamed. -/
def leftBehind : Namespace := fromEmpty .accented
  [.createItem 0 (.plain "d") .directory true true, .createItem 1 (.plain "\u0301x") .file true true,
    .renameItem 1 0 (.plain "e") none 7 true, .advance ⟨true, true, true⟩,
    .advance ⟨true, true, true⟩]

-- the file's path does not have the prefix `/d/` and is not rewritten
example : (leftBehind.step .accented (.io 2)).1.calls =
    [⟨2, [.plain "d", .plain "\u0301x"], none⟩] ∧
    leftBehind.tree.inodeAt [.plain "e", .plain "\u0301x"] = some 65 := by
  decide +kernel

end NtfsKit
