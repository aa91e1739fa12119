import NtfsKit.Volume.PlainNames
import NtfsKit.Volume.DirGraph

/-! Lookups and renames on a volume whose entries have DOS aliases. `renameItem` refuses a
move into the item's own subtree by comparing the cached paths. The engine follows aliases,
so a path through an alias passes the comparison and still ends below the item. So does a path
on which the name after the item's begins with a combining mark: the mark joins the slash the
comparison looks for. -/

namespace NtfsKit

open Relation

/-- The volume's tables over directories whose entries have aliases. -/
abbrev AliasedVolume := Namespace DirGraph

inductive AliasedCall
  | lookupItem (dir : ℕ) (name : Name)
  | renameItem (a : RenameCall)

namespace AliasedVolume

variable (T : PathText)

def step (s : AliasedVolume) : AliasedCall → Option (Except Errno (Option ℕ)) × AliasedVolume
  | .lookupItem dir name => (s.lookupItem T DirGraph.engine dir name).map UpcallReply.result id
  | .renameItem a =>
    ((s.renameCall T DirGraph.engine a).result, (s.renameCall T DirGraph.engine a).final)

/-! ### The rule -/

/-- No name has been made with this UUID. -/
def Unused (s : AliasedVolume) (uuid : ℕ) : Prop :=
  (∀ e ∈ s.tree.entries, e.name.drawn uuid = false ∧ ∀ n ∈ e.dosName, n.drawn uuid = false) ∧
    ∀ it ∈ s.items, ∀ n ∈ it.path, n.drawn uuid = false

/-- Wherever the destination's path runs through the directory that is renamed, it does so
under the item's own path, up to canonical equivalence, and the name that follows does not join
the slash in front of it. -/
def Spelled (g : DirGraph) (old dest : Path) : Prop :=
  ∀ x ∈ g.resolve old, x ∈ g.dirs → ∀ q ∈ dest.inits, g.resolve q = some x →
    T.form q = T.form old ∧ ∀ n ∈ dest[q.length]?, T.joins (T.canon n) = false

/-- A UUID is drawn once; the destination spells the renamed directory as the item does; a
directory that could not be renamed does not keep its new name. -/
def Sound (s : AliasedVolume) : AliasedCall → Prop
  | .lookupItem _ _ => True
  | .renameItem a =>
    let r := a.rename s
    s.Unused a.uuid ∧ (r.oldPath ≠ [] → Spelled T s.tree r.oldPath r.destPath) ∧
      s.tree.Undone (a.steps .move) r.oldPath ∧
      ∀ o ∈ r.overItem, s.tree.Undone (a.steps .park) o.path ∧
        s.tree.Undone (a.steps .rollback) o.path

instance (s : AliasedVolume) (uuid : ℕ) : Decidable (s.Unused uuid) :=
  inferInstanceAs (Decidable ((∀ e ∈ s.tree.entries, e.name.drawn uuid = false ∧
    ∀ n ∈ e.dosName, n.drawn uuid = false) ∧
    ∀ it ∈ s.items, ∀ n ∈ it.path, n.drawn uuid = false))

instance (g : DirGraph) (old dest : Path) : Decidable (Spelled T g old dest) :=
  inferInstanceAs (Decidable (∀ x ∈ g.resolve old, x ∈ g.dirs →
    ∀ q ∈ dest.inits, g.resolve q = some x →
      T.form q = T.form old ∧ ∀ n ∈ dest[q.length]?, T.joins (T.canon n) = false))

instance (s : AliasedVolume) : ∀ e : AliasedCall, Decidable (s.Sound T e)
  | .lookupItem _ _ => inferInstanceAs (Decidable True)
  | .renameItem a => inferInstanceAs (Decidable (s.Unused a.uuid ∧
      ((a.rename s).oldPath ≠ [] → Spelled T s.tree (a.rename s).oldPath (a.rename s).destPath) ∧
      s.tree.Undone (a.steps .move) (a.rename s).oldPath ∧
      ∀ o ∈ (a.rename s).overItem, s.tree.Undone (a.steps .park) o.path ∧
        s.tree.Undone (a.steps .rollback) o.path))

/-! ### One call -/

variable {T} {g g' : DirGraph} {old dest p : Path}

/-- A destination that is spelled so and passes the comparison is not below the item. -/
theorem Spelled.outside (hs : Spelled T g old dest) (h : g.Rooted) (hne : old ≠ [])
    (hguard : ¬ (T.form dest = T.form old ∨ T.Beneath old dest)) : g.Outside old dest := by
  intro x d hx hd hxd hdd hbelow
  obtain ⟨q, hq, hres⟩ := h.passes hd hdd hbelow
  obtain ⟨hform, hjoins⟩ := hs x hx hxd q ((List.mem_inits q dest).mpr hq) hres
  exact hguard (PathText.beneath_of_form hne hform hq hjoins)

/-- The directories once a victim is parked: the same, with its entry under the hidden name. -/
structure Parked (g g' : DirGraph) (o : Victim) : Prop where
  rooted : g'.Rooted
  dirs : g'.dirs = g.dirs
  /-- Whatever resolves without the hidden name did so before. -/
  before : ∀ p x, o.tmpName ∉ p → g'.resolve p = some x → g.resolve p = some x
  /-- The hidden name is the victim's only. -/
  hidden : ∀ f ∈ g'.entries, f.Spells o.tmpName → g.resolve o.path = some f.inode

theorem walk_before (h : g.Rooted) {n : Name} (hnew : ∀ f ∈ g'.entries, f ∈ g.entries ∨
    ∀ k, f.Spells k → k = n) : ∀ (p : Path) (m x : ℕ), n ∉ p → g'.walk m p = some x →
      g.walk m p = some x
  | [], _, _, _, hw => hw
  | k :: p, m, x, hn, hw => by
    obtain ⟨f, hf, hrest⟩ := Option.bind_eq_some_iff.mp hw
    obtain ⟨hmem, rfl, hs⟩ := DirGraph.lookup_mem hf
    obtain ⟨hk, hp⟩ : n ≠ k ∧ n ∉ p := by simpa using hn
    rcases hnew f hmem with hold | honly
    · simp only [DirGraph.walk, h.lookup_eq hold hs, Option.bind_some]
      exact walk_before h hnew p _ x hp hrest
    · exact absurd (honly k hs).symm hk

theorem parked_of_ok (h : g.Rooted) {o : Victim} {ok : RenameSteps} (hundo : g.Undone ok o.path)
    (hunused : ∀ e ∈ g.entries, ¬ e.Spells o.tmpName)
    (hok : (g.nkRename ok o.path o.dir o.tmpName).1 = true) :
    Parked g (g.nkRename ok o.path o.dir o.tmpName).2 o := by
  have hroot : (g.nkRename ok o.path o.dir o.tmpName).2.Rooted :=
    h.nkRename (fun hne => h.outside_sibling hne) hundo
  rcases DirGraph.nkRename_cases ok o.path o.dir o.tmpName g
    with hsame | ⟨x, d, hx, -, -, hl, hcase⟩
  · rw [hsame]
    exact ⟨h, rfl, fun p x _ hp => hp, fun f hf hs => absurd hs (hunused f hf)⟩
  rcases hcase with ⟨e, he, -, hinode, -, hmove⟩ | ⟨-, -, hlink⟩
  · rw [hmove] at hroot ⊢
    have hmem := fun f => (DirGraph.mem_move (f := f) (x := x) hl he).mp
    refine ⟨hroot, DirGraph.dirs_move hl he hinode, fun p y hp hy => ?_, fun f hf hs => ?_⟩
    · refine walk_before h (fun f hf => ?_) p g.root y hp hy
      rcases hmem f hf with ⟨hf, -⟩ | rfl
      · exact .inl hf
      · refine .inr ?_
        rintro k (hk | hk)
        · exact hk.symm
        · cases hk
    · rcases hmem f hf with ⟨hf, -⟩ | rfl
      · exact absurd hs (hunused f hf)
      · exact hx
  · rw [hlink] at hok
    cases hok

/-- A victim that is renamed back after a failed move is where it was, or still parked. -/
theorem givenBack_rooted {move back : RenameSteps} {name : Name} {o : Victim}
    (hmove : g.Undone move old) (hm : g.nkRename move old dest name = (false, g'))
    (hroot : g'.Rooted)
    (hback : ∀ f ∈ g.entries, f.Spells o.tmpName → f.inode ∈ g.dirs →
      back.undo = true ∨ back.delete = true) :
    (g'.nkRename back o.parked o.dir o.overName).2.Rooted := by
  have hparent : o.parked.dropLast = o.dir := by simp [Victim.parked]
  obtain ⟨hdirs, hold⟩ := DirGraph.nkRename_failed hmove (congrArg Prod.fst hm)
  rw [hm] at hdirs hold
  refine hroot.nkRename (fun hne => hparent ▸ hroot.outside_sibling hne) fun x hx hxd => ?_
  -- the hidden name is an entry from before the move
  obtain ⟨m, f, -, hf, rfl⟩ := DirGraph.resolve_eq_some hx
  obtain ⟨hmem, -, hs⟩ := DirGraph.lookup_mem hf
  rw [hdirs] at hxd
  rcases hback f (hold f hmem hxd) hs hxd with hu | hd
  · exact .inl hu
  · exact .inr ⟨hd, by simp [Victim.parked]⟩

theorem Unused.entries {s : AliasedVolume} {uuid i : ℕ} (h : s.Unused uuid) {e : Entry}
    (he : e ∈ s.tree.entries) : ¬ e.Spells (.nkOver uuid i) := by
  obtain ⟨hname, hdos⟩ := h.1 e he
  rintro (hn | hn)
  · rw [hn] at hname
    simp [Name.drawn] at hname
  · have := hdos _ hn
    simp [Name.drawn] at this

theorem Unused.path {s : AliasedVolume} {uuid i : ℕ} (h : s.Unused uuid) (x : ℕ) :
    Name.nkOver uuid i ∉ s.pathOf x := by
  intro hmem
  unfold Namespace.pathOf at hmem
  cases hx : s.items[x]? with
  | none => simp [hx] at hmem
  | some it =>
    rw [hx] at hmem
    have := h.2 it (List.mem_of_getElem? hx) _ hmem
    simp [Name.drawn] at this

section

variable {s : AliasedVolume} {a : RenameCall} {o : Victim}

/-- What parking the victim leaves of the rule. -/
theorem parked_sound (h : s.tree.Rooted) (hok : s.Sound T (.renameItem a))
    (ho : (a.rename s).overItem = some o)
    (hp : s.tree.nkRename (a.steps .park) o.path o.dir o.tmpName = (true, g)) :
    Parked s.tree g o ∧ o.tmpName ∉ s.pathOf a.item ∧ o.tmpName ∉ s.pathOf a.dest := by
  obtain ⟨i, htmp⟩ : ∃ i, o.tmpName = .nkOver a.uuid i := by
    obtain ⟨c, -, rfl⟩ := Option.map_eq_some_iff.mp ho
    exact ⟨_, rfl⟩
  obtain ⟨hunused, -, -, hover⟩ := hok
  have hparked := parked_of_ok h (hover o ho).1 (fun e he => htmp ▸ hunused.entries he)
    (congrArg Prod.fst hp)
  rw [hp] at hparked
  exact ⟨hparked, htmp ▸ hunused.path _, htmp ▸ hunused.path _⟩

/-- With the victim parked, the rule for the main rename is as it was. -/
theorem parked_move (hok : s.Sound T (.renameItem a)) (hp : Parked s.tree g o)
    (hold : o.tmpName ∉ s.pathOf a.item) (hdest : o.tmpName ∉ s.pathOf a.dest) :
    ((a.rename s).oldPath ≠ [] → Spelled T g (a.rename s).oldPath (a.rename s).destPath) ∧
      g.Undone (a.steps .move) (a.rename s).oldPath := by
  refine ⟨fun hne x hx hxd q hq hres => ?_, fun x hx hxd => ?_⟩
  · have hpre := (List.mem_inits q _).mp hq
    refine hok.2.1 hne x (hp.before _ _ hold hx) (hp.dirs ▸ hxd) q hq (hp.before _ _ ?_ hres)
    exact fun hm => hdest (hpre.subset hm)
  · exact hok.2.2.1 x (hp.before _ _ hold hx) (hp.dirs ▸ hxd)

/-- A rename that meets the rule keeps the tree, however it ends. -/
theorem renameCall_rooted (h : s.tree.Rooted) (hidle : s.pending = none)
    (hok : s.Sound T (.renameItem a)) :
    (s.renameCall T DirGraph.engine a).final.tree.Rooted ∧
      (s.renameCall T DirGraph.engine a).final.pending = none := by
  have hend := renameCall_ending T DirGraph.engine a hidle
  generalize (s.renameCall T DirGraph.engine a).result = res at hend
  generalize (s.renameCall T DirGraph.engine a).final = t at hend ⊢
  have hout : ∀ {g : DirGraph}, g.Rooted → a.Accepted T DirGraph.engine s →
      ((a.rename s).oldPath ≠ [] → Spelled T g (a.rename s).oldPath (a.rename s).destPath) →
      (a.rename s).oldPath ≠ [] → g.Outside (a.rename s).oldPath (a.rename s).destPath :=
    fun hg hacc hspell hne => (hspell hne).outside hg hne hacc.2.1
  cases hend with
  | refused res hno => exact ⟨h, hidle⟩
  | @unparked o u hacc ho hpark =>
    exact ⟨h.renamed hpark (fun hne => h.outside_sibling hne) (hok.2.2.2 o ho).1, hidle⟩
  | @kept u hacc ho hm => exact ⟨h.renamed hm (hout h hacc hok.2.1) hok.2.2.1, hidle⟩
  | @givenBack o u v hacc ho hpark hm =>
    obtain ⟨hp, hold, hdest⟩ := parked_sound h hok ho hpark
    obtain ⟨hspell, hmove⟩ := parked_move hok hp hold hdest
    have hroot : v.Rooted := hp.rooted.renamed hm (hout hp.rooted hacc hspell) hmove
    refine ⟨givenBack_rooted hmove hm hroot fun f hf hs hxd => ?_, hidle⟩
    rcases (hok.2.2.2 o ho).2 _ (hp.hidden f hf hs) (hp.dirs ▸ hxd) with hu | ⟨hd, -⟩
    · exact .inl hu
    · exact .inr hd
  | @moved u hacc ho hm =>
    refine ⟨?_, rfl⟩
    rw [rekey_tree]
    exact h.renamed hm (hout h hacc hok.2.1) hok.2.2.1
  | @replaced o u v hacc ho hpark hm =>
    obtain ⟨hp, hold, hdest⟩ := parked_sound h hok ho hpark
    obtain ⟨hspell, hmove⟩ := parked_move hok hp hold hdest
    have hroot : v.Rooted := hp.rooted.renamed hm (hout hp.rooted hacc hspell) hmove
    refine ⟨?_, rfl⟩
    rw [rekey_tree]
    exact hroot.nkDelete _ _

end

theorem step_rooted {s : AliasedVolume} {e : AliasedCall}
    (h : s.tree.Rooted ∧ s.pending = none) (hok : s.Sound T e) :
    (s.step T e).2.tree.Rooted ∧ (s.step T e).2.pending = none := by
  cases e with
  | lookupItem dir name =>
    simp only [step, Namespace.lookupItem, Prod.map_snd, id_eq]
    cases DirGraph.engine.stat s.tree (s.pathOf dir ++ [name]) with
    | none => exact h
    | some i =>
      simp only [Namespace.itemFor_tree, Namespace.itemFor_pending]
      exact h
  | renameItem a => exact renameCall_rooted h.1 h.2 hok

end AliasedVolume

/-- In every run of lookups and renames whose renames spell the destination as the item, no
directory is below itself and every directory is below the root. -/
theorem renames_make_no_cycle {T : PathText} {s₀ s : AliasedVolume} (h : s₀.tree.Rooted)
    (hidle : s₀.pending = none)
    (hrun : Run (AliasedVolume.step T) (fun s e _ => s.Sound T e) s₀ s) :
    (∀ d, ¬ TransGen s.tree.Parent d d) ∧
      ∀ d ∈ s.tree.dirs, ReflTransGen s.tree.Parent s.tree.root d := by
  have hstep : ∀ (s : AliasedVolume) (e : AliasedCall), s.tree.Rooted ∧ s.pending = none →
      s.Sound T e → (s.step T e).2.tree.Rooted ∧ (s.step T e).2.pending = none :=
    fun s e h hok => AliasedVolume.step_rooted h hok
  obtain ⟨hinv, -⟩ := Run.invariant hstep hrun ⟨h, hidle⟩
  refine ⟨fun d hc => ?_, hinv.forest.reach⟩
  obtain ⟨b, hb⟩ := TransGen.head'_iff.mp hc
  obtain ⟨⟨e, he, rfl, -⟩, -⟩ := hb
  exact hinv.forest.acyclic (hinv.in_dirs e he) hc

/-- Without aliases a directory has one path, so the rule asks only that no name on the
destination's path joins a slash. -/
theorem DirGraph.Rooted.spelled {T : PathText} {g : DirGraph} (h : g.Rooted)
    (hno : ∀ e ∈ g.entries, e.inode ∈ g.dirs → e.dosName = none) (old : Path) {dest : Path}
    (hjoins : ∀ n ∈ dest, T.joins (T.canon n) = false) : AliasedVolume.Spelled T g old dest := by
  have honly : ∀ (p q : Path) (x : ℕ), x ∈ g.dirs → g.resolve p = some x → g.resolve q = some x →
      q = p := by
    intro p
    induction p using List.reverseRecOn with
    | nil =>
      intro q x _ hp hq
      obtain rfl : g.root = x := Option.some.inj hp
      rcases List.eq_nil_or_concat q with rfl | ⟨q, k, rfl⟩
      · rfl
      · rw [List.concat_eq_append] at hq
        obtain ⟨m, e, -, he, hroot⟩ := DirGraph.resolve_eq_some hq
        exact absurd hroot (h.top e (DirGraph.lookup_mem he).1)
    | append_singleton p n ih =>
      intro q x hxd hp hq
      obtain ⟨m, e, hm, he, rfl⟩ := DirGraph.resolve_eq_some hp
      obtain ⟨hmem, rfl, hn⟩ := DirGraph.lookup_mem he
      rcases List.eq_nil_or_concat q with rfl | ⟨q, k, rfl⟩
      · exact absurd (Option.some.inj hq).symm (h.top e hmem)
      · rw [List.concat_eq_append] at hq ⊢
        obtain ⟨m, f, hm', hf, hfe⟩ := DirGraph.resolve_eq_some hq
        obtain ⟨hmem', rfl, hk⟩ := DirGraph.lookup_mem hf
        obtain rfl : e = f := h.single e hmem f hmem' hfe.symm hxd
        have hdos := hno e hmem hxd
        have hname : e.name = n := hn.resolve_right (by simp [hdos])
        have hname' : e.name = k := hk.resolve_right (by simp [hdos])
        rw [ih q e.dir (h.in_dirs e hmem) hm hm', ← hname, ← hname']
  refine fun x hx hxd q _ hq => ⟨by rw [honly old q x hxd hx hq], fun n hn => ?_⟩
  exact hjoins n (List.mem_of_getElem? hn)

/-- A directory `LongName` with an alias, and `sub` in it. -/
def aliased : AliasedVolume :=
  Namespace.mounted false ⟨5, [5, 10, 11], [], [⟨5, .plain "LongName", some (.plain "LONGNA~1"), 10⟩,
    ⟨10, .plain "sub", none, 11⟩]⟩ 64 5

theorem aliased_rooted : aliased.tree.Rooted := by
  have hone : ∀ e ∈ aliased.tree.entries, ∀ f ∈ aliased.tree.entries,
      e.dir = f.dir ∨ e.inode = f.inode → e = f := by decide
  have htop : aliased.tree.Parent 5 10 := ⟨_, .head _, rfl, rfl, by decide⟩
  have hsub : aliased.tree.Parent 10 11 := ⟨_, .tail _ (.head _), rfl, rfl, by decide⟩
  refine ⟨by decide, by decide, ?_, ?_, by decide, ⟨?_, ?_, ?_⟩⟩
  · intro e he f hf hdir _ _ _
    exact hone e he f hf (.inl hdir)
  · intro e he f hf heq _
    exact hone e he f hf (.inr heq)
  · rintro a ⟨e, he, -, heq, -⟩
    exact absurd heq ((by decide : ∀ e ∈ aliased.tree.entries, e.inode ≠ 5) e he)
  · rintro a b c ⟨e, he, rfl, rfl, -⟩ ⟨f, hf, rfl, heq, -⟩
    rw [hone f hf e he (.inr heq)]
  · intro v hv
    obtain rfl | rfl | rfl : v = 5 ∨ v = 10 ∨ v = 11 := by
      simpa [aliased, Namespace.mounted] using hv
    · exact .refl
    · exact .single htop
    · exact (ReflTransGen.single htop).tail hsub

/-- A rename in which every engine call succeeds. -/
def plainRename (item dest : ℕ) (name : String) : AliasedCall :=
  .renameItem ⟨item, dest, .plain name, none, 7, true, fun _ => allOk⟩

/-- The volume after these calls. -/
def aliasedAfter (es : List AliasedCall) (s : AliasedVolume) : AliasedVolume :=
  execAll (AliasedVolume.step .accented) es s

/-- `sub` is moved to the root. -/
def movedUp : AliasedVolume :=
  aliasedAfter [.lookupItem 0 (.plain "LongName"), .lookupItem 1 (.plain "sub"),
    plainRename 2 0 "top"] aliased

theorem renames_make_no_cycle_moved_up :
    movedUp.tree.Parent 5 11 ∧ (∀ d, ¬ TransGen movedUp.tree.Parent d d) ∧
      ReflTransGen movedUp.tree.Parent movedUp.tree.root 11 := by
  have hrun : Run (AliasedVolume.step .accented) (fun s e _ => s.Sound .accented e) aliased movedUp :=
    Run.of_execAll (by decide +kernel)
  obtain ⟨hno, hreach⟩ := renames_make_no_cycle aliased_rooted rfl hrun
  exact ⟨⟨⟨5, .plain "top", none, 11⟩, by decide +kernel, rfl, rfl, by decide +kernel⟩, hno,
    hreach 11 (by decide +kernel)⟩

/-- Two directories that are in each other are not below the root. -/
theorem DirGraph.cycle_of_entries {g : DirGraph} {n m : Name} {a b : ℕ} (ha : a ∈ g.dirs)
    (hb : b ∈ g.dirs) (hentries : g.entries = [⟨a, n, none, b⟩, ⟨b, m, none, a⟩])
    (hroot : a ≠ g.root ∧ b ≠ g.root) :
    TransGen g.Parent a a ∧ ¬ ReflTransGen g.Parent g.root a := by
  have hdown : g.Parent a b := ⟨_, by rw [hentries]; exact .head _, rfl, rfl, hb⟩
  have hup : g.Parent b a := ⟨_, by rw [hentries]; exact .tail _ (.head _), rfl, rfl, ha⟩
  refine ⟨.tail (.single hdown) hup, fun hreach => ?_⟩
  rcases ReflTransGen.cases_head hreach with heq | ⟨c, ⟨e, he, hdir, -⟩, -⟩
  · exact hroot.1 heq.symm
  · rw [hentries] at he
    rcases List.mem_pair.mp he with rfl | rfl
    · exact hroot.1 hdir
    · exact hroot.2 hdir

/-- The lookups of `LongName` under both names, and of its `sub` through the alias. -/
def lookedUp : List AliasedCall :=
  [.lookupItem 0 (.plain "LongName"), .lookupItem 0 (.plain "LONGNA~1"),
    .lookupItem 2 (.plain "sub")]

/-- `LongName` is moved into its own `sub`, which was looked up through the alias. -/
theorem alias_makes_cycle :
    let s := aliasedAfter lookedUp aliased
    let moved := s.step .accented (plainRename 1 3 "x")
    aliased.tree.Rooted ∧ Run (AliasedVolume.step .accented) (fun _ _ _ => True) aliased s ∧
      moved.1 = some (.ok none) ∧ TransGen moved.2.tree.Parent 10 10 ∧ 10 ∈ moved.2.tree.dirs ∧
      ¬ ReflTransGen moved.2.tree.Parent moved.2.tree.root 10 := by
  obtain ⟨hcycle, hlost⟩ := DirGraph.cycle_of_entries (a := 10) (b := 11)
    (g := ((aliasedAfter lookedUp aliased).step .accented (plainRename 1 3 "x")).2.tree)
    (n := .plain "sub") (m := .plain "x") (by decide +kernel) (by decide +kernel)
    (by decide +kernel) (by decide +kernel)
  exact ⟨aliased_rooted, Run.of_execAll (by decide +kernel), by decide +kernel, hcycle,
    by decide +kernel, hlost⟩

/-- A directory `d` without an alias is moved into the one in it, whose name begins with an
accent. -/
theorem mark_makes_cycle :
    let s : AliasedVolume := aliasedAfter [.lookupItem 0 (.plain "d"), .lookupItem 1 (.plain "\u0301x")]
      (Namespace.mounted false ⟨5, [5, 10, 11], [], [⟨5, .plain "d", none, 10⟩,
        ⟨10, .plain "\u0301x", none, 11⟩]⟩ 64 5)
    let moved := s.step .accented (plainRename 1 2 "y")
    moved.1 = some (.ok none) ∧ TransGen moved.2.tree.Parent 10 10 ∧
      ¬ ReflTransGen moved.2.tree.Parent moved.2.tree.root 10 := by
  refine ⟨by decide +kernel, DirGraph.cycle_of_entries (b := 11) (n := .plain "\u0301x")
    (m := .plain "y") ?_ ?_ ?_ ?_⟩
  all_goals decide +kernel

end NtfsKit
