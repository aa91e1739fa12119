import NtfsKit.Volume.Rekey

/-! Runs of upcalls. The kernel's side of the contract is a rule on each upcall; the
invariant says that the items agree with the tree, or how far the rename under way has taken
the tree from where they did. -/

namespace NtfsKit

open PathTree

/-! ### The rule -/

/-- An item the kernel still uses. -/
def Namespace.Live (s : Namespace) (x : ℕ) : Prop := ∃ it ∈ s.items[x]?, it.gone = false

/-- A name the kernel may choose. -/
def Name.isPlain : Name → Bool
  | .plain _ => true
  | .nkOver _ _ => false

/-- Whether a name was made with this UUID. -/
def Name.drawn (uuid : ℕ) : Name → Bool
  | .plain _ => false
  | .nkOver u _ => u = uuid

/-- A UUID no name has been made with. -/
def Namespace.Unused (s : Namespace) (uuid : ℕ) : Prop :=
  (∀ e ∈ s.tree, ∀ n ∈ e.1, n.drawn uuid = false) ∧
    ∀ it ∈ s.items, ∀ n ∈ it.path, n.drawn uuid = false

/-- The upcalls that can be made: `stateLock` keeps those on names from falling into a
rename, the kernel makes them through items it has not removed or reclaimed, and a rename
comes with the item that has the destination's name, if there is one. -/
def Namespace.Allowed (T : PathText) (s : Namespace) : Upcall → Prop
  | .lookupItem dir _ => s.pending = none ∧ s.Live dir
  | .createItem dir name _ _ _ => s.pending = none ∧ s.Live dir ∧ name.isPlain
  | .createSymbolicLink dir name _ => s.pending = none ∧ s.Live dir ∧ name.isPlain
  | .removeItem x _ => s.pending = none ∧ s.Live x
  | .reclaimItem x => s.pending = none ∧ s.Live x
  | .renameItem x dest name overItem uuid _ => s.pending = none ∧ s.Live x ∧ s.Live dest ∧
      name.isPlain ∧ s.pathOf x ≠ [] ∧
      overItem = T.find s.itemByPath (s.pathOf dest ++ [name]) ∧ s.Unused uuid
  | .advance _ => s.pending ≠ none
  | .io x => x < s.items.length

/-- At this step of a rename, the engine takes back what a failed rename has done, and the
victim of a failed `renameItem` gets its name back. -/
def Phase.rollsBack (ok : RenameSteps) : Phase → Bool
  | .park | .move => ok.delete || ok.undo
  | .rollback => ok.link && ok.delete
  | .point | .drop | .rekey => true

/-- Failed renames are rolled back. -/
def Namespace.RollsBack (s : Namespace) : Upcall → Prop
  | .advance ok => ∀ r ∈ s.pending, r.phase.rollsBack ok = true
  | _ => True

instance (s : Namespace) (x : ℕ) : Decidable (s.Live x) :=
  inferInstanceAs (Decidable (∃ it ∈ s.items[x]?, it.gone = false))

instance (s : Namespace) (uuid : ℕ) : Decidable (s.Unused uuid) :=
  inferInstanceAs (Decidable ((∀ e ∈ s.tree, ∀ n ∈ e.1, n.drawn uuid = false) ∧
    ∀ it ∈ s.items, ∀ n ∈ it.path, n.drawn uuid = false))

instance (T : PathText) (s : Namespace) : ∀ e : Upcall, Decidable (s.Allowed T e)
  | .lookupItem dir _ => inferInstanceAs (Decidable (s.pending = none ∧ s.Live dir))
  | .createItem dir name _ _ _ | .createSymbolicLink dir name _ =>
    inferInstanceAs (Decidable (s.pending = none ∧ s.Live dir ∧ name.isPlain))
  | .removeItem x _ | .reclaimItem x => inferInstanceAs (Decidable (s.pending = none ∧ s.Live x))
  | .renameItem x dest name overItem uuid _ => inferInstanceAs (Decidable (s.pending = none ∧
      s.Live x ∧ s.Live dest ∧ name.isPlain ∧ s.pathOf x ≠ [] ∧
      overItem = T.find s.itemByPath (s.pathOf dest ++ [name]) ∧ s.Unused uuid))
  | .advance _ => inferInstanceAs (Decidable (s.pending ≠ none))
  | .io x => inferInstanceAs (Decidable (x < s.items.length))

instance (s : Namespace) : ∀ e : Upcall, Decidable (s.RollsBack e)
  | .advance ok => inferInstanceAs (Decidable (∀ r ∈ s.pending, r.phase.rollsBack ok = true))
  | .lookupItem _ _ | .createItem _ _ _ _ _ | .createSymbolicLink _ _ _ | .removeItem _ _
  | .reclaimItem _ | .renameItem _ _ _ _ _ _ | .io _ => inferInstanceAs (Decidable True)

/-! ### The invariant -/

/-- How far a rename has come, against the tree and items it began with. -/
def Rename.Stage (r : Rename) (t : Tree) (items : List Item) (s : Namespace) : Prop :=
  match r.phase with
  | .park => s.tree = t ∧ s.items = items
  | .move => s.tree = r.parkedTree t ∧ s.items = items
  | .rollback => s.tree = r.parkedTree t ∧ s.items = items ∧ r.overItem.isSome
  | .point => Carried t s.tree s.nextInode s.itemByPath r ∧ s.items = items ∧ r.overItem.isSome
  | .drop => Carried t s.tree s.nextInode s.itemByPath r ∧ s.items = r.repointed items ∧
      r.overItem.isSome
  | .rekey => Carried t s.tree s.nextInode s.itemByPath r ∧ s.items = r.repointed items

/-- The invariant of the namespace. -/
def Namespace.Good (s : Namespace) : Prop :=
  match s.pending with
  | none => Idle s.tree s.nextInode s.items s.itemByPath
  | some r => ∃ t items, Begun t s.nextInode items s.itemByPath r ∧ r.Stage t items s

namespace Namespace

/-- The item stands for the file its path resolves to. -/
def HandedOut (s : Namespace) (y : ℕ) : Prop :=
  ∃ it, s.items[y]? = some it ∧ s.tree.inodeAt it.path = some it.inode

variable {s : Namespace} {x : ℕ}

theorem good_none (hp : s.pending = none) :
    s.Good ↔ Idle s.tree s.nextInode s.items s.itemByPath := by
  rw [Good, hp]

theorem good_some {r : Rename} (hp : s.pending = some r) :
    s.Good ↔ ∃ t items, Begun t s.nextInode items s.itemByPath r ∧ r.Stage t items s := by
  rw [Good, hp]

theorem Live.lookup (h : s.Live x) :
    ∃ it, s.items[x]? = some it ∧ it.gone = false ∧ s.pathOf x = it.path := by
  obtain ⟨it, hi, hg⟩ := h
  exact ⟨it, hi, hg, by rw [pathOf, Option.mem_def.mp hi]; rfl⟩

/-! ### Upcalls that make one change -/

/-- Handing out an item for a path just resolved. -/
theorem itemFor_idle {path : Path} {i : Inode} (hn : node s.tree path = some i)
    (h : Idle s.tree s.nextInode s.items s.itemByPath) :
    let r := s.itemFor .exact path i.kind i.number
    Idle r.2.tree r.2.nextInode r.2.items r.2.itemByPath ∧ r.2.pending = s.pending ∧
      r.2.HandedOut r.1 := by
  intro r
  simp only [r, itemFor, PathText.exact_find, PathText.exact_set]
  cases hf : SwapTable.find s.itemByPath path with
  | some x =>
    obtain ⟨it, hi, hp, hg, hnode⟩ := h.cached path x ((SwapTable.find_eq_some h.distinct).mp hf)
    exact ⟨h, rfl, it, hi, by rw [hp, hnode]⟩
  | none =>
    simp only [idFor_tree, idFor_nextInode, idFor_items, idFor_itemByPath, idFor_pending, true_and]
    refine ⟨h.enter hn hf _, _, lookup_concat.mpr (.inr ⟨rfl, rfl⟩), ?_⟩
    simp [Tree.inodeAt, hn]

/-- What an upcall outside a rename leaves. -/
def Settles (r : UpcallReply × Namespace) : Prop :=
  r.2.pending = none ∧ r.2.Good ∧ ∀ y, r.1.result = some (.ok (some y)) → r.2.HandedOut y

/-- An upcall that ends without handing out an item. -/
theorem settles_of_idle {r : UpcallReply × Namespace} (hp : r.2.pending = none)
    (h : Idle r.2.tree r.2.nextInode r.2.items r.2.itemByPath)
    (hr : ∀ y, r.1.result ≠ some (.ok (some y))) : Settles r :=
  ⟨hp, (good_none hp).mpr h, fun y hy => absurd hy (hr y)⟩

variable (hp : s.pending = none) (h : Idle s.tree s.nextInode s.items s.itemByPath)
include hp h

theorem lookupItem_settles (dir : ℕ) (name : Name) : Settles (s.lookupItem .exact treeEngine dir name) := by
  unfold lookupItem
  extract_lets path calls
  simp only [treeEngine_stat]
  cases hn : node s.tree path with
  | none => exact settles_of_idle hp h (by simp)
  | some i =>
    obtain ⟨hidle, hpend, hout⟩ := itemFor_idle hn h
    have hnone := hpend.trans hp
    refine ⟨hnone, (good_none hnone).mpr hidle, ?_⟩
    intro y hy
    obtain rfl : (s.itemFor .exact path i.kind i.number).1 = y := by simpa using hy
    exact hout

theorem create_settles (dir : ℕ) {name : Name} (hname : name.isPlain = true) (kind : Kind)
    (made closed : Bool) : Settles (s.create .exact dir name kind made closed) := by
  have hplain : ∀ u j, name ≠ .nkOver u j := by
    rintro u j rfl
    cases hname
  unfold create
  split_ifs with hro
  · exact settles_of_idle hp h (by simp)
  extract_lets dirPath calls c t childPath r
  have ht : Idle t.tree t.nextInode t.items t.itemByPath ∧
      (c.1 = true → node t.tree childPath = some ⟨s.nextInode, kind⟩) := by
    rcases createNode_cases made closed dirPath name ⟨s.nextInode, kind⟩ s.tree
      with hc | ⟨hc, hnew, d, hd, hk⟩
    · have h1 : c.1 = false := by rw [show c = _ from hc]
      have h2 : c.2 = s.tree := by rw [show c = _ from hc]
      simp only [t, h1, h2]
      exact ⟨h.mono (Nat.le_succ _), by simp⟩
    · have h2 : c.2 = (dirPath ++ [name], ⟨s.nextInode, kind⟩) :: s.tree := by
        rw [show c = _ from hc]
      simp only [t, h2]
      exact ⟨h.grow hd hk hplain hnew kind, fun _ => by rw [node_cons, if_pos rfl]⟩
  split_ifs with hc
  · exact settles_of_idle hp ht.1 (by simp)
  · have hnode := ht.2 (by simpa using hc)
    rw [← mutateNamespace_tree .exact [dirPath, childPath]] at hnode
    obtain ⟨hidle, hpend, hout⟩ := itemFor_idle hnode (by simpa using ht.1)
    have hnone : r.2.pending = none := hpend.trans ((mutateNamespace_pending _ _ _).trans hp)
    refine ⟨hnone, (good_none hnone).mpr hidle, ?_⟩
    intro y hy
    obtain rfl : r.1 = y := by simpa using hy
    exact hout

theorem removeItem_settles (hx : s.Live x) (ok : Bool) : Settles (s.removeItem .exact x ok) := by
  obtain ⟨it, hi, hg, hpath⟩ := hx.lookup
  unfold removeItem
  split_ifs with hro
  · exact settles_of_idle hp h (by simp)
  rw [hpath]
  extract_lets path calls d t
  rcases nkDelete_cases ok path s.tree with hd | ⟨hd, hl⟩
  · have h1 : d.1 = false := by rw [show d = _ from hd]
    have h2 : d.2 = s.tree := by rw [show d = _ from hd]
    rw [if_pos h1]
    refine settles_of_idle hp ?_ (by simp)
    simp only [h2]
    exact h
  · have h1 : d.1 = true := by rw [show d = _ from hd]
    have h2 : d.2 = unlink path s.tree := by rw [show d = _ from hd]
    rw [if_neg (by rw [h1]; simp)]
    refine settles_of_idle hp ?_ (by simp)
    simp only [bury, t, h2]
    refine (h.bury hi hg).unlink hl ?_
    intro c hc
    exact (PathText.mem_exact_drop.mp hc).2 rfl

theorem reclaimItem_settles (hx : s.Live x) : Settles (s.reclaimItem .exact x) := by
  obtain ⟨it, hi, hg, hpath⟩ := hx.lookup
  unfold reclaimItem
  rw [hpath]
  extract_lets path
  simp only [PathText.exact_find]
  split_ifs with hf
  · exact settles_of_idle hp (h.bury hi hg) (by simp)
  · refine settles_of_idle hp (h.giveUp (List.Sublist.refl _) ?_ ?_) (by simp)
    · intro p (hc : (p, x) ∈ s.itemByPath)
      rw [← (h.cached_at hc hi).1, ← SwapTable.find_eq_some h.distinct] at hc
      exact hf hc
    · exact fun c jt _ _ hm => .inl hm

end Namespace

/-! ### Renames -/

namespace Namespace

variable {s : Namespace} {x : ℕ}

/-- A file or an empty directory has nothing below it. -/
theorem leaf_of_checked (h : Idle s.tree s.nextInode s.items s.itemByPath) {o : ℕ} {it : Item}
    (hi : s.items[o]? = some it) (hn : s.tree.inodeAt it.path = some it.inode)
    (hdir : it.kind = .directory → leaf s.tree it.path = true) : leaf s.tree it.path = true := by
  by_cases hk : it.kind = .directory
  · exact hdir hk
  rw [leaf_iff]
  intro rest hr
  by_contra hne
  obtain ⟨d, hd, hkd⟩ := h.wf.closed.below hr (Option.isSome_iff_ne_none.mpr hne)
  obtain ⟨i, hnode, hnum⟩ := Tree.inodeAt_eq_some.mp hn
  rw [hnode] at hd
  rw [← Option.some.inj hd, h.kind o it _ i hi hnode hnum] at hkd
  exact hk hkd

/-- A name made with an unused UUID is new. -/
theorem Unused.parked {uuid : ℕ} (h : s.Unused uuid) (d : Path) (i : ℕ) :
    node s.tree (d ++ [.nkOver uuid i]) = none ∧
      ∀ it ∈ s.items, it.path ≠ d ++ [.nkOver uuid i] := by
  have hdrawn : (Name.nkOver uuid i).drawn uuid = true := by simp [Name.drawn]
  constructor
  · rw [← Option.not_isSome_iff_eq_none, node_isSome]
    rintro ⟨e, he, hp⟩
    have hno := h.1 e he (.nkOver uuid i) (by rw [hp]; simp)
    rw [hdrawn] at hno
    cases hno
  · intro it hi hp
    have hno := h.2 it hi (.nkOver uuid i) (by rw [hp]; simp)
    rw [hdrawn] at hno
    cases hno

/-- A rename that passes its checks begins from items that agree with the tree. -/
theorem renameItem_good (hp : s.pending = none)
    (h : Idle s.tree s.nextInode s.items s.itemByPath) {dest uuid : ℕ} {name : Name}
    {overItem : Option ℕ} {listed : Bool}
    (hok : s.Allowed .exact (.renameItem x dest name overItem uuid listed)) :
    (s.renameItem .exact treeEngine x dest name overItem uuid listed).2.Good := by
  obtain ⟨-, hx, hdest, hname, hroot, hover, hunused⟩ := hok
  have hplain : ∀ u j, name ≠ .nkOver u j := by
    rintro u j rfl
    cases hname
  obtain ⟨xt, hxi, hxg, hxp⟩ := hx.lookup
  obtain ⟨dt, hdi, hdg, hdp⟩ := hdest.lookup
  have hgood : s.Good := (good_none hp).mpr h
  unfold renameItem
  split_ifs with hro
  · exact hgood
  extract_lets oldPath destPath start
  simp only [PathText.exact_form, PathText.exact_beneath]
  split_ifs with hin
  · exact hgood
  have hout : ¬ oldPath <+: destPath := fun hpre =>
    hin ((eq_or_ne destPath oldPath).imp_right fun hne => ⟨hroot, hpre, hne.symm⟩)
  have hmem : ∀ c, (destPath ++ [name], c) ∈ s.itemByPath ↔ overItem = some c := by
    intro c
    rw [hover, PathText.exact_find, SwapTable.find_eq_some h.distinct]
  cases hf : overItem.filter (· ≠ x) with
  | none =>
    simp only
    rw [good_some rfl]
    refine ⟨s.tree, s.items, ⟨h, ⟨xt, hxi, hxp.symm, hxg⟩, ⟨dt, hdi, hdp.symm, hdg⟩, hroot, hout,
      hplain, ?_, ?_⟩, rfl, rfl⟩
    · intro _ c hc
      rw [(hmem c).mp hc] at hf
      by_contra hne
      simp [Option.filter, hne] at hf
    · rintro o ho
      cases ho
  | some o =>
    obtain ⟨hov, hne⟩ : overItem = some o ∧ o ≠ x := by
      simpa using Option.filter_eq_some_iff.mp hf
    have hcached := (hmem o).mpr hov
    obtain ⟨ot, hoi, hop, hog, hon⟩ := h.cached _ o hcached
    have hopath : s.pathOf o = destPath ++ [name] := by
      rw [pathOf, hoi, ← hop]
      rfl
    simp only
    split_ifs with hsame hlist hempty
    · exact hgood
    · exact hgood
    · exact hgood
    · rw [good_some rfl]
      refine ⟨s.tree, s.items, ⟨h, ⟨xt, hxi, hxp.symm, hxg⟩, ⟨dt, hdi, hdp.symm, hdg⟩, hroot, hout,
        hplain, ?_, ?_⟩, rfl, rfl⟩
      · intro ho
        cases ho
      · intro o' ho
        obtain rfl := Option.some.inj ho
        have hinode : ((s.items[o]?).map Item.inode).getD 0 = ot.inode := by
          rw [hoi]
          rfl
        obtain ⟨hfresh, hfresh'⟩ := hunused.parked destPath ot.inode
        have hleaf := leaf_of_checked h hoi (by rw [hop, hon]) fun hk => by
          rw [hoi, hopath, ← hop] at hempty hlist
          refine leaf_of_unshown ?_ fun hs => hempty ⟨by rw [Option.map_some, hk], hs⟩
          by_contra hn
          exact hlist ⟨by rw [Option.map_some, hk], .inl (by simpa using hn)⟩
        rw [hop] at hleaf
        have hparked : (Victim.mk o (s.pathOf o) (.nkOver uuid (((s.items[o]?).map Item.inode).getD
            0))).parked = destPath ++ [.nkOver uuid ot.inode] := by
          rw [Victim.parked, Victim.dir, hopath, List.dropLast_concat, hinode]
        refine ⟨hopath, hcached, hne, hleaf, ⟨ot, uuid, hoi, by rw [hinode]⟩, ?_, ?_, ?_⟩
        · rw [hparked]
          exact hfresh
        · rw [hparked]
          change s.pathOf x ≠ destPath ++ [.nkOver uuid ot.inode]
          rw [hxp]
          exact hfresh' xt (List.mem_of_getElem? hxi)
        · intro heq
          refine hsame ⟨?_, by rw [hopath]; exact heq⟩
          exact (congrArg Option.isSome (heq.trans hon)).trans rfl

section

variable {r : Rename} {t : Tree} {items : List Item} {ok : RenameSteps}
  (hB : Begun t s.nextInode items s.itemByPath r) (hS : r.Stage t items s)
include hB hS

theorem advance_park (hphase : r.phase = .park) (hback : ok.delete = true ∨ ok.undo = true) :
    (s.advance .exact treeEngine ok r).2.Good := by
  simp only [Rename.Stage, hphase] at hS
  obtain ⟨rfl, rfl⟩ := hS
  simp only [advance, hphase]
  cases ho : r.overItem with
  | none => exact (good_none rfl).mpr hB.idle
  | some o =>
    simp only
    split_ifs with hc
    · rw [good_some rfl, ← ho]
      exact ⟨s.tree, s.items, hB.withPhase .move, hB.park_ok ho hc, rfl⟩
    · rw [good_none rfl]
      have hv : o.path ≠ [] := by
        rw [(hB.victim o ho).path, Rename.newPath]
        simp
      change Idle (nkRename ok o.path o.dir o.tmpName s.tree).2 _ _ _
      rw [nkRename_failed (by simpa using hc) hv hback]
      exact hB.idle

theorem advance_move (hphase : r.phase = .move) (hback : ok.delete = true ∨ ok.undo = true) :
    (s.advance .exact treeEngine ok r).2.Good := by
  simp only [Rename.Stage, hphase] at hS
  obtain ⟨htree, rfl⟩ := hS
  simp only [advance, hphase, htree, treeEngine_rename]
  split_ifs with hc ho ho
  · rw [good_some rfl]
    exact ⟨t, s.items, hB.withPhase .point, (hB.carried hc).withPhase .point, rfl, ho⟩
  · rw [good_some rfl]
    refine ⟨t, s.items, hB.withPhase .rekey, (hB.carried hc).withPhase .rekey, ?_⟩
    rw [Rename.repointed, Option.not_isSome_iff_eq_none.mp ho]
  · rw [good_some rfl]
    refine ⟨t, s.items, hB.withPhase .rollback, ?_, rfl, ho⟩
    exact nkRename_failed (by simpa using hc) hB.proper hback
  · rw [good_none rfl, nkRename_failed (by simpa using hc) hB.proper hback]
    rw [Rename.parkedTree, Option.not_isSome_iff_eq_none.mp ho]
    exact hB.idle

theorem advance_rollback (hphase : r.phase = .rollback)
    (hback : ok.link = true ∧ ok.delete = true) : (s.advance .exact treeEngine ok r).2.Good := by
  simp only [Rename.Stage, hphase] at hS
  obtain ⟨htree, rfl, ho⟩ := hS
  obtain ⟨o, ho⟩ := Option.isSome_iff_exists.mp ho
  simp only [advance, hphase, ho, treeEngine_rename]
  rw [good_none rfl, htree]
  exact hB.idle.congr fun p => hB.rollback_ok ho hback.1 hback.2 p

theorem advance_point (hphase : r.phase = .point) : (s.advance .exact treeEngine ok r).2.Good := by
  simp only [Rename.Stage, hphase] at hS
  obtain ⟨hcar, rfl, ho⟩ := hS
  obtain ⟨o, ho⟩ := Option.isSome_iff_exists.mp ho
  simp only [advance, hphase, ho]
  rw [good_some rfl, ← ho]
  refine ⟨t, s.items, hB.withPhase .drop, hcar.withPhase .drop, ?_, by rw [ho]; rfl⟩
  rw [Rename.repointed, ho]

theorem advance_drop (hphase : r.phase = .drop) : (s.advance .exact treeEngine ok r).2.Good := by
  simp only [Rename.Stage, hphase] at hS
  obtain ⟨hcar, hitems, ho⟩ := hS
  obtain ⟨o, ho⟩ := Option.isSome_iff_exists.mp ho
  simp only [advance, hphase, ho, treeEngine_delete]
  rw [good_some rfl, ← ho]
  refine ⟨t, items, hB.withPhase .rekey, ?_, hitems⟩
  rcases nkDelete_cases ok.delete o.parked s.tree with hd | ⟨hd, -⟩
  · rw [hd]
    exact hcar.withPhase .rekey
  · rw [hd]
    exact (hcar.unlink hB ho).withPhase .rekey

theorem advance_rekey (hphase : r.phase = .rekey) : (s.advance .exact treeEngine ok r).2.Good := by
  simp only [Rename.Stage, hphase] at hS
  obtain ⟨hcar, hitems⟩ := hS
  simp only [advance, hphase]
  have hdone := hcar.rekey hB
  rw [← hitems] at hdone
  exact (good_none rfl).mpr hdone

end

/-- The next step of a rename. -/
theorem advance_good {r : Rename} (hr : s.pending = some r) (h : s.Good) {ok : RenameSteps}
    (hback : s.RollsBack (.advance ok)) : (s.advance .exact treeEngine ok r).2.Good := by
  obtain ⟨t, items, hB, hS⟩ := (good_some hr).mp h
  have hback := hback r hr
  cases hphase : r.phase with
  | park => exact advance_park hB hS hphase (by simpa [hphase, Phase.rollsBack] using hback)
  | move => exact advance_move hB hS hphase (by simpa [hphase, Phase.rollsBack] using hback)
  | rollback =>
    exact advance_rollback hB hS hphase (by simpa [hphase, Phase.rollsBack] using hback)
  | point => exact advance_point hB hS hphase
  | drop => exact advance_drop hB hS hphase
  | rekey => exact advance_rekey hB hS hphase

end Namespace

end NtfsKit
