import NtfsKit.Volume.Caches

/-! Runs of upcalls and of the identifiers an enumeration seeds: between two holds of
`stateLock` the dictionaries are in step, as long as a rename finds every key below the old
path. -/

namespace NtfsKit

open PathTree

/-! ### Events and rules -/

/-- An upcall, or `id(for:)` for an entry that `enumerateDirectory` packs. -/
inductive CacheEvent
  | upcall (e : Upcall)
  | seed (path : Path)

/-- The event passes names of this set only. -/
def CacheEvent.Over (names : Set Name) : CacheEvent → Prop
  | .upcall e => e.Over names
  | .seed path => path ∈ pathsOver names

variable {names : Set Name}

namespace Namespace

def cacheStep (T : PathText) (s : Namespace) : CacheEvent → UpcallReply × Namespace
  | .upcall e => s.step T e
  | .seed path => (⟨[], none⟩, (s.idFor T path).2)

/-- The object is the one cached for its path. -/
def Current (T : PathText) (s : Namespace) (x : ℕ) : Prop :=
  T.find s.itemByPath (s.pathOf x) = some x

/-- `stateLock` excludes the sections from each other; the kernel renames the object it has
under the source's name, never the root, and passes as `overItem` the one it has under the
destination's name; a UUID is drawn once. -/
def Promised (T : PathText) (s : Namespace) : CacheEvent → Prop
  | .upcall (.renameItem x dest name overItem uuid _) => s.pending = none ∧ s.Current T x ∧
      s.pathOf x ≠ [] ∧ (overItem = none ∨
        overItem = T.find s.itemByPath (s.pathOf dest ++ [name])) ∧ s.Unused uuid
  | .upcall (.advance _) => s.pending ≠ none
  | .upcall (.io _) => True
  | _ => s.pending = none

/-- The engine refuses the rename: the new name is taken by another file. -/
def Taken (t : Tree) (old new : Path) : Prop :=
  t.inodeAt new ≠ none ∧ t.inodeAt new ≠ t.inodeAt old

/-- A rename without `overItem` that the engine does not refuse goes to a path with nothing
cached below it. -/
def Vacant (s : Namespace) : CacheEvent → Prop
  | .upcall (.renameItem x dest name none _ _) =>
      Taken s.tree (s.pathOf x) (s.pathOf dest ++ [name]) ∨
      s.pathOf dest ++ [name] = s.pathOf x ∨
      ∀ e ∈ s.itemByPath, ¬ (s.pathOf dest ++ [name] <+: e.1 ∧ s.pathOf dest ++ [name] ≠ e.1)
  | _ => True

/-- The dictionaries are in step. -/
def InStep (s : Namespace) : Prop := Caches s.items s.itemByPath s.idByPath s.nextID

instance (T : PathText) (s : Namespace) (x : ℕ) : Decidable (s.Current T x) :=
  inferInstanceAs (Decidable (T.find s.itemByPath (s.pathOf x) = some x))

instance (T : PathText) (s : Namespace) : ∀ e : CacheEvent, Decidable (s.Promised T e)
  | .upcall (.renameItem x dest name overItem uuid _) => inferInstanceAs (Decidable (
      s.pending = none ∧ s.Current T x ∧ s.pathOf x ≠ [] ∧ (overItem = none ∨
        overItem = T.find s.itemByPath (s.pathOf dest ++ [name])) ∧ s.Unused uuid))
  | .upcall (.advance _) => inferInstanceAs (Decidable (s.pending ≠ none))
  | .upcall (.io _) => inferInstanceAs (Decidable True)
  | .upcall (.lookupItem _ _) | .upcall (.createItem _ _ _ _ _)
  | .upcall (.createSymbolicLink _ _ _) | .upcall (.removeItem _ _) | .upcall (.reclaimItem _)
  | .seed _ => inferInstanceAs (Decidable (s.pending = none))

instance [DecidablePred (· ∈ names)] : ∀ e : CacheEvent, Decidable (e.Over names)
  | .upcall e => inferInstanceAs (Decidable (e.Over names))
  | .seed path => inferInstanceAs (Decidable (∀ n ∈ path, n ∈ names))

instance (t : Tree) (old new : Path) : Decidable (Taken t old new) :=
  inferInstanceAs (Decidable (t.inodeAt new ≠ none ∧ t.inodeAt new ≠ t.inodeAt old))

instance (s : Namespace) : ∀ e : CacheEvent, Decidable (s.Vacant e)
  | .upcall (.renameItem x dest name none _ _) => inferInstanceAs (Decidable (
      Taken s.tree (s.pathOf x) (s.pathOf dest ++ [name]) ∨
      s.pathOf dest ++ [name] = s.pathOf x ∨
      ∀ e ∈ s.itemByPath, ¬ (s.pathOf dest ++ [name] <+: e.1 ∧ s.pathOf dest ++ [name] ≠ e.1)))
  | .upcall (.renameItem _ _ _ (some _) _ _) | .upcall (.advance _) | .upcall (.io _)
  | .upcall (.lookupItem _ _) | .upcall (.createItem _ _ _ _ _)
  | .upcall (.createSymbolicLink _ _ _) | .upcall (.removeItem _ _) | .upcall (.reclaimItem _)
  | .seed _ => inferInstanceAs (Decidable True)

end Namespace

/-- A rename under way whose call began with the items `items`. -/
structure Rename.Midway (r : Rename) (items : List Item) (s : Namespace) : Prop where
  caches : Caches items s.itemByPath s.idByPath s.nextID
  chosen : r.Chosen s.itemByPath
  stage : match r.phase with
    | .park => s.items = items ∧ ∃ o, r.overItem = some o ∧ node s.tree o.parked = none
    | .move => s.items = items ∧
        (r.overItem.isSome → ∀ rest, node s.tree (r.newPath ++ rest) = none) ∧
        (Namespace.Taken s.tree r.oldPath r.newPath ∨ r.Clear s.itemByPath)
    | .rollback => s.items = items
    | .point => s.items = items ∧ r.Apart ∧ r.Clear s.itemByPath
    | .drop | .rekey => s.items = r.repointed items ∧ r.Apart ∧ r.Clear s.itemByPath

theorem Rename.Chosen.withPhase {r : Rename} {byPath : List (Path × ℕ)} (h : r.Chosen byPath)
    (p : Phase) : Rename.Chosen { r with phase := p } byPath :=
  ⟨h.item, h.out, h.victim⟩

namespace Namespace

/-- The invariant of the dictionaries. -/
structure Tidy (s : Namespace) : Prop where
  closed : s.tree.Closed
  idle : s.pending = none → s.InStep
  busy : ∀ r, s.pending = some r → ∃ items, r.Midway items s

variable {s : Namespace}

theorem Tidy.of_idle (hc : s.tree.Closed) (hp : s.pending = none) (h : s.InStep) : s.Tidy :=
  ⟨hc, fun _ => h, fun r hr => by rw [hp] at hr; cases hr⟩

theorem Tidy.of_busy {r : Rename} (items : List Item) (hc : s.tree.Closed)
    (hp : s.pending = some r) (h : r.Midway items s) : s.Tidy := by
  refine ⟨hc, fun hn => ?_, fun q hq => ?_⟩
  · rw [hp] at hn
    cases hn
  · rw [hp] at hq
    obtain rfl := Option.some.inj hq
    exact ⟨items, h⟩

/-! ### Sections of one step -/

section

variable (hp : s.pending = none) (hc : s.tree.Closed) (h : s.InStep)
include hp hc h

theorem seed_tidy (path : Path) : (s.idFor .exact path).2.Tidy :=
  .of_idle (by rwa [idFor_tree]) (by rwa [idFor_pending]) (Caches.idFor h path).1

theorem lookupItem_tidy (dir : ℕ) (name : Name) :
    (s.lookupItem .exact treeEngine dir name).2.Tidy := by
  unfold lookupItem
  extract_lets path calls
  rw [treeEngine_stat]
  cases node s.tree path with
  | none => exact .of_idle hc hp h
  | some i =>
    exact .of_idle (by rwa [itemFor_tree]) (by rwa [itemFor_pending])
      (Caches.itemFor h path i.kind i.number)

theorem create_tidy (dir : ℕ) (name : Name) (kind : Kind) (made closed : Bool) :
    (s.create .exact dir name kind made closed).2.Tidy := by
  unfold create
  split_ifs with hro
  · exact .of_idle hc hp h
  extract_lets dirPath calls c t childPath r
  have ht : t.tree.Closed := by
    rcases createNode_cases made closed dirPath name ⟨s.nextInode, kind⟩ s.tree
      with hcase | ⟨hcase, hnew, d, hd, hk⟩
    · rw [show t.tree = s.tree from congrArg Prod.snd hcase]
      exact hc
    · rw [show t.tree = _ from congrArg Prod.snd hcase]
      exact hc.cons hd hk hnew
  split_ifs with hfail
  · exact .of_idle ht hp h
  · have hstep : (t.mutateNamespace .exact [dirPath, childPath]).InStep := by
      rw [InStep, mutateNamespace_items, mutateNamespace_itemByPath, mutateNamespace_idByPath,
        mutateNamespace_nextID]
      exact h
    refine .of_idle ?_ ?_ (Caches.itemFor hstep _ _ _)
    · rwa [itemFor_tree, mutateNamespace_tree]
    · rwa [itemFor_pending, mutateNamespace_pending]

theorem removeItem_tidy (x : ℕ) (ok : Bool) : (s.removeItem .exact x ok).2.Tidy := by
  unfold removeItem
  split_ifs with hro
  · exact .of_idle hc hp h
  extract_lets path calls d t
  have ht : d.2.Closed := nkDelete_closed hc ok path
  split_ifs with hfail
  · exact .of_idle ht hp h
  · refine .of_idle ?_ ?_ ?_
    · exact (congrArg Tree.Closed (mutateNamespace_tree .exact _ _)).mpr ht
    · exact (mutateNamespace_pending .exact _ _).trans hp
    · have hb : (PathText.exact.drop s.itemByPath path).Sublist s.itemByPath := List.filter_sublist
      have hi : (PathText.exact.drop s.idByPath path).Sublist s.idByPath := List.filter_sublist
      have hboth := Caches.drop h hb hi fun p c id hm hid =>
        PathText.mem_exact_drop.mpr ⟨hid, (PathText.mem_exact_drop.mp hm).2⟩
      simp only [InStep, bury, t, mutateNamespace_items, mutateNamespace_itemByPath,
        mutateNamespace_idByPath, mutateNamespace_nextID]
      exact hboth.bury x

theorem reclaimItem_tidy (x : ℕ) : (s.reclaimItem .exact x).2.Tidy := by
  unfold reclaimItem
  extract_lets path
  split_ifs with hf
  · have hb : (PathText.exact.drop s.itemByPath path).Sublist s.itemByPath := List.filter_sublist
    have hdrop := Caches.drop h hb (List.Sublist.refl _) fun _ _ _ _ hid => hid
    exact .of_idle hc hp (hdrop.bury x)
  · exact .of_idle hc hp (Caches.bury h x)

end

/-! ### Renames -/

/-- The path of a cached object. -/
theorem InStep.pathOf (h : s.InStep) {p : Path} {c : ℕ} (hc : (p, c) ∈ s.itemByPath) :
    s.pathOf c = p := by
  obtain ⟨it, hi, hp, -⟩ := Caches.keyed h p c hc
  rw [Namespace.pathOf, hi, ← hp]
  rfl

/-- The checks of `renameItem` choose a rename. -/
theorem renameItem_tidy (hc : s.tree.Closed) (h : s.InStep) (a : RenameCall)
    (hok : s.Promised .exact
      (.upcall (.renameItem a.item a.dest a.name a.overItem a.uuid a.listed)))
    (hv : s.Vacant (.upcall (.renameItem a.item a.dest a.name a.overItem a.uuid a.listed))) :
    (s.renameItem .exact treeEngine a.item a.dest a.name a.overItem a.uuid a.listed).2.Tidy := by
  obtain ⟨hp, hcur, hroot, hover, hunused⟩ := hok
  rw [Current, PathText.exact_find] at hcur
  rw [PathText.exact_find] at hover
  have hitem : (s.pathOf a.item, a.item) ∈ s.itemByPath :=
    (SwapTable.find_eq_some (Caches.items_distinct h)).mp hcur
  rcases renameItem_begins .exact treeEngine a s with ⟨-, calls, res, hr, -⟩ |
    ⟨hacc, calls, p, hphase, hr⟩
  · rw [hr]
    exact .of_idle hc hp h
  have hover' : ∀ o, a.overItem = some o → (s.pathOf a.dest ++ [a.name], o) ∈ s.itemByPath := by
    intro o ho
    rcases hover with hnone | hfind
    · rw [hnone] at ho
      cases ho
    · rw [← SwapTable.find_eq_some (Caches.items_distinct h), ← hfind, ho]
  have hchosen : (a.rename s).Chosen s.itemByPath := by
    refine ⟨hitem, ?_, ?_⟩
    · rintro ⟨hpre, hne⟩
      rcases prefix_concat hpre with heq | hbelow
      · exact hne heq
      · exact hacc.outside hroot hbelow
    · intro o ho
      obtain ⟨c, hf, rfl⟩ := Option.map_eq_some_iff.mp ho
      obtain ⟨hsome, hne⟩ := Option.filter_eq_some_iff.mp hf
      have hmem := hover' c hsome
      have hne : c ≠ a.item := by simpa using hne
      exact ⟨h.pathOf hmem, hmem, hne⟩
  rw [hr]
  refine .of_busy s.items hc rfl ⟨h, hchosen.withPhase p, ?_⟩
  rcases hphase with ⟨rfl, hnone⟩ | ⟨rfl, hsome⟩
  · refine ⟨rfl, fun hs => absurd (show (a.rename s).overItem.isSome from hs) (by simp [hnone]), ?_⟩
    have hf : a.overItem.filter (· ≠ a.item) = none := Option.map_eq_none_iff.mp hnone
    cases hov : a.overItem with
    | none =>
      rw [hov] at hv
      rcases hv with htaken | heq | hclear
      · exact .inl htaken
      · exact .inr fun _ => .inl heq
      · exact .inr fun _ => .inr fun p c hm => hclear (p, c) hm
    | some c =>
      rw [hov] at hf
      obtain rfl : c = a.item := by simpa [Option.filter] using hf
      exact .inr fun _ => .inl (Caches.once h (hover' _ hov) hitem)
  · obtain ⟨o, ho⟩ := Option.isSome_iff_exists.mp hsome
    refine ⟨rfl, o, ho, ?_⟩
    obtain ⟨c, -, rfl⟩ := Option.map_eq_some_iff.mp ho
    exact (hunused.parked _ _).1

section

variable {r : Rename} {items : List Item} (ok : RenameSteps) (hc : s.tree.Closed)
include hc

theorem park_tidy (hm : Rename.Midway { r with phase := .park } items s) :
    (s.advance .exact treeEngine ok { r with phase := .park }).2.Tidy := by
  obtain ⟨h, hch, hitems, o, ho, hfree⟩ := hm
  cases hr : nkRename ok o.path o.dir o.tmpName s.tree with
  | mk b u =>
    rw [advance_park_eq ho hr]
    have hu := nkRename_closed hc hr
    cases b with
    | false => exact .of_idle hu rfl (by rw [InStep, hitems]; exact h)
    | true =>
      have hclear : Rename.Clear { r with phase := .move } s.itemByPath := by
        intro hnone
        rw [ho] at hnone
        cases hnone
      refine .of_busy items hu rfl
        ⟨h, hch.withPhase .move, hitems, fun _ rest => ?_, .inr hclear⟩
      obtain ⟨x, d, hx, -, -, ⟨hsame, -⟩ | ⟨-, hmove⟩⟩ := nkRename_ok (congrArg Prod.fst hr)
      · rw [← Victim.parked, Tree.inodeAt_eq_none.mpr hfree] at hsame
        cases hsame
      · rw [hr, (hch.victim o ho).1] at hmove
        change node u _ = none
        rw [show u = _ from hmove]
        exact node_move_old (List.prefix_append _ _)

theorem move_tidy (hm : Rename.Midway { r with phase := .move } items s) :
    (s.advance .exact treeEngine ok { r with phase := .move }).2.Tidy := by
  obtain ⟨h, hch, hitems, hgone, hclear⟩ := hm
  cases hr : nkRename ok r.oldPath r.destPath r.newName s.tree with
  | mk b u =>
    have hu := nkRename_closed hc hr
    cases b with
    | false =>
      cases hover : r.overItem.isSome with
      | false =>
        rw [advance_move_eq hover hr]
        exact .of_idle hu rfl (by rw [InStep, hitems]; exact h)
      | true =>
        rw [advance_move_eq hover hr]
        exact .of_busy items hu rfl ⟨h, hch.withPhase .rollback, hitems⟩
    | true =>
      have hclear : r.Clear s.itemByPath := by
        rcases hclear with ⟨hsome, hother⟩ | hclear
        · obtain ⟨x, d, hx, -, -, ⟨hsame, -⟩ | ⟨hfree, -⟩⟩ := nkRename_ok (congrArg Prod.fst hr)
          · exact absurd (hsame.trans (Tree.inodeAt_eq_some.mpr ⟨x, hx, rfl⟩).symm) hother
          · exact absurd (Tree.inodeAt_eq_none.mpr hfree) hsome
        · exact hclear
      -- the old path resolved, so it is not below the parked victim's
      have hapart : r.Apart := by
        rintro hover ⟨rest, heq⟩
        obtain ⟨x, d, hx, -⟩ := nkRename_ok (congrArg Prod.fst hr)
        have hnone : node s.tree (r.newPath ++ rest) = none := hgone hover rest
        rw [← heq, hnone] at hx
        cases hx
      cases hover : r.overItem.isSome with
      | false =>
        rw [advance_move_eq hover hr]
        refine .of_busy items hu rfl ⟨h, hch.withPhase .rekey, ?_, hapart, hclear⟩
        rw [Rename.repointed, show r.overItem = none by simpa using hover]
        exact hitems
      | true =>
        rw [advance_move_eq hover hr]
        exact .of_busy items hu rfl ⟨h, hch.withPhase .point, hitems, hapart, hclear⟩

theorem rollback_tidy (hm : Rename.Midway { r with phase := .rollback } items s) :
    (s.advance .exact treeEngine ok { r with phase := .rollback }).2.Tidy := by
  obtain ⟨h, -, hitems⟩ := hm
  have hstep : s.InStep := by
    rw [InStep, show s.items = items from hitems]
    exact h
  cases ho : r.overItem with
  | none => exact .of_idle hc rfl hstep
  | some o =>
    rw [← ho]
    cases hr : nkRename ok o.parked o.dir o.overName s.tree with
    | mk b u =>
      rw [advance_rollback_eq ho hr]
      exact .of_idle (nkRename_closed hc hr) rfl hstep

theorem point_tidy (hm : Rename.Midway { r with phase := .point } items s) :
    (s.advance .exact treeEngine ok { r with phase := .point }).2.Tidy := by
  obtain ⟨h, hch, hitems, hapart, hclear⟩ := hm
  cases ho : r.overItem with
  | none =>
    have hstep : s.InStep := by
      rw [InStep, hitems]
      exact h
    exact .of_idle hc rfl hstep
  | some o =>
    rw [← ho, advance_point_eq ho]
    refine .of_busy items hc rfl ⟨h, hch.withPhase .drop, ?_, hapart, hclear⟩
    rw [Rename.repointed, ho, ← hitems]

theorem drop_tidy (hm : Rename.Midway { r with phase := .drop } items s) :
    (s.advance .exact treeEngine ok { r with phase := .drop }).2.Tidy := by
  obtain ⟨h, hch, hitems, hapart, hclear⟩ := hm
  cases ho : r.overItem with
  | none =>
    have hstep : s.InStep := by
      rw [Rename.repointed, ho] at hitems
      rw [InStep, hitems]
      exact h
    exact .of_idle hc rfl hstep
  | some o =>
    rw [← ho, advance_drop_eq ho]
    exact .of_busy items (nkDelete_closed hc ok.delete o.parked) rfl
      ⟨h, hch.withPhase .rekey, hitems, hapart, hclear⟩

omit hc in
/-- The dictionaries and items after the bookkeeping. -/
theorem rekey_tables (h : Caches items s.itemByPath s.idByPath s.nextID)
    (hf : r.Fits s.itemByPath) (hitems : s.items = r.repointed items) {xt : Item}
    (hx : items[r.item]? = some xt) :
    (s.rekey .exact r).items =
      (r.repointed items).mapIdx (r.repath .exact (r.entered .exact s.itemByPath r.item)) ∧
    (s.rekey .exact r).itemByPath = r.shift s.itemByPath r.item ∧
    (s.rekey .exact r).idByPath = r.shift s.idByPath xt.identifier ∧
      (s.rekey .exact r).nextID = s.nextID := by
  obtain ⟨yt, hy, -, hid⟩ := h.keyed _ _ hf.item
  rw [hx] at hy
  obtain rfl := Option.some.inj hy
  have hmoved : PathText.exact.find (r.evict .exact s.idByPath) r.oldPath = some xt.identifier := by
    rw [PathText.exact_find, SwapTable.find_eq_some (evict_distinct h.ids_distinct), hf.mem_evict]
    exact ⟨hid, hf.apart⟩
  refine ⟨?_, ?_, ?_, mutateNamespace_nextID _ _ _⟩
  · simp only [rekey, mutateNamespace_items, mutateNamespace_itemByPath, ← hitems]
  · simp only [rekey, mutateNamespace_itemByPath, Rename.shift]
  · simp only [rekey, mutateNamespace_idByPath, hmoved, Option.getD_some, Rename.shift]

omit hc in
theorem rekey_inStep (h : Caches items s.itemByPath s.idByPath s.nextID)
    (hf : r.Fits s.itemByPath) (hitems : s.items = r.repointed items) : (s.rekey .exact r).InStep := by
  obtain ⟨xt, hx, -⟩ := h.keyed _ _ hf.item
  obtain ⟨h1, h2, h3, h4⟩ := rekey_tables h hf hitems hx
  rw [InStep, h1, h2, h3, h4]
  exact h.rekey hf hx

theorem rekey_tidy (hm : Rename.Midway { r with phase := .rekey } items s) :
    (s.advance .exact treeEngine ok { r with phase := .rekey }).2.Tidy := by
  obtain ⟨h, hch, hitems, hapart, hclear⟩ := hm
  rw [advance_rekey_eq]
  refine .of_idle ?_ rfl (rekey_inStep h ⟨hch, hclear, hapart⟩ hitems)
  rw [rekey_tree]
  exact hc

end

/-- The next step of a rename. -/
theorem advance_tidy (ok : RenameSteps) {r : Rename} (hr : s.pending = some r) (h : s.Tidy) :
    (s.advance .exact treeEngine ok r).2.Tidy := by
  obtain ⟨items, hm⟩ := h.busy r hr
  obtain ⟨x, old, dest, destPath, name, overItem, phase⟩ := r
  let q : Rename := ⟨x, old, dest, destPath, name, overItem, phase⟩
  cases phase with
  | park => exact park_tidy (r := q) ok h.closed hm
  | move => exact move_tidy (r := q) ok h.closed hm
  | rollback => exact rollback_tidy (r := q) ok h.closed hm
  | point => exact point_tidy (r := q) ok h.closed hm
  | drop => exact drop_tidy (r := q) ok h.closed hm
  | rekey => exact rekey_tidy (r := q) ok h.closed hm

theorem step_tidy {e : CacheEvent} (h : s.Tidy) (hok : s.Promised .exact e ∧ s.Vacant e) :
    (s.cacheStep .exact e).2.Tidy := by
  obtain ⟨hok, hv⟩ := hok
  cases e with
  | seed path => exact seed_tidy hok h.closed (h.idle hok) path
  | upcall e =>
    cases e with
    | lookupItem dir name => exact lookupItem_tidy hok h.closed (h.idle hok) dir name
    | createItem dir name kind made closed =>
      simp only [cacheStep, step, createItem]
      split_ifs
      · exact h
      · exact create_tidy hok h.closed (h.idle hok) dir name kind made closed
    | createSymbolicLink dir name made =>
      exact create_tidy hok h.closed (h.idle hok) dir name .symlink made true
    | removeItem x ok => exact removeItem_tidy hok h.closed (h.idle hok) x ok
    | reclaimItem x => exact reclaimItem_tidy hok h.closed (h.idle hok) x
    | renameItem x dest name overItem uuid listed =>
      exact renameItem_tidy h.closed (h.idle hok.1)
        ⟨x, dest, name, overItem, uuid, listed, fun _ => ⟨true, true, true⟩⟩ hok hv
    | advance ok =>
      simp only [cacheStep, step]
      cases hr : s.pending with
      | none => exact h
      | some r => exact advance_tidy ok hr h
    | io x => exact h

end Namespace

/-! ### Runs -/

/-- What the bookkeeping of a rename makes of a dictionary: the item's entry and every entry
below the old path are found under the new one, none is left behind, and whatever lies outside
both subtrees is as it was. -/
structure Rename.Rekeys (r : Rename) (d d' : List (Path × ℕ)) : Prop where
  own : ∀ v, SwapTable.find d r.oldPath = some v → SwapTable.find d' r.newPath = some v
  moved : ∀ rest v, rest ≠ [] → SwapTable.find d (r.oldPath ++ rest) = some v →
    SwapTable.find d' (r.newPath ++ rest) = some v
  left : ∀ p, r.oldPath <+: p → ¬ r.newPath <+: p → SwapTable.find d' p = none
  outside : ∀ p, ¬ r.oldPath <+: p → ¬ r.newPath <+: p → SwapTable.find d' p = SwapTable.find d p

theorem Rename.Fits.rekeys {r : Rename} {byPath d : List (Path × ℕ)} {v : ℕ} (h : r.Fits byPath)
    (hd : SwapTable.Distinct d) (hv : (r.oldPath, v) ∈ d) : r.Rekeys d (r.shift d v) := by
  have hfind : ∀ {p c}, SwapTable.find (r.shift d v) p = some c ↔ (p, c) ∈ r.shift d v :=
    SwapTable.find_eq_some (h.distinct_shift hd)
  refine ⟨?_, ?_, ?_, ?_⟩
  · intro w hw
    rw [hfind, h.mem_shift hd]
    rw [← SwapTable.find_eq_some hd, hw] at hv
    exact .inl ⟨rfl, Option.some.inj hv⟩
  · intro rest w hr hw
    rw [hfind, h.mem_shift hd]
    exact .inr (.inl ⟨rest, hr, (SwapTable.find_eq_some hd).mp hw, rfl⟩)
  · intro p hold hnew
    rw [Option.eq_none_iff_forall_ne_some]
    intro w hw
    rcases (h.mem_shift hd).mp (hfind.mp hw) with ⟨rfl, -⟩ | ⟨rest, -, -, rfl⟩ | ⟨-, hp, -⟩
    · exact hnew List.prefix_rfl
    · exact hnew (List.prefix_append _ _)
    · exact hp hold
  · intro p hold hnew
    apply Option.ext
    intro w
    rw [hfind, h.mem_shift hd, SwapTable.find_eq_some hd]
    constructor
    · rintro (⟨rfl, -⟩ | ⟨rest, -, -, rfl⟩ | ⟨hm, -⟩)
      · exact absurd List.prefix_rfl hnew
      · exact absurd (List.prefix_append _ _) hnew
      · exact hm
    · intro hm
      refine .inr (.inr ⟨hm, hold, ?_, fun _ => hnew, ?_⟩)
      · rintro rfl
        exact hnew List.prefix_rfl
      · rintro rest _ - rfl
        exact absurd (List.prefix_append _ _) hnew

theorem mounted_tidy (readOnly : Bool) {t : Tree} (ht : t.Closed) (b root : ℕ) :
    (Namespace.mounted readOnly t b root).Tidy := by
  refine .of_idle ht rfl ⟨?_, ?_, ?_, ?_, ?_, ?_⟩
  · simp [SwapTable.Distinct, Namespace.mounted]
  · simp [SwapTable.Distinct, Namespace.mounted]
  · intro p c hc
    obtain ⟨rfl, rfl⟩ : p = [] ∧ c = 0 := by simpa [Namespace.mounted] using hc
    exact ⟨_, rfl, rfl, by simp [Namespace.mounted]⟩
  · intro p q id hp hq
    obtain ⟨rfl, -⟩ : p = [] ∧ id = 2 := by simpa [Namespace.mounted] using hp
    obtain ⟨rfl, -⟩ : q = [] ∧ id = 2 := by simpa [Namespace.mounted] using hq
    rfl
  · intro p id hp
    obtain ⟨-, rfl⟩ : p = [] ∧ id = 2 := by simpa [Namespace.mounted] using hp
    simp [Namespace.mounted]
  · intro it hi
    obtain rfl : it = ⟨[], .directory, 2, root, false⟩ := by simpa [Namespace.mounted] using hi
    simp [Namespace.mounted]

/-- A step of a rename before its bookkeeping leaves the dictionaries alone. -/
theorem advance_dictionaries {s : Namespace} {r : Rename} {ok : RenameSteps}
    (hp : r.phase ≠ .rekey) : (s.advance .exact treeEngine ok r).2.itemByPath = s.itemByPath ∧
      (s.advance .exact treeEngine ok r).2.idByPath = s.idByPath := by
  unfold Namespace.advance
  cases hphase : r.phase with
  | park =>
    cases r.overItem with
    | none => exact ⟨rfl, rfl⟩
    | some o => simp only; split_ifs <;> exact ⟨rfl, rfl⟩
  | move => simp only; split_ifs <;> exact ⟨rfl, rfl⟩
  | rollback => cases r.overItem <;> exact ⟨rfl, rfl⟩
  | point => cases r.overItem <;> exact ⟨rfl, rfl⟩
  | drop => cases r.overItem <;> exact ⟨rfl, rfl⟩
  | rekey => exact absurd hphase hp

/-! ### Names that Swift and the engine tell apart alike -/

section

variable {T : PathText} (hT : T.Faithful names) {s : Namespace} (h : s.Over names)
include hT h

theorem cacheStep_faithful {e : CacheEvent} (he : e.Over names) :
    s.cacheStep T e = s.cacheStep .exact e ∧ (s.cacheStep .exact e).2.Over names := by
  cases e with
  | upcall e => exact Namespace.step_faithful hT h he
  | seed path =>
    refine ⟨?_, h.idFor he⟩
    simp only [Namespace.cacheStep, Namespace.idFor_faithful hT h he]

theorem promised_faithful {e : CacheEvent} (he : e.Over names) :
    s.Promised T e ↔ s.Promised .exact e := by
  have hfind : ∀ {p}, p ∈ pathsOver names → T.find s.itemByPath p = PathText.exact.find s.itemByPath p :=
    fun hp => hT.find h.itemByPath hp
  cases e with
  | seed path => exact Iff.rfl
  | upcall e =>
    cases e with
    | renameItem x dest name overItem uuid listed =>
      simp only [Namespace.Promised, Namespace.Current, hfind (h.pathOf x),
        hfind (h.child dest he)]
    | _ => exact Iff.rfl

end

/-- A run of such events, compared as the engine does. -/
theorem cacheRun_faithful {T : PathText} (hT : T.Faithful names)
    {ok : Namespace → CacheEvent → Prop} {s t : Namespace} (hs : s.Over names)
    (hrun : Run (Namespace.cacheStep T) (fun s e _ => s.Promised T e ∧ ok s e ∧ e.Over names) s t) :
    Run (Namespace.cacheStep .exact) (fun s e _ => s.Promised .exact e ∧ ok s e) s t ∧
      t.Over names := by
  refine hrun.transfer (fun s e hs hok => ?_) hs
  obtain ⟨hpromised, hrest, hover⟩ := hok
  obtain ⟨heq, hnext⟩ := cacheStep_faithful hT hs hover
  exact ⟨heq, ⟨(promised_faithful hT hs hover).mp hpromised, hrest⟩, hnext⟩

/-- In every run over names that Swift and the engine tell apart alike, in which a rename
without `overItem` finds nothing cached below the path it goes to, the dictionaries are in step
between any two sections; and a rename changes them in its last section only, where it moves the
item's entry and those below it, each dictionary by itself, and nothing outside the two
subtrees. -/
theorem caches_in_step {T : PathText} (hT : T.Faithful names) {readOnly : Bool} {t : Tree}
    {b root : ℕ} (ht : t.Closed) {s : Namespace}
    (hrun : Run (Namespace.cacheStep T)
      (fun s e _ => s.Promised T e ∧ s.Vacant e ∧ e.Over names) (.mounted readOnly t b root) s) :
    (s.pending = none → s.InStep ∧
      ∀ p q c, (p, c) ∈ s.itemByPath → (q, c) ∈ s.itemByPath → p = q) ∧
    ∀ r ok, s.pending = some r →
      (r.phase ≠ .rekey → (s.advance T treeEngine ok r).2.itemByPath = s.itemByPath ∧
        (s.advance T treeEngine ok r).2.idByPath = s.idByPath) ∧
      (r.phase = .rekey → r.Rekeys s.itemByPath (s.advance T treeEngine ok r).2.itemByPath ∧
        r.Rekeys s.idByPath (s.advance T treeEngine ok r).2.idByPath) := by
  have hstep : ∀ (s : Namespace) (e : CacheEvent), s.Tidy → s.Promised .exact e ∧ s.Vacant e →
      (s.cacheStep .exact e).2.Tidy := fun s e h hok => Namespace.step_tidy h hok
  obtain ⟨hexact, hover⟩ := cacheRun_faithful hT (mounted_over names readOnly t b root) hrun
  have htidy : s.Tidy := Run.invariant hstep hexact (mounted_tidy readOnly ht b root)
  refine ⟨fun hp => ⟨htidy.idle hp, fun p q c => Caches.once (htidy.idle hp)⟩, ?_⟩
  intro r ok hr
  rw [(Namespace.advance_faithful hT hover ok (hover.pending r hr)).1]
  refine ⟨fun hp => advance_dictionaries hp, fun hp => ?_⟩
  obtain ⟨items, h, hch, hstage⟩ := htidy.busy r hr
  simp only [hp] at hstage
  obtain ⟨hitems, hapart, hclear⟩ := hstage
  have hf : r.Fits s.itemByPath := ⟨hch, hclear, hapart⟩
  obtain ⟨xt, hx, -, hid⟩ := h.keyed _ _ hf.item
  obtain ⟨-, h2, h3, -⟩ := Namespace.rekey_tables h hf hitems hx
  have hadv : (s.advance .exact treeEngine ok r).2 = s.rekey .exact r := by
    simp [Namespace.advance, hp]
  rw [hadv, h2, h3]
  exact ⟨hf.rekeys h.items_distinct hf.item, hf.rekeys h.ids_distinct hid⟩

/-- While failed renames are rolled back, cached paths resolve, so nothing is cached below a
path the engine lets a rename go to. -/
theorem vacant_of_good {s : Namespace} (h : s.Good) {e : Upcall} (hok : s.Allowed .exact e) :
    s.Vacant (.upcall e) := by
  cases e with
  | renameItem x dest name overItem uuid listed =>
    cases overItem with
    | some o => exact trivial
    | none =>
      have hidle := (Namespace.good_none hok.1).mp h
      by_cases htaken : Namespace.Taken s.tree (s.pathOf x) (s.pathOf dest ++ [name])
      · exact .inl htaken
      by_cases hsame : s.pathOf dest ++ [name] = s.pathOf x
      · exact .inr (.inl hsame)
      refine .inr (.inr ?_)
      rintro ⟨p, c⟩ hm hb
      obtain ⟨rest, hr, rfl⟩ := below_iff.mp hb
      obtain ⟨d, hd, hk⟩ := hidle.wf.closed.below hr
        (Option.isSome_iff_ne_none.mpr (hidle.node_cached hm))
      have hnew := Tree.inodeAt_eq_some.mpr ⟨d, hd, rfl⟩
      have hold : s.tree.inodeAt (s.pathOf x) = some d.number := by
        by_contra hne
        exact htaken ⟨by rw [hnew]; simp, by rw [hnew]; exact Ne.symm hne⟩
      obtain ⟨i, hi, hnum⟩ := Tree.inodeAt_eq_some.mp hold
      exact (hidle.wf.single _ _ d i hd hi hnum.symm hsame).2 hk
  | _ => exact trivial

/-- In runs over such names whose failed renames are rolled back the dictionaries are in
step. -/
theorem rolledBack_in_step {T : PathText} (hT : T.Faithful names) {readOnly : Bool} {t : Tree}
    {b root : ℕ} (ht : t.Wf b) (hroot : node t [] = some ⟨root, .directory⟩) {s : Namespace}
    (hrun : Run (Namespace.cacheStep T) (fun s e _ => s.Promised T e ∧
      (∀ u, e = .upcall u → s.Allowed T u ∧ s.RollsBack u) ∧ e.Over names)
      (.mounted readOnly t b root) s) (hp : s.pending = none) : s.InStep := by
  have hstep : ∀ (s : Namespace) (e : CacheEvent), s.Tidy ∧ s.Good ∧ s.Over names →
      (s.Promised T e ∧ (∀ u, e = .upcall u → s.Allowed T u ∧ s.RollsBack u) ∧ e.Over names) →
      (s.cacheStep T e).2.Tidy ∧ (s.cacheStep T e).2.Good ∧ (s.cacheStep T e).2.Over names := by
    rintro s e ⟨htidy, hgood, hs⟩ ⟨hok, hup, hover⟩
    have hok := (promised_faithful hT hs hover).mp hok
    obtain ⟨heq, hnext⟩ := cacheStep_faithful hT hs hover
    rw [heq]
    cases e with
    | seed path =>
      refine ⟨Namespace.step_tidy htidy ⟨hok, trivial⟩, ?_, hnext⟩
      have hnone : (s.cacheStep .exact (.seed path)).2.pending = none :=
        (Namespace.idFor_pending .exact path s).trans hok
      rw [Namespace.good_none hnone]
      simp only [Namespace.cacheStep, Namespace.idFor_tree, Namespace.idFor_nextInode,
        Namespace.idFor_items, Namespace.idFor_itemByPath]
      exact (Namespace.good_none hok).mp hgood
    | upcall u =>
      obtain ⟨hallow, hback⟩ := hup u rfl
      have hallow := (Namespace.allowed_faithful hT hs hover).mp hallow
      exact ⟨Namespace.step_tidy htidy ⟨hok, vacant_of_good hgood hallow⟩,
        (Namespace.step_good hgood hallow hback).1, hnext⟩
  have hinv := Run.invariant hstep hrun ⟨mounted_tidy readOnly ht.closed b root,
    mounted_good readOnly ht hroot, mounted_over names readOnly t b root⟩
  exact hinv.1.idle hp

/-- All library steps fail. -/
def allFail : RenameSteps := ⟨false, false, false⟩

/-- The state after events on an empty volume. -/
def seeded (es : List CacheEvent) : Namespace :=
  execAll (Namespace.cacheStep .accented) es (.mounted false rootOnly 64 5)

/-- A directory `d` with an item for `f` and an identifier for `g`, on its way to `e`. -/
def movedDirectory : List CacheEvent :=
  [.upcall (.createItem 0 (.plain "d") .directory true true),
    .upcall (.createItem 1 (.plain "f") .file true true), .seed [.plain "d", .plain "g"],
    .upcall (.renameItem 1 0 (.plain "e") none 7 true), .upcall (.advance allOk)]

theorem caches_in_step_moved_directory :
    (seeded (movedDirectory ++ [.upcall (.advance allOk)])).InStep ∧
    SwapTable.find ((seeded movedDirectory).advance .accented treeEngine allOk
      ⟨1, [.plain "d"], 0, [], .plain "e", none, .rekey⟩).2.itemByPath [.plain "e", .plain "f"] =
        some 2 ∧
    SwapTable.find ((seeded movedDirectory).advance .accented treeEngine allOk
      ⟨1, [.plain "d"], 0, [], .plain "e", none, .rekey⟩).2.idByPath [.plain "e", .plain "g"] =
        some 103 := by
  have hend : Run (Namespace.cacheStep .accented)
      (fun s e _ => s.Promised .accented e ∧ s.Vacant e ∧ e.Over PathText.unaccented)
      (.mounted false rootOnly 64 5) (seeded (movedDirectory ++ [.upcall (.advance allOk)])) :=
    Run.of_execAll (by decide +kernel)
  have hmid : Run (Namespace.cacheStep .accented)
      (fun s e _ => s.Promised .accented e ∧ s.Vacant e ∧ e.Over PathText.unaccented)
      (.mounted false rootOnly 64 5) (seeded movedDirectory) := Run.of_execAll (by decide +kernel)
  obtain ⟨-, hre⟩ := caches_in_step PathText.accented_faithful rootOnly_wf.closed hmid
  obtain ⟨-, hrekey⟩ := hre ⟨1, [.plain "d"], 0, [], .plain "e", none, .rekey⟩ allOk
    (by decide +kernel)
  obtain ⟨hitems, hids⟩ := hrekey rfl
  refine ⟨((caches_in_step PathText.accented_faithful rootOnly_wf.closed hend).1
    (by decide +kernel)).1, ?_, ?_⟩
  · exact hitems.moved [.plain "f"] 2 (by decide) (by decide +kernel)
  · exact hids.moved [.plain "g"] 103 (by decide) (by decide +kernel)

/-- A victim whose rollback failed stays cached under a name it no longer has. When its
directory is gone and another directory takes that name, identifiers seeded below the other
directory move under the victim's path. -/
def staleBelow : List CacheEvent :=
  [.upcall (.createItem 0 (.plain "d") .directory true true),
    .upcall (.createItem 1 (.plain "f") .file true true),
    .upcall (.createItem 0 (.plain "x") .file true true),
    .upcall (.renameItem 3 1 (.plain "f") (some 2) 7 true), .upcall (.advance allOk),
    .upcall (.advance allFail), .upcall (.advance allFail),
    .upcall (.lookupItem 1 (.nkOver 7 65)), .upcall (.removeItem 4 true),
    .upcall (.removeItem 1 true), .upcall (.createItem 0 (.plain "e") .directory true true),
    .upcall (.createItem 5 (.plain "f") .file true true), .upcall (.reclaimItem 6),
    .upcall (.renameItem 5 0 (.plain "d") none 8 true), .upcall (.advance allOk),
    .upcall (.advance allOk)]

theorem stale_item_loses_identifier :
    Run (Namespace.cacheStep .accented)
      (fun s e _ => s.Promised .accented e ∧ e.Over PathText.unaccented) (.mounted false rootOnly 64 5)
      (seeded staleBelow) ∧
    (seeded staleBelow).pending = none ∧
    SwapTable.find (seeded staleBelow).itemByPath [.plain "d", .plain "f"] = some 2 ∧
    ((seeded staleBelow).items[2]?).map Item.identifier = some 102 ∧
    SwapTable.find (seeded staleBelow).idByPath [.plain "d", .plain "f"] = some 106 ∧
    ¬ (seeded staleBelow).InStep := by
  have hitem : ([.plain "d", .plain "f"], 2) ∈ (seeded staleBelow).itemByPath := by
    decide +kernel
  have hid : ((seeded staleBelow).items[2]?).map Item.identifier = some 102 := by decide +kernel
  refine ⟨Run.of_execAll (by decide +kernel), by decide +kernel, by decide +kernel, hid,
    by decide +kernel, fun h => ?_⟩
  obtain ⟨it, hi, -, hkey⟩ := Caches.keyed h _ _ hitem
  rw [hi, Option.map_some] at hid
  rw [Option.some.inj hid] at hkey
  exact absurd hkey (by decide +kernel)

end NtfsKit
