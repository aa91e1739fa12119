import NtfsKit.Lib.Run
import NtfsKit.Volume.Upcalls

/-! Runs in which only names are used that Swift and the engine tell apart alike. Every path
the volume keeps is then made of these names, and each upcall does what it would do if Swift
compared names as the engine does. -/

namespace NtfsKit

variable {σ : Type} {T : PathText} {E : NameEngine σ} {names : Set Name} {r : Rename} {p : Path}

/-- The paths a rename works with are made of these names. -/
structure Rename.Over (names : Set Name) (r : Rename) : Prop where
  oldPath : r.oldPath ∈ pathsOver names
  newPath : r.newPath ∈ pathsOver names
  victim : ∀ o ∈ r.overItem, o.path ∈ pathsOver names ∧ o.tmpName ∈ names

/-- Every path in the volume's tables is made of these names. -/
structure Namespace.Over (names : Set Name) (s : Namespace σ) : Prop where
  items : ∀ it ∈ s.items, it.path ∈ pathsOver names
  itemByPath : ∀ e ∈ s.itemByPath, e.1 ∈ pathsOver names
  idByPath : ∀ e ∈ s.idByPath, e.1 ∈ pathsOver names
  dirGen : ∀ e ∈ s.dirGen, e.1 ∈ pathsOver names
  pending : ∀ r ∈ s.pending, r.Over names

/-- The upcall passes one of these names, if it passes one. -/
def Upcall.Over (names : Set Name) : Upcall → Prop
  | .lookupItem _ name | .createItem _ name _ _ _ | .createSymbolicLink _ name _
  | .renameItem _ _ name _ _ _ => name ∈ names
  | .removeItem _ _ | .reclaimItem _ | .advance _ | .io _ => True

instance [DecidablePred (· ∈ names)] : ∀ e : Upcall, Decidable (e.Over names)
  | .lookupItem _ name | .createItem _ name _ _ _ | .createSymbolicLink _ name _
  | .renameItem _ _ name _ _ _ => inferInstanceAs (Decidable (name ∈ names))
  | .removeItem _ _ | .reclaimItem _ | .advance _ | .io _ => inferInstanceAs (Decidable True)

namespace Namespace

variable {s : Namespace σ}

/-! ### The paths that are kept -/

namespace Over

variable (h : s.Over names)
include h

theorem pathOf (x : ℕ) : s.pathOf x ∈ pathsOver names := by
  unfold Namespace.pathOf
  cases hx : s.items[x]? with
  | none => exact fun n hn => absurd hn List.not_mem_nil
  | some it => exact h.items it (List.mem_of_getElem? hx)

theorem child (dir : ℕ) {name : Name} (hn : name ∈ names) :
    s.pathOf dir ++ [name] ∈ pathsOver names :=
  PathText.append_over.mpr ⟨h.pathOf dir, by simpa [pathsOver] using hn⟩

/-- Whatever else changes, paths do not. -/
theorem congr {t : Namespace σ} (hi : ∀ it ∈ t.items, it.path ∈ pathsOver names)
    (hb : ∀ e ∈ t.itemByPath, e ∈ s.itemByPath) (hd : ∀ e ∈ t.idByPath, e ∈ s.idByPath)
    (hg : t.dirGen = s.dirGen) (hp : t.pending = s.pending) : t.Over names :=
  ⟨hi, fun e he => h.itemByPath e (hb e he), fun e he => h.idByPath e (hd e he), hg ▸ h.dirGen,
    hp ▸ h.pending⟩

theorem idFor (hp : p ∈ pathsOver names) : (s.idFor T p).2.Over names := by
  unfold Namespace.idFor
  split
  · exact h
  · exact ⟨h.items, h.itemByPath, PathText.keys_set h.idByPath hp _, h.dirGen, h.pending⟩

theorem itemFor (hp : p ∈ pathsOver names) (kind : Kind) (i : ℕ) :
    (s.itemFor T p kind i).2.Over names := by
  unfold Namespace.itemFor
  split
  · exact h
  · have hid : (s.idFor T p).2.Over names := h.idFor hp
    refine ⟨fun it hi => ?_, PathText.keys_set hid.itemByPath hp _, hid.idByPath, hid.dirGen,
      hid.pending⟩
    rcases List.mem_append.mp hi with hi | hi
    · exact hid.items it hi
    · rw [List.mem_singleton.mp hi]
      exact hp

theorem mutateNamespace {dirs : List Path} (hd : ∀ p ∈ dirs, p ∈ pathsOver names) :
    (s.mutateNamespace T dirs).Over names := by
  unfold Namespace.mutateNamespace
  induction dirs generalizing s with
  | nil => exact h
  | cons p dirs ih =>
    obtain ⟨hp, hd⟩ := List.forall_mem_cons.mp hd
    exact ih ⟨h.items, h.itemByPath, h.idByPath, PathText.keys_set h.dirGen hp _, h.pending⟩ hd

theorem bury (x : ℕ) : (s.bury x).Over names := by
  refine h.congr (fun it hi => ?_) (fun _ he => he) (fun _ he => he) rfl rfl
  obtain ⟨c, hc⟩ := List.mem_iff_getElem?.mp hi
  obtain ⟨jt, hj, rfl⟩ := lookup_modify.mp hc
  have := h.items jt (List.mem_of_getElem? hj)
  split_ifs <;> exact this

end Over

/-! ### The operations on the tables -/

section

variable (hT : T.Faithful names) (h : s.Over names)
include hT h

theorem idFor_faithful (hp : p ∈ pathsOver names) : s.idFor T p = s.idFor .exact p := by
  simp only [idFor, hT.find h.idByPath hp, hT.set h.idByPath hp]

theorem itemFor_faithful (hp : p ∈ pathsOver names) (kind : Kind) (i : ℕ) :
    s.itemFor T p kind i = s.itemFor .exact p kind i := by
  have hid : (s.idFor .exact p).2.Over names := h.idFor hp
  simp only [itemFor, hT.find h.itemByPath hp, idFor_faithful hT h hp,
    hT.set hid.itemByPath hp]

theorem mutateNamespace_faithful {dirs : List Path} (hd : ∀ p ∈ dirs, p ∈ pathsOver names) :
    s.mutateNamespace T dirs = s.mutateNamespace .exact dirs := by
  unfold mutateNamespace
  induction dirs generalizing s with
  | nil => rfl
  | cons p dirs ih =>
    obtain ⟨hp, hd⟩ := List.forall_mem_cons.mp hd
    rw [List.foldl_cons, List.foldl_cons, hT.set h.dirGen hp]
    exact ih ⟨h.items, h.itemByPath, h.idByPath, PathText.keys_set h.dirGen hp _, h.pending⟩ hd

end

/-! ### The bookkeeping of a rename -/

end Namespace

section

variable {d : List (Path × ℕ)} (hr : r.Over names) (hd : ∀ e ∈ d, e.1 ∈ pathsOver names)
include hr hd

omit hr in
theorem evict_over : ∀ e ∈ r.evict T d, e.1 ∈ pathsOver names := by
  unfold Rename.evict
  cases r.overItem with
  | none => exact hd
  | some o => exact PathText.keys_dropBelow (PathText.keys_drop hd)

theorem entered_over (v : ℕ) : ∀ e ∈ r.entered T d v, e.1 ∈ pathsOver names :=
  PathText.keys_set (PathText.keys_drop (evict_over hd)) hr.newPath v

variable (hT : T.Faithful names)
include hT

theorem evict_faithful : r.evict T d = r.evict .exact d := by
  unfold Rename.evict
  cases ho : r.overItem with
  | none => rfl
  | some o =>
    obtain ⟨hp, -⟩ := hr.victim o ho
    simp only
    rw [hT.drop hd hp, hT.dropBelow (PathText.keys_drop hd) hp]

theorem entered_faithful (v : ℕ) : r.entered T d v = r.entered .exact d v := by
  have hev : ∀ e ∈ r.evict .exact d, e.1 ∈ pathsOver names := evict_over hd
  rw [Rename.entered, Rename.entered, evict_faithful hr hd hT, hT.drop hev hr.oldPath,
    hT.set (PathText.keys_drop hev) hr.newPath]

theorem repath_faithful : r.repath T d = r.repath .exact d := by
  have hfind : ∀ c, (d.find? fun e => e.2 = c ∧ T.Beneath r.oldPath e.1) =
      d.find? fun e => e.2 = c ∧ PathText.exact.Beneath r.oldPath e.1 := by
    intro c
    refine List.find?_congr fun e he => ?_
    simp only [hT.beneath hr.oldPath (hd e he)]
  funext c it
  simp only [Rename.repath, hfind]

end

namespace Namespace

variable {s : Namespace σ}

theorem rekey_dirs (hr : r.Over names) :
    ∀ p ∈ [r.oldPath.dropLast, r.destPath, r.oldPath, r.newPath], p ∈ pathsOver names := by
  simp only [List.forall_mem_cons, List.not_mem_nil, false_implies, implies_true, and_true]
  exact ⟨PathText.dropLast_over hr.oldPath, (PathText.append_over.mp hr.newPath).1, hr.oldPath,
    hr.newPath⟩

theorem Over.rekey (h : s.Over names) (hr : r.Over names) : (s.rekey T r).Over names := by
  have ht : (s.mutateNamespace T [r.oldPath.dropLast, r.destPath, r.oldPath, r.newPath]).Over
      names := h.mutateNamespace (rekey_dirs hr)
  have hent := entered_over (T := T) hr ht.itemByPath r.item
  refine ⟨fun it hi => ?_, PathText.keys_rekeyBelow hent hr.newPath,
    PathText.keys_rekeyBelow (entered_over hr ht.idByPath _) hr.newPath, ht.dirGen,
    fun _ hq => by cases hq⟩
  obtain ⟨c, hc⟩ := List.mem_iff_getElem?.mp hi
  rw [Namespace.rekey, List.getElem?_mapIdx, Option.map_eq_some_iff] at hc
  obtain ⟨jt, hj, rfl⟩ := hc
  unfold Rename.repath
  split
  case h_1 e he =>
    have hmem := hent e (List.mem_of_find?_eq_some he)
    exact PathText.append_over.mpr ⟨hr.newPath, PathText.drop_over _ hmem⟩
  case h_2 =>
    split_ifs
    · exact hr.newPath
    · exact ht.items jt (List.mem_of_getElem? hj)

theorem rekey_faithful (hT : T.Faithful names) (h : s.Over names) (hr : r.Over names) :
    s.rekey T r = s.rekey .exact r := by
  have ht := h.mutateNamespace (T := .exact) (rekey_dirs hr)
  have hb := entered_faithful hr ht.itemByPath hT
  have hd := entered_faithful hr ht.idByPath hT
  simp only [rekey, mutateNamespace_faithful hT h (rekey_dirs hr), hb, hd,
    repath_faithful hr (entered_over hr ht.itemByPath _) hT, evict_faithful hr ht.idByPath hT,
    hT.find (evict_over ht.idByPath) hr.oldPath,
    hT.rekeyBelow (entered_over hr ht.itemByPath _) hr.oldPath hr.newPath,
    hT.rekeyBelow (entered_over hr ht.idByPath _) hr.oldPath hr.newPath]

/-! ### The upcalls -/

theorem Over.pend (h : s.Over names) {q : Rename} (hq : q.Over names) :
    ({ s with pending := some q } : Namespace σ).Over names :=
  ⟨h.items, h.itemByPath, h.idByPath, h.dirGen, fun _ hr => Option.some.inj hr ▸ hq⟩

theorem Over.settle (h : s.Over names) : ({ s with pending := none } : Namespace σ).Over names :=
  ⟨h.items, h.itemByPath, h.idByPath, h.dirGen, fun _ hr => by cases hr⟩

/-- The engine's names are not among the tables. -/
theorem Over.withTree (h : s.Over names) (t : σ) : ({ s with tree := t } : Namespace σ).Over names :=
  ⟨h.items, h.itemByPath, h.idByPath, h.dirGen, h.pending⟩

section

variable (hT : T.Faithful names) (h : s.Over names)
include hT h

theorem lookupItem_faithful (dir : ℕ) {name : Name} (hn : name ∈ names) :
    s.lookupItem T E dir name = s.lookupItem .exact E dir name ∧
      (s.lookupItem .exact E dir name).2.Over names := by
  have hp := h.child dir hn
  simp only [lookupItem, itemFor_faithful hT h hp, true_and]
  split
  · exact h
  · exact h.itemFor hp _ _

theorem reclaimItem_faithful (x : ℕ) : s.reclaimItem T x = s.reclaimItem .exact x ∧
    (s.reclaimItem .exact x).2.Over names := by
  have hp := h.pathOf x
  simp only [reclaimItem, hT.find h.itemByPath hp, hT.drop h.itemByPath hp, true_and]
  refine Over.bury ?_ x
  split_ifs
  · exact h.congr h.items (fun e he => List.mem_of_mem_filter he) (fun _ he => he) rfl rfl
  · exact h

theorem renameItem_faithful (x dest : ℕ) {name : Name} (hn : name ∈ names) (overItem : Option ℕ)
    (uuid : ℕ) (listed : Bool) :
    s.renameItem T E x dest name overItem uuid listed =
      s.renameItem .exact E x dest name overItem uuid listed ∧
    (s.renameItem .exact E x dest name overItem uuid listed).2.Over names := by
  have hform : T.form (s.pathOf dest) = T.form (s.pathOf x) ↔ s.pathOf dest = s.pathOf x :=
    ⟨hT.form_inj (h.pathOf dest) (h.pathOf x), fun heq => by rw [heq]⟩
  have hbeneath := hT.beneath (h.pathOf x) (h.pathOf dest)
  refine ⟨by simp only [renameItem, hform, hbeneath, PathText.exact_form], ?_⟩
  have hbegin : ∀ (o : Option Victim) (phase : Phase),
      (∀ v ∈ o, v.path ∈ pathsOver names ∧ v.tmpName ∈ names) →
      ({ s with pending := some ⟨x, s.pathOf x, dest, s.pathOf dest, name, o, phase⟩ } :
        Namespace σ).Over names :=
    fun o phase ho => h.pend ⟨h.pathOf x, h.child _ hn, ho⟩
  unfold renameItem
  split_ifs
  · exact h
  extract_lets oldPath destPath start
  split_ifs
  · exact h
  split
  · exact hbegin none .move fun v hv => by cases hv
  · rename_i o _
    extract_lets overPath calls isDir shown inode
    split_ifs
    · exact h
    · exact h
    · exact h
    · refine hbegin (some ⟨o, overPath, .nkOver uuid inode⟩) .park fun v hv => ?_
      rw [← Option.some.inj hv]
      exact ⟨h.pathOf o, hT.hidden _ _⟩

theorem advance_faithful (ok : RenameSteps) (hr : r.Over names) :
    s.advance T E ok r = s.advance .exact E ok r ∧ (s.advance .exact E ok r).2.Over names := by
  refine ⟨by simp only [advance, rekey_faithful hT h hr], ?_⟩
  have hnext : ∀ (t : Namespace σ) (p : Phase), t.Over names →
      ({ t with pending := some { r with phase := p } } : Namespace σ).Over names :=
    fun t p ht => ht.pend ⟨hr.oldPath, hr.newPath, hr.victim⟩
  unfold advance
  extract_lets next fail
  split
  · simp only
    split_ifs
    · exact hnext _ _ (h.withTree _)
    · exact (h.withTree _).settle
  · split
    · exact hnext _ _ (h.withTree _)
    · split_ifs
      · exact hnext _ _ (h.withTree _)
      · exact (h.withTree _).settle
  · exact (h.withTree _).settle
  · rename_i o _ ho
    refine hnext _ _ (h.congr (fun it hi => ?_) (fun _ he => he) (fun _ he => he) rfl rfl)
    obtain ⟨c, hc⟩ := List.mem_iff_getElem?.mp hi
    obtain ⟨jt, hj, rfl⟩ := lookup_modify.mp hc
    split_ifs
    · obtain ⟨hpath, htmp⟩ := hr.victim o ho
      exact PathText.append_over.mpr ⟨PathText.dropLast_over hpath, by simpa [pathsOver] using htmp⟩
    · exact h.items jt (List.mem_of_getElem? hj)
  · exact hnext _ _ (h.withTree _)
  · exact h.rekey hr
  · exact h.settle

end

end Namespace

/-! ### The steps -/

namespace Namespace

variable {s : Namespace} (hT : T.Faithful names) (h : s.Over names)
include hT h

theorem create_faithful (dir : ℕ) {name : Name} (hn : name ∈ names) (kind : Kind)
    (made closed : Bool) : s.create T dir name kind made closed =
      s.create .exact dir name kind made closed ∧
    (s.create .exact dir name kind made closed).2.Over names := by
  have hp := h.child dir hn
  have hdirs : ∀ p ∈ [s.pathOf dir, s.pathOf dir ++ [name]], p ∈ pathsOver names := by
    simpa using ⟨h.pathOf dir, hp⟩
  let t : Namespace := { s with
    tree := (createNode made closed (s.pathOf dir) name ⟨s.nextInode, kind⟩ s.tree).2
    nextInode := s.nextInode + 1 }
  have ht : t.Over names := ⟨h.items, h.itemByPath, h.idByPath, h.dirGen, h.pending⟩
  have hb := ht.mutateNamespace (T := .exact) hdirs
  have hm : t.mutateNamespace T [s.pathOf dir, s.pathOf dir ++ [name]] =
      t.mutateNamespace .exact [s.pathOf dir, s.pathOf dir ++ [name]] :=
    mutateNamespace_faithful hT ht hdirs
  have hi := itemFor_faithful hT hb hp kind s.nextInode
  constructor
  · simp only [create]
    split_ifs
    · rfl
    · rfl
    · rw [hm, hi]
  · unfold create
    split_ifs
    · exact h
    extract_lets dirPath calls c t' childPath r
    split_ifs
    · exact ht
    · exact hb.itemFor hp kind s.nextInode

theorem removeItem_faithful (x : ℕ) (ok : Bool) : s.removeItem T x ok = s.removeItem .exact x ok ∧
    (s.removeItem .exact x ok).2.Over names := by
  have hp := h.pathOf x
  have hdirs : ∀ p ∈ [(s.pathOf x).dropLast, s.pathOf x], p ∈ pathsOver names := by
    simpa using ⟨PathText.dropLast_over hp, hp⟩
  have ht := h.withTree (nkDelete ok (s.pathOf x) s.tree).2
  have hb := ht.mutateNamespace (T := .exact) hdirs
  constructor
  · simp only [removeItem, mutateNamespace_faithful hT ht hdirs, hT.drop hb.idByPath hp,
      hT.drop hb.itemByPath hp]
  · unfold removeItem
    split_ifs
    · exact h
    extract_lets path calls d t
    split_ifs
    · exact ht
    · refine Over.bury ?_ x
      exact hb.congr hb.items (fun e he => List.mem_of_mem_filter he)
        (fun e he => List.mem_of_mem_filter he) rfl rfl

/-- A step that passes such names is the step with names compared as the engine does. -/
theorem step_faithful {e : Upcall} (he : e.Over names) :
    s.step T e = s.step .exact e ∧ (s.step .exact e).2.Over names := by
  cases e with
  | lookupItem dir name => exact lookupItem_faithful hT h dir he
  | createItem dir name kind made closed =>
    simp only [step, createItem]
    split_ifs
    · exact ⟨rfl, h⟩
    · exact create_faithful hT h dir he kind made closed
  | createSymbolicLink dir name made => exact create_faithful hT h dir he .symlink made true
  | removeItem x ok => exact removeItem_faithful hT h x ok
  | reclaimItem x => exact reclaimItem_faithful hT h x
  | renameItem x dest name overItem uuid listed =>
    exact renameItem_faithful hT h x dest he overItem uuid listed
  | advance ok =>
    simp only [step]
    cases hr : s.pending with
    | none => exact ⟨rfl, h⟩
    | some r => exact advance_faithful hT h ok (h.pending r hr)
  | io x => exact ⟨rfl, h⟩

theorem allowed_faithful {e : Upcall} (he : e.Over names) : s.Allowed T e ↔ s.Allowed .exact e := by
  cases e with
  | renameItem x dest name overItem uuid listed =>
    simp only [Allowed, hT.find h.itemByPath (h.child dest he)]
  | _ => exact Iff.rfl

end Namespace

/-- A run that passes such names, compared as the engine does. -/
theorem run_faithful (hT : T.Faithful names) {ok : Namespace → Upcall → Prop} {s t : Namespace}
    (hs : s.Over names)
    (hrun : Run (Namespace.step T) (fun s e _ => s.Allowed T e ∧ ok s e ∧ e.Over names) s t) :
    Run (Namespace.step .exact) (fun s e _ => s.Allowed .exact e ∧ ok s e) s t ∧ t.Over names := by
  refine hrun.transfer (fun s e hs hok => ?_) hs
  obtain ⟨hallow, hrest, hover⟩ := hok
  obtain ⟨heq, hnext⟩ := Namespace.step_faithful hT hs hover
  exact ⟨heq, ⟨(Namespace.allowed_faithful hT hs hover).mp hallow, hrest⟩, hnext⟩

/-- A volume as it is mounted, with one item, the root's. -/
def Namespace.mounted (readOnly : Bool) (t : σ) (nextInode root : ℕ) : Namespace σ where
  readOnly := readOnly
  tree := t
  nextInode := nextInode
  items := [⟨[], .directory, 2, root, false⟩]
  itemByPath := [([], 0)]
  idByPath := [([], 2)]
  nextID := 100
  dirGen := []
  genCounter := 1
  pending := none

theorem mounted_over (names : Set Name) (readOnly : Bool) (t : σ) (b root : ℕ) :
    (Namespace.mounted readOnly t b root).Over names := by
  refine ⟨?_, ?_, ?_, ?_, ?_⟩ <;> simp [Namespace.mounted, pathsOver]

end NtfsKit
