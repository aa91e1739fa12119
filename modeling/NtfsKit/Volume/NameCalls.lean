import NtfsKit.Volume.Course

/-! Calls on names, each in one hold of `stateLock`, and the identifiers an enumeration draws.
Between two of them no rename is under way. -/

namespace NtfsKit

/-- An upcall on names, or `id(for:)` for a path an enumeration packs. -/
inductive NameCall
  | lookupItem (dir : ℕ) (name : Name)
  | createItem (dir : ℕ) (name : Name) (kind : Kind) (made closed : Bool)
  | createSymbolicLink (dir : ℕ) (name : Name) (made : Bool)
  | removeItem (item : ℕ) (ok : Bool)
  | reclaimItem (item : ℕ)
  | renameItem (a : RenameCall)
  | seed (path : Path)

namespace Namespace

variable (T : PathText)

def nameStep (s : Namespace) : NameCall → Option (Except Errno (Option ℕ)) × Namespace
  | .lookupItem dir name => (s.lookupItem T treeEngine dir name).map UpcallReply.result id
  | .createItem dir name kind made closed =>
    (s.createItem T dir name kind made closed).map UpcallReply.result id
  | .createSymbolicLink dir name made =>
    (s.createSymbolicLink T dir name made).map UpcallReply.result id
  | .removeItem x ok => (s.removeItem T x ok).map UpcallReply.result id
  | .reclaimItem x => (s.reclaimItem T x).map UpcallReply.result id
  | .renameItem a => ((s.renameCall T treeEngine a).result, (s.renameCall T treeEngine a).final)
  | .seed path => (some (.ok none), (s.idFor T path).2)

/-- The identifiers an enumeration packs for these paths, in turn. -/
def packIDs : List Path → Namespace → List ℕ × Namespace
  | [], s => ([], s)
  | p :: ps, s =>
    let r := s.idFor T p
    let rest := packIDs ps r.2
    (r.1 :: rest.1, rest.2)

variable {T} {s : Namespace}

theorem create_pending (h : s.pending = none) (dir : ℕ) (name : Name) (kind : Kind)
    (made closed : Bool) : (s.create T dir name kind made closed).2.pending = none := by
  unfold create
  split_ifs
  · exact h
  extract_lets dirPath calls c t childPath r
  split_ifs
  · exact h
  · exact (itemFor_pending T _ _ _ _).trans ((mutateNamespace_pending T _ _).trans h)

/-- No call leaves a rename under way. -/
theorem nameStep_pending (h : s.pending = none) (e : NameCall) :
    (s.nameStep T e).2.pending = none := by
  cases e with
  | lookupItem dir name =>
    simp only [nameStep, lookupItem, Prod.map_snd, id_eq]
    cases treeEngine.stat s.tree (s.pathOf dir ++ [name]) with
    | none => exact h
    | some i => exact (itemFor_pending T _ _ _ _).trans h
  | createItem dir name kind made closed =>
    simp only [nameStep, createItem, Prod.map_snd, id_eq]
    split_ifs
    · exact h
    · exact create_pending h dir name kind made closed
  | createSymbolicLink dir name made => exact create_pending h dir name .symlink made true
  | removeItem x ok =>
    simp only [nameStep, removeItem, Prod.map_snd, id_eq]
    split_ifs
    · exact h
    · exact h
    · exact (mutateNamespace_pending T _ _).trans h
  | reclaimItem x =>
    simp only [nameStep, reclaimItem, Prod.map_snd, id_eq]
    split_ifs <;> exact h
  | renameItem a =>
    have hend := renameCall_ending T treeEngine a h
    simp only [nameStep]
    generalize (s.renameCall T treeEngine a).result = res at hend
    generalize (s.renameCall T treeEngine a).final = t at hend ⊢
    cases hend with
    | moved | replaced => rfl
    | _ => exact h
  | seed path => exact (idFor_pending T path s).trans h

end Namespace

end NtfsKit
