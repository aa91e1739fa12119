import NtfsKit.Lib.PathTree
import NtfsKit.Volume.PathText

/-! Names and items. The engine resolves paths in its tree of names; the volume hands an
`NTFSItem` to the kernel for every path it looked up or created, and reaches the file
through that item's path from then on. The operations on names hold `stateLock` and so
exclude each other; an engine call is atomic. `renameItem` makes several engine calls and
rewrites the paths of the items afterwards, so calls through other items fall between its
steps. The other operations make one engine call that changes names, and their bookkeeping
changes no item's path: each is one step. -/

namespace NtfsKit

inductive Kind
  | file
  | directory
  | symlink
  deriving DecidableEq, Repr

/-- What a name stands for: an MFT inode and its type. -/
structure Inode where
  number : ℕ
  kind : Kind
  deriving DecidableEq, Repr

abbrev Tree := List (Path × Inode)

open PathTree

/-- Which inode a path resolves to. -/
def Tree.inodeAt (t : Tree) (p : Path) : Option ℕ := (node t p).map Inode.number

/-! ### The engine's calls on names -/

/-- Which of the library's steps in `nk_rename` succeed: linking the new name, deleting the
old one, and taking the new link back after a failed delete. -/
structure RenameSteps where
  link : Bool
  delete : Bool
  undo : Bool

/-- `nk_rename`: link under the new name, then delete the old name. -/
def nkRename (ok : RenameSteps) (old dir : Path) (name : Name) (t : Tree) : Bool × Tree :=
  let new := dir ++ [name]
  match node t old, node t dir with
  | some ni, some d =>
    if d.kind ≠ .directory then (false, t)
    -- another name of the same file: nothing to do
    else if t.inodeAt new = some ni.number then (true, t)
    else if (node t new).isSome ∨ ok.link = false then (false, t)
    else if ok.delete ∧ old ≠ [] then (true, move old new t)
    else if ok.undo then (false, t)
    else (false, link old new t)
  | _, _ => (false, t)

/-- `nk_delete`: a name whose directory, if it is one, is empty. -/
def nkDelete (ok : Bool) (path : Path) (t : Tree) : Bool × Tree :=
  if ok ∧ path ≠ [] ∧ (node t path).isSome ∧ leaf t path then (true, unlink path t) else (false, t)

/-- `create_node` and `nk_create_symlink`; `made` is whether the library created the inode,
`closed` whether the flush afterwards succeeded. -/
def createNode (made closed : Bool) (dir : Path) (name : Name) (i : Inode) (t : Tree) :
    Bool × Tree :=
  match node t dir with
  | some d =>
    if d.kind = .directory ∧ (node t (dir ++ [name])).isNone ∧ made then
      (closed, (dir ++ [name], i) :: t)
    else (false, t)
  | none => (false, t)

/-- The calls on names that the volume makes, over what the engine keeps of its names. -/
structure NameEngine (σ : Type) where
  /-- `nk_stat_path`. -/
  stat : σ → Path → Option Inode
  /-- `nk_list` with `firstEntryCallback`: whether the directory shows an entry, if it can be
  listed. -/
  firstEntry : σ → Path → Option Bool
  rename : RenameSteps → Path → Path → Name → σ → Bool × σ
  delete : Bool → Path → σ → Bool × σ

/-- Which inode a path resolves to. -/
def NameEngine.inodeAt {σ : Type} (E : NameEngine σ) (t : σ) (p : Path) : Option ℕ :=
  (E.stat t p).map Inode.number

/-- A tree of names whose listings show every entry. -/
def treeEngine : NameEngine Tree where
  stat := node
  firstEntry t p := (node t p).bind fun d => if d.kind = .directory then some (!leaf t p) else none
  rename := nkRename
  delete := nkDelete

@[simp] theorem treeEngine_stat (t : Tree) (p : Path) : treeEngine.stat t p = node t p := rfl

@[simp] theorem treeEngine_inodeAt (t : Tree) (p : Path) : treeEngine.inodeAt t p = t.inodeAt p := rfl

@[simp] theorem treeEngine_rename : treeEngine.rename = nkRename := rfl

@[simp] theorem treeEngine_delete : treeEngine.delete = nkDelete := rfl

/-- A directory that can be listed and shows nothing is empty. -/
theorem leaf_of_unshown {t : Tree} {p : Path} (hn : (treeEngine.firstEntry t p).isNone = false)
    (hs : treeEngine.firstEntry t p ≠ some true) : leaf t p = true := by
  simp only [treeEngine] at hn hs
  cases hd : node t p with
  | none => simp [hd] at hn
  | some d =>
    by_cases hk : d.kind = .directory
    · simpa [hd, hk] using hs
    · simp [hd, hk] at hn

/-! ### The volume's tables -/

/-- `NTFSItem`. `inode` and `gone` are for the proofs: the inode the item was handed out
for, and whether it has been removed or reclaimed. -/
structure Item where
  path : Path
  kind : Kind
  identifier : ℕ
  inode : ℕ
  gone : Bool
  deriving DecidableEq, Repr

/-- What `renameItem` does next. -/
inductive Phase
  | park
  | move
  | rollback
  | point
  | drop
  | rekey
  deriving DecidableEq, Repr

/-- The item a rename replaces: its object, its path, and the name to park it under. -/
structure Victim where
  item : ℕ
  path : Path
  tmpName : Name
  deriving DecidableEq, Repr

/-- The directory the victim is parked in is its own. -/
def Victim.dir (o : Victim) : Path := o.path.dropLast

/-- `parked`. -/
def Victim.parked (o : Victim) : Path := o.dir ++ [o.tmpName]

/-- The name `renameItem` gives a parked victim back under. -/
def Victim.overName (o : Victim) : Name := o.path.getLast?.getD (.plain "/")

/-- A `renameItem` in progress, with the paths it read when it began. -/
structure Rename where
  item : ℕ
  oldPath : Path
  dest : ℕ
  destPath : Path
  newName : Name
  overItem : Option Victim
  phase : Phase
  deriving DecidableEq, Repr

def Rename.newPath (r : Rename) : Path := r.destPath ++ [r.newName]

/-- The items while the victim points at its hidden name. -/
def Rename.repointed (r : Rename) (items : List Item) : List Item :=
  match r.overItem with
  | some o => items.modify o.item fun it => { it with path := o.parked }
  | none => items

/-- The engine's names and the tables guarded by `stateLock`. Items are named by their place
in `items`. -/
structure Namespace (σ : Type := Tree) where
  readOnly : Bool
  tree : σ
  nextInode : ℕ
  items : List Item
  itemByPath : List (Path × ℕ)
  idByPath : List (Path × ℕ)
  nextID : ℕ
  dirGen : List (Path × ℕ)
  genCounter : ℕ
  pending : Option Rename

section

variable (T : PathText)

/-- Evict the replaced item's entry and those below it. -/
def Rename.evict (r : Rename) (d : List (Path × ℕ)) : List (Path × ℕ) :=
  match r.overItem with
  | some o => T.dropBelow (T.drop d o.path) o.path
  | none => d

/-- The dictionary with the renamed item's entry moved, before those below it. -/
def Rename.entered (r : Rename) (d : List (Path × ℕ)) (v : ℕ) : List (Path × ℕ) :=
  T.set (T.drop (r.evict T d) r.oldPath) r.newPath v

/-- The path of object `c` after the rename: the renamed item's, or that of an item cached
below it. -/
def Rename.repath (r : Rename) (byPath : List (Path × ℕ)) (c : ℕ) (it : Item) : Item :=
  match byPath.find? fun e => e.2 = c ∧ T.Beneath r.oldPath e.1 with
  | some e => { it with path := r.newPath ++ e.1.drop r.oldPath.length }
  | none => if c = r.item then { it with path := r.newPath } else it

namespace Namespace

variable {σ : Type}

/-- `id(for:)`. -/
def idFor (path : Path) (s : Namespace σ) : ℕ × Namespace σ :=
  match T.find s.idByPath path with
  | some id => (id, s)
  | none => (s.nextID + 1, { s with
      nextID := s.nextID + 1
      idByPath := T.set s.idByPath path (s.nextID + 1) })

/-- `item(path:kind:)`; `i` is what the path was just found to be. -/
def itemFor (path : Path) (kind : Kind) (i : ℕ) (s : Namespace σ) : ℕ × Namespace σ :=
  match T.find s.itemByPath path with
  | some x => (x, s)
  | none =>
    let r := s.idFor T path
    (r.2.items.length, { r.2 with
      items := r.2.items ++ [⟨path, kind, r.1, i, false⟩]
      itemByPath := T.set r.2.itemByPath path r.2.items.length })

/-- `mutateNamespace`: bump the generation of every directory whose entries changed. -/
def mutateNamespace (dirs : List Path) (s : Namespace σ) : Namespace σ :=
  dirs.foldl (fun s d => { s with
    genCounter := s.genCounter + 1
    dirGen := T.set s.dirGen d (s.genCounter + 1) }) s

section

variable (path : Path) (kind : Kind) (i : ℕ) (dirs : List Path) (s : Namespace σ)

theorem mutateNamespace_eq : s.mutateNamespace T dirs = { s with
    genCounter := (s.mutateNamespace T dirs).genCounter
    dirGen := (s.mutateNamespace T dirs).dirGen } := by
  unfold mutateNamespace
  induction dirs generalizing s with
  | nil => rfl
  | cons d dirs ih => exact ih _

theorem idFor_eq : (s.idFor T path).2 = { s with
    nextID := (s.idFor T path).2.nextID
    idByPath := (s.idFor T path).2.idByPath } := by
  unfold idFor
  split <;> rfl

theorem itemFor_eq : (s.itemFor T path kind i).2 = { s with
    items := (s.itemFor T path kind i).2.items
    itemByPath := (s.itemFor T path kind i).2.itemByPath
    nextID := (s.itemFor T path kind i).2.nextID
    idByPath := (s.itemFor T path kind i).2.idByPath } := by
  unfold itemFor
  split
  · rfl
  · dsimp only
    rw [idFor_eq]

@[simp] theorem mutateNamespace_tree : (s.mutateNamespace T dirs).tree = s.tree := by
  rw [mutateNamespace_eq]

@[simp] theorem mutateNamespace_nextInode : (s.mutateNamespace T dirs).nextInode = s.nextInode := by
  rw [mutateNamespace_eq]

@[simp] theorem mutateNamespace_items : (s.mutateNamespace T dirs).items = s.items := by
  rw [mutateNamespace_eq]

@[simp] theorem mutateNamespace_itemByPath :
    (s.mutateNamespace T dirs).itemByPath = s.itemByPath := by
  rw [mutateNamespace_eq]

@[simp] theorem mutateNamespace_idByPath : (s.mutateNamespace T dirs).idByPath = s.idByPath := by
  rw [mutateNamespace_eq]

@[simp] theorem mutateNamespace_nextID : (s.mutateNamespace T dirs).nextID = s.nextID := by
  rw [mutateNamespace_eq]

@[simp] theorem mutateNamespace_pending : (s.mutateNamespace T dirs).pending = s.pending := by
  rw [mutateNamespace_eq]

@[simp] theorem idFor_tree : (s.idFor T path).2.tree = s.tree := by rw [idFor_eq]

@[simp] theorem idFor_nextInode : (s.idFor T path).2.nextInode = s.nextInode := by rw [idFor_eq]

@[simp] theorem idFor_items : (s.idFor T path).2.items = s.items := by rw [idFor_eq]

@[simp] theorem idFor_itemByPath : (s.idFor T path).2.itemByPath = s.itemByPath := by rw [idFor_eq]

@[simp] theorem idFor_dirGen : (s.idFor T path).2.dirGen = s.dirGen := by rw [idFor_eq]

@[simp] theorem idFor_genCounter : (s.idFor T path).2.genCounter = s.genCounter := by rw [idFor_eq]

@[simp] theorem idFor_pending : (s.idFor T path).2.pending = s.pending := by rw [idFor_eq]

@[simp] theorem itemFor_tree : (s.itemFor T path kind i).2.tree = s.tree := by rw [itemFor_eq]

@[simp] theorem itemFor_nextInode : (s.itemFor T path kind i).2.nextInode = s.nextInode := by
  rw [itemFor_eq]

@[simp] theorem itemFor_dirGen : (s.itemFor T path kind i).2.dirGen = s.dirGen := by rw [itemFor_eq]

@[simp] theorem itemFor_genCounter : (s.itemFor T path kind i).2.genCounter = s.genCounter := by
  rw [itemFor_eq]

@[simp] theorem itemFor_pending : (s.itemFor T path kind i).2.pending = s.pending := by
  rw [itemFor_eq]

end

end Namespace

end

/-! ### Upcalls -/

/-- An engine call made through an item: the path it was given and what that resolved to. -/
structure EngineCall where
  item : ℕ
  path : Path
  resolved : Option ℕ
  deriving DecidableEq, Repr

inductive Errno
  | inval
  | rofs
  | notsup
  | notempty
  /-- The errno of a failed engine call. -/
  | engine
  deriving DecidableEq, Repr

/-- What an upcall did: the engine calls it made through items, and how it ended. A step in
the middle of `renameItem` has not ended. -/
structure UpcallReply where
  calls : List EngineCall
  result : Option (Except Errno (Option ℕ))

inductive Upcall
  | lookupItem (dir : ℕ) (name : Name)
  | createItem (dir : ℕ) (name : Name) (kind : Kind) (made closed : Bool)
  | createSymbolicLink (dir : ℕ) (name : Name) (made : Bool)
  | removeItem (item : ℕ) (ok : Bool)
  | reclaimItem (item : ℕ)
  /-- The checks of `renameItem`; `listed` is whether the victim could be listed. -/
  | renameItem (item dest : ℕ) (name : Name) (overItem : Option ℕ) (uuid : ℕ) (listed : Bool)
  /-- The next step of the rename in progress. -/
  | advance (ok : RenameSteps)
  /-- One engine hold of `attributes`, `setAttributes`, `read`, `write`, `blockmapFile`,
  `completeIO`, `setXattr` and the like. -/
  | io (item : ℕ)

namespace Namespace

variable {σ : Type}

/-- A call of the engine with the item's own path. -/
def callThrough (E : NameEngine σ) (s : Namespace σ) (x : ℕ) (path : Path) : EngineCall :=
  ⟨x, path, E.inodeAt s.tree path⟩

/-- The path of an item. -/
def pathOf (s : Namespace σ) (x : ℕ) : Path := ((s.items[x]?).map Item.path).getD []

/-- Mark an item as removed or reclaimed. -/
def bury (x : ℕ) (s : Namespace σ) : Namespace σ :=
  { s with items := s.items.modify x fun it => { it with gone := true } }

section

variable (T : PathText) (E : NameEngine σ)

/-- `lookupItem`. -/
def lookupItem (dir : ℕ) (name : Name) (s : Namespace σ) : UpcallReply × Namespace σ :=
  let path := s.pathOf dir ++ [name]
  let calls := [s.callThrough E dir (s.pathOf dir)]
  match E.stat s.tree path with
  | none => (⟨calls, some (.error .engine)⟩, s)
  | some i =>
    let r := s.itemFor T path i.kind i.number
    (⟨calls, some (.ok (some r.1))⟩, r.2)

/-- `reclaimItem`: evict the item if it is still the cached one. -/
def reclaimItem (x : ℕ) (s : Namespace σ) : UpcallReply × Namespace σ :=
  let path := s.pathOf x
  (⟨[], some (.ok none)⟩, (if T.find s.itemByPath path = some x then
    { s with itemByPath := T.drop s.itemByPath path } else s).bury x)

/-- The part of `renameItem` before the first engine call that changes names: read the
paths, refuse a move into the item's own subtree, and check the victim. -/
def renameItem (x dest : ℕ) (name : Name) (overItem : Option ℕ) (uuid : ℕ) (listed : Bool)
    (s : Namespace σ) : UpcallReply × Namespace σ :=
  if s.readOnly then (⟨[], some (.error .rofs)⟩, s)
  else
    let oldPath := s.pathOf x
    let destPath := s.pathOf dest
    let start (o : Option Victim) (phase : Phase) : Namespace σ :=
      { s with pending := some ⟨x, oldPath, dest, destPath, name, o, phase⟩ }
    if T.form destPath = T.form oldPath ∨ T.Beneath oldPath destPath then
      (⟨[], some (.error .inval)⟩, s)
    else match overItem.filter (· ≠ x) with
      | none => (⟨[], none⟩, start none .move)
      | some o =>
        let overPath := s.pathOf o
        let calls := [s.callThrough E x oldPath, s.callThrough E o overPath]
        -- another link of the same file
        if (E.inodeAt s.tree oldPath).isSome ∧
            E.inodeAt s.tree oldPath = E.inodeAt s.tree overPath then
          (⟨calls, some (.ok none)⟩, s)
        else
          let isDir := (s.items[o]?).map Item.kind = some .directory
          let shown := E.firstEntry s.tree overPath
          if isDir ∧ (shown.isNone ∨ listed = false) then (⟨calls, some (.error .engine)⟩, s)
          else if isDir ∧ shown = some true then (⟨calls, some (.error .notempty)⟩, s)
          else
            let inode := ((s.items[o]?).map Item.inode).getD 0
            (⟨calls, none⟩, start (some ⟨o, overPath, .nkOver uuid inode⟩) .park)

/-- The bookkeeping of `renameItem`. I/O through an item between two of its assignments sees
that item's old path or its new one, as it does before or after all of them. -/
def rekey (r : Rename) (s : Namespace σ) : Namespace σ :=
  let t := s.mutateNamespace T [r.oldPath.dropLast, r.destPath, r.oldPath, r.newPath]
  let byPath := r.entered T t.itemByPath r.item
  let movedID := (T.find (r.evict T t.idByPath) r.oldPath).getD
    (((t.items[r.item]?).map Item.identifier).getD 0)
  { t with
    items := t.items.mapIdx (r.repath T byPath)
    itemByPath := T.rekeyBelow r.oldPath r.newPath byPath
    idByPath := T.rekeyBelow r.oldPath r.newPath (r.entered T t.idByPath movedID)
    pending := none }

/-- One step of `renameItem`. -/
def advance (ok : RenameSteps) (r : Rename) (s : Namespace σ) : UpcallReply × Namespace σ :=
  let next (p : Phase) (t : Namespace σ) : Namespace σ :=
    { t with pending := some { r with phase := p } }
  let fail (t : Namespace σ) : Namespace σ := { t with pending := none }
  match r.phase, r.overItem with
  | .park, some o =>
    let c := E.rename ok o.path o.dir o.tmpName s.tree
    let t := { s with tree := c.2 }
    if c.1 then (⟨[s.callThrough E o.item o.path], none⟩, next .move t)
    else (⟨[s.callThrough E o.item o.path], some (.error .engine)⟩, fail t)
  | .move, o =>
    let c := E.rename ok r.oldPath r.destPath r.newName s.tree
    let t := { s with tree := c.2 }
    let calls := [s.callThrough E r.item r.oldPath, s.callThrough E r.dest r.destPath]
    if c.1 then (⟨calls, none⟩, next (if o.isSome then .point else .rekey) t)
    else if o.isSome then (⟨calls, none⟩, next .rollback t)
    else (⟨calls, some (.error .engine)⟩, fail t)
  | .rollback, some o =>
    let c := E.rename ok o.parked o.dir o.overName s.tree
    (⟨[s.callThrough E o.item o.parked], some (.error .engine)⟩, fail { s with tree := c.2 })
  | .point, some o =>
    (⟨[], none⟩, next .drop { s with
      items := s.items.modify o.item fun it => { it with path := o.parked } })
  | .drop, some o =>
    let d := E.delete ok.delete o.parked s.tree
    (⟨[s.callThrough E o.item o.parked], none⟩, next .rekey { s with tree := d.2 })
  | .rekey, _ => (⟨[], some (.ok none)⟩, s.rekey T r)
  | _, none => (⟨[], none⟩, fail s)

end

/-! ### The upcalls on a tree of names -/

variable (T : PathText)

/-- Create a node and hand out its item. -/
def create (dir : ℕ) (name : Name) (kind : Kind) (made closed : Bool) (s : Namespace) :
    UpcallReply × Namespace :=
  if s.readOnly then (⟨[], some (.error .rofs)⟩, s)
  else
    let dirPath := s.pathOf dir
    let calls := [s.callThrough treeEngine dir dirPath]
    let c := createNode made closed dirPath name ⟨s.nextInode, kind⟩ s.tree
    let t := { s with tree := c.2, nextInode := s.nextInode + 1 }
    if c.1 = false then (⟨calls, some (.error .engine)⟩, t)
    else
      let childPath := dirPath ++ [name]
      let r := (t.mutateNamespace T [dirPath, childPath]).itemFor T childPath kind s.nextInode
      (⟨calls, some (.ok (some r.1))⟩, r.2)

/-- `createItem`: only regular files and directories exist in the engine. -/
def createItem (dir : ℕ) (name : Name) (kind : Kind) (made closed : Bool) (s : Namespace) :
    UpcallReply × Namespace :=
  if s.readOnly = false ∧ kind = .symlink then (⟨[], some (.error .notsup)⟩, s)
  else s.create T dir name kind made closed

/-- `createSymbolicLink`: the bridge ignores a failed flush of the link. -/
def createSymbolicLink (dir : ℕ) (name : Name) (made : Bool) (s : Namespace) :
    UpcallReply × Namespace :=
  s.create T dir name .symlink made true

/-- `removeItem`. -/
def removeItem (x : ℕ) (ok : Bool) (s : Namespace) : UpcallReply × Namespace :=
  if s.readOnly then (⟨[], some (.error .rofs)⟩, s)
  else
    let path := s.pathOf x
    let calls := [s.callThrough treeEngine x path]
    let d := nkDelete ok path s.tree
    if d.1 = false then (⟨calls, some (.error .engine)⟩, { s with tree := d.2 })
    else
      let t := { s with tree := d.2 }.mutateNamespace T [path.dropLast, path]
      (⟨calls, some (.ok none)⟩, { t with
        idByPath := T.drop t.idByPath path
        itemByPath := T.drop t.itemByPath path }.bury x)

/-- One step of the system. -/
def step (s : Namespace) : Upcall → UpcallReply × Namespace
  | .lookupItem dir name => s.lookupItem T treeEngine dir name
  | .createItem dir name kind made closed => s.createItem T dir name kind made closed
  | .createSymbolicLink dir name made => s.createSymbolicLink T dir name made
  | .removeItem x ok => s.removeItem T x ok
  | .reclaimItem x => s.reclaimItem T x
  | .renameItem x dest name overItem uuid listed =>
    s.renameItem T treeEngine x dest name overItem uuid listed
  | .advance ok => match s.pending with
    | some r => s.advance T treeEngine ok r
    | none => (⟨[], none⟩, s)
  | .io x => (⟨[s.callThrough treeEngine x (s.pathOf x)], none⟩, s)

end Namespace

end NtfsKit
