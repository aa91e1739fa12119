import NtfsKit.Volume.NameCalls

/-! `enumerateDirectory`. A call samples the directory's generation, refuses a resumed
enumeration whose verifier is another one, lists the directory and packs entries from the
cookie on until the packer is full. The cookie is an index into the list just built; the
verifier it returns is the sampled generation. -/

namespace NtfsKit

open PathTree

/-- `FILE_first_user`: listings hide the inodes below it. -/
def fileFirstUser : ℕ := 16

/-- `nk_dirent`, with the inode it was read from. -/
structure Dirent where
  name : Name
  isDir : Bool
  inode : ℕ
  deriving DecidableEq, Repr

/-- The names in the directory at `path`. -/
def Tree.names (t : Tree) (path : Path) : List Name :=
  (t.filterMap fun e => if e.1 ≠ [] ∧ e.1.dropLast = path then e.1.getLast? else none).dedup

/-- `is_dot`. -/
def isDot (name : Name) : Prop := name = .plain "." ∨ name = .plain ".."

instance (name : Name) : Decidable (isDot name) :=
  inferInstanceAs (Decidable (name = .plain "." ∨ name = .plain ".."))

/-- `nk_filldir` for one name. -/
def nkFilldir (t : Tree) (path : Path) (name : Name) : Option Dirent :=
  (node t (path ++ [name])).bind fun i =>
    if i.number < fileFirstUser ∨ isDot name then none
    else some ⟨name, i.kind = .directory, i.number⟩

/-- The entries of a directory in the order of its index. -/
def listing (collate : Name → Name → Bool) (t : Tree) (path : Path) : List Dirent :=
  ((t.names path).insertionSort fun a b => collate a b).filterMap (nkFilldir t path)

/-- Names by their characters, parking names last. -/
def byName : Name → Name → Bool
  | .plain a, .plain b => a ≤ b
  | .plain _, .nkOver _ _ => true
  | .nkOver _ _, .plain _ => false
  | .nkOver u i, .nkOver v j => u < v ∨ (u = v ∧ i ≤ j)

/-- `nk_list`; `listed` is whether the index could be read. -/
def nkList (collate : Name → Name → Bool) (listed : Bool) (path : Path) (t : Tree) :
    Option (List Dirent) :=
  match node t path with
  | some d => if d.kind = .directory ∧ listed then some (listing collate t path) else none
  | none => none

/-- An element of `entries`. -/
structure DirEntry where
  name : Name
  type : Kind
  path : Path
  deriving DecidableEq, Repr

/-- `entries`: `.` and `..` only where no attributes are asked for. -/
def dirEntries (attributes : Bool) (path : Path) (items : List Dirent) : List DirEntry :=
  (if attributes then [] else
    [⟨.plain ".", .directory, path⟩, ⟨.plain "..", .directory, path.dropLast⟩]) ++
  items.map fun e => ⟨e.name, if e.isDir then .directory else .file, path ++ [e.name]⟩

/-- What `packEntry` is given. -/
structure PackedEntry where
  name : Name
  itemType : Kind
  itemID : ℕ
  nextCookie : ℕ
  deriving DecidableEq, Repr

structure EnumCall where
  dir : ℕ
  cookie : ℕ
  verifier : ℕ
  attributes : Bool
  /-- Whether the engine can list the directory. -/
  listed : Bool
  /-- How many entries the packer takes before it refuses one. -/
  room : ℕ

inductive EnumError
  | invalidDirectoryCookie
  | engine
  deriving DecidableEq, Repr

structure EnumReply where
  packed : List PackedEntry
  verifier : ℕ
  deriving DecidableEq, Repr

/-- `dirGen[path, default: 1]`. -/
def generation (T : PathText) (s : Namespace) (path : Path) : ℕ :=
  (T.find s.dirGen path).getD 1

section

variable (T : PathText) (collate : Name → Name → Bool)

/-- The identifiers drawn for one entry: those of its attributes, then its own. -/
def entryID (attributes : Bool) (e : DirEntry) (s : Namespace) : ℕ × Namespace :=
  let t := if attributes ∧ (node s.tree e.path).isSome then
      let u := (s.idFor T e.path).2
      if e.path = [] then u else (u.idFor T e.path.dropLast).2
    else s
  t.idFor T e.path

/-- The packing loop from `index` on; an entry that is refused has drawn its identifier. -/
def packFrom (attributes : Bool) : ℕ → ℕ → List DirEntry → Namespace → List PackedEntry × Namespace
  | _, _, [], s => ([], s)
  | 0, _, e :: _, s => ([], (entryID T attributes e s).2)
  | room + 1, index, e :: es, s =>
    let r := entryID T attributes e s
    let found := if attributes then (node s.tree e.path).map Inode.kind else none
    let rest := packFrom attributes room (index + 1) es r.2
    (⟨e.name, found.getD e.type, r.1, index + 1⟩ :: rest.1, rest.2)

/-- `enumerateDirectory`, once the generation has been sampled and checked. -/
def listAndPack (c : EnumCall) (generation : ℕ) (s : Namespace) :
    Except EnumError EnumReply × Namespace :=
  let path := s.pathOf c.dir
  match nkList collate c.listed path s.tree with
  | none => (.error .engine, s)
  | some items =>
    -- `Int(exactly: cookie.rawValue)`
    if 2 ^ 63 ≤ c.cookie then (.error .invalidDirectoryCookie, s)
    else
      let entries := dirEntries c.attributes path items
      let r := packFrom T c.attributes c.room c.cookie (entries.drop c.cookie) s
      (.ok ⟨r.1, generation⟩, r.2)

/-- `enumerateDirectory`. -/
def enumerateDirectory (c : EnumCall) (s : Namespace) : Except EnumError EnumReply × Namespace :=
  let generation := generation T s (s.pathOf c.dir)
  if c.cookie ≠ 0 ∧ c.verifier ≠ generation then (.error .invalidDirectoryCookie, s)
  else listAndPack T collate c generation s

end

end NtfsKit
