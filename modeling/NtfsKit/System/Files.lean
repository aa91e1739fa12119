import NtfsKit.Bridge.Marks
import NtfsKit.Lib.Run
import NtfsKit.Volume.DirGraph

/-! Any number of files on one mounted volume, which share the table of write marks. A
call names its file by a path; the table knows files by their MFT reference. Deleting a
file removes its entry when the link count says that the last name goes. -/

namespace NtfsKit

variable {σ : Type}

/-- The mounted volume apart from the table: the device, the library's state, the data
attribute of every file by its MFT reference, and the names. -/
structure Mount (σ : Type) where
  disk : ℤ → UInt8
  eng : σ
  attrs : ℕ → NtfsAttr
  names : DirGraph

/-- With the table `wr`. -/
structure Files (σ : Type) extends Mount σ where
  wr : List (ℕ × ℤ)

/-- The link count of the MFT record: a name with an 8.3 alias counts twice. -/
def DirGraph.linkCount (g : DirGraph) (x : ℕ) : ℕ :=
  ((g.entries.filter fun e => e.inode = x).map fun e => if e.dosName.isSome then 2 else 1).sum

/-- `ntfs_create`: one more name, for a new inode. -/
def DirGraph.create (g : DirGraph) (d : ℕ) (n : Name) (isDir : Bool) (x : ℕ) : DirGraph :=
  { g.link d n x with dirs := if isDir then x :: g.dirs else g.dirs }

/-- The data attribute of a file just created: resident and empty. -/
def emptyData : NtfsAttr := ⟨false, false, false, 0, 0, 0, [], fun _ => 0⟩

/-- The library asked for a path that names nothing. -/
def Libntfs.lost (L : Libntfs σ) : Libntfs σ :=
  { L with pathnameToInode := fun e => (false, (L.pathnameToInode e).2) }

/-- What a call on a file answers: its return value and the extents of a map. -/
abbrev FileReply := Option ℤ × List Extent

/-- The calls of the volume on its files. `made` and `closed` are whether the library
created the inode and whether the flush afterwards succeeded; `ref` is the reference of
the MFT record it took. -/
inductive FileCall
  | blockmap (path : Path) (offset length : ℤ) (forWrite : Bool) (blocksize : ℤ)
      (cb : List Extent → Bool)
  | completeWrite (path : Path) (offset length : ℤ)
  | abortWrite (path : Path) (offset length : ℤ)
  | truncate (path : Path) (size : ℤ)
  | create (dir : Path) (name : Name) (isDir made closed : Bool) (ref : ℕ)
  | rename (ok : RenameSteps) (old dir : Path) (name : Name)
  | delete (ok : Bool) (path : Path)

namespace Files

/-- The file with MFT reference `m`. -/
def file (s : Files σ) (m : ℕ) : NkFile σ := ⟨⟨s.disk, s.attrs m, s.eng⟩, m, s.wr⟩

/-- The volume after a call on the file `m`. -/
def put (s : Files σ) (m : ℕ) (f : NkFile σ) : Files σ :=
  { s with disk := f.disk, eng := f.eng, attrs := Function.update s.attrs m f.na, wr := f.wr }

/-- Run a call on the file a path names. -/
def onPath {A : Type} (L : Libntfs σ) (path : Path) (c : Libntfs σ → NkFile σ → A × NkFile σ)
    (s : Files σ) : A × Files σ :=
  match s.names.resolve path with
  | some m =>
    let r := c L (s.file m)
    (r.1, s.put m r.2)
  | none =>
    let r := c L.lost (s.file s.names.root)
    (r.1, { s with eng := r.2.eng })

/-- `create_node`. -/
def createNode (dir : Path) (name : Name) (isDir made closed : Bool) (ref : ℕ) (s : Files σ) :
    ℤ × Files σ :=
  match s.names.resolve dir with
  | some d =>
    if d ∈ s.names.dirs ∧ s.names.lookup d name = none ∧ made then
      (if closed then 0 else -1, { s with
        attrs := Function.update s.attrs ref emptyData
        names := s.names.create d name isDir ref })
    else (-1, s)
  | none => (-1, s)

/-- `nk_delete`: when the last name goes, so does the entry. -/
def nkDelete (ok : Bool) (path : Path) (s : Files σ) : ℤ × Files σ :=
  match s.names.entryAt path with
  | some e =>
    let mref := if s.names.linkCount e.inode ≤ 1 then e.inode else 0
    let r := s.names.nkDelete ok path
    let t := { s with names := r.2 }
    if r.1 = false then (-1, t)
    else (0, if mref ≠ 0 then { t with wr := SwapTable.swapRemove t.wr mref } else t)
  | none => (-1, s)

/-- `nk_rename`: link the new name, then `nk_delete` the old one; the link is taken back
when that fails. -/
def nkRename (ok : RenameSteps) (old dir : Path) (name : Name) (s : Files σ) : ℤ × Files σ :=
  match s.names.resolve old, s.names.resolve dir with
  | some x, some d =>
    if d ∉ s.names.dirs then (-1, s)
    else match s.names.lookup d name with
      | some e => (if e.inode = x then 0 else -1, s)
      | none =>
        if ok.link = false then (-1, s)
        else
          let r := ({ s with names := s.names.link d name x } : Files σ).nkDelete ok.delete old
          if r.1 = 0 then r else if ok.undo then (-1, { r.2 with names := s.names }) else (-1, r.2)
  | _, _ => (-1, s)

/-- The answer of a call that only returns a code. -/
def code (r : ℤ × Files σ) : FileReply × Files σ := ((some r.1, []), r.2)

def step (L : Libntfs σ) (v : NkVolume) (s : Files σ) : FileCall → FileReply × Files σ
  | .blockmap path offset length forWrite blocksize cb =>
    s.onPath L path fun L f => (nkBlockmap L v offset length forWrite blocksize cb f).split
  | .completeWrite path offset length =>
    code (s.onPath L path fun L => nkCompleteWrite L v offset length)
  | .abortWrite path offset length =>
    code (s.onPath L path fun L => nkAbortWrite L v offset length)
  | .truncate path size => code (s.onPath L path fun L => nkTruncate L size)
  | .create dir name isDir made closed ref => code (s.createNode dir name isDir made closed ref)
  | .rename ok old dir name => code (s.nkRename ok old dir name)
  | .delete ok path => code (s.nkDelete ok path)

/-- The file a call works on. -/
def target (g : DirGraph) : FileCall → Option ℕ
  | .blockmap path .. => g.resolve path
  | .completeWrite path .. => g.resolve path
  | .abortWrite path .. => g.resolve path
  | .truncate path _ => g.resolve path
  | .create .. => none
  | .rename _ old _ _ => g.resolve old
  | .delete _ path => g.resolve path

end Files

/-! ### The table as a partial map -/

/-- The volume with a partial map in place of the table. -/
structure MarkMap (σ : Type) extends Mount σ where
  marks : ℕ → Option ℤ

/-- A table that holds the mark of one file at most. -/
def ownTable (m : ℕ) (mark : Option ℤ) : List (ℕ × ℤ) := mark.toList.map fun h => (m, h)

/-- A call sees the mark of its own file and no other, and moves that one alone. -/
def MarkMap.step (L : Libntfs σ) (v : NkVolume) (s : MarkMap σ) (c : FileCall) :
    FileReply × MarkMap σ :=
  let m := (Files.target s.names c).getD s.names.root
  let r := Files.step L v ⟨s.toMount, ownTable m (s.marks m)⟩ c
  (r.1, ⟨r.2.toMount, Function.update s.marks m (SwapTable.find r.2.wr m)⟩)

end NtfsKit
