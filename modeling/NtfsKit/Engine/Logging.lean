import NtfsKit.Engine.Libntfs

/-! A library that keeps a log. It behaves as the library it wraps and records, in order,
the device writes it is asked for and the runlists it returns: what a caller did is then
a property of the log. -/

namespace NtfsKit

variable {σ A : Type}

/-- What is recorded: a runlist that was mapped, or a device write. -/
inductive LibCall
  | mapped (rl : Runlist)
  | raw (pos count : ℤ)
  deriving DecidableEq, Repr

abbrev Logged (σ : Type) := σ × List LibCall

namespace Ntfs

/-- The file with the log `log`. -/
def logged (log : List LibCall) (s : Ntfs σ) : Ntfs (Logged σ) :=
  { disk := s.disk, na := s.na, eng := (s.eng, log) }

def unlogged (s : Ntfs (Logged σ)) : Ntfs σ := { disk := s.disk, na := s.na, eng := s.eng.1 }

end Ntfs

namespace Libntfs

/-- A call that is not recorded. -/
def onFile (g : Ntfs σ → A × Ntfs σ) (s : Ntfs (Logged σ)) : A × Ntfs (Logged σ) :=
  ((g s.unlogged).1, (g s.unlogged).2.logged s.eng.2)

def onEng (g : σ → A × σ) (e : Logged σ) : A × Logged σ := ((g e.1).1, ((g e.1).2, e.2))

/-- The library `L` with a log of its maps that succeed and of its device writes. -/
def logging (L : Libntfs σ) : Libntfs (Logged σ) where
  pathnameToInode := onEng L.pathnameToInode
  attrOpen := onEng L.attrOpen
  attrForceNonResident := onFile L.attrForceNonResident
  attrTruncateSolid s size := onFile (fun s => L.attrTruncateSolid s size) s
  attrTruncate s size := onFile (fun s => L.attrTruncate s size) s
  attrMapWholeRunlist s :=
    let r := L.attrMapWholeRunlist s.unlogged
    (r.1, r.2.logged (if r.1 = 0 then s.eng.2 ++ [.mapped r.2.na.rl] else s.eng.2))
  attrPwrite s pos count buf := onFile (fun s => L.attrPwrite s pos count buf) s
  pwrite s pos count buf :=
    let r := L.pwrite s.unlogged pos count buf
    (r.1, r.2.logged (s.eng.2 ++ [.raw pos count]))
  attrLookup := onEng L.attrLookup
  inodeSync := onEng L.inodeSync
  inodeClose := onEng L.inodeClose
  realloc := onEng L.realloc

end Libntfs

end NtfsKit
