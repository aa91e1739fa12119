import NtfsKit.Volume.Generations

/-! Verifiers. A verifier is the generation its call sampled, and a resumed enumeration accepts
it while the directory's path still has that generation. Generations belong to paths: a
directory that is taken along when one above it is renamed, and comes back, finds the
generation its path was left with. -/

namespace NtfsKit

open PathTree

variable {T : PathText} {s : Namespace} {t : Tree} {d : ℕ}

/-- What an enumeration leaves alone: everything but the identifiers. -/
structure Listed (s s' : Namespace) : Prop where
  tree : s'.tree = s.tree
  items : s'.items = s.items
  dirGen : s'.dirGen = s.dirGen
  genCounter : s'.genCounter = s.genCounter
  nextInode : s'.nextInode = s.nextInode
  pending : s'.pending = s.pending

theorem Listed.refl (s : Namespace) : Listed s s := ⟨rfl, rfl, rfl, rfl, rfl, rfl⟩

theorem Listed.trans {s₁ s₂ s₃ : Namespace} (h : Listed s₁ s₂) (h' : Listed s₂ s₃) :
    Listed s₁ s₃ :=
  ⟨h'.tree.trans h.tree, h'.items.trans h.items, h'.dirGen.trans h.dirGen,
    h'.genCounter.trans h.genCounter, h'.nextInode.trans h.nextInode,
    h'.pending.trans h.pending⟩

theorem idFor_listed (path : Path) (s : Namespace) : Listed s (s.idFor T path).2 := by
  unfold Namespace.idFor
  split <;> exact ⟨rfl, rfl, rfl, rfl, rfl, rfl⟩

theorem entryID_listed (attributes : Bool) (e : DirEntry) (s : Namespace) :
    Listed s (entryID T attributes e s).2 := by
  unfold entryID
  split_ifs
  · exact (idFor_listed _ _).trans (idFor_listed _ _)
  · exact ((idFor_listed _ _).trans (idFor_listed _ _)).trans (idFor_listed _ _)
  · exact idFor_listed _ _

theorem packFrom_listed (attributes : Bool) : ∀ (room index : ℕ) (es : List DirEntry) (s : Namespace),
    Listed s (packFrom T attributes room index es s).2
  | 0, _, [], s => .refl s
  | _ + 1, _, [], s => .refl s
  | 0, _, e :: _, s => entryID_listed attributes e s
  | room + 1, index, e :: es, s =>
    (entryID_listed attributes e s).trans (packFrom_listed attributes room (index + 1) es _)

variable {collate : Name → Name → Bool}

theorem listAndPack_listed (c : EnumCall) (g : ℕ) (s : Namespace) :
    Listed s (listAndPack T collate c g s).2 := by
  unfold listAndPack
  extract_lets path
  cases nkList collate c.listed path s.tree with
  | none => exact .refl s
  | some items =>
    simp only
    split_ifs
    · exact .refl s
    · exact packFrom_listed _ _ _ _ s

variable (T collate) in
theorem enumerateDirectory_listed (c : EnumCall) (s : Namespace) :
    Listed s (enumerateDirectory T collate c s).2 := by
  unfold enumerateDirectory
  extract_lets g
  split_ifs
  · exact .refl s
  · exact listAndPack_listed c g s

/-- An enumeration, or a call on names. -/
inductive DirCall
  | names (e : NameCall)
  | enumerate (c : EnumCall)

def dirStep (T : PathText) (collate : Name → Name → Bool) (s : Namespace) :
    DirCall → (Option (Except Errno (Option ℕ)) ⊕ Except EnumError EnumReply) × Namespace
  | .names e =>
    let r := s.nameStep T e
    (.inl r.1, r.2)
  | .enumerate c =>
    let r := enumerateDirectory T collate c s
    (.inr r.1, r.2)

/-- The call is one the kernel makes, a failure leaves no trace, and no directory above `d`
changes its name. -/
def InPlace (d : ℕ) (s : Namespace) : DirCall → Prop
  | .names e => s.Offered e ∧ e.Clean ∧ s.Still d e
  | .enumerate _ => True

/-- The call is one the kernel makes, and a failure leaves no trace. -/
def Offers (s : Namespace) : DirCall → Prop
  | .names e => s.Offered e ∧ e.Clean
  | .enumerate _ => True

instance (s : Namespace) : ∀ e : DirCall, Decidable (Offers s e)
  | .names e => inferInstanceAs (Decidable (s.Offered e ∧ e.Clean))
  | .enumerate _ => inferInstanceAs (Decidable True)

instance (s : Namespace) : ∀ e : DirCall, Decidable (InPlace d s e)
  | .names e => inferInstanceAs (Decidable (s.Offered e ∧ e.Clean ∧ s.Still d e))
  | .enumerate _ => inferInstanceAs (Decidable True)

theorem dirStep_kempt {s : Namespace} (h : Canonical.Kempt s) (e : DirCall) :
    Canonical.Kempt (dirStep T collate s e).2 := by
  cases e with
  | names e => exact h.step e
  | enumerate c =>
    have hl := enumerateDirectory_listed T collate c s
    exact h.congr (hl.tree ▸ h.closed) hl.dirGen hl.genCounter hl.pending

theorem dirStep_stays {s : Namespace} (h : Canonical.Kempt s) {e : DirCall} (hok : InPlace d s e) :
    Stays T d s (dirStep T collate s e).2 := by
  cases e with
  | names e => exact Canonical.nameStep_stays h.counted h.idle h.closed hok.1 hok.2.1 hok.2.2
  | enumerate c =>
    have hl := enumerateDirectory_listed T collate c s
    exact stays_quiet h.counted hl.dirGen hl.genCounter fun p => by rw [dirStep, hl.tree]

/-- What a call keeps, a run keeps. -/
theorem run_stays {s s' : Namespace} (h : Canonical.Kempt s)
    (hrun : Run (dirStep T collate) (fun s e _ => InPlace d s e) s s') :
    Canonical.Kempt s' ∧ Stays T d s s' := by
  induction hrun with
  | refl => exact ⟨h, stays_quiet h.counted rfl rfl fun p => rfl⟩
  | @tail u e _ hok ih =>
    obtain ⟨hk, hs⟩ := ih
    have hstep : Stays T d u (dirStep T collate u e).2 := dirStep_stays hk hok
    refine ⟨dirStep_kempt hk e, hstep.counted, hs.grows.trans hstep.grows, fun P hP hgen => ?_⟩
    obtain ⟨hu, hgu, hentries⟩ := hstep.same P hP (hgen.trans hs.grows)
    obtain ⟨hn, hg, hold⟩ := hs.same P hu (hgu ▸ hgen)
    exact ⟨hn, hg.trans hgu, fun n => (hentries n).trans (hold n)⟩

/-- A call on the directory `d` returns the verifier `v`. -/
structure Returns (T : PathText) (collate : Name → Name → Bool) (s : Namespace) (d : ℕ)
    (c : EnumCall) (v : ℕ) : Prop where
  directory : node s.tree (s.pathOf c.dir) = some ⟨d, .directory⟩
  result : ∃ packed, (enumerateDirectory T collate c s).1 = .ok ⟨packed, v⟩

/-- A resumed call on the directory `d` accepts the verifier `v`. -/
structure Accepts (T : PathText) (collate : Name → Name → Bool) (s : Namespace) (d : ℕ)
    (c : EnumCall) (v : ℕ) : Prop where
  directory : node s.tree (s.pathOf c.dir) = some ⟨d, .directory⟩
  resumed : c.cookie ≠ 0
  verifier : c.verifier = v
  result : (enumerateDirectory T collate c s).1 ≠ .error .invalidDirectoryCookie

theorem Returns.le {s : Namespace} {c : EnumCall} {v : ℕ} (h : Counted s)
    (hr : Returns T collate s d c v) : v ≤ s.genCounter := by
  obtain ⟨packed, hres⟩ := hr.result
  unfold enumerateDirectory at hres
  extract_lets g at hres
  split_ifs at hres
  unfold listAndPack at hres
  extract_lets path at hres
  cases hl : nkList collate c.listed path s.tree with
  | none =>
    rw [hl] at hres
    cases hres
  | some items =>
    rw [hl] at hres
    simp only at hres
    split_ifs at hres
    have hv : g = v := congrArg EnumReply.verifier (Except.ok.inj hres)
    rw [← hv]
    exact h.le _

theorem Accepts.generation_eq {s : Namespace} {c : EnumCall} {v : ℕ}
    (h : Accepts T collate s d c v) : generation T s (s.pathOf c.dir) = v := by
  by_contra hne
  refine h.result ?_
  unfold enumerateDirectory
  rw [if_pos ⟨h.resumed, fun heq => hne (heq ▸ h.verifier)⟩]

/-- An enumeration of item 2 with room for one entry. -/
def page (cookie verifier : ℕ) : EnumCall := ⟨2, cookie, verifier, true, true, 1⟩

/-- The state after calls on an empty volume. -/
def walked (es : List DirCall) : Namespace :=
  execAll (dirStep .accented byName) es (.mounted false rootOnly 64 5)

/-- A directory `/p/d` with two files. -/
def twoBelow : List DirCall :=
  [.names (.createItem 0 (.plain "p") .directory true true),
    .names (.createItem 1 (.plain "d") .directory true true),
    .names (.createItem 2 (.plain "a") .file true true),
    .names (.createItem 2 (.plain "b") .file true true)]

def renames (item dest : ℕ) (name : String) : DirCall :=
  .names (.renameItem ⟨item, dest, .plain name, none, 7, true, fun _ => allOk⟩)

/-- A file is created elsewhere. -/
def elsewhere : List DirCall := [.names (.createItem 1 (.plain "c") .file true true)]

/-- The first page has been read. -/
def firstPage : Namespace := walked (twoBelow ++ [.enumerate (page 0 0)])

/-- `/p` becomes `/q`, a file is created in the directory, and `/q` becomes `/p` again. -/
def thereAndBack : List DirCall :=
  [renames 1 0 "q", .names (.createItem 2 (.plain "f") .file true true), renames 1 0 "p"]

end NtfsKit
