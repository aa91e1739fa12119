import NtfsKit.Lib.Forest
import NtfsKit.Volume.RenameCall

/-! Directory entries with a DOS alias. The engine resolves a component of a path by an
entry's name or by its 8.3 alias, which listings hide, so one directory has several paths.
The engine's calls on names, over such entries; a directory is moved by linking it to its new
parent, wherever that is. -/

namespace NtfsKit

open Relation

/-- An entry of the directory `dir`, with the DOS alias Windows gave it. -/
structure Entry where
  dir : ℕ
  name : Name
  dosName : Option Name
  inode : ℕ
  deriving DecidableEq, Repr

/-- The entry is found under this name. -/
def Entry.Spells (e : Entry) (n : Name) : Prop := e.name = n ∨ e.dosName = some n

instance (e : Entry) (n : Name) : Decidable (e.Spells n) :=
  inferInstanceAs (Decidable (e.name = n ∨ e.dosName = some n))

/-- The directories of a volume and their entries; `symlinks` are the inodes that `nk_stat`
reports as symbolic links. -/
structure DirGraph where
  root : ℕ
  dirs : List ℕ
  symlinks : List ℕ
  entries : List Entry

namespace DirGraph

/-- `ntfs_inode_lookup_by_name`. -/
def lookup (g : DirGraph) (d : ℕ) (n : Name) : Option Entry :=
  g.entries.find? fun e => e.dir = d ∧ e.Spells n

def walk (g : DirGraph) : ℕ → Path → Option ℕ
  | d, [] => some d
  | d, n :: p => (g.lookup d n).bind fun e => g.walk e.inode p

/-- `ntfs_pathname_to_inode`. -/
def resolve (g : DirGraph) (p : Path) : Option ℕ := g.walk g.root p

/-- The entry a path ends in; the root has none. -/
def entryAt (g : DirGraph) (p : Path) : Option Entry :=
  p.getLast?.bind fun n => (g.resolve p.dropLast).bind fun d => g.lookup d n

/-- The type `lookupItem` gives an item. -/
def kindOf (g : DirGraph) (x : ℕ) : Kind :=
  if x ∈ g.symlinks then .symlink else if x ∈ g.dirs then .directory else .file

/-- Nothing is in the directory. -/
def isEmpty (g : DirGraph) (d : ℕ) : Bool := g.entries.all fun e => e.dir ≠ d

/-- `ntfs_link`: a further name, without an alias. -/
def link (g : DirGraph) (d : ℕ) (n : Name) (x : ℕ) : DirGraph :=
  { g with entries := g.entries ++ [⟨d, n, none, x⟩] }

/-- `ntfs_delete`: the name goes together with its alias, the inode with its last name. -/
def remove (g : DirGraph) (e : Entry) : DirGraph :=
  let rest := g.entries.filter fun f => f ≠ e
  { g with
    dirs := if rest.any fun f => f.inode = e.inode then g.dirs else g.dirs.filter fun d => d ≠ e.inode
    entries := rest }

/-- `nk_rename`. -/
def nkRename (ok : RenameSteps) (old dir : Path) (name : Name) (g : DirGraph) : Bool × DirGraph :=
  match g.resolve old, g.resolve dir with
  | some x, some d =>
    if d ∉ g.dirs then (false, g)
    else match g.lookup d name with
      -- another name of the same file, or a name that is taken
      | some e => (e.inode = x, g)
      | none =>
        if ok.link = false then (false, g)
        else
          let linked := g.link d name x
          match linked.entryAt old with
          | some e =>
            if ok.delete then (true, linked.remove e)
            else if ok.undo then (false, g) else (false, linked)
          | none => if ok.undo then (false, g) else (false, linked)
  | _, _ => (false, g)

/-- `nk_delete`: a directory must be empty unless it has another name. -/
def nkDelete (ok : Bool) (path : Path) (g : DirGraph) : Bool × DirGraph :=
  match g.entryAt path with
  | some e =>
    if ok ∧ (e.inode ∉ g.dirs ∨ g.isEmpty e.inode ∨ ∃ f ∈ g.entries, f ≠ e ∧ f.inode = e.inode) then
      (true, g.remove e)
    else (false, g)
  | none => (false, g)

/-- The calls on names that the volume makes, over these directories. -/
def engine : NameEngine DirGraph where
  stat g p := (g.resolve p).map fun i => ⟨i, g.kindOf i⟩
  firstEntry g p := (g.resolve p).bind fun i => if i ∈ g.dirs then some (!g.isEmpty i) else none
  rename := nkRename
  delete := nkDelete

@[simp] theorem engine_rename : engine.rename = nkRename := rfl

@[simp] theorem engine_delete : engine.delete = nkDelete := rfl

/-! ### A tree of directories -/

/-- The directory `b` has an entry in `a`. -/
def Parent (g : DirGraph) (a b : ℕ) : Prop :=
  ∃ e ∈ g.entries, e.dir = a ∧ e.inode = b ∧ b ∈ g.dirs

/-- Directories form a tree: names are unique in a directory, a directory has one entry, the
root none, and every directory is below the root. -/
structure Rooted (g : DirGraph) : Prop where
  root_mem : g.root ∈ g.dirs
  in_dirs : ∀ e ∈ g.entries, e.dir ∈ g.dirs
  names : ∀ e ∈ g.entries, ∀ f ∈ g.entries, e.dir = f.dir →
    ∀ n, e.Spells n → f.Spells n → e = f
  single : ∀ e ∈ g.entries, ∀ f ∈ g.entries, e.inode = f.inode → e.inode ∈ g.dirs → e = f
  top : ∀ e ∈ g.entries, e.inode ≠ g.root
  forest : Forest g.Parent g.root (· ∈ g.dirs)

variable {g : DirGraph} {d x : ℕ} {n : Name} {e : Entry} {p q : Path}

theorem lookup_mem (h : g.lookup d n = some e) : e ∈ g.entries ∧ e.dir = d ∧ e.Spells n := by
  have hsat := List.find?_some h
  exact ⟨List.mem_of_find?_eq_some h, by simpa using hsat⟩

theorem lookup_none (h : g.lookup d n = none) {f : Entry} (hf : f ∈ g.entries) (hd : f.dir = d) :
    ¬ f.Spells n := by
  have := List.find?_eq_none.mp h f hf
  simpa [hd] using this

/-- An entry is found under each of its names. -/
theorem Rooted.lookup_eq (h : g.Rooted) (he : e ∈ g.entries) (hn : e.Spells n) :
    g.lookup e.dir n = some e := by
  cases hl : g.lookup e.dir n with
  | none => exact absurd hn (lookup_none hl he rfl)
  | some f =>
    obtain ⟨hf, hd, hs⟩ := lookup_mem hl
    rw [h.names f hf e he hd n hs hn]

theorem walk_append (d : ℕ) (p q : Path) :
    g.walk d (p ++ q) = (g.walk d p).bind fun m => g.walk m q := by
  induction p generalizing d with
  | nil => rfl
  | cons n p ih =>
    simp only [List.cons_append, walk]
    cases g.lookup d n with
    | none => rfl
    | some e => exact ih e.inode

theorem resolve_concat : g.resolve (p ++ [n]) =
    (g.resolve p).bind fun m => (g.lookup m n).map Entry.inode := by
  rw [resolve, walk_append]
  refine congrArg _ (funext fun m => ?_)
  simp only [walk]
  cases g.lookup m n <;> rfl

/-- A path whose last entry is known. -/
theorem resolve_eq_some (h : g.resolve (p ++ [n]) = some x) :
    ∃ m e, g.resolve p = some m ∧ g.lookup m n = some e ∧ e.inode = x := by
  rw [resolve_concat, Option.bind_eq_some_iff] at h
  obtain ⟨m, hm, he⟩ := h
  obtain ⟨e, he, hx⟩ := Option.map_eq_some_iff.mp he
  exact ⟨m, e, hm, he, hx⟩

theorem entryAt_concat : g.entryAt (p ++ [n]) = (g.resolve p).bind fun m => g.lookup m n := by
  simp [entryAt]

/-- A path to a directory runs through every directory above it. -/
theorem Rooted.passes (h : g.Rooted) (hp : g.resolve p = some d) (hd : d ∈ g.dirs)
    (hx : ReflTransGen g.Parent x d) : ∃ q, q <+: p ∧ g.resolve q = some x := by
  induction p using List.reverseRecOn generalizing d with
  | nil =>
    obtain rfl : g.root = d := Option.some.inj hp
    rcases ReflTransGen.cases_tail hx with rfl | ⟨b, -, hb⟩
    · exact ⟨[], List.prefix_rfl, hp⟩
    · exact absurd hb (h.forest.top b)
  | append_singleton p n ih =>
    rcases ReflTransGen.cases_tail hx with rfl | ⟨b, hxb, f, hf, rfl, hfd, -⟩
    · exact ⟨p ++ [n], List.prefix_rfl, hp⟩
    · -- the directory has one entry, so the path comes from its parent
      obtain ⟨m, e, hm, he, hed⟩ := resolve_eq_some hp
      obtain ⟨hmem, hdir, -⟩ := lookup_mem he
      obtain rfl : e = f := h.single e hmem f hf (hed.trans hfd.symm) (hed ▸ hd)
      rw [hdir] at hxb
      obtain ⟨q, hq, hres⟩ := ih hm (hdir ▸ h.in_dirs e hmem) hxb
      exact ⟨q, hq.trans (List.prefix_append _ _), hres⟩

/-- Whatever is not a directory has nothing below it. -/
theorem Rooted.not_below_file (h : g.Rooted) (hx : x ∉ g.dirs) (hd : d ∈ g.dirs) :
    ¬ ReflTransGen g.Parent x d := by
  intro hp
  rcases ReflTransGen.cases_head hp with rfl | ⟨b, ⟨e, he, rfl, -, -⟩, -⟩
  · exact hx hd
  · exact hx (h.in_dirs e he)

/-! ### Links -/

theorem mem_link {f : Entry} : f ∈ (g.link d n x).entries ↔ f ∈ g.entries ∨ f = ⟨d, n, none, x⟩ := by
  simp [link]

/-- A link hides no entry. -/
theorem lookup_link {m : ℕ} {k : Name} {f : Entry} (h : g.lookup m k = some f) :
    (g.link d n x).lookup m k = some f := by
  simp only [lookup, link, List.find?_append] at h ⊢
  rw [h]
  rfl

theorem walk_link {m y : ℕ} (h : g.walk m p = some y) : (g.link d n x).walk m p = some y := by
  induction p generalizing m with
  | nil => exact h
  | cons k p ih =>
    obtain ⟨e, he, hw⟩ := Option.bind_eq_some_iff.mp h
    simp only [walk, lookup_link he, Option.bind_some]
    exact ih hw

theorem entryAt_link (hp : p ≠ []) (hx : g.resolve p = some x) :
    ∃ e, (g.link d n x).entryAt p = some e ∧ e ∈ g.entries ∧ e.inode = x := by
  obtain ⟨q, k, rfl⟩ := (List.eq_nil_or_concat p).resolve_left hp
  rw [List.concat_eq_append] at hx ⊢
  obtain ⟨m, e, hm, he, hed⟩ := resolve_eq_some hx
  refine ⟨e, ?_, (lookup_mem he).1, hed⟩
  have hres : (g.link d n x).resolve q = some m := walk_link hm
  rw [entryAt_concat, hres, Option.bind_some, lookup_link he]

/-- The entries after a move. -/
theorem mem_move {f : Entry} (hnone : g.lookup d n = none) (he : e ∈ g.entries) :
    f ∈ ((g.link d n x).remove e).entries ↔ (f ∈ g.entries ∧ f ≠ e) ∨ f = ⟨d, n, none, x⟩ := by
  have hne : (⟨d, n, none, x⟩ : Entry) ≠ e := by
    rintro rfl
    exact lookup_none hnone he rfl (.inl rfl)
  simp only [remove, List.mem_filter, mem_link, decide_eq_true_eq]
  constructor
  · rintro ⟨hf | rfl, hfe⟩
    · exact .inl ⟨hf, hfe⟩
    · exact .inr rfl
  · rintro (⟨hf, hfe⟩ | rfl)
    · exact ⟨.inl hf, hfe⟩
    · exact ⟨.inr rfl, hne⟩

theorem dirs_move (hnone : g.lookup d n = none) (he : e ∈ g.entries) (hx : e.inode = x) :
    ((g.link d n x).remove e).dirs = g.dirs := by
  have hmem : (⟨d, n, none, x⟩ : Entry) ∈ ((g.link d n x).remove e).entries :=
    (mem_move hnone he).mpr (.inr rfl)
  simp only [remove]
  rw [if_pos]
  · rfl
  · exact List.any_eq_true.mpr ⟨_, hmem, by simp [hx]⟩

/-- Moving an entry to a directory that is not below it keeps the tree. -/
theorem Rooted.move (h : g.Rooted) (hd : d ∈ g.dirs) (hnone : g.lookup d n = none)
    (he : e ∈ g.entries) (hx : e.inode = x) (hout : ¬ ReflTransGen g.Parent x d) :
    ((g.link d n x).remove e).Rooted := by
  have hmem := fun f => mem_move (f := f) (x := x) hnone he
  have hdirs := dirs_move hnone he hx
  have hspell : ∀ {k : Name}, (⟨d, n, none, x⟩ : Entry).Spells k → k = n := by
    rintro k (hk | hk)
    · exact hk.symm
    · cases hk
  refine ⟨?_, ?_, ?_, ?_, ?_, ?_⟩
  · rw [hdirs]
    exact h.root_mem
  · intro f hf
    rw [hdirs]
    rcases (hmem f).mp hf with ⟨hf, -⟩ | rfl
    · exact h.in_dirs f hf
    · exact hd
  · intro f hf f' hf' hdir k hk hk'
    rcases (hmem f).mp hf with ⟨hf, -⟩ | rfl <;> rcases (hmem f').mp hf' with ⟨hf', -⟩ | rfl
    · exact h.names f hf f' hf' hdir k hk hk'
    · rw [hspell hk'] at hk
      exact absurd hk (lookup_none hnone hf hdir)
    · rw [hspell hk] at hk'
      exact absurd hk' (lookup_none hnone hf' hdir.symm)
    · rfl
  · intro f hf f' hf' heq hmemd
    rw [hdirs] at hmemd
    rcases (hmem f).mp hf with ⟨hf, hfe⟩ | rfl <;> rcases (hmem f').mp hf' with ⟨hf', hfe'⟩ | rfl
    · exact h.single f hf f' hf' heq hmemd
    · exact absurd (h.single f hf e he (heq.trans hx.symm) hmemd) hfe
    · exact absurd (h.single f' hf' e he (heq.symm.trans hx.symm) (heq ▸ hmemd)) hfe'
    · rfl
  · intro f hf
    rcases (hmem f).mp hf with ⟨hf, -⟩ | rfl
    · exact h.top f hf
    · exact hx ▸ h.top e he
  · by_cases hxd : x ∈ g.dirs
    · have hroot : x ≠ g.root := hx ▸ h.top e he
      have hfor := h.forest.graft (F := ((g.link d n x).remove e).Parent) hroot hd hout ?_
      · rw [hdirs]
        exact hfor
      · intro a b
        constructor
        · rintro ⟨f, hf, rfl, rfl, hb⟩
          rw [hdirs] at hb
          rcases (hmem f).mp hf with ⟨hf, hfe⟩ | rfl
          · refine .inl ⟨⟨f, hf, rfl, rfl, hb⟩, ?_⟩
            intro heq
            exact hfe (h.single f hf e he (heq.trans hx.symm) hb)
          · exact .inr ⟨rfl, rfl⟩
        · rintro (⟨⟨f, hf, rfl, rfl, hb⟩, hne⟩ | ⟨rfl, rfl⟩)
          · refine ⟨f, (hmem f).mpr (.inl ⟨hf, ?_⟩), rfl, rfl, by rw [hdirs]; exact hb⟩
            rintro rfl
            exact hne hx
          · exact ⟨_, (hmem _).mpr (.inr rfl), rfl, rfl, by rw [hdirs]; exact hxd⟩
    · refine h.forest.congr ?_ fun v hv => by rwa [hdirs] at hv
      intro a b
      constructor
      · rintro ⟨f, hf, rfl, rfl, hb⟩
        rw [hdirs] at hb
        rcases (hmem f).mp hf with ⟨hf, -⟩ | rfl
        · exact ⟨f, hf, rfl, rfl, hb⟩
        · exact absurd hb hxd
      · rintro ⟨f, hf, rfl, rfl, hb⟩
        refine ⟨f, (hmem f).mpr (.inl ⟨hf, ?_⟩), rfl, rfl, by rw [hdirs]; exact hb⟩
        rintro rfl
        exact hxd (hx ▸ hb)

/-- A further name of a file. -/
theorem Rooted.linkFile (h : g.Rooted) (hd : d ∈ g.dirs) (hnone : g.lookup d n = none)
    (hx : x ∉ g.dirs) : (g.link d n x).Rooted := by
  have hspell : ∀ {k : Name}, (⟨d, n, none, x⟩ : Entry).Spells k → k = n := by
    rintro k (hk | hk)
    · exact hk.symm
    · cases hk
  refine ⟨h.root_mem, ?_, ?_, ?_, ?_, ?_⟩
  · intro f hf
    rcases mem_link.mp hf with hf | rfl
    · exact h.in_dirs f hf
    · exact hd
  · intro f hf f' hf' hdir k hk hk'
    rcases mem_link.mp hf with hf | rfl <;> rcases mem_link.mp hf' with hf' | rfl
    · exact h.names f hf f' hf' hdir k hk hk'
    · rw [hspell hk'] at hk
      exact absurd hk (lookup_none hnone hf hdir)
    · rw [hspell hk] at hk'
      exact absurd hk' (lookup_none hnone hf' hdir.symm)
    · rfl
  · intro f hf f' hf' heq hmem
    rcases mem_link.mp hf with hf | rfl <;> rcases mem_link.mp hf' with hf' | rfl
    · exact h.single f hf f' hf' heq hmem
    · rw [heq] at hmem
      exact absurd hmem hx
    · exact absurd hmem hx
    · rfl
  · intro f hf
    rcases mem_link.mp hf with hf | rfl
    · exact h.top f hf
    · intro (heq : x = g.root)
      rw [heq] at hx
      exact hx h.root_mem
  · refine h.forest.congr ?_ fun v hv => hv
    intro a b
    constructor
    · rintro ⟨f, hf, rfl, rfl, hb⟩
      rcases mem_link.mp hf with hf | rfl
      · exact ⟨f, hf, rfl, rfl, hb⟩
      · exact absurd hb hx
    · rintro ⟨f, hf, rfl, rfl, hb⟩
      exact ⟨f, mem_link.mpr (.inl hf), rfl, rfl, hb⟩

/-! ### Deletes -/

theorem mem_remove {f : Entry} : f ∈ (g.remove e).entries ↔ f ∈ g.entries ∧ f ≠ e := by
  simp [remove]

theorem Rooted.mem_dirs_remove (h : g.Rooted) (he : e ∈ g.entries) {v : ℕ} :
    v ∈ (g.remove e).dirs ↔ v ∈ g.dirs ∧ (v ≠ e.inode) := by
  simp only [remove]
  split_ifs with hany
  · -- another name: the inode is a file
    obtain ⟨f, hf, heq⟩ := List.any_eq_true.mp hany
    obtain ⟨hf, hne⟩ := List.mem_filter.mp hf
    refine ⟨fun hv => ⟨hv, ?_⟩, fun hv => hv.1⟩
    rintro rfl
    have heq : f.inode = e.inode := by simpa using heq
    exact absurd (h.single e he f hf heq.symm hv).symm (by simpa using hne)
  · simp

/-- Deleting an entry with nothing below it keeps the tree. -/
theorem Rooted.removeLeaf (h : g.Rooted) (he : e ∈ g.entries)
    (hleaf : ∀ f ∈ g.entries, f.dir ≠ e.inode) : (g.remove e).Rooted := by
  have hsub : ∀ {f}, f ∈ (g.remove e).entries → f ∈ g.entries := fun hf => (mem_remove.mp hf).1
  refine ⟨?_, ?_, ?_, ?_, ?_, ?_⟩
  · exact (h.mem_dirs_remove he).mpr ⟨h.root_mem, (h.top e he).symm⟩
  · intro f hf
    exact (h.mem_dirs_remove he).mpr ⟨h.in_dirs f (hsub hf), hleaf f (hsub hf)⟩
  · intro f hf f' hf'
    exact h.names f (hsub hf) f' (hsub hf')
  · intro f hf f' hf' heq hmem
    exact h.single f (hsub hf) f' (hsub hf') heq ((h.mem_dirs_remove he).mp hmem).1
  · intro f hf
    exact h.top f (hsub hf)
  · refine h.forest.prune (x := e.inode) ?_ ?_ fun v hv => (h.mem_dirs_remove he).mp hv
    · rintro b ⟨f, hf, hdir, -⟩
      exact hleaf f hf hdir
    · intro a b
      constructor
      · rintro ⟨f, hf, rfl, rfl, hb⟩
        obtain ⟨hb, hne⟩ := (h.mem_dirs_remove he).mp hb
        exact ⟨⟨f, hsub hf, rfl, rfl, hb⟩, hne⟩
      · rintro ⟨⟨f, hf, rfl, rfl, hb⟩, hne⟩
        refine ⟨f, mem_remove.mpr ⟨hf, ?_⟩, rfl, rfl, (h.mem_dirs_remove he).mpr ⟨hb, hne⟩⟩
        rintro rfl
        exact hne rfl

theorem entryAt_mem (h : g.entryAt p = some e) : e ∈ g.entries := by
  obtain ⟨n, -, h⟩ := Option.bind_eq_some_iff.mp h
  obtain ⟨d, -, h⟩ := Option.bind_eq_some_iff.mp h
  exact (lookup_mem h).1

theorem Rooted.nkDelete (h : g.Rooted) (ok : Bool) (path : Path) : (g.nkDelete ok path).2.Rooted := by
  unfold DirGraph.nkDelete
  cases he : g.entryAt path with
  | none => exact h
  | some e =>
    have hmem := entryAt_mem he
    simp only
    split_ifs with hcan
    · refine h.removeLeaf hmem fun f hf hdir => ?_
      rcases hcan.2 with hfile | hempty | ⟨f', hf', hne, heq⟩
      · exact hfile (hdir ▸ h.in_dirs f hf)
      · exact absurd hdir (by simpa using List.all_eq_true.mp hempty f hf)
      · have hd : e.inode ∈ g.dirs := hdir ▸ h.in_dirs f hf
        exact hne (h.single f' hf' e hmem heq (heq ▸ hd))
    · exact h

/-! ### Renames -/

/-- The directory `dir` resolves to is not below the directory `old` does. -/
def Outside (g : DirGraph) (old dir : Path) : Prop :=
  ∀ x d, g.resolve old = some x → g.resolve dir = some d → x ∈ g.dirs → d ∈ g.dirs →
    ¬ ReflTransGen g.Parent x d

/-- A directory that could not be renamed does not keep its new name. -/
def Undone (g : DirGraph) (ok : RenameSteps) (old : Path) : Prop :=
  ∀ x ∈ g.resolve old, x ∈ g.dirs → ok.undo = true ∨ (ok.delete = true ∧ old ≠ [])

instance (g : DirGraph) (ok : RenameSteps) (old : Path) : Decidable (g.Undone ok old) :=
  inferInstanceAs (Decidable (∀ x ∈ g.resolve old, x ∈ g.dirs →
    ok.undo = true ∨ (ok.delete = true ∧ old ≠ [])))

/-- What `nk_rename` can do: nothing, move the entry, or leave both names. -/
theorem nkRename_cases (ok : RenameSteps) (old dir : Path) (name : Name) (g : DirGraph) :
    (g.nkRename ok old dir name).2 = g ∨
    ∃ x d, g.resolve old = some x ∧ g.resolve dir = some d ∧ d ∈ g.dirs ∧ g.lookup d name = none ∧
      ((∃ e ∈ g.entries, (g.link d name x).entryAt old = some e ∧ e.inode = x ∧ old ≠ [] ∧
          g.nkRename ok old dir name = (true, (g.link d name x).remove e)) ∨
        (ok.undo = false ∧ (ok.delete = false ∨ old = []) ∧
          g.nkRename ok old dir name = (false, g.link d name x))) := by
  unfold DirGraph.nkRename
  cases hx : g.resolve old with
  | none => exact .inl rfl
  | some x =>
  cases hd : g.resolve dir with
  | none => exact .inl rfl
  | some d =>
  by_cases hdir : d ∉ g.dirs
  · exact .inl (by simp [hdir])
  cases hl : g.lookup d name with
  | some e => exact .inl (by simp [hdir, hl])
  | none =>
  by_cases hlink : ok.link = false
  · exact .inl (by simp [hdir, hl, hlink])
  by_cases hundo : ok.undo = true
  · cases hdel : ok.delete with
    | false =>
      refine .inl ?_
      cases he : (g.link d name x).entryAt old <;> simp [hdir, hl, hlink, hundo, he]
    | true =>
      by_cases hne : old = []
      · subst hne
        have hnone : (g.link d name x).entryAt [] = none := rfl
        exact .inl (by simp [hdir, hl, hlink, hundo, hnone])
      · obtain ⟨e, he, hmem, hinode⟩ := entryAt_link (d := d) (n := name) hne hx
        refine .inr ⟨x, d, rfl, rfl, not_not.mp hdir, hl, .inl ⟨e, hmem, he, hinode, hne, ?_⟩⟩
        simp [hdir, hl, hlink, he]
  · have hundo : ok.undo = false := by simpa using hundo
    refine .inr ⟨x, d, rfl, rfl, not_not.mp hdir, hl, ?_⟩
    by_cases hne : old = []
    · subst hne
      have hnone : (g.link d name x).entryAt [] = none := rfl
      exact .inr ⟨hundo, .inr rfl, by simp [hdir, hl, hlink, hundo, hnone]⟩
    · obtain ⟨e, he, hmem, hinode⟩ := entryAt_link (d := d) (n := name) hne hx
      cases hdel : ok.delete with
      | false => exact .inr ⟨hundo, .inl rfl, by simp [hdir, hl, hlink, hundo, he]⟩
      | true => exact .inl ⟨e, hmem, he, hinode, hne, by simp [hdir, hl, hlink, he]⟩

/-- A link that stays behind is one of a file. -/
theorem Undone.file {ok : RenameSteps} {old : Path} (h : g.Undone ok old)
    (hx : g.resolve old = some x) (hno : ok.undo = false) (hfail : ok.delete = false ∨ old = []) :
    x ∉ g.dirs := by
  intro hxd
  rcases h x hx hxd with hu | ⟨hdel, hne⟩
  · rw [hno] at hu
    cases hu
  · rcases hfail with hfail | hnil
    · rw [hfail] at hdel
      cases hdel
    · exact hne hnil

theorem Rooted.nkRename (h : g.Rooted) {ok : RenameSteps} {old dir : Path} {name : Name}
    (hout : old ≠ [] → g.Outside old dir) (hundo : g.Undone ok old) :
    (g.nkRename ok old dir name).2.Rooted := by
  rcases nkRename_cases ok old dir name g with hsame | ⟨x, d, hx, hd, hdir, hl, hcase⟩
  · rw [hsame]
    exact h
  rcases hcase with ⟨e, hmem, -, hinode, hne, hmove⟩ | ⟨hno, hfail, hlink⟩
  · rw [hmove]
    refine h.move hdir hl hmem hinode ?_
    by_cases hxd : x ∈ g.dirs
    · exact hout hne x d hx hd hxd hdir
    · exact h.not_below_file hxd hdir
  · rw [hlink]
    exact h.linkFile hdir hl (hundo.file hx hno hfail)

theorem Rooted.renamed (h : g.Rooted) {ok : RenameSteps} {old dir : Path} {name : Name} {b : Bool}
    {u : DirGraph} (hr : g.nkRename ok old dir name = (b, u)) (hout : old ≠ [] → g.Outside old dir)
    (hundo : g.Undone ok old) : u.Rooted := by
  have hroot : (g.nkRename ok old dir name).2.Rooted := h.nkRename hout hundo
  rwa [hr] at hroot

/-- A rename that failed adds no directory entry. -/
theorem nkRename_failed {ok : RenameSteps} {old dir : Path} {name : Name}
    (hundo : g.Undone ok old) (hfail : (g.nkRename ok old dir name).1 = false) :
    (g.nkRename ok old dir name).2.dirs = g.dirs ∧
      ∀ f ∈ (g.nkRename ok old dir name).2.entries, f.inode ∈ g.dirs → f ∈ g.entries := by
  rcases nkRename_cases ok old dir name g with hsame | ⟨x, d, hx, -, -, -, hcase⟩
  · rw [hsame]
    exact ⟨rfl, fun f hf _ => hf⟩
  rcases hcase with ⟨e, -, -, -, -, hmove⟩ | ⟨hno, hdel, hlink⟩
  · rw [hmove] at hfail
    cases hfail
  · rw [hlink]
    refine ⟨rfl, fun f hf hdir => ?_⟩
    rcases mem_link.mp hf with hf | rfl
    · exact hf
    · exact absurd hdir (hundo.file hx hno hdel)

/-- A directory is not above the one its entry is in. -/
theorem Rooted.outside_sibling (h : g.Rooted) (hp : p ≠ []) : g.Outside p p.dropLast := by
  obtain ⟨q, k, rfl⟩ := (List.eq_nil_or_concat p).resolve_left hp
  rw [List.concat_eq_append, List.dropLast_concat]
  intro x d hx hd hxd _ hbelow
  obtain ⟨m, e, hm, he, rfl⟩ := resolve_eq_some hx
  obtain ⟨hmem, hdir, -⟩ := lookup_mem he
  obtain rfl : d = m := Option.some.inj (hd.symm.trans hm)
  exact h.forest.acyclic hxd (TransGen.tail' hbelow ⟨e, hmem, hdir, rfl, hxd⟩)

end DirGraph

end NtfsKit
