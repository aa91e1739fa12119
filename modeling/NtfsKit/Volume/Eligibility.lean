import NtfsKit.Bridge.EndSpec
import NtfsKit.Engine.FullDisk
import NtfsKit.Engine.RunlistBounds

/-! Which files the kernel may read and write directly. `nk_stat_path` and
`makeAttributes` decide it when the attributes of a file are asked for; `nk_blockmap`
decides it again, by returning -2, when the file is mapped. -/

namespace NtfsKit

open Prog

variable {σ : Type}

/-- What `fill_stat` reads of an inode besides its data attribute; the times are in
seconds. -/
structure NtfsInode where
  mftNo : ℕ
  directory : Bool
  reparsePoint : Bool
  system : Bool
  /-- `allocated_size` of the data attribute. -/
  allocatedSize : ℤ
  lastAccessTime : ℤ
  lastDataChangeTime : ℤ
  lastMftChangeTime : ℤ
  creationTime : ℤ
  deriving DecidableEq, Repr

/-- `nk_stat`. -/
structure NkStat where
  isDir : Bool
  size : ℤ
  allocSize : ℤ
  inode : ℕ
  atime : ℤ
  mtime : ℤ
  ctime : ℤ
  btime : ℤ
  isSymlink : Bool
  koioOk : Bool
  isResident : Bool
  deriving DecidableEq, Repr

/-- `INTX_SYMBOLIC_LINK`: "IntxLNK" and a one. -/
def intxSymbolicLink : List UInt8 := [0x49, 0x6E, 0x74, 0x78, 0x4C, 0x4E, 0x4B, 0x01]

/-- `is_intx_symlink` on an open attribute. -/
def isIntxSymlink (vol : NtfsVolume) (s : Ntfs σ) : Bool :=
  if s.na.dataSize < 10 ∨ s.na.dataSize > 4096 + 8 then false
  else decide (s.attrPread vol 0 8 = some intxSymbolicLink)

/-- `fill_stat`; `na` is the data attribute, if it is open. -/
def fillStat (vol : NtfsVolume) (ni : NtfsInode) (na : Option (Ntfs σ)) : NkStat :=
  let isSymlink := ni.reparsePoint || (ni.system && na.any (isIntxSymlink vol))
  { isDir := ni.directory
    size := na.elim 0 (·.na.dataSize)
    allocSize := na.elim 0 fun _ => ni.allocatedSize
    inode := ni.mftNo
    atime := ni.lastAccessTime
    mtime := ni.lastDataChangeTime
    ctime := ni.lastMftChangeTime
    btime := ni.creationTime
    isSymlink := isSymlink
    koioOk := na.any fun s => !(s.na.compressed || s.na.encrypted) && !isSymlink
    isResident := na.any fun s => !s.na.nonResident }

/-- `nk_stat_path`; `none` is the return value -1. -/
def nkStatPath (L : Libntfs σ) (v : NkVolume) (ni : NtfsInode) (f : NkFile σ) :
    Option NkStat × NkFile σ :=
  let i := f.libEng L.pathnameToInode
  if i.1 = false then (none, i.2)
  else
    let a := if ni.directory then (false, i.2) else i.2.attrOpen L
    let na := if a.1 then some a.2.toNtfs else none
    let st := fillStat v.vol ni na
    let unmappable := v.bde || na.any fun s => v.vol.readOnly && s.na.nonResident &&
      decide (s.na.initializedSize < s.na.dataSize)
    (some (if unmappable then { st with koioOk := false } else st),
      (a.2.libEng L.inodeClose).2)

inductive ItemType
  | file
  | directory
  | symlink
  deriving DecidableEq, Repr

/-- The attributes FSKit is given, without the identifiers and owners. -/
structure Attributes where
  type : ItemType
  mode : ℕ
  size : ℤ
  allocSize : ℤ
  linkCount : ℕ
  flags : ℕ
  inhibitKernelOffloadedIo : Bool
  modifyTime : ℤ
  accessTime : ℤ
  changeTime : ℤ
  birthTime : ℤ
  deriving DecidableEq, Repr

/-- What `nk_statvfs` fills in. -/
structure NkStatvfs where
  totalBytes : ℤ
  freeBytes : ℤ
  clusterSize : ℤ
  deriving DecidableEq, Repr

/-- `nk_statvfs`; `none` is the return value -1. `freeClusters` is what
`ntfs_volume_get_free_space` counts, when it can. The cluster size is an `int`. -/
def nkStatvfs (vol : NtfsVolume) (freeClusters : Option ℤ) : Option NkStatvfs :=
  freeClusters.map fun n => ⟨vol.nrClusters * vol.clusterSize, n * vol.clusterSize,
    vol.clusterSize.bmod (2 ^ 32)⟩

/-- The `clusterSize` that `activate` keeps. It does not look at the answer of `nk_statvfs`,
which has filled in nothing when it fails: 0 is an unknown size. -/
def activatedClusterSize (vol : NtfsVolume) (freeClusters : Option ℤ) : ℤ :=
  (nkStatvfs vol freeClusters).elim 0 (·.clusterSize)

/-- `clustersUnmappable`. -/
def clustersUnmappable (clusterSize deviceBlockSize : ℤ) : Bool :=
  decide (0 < clusterSize) && decide (clusterSize % deviceBlockSize ≠ 0)

/-- `makeAttributes`. The volume is read-only here when the engine mounted it so;
`clusterSize` is the one `activate` keeps. -/
def makeAttributes (v : NkVolume) (clusterSize deviceBlockSize : ℤ) (st : NkStat) :
    Attributes where
  type := if st.isSymlink then .symlink else if st.isDir then .directory else .file
  mode := if st.isSymlink then 0o120755 else if st.isDir then 0o040755 else 0o100644
  size := max 0 st.size
  allocSize := max 0 st.allocSize
  linkCount := 1
  flags := 0
  inhibitKernelOffloadedIo :=
    !st.koioOk || clustersUnmappable clusterSize deviceBlockSize || (v.vol.readOnly && st.isResident)
  modifyTime := st.mtime
  accessTime := st.atime
  changeTime := st.ctime
  birthTime := st.btime

/-! ### What the decision says of the file -/

/-- The file as far as `makeAttributes` vouches for it. -/
structure Offloaded (v : NkVolume) (f : NkFile σ) : Prop where
  bde : v.bde = false
  compressed : f.na.compressed = false
  encrypted : f.na.encrypted = false
  readOnly : v.vol.readOnly = true →
    f.na.nonResident = true ∧ f.na.dataSize ≤ f.na.recInitializedSize

/-- The cluster size `activate` keeps is the volume's or no positive number. -/
theorem activatedClusterSize_eq {vol : NtfsVolume} (hv : vol.Fields) {freeClusters : Option ℤ}
    (h : 0 < activatedClusterSize vol freeClusters) :
    activatedClusterSize vol freeClusters = vol.clusterSize := by
  have h0 := hv.clusterSize_pos
  have h32 := hv.clusterSize_lt
  cases freeClusters with
  | none => exact absurd h (lt_irrefl 0)
  | some n =>
    change 0 < vol.clusterSize.bmod (2 ^ 32) at h
    change vol.clusterSize.bmod (2 ^ 32) = vol.clusterSize
    rw [Int.bmod_def] at h ⊢
    omega

/-- The volume's clusters are whole blocks as `nk_blockmap` counts them, for a volume whose
clusters `makeAttributes` finds nothing against. -/
theorem blockSize_dvd_iff {vol : NtfsVolume} (hv : vol.Fields) {freeClusters : Option ℤ}
    {deviceBlockSize : ℤ}
    (h : clustersUnmappable (activatedClusterSize vol freeClusters) deviceBlockSize = false) :
    vol.clusterSize % blockSize deviceBlockSize = 0 ↔
      (512 ≤ deviceBlockSize → 0 < activatedClusterSize vol freeClusters ∨
        vol.clusterSize % deviceBlockSize = 0) ∧
      (deviceBlockSize < 512 → vol.clusterSize % 512 = 0) := by
  rw [clustersUnmappable, Bool.and_eq_false_iff, decide_eq_false_iff_not, decide_eq_false_iff_not,
    not_not] at h
  unfold blockSize
  split_ifs with hd
  · refine ⟨fun hb => ⟨fun _ => .inr hb, fun hlt => absurd hd (not_le.mpr hlt)⟩, fun hb => ?_⟩
    rcases hb.1 hd with hpos | hb
    · exact activatedClusterSize_eq hv hpos ▸ h.resolve_left (not_not.mpr hpos)
    · exact hb
  · exact ⟨fun hb => ⟨fun hle => absurd hle hd, fun _ => hb⟩, fun hb => hb.2 (not_le.mp hd)⟩

section Stat

variable {L : Libntfs σ} {v : NkVolume} {ni : NtfsInode} {f : NkFile σ} {st : NkStat}

/-- A stat that reports an open attribute as mappable. -/
theorem nkStatPath_koioOk (h : (nkStatPath L v ni f).1 = some st) (hk : st.koioOk = true) :
    v.bde = false ∧ f.na.compressed = false ∧ f.na.encrypted = false ∧
      (v.vol.readOnly = true → f.na.nonResident = true →
        f.na.dataSize ≤ f.na.recInitializedSize) ∧
      st.isResident = !f.na.nonResident := by
  unfold nkStatPath at h
  extract_lets i a na st₀ unmappable at h
  split_ifs at h with hino hun
  · obtain rfl := Option.some.inj h
    cases hk
  obtain rfl := Option.some.inj h
  have hopen : a.1 = true := by
    by_contra hne
    have hna : na = none := if_neg hne
    simp [st₀, fillStat, hna] at hk
  have hna : na = some a.2.toNtfs := if_pos hopen
  have hattr : a.2.na = { f.na with initializedSize := f.na.recInitializedSize } := by
    simp only [a] at hopen ⊢
    split_ifs at hopen ⊢
    rfl
  simp only [unmappable, hna, Option.any_some, Bool.or_eq_true, Bool.and_eq_true,
    decide_eq_true_eq, not_or, not_and, not_lt, hattr] at hun
  simp only [st₀, fillStat, hna, Option.any_some, hattr, Bool.and_eq_true, Bool.not_eq_true',
    Bool.or_eq_false_iff] at hk
  exact ⟨eq_false_of_ne_true hun.1, hk.1.1, hk.1.2, fun h1 h2 => hun.2 ⟨h1, h2⟩, by
    simp only [st₀, fillStat, hna, Option.any_some, hattr]⟩

/-- The stat leaves the file as it is. -/
theorem nkStatPath_opened (L : Libntfs σ) (v : NkVolume) (ni : NtfsInode) (f : NkFile σ) :
    Opened v.vol f (nkStatPath L v ni f).2 ∧
      (nkStatPath L v ni f).2.na.compressed = f.na.compressed ∧
      (nkStatPath L v ni f).2.na.encrypted = f.na.encrypted ∧
      (nkStatPath L v ni f).2.na.nonResident = f.na.nonResident ∧
      (nkStatPath L v ni f).2.na.dataSize = f.na.dataSize ∧
      (nkStatPath L v ni f).2.na.recInitializedSize = f.na.recInitializedSize := by
  have hi : Opened v.vol f (f.libEng L.pathnameToInode).2 :=
    (sameFile_libEng L.pathnameToInode f).opened
  unfold nkStatPath
  extract_lets i a na st₀ unmappable
  by_cases hino : i.1 = false
  · rw [if_pos hino]
    exact ⟨hi, rfl, rfl, rfl, rfl, rfl⟩
  rw [if_neg hino]
  by_cases hdir : ni.directory = true
  · have ha : a = (false, i.2) := if_pos hdir
    rw [ha]
    exact ⟨hi.trans (sameFile_libEng L.inodeClose i.2).opened, rfl, rfl, rfl, rfl, rfl⟩
  · have ha : a = i.2.attrOpen L := if_neg hdir
    rw [ha]
    exact ⟨(hi.trans (attrOpen_opened L i.2)).trans (sameFile_libEng L.inodeClose _).opened,
      rfl, rfl, rfl, rfl, rfl⟩

theorem offloaded_of_attributes {clusterSize deviceBlockSize : ℤ}
    (h : (nkStatPath L v ni f).1 = some st)
    (hk : (makeAttributes v clusterSize deviceBlockSize st).inhibitKernelOffloadedIo = false) :
    Offloaded v (nkStatPath L v ni f).2 ∧
      clustersUnmappable clusterSize deviceBlockSize = false := by
  simp only [makeAttributes, Bool.or_eq_false_iff, Bool.not_eq_false', Bool.and_eq_false_iff] at hk
  obtain ⟨⟨hok, hblocks⟩, hres⟩ := hk
  obtain ⟨h1, h2, h3, h4, h5⟩ := nkStatPath_koioOk h hok
  obtain ⟨-, h6, h7, h8, h9, h10⟩ := nkStatPath_opened L v ni f
  refine ⟨⟨h1, h6.trans h2, h7.trans h3, fun hro => ?_⟩, hblocks⟩
  rw [h8, h9, h10]
  have hnon : f.na.nonResident = true := by
    rcases hres with hres | hres
    · rw [hro] at hres
      cases hres
    · simpa [h5] using hres
  exact ⟨hnon, h4 hro hnon⟩

end Stat

/-! ### The exits of a map -/

/-- An exit with an error that is not -2. -/
def Exit.Fails (e : Exit) : Prop := e = .out (-1) ∨ e = .diverge

section Exits

variable {L : Libntfs σ} {v : NkVolume} {f : NkFile σ}

theorem orFail_fails (g : NkFile σ → ℤ × NkFile σ) (expect : ℤ) :
    wp (orFail (call g) expect) (fun _ t => t = (g f).2) (fun e _ => e.Fails) f := by
  unfold orFail
  rw [wp_bind, wp_call]
  refine wp_ite (fun _ => ?_) fun _ => ?_
  · rw [wp_exit]
    exact .inl rfl
  · rw [wp_pure]

theorem pwriteZeroes_fails (cs : List (ℤ × ℤ)) :
    wp (each (pwriteZeroed L) cs) (fun _ _ => True) (fun e _ => e.Fails) f :=
  wp_each (fun _ _ => True)
    (fun _ _ _ _ => wp_mono (orFail_fails _ _) (fun _ _ _ => trivial) fun _ _ h => h) cs f trivial

theorem mapChecked_fails :
    wp (mapChecked L v) (fun _ t => t = (f.lib L.attrMapWholeRunlist).2) (fun e _ => e.Fails) f := by
  unfold mapChecked
  rw [wp_bind]
  refine wp_mono (orFail_fails _ _) ?_ fun _ _ h => h
  rintro _ t rfl
  rw [wp_bind, wp_read]
  refine wp_ite (fun _ => ?_) fun _ => ?_
  · rw [wp_exit]
    exact .inl rfl
  · rw [wp_pure]

theorem zeroGap_fails (offset : ℤ) :
    wp (zeroGap L v offset) (fun _ _ => True) (fun e _ => e.Fails) f := by
  unfold zeroGap zeroBelow
  rw [wp_bind, wp_read, wp_bind]
  refine wp_ite (fun _ => ?_) fun _ => wp_ite (fun _ => ?_) fun _ => trivial
  · rw [wp_bind]
    refine wp_mono (pwriteZeroes_fails _) (fun _ t _ => ?_) fun _ _ h => h
    exact wp_mono mapChecked_fails (fun _ _ _ => trivial) fun _ _ h => h
  · exact wp_mono (orFail_fails _ _) (fun _ _ _ => trivial) fun _ _ h => h

theorem fillHoles_fails (hwm offset reqEnd : ℤ) : ∀ (fuel : ℕ) (f : NkFile σ),
    wp (fillHoles L v hwm offset reqEnd fuel) (fun _ _ => True) (fun e _ => e.Fails) f
  | 0, _ => .inr rfl
  | fuel + 1, f => by
    rw [fillHoles, wp_bind, wp_read]
    split
    · trivial
    · rw [wp_bind, fillHole, wp_bind, wp_modify, wp_bind]
      refine wp_mono (pwriteZeroes_fails _) (fun _ t _ => ?_) fun _ _ h => h
      refine wp_mono mapChecked_fails (fun _ u _ => ?_) fun _ _ h => h
      exact fillHoles_fails hwm offset reqEnd fuel u

/-- The hole fill of a read map does nothing. -/
theorem fillWindow_fails (hwm offset reqEnd oi : ℤ) (forWrite : Bool) :
    wp (fillWindow L v hwm offset reqEnd oi forWrite) (fun _ t => forWrite = false → t = f)
      (fun e _ => e.Fails) f := by
  unfold fillWindow
  refine wp_ite (fun hw => ?_) fun _ => fun _ => rfl
  rw [wp_bind]
  refine wp_mono (fillHoles_fails _ _ _ _ f) (fun _ t _ => ?_) fun _ _ h => h
  unfold restoreInit
  rw [wp_bind, wp_read]
  have hno : ∀ u : NkFile σ, forWrite = false → u = f := fun _ h => by simp [hw] at h
  refine wp_ite (fun _ => ?_) fun _ => hno t
  exact wp_mono (orFail_fails _ _) (fun _ u _ => hno u) fun _ _ h => h

/-- Plain data that is in clusters, or can be moved there. -/
theorem makeMappable_fails (h : Offloaded v f)
    (hforce : f.na.nonResident = false → (L.attrForceNonResident f.toNtfs).1 = 0) :
    wp (makeMappable L v) (fun _ t => v.vol.readOnly = true → t = f) (fun e _ => e.Fails) f := by
  unfold makeMappable
  rw [wp_bind, wp_read]
  rw [if_neg (by simp [h.compressed, h.encrypted])]
  refine wp_ite (fun _ => fun _ => rfl) fun hres => ?_
  have hrw : ¬ v.vol.readOnly = true := fun hro => hres (h.readOnly hro).1
  have h0 : (f.lib L.attrForceNonResident).1 = 0 := hforce (eq_false_of_ne_true hres)
  rw [if_neg hrw, wp_bind, wp_call, if_neg (not_not.mpr h0), wp_pure]
  exact fun hro => absurd hro hrw

theorem prepare_fails (hL : L.Spec v.vol) (h : Offloaded v f)
    (hforce : f.na.nonResident = false → (L.attrForceNonResident f.toNtfs).1 = 0)
    (hi : f.na.initializedSize = f.na.recInitializedSize) (offset reqEnd : ℤ) (forWrite : Bool) :
    wp (prepare L v offset reqEnd forWrite)
      (fun _ t => forWrite = false → v.vol.readOnly = true →
        t.na.dataSize ≤ t.na.initializedSize) (fun e _ => e.Fails) f := by
  unfold prepare
  rw [wp_bind]
  refine wp_mono (makeMappable_fails h hforce) (fun _ t ht => ?_) fun _ _ hx => hx
  have hgrow : wp (growSolid L forWrite reqEnd) (fun _ u => forWrite = false → u = t)
      (fun e _ => e.Fails) t := by
    unfold growSolid
    rw [wp_bind, wp_read]
    refine wp_ite (fun hw => ?_) fun _ => fun _ => rfl
    refine wp_mono (orFail_fails _ _) (fun _ u _ hr => ?_) fun _ _ hx => hx
    rw [hr] at hw
    cases hw.1
  rw [wp_bind]
  refine wp_mono hgrow (fun _ u hu => ?_) fun _ _ hx => hx
  rw [wp_bind]
  refine wp_mono mapChecked_fails (fun _ w hw => ?_) fun _ _ hx => hx
  refine wp_ite (fun hwr => ?_) fun _ => ?_
  · refine wp_mono (zeroGap_fails offset) (fun _ x _ hr => ?_) fun _ _ hx => hx
    rw [hwr] at hr
    cases hr
  · rw [wp_pure]
    intro hr hro
    have hna : w.na = f.na := by
      rw [hw, hu hr, ht hro]
      exact (hL.attrMapWholeRunlist f.toNtfs).1
    rw [hna, hi]
    exact (h.readOnly hro).2

/-- The partial block at `initialized_size` can be zeroed, or there is none. -/
theorem initEnd_fails (bs : ℤ) (forWrite : Bool)
    (h : forWrite = false → v.vol.readOnly = true → f.na.dataSize ≤ f.na.initializedSize) :
    wp (initEnd L v bs forWrite) (fun _ _ => True) (fun e _ => e.Fails) f := by
  unfold initEnd
  refine wp_ite (fun _ => trivial) fun hr => ?_
  rw [wp_bind, wp_read]
  refine wp_ite (fun _ => ?_) fun _ => wp_ite (fun _ => trivial) fun _ => ?_
  · rw [wp_exit]
    exact .inl rfl
  refine wp_ite (fun hro => ?_) fun _ => wp_ite (fun _ => ?_) fun _ => trivial
  · have hle := h (eq_false_of_ne_true hr) hro.2
    have hgt := hro.1
    split_ifs at hgt <;> omega
  · rw [wp_bind]
    refine wp_mono (pwriteZeroes_fails _) (fun _ t _ => ?_) fun _ _ hx => hx
    rw [wp_bind]
    exact wp_mono mapChecked_fails (fun _ _ _ => trivial) fun _ _ hx => hx

/-- A return value that is not -2. -/
def Plain (ret : Option ℤ) : Prop := ∀ r, ret = some r → r = 0 ∨ r = -1

theorem flush_plain {r : ℤ} (h : r = 0 ∨ r = -1) (f : NkFile σ) :
    (flush L r f).1 = 0 ∨ (flush L r f).1 = -1 := by
  simp only [flush]
  split_ifs <;> omega

theorem leave_plain {e : Exit} (h : e.Fails) (oi : ℤ) : Plain (leave L oi e f).ret := by
  rintro r hr
  rcases h with rfl | rfl
  · obtain rfl := Option.some.inj hr
    exact flush_plain (.inr rfl) _
  · cases hr

theorem emitExtents_plain (offset reqEnd : ℤ) (forWrite : Bool) (hwm oi ie : ℤ)
    (cb : List Extent → Bool) :
    Plain (emitExtents L v offset reqEnd forWrite hwm oi ie cb f).ret := by
  rintro r hr
  obtain rfl := Option.some.inj hr
  refine flush_plain ?_ _
  simp only [handOut]
  split_ifs <;> simp

theorem blockmapBody_plain (hL : L.Spec v.vol) (h : Offloaded v f)
    (hforce : f.na.nonResident = false → (L.attrForceNonResident f.toNtfs).1 = 0)
    (hi : f.na.initializedSize = f.na.recInitializedSize) (offset reqEnd : ℤ) (forWrite : Bool)
    (bs : ℤ) (cb : List Extent → Bool) :
    Plain (blockmapBody L v offset reqEnd forWrite bs cb f).ret := by
  have hprep := prepare_fails hL h hforce hi offset reqEnd forWrite
  unfold blockmapBody
  rcases hp : prepare L v offset reqEnd forWrite f with ⟨e | hwm, g⟩
  · have he := wp_error hprep hp
    exact leave_plain he _
  have hg := wp_ok hprep hp
  dsimp only
  set oi := if forWrite = true then g.na.initializedSize else -1
  have hfill := fillWindow_fails (L := L) (v := v) (f := g) hwm offset reqEnd oi forWrite
  rcases hw : fillWindow L v hwm offset reqEnd oi forWrite g with ⟨e | _, k⟩
  · have he := wp_error hfill hw
    exact leave_plain he _
  have hk := wp_ok hfill hw
  have hend := initEnd_fails (L := L) (v := v) (f := k) bs forWrite fun hr => hk hr ▸ hg hr
  dsimp only
  rcases hi : initEnd L v bs forWrite k with ⟨e | ie, m⟩
  · have he := wp_error hend hi
    exact leave_plain he _
  · exact emitExtents_plain _ _ _ _ _ _ _

/-- A map of an offloaded file. -/
theorem nkBlockmap_plain (hL : L.Spec v.vol) (h : Offloaded v f) {d : ℤ}
    (hbs : v.vol.clusterSize % blockSize d = 0)
    (hforce : f.Opens L → f.na.nonResident = false →
      (L.attrForceNonResident ((f.libEng L.pathnameToInode).2.attrOpen L).2.toNtfs).1 = 0)
    (offset length : ℤ) (forWrite : Bool) (cb : List Extent → Bool) :
    Plain (nkBlockmap L v offset length forWrite d cb f).ret := by
  have hone : ∀ {g : NkFile σ}, Plain (⟨some (-1), [], g⟩ : MapResult σ).ret :=
    fun r hr => .inr (Option.some.inj hr).symm
  unfold nkBlockmap
  extract_lets bs i a
  split_ifs with h1 h2 h3 h4
  · exact hone
  · simp [h.bde, bs, hbs] at h2
  · exact hone
  · exact hone
  · refine blockmapBody_plain (f := a.2) hL ⟨h.bde, h.compressed, h.encrypted, h.readOnly⟩
      (fun hr => ?_) rfl _ _ _ _ _
    exact hforce ⟨eq_true_of_ne_false h3, eq_true_of_ne_false h4⟩ hr

/-- Resident data that cannot be moved. -/
theorem makeMappable_unmappable (h : Offloaded v f) (hres : f.na.nonResident = false)
    (hforce : (L.attrForceNonResident f.toNtfs).1 ≠ 0) :
    makeMappable L v f = (.error (.out (-2)), (f.lib L.attrForceNonResident).2) := by
  have hrw : ¬ v.vol.readOnly = true := fun hro => by
    rw [(h.readOnly hro).1] at hres
    cases hres
  have hne : ¬ f.na.nonResident = true := by simp [hres]
  have hcall : (call (NkFile.lib L.attrForceNonResident) : Bridge σ ℤ) f =
      (.ok (f.lib L.attrForceNonResident).1, (f.lib L.attrForceNonResident).2) := rfl
  have hfail : (f.lib L.attrForceNonResident).1 ≠ 0 := hforce
  rw [makeMappable, bind_read, if_neg (by simp [h.compressed, h.encrypted]), if_neg hne,
    if_neg hrw, bind_ok hcall, if_pos hfail]
  rfl

theorem nkBlockmap_unmappable (h : Offloaded v f) {d : ℤ}
    (hbs : v.vol.clusterSize % blockSize d = 0) (hopen : f.Opens L)
    (hres : f.na.nonResident = false) (hforce : (L.attrForceNonResident
      ((f.libEng L.pathnameToInode).2.attrOpen L).2.toNtfs).1 ≠ 0) :
    (nkBlockmap L v 0 1 false d (fun _ => false) f).ret = some (-2) := by
  set a := ((f.libEng L.pathnameToInode).2.attrOpen L).2 with ha
  have hprep : prepare L v 0 1 false a =
      (.error (.out (-2)), (a.lib L.attrForceNonResident).2) :=
    bind_error (makeMappable_unmappable (f := a)
      ⟨h.bde, h.compressed, h.encrypted, h.readOnly⟩ hres hforce)
  have hin : Enters L v 0 1 d f :=
    ⟨le_rfl, by decide, by decide, h.bde, hbs, hopen.1, hopen.2⟩
  simp only [hin.map_eq, ← ha, zero_add, blockmapBody, hprep, leave, blockmapOut, flush]
  simp

end Exits

/-- Eligibility and mappability: a file that `makeAttributes` leaves to the kernel is always
mapped or fails with -1 exactly when three things hold. On a device with blocks of at least
512 bytes, `activate` learnt the cluster size or the clusters are whole blocks; on one with
smaller blocks the clusters are whole 512-byte blocks; and resident data can be moved into
clusters. -/
theorem offloaded_maps_iff {L : Libntfs σ} {v : NkVolume} (hL : L.Spec v.vol)
    (hv : v.vol.Fields) {ni : NtfsInode} {f : NkFile σ} {st : NkStat}
    {freeClusters : Option ℤ} {deviceBlockSize : ℤ} (hst : (nkStatPath L v ni f).1 = some st)
    (hk : (makeAttributes v (activatedClusterSize v.vol freeClusters) deviceBlockSize
      st).inhibitKernelOffloadedIo = false) :
    ((∀ offset length forWrite cb,
      Plain (nkBlockmap L v offset length forWrite deviceBlockSize cb
        (nkStatPath L v ni f).2).ret) ↔
    ((512 ≤ deviceBlockSize → 0 < activatedClusterSize v.vol freeClusters ∨
        v.vol.clusterSize % deviceBlockSize = 0) ∧
      (deviceBlockSize < 512 → v.vol.clusterSize % 512 = 0)) ∧
      ((nkStatPath L v ni f).2.Opens L → (nkStatPath L v ni f).2.na.nonResident = false →
        (L.attrForceNonResident (((nkStatPath L v ni f).2.libEng L.pathnameToInode).2.attrOpen
          L).2.toNtfs).1 = 0)) ∧
    (f.Sound v.vol → ∀ offset length forWrite cb,
      ∃ r, (nkBlockmap L v offset length forWrite deviceBlockSize cb
        (nkStatPath L v ni f).2).ret = some r) := by
  obtain ⟨hoff, hclusters⟩ := offloaded_of_attributes hst hk
  have hsame := (nkStatPath_opened L v ni f).1
  set g := (nkStatPath L v ni f).2
  refine ⟨?_, fun hf offset length forWrite cb =>
    (nkBlockmap_spec hL hv.clusterSize_pos (hsame.sound hf) offset length forWrite deviceBlockSize
      cb).imp fun _ h => h.1⟩
  rw [← blockSize_dvd_iff hv hclusters]
  refine ⟨fun hplain => ?_, fun h => nkBlockmap_plain hL hoff h.1 h.2⟩
  -- the first byte of the file is a valid window
  have hret : (nkBlockmap L v 0 1 false deviceBlockSize (fun _ => false) g).ret ≠ some (-2) := by
    intro htwo
    have := hplain 0 1 false (fun _ => false) _ htwo
    omega
  have hbs : v.vol.clusterSize % blockSize deviceBlockSize = 0 := by
    by_contra hno
    refine hret ?_
    unfold nkBlockmap
    rw [if_neg (by decide)]
    dsimp only
    rw [if_pos (.inr hno)]
  refine ⟨hbs, fun hopen hres => ?_⟩
  by_contra hforce
  exact hret (nkBlockmap_unmappable hoff hbs hopen hres hforce)

/-- A volume of 64 clusters of `cluster` bytes. -/
def plainVolume (cluster : ℤ) : NkVolume := ⟨⟨cluster, 64, false⟩, false⟩

/-- A regular file of 5 bytes, in a cluster or in its MFT record. -/
def shortFile (nonResident : Bool) : NkFile Unit where
  disk _ := 0
  na := ⟨nonResident, false, false, 5, 5, 5, if nonResident then [⟨0, 4, 1⟩] else [], fun _ => 0⟩
  eng := ()
  mref := 7
  wr := []

def regularInode : NtfsInode := ⟨7, false, false, false, 512, 0, 0, 0, 0⟩

theorem offloaded_maps_non_resident :
    Plain (nkBlockmap (fullDisk 512 0) (plainVolume 512) 0 5 false 512 (fun _ => false)
      (nkStatPath (fullDisk 512 0) (plainVolume 512) regularInode (shortFile true)).2).ret := by
  have hst : (nkStatPath (fullDisk 512 0) (plainVolume 512) regularInode (shortFile true)).1 =
      some ⟨false, 5, 512, 7, 0, 0, 0, 0, false, true, false⟩ := by decide +kernel
  have hv : (plainVolume 512).vol.Fields := ⟨by decide, by decide, by decide, by decide⟩
  have hknown : 0 < activatedClusterSize (plainVolume 512).vol (some 9) := by decide
  have hk : (makeAttributes (plainVolume 512) (activatedClusterSize (plainVolume 512).vol (some 9))
      512 ⟨false, 5, 512, 7, 0, 0, 0, 0, false, true, false⟩).inhibitKernelOffloadedIo = false := by
    decide
  exact (offloaded_maps_iff (fullDisk_spec (by decide) 0) hv hst hk).1.mpr
    ⟨⟨fun _ => .inl hknown, fun h => absurd h (by decide)⟩, fun _ h => by cases h⟩
    0 5 false fun _ => false

/-- A resident file on a volume without free clusters; a device with blocks of 256 bytes
under clusters of the same size; and clusters of 512 bytes on blocks of 4096, on a volume whose
cluster size `activate` did not learn: offloaded, but not mappable. -/
theorem offloaded_unmappable :
    ((nkStatPath (fullDisk 512 0) (plainVolume 512) regularInode (shortFile false)).1.map
      fun st => (makeAttributes (plainVolume 512)
        (activatedClusterSize (plainVolume 512).vol (some 0)) 512 st).inhibitKernelOffloadedIo) =
        some false ∧
    (nkBlockmap (fullDisk 512 0) (plainVolume 512) 0 5 false 512 (fun _ => false)
      (nkStatPath (fullDisk 512 0) (plainVolume 512) regularInode (shortFile false)).2).ret =
        some (-2) ∧
    ((nkStatPath (fullDisk 256 0) (plainVolume 256) regularInode (shortFile true)).1.map
      fun st => (makeAttributes (plainVolume 256)
        (activatedClusterSize (plainVolume 256).vol (some 9)) 256 st).inhibitKernelOffloadedIo) =
        some false ∧
    (nkBlockmap (fullDisk 256 0) (plainVolume 256) 0 5 false 256 (fun _ => false)
      (nkStatPath (fullDisk 256 0) (plainVolume 256) regularInode (shortFile true)).2).ret =
        some (-2) ∧
    ((nkStatPath (fullDisk 512 0) (plainVolume 512) regularInode (shortFile true)).1.map
      fun st => (makeAttributes (plainVolume 512)
        (activatedClusterSize (plainVolume 512).vol none) 4096 st).inhibitKernelOffloadedIo) =
        some false ∧
    (nkBlockmap (fullDisk 512 0) (plainVolume 512) 0 5 false 4096 (fun _ => false)
      (nkStatPath (fullDisk 512 0) (plainVolume 512) regularInode (shortFile true)).2).ret =
        some (-2) := by
  decide +kernel

end NtfsKit
