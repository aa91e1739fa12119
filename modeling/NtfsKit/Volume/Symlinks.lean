import NtfsKit.Format.VolumeLabel
import NtfsKit.System.Writes
import NtfsKit.Volume.Eligibility

/-! Symbolic links in the Interix form: a SYSTEM file whose data is a magic of eight bytes
and the target in UTF-16. The library writes the form; `nk_stat_path` and `nk_readlink`
recognise it by its size and its magic. A target of more than 2048 units is written, but the
file it makes is too large to be recognised. -/

namespace NtfsKit

variable {σ : Type}

/-- The further calls out of the repository that the calls on links make. -/
structure LinkLib (σ : Type) where
  /-- `ntfs_mbstoucs`; `none` is a negative length. -/
  mbstoucs : String → Option (List UInt16)
  /-- `ntfs_ucstombs`. -/
  ucstombs : List UInt16 → Option String
  /-- `ntfs_create_symlink` of a name and a target: the new inode and its data. -/
  createSymlink : σ → List UInt16 → List UInt16 → Option (NtfsInode × NkFile σ)
  /-- `ntfs_make_symlink`: the target of a reparse point. -/
  makeSymlink : NtfsInode → Option String
  /-- Whether there is memory for so many bytes. -/
  malloc : ℤ → Bool

/-- `nk_create_symlink`, with the inode it made. -/
def nkCreateSymlink (L : Libntfs σ) (T : LinkLib σ) (name target : String) (e : σ) :
    ℤ × Option (NtfsInode × NkFile σ) :=
  let d := L.pathnameToInode e
  if d.1 = false then (-1, none)
  else
    match T.mbstoucs name, T.mbstoucs target with
    | some uname, some utarget =>
      if 0 < uname.length ∧ uname.length ≤ 255 ∧ 0 < utarget.length then
        match T.createSymlink d.2 uname utarget with
        | some (ni, f) => (0, some (ni, (f.libEng L.inodeClose).2))
        | none => (-1, none)
      else (-1, none)
    | _, _ => (-1, none)

/-- Hand the target over when it fits the buffer with its terminator. -/
def copyOut (buflen : ℕ) (target : String) : Option String :=
  if target.utf8ByteSize < buflen then some target else none

/-- The target behind the magic of an open attribute. -/
def intxTarget (T : LinkLib σ) (vol : NtfsVolume) (buflen : ℕ) (s : Ntfs σ) : Option String :=
  let tlenBytes := s.na.dataSize - 8
  if T.malloc tlenBytes then
    match s.attrPread vol 8 tlenBytes with
    | some ucs =>
      if (ucs.length : ℤ) = tlenBytes then
        (T.ucstombs ((utf16Units ucs).take (tlenBytes / 2).toNat)).bind (copyOut buflen)
      else none
    | none => none
  else none

/-- `nk_readlink`; `none` is the return value -1. -/
def nkReadlink (L : Libntfs σ) (T : LinkLib σ) (v : NkVolume) (buflen : ℕ) (ni : NtfsInode)
    (f : NkFile σ) : Option String × NkFile σ :=
  if buflen = 0 then (none, f)
  else
    let i := f.libEng L.pathnameToInode
    if i.1 = false then (none, i.2)
    else if ni.reparsePoint then
      ((T.makeSymlink ni).bind (copyOut buflen), (i.2.libEng L.inodeClose).2)
    else
      let a := i.2.attrOpen L
      let r := if a.1 ∧ isIntxSymlink v.vol a.2.toNtfs then
        intxTarget T v.vol buflen a.2.toNtfs else none
      (r, (a.2.libEng L.inodeClose).2)

/-! ### The assumptions on the library -/

/-- The data of a link. -/
def intxData (target : List UInt16) : List UInt8 := intxSymbolicLink ++ utf16Bytes target

/-- The file `ntfs_create_symlink` makes: a plain SYSTEM file that holds the link's data. -/
structure Linked (vol : NtfsVolume) (target : List UInt16) (ni : NtfsInode) (f : NkFile σ) :
    Prop where
  directory : ni.directory = false
  reparsePoint : ni.reparsePoint = false
  system : ni.system = true
  dataSize : f.na.dataSize = (intxData target).length
  init : f.na.recInitializedSize = f.na.dataSize
  content : ∀ i : ℕ, i < (intxData target).length → f.content vol i = byteAt (intxData target) i

/-- Conversion to UTF-16 and back gives the text again, links are written in their form, and
every call finds the file and the memory for a target that passes the size check. -/
structure LinkLib.Spec (vol : NtfsVolume) (L : Libntfs σ) (T : LinkLib σ) : Prop where
  inverse : ∀ t us, T.mbstoucs t = some us → T.ucstombs us = some t
  created : ∀ e name target ni f, T.createSymlink e name target = some (ni, f) →
    Linked vol target ni f
  resolves : ∀ e, (L.pathnameToInode e).1 = true
  opens : ∀ e, (L.attrOpen e).1 = true
  memory : ∀ n, n ≤ 4096 → T.malloc n = true

section Read

variable {vol : NtfsVolume} {target : List UInt16} {ni : NtfsInode} {f : NkFile σ}

@[simp] theorem length_intxData (target : List UInt16) :
    (intxData target).length = 8 + 2 * target.length := by
  rw [intxData, List.length_append, length_utf16Bytes]
  rfl

/-- Reading an attribute whose bytes are known. -/
theorem attrPread_data {s : Ntfs σ} {data : List UInt8} (hsize : s.na.dataSize = data.length)
    (hinit : s.na.initializedSize = s.na.dataSize)
    (hdata : ∀ i : ℕ, i < data.length → s.content vol i = byteAt data i) {p n : ℕ}
    (h : p + n ≤ data.length) :
    s.attrPread vol p n = some ((data.drop p).take n) := by
  have hend : min ((p : ℤ) + n) s.na.dataSize = p + n := by
    rw [hsize]
    omega
  rw [Ntfs.attrPread, if_neg (by omega), hend, bytes, add_sub_cancel_left, Int.toNat_natCast]
  refine congrArg some (List.ext_getElem (by simp; omega) fun i h1 h2 => ?_)
  simp only [List.length_map, List.length_range] at h1
  have hbyte : s.attrByte vol (p + i) = byteAt data (p + i) := by
    rw [Ntfs.attrByte, if_pos (by rw [hinit, hsize]; omega)]
    exact_mod_cast hdata (p + i) (by omega)
  simp only [List.getElem_map, List.getElem_range, List.getElem_take, List.getElem_drop, hbyte]
  rw [byteAt, List.getD_eq_getElem _ _ (by omega)]

/-- The link's file with its attribute open. -/
theorem Linked.pread (h : Linked vol target ni f) {s : Ntfs σ}
    (hs : s.disk = f.disk) (hna : s.na = { f.na with initializedSize := f.na.recInitializedSize })
    {p n : ℕ} (hpn : p + n ≤ 8 + 2 * target.length) :
    s.attrPread vol p n = some (((intxData target).drop p).take n) := by
  refine attrPread_data (by rw [hna]; exact h.dataSize) (by rw [hna]; exact h.init)
    (fun i hi => ?_) (by simpa using hpn)
  rw [← h.content i hi]
  simp only [Ntfs.content, Ntfs.phys, hna, hs]

/-- A link is recognised exactly when its target has at most 2048 units. -/
theorem Linked.isIntxSymlink (h : Linked vol target ni f) {s : Ntfs σ}
    (hs : s.disk = f.disk) (hna : s.na = { f.na with initializedSize := f.na.recInitializedSize })
    (h0 : 0 < target.length) :
    NtfsKit.isIntxSymlink vol s = decide (target.length ≤ 2048) := by
  have hsize : s.na.dataSize = 8 + 2 * target.length := by
    rw [hna]
    have := h.dataSize
    simp only [length_intxData] at this
    push_cast at this
    exact this
  have hmagic : s.attrPread vol 0 8 = some intxSymbolicLink := by
    have := h.pread hs hna (p := 0) (n := 8) (by omega)
    exact_mod_cast this
  unfold NtfsKit.isIntxSymlink
  rw [hmagic, hsize]
  by_cases hle : target.length ≤ 2048
  · rw [if_neg (by omega)]
    simp [hle]
  · rw [if_pos (by omega)]
    simp [hle]

/-- The target is read back. -/
theorem Linked.intxTarget {T : LinkLib σ} (h : Linked vol target ni f) {s : Ntfs σ}
    (hs : s.disk = f.disk) (hna : s.na = { f.na with initializedSize := f.na.recInitializedSize })
    (hmem : T.malloc (2 * target.length : ℕ) = true) (buflen : ℕ) :
    NtfsKit.intxTarget T vol buflen s = (T.ucstombs target).bind (copyOut buflen) := by
  have hsize : s.na.dataSize - 8 = (2 * target.length : ℕ) := by
    have hd := h.dataSize
    rw [length_intxData] at hd
    rw [hna]
    dsimp only
    omega
  have hread := h.pread hs hna (p := 8) (n := 2 * target.length) (by omega)
  have hdata : ((intxData target).drop 8).take (2 * target.length) = utf16Bytes target := by
    rw [intxData, show 8 = intxSymbolicLink.length from rfl, List.drop_left,
      List.take_of_length_le (length_utf16Bytes target).le]
  have hhalf : ((2 * target.length : ℕ) / 2 : ℤ).toNat = target.length := by omega
  rw [hdata] at hread
  have hread' : s.attrPread vol 8 (2 * target.length : ℕ) = some (utf16Bytes target) := hread
  unfold NtfsKit.intxTarget
  dsimp only
  rw [hsize, hmem, if_pos rfl, hread']
  dsimp only
  rw [length_utf16Bytes, if_pos rfl, utf16Units_bytes, hhalf, List.take_length]

end Read

section Calls

variable {L : Libntfs σ} {T : LinkLib σ} {v : NkVolume} {ni : NtfsInode} {f : NkFile σ}
  {us : List UInt16}

/-- What `nk_create_symlink` made. -/
theorem nkCreateSymlink_linked (hT : T.Spec v.vol L) {name target : String} {e : σ}
    (hu : T.mbstoucs target = some us)
    (h : nkCreateSymlink L T name target e = (0, some (ni, f))) :
    Linked v.vol us ni f ∧ 0 < us.length := by
  unfold nkCreateSymlink at h
  rw [if_neg (by simp [hT.resolves]), hu] at h
  cases hn : T.mbstoucs name with
  | none =>
    rw [hn] at h
    simp at h
  | some uname =>
    rw [hn] at h
    dsimp only at h
    split_ifs at h with hlen
    swap
    · simp at h
    cases hc : T.createSymlink (L.pathnameToInode e).2 uname us with
    | none =>
      rw [hc] at h
      simp at h
    | some made =>
      obtain ⟨ni', g⟩ := made
      rw [hc] at h
      simp only [Prod.mk.injEq, Option.some.injEq, true_and] at h
      obtain ⟨rfl, rfl⟩ := h
      have hl := hT.created _ _ _ _ _ hc
      exact ⟨⟨hl.directory, hl.reparsePoint, hl.system, hl.dataSize, hl.init, hl.content⟩, hlen.2.2⟩

/-- The stat of a link says what the size check says. -/
theorem nkStatPath_linked (hT : T.Spec v.vol L) (h : Linked v.vol us ni f) (h0 : 0 < us.length) :
    ∃ st, (nkStatPath L v ni f).1 = some st ∧ st.isSymlink = decide (us.length ≤ 2048) ∧
      (us.length ≤ 2048 → st.koioOk = false) := by
  have hopen : (NkFile.attrOpen L (f.libEng L.pathnameToInode).2).1 = true := hT.opens _
  have hintx := h.isIntxSymlink (s := (NkFile.attrOpen L (f.libEng L.pathnameToInode).2).2.toNtfs)
    rfl rfl h0
  unfold nkStatPath
  rw [if_neg (by simp [NkFile.libEng, hT.resolves])]
  simp only [h.directory, Bool.false_eq_true, if_false, hopen, if_true]
  refine ⟨_, rfl, ?_, fun hle => ?_⟩
  · split_ifs
    all_goals simp only [fillStat, h.reparsePoint, h.system, Option.any_some, hintx, Bool.false_or,
      Bool.true_and]
  · split_ifs
    · rfl
    · simp [fillStat, h.reparsePoint, h.system, hintx, hle]

/-- `nk_readlink` of a link into a buffer with room for the target. -/
theorem nkReadlink_linked (hT : T.Spec v.vol L) (h : Linked v.vol us ni f) (h0 : 0 < us.length)
    {target : String} (hu : T.mbstoucs target = some us) {buflen : ℕ}
    (hbuf : target.utf8ByteSize < buflen) :
    (nkReadlink L T v buflen ni f).1 = if us.length ≤ 2048 then some target else none := by
  have hopen : (NkFile.attrOpen L (f.libEng L.pathnameToInode).2).1 = true := hT.opens _
  have hintx := h.isIntxSymlink (s := (NkFile.attrOpen L (f.libEng L.pathnameToInode).2).2.toNtfs)
    rfl rfl h0
  unfold nkReadlink
  rw [if_neg (by omega)]
  dsimp only
  rw [if_neg (by simp [NkFile.libEng, hT.resolves]), if_neg (by simp [h.reparsePoint]), hopen, hintx]
  by_cases hle : us.length ≤ 2048
  · have htarget := h.intxTarget (T := T)
      (s := (NkFile.attrOpen L (f.libEng L.pathnameToInode).2).2.toNtfs) rfl rfl
      (hT.memory _ (by omega)) buflen
    rw [if_pos hle, if_pos ⟨rfl, by simpa using hle⟩, htarget, hT.inverse _ _ hu]
    exact if_pos hbuf
  · rw [if_neg hle, if_neg (by simp [hle])]

/-- A link `nk_create_symlink` made is reported as a symbolic link that is not mappable, and its
target is read back, exactly when the target has at most 2048 UTF-16 units. -/
theorem symlink_round_trip_iff (hT : T.Spec v.vol L) {name target : String} {e : σ}
    (hu : T.mbstoucs target = some us)
    (h : nkCreateSymlink L T name target e = (0, some (ni, f))) :
    ((∃ st, (nkStatPath L v ni f).1 = some st ∧ st.isSymlink = true ∧ st.koioOk = false) ∧
      ∀ buflen, target.utf8ByteSize < buflen → (nkReadlink L T v buflen ni f).1 = some target) ↔
    us.length ≤ 2048 := by
  obtain ⟨hl, h0⟩ := nkCreateSymlink_linked hT hu h
  constructor
  · rintro ⟨-, hread⟩
    have hlen := hread (target.utf8ByteSize + 1) (by omega)
    rw [nkReadlink_linked hT hl h0 hu (by omega)] at hlen
    by_contra hle
    rw [if_neg hle] at hlen
    cases hlen
  · intro hle
    obtain ⟨st, hst, hsym, hkoio⟩ := nkStatPath_linked hT hl h0
    refine ⟨⟨st, hst, by simpa [hle] using hsym, hkoio hle⟩, fun buflen hbuf => ?_⟩
    rw [nkReadlink_linked hT hl h0 hu hbuf, if_pos hle]

end Calls

/-- A library that converts ASCII text and makes links with resident data. -/
def asciiLinks : LinkLib Unit where
  mbstoucs t := if t.toList.all (·.toNat < 128) then
    some (t.toList.map fun c => UInt16.ofNat c.toNat) else none
  ucstombs us := some (String.ofList (us.map fun u => Char.ofNat u.toNat))
  createSymlink _ _ target := some (⟨64, false, false, true, 0, 0, 0, 0, 0⟩,
    ⟨⟨fun _ => 0, ⟨false, false, false, (intxData target).length, (intxData target).length,
      (intxData target).length, [], fun x => byteAt (intxData target) x.toNat⟩, ()⟩, 64, []⟩)
  makeSymlink _ := none
  malloc _ := true

theorem asciiLinks_spec : asciiLinks.Spec smallVolume.vol (fullDisk 512 0) where
  inverse t us h := by
    simp only [asciiLinks] at h ⊢
    split_ifs at h with hascii
    obtain rfl := Option.some.inj h
    rw [List.all_eq_true] at hascii
    have hid : (t.toList.map fun c => UInt16.ofNat c.toNat).map (fun u => Char.ofNat u.toNat) =
        t.toList := by
      rw [List.map_map]
      refine (List.map_congr_left fun c hc => ?_).trans (List.map_id _)
      have hlt : c.toNat < 128 := by simpa using hascii c hc
      simp only [Function.comp, UInt16.toNat_ofNat', id]
      rw [Nat.mod_eq_of_lt (by omega), Char.ofNat_toNat]
    rw [hid, String.ofList_toList]
  created e name target ni f h := by
    simp only [asciiLinks, Option.some.injEq, Prod.mk.injEq] at h
    obtain ⟨rfl, rfl⟩ := h
    exact ⟨rfl, rfl, rfl, rfl, rfl, fun i _ => rfl⟩
  resolves _ := rfl
  opens _ := rfl
  memory _ _ := rfl

theorem asciiLinks_mbstoucs {l : List Char} (h : l.all (·.toNat < 128) = true) :
    asciiLinks.mbstoucs (String.ofList l) = some (l.map fun c => UInt16.ofNat c.toNat) := by
  simp only [asciiLinks, String.toList_ofList, h, if_true]

theorem asciiLinks_creates {l : List Char} (h : l.all (·.toNat < 128) = true) (h0 : 0 < l.length) :
    ∃ ni f, nkCreateSymlink (fullDisk 512 0) asciiLinks (String.ofList ['l']) (String.ofList l) () =
      (0, some (ni, f)) := by
  unfold nkCreateSymlink
  rw [asciiLinks_mbstoucs h, asciiLinks_mbstoucs (by decide)]
  simp only [fullDisk, List.length_map, List.length_singleton]
  rw [if_neg (by decide), if_pos ⟨by decide, by decide, h0⟩]
  exact ⟨_, _, rfl⟩

/-- A link to `b`. -/
theorem symlink_round_trip_short : ∃ ni f,
    nkCreateSymlink (fullDisk 512 0) asciiLinks (String.ofList ['l']) (String.ofList ['b']) () =
      (0, some (ni, f)) ∧
    (∃ st, (nkStatPath (fullDisk 512 0) smallVolume ni f).1 = some st ∧ st.isSymlink = true ∧
      st.koioOk = false) ∧
    ∀ buflen, (String.ofList ['b']).utf8ByteSize < buflen →
      (nkReadlink (fullDisk 512 0) asciiLinks smallVolume buflen ni f).1 =
        some (String.ofList ['b']) := by
  obtain ⟨ni, f, h⟩ := asciiLinks_creates (l := ['b']) (by decide) (by decide)
  have hu := asciiLinks_mbstoucs (l := ['b']) (by decide)
  exact ⟨ni, f, h, (symlink_round_trip_iff (v := smallVolume) asciiLinks_spec hu h).mpr (by decide)⟩

/-- A target of 2049 units: the link is made, but it is not one to `nk_stat_path` or to
`nk_readlink`. -/
theorem long_target_lost :
    let target := String.ofList (List.replicate 2049 'a')
    ∃ ni f, nkCreateSymlink (fullDisk 512 0) asciiLinks (String.ofList ['l']) target () =
        (0, some (ni, f)) ∧
      (∃ st, (nkStatPath (fullDisk 512 0) smallVolume ni f).1 = some st ∧ st.isSymlink = false) ∧
      (nkReadlink (fullDisk 512 0) asciiLinks smallVolume (target.utf8ByteSize + 1) ni f).1 =
        none := by
  intro target
  have hascii : (List.replicate 2049 'a').all (·.toNat < 128) = true := by
    rw [List.all_eq_true]
    intro c hc
    rw [List.eq_of_mem_replicate hc]
    decide
  have hu := asciiLinks_mbstoucs hascii
  have hlong : ¬ ((List.replicate 2049 'a').map fun c => UInt16.ofNat c.toNat).length ≤ 2048 := by
    rw [List.length_map, List.length_replicate]
    decide
  obtain ⟨ni, f, h⟩ := asciiLinks_creates hascii (by rw [List.length_replicate]; decide)
  obtain ⟨hl, h0⟩ := nkCreateSymlink_linked (v := smallVolume) asciiLinks_spec hu h
  obtain ⟨st, hst, hsym, -⟩ := nkStatPath_linked asciiLinks_spec hl h0
  refine ⟨ni, f, h, ⟨st, hst, hsym.trans (decide_eq_false hlong)⟩, ?_⟩
  rw [nkReadlink_linked asciiLinks_spec hl h0 hu (Nat.lt_succ_self _), if_neg hlong]

end NtfsKit
