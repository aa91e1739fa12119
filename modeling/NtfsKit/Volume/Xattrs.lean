import Mathlib.Data.List.AList
import NtfsKit.Engine.Runlist

/-! Extended attributes, which are named data streams of the file. A name is converted to
UTF-16 and looked up; a value is put down over the old one, which is cut off behind it
afterwards, or becomes a new stream. Seen from above this is a map from names to byte
strings, but for two decisions of the volume: a value without bytes to set means to remove,
and what is longer than 4 MiB is never read into memory, so that it is there without being
readable. -/

namespace NtfsKit

variable {σ : Type}

/-! ### The calls of the bridge -/

/-- The calls out of the repository, on the streams of one file in the state `σ`. -/
structure StreamLib (σ : Type) where
  /-- `ntfs_mbstoucs`; `none` is a negative length. -/
  mbstoucs : String → Option (List UInt16)
  /-- `ntfs_ucstombs`. -/
  ucstombs : List UInt16 → Option String
  pathnameToInode : σ → Bool
  /-- The names of the `AT_DATA` attributes, as `ntfs_attr_lookup` finds them. -/
  dataAttrs : σ → List (List UInt16)
  attrOpen : σ → List UInt16 → Bool
  dataSize : σ → List UInt16 → ℤ
  attrPread : σ → List UInt16 → ℤ → ℤ → ℤ × List UInt8
  attrPwrite : σ → List UInt16 → ℤ → List UInt8 → ℤ × σ
  attrTruncate : σ → List UInt16 → ℤ → ℤ × σ
  attrAdd : σ → List UInt16 → List UInt8 → ℤ × σ
  attrRm : σ → List UInt16 → ℤ × σ
  inodeClose : σ → ℤ × σ

variable (T : StreamLib σ)

/-- `xattr_ucs` -/
def xattrUcs (name : String) : Option (List UInt16) :=
  match T.mbstoucs name with
  | some ucs => if ucs.length = 0 ∨ ucs.length > 255 then none else some ucs
  | none => none

/-- `nk_xattr_get` into a buffer of `bufsize` bytes, 0 for a size query: the return value and
the bytes read. -/
def nkXattrGet (name : String) (bufsize : ℤ) (s : σ) : ℤ × List UInt8 :=
  match xattrUcs T name with
  | none => (-1, [])
  | some ucs =>
    if T.pathnameToInode s = false then (-1, [])
    else if T.attrOpen s ucs then
      if bufsize = 0 then (T.dataSize s ucs, [])
      else if bufsize < T.dataSize s ucs then (-1, [])
      else T.attrPread s ucs 0 (T.dataSize s ucs)
    else (-1, [])

/-- The end of a call that changed the inode: `ntfs_inode_close`, whose failure counts. -/
def closeChanged (r : ℤ) (s : σ) : ℤ × σ :=
  let c := T.inodeClose s
  (if c.1 = 0 then r else -1, c.2)

/-- `nk_xattr_set` -/
def nkXattrSet (name : String) (buf : List UInt8) (s : σ) : ℤ × σ :=
  match xattrUcs T name with
  | none => (-1, s)
  | some ucs =>
    if T.pathnameToInode s = false then (-1, s)
    else if T.attrOpen s ucs then
      -- the bytes first, then the end
      let w := if buf.length = 0 then (0, s) else T.attrPwrite s ucs 0 buf
      if w.1 = buf.length then
        let t := T.attrTruncate w.2 ucs buf.length
        closeChanged T (if t.1 = 0 then 0 else -1) t.2
      else closeChanged T (-1) w.2
    else
      let a := T.attrAdd s ucs buf
      closeChanged T (if a.1 = 0 then 0 else -1) a.2

/-- `nk_xattr_remove` -/
def nkXattrRemove (name : String) (s : σ) : ℤ × σ :=
  match xattrUcs T name with
  | none => (-1, s)
  | some ucs =>
    if T.pathnameToInode s = false then (-1, s)
    else if T.attrOpen s ucs then
      let r := T.attrRm s ucs
      closeChanged T (if r.1 = 0 then 0 else -1) r.2
    else closeChanged T (-1) s

/-- The loop of `nk_xattr_list` over the attributes; `cb` is the callback and ends it. -/
def listStreams {A : Type} (cb : A → String → Bool × A) : List (List UInt16) → A → A
  | [], ctx => ctx
  | us :: rest, ctx =>
    if us.length = 0 then listStreams cb rest ctx
    else
      match T.ucstombs us with
      | some utf8 =>
        let r := cb ctx utf8
        if r.1 then r.2 else listStreams cb rest r.2
      | none => listStreams cb rest ctx

/-- `nk_xattr_list` -/
def nkXattrList {A : Type} (cb : A → String → Bool × A) (ctx : A) (s : σ) : ℤ × A :=
  if T.pathnameToInode s = false then (-1, ctx) else (0, listStreams T cb (T.dataAttrs s) ctx)

/-! ### The calls of the volume -/

/-- What the calls throw: `ENOATTR`, `E2BIG`, `EEXIST`, `EROFS`, and the captured errno. -/
inductive XattrError
  | noAttr
  | tooBig
  | exist
  | rofs
  | errno
  deriving DecidableEq, Repr

/-- `FSVolume.SetXattrPolicy` -/
inductive SetXattrPolicy
  | alwaysSet
  | mustCreate
  | mustReplace
  | delete
  deriving DecidableEq, Repr

/-- The longest value `xattr` reads. -/
def xattrLimit : ℤ := 4 * 2 ^ 20

/-- `xattrs(of:)` -/
def xattrs (s : σ) : Except XattrError (List String) :=
  let r := nkXattrList T (fun names name => (false, names ++ [name])) [] s
  if r.1 = 0 then .ok r.2 else .error .errno

/-- `xattr(named:of:)` -/
def xattr (name : String) (s : σ) : Except XattrError (List UInt8) :=
  let size := (nkXattrGet T name 0 s).1
  if size < 0 then .error .noAttr
  else if size > xattrLimit then .error .tooBig
  else if size = 0 then .ok []
  else
    let r := nkXattrGet T name size s
    if r.1 < 0 then .error .noAttr else .ok (r.2.take r.1.toNat)

/-- `setXattr(named:to:on:policy:)` -/
def setXattr (readOnly : Bool) (name : String) (value : Option (List UInt8))
    (policy : SetXattrPolicy) (s : σ) : Except XattrError Unit × σ :=
  if readOnly then (.error .rofs, s)
  else
    let present : Bool := (nkXattrGet T name 0 s).1 ≥ 0
    if policy = .mustCreate ∧ present then (.error .exist, s)
    else if policy = .mustReplace ∧ !present then (.error .noAttr, s)
    else
      match policy, value with
      | .delete, _ => remove s
      | _, none => remove s
      | _, some raw =>
        let r := nkXattrSet T name raw s
        (if r.1 = 0 then .ok () else .error .errno, r.2)
where
  remove (s : σ) : Except XattrError Unit × σ :=
    let r := nkXattrRemove T name s
    (if r.1 = 0 then .ok () else .error .noAttr, r.2)

/-- A call on the extended attributes of a file. -/
inductive XattrCall
  | xattrs
  | xattr (name : String)
  | setXattr (name : String) (value : Option (List UInt8)) (policy : SetXattrPolicy)

/-- What a call returns or throws. -/
inductive XattrAnswer
  | names (r : Except XattrError (List String))
  | data (r : Except XattrError (List UInt8))
  | done (r : Except XattrError Unit)

def XattrCall.run (readOnly : Bool) (s : σ) : XattrCall → XattrAnswer × σ
  | .xattrs => (.names (NtfsKit.xattrs T s), s)
  | .xattr name => (.data (NtfsKit.xattr T name s), s)
  | .setXattr name value policy =>
    let r := NtfsKit.setXattr T readOnly name value policy s
    (.done r.1, r.2)

/-- The calls one after the other, with their answers. -/
def XattrCall.runAll (readOnly : Bool) : List XattrCall → σ → List (XattrCall × XattrAnswer) × σ
  | [], s => ([], s)
  | c :: cs, s =>
    let r := c.run T readOnly s
    let t := runAll readOnly cs r.2
    ((c, r.1) :: t.1, t.2)

/-! ### The map -/

/-- The attributes of a file, by name. -/
abbrev XattrMap := String → Option (List UInt8)

namespace XattrMap

/-- A value of at most 4 MiB. -/
def get (m : XattrMap) (name : String) : Except XattrError (List UInt8) :=
  match m name with
  | none => .error .noAttr
  | some value => if value.length ≤ 4 * 2 ^ 20 then .ok value else .error .tooBig

/-- Remove what is there. -/
def remove (m : XattrMap) (name : String) : Except XattrError Unit × XattrMap :=
  if (m name).isSome then (.ok (), Function.update m name none) else (.error .noAttr, m)

/-- Set a value; without one, remove. -/
def set (m : XattrMap) (readOnly : Bool) (name : String) (value : Option (List UInt8))
    (policy : SetXattrPolicy) : Except XattrError Unit × XattrMap :=
  if readOnly then (.error .rofs, m)
  else
    match policy, value with
    | .delete, _ => m.remove name
    | .mustCreate, some value =>
      if (m name).isSome then (.error .exist, m)
      else (.ok (), Function.update m name (some value))
    | .mustCreate, none => if (m name).isSome then (.error .exist, m) else (.error .noAttr, m)
    | .mustReplace, some value =>
      if (m name).isSome then (.ok (), Function.update m name (some value))
      else (.error .noAttr, m)
    | .alwaysSet, some value => (.ok (), Function.update m name (some value))
    | _, none => m.remove name

@[simp] theorem set_value (m : XattrMap) (name : String) (value : List UInt8) :
    (m.set false name (some value) .alwaysSet).2 name = some value :=
  Function.update_self name _ m

/-- The answer of a call on the map, and the map after it. -/
def Step (readOnly : Bool) (m : XattrMap) (c : XattrCall) (a : XattrAnswer) (m' : XattrMap) :
    Prop :=
  match c with
  | .xattrs => m' = m ∧ ∃ l, a = .names (.ok l) ∧ l.Nodup ∧ ∀ n, n ∈ l ↔ (m n).isSome
  | .xattr name => m' = m ∧ a = .data (m.get name)
  | .setXattr name value policy =>
    a = .done (m.set readOnly name value policy).1 ∧ m' = (m.set readOnly name value policy).2

/-- The answers of calls one after the other. -/
inductive Steps (readOnly : Bool) : XattrMap → List (XattrCall × XattrAnswer) → XattrMap → Prop
  | nil (m : XattrMap) : Steps readOnly m [] m
  | cons {m m' m'' : XattrMap} {c : XattrCall} {a : XattrAnswer}
      {rest : List (XattrCall × XattrAnswer)} :
      Step readOnly m c a m' → Steps readOnly m' rest m'' → Steps readOnly m ((c, a) :: rest) m''

end XattrMap

/-! ### The library -/

/-- The library stores, cuts off and removes bytes correctly: `stream s` are the file's named
streams in the state `s`. Names are converted and converted back. -/
structure StreamLib.Spec (T : StreamLib σ) (stream : σ → List UInt16 → Option (List UInt8)) :
    Prop where
  inverse : ∀ name ucs, T.mbstoucs name = some ucs ↔ T.ucstombs ucs = some name
  resolves : ∀ s, T.pathnameToInode s = true
  nodup : ∀ s, (T.dataAttrs s).Nodup
  found : ∀ s ucs, 0 < ucs.length → ucs.length ≤ 255 →
    (ucs ∈ T.dataAttrs s ↔ (stream s ucs).isSome)
  nameLength : ∀ s, ∀ ucs ∈ T.dataAttrs s, ucs.length ≤ 255
  opens : ∀ s ucs, T.attrOpen s ucs = (stream s ucs).isSome
  size : ∀ s ucs d, stream s ucs = some d → T.dataSize s ucs = d.length
  pread : ∀ s ucs d (pos count : ℕ), stream s ucs = some d → pos + count ≤ d.length →
    T.attrPread s ucs pos count = ((count : ℤ), (d.drop pos).take count)
  pwrite : ∀ s ucs d (pos : ℕ) buf, stream s ucs = some d → pos ≤ d.length →
    (T.attrPwrite s ucs pos buf).1 = buf.length ∧
    stream (T.attrPwrite s ucs pos buf).2 =
      Function.update (stream s) ucs (some (d.take pos ++ buf ++ d.drop (pos + buf.length)))
  truncate : ∀ s ucs d (n : ℕ), stream s ucs = some d → (T.attrTruncate s ucs n).1 = 0 ∧
    stream (T.attrTruncate s ucs n).2 =
      Function.update (stream s) ucs (some (d.take n ++ List.replicate (n - d.length) 0))
  add : ∀ s ucs buf, stream s ucs = none → (T.attrAdd s ucs buf).1 = 0 ∧
    stream (T.attrAdd s ucs buf).2 = Function.update (stream s) ucs (some buf)
  rm : ∀ s ucs d, stream s ucs = some d → (T.attrRm s ucs).1 = 0 ∧
    stream (T.attrRm s ucs).2 = Function.update (stream s) ucs none
  close : ∀ s, (T.inodeClose s).1 = 0 ∧ stream (T.inodeClose s).2 = stream s

/-- The map of a file's streams. -/
def attrMap (stream : σ → List UInt16 → Option (List UInt8)) (s : σ) : XattrMap :=
  fun name => (xattrUcs T name).bind (stream s)

/-- A name of 1 to 255 UTF-16 units. -/
def StreamLib.Valid (name : String) : Prop := (xattrUcs T name).isSome

section Calls

variable {T} {stream : σ → List UInt16 → Option (List UInt8)} {s : σ} {name : String}
  {ucs : List UInt16}

theorem xattrUcs_eq_some : xattrUcs T name = some ucs ↔
    T.mbstoucs name = some ucs ∧ 0 < ucs.length ∧ ucs.length ≤ 255 := by
  unfold xattrUcs
  cases h : T.mbstoucs name with
  | none => simp
  | some us =>
    dsimp only
    split_ifs with hlen
    · constructor
      · intro h
        cases h
      · rintro ⟨he, h0, h255⟩
        obtain rfl := Option.some.inj he
        omega
    · rw [Option.some.injEq]
      constructor
      · rintro rfl
        exact ⟨rfl, by omega, by omega⟩
      · exact fun h => h.1

theorem attrMap_of_ucs (hu : xattrUcs T name = some ucs) :
    attrMap T stream s name = stream s ucs := by
  rw [attrMap, hu, Option.bind_some]

/-- The callback of `xattrs` gathers the names that can be converted, in order. -/
theorem listStreams_collect : ∀ (l : List (List UInt16)) (names : List String),
    listStreams T (fun names name => (false, names ++ [name])) l names =
      names ++ (l.filter (·.length ≠ 0)).filterMap T.ucstombs
  | [], names => (List.append_nil names).symm
  | us :: rest, names => by
    rw [listStreams]
    split_ifs with h0
    · rw [listStreams_collect rest, List.filter_cons_of_neg (by simpa using h0)]
    · rw [List.filter_cons_of_pos (by simpa using h0), List.filterMap_cons]
      cases T.ucstombs us with
      | none => exact listStreams_collect rest names
      | some utf8 =>
        dsimp only
        rw [if_neg (by decide), listStreams_collect rest, List.append_assoc]
        rfl

variable (hT : T.Spec stream)
include hT

/-- Two names of one stream are the same. -/
theorem StreamLib.Spec.ucs_inj {name' : String} (h : xattrUcs T name = some ucs)
    (h' : xattrUcs T name' = some ucs) : name = name' := by
  have hn := (hT.inverse name ucs).mp (xattrUcs_eq_some.mp h).1
  have hn' := (hT.inverse name' ucs).mp (xattrUcs_eq_some.mp h').1
  exact Option.some.inj (hn.symm.trans hn')

/-- Changing a stream changes the value of its name. -/
theorem attrMap_update (hu : xattrUcs T name = some ucs) {s' : σ} {x : Option (List UInt8)}
    (h : stream s' = Function.update (stream s) ucs x) :
    attrMap T stream s' = Function.update (attrMap T stream s) name x := by
  funext n
  by_cases hn : n = name
  · subst hn
    rw [Function.update_self, attrMap, hu, Option.bind_some, h, Function.update_self]
  · rw [Function.update_of_ne hn, attrMap, attrMap]
    cases hus : xattrUcs T n with
    | none => rfl
    | some us =>
      have hne : us ≠ ucs := fun he => hn (hT.ucs_inj (he ▸ hus) hu)
      rw [Option.bind_some, Option.bind_some, h, Function.update_of_ne hne]

theorem closeChanged_spec (r : ℤ) (s : σ) : (closeChanged T r s).1 = r ∧
    stream (closeChanged T r s).2 = stream s := by
  obtain ⟨h0, hs⟩ := hT.close s
  exact ⟨if_pos h0, hs⟩

/-- A size query. -/
theorem nkXattrGet_size (hu : xattrUcs T name = some ucs) :
    (nkXattrGet T name 0 s).1 = (stream s ucs).elim (-1) fun d => (d.length : ℤ) := by
  simp only [nkXattrGet, hu, hT.resolves, hT.opens]
  cases hd : stream s ucs with
  | none => rfl
  | some d => exact hT.size s ucs d hd

/-- A read into a buffer of the value's size. -/
theorem nkXattrGet_read (hu : xattrUcs T name = some ucs) {d : List UInt8}
    (hd : stream s ucs = some d) (h0 : d.length ≠ 0) :
    nkXattrGet T name d.length s = ((d.length : ℤ), d) := by
  have hread := hT.pread s ucs d 0 d.length hd (by omega)
  rw [List.drop_zero, List.take_length] at hread
  simp only [nkXattrGet, hu, hT.resolves, hT.opens, hd, hT.size s ucs d hd]
  rw [if_neg (by decide), if_pos Option.isSome_some, if_neg (by omega), if_neg (lt_irrefl _)]
  exact hread

/-- The bytes put down over the old value; the new value is what is left after cutting. -/
theorem overwritten {d : List UInt8} (hd : stream s ucs = some d) (buf : List UInt8) :
    ∃ w : ℤ × σ, (if buf.length = 0 then (0, s) else T.attrPwrite s ucs 0 buf) = w ∧
      w.1 = buf.length ∧ ∃ d', stream w.2 = Function.update (stream s) ucs (some d') ∧
        d'.take buf.length ++ List.replicate (buf.length - d'.length) 0 = buf := by
  refine ⟨_, rfl, ?_⟩
  by_cases h0 : buf.length = 0
  · rw [if_pos h0, h0]
    refine ⟨rfl, d, ?_, ?_⟩
    · rw [← hd, Function.update_eq_self]
    · rw [List.take_zero, Nat.zero_sub, List.eq_nil_of_length_eq_zero h0]
      rfl
  · rw [if_neg h0]
    obtain ⟨hr, hs⟩ := hT.pwrite s ucs d 0 buf hd (Nat.zero_le _)
    rw [List.take_zero, List.nil_append] at hs
    refine ⟨hr, _, hs, ?_⟩
    rw [List.take_left, List.length_append, Nat.sub_eq_zero_of_le (Nat.le_add_right _ _)]
    exact List.append_nil buf

/-- Whatever was there, the value is the new one. -/
theorem nkXattrSet_spec (hu : xattrUcs T name = some ucs) (buf : List UInt8) :
    (nkXattrSet T name buf s).1 = 0 ∧
      stream (nkXattrSet T name buf s).2 = Function.update (stream s) ucs (some buf) := by
  simp only [nkXattrSet, hu, hT.resolves, hT.opens]
  rw [if_neg (by decide)]
  cases hd : stream s ucs with
  | none =>
    obtain ⟨h0, hadd⟩ := hT.add s ucs buf hd
    rw [if_neg (by decide), if_pos h0]
    obtain ⟨hr, hs⟩ := closeChanged_spec hT 0 (T.attrAdd s ucs buf).2
    exact ⟨hr, hs.trans hadd⟩
  | some d =>
    rw [if_pos Option.isSome_some]
    obtain ⟨w, hw, hr, d', hs, hcut⟩ := overwritten hT hd buf
    have hd' : stream w.2 ucs = some d' := by rw [hs, Function.update_self]
    obtain ⟨h0, ht⟩ := hT.truncate w.2 ucs d' buf.length hd'
    rw [hw, if_pos hr, if_pos h0]
    obtain ⟨hr', hs'⟩ := closeChanged_spec hT 0 (T.attrTruncate w.2 ucs buf.length).2
    refine ⟨hr', ?_⟩
    rw [hs', ht, hs, hcut, Function.update_idem]

theorem nkXattrRemove_spec (hu : xattrUcs T name = some ucs) :
    match stream s ucs with
    | none => (nkXattrRemove T name s).1 = -1 ∧ stream (nkXattrRemove T name s).2 = stream s
    | some _ => (nkXattrRemove T name s).1 = 0 ∧
        stream (nkXattrRemove T name s).2 = Function.update (stream s) ucs none := by
  simp only [nkXattrRemove, hu, hT.resolves, hT.opens]
  rw [if_neg (by decide)]
  cases hd : stream s ucs with
  | none =>
    dsimp only
    rw [if_neg (by decide)]
    exact closeChanged_spec hT (-1) s
  | some d =>
    obtain ⟨h0, hrm⟩ := hT.rm s ucs d hd
    dsimp only
    rw [if_pos Option.isSome_some, if_pos h0]
    obtain ⟨hr, hs⟩ := closeChanged_spec hT 0 (T.attrRm s ucs).2
    exact ⟨hr, hs.trans hrm⟩

/-! ### Refinement -/

theorem xattr_eq (hv : T.Valid name) :
    xattr T name s = (attrMap T stream s).get name := by
  obtain ⟨ucs, hu⟩ := Option.isSome_iff_exists.mp hv
  have hsize := nkXattrGet_size (s := s) hT hu
  rw [XattrMap.get, attrMap_of_ucs hu, xattr]
  cases hd : stream s ucs with
  | none =>
    rw [hd] at hsize
    rw [hsize]
    rfl
  | some d =>
    rw [hd, Option.elim_some] at hsize
    dsimp only
    rw [hsize, if_neg (by omega)]
    have hlimit : ((d.length : ℤ) > xattrLimit) ↔ ¬ d.length ≤ 4 * 2 ^ 20 := by
      unfold xattrLimit
      omega
    by_cases hle : d.length ≤ 4 * 2 ^ 20
    · rw [if_neg (mt hlimit.mp (not_not_intro hle)), if_pos hle]
      by_cases h0 : d.length = 0
      · rw [if_pos (by omega), List.eq_nil_of_length_eq_zero h0]
      · rw [if_neg (by omega), nkXattrGet_read hT hu hd h0, if_neg (by dsimp only; omega)]
        dsimp only
        rw [Int.toNat_natCast, List.take_length]
    · rw [if_pos (hlimit.mpr hle), if_neg hle]

/-- Setting a value. -/
theorem nkXattrSet_map (hu : xattrUcs T name = some ucs) (raw : List UInt8) :
    (nkXattrSet T name raw s).1 = 0 ∧ attrMap T stream (nkXattrSet T name raw s).2 =
      Function.update (attrMap T stream s) name (some raw) := by
  obtain ⟨hr, hs⟩ := nkXattrSet_spec (s := s) hT hu raw
  exact ⟨hr, attrMap_update hT hu hs⟩

/-- Removing, with the answer of `setXattr`. -/
theorem remove_map (hu : xattrUcs T name = some ucs) :
    (setXattr.remove T name s).1 = ((attrMap T stream s).remove name).1 ∧
      attrMap T stream (setXattr.remove T name s).2 = ((attrMap T stream s).remove name).2 := by
  have hrm := nkXattrRemove_spec (s := s) hT hu
  rw [setXattr.remove, XattrMap.remove, attrMap_of_ucs hu]
  cases hd : stream s ucs with
  | none =>
    rw [hd] at hrm
    obtain ⟨hr, hs⟩ := hrm
    dsimp only
    rw [hr, if_neg (by decide), if_neg (by decide)]
    refine ⟨rfl, ?_⟩
    funext n
    change (xattrUcs T n).bind _ = (xattrUcs T n).bind _
    rw [hs]
  | some d =>
    rw [hd] at hrm
    obtain ⟨hr, hs⟩ := hrm
    dsimp only
    rw [hr, if_pos rfl, if_pos Option.isSome_some]
    exact ⟨rfl, attrMap_update hT hu hs⟩

theorem setXattr_map (readOnly : Bool) (hv : T.Valid name) (value : Option (List UInt8))
    (policy : SetXattrPolicy) :
    (setXattr T readOnly name value policy s).1 =
        ((attrMap T stream s).set readOnly name value policy).1 ∧
      attrMap T stream (setXattr T readOnly name value policy s).2 =
        ((attrMap T stream s).set readOnly name value policy).2 := by
  obtain ⟨ucs, hu⟩ := Option.isSome_iff_exists.mp hv
  have hpresent : decide ((nkXattrGet T name 0 s).1 ≥ 0) = (attrMap T stream s name).isSome := by
    rw [nkXattrGet_size hT hu, attrMap_of_ucs hu]
    cases stream s ucs with
    | none => rfl
    | some d => exact decide_eq_true (Int.natCast_nonneg _)
  have hrm := remove_map (s := s) hT hu
  unfold setXattr XattrMap.set
  rw [hpresent]
  cases readOnly with
  | true => exact ⟨rfl, rfl⟩
  | false =>
  have hset : ∀ raw, (if (nkXattrSet T name raw s).1 = 0 then (.ok () : Except XattrError Unit)
      else .error .errno) = .ok () ∧ attrMap T stream (nkXattrSet T name raw s).2 =
        Function.update (attrMap T stream s) name (some raw) := fun raw => by
    obtain ⟨h0, hm⟩ := nkXattrSet_map (s := s) hT hu raw
    exact ⟨if_pos h0, hm⟩
  have habsent : (attrMap T stream s name).isSome = false →
      (attrMap T stream s).remove name = (.error .noAttr, attrMap T stream s) := fun hp => by
    rw [XattrMap.remove, hp]
    rfl
  cases policy with
  | delete => exact hrm
  | alwaysSet =>
    cases value with
    | none => exact hrm
    | some raw => exact hset raw
  | mustCreate =>
    cases hp : (attrMap T stream s name).isSome with
    | true => cases value <;> exact ⟨rfl, rfl⟩
    | false =>
      cases value with
      | none =>
        rw [habsent hp] at hrm
        exact hrm
      | some raw => exact hset raw
  | mustReplace =>
    cases hp : (attrMap T stream s name).isSome with
    | true =>
      cases value with
      | none => exact hrm
      | some raw => exact hset raw
    | false =>
      cases value with
      | none =>
        dsimp only
        rw [habsent hp]
        exact ⟨rfl, rfl⟩
      | some raw => exact ⟨rfl, rfl⟩

/-- A name is listed exactly if its stream is there. -/
theorem mem_listed {n : String} :
    n ∈ ((T.dataAttrs s).filter (·.length ≠ 0)).filterMap T.ucstombs ↔
      (attrMap T stream s n).isSome := by
  rw [List.mem_filterMap]
  constructor
  · rintro ⟨us, hus, hn⟩
    obtain ⟨hmem, h0⟩ := List.mem_filter.mp hus
    have hpos : 0 < us.length := Nat.pos_of_ne_zero (of_decide_eq_true h0)
    have hle := hT.nameLength s us hmem
    rw [attrMap_of_ucs (xattrUcs_eq_some.mpr ⟨(hT.inverse n us).mpr hn, hpos, hle⟩)]
    exact (hT.found s us hpos hle).mp hmem
  · intro h
    obtain ⟨d, hd⟩ := Option.isSome_iff_exists.mp h
    obtain ⟨us, hu, hs⟩ := Option.bind_eq_some_iff.mp hd
    obtain ⟨hconv, hpos, hle⟩ := xattrUcs_eq_some.mp hu
    have hmem := (hT.found s us hpos hle).mpr (by rw [hs]; rfl)
    exact ⟨us, List.mem_filter.mpr ⟨hmem, decide_eq_true hpos.ne'⟩, (hT.inverse n us).mp hconv⟩

theorem xattrs_eq : ∃ l, xattrs T s = .ok l ∧ l.Nodup ∧
    ∀ n, n ∈ l ↔ (attrMap T stream s n).isSome := by
  refine ⟨_, ?_, ?_, fun n => mem_listed hT⟩
  · have hlist : nkXattrList T (fun names name => (false, names ++ [name])) [] s =
        (0, ((T.dataAttrs s).filter (·.length ≠ 0)).filterMap T.ucstombs) := by
      rw [nkXattrList, hT.resolves, if_neg (by decide), listStreams_collect, List.nil_append]
    rw [xattrs, hlist]
    exact if_pos rfl
  · refine List.Nodup.filterMap (fun us us' n hn hn' => ?_) ((hT.nodup s).filter _)
    have h := (hT.inverse n us).mpr hn
    have h' := (hT.inverse n us').mpr hn'
    exact Option.some.inj (h.symm.trans h')

end Calls

/-- A call with names of 1 to 255 UTF-16 units. -/
def XattrCall.Valid : XattrCall → Prop
  | .xattrs => True
  | .xattr name => T.Valid name
  | .setXattr name _ _ => T.Valid name

/-- One call is a step of the map. -/
theorem XattrCall.run_step {T : StreamLib σ} {stream : σ → List UInt16 → Option (List UInt8)}
    (hT : T.Spec stream) (readOnly : Bool) (s : σ) {c : XattrCall} (hc : c.Valid T) :
    (attrMap T stream s).Step readOnly c (c.run T readOnly s).1
      (attrMap T stream (c.run T readOnly s).2) := by
  cases c with
  | xattrs =>
    obtain ⟨l, hl, hnodup, hmem⟩ := xattrs_eq (s := s) hT
    exact ⟨rfl, l, congrArg XattrAnswer.names hl, hnodup, hmem⟩
  | xattr name => exact ⟨rfl, congrArg XattrAnswer.data (xattr_eq hT hc)⟩
  | setXattr name value policy =>
    obtain ⟨ha, hm⟩ := setXattr_map (s := s) hT readOnly hc value policy
    exact ⟨congrArg XattrAnswer.done ha, hm⟩

/-- Extended attributes are a map. The answers to any calls with valid names are those of a map
from names to byte strings, in which a value of more than 4 MiB is kept but not handed out and
setting no value removes. -/
theorem xattrs_are_map {T : StreamLib σ} {stream : σ → List UInt16 → Option (List UInt8)}
    (hT : T.Spec stream) (readOnly : Bool) : ∀ (cs : List XattrCall) (s : σ),
    (∀ c ∈ cs, c.Valid T) →
    XattrMap.Steps readOnly (attrMap T stream s) (XattrCall.runAll T readOnly cs s).1
      (attrMap T stream (XattrCall.runAll T readOnly cs s).2)
  | [], _, _ => .nil _
  | c :: cs, s, h =>
    .cons (XattrCall.run_step hT readOnly s (h c List.mem_cons_self))
      (xattrs_are_map hT readOnly cs _ fun d hd => h d (List.mem_cons_of_mem _ hd))

/-! ### A store of streams -/

/-- The units of an ASCII text. -/
def asciiUnits (t : String) : Option (List UInt16) :=
  if t.toList.all (·.toNat < 128) then some (t.toList.map fun c => UInt16.ofNat c.toNat) else none

def asciiText (us : List UInt16) : Option String :=
  if us.all (·.toNat < 128) then some (String.ofList (us.map fun u => Char.ofNat u.toNat)) else none

theorem toNat_ofNat_ascii {n : ℕ} (h : n < 128) : (Char.ofNat n).toNat = n := by
  have hv : n.isValidChar := .inl (by omega)
  rw [Char.ofNat, dif_pos hv]
  rfl

theorem asciiUnits_eq_some {t : String} {us : List UInt16} :
    asciiUnits t = some us ↔ asciiText us = some t := by
  unfold asciiUnits asciiText
  constructor
  · intro h
    split_ifs at h with hascii
    obtain rfl := Option.some.inj h
    rw [List.all_eq_true] at hascii
    have hlt : ∀ c ∈ t.toList, c.toNat < 128 := fun c hc => of_decide_eq_true (hascii c hc)
    have hunit : ∀ c ∈ t.toList, (UInt16.ofNat c.toNat).toNat = c.toNat := fun c hc => by
      rw [UInt16.toNat_ofNat', Nat.mod_eq_of_lt (by have := hlt c hc; omega)]
    rw [if_pos]
    · rw [List.map_map, List.map_congr_left (g := id) fun c hc => by
        rw [Function.comp, hunit c hc, Char.ofNat_toNat, id], List.map_id, String.ofList_toList]
    · rw [List.all_eq_true]
      intro u hu
      obtain ⟨c, hc, rfl⟩ := List.mem_map.mp hu
      exact decide_eq_true ((hunit c hc).trans_lt (hlt c hc))
  · intro h
    split_ifs at h with hascii
    obtain rfl := Option.some.inj h
    rw [List.all_eq_true] at hascii
    have hlt : ∀ u ∈ us, u.toNat < 128 := fun u hu => of_decide_eq_true (hascii u hu)
    rw [String.toList_ofList, if_pos]
    · rw [List.map_map, List.map_congr_left (g := id) fun u hu => by
        rw [Function.comp, toNat_ofNat_ascii (hlt u hu), UInt16.ofNat_toNat, id], List.map_id]
    · rw [List.all_eq_true]
      intro c hc
      obtain ⟨u, hu, rfl⟩ := List.mem_map.mp hc
      exact decide_eq_true ((toNat_ofNat_ascii (hlt u hu)).trans_lt (hlt u hu))

/-- The streams of a file, by name. -/
abbrev StreamStore := AList fun _ : List UInt16 => List UInt8

/-- A library over such a store, for ASCII names. -/
def streamStore : StreamLib StreamStore where
  mbstoucs := asciiUnits
  ucstombs := asciiText
  pathnameToInode _ := true
  dataAttrs s := s.keys.filter (·.length ≤ 255)
  attrOpen s us := (s.lookup us).isSome
  dataSize s us := ((s.lookup us).getD []).length
  attrPread s us pos count :=
    let out := (((s.lookup us).getD []).drop pos.toNat).take count.toNat
    (out.length, out)
  attrPwrite s us pos buf :=
    match s.lookup us with
    | none => (-1, s)
    | some d => (buf.length, s.insert us
        (d.take pos.toNat ++ buf ++ d.drop (pos.toNat + buf.length)))
  attrTruncate s us n :=
    match s.lookup us with
    | none => (-1, s)
    | some d => (0, s.insert us (d.take n.toNat ++ List.replicate (n.toNat - d.length) 0))
  attrAdd s us buf :=
    match s.lookup us with
    | none => (0, s.insert us buf)
    | some _ => (-1, s)
  attrRm s us :=
    match s.lookup us with
    | none => (-1, s)
    | some _ => (0, s.erase us)
  inodeClose s := (0, s)

theorem lookup_insert_eq (s : StreamStore) (us : List UInt16) (d : List UInt8) :
    (fun k => (s.insert us d).lookup k) = Function.update (fun k => s.lookup k) us (some d) := by
  funext k
  by_cases hk : k = us
  · subst hk
    rw [AList.lookup_insert, Function.update_self]
  · rw [AList.lookup_insert_ne hk, Function.update_of_ne hk]

theorem streamStore_spec : streamStore.Spec fun s us => s.lookup us where
  inverse _ _ := asciiUnits_eq_some
  resolves _ := rfl
  nodup s := s.keys_nodup.filter _
  found s us h0 hle := by
    rw [AList.lookup_isSome, AList.mem_keys]
    exact List.mem_filter.trans (and_iff_left (decide_eq_true hle))
  nameLength s us hus := of_decide_eq_true (List.mem_filter.mp hus).2
  opens _ _ := rfl
  size s us d h := by
    change (((s.lookup us).getD []).length : ℤ) = d.length
    rw [h]
    rfl
  pread s us d pos count h hle := by
    simp only [streamStore, h, Option.getD_some, Int.toNat_natCast, List.length_take,
      List.length_drop]
    rw [Nat.min_eq_left (by omega)]
  pwrite s us d pos buf h hle := by
    simp only [streamStore, h, Int.toNat_natCast]
    exact ⟨trivial, lookup_insert_eq s us _⟩
  truncate s us d n h := by
    simp only [streamStore, h, Int.toNat_natCast]
    exact ⟨trivial, lookup_insert_eq s us _⟩
  add s us buf h := by
    simp only [streamStore, h]
    exact ⟨trivial, lookup_insert_eq s us _⟩
  rm s us d h := by
    simp only [streamStore, h]
    refine ⟨trivial, ?_⟩
    funext k
    by_cases hk : k = us
    · subst hk
      rw [AList.lookup_erase, Function.update_self]
    · rw [AList.lookup_erase_ne hk, Function.update_of_ne hk]
  close _ := ⟨rfl, rfl⟩

theorem streamStore_valid : streamStore.Valid "a" := by
  unfold StreamLib.Valid
  decide +kernel

/-- A value is set, replaced by a longer one, read, listed and removed. -/
theorem xattrs_are_map_small :
    let name := "a"
    let r := XattrCall.runAll streamStore false [.setXattr name (some [1]) .mustCreate,
      .setXattr name (some [2, 3]) .mustReplace, .xattr name, .xattrs,
      .setXattr name none .alwaysSet, .xattrs] ∅
    XattrMap.Steps false (attrMap streamStore (fun s us => s.lookup us) ∅) r.1
      (attrMap streamStore (fun s us => s.lookup us) r.2) :=
  xattrs_are_map streamStore_spec false _ _ fun c hc => by
    fin_cases hc <;> first | exact streamStore_valid | exact trivial

/-- A value one byte too long is accepted, and listed, but not read. Setting no value fails under
`mustCreate` where the name is absent. -/
theorem long_value_unreadable :
    let name := "a"
    let r := setXattr streamStore false name (some (List.replicate (4 * 2 ^ 20 + 1) 0)) .alwaysSet ∅
    r.1 = .ok () ∧ xattr streamStore name r.2 = .error .tooBig ∧
      (∃ l, xattrs streamStore r.2 = .ok l ∧ name ∈ l) ∧
      (setXattr streamStore false name none .mustCreate ∅).1 = .error .noAttr := by
  intro name r
  have hv : streamStore.Valid name := streamStore_valid
  obtain ⟨hr, hm⟩ := setXattr_map (s := ∅) streamStore_spec false hv
    (some (List.replicate (4 * 2 ^ 20 + 1) 0)) .alwaysSet
  have hvalue : attrMap streamStore (fun s us => s.lookup us) r.2 name =
      some (List.replicate (4 * 2 ^ 20 + 1) 0) :=
    (congrFun hm name).trans (XattrMap.set_value _ name _)
  refine ⟨hr, ?_, ?_, by decide +kernel⟩
  · rw [xattr_eq streamStore_spec hv, XattrMap.get, hvalue]
    dsimp only
    rw [List.length_replicate, if_neg (by decide)]
  · obtain ⟨l, hl, -, hmem⟩ := xattrs_eq (s := r.2) streamStore_spec
    exact ⟨l, hl, (hmem name).mpr (by rw [hvalue]; rfl)⟩

end NtfsKit
