import NtfsKit.Format.AttrTable
import NtfsKit.Format.DirIndex

/-! The links of the system files. `create_hardlink` counts up the links of a file, adds a
`FILE_NAME` to its record and an entry with the same value to the index of the root directory. An
index entry that cannot be added leaves the `FILE_NAME` behind; the count is taken back, so that it
is always the number of entries for the file. -/

namespace NtfsKit

/-- What `create_hardlink` is given, the name already converted. -/
structure LinkArg where
  parent : ℕ
  allocatedSize : ℕ
  dataSize : ℕ
  flags : ℕ
  packedEaSize : ℕ
  reparsePointTag : ℕ
  name : List UInt16
  nameType : UInt8

inductive HardlinkError
  | einval
  | enametoolong
  | attr (e : InsertError)
  | index (e : LinkError)
  deriving DecidableEq

/-- `stdinfo_time`, with the time `now` where there is no `STANDARD_INFORMATION`. -/
def stdinfoTime (coll : NameCollation) (now : ℕ) (m : List UInt8) : ℕ :=
  match mkntfsAttrFind coll 0x10 .any none m m.length (leAt m 0x14 2) with
  | .found a => leAt m (a + leAt m (a + 20) 2) 8
  | _ => now

/-- `non_resident_unnamed_data`. -/
def nonResidentUnnamedData (coll : NameCollation) (m : List UInt8) : Bool :=
  match mkntfsAttrFind coll 0x80 .any none m m.length (leAt m 0x14 2) with
  | .found a => byteAt m (a + 8) ≠ 0
  | _ => true

/-- The fields of a `FILE_NAME` in front of the length of the name. -/
def LinkArg.fileNameHead (coll : NameCollation) (now : ℕ) (m : List UInt8) (a : LinkArg) :
    List UInt8 :=
  let time := leBytes 8 (stdinfoTime coll now m)
  let allocated :=
    if a.allocatedSize ≠ 0 ∧ nonResidentUnnamedData coll m then a.allocatedSize
    else align8 a.dataSize
  leBytes 8 a.parent ++ time ++ time ++ time ++ time ++ leBytes 8 allocated ++
    leBytes 8 a.dataSize ++ leBytes 4 a.flags ++
    if a.packedEaSize ≠ 0 then leBytes 2 a.packedEaSize ++ leBytes 2 0
    else leBytes 4 a.reparsePointTag

/-- The `FILE_NAME` of a link. -/
def LinkArg.fileName (coll : NameCollation) (now : ℕ) (m : List UInt8) (a : LinkArg) :
    List UInt8 :=
  a.fileNameHead coll now m ++ UInt8.ofNat a.name.length :: a.nameType :: utf16Bytes a.name

/-- The attribute with it. -/
def fileNameRecord (v : List UInt8) : NewRecord := residentRecord 0x30 [] 0 1 v

/-- `create_hardlink`; it returns the record of the file and the index block as well. -/
def createHardlink (coll : NameCollation) (now ref : ℕ) (a : LinkArg) (m idx : List UInt8) :
    Option HardlinkError × List UInt8 × List UInt8 :=
  if a.packedEaSize ≠ 0 ∧ a.reparsePointTag ≠ 0 then (some .einval, m, idx)
  else if a.name.length < 1 then (some .einval, m, idx)
  else if 0xFF < a.name.length then (some .enametoolong, m, idx)
  else
    let fn := a.fileName coll now m
    let i := leAt m 0x12 2
    if i = 0xFFFF then (some .einval, m, idx)
    else
      let m := patch m 0x12 (leBytes 2 (i + 1))
      match insertAttr coll m (fileNameRecord fn) with
      | .error e => (some (.attr e), patch m 0x12 (leBytes 2 (leAt m 0x12 2 - 1)), idx)
      | .ok m =>
        match insertFileLinkInDirIndex coll idx ref fn with
        | .error e => (some (.index e), patch m 0x12 (leBytes 2 (leAt m 0x12 2 - 1)), idx)
        | .ok idx => (none, m, idx)

/-! ### Runs -/

section Runs

variable {ι : Type} [DecidableEq ι]

/-- The records of the files, and the index block of the root directory. -/
structure LinkState (ι : Type) where
  recs : ι → List UInt8
  idx : List UInt8

/-- A link to the file `i`, or another step on its record. -/
inductive LinkOp (ι : Type)
  | link (i : ι) (now : ℕ) (a : LinkArg)
  | record (i : ι) (op : RecordOp)

def linkStep (coll : NameCollation) (ref : ι → ℕ) (s : LinkState ι) :
    LinkOp ι → Option HardlinkError × LinkState ι
  | .link i now a =>
    let r := createHardlink coll now (ref i) a (s.recs i) s.idx
    (r.1, ⟨Function.update s.recs i r.2.1, r.2.2⟩)
  | .record i op =>
    let r := recordStep coll (s.recs i) op
    (r.1.map .attr, ⟨Function.update s.recs i r.2, s.idx⟩)

/-- The step leaves a `FILE_NAME` behind in the record of `i` that is not in the index. -/
def LinkOp.loses (i : ι) : LinkOp ι → Option HardlinkError → Bool
  | .link j _ _, some (.index _) => i = j
  | _, _ => false

def lostNames (coll : NameCollation) (ref : ι → ℕ) (i : ι) : List (LinkOp ι) → LinkState ι → ℕ
  | [], _ => 0
  | op :: ops, s =>
    (op.loses i (linkStep coll ref s op).1).toNat +
      lostNames coll ref i ops (linkStep coll ref s op).2

end Runs

/-! ### One record -/

/-- An attribute that a file may have: one of `args`, or a `FILE_NAME`. -/
def LinkAttr (args : List AttrArg) (t : NewRecord) : Prop :=
  (∃ a ∈ args, t = a.record) ∨ ∃ v, FileNameOk v ∧ t = fileNameRecord v

/-- The other attributes of the files, in records of `n` bytes. -/
structure ArgsOk (n : ℕ) (args : List AttrArg) : Prop where
  size : n < 2 ^ 31
  valid : ∀ a ∈ args, a.Valid n
  compatible : ∀ a ∈ args, ∀ b ∈ args, a.record.Compatible b.record
  no_names : ∀ a ∈ args, a.record.type ≠ 0x30

section Attributes

variable {n : ℕ} {args : List AttrArg} {t r : NewRecord} {v : List UInt8}

theorem fileNameRecord_ok (hv : FileNameOk v) : (fileNameRecord v).Ok ∧
    (fileNameRecord v).asize < 1000 := by
  have hle := hv.length_le
  have hsize : align8 (24 + align8 (([] : List UInt16).length * 2) + v.length) < 1000 := by
    simp only [List.length_nil, align8]
    omega
  exact ⟨residentRecord_ok (by decide) (by decide) (by decide) (fun _ => rfl) (by omega), hsize⟩

theorem LinkAttr.ok (hargs : ArgsOk n args) (h : LinkAttr args t) :
    t.Ok ∧ n + t.asize < 2 ^ 32 := by
  rcases h with ⟨a, ha, rfl⟩ | ⟨v, hv, rfl⟩
  · exact (hargs.valid a ha).ok
  · obtain ⟨h1, h2⟩ := fileNameRecord_ok hv
    have := hargs.size
    exact ⟨h1, by omega⟩

theorem LinkAttr.compatible (hargs : ArgsOk n args) (h : LinkAttr args t) (h' : LinkAttr args r) :
    t.Compatible r := by
  rcases h with ⟨a, ha, rfl⟩ | ⟨v, hv, rfl⟩
  · rcases h' with ⟨b, hb, rfl⟩ | ⟨w, hw, rfl⟩
    · exact hargs.compatible a ha b hb
    · exact fun htype => absurd htype (hargs.no_names a ha)
  · rcases h' with ⟨b, hb, rfl⟩ | ⟨w, hw, rfl⟩
    · exact fun htype => absurd htype.symm (hargs.no_names b hb)
    · exact fun _ _ => .inr rfl

theorem LinkArg.length_fileNameHead (coll : NameCollation) (now : ℕ) (m : List UInt8)
    (a : LinkArg) : (a.fileNameHead coll now m).length = 64 := by
  have hfour : (if a.packedEaSize ≠ 0 then leBytes 2 a.packedEaSize ++ leBytes 2 0
      else leBytes 4 a.reparsePointTag).length = 4 := by
    split_ifs
    · rw [List.length_append, length_leBytes, length_leBytes]
    · rw [length_leBytes]
  simp only [fileNameHead, List.length_append, length_leBytes, hfour]

/-- The length of the name is in the `FILE_NAME`. -/
theorem LinkArg.fileName_ok (coll : NameCollation) (now : ℕ) (m : List UInt8) {a : LinkArg}
    (h : a.name.length ≤ 0xFF) : FileNameOk (a.fileName coll now m) := by
  have hhead := a.length_fileNameHead coll now m
  have hbyte : byteAt (a.fileName coll now m) 64 = UInt8.ofNat a.name.length := by
    rw [fileName, byteAt, List.getD_append_right _ _ _ _ hhead.le, hhead]
    rfl
  rw [FileNameOk, hbyte, UInt8.toNat_ofNat', Nat.mod_eq_of_lt (by omega), fileName]
  simp only [List.length_append, List.length_cons, length_utf16Bytes, hhead]
  omega

end Attributes

/-- The number of `FILE_NAME`s in a table. -/
def AttrTable.names (T : AttrTable) : ℕ := T.entries.countP fun t => t.type = 0x30

/-- The table with another attribute at the end. -/
def AttrTable.push (T : AttrTable) (r : NewRecord) : AttrTable :=
  ⟨T.entries ++ [r], T.free - r.asize⟩

theorem AttrTable.names_push (T : AttrTable) (r : NewRecord) :
    (T.push r).names = T.names + if r.type = 0x30 then 1 else 0 := by
  simp [names, push, List.countP_append, List.countP_singleton]

/-- A record of `n` bytes with the attributes of a table, and a link count. -/
structure LinkRecord (coll : NameCollation) (n : ℕ) (args : List AttrArg) (m : List UInt8)
    (T : AttrTable) (links : ℕ) : Prop where
  represents : ∃ attrs, Represents coll m T attrs
  length : m.length = n
  attrs : ∀ t ∈ T.entries, LinkAttr args t
  link_count : leAt m 0x12 2 = links

section Record

variable {coll : NameCollation} {n links : ℕ} {args : List AttrArg} {m : List UInt8}
  {T : AttrTable} {r : NewRecord}

theorem LinkRecord.insert (hargs : ArgsOk n args) (h : LinkRecord coll n args m T links)
    (hr : LinkAttr args r) : (∃ e, insertAttr coll m r = .error e) ∨
      ∃ m', insertAttr coll m r = .ok m' ∧ LinkRecord coll n args m' (T.push r) links := by
  obtain ⟨hok, hsize⟩ := hr.ok hargs
  obtain ⟨attrs, hrep⟩ := h.represents
  have hlen := h.length
  obtain ⟨hans, hsame, hhead, hrep'⟩ :=
    hrep.insert hok (fun t ht => hr.compatible hargs (h.attrs t ht)) (by omega)
  cases hins : insertAttr coll m r with
  | error e => exact .inl ⟨e, rfl⟩
  | ok m' =>
    have hrun : recordInsert coll m r = (none, m') := by rw [recordInsert, hins]
    have htable : (tableInsert T r).2 = T.push r := by
      rw [hrun] at hans
      rw [tableInsert] at hans ⊢
      split_ifs at hans ⊢
      rfl
    rw [hrun] at hsame hhead hrep'
    rw [htable] at hrep'
    refine .inr ⟨m', rfl, hrep', hsame.trans hlen, fun t ht => ?_, ?_⟩
    · rcases List.mem_append.mp ht with ht | ht
      · exact h.attrs t ht
      · rw [List.mem_singleton.mp ht]
        exact hr
    · rw [← h.link_count]
      exact leAt_congr fun i hi => hhead _ (by omega)

/-- The link count is a field of its own. -/
theorem LinkRecord.setLinkCount (h : LinkRecord coll n args m T links) {k : ℕ} (hk : k < 2 ^ 16) :
    LinkRecord coll n args (patch m 0x12 (leBytes 2 k)) T k := by
  obtain ⟨attrs, hrep⟩ := h.represents
  obtain ⟨hsame, hrep'⟩ := hrep.set .linkCount k
  have hstart := hrep.holds.start_ge
  have hfits := hrep.holds.fits
  have htwo : (leBytes 2 k).length = 2 := length_leBytes _ _
  refine ⟨⟨attrs, hrep'⟩, hsame.length.trans h.length, h.attrs, ?_⟩
  have hput : Holds (patch m 0x12 (leBytes 2 k)) 0x12 (leBytes 2 k) := holds_patch (by omega)
  exact hput.leAt_of_lt hk

theorem LinkRecord.set (h : LinkRecord coll n args m T links) {f : HeaderField}
    (hf : f ≠ .linkCount) (k : ℕ) : LinkRecord coll n args (patch m f.offset (leBytes 2 k)) T links := by
  obtain ⟨attrs, hrep⟩ := h.represents
  obtain ⟨hsame, hrep'⟩ := hrep.set f k
  have hstart := hrep.holds.start_ge
  have hfits := hrep.holds.fits
  have htwo : (leBytes 2 k).length = 2 := length_leBytes _ _
  have hofs : f.offset = 0x10 ∨ f.offset = 0x16 := by
    cases f with
    | sequenceNumber => exact .inl rfl
    | linkCount => exact absurd rfl hf
    | flags => exact .inr rfl
  refine ⟨⟨attrs, hrep'⟩, hsame.length.trans h.length, h.attrs, ?_⟩
  rw [← h.link_count]
  refine leAt_congr fun i hi => ?_
  rw [byteAt_patch (by omega), if_neg (by omega)]

end Record

/-- An index block with these entries, sorted, and the header of `blank`. -/
structure LinkIndex (coll : NameCollation) (blank idx : List UInt8) (entries : List (List UInt8))
    (fin : List UInt8) : Prop where
  block : DirBlock idx entries fin
  sorted : LinksSorted coll entries
  length_lt : blank.length < 2 ^ 31
  length : idx.length = blank.length
  header : ∀ i < 0x18, byteAt idx i = byteAt blank i

/-- What `create_hardlink` does to a record and an index block: nothing; or it leaves a `FILE_NAME`
behind that has no entry; or it adds both, and a link. -/
theorem createHardlink_spec {coll : NameCollation} {n links ref : ℕ} {args : List AttrArg}
    {m blank idx : List UInt8} {T : AttrTable} {entries : List (List UInt8)} {fin : List UInt8}
    (hargs : ArgsOk n args) (h : LinkRecord coll n args m T links) (href : ref < 2 ^ 64)
    (hidx : LinkIndex coll blank idx entries fin) (now : ℕ) (a : LinkArg) :
    let r := createHardlink coll now ref a m idx
    ((∃ e, r.1 = some e ∧ ∀ e', e ≠ .index e') ∧ LinkRecord coll n args r.2.1 T links ∧
      r.2.2 = idx) ∨
    (∃ v, FileNameOk v ∧ LinkRecord coll n args r.2.1 (T.push (fileNameRecord v)) links ∧
      r.2.2 = idx ∧ ∃ e, r.1 = some (.index e)) ∨
    (∃ v, FileNameOk v ∧ LinkRecord coll n args r.2.1 (T.push (fileNameRecord v)) (links + 1) ∧
      r.1 = none ∧ ∃ pre y post, entries = pre ++ post ∧ entryForm y = (ref, v) ∧
        LinkIndex coll blank r.2.2 (pre ++ y :: post) fin) := by
  have hcount := h.link_count
  have hlt : links < 256 ^ 2 := hcount ▸ leAt_lt m 0x12 2
  simp only [createHardlink]
  split_ifs with hea hshort hlong hmax
  · exact .inl ⟨⟨.einval, rfl, by simp⟩, h, rfl⟩
  · exact .inl ⟨⟨.einval, rfl, by simp⟩, h, rfl⟩
  · exact .inl ⟨⟨.enametoolong, rfl, by simp⟩, h, rfl⟩
  · exact .inl ⟨⟨.einval, rfl, by simp⟩, h, rfl⟩
  rw [hcount] at hmax ⊢
  have hfn : FileNameOk (a.fileName coll now m) := LinkArg.fileName_ok coll now m (not_lt.mp hlong)
  have hup := h.setLinkCount (k := links + 1) (by omega)
  rcases hup.insert hargs (.inr ⟨_, hfn, rfl⟩) with ⟨e, hins⟩ | ⟨m', hins, hrec⟩
  · have hback := hup.setLinkCount (k := links) (by omega)
    simp only [hins, hup.link_count, Nat.add_sub_cancel]
    exact .inl ⟨⟨.attr e, rfl, by simp⟩, hback, trivial⟩
  · have hback := hrec.setLinkCount (k := links) (by omega)
    right
    have hlen := hidx.length_lt
    rw [← hidx.length] at hlen
    rcases insertFileLink_spec hidx.block hidx.sorted hfn href hlen with
      ⟨-, hrun⟩ | ⟨-, -, hrun⟩ |
        ⟨-, idx', pre, y, post, hsplit, hrun, hblock, hsorted, hform, hsame, hhead⟩
    · simp only [hins, hrun, hrec.link_count, Nat.add_sub_cancel]
      exact .inl ⟨_, hfn, hback, trivial, .eexist, rfl⟩
    · simp only [hins, hrun, hrec.link_count, Nat.add_sub_cancel]
      exact .inl ⟨_, hfn, hback, trivial, .enospc, rfl⟩
    · simp only [hins, hrun]
      exact .inr ⟨_, hfn, hrec, trivial, pre, y, post, hsplit, hform, hblock, hsorted,
        hidx.length_lt, hsame.trans hidx.length,
        fun i hi => (hhead i hi).trans (hidx.header i hi)⟩

/-! ### All files -/

section Files

variable {ι : Type} [DecidableEq ι]

/-- The number of entries for the file `ref`. -/
def linksTo (ref : ℕ) (entries : List (List UInt8)) : ℕ :=
  entries.countP fun x => (entryForm x).1 = ref

theorem linksTo_insert (ref : ℕ) (pre post : List (List UInt8)) (y : List UInt8) :
    linksTo ref (pre ++ y :: post) =
      linksTo ref (pre ++ post) + if (entryForm y).1 = ref then 1 else 0 := by
  simp only [linksTo, List.countP_append, List.countP_cons, decide_eq_true_eq]
  omega

/-- A step that inserts the attributes of `args` only, and leaves the link count to
`create_hardlink`. -/
def LinkOp.Ok (args : List AttrArg) : LinkOp ι → Prop
  | .link _ _ _ => True
  | .record _ (.insert a) => a ∈ args
  | .record _ (.set f _) => f ≠ .linkCount

variable {coll : NameCollation} {ref : ι → ℕ} {n : ℕ} {args : List AttrArg} {fin blank : List UInt8}
  {s : LinkState ι} {T : ι → AttrTable} {old entries : List (List UInt8)} {lost : ι → ℕ}

/-- The links of every file are counted, and every entry that is not `old` has its `FILE_NAME` in
the record of a file; `lost` more of them have no entry. -/
structure FilesLinked (coll : NameCollation) (ref : ι → ℕ) (n : ℕ) (args : List AttrArg)
    (fin blank : List UInt8) (old : List (List UInt8)) (s : LinkState ι) (T : ι → AttrTable)
    (entries : List (List UInt8)) (lost : ι → ℕ) : Prop where
  index : LinkIndex coll blank s.idx entries fin
  kept : old ⊆ entries
  recs : ∀ i, LinkRecord coll n args (s.recs i) (T i) (linksTo (ref i) entries)
  owner : ∀ x ∈ entries, x ∈ old ∨ ∃ i, (entryForm x).1 = ref i ∧
    fileNameRecord (entryForm x).2 ∈ (T i).entries
  names : ∀ i, (T i).names = linksTo (ref i) entries + lost i

/-- A step on one file. -/
theorem FilesLinked.update (h : FilesLinked coll ref n args fin blank old s T entries lost) (i : ι)
    {m idx : List UInt8} {T' : AttrTable} {entries' : List (List UInt8)} {lost' : ι → ℕ}
    (hindex : LinkIndex coll blank idx entries' fin) (hkept : entries ⊆ entries')
    (hrec : LinkRecord coll n args m T' (linksTo (ref i) entries'))
    (hnames : T'.names = linksTo (ref i) entries' + lost' i)
    (hgrow : (T i).entries ⊆ T'.entries)
    (hnew : ∀ x ∈ entries', x ∈ entries ∨
      (entryForm x).1 = ref i ∧ fileNameRecord (entryForm x).2 ∈ T'.entries)
    (hother : ∀ j ≠ i, linksTo (ref j) entries' = linksTo (ref j) entries ∧ lost' j = lost j) :
    FilesLinked coll ref n args fin blank old ⟨Function.update s.recs i m, idx⟩
      (Function.update T i T') entries' lost' := by
  refine ⟨hindex, List.Subset.trans h.kept hkept, fun j => ?_, fun x hx => ?_, fun j => ?_⟩
  · by_cases hj : j = i
    · subst hj
      simpa using hrec
    · have hold := h.recs j
      rw [← (hother j hj).1] at hold
      simpa [Function.update_of_ne hj] using hold
  · rcases hnew x hx with hold | ⟨hown, hin⟩
    · refine (h.owner x hold).imp_right ?_
      rintro ⟨j, hown, hin⟩
      refine ⟨j, hown, ?_⟩
      by_cases hj : j = i
      · subst hj
        simpa using hgrow hin
      · simpa [Function.update_of_ne hj] using hin
    · exact .inr ⟨i, hown, by simpa using hin⟩
  · by_cases hj : j = i
    · subst hj
      simpa using hnames
    · obtain ⟨h1, h2⟩ := hother j hj
      rw [Function.update_of_ne hj, h1, h2]
      exact h.names j

/-- A step on the record of one file, with the same entries. -/
theorem FilesLinked.updateRecord
    (h : FilesLinked coll ref n args fin blank old s T entries lost) (i : ι)
    {m idx : List UInt8} {T' : AttrTable} {lost' : ι → ℕ} (hidx : idx = s.idx)
    (hrec : LinkRecord coll n args m T' (linksTo (ref i) entries))
    (hnames : T'.names = linksTo (ref i) entries + lost' i)
    (hgrow : (T i).entries ⊆ T'.entries) (hother : ∀ j ≠ i, lost' j = lost j) :
    FilesLinked coll ref n args fin blank old ⟨Function.update s.recs i m, idx⟩
      (Function.update T i T') entries lost' :=
  h.update i (hidx.symm ▸ h.index) (List.Subset.refl _) hrec hnames hgrow (fun _ hx => .inl hx)
    fun j hj => ⟨rfl, hother j hj⟩

theorem subset_insert (pre post : List (List UInt8)) (y : List UInt8) :
    pre ++ post ⊆ pre ++ y :: post := by
  intro x hx
  rcases List.mem_append.mp hx with hx | hx
  · exact List.mem_append_left _ hx
  · exact List.mem_append_right _ (List.mem_cons_of_mem _ hx)

theorem subset_push (T : AttrTable) (r : NewRecord) : T.entries ⊆ (T.push r).entries :=
  List.subset_append_left _ _

theorem mem_push (T : AttrTable) (r : NewRecord) : r ∈ (T.push r).entries :=
  List.mem_append_right _ List.mem_cons_self

/-- So it is with some tables and entries. -/
def AllLinked (coll : NameCollation) (ref : ι → ℕ) (n : ℕ) (args : List AttrArg)
    (fin blank : List UInt8) (old : List (List UInt8)) (s : LinkState ι) (lost : ι → ℕ) : Prop :=
  ∃ T entries, FilesLinked coll ref n args fin blank old s T entries lost

/-- One call of `create_hardlink`. -/
theorem FilesLinked.link (hargs : ArgsOk n args) (hinj : Function.Injective ref)
    (href : ∀ i, ref i < 2 ^ 64) (h : FilesLinked coll ref n args fin blank old s T entries lost)
    (i : ι) (now : ℕ) (a : LinkArg) :
    AllLinked coll ref n args fin blank old (linkStep coll ref s (.link i now a)).2 fun j =>
      lost j + ((LinkOp.link i now a).loses j (linkStep coll ref s (.link i now a)).1).toNat := by
  rcases createHardlink_spec hargs (h.recs i) (href i) h.index now a with
    ⟨⟨e, he, hno⟩, hrec, hidx⟩ | ⟨v, hv, hrec, hidx, e, he⟩ |
      ⟨v, hv, hrec, he, pre, y, post, rfl, hform, hidx⟩
  · have hkept : ∀ j, (LinkOp.link i now a).loses j (linkStep coll ref s (.link i now a)).1 =
        false := by
      intro j
      rw [linkStep, he]
      cases e with
      | index e' => exact absurd rfl (hno e')
      | einval => rfl
      | enametoolong => rfl
      | attr e' => rfl
    simp only [hkept]
    exact ⟨_, entries, h.updateRecord i hidx hrec (h.names i) (List.Subset.refl _) fun _ _ => rfl⟩
  · have hlost : ∀ j, (LinkOp.link i now a).loses j (linkStep coll ref s (.link i now a)).1 =
        decide (j = i) := by
      intro j
      rw [linkStep, he]
      rfl
    have htype : (fileNameRecord v).type = 0x30 := rfl
    simp only [hlost]
    refine ⟨_, entries, h.updateRecord i hidx hrec ?_ (subset_push _ _) fun j hj => by simp [hj]⟩
    rw [AttrTable.names_push, h.names i, if_pos htype, decide_eq_true rfl, Bool.toNat_true,
      Nat.add_assoc]
  · have hkept : ∀ j, (LinkOp.link i now a).loses j (linkStep coll ref s (.link i now a)).1 =
        false := by
      intro j
      rw [linkStep, he]
      rfl
    have htype : (fileNameRecord v).type = 0x30 := rfl
    have hown : (entryForm y).1 = ref i := congrArg Prod.fst hform
    have hval : (entryForm y).2 = v := congrArg Prod.snd hform
    simp only [hkept]
    refine ⟨_, pre ++ y :: post, h.update i hidx ?_ ?_ ?_ (subset_push _ (fileNameRecord v))
      (fun x hx => ?_) fun j hj => ⟨?_, rfl⟩⟩
    · exact subset_insert pre post y
    · rw [linksTo_insert, if_pos hown]
      exact hrec
    · rw [AttrTable.names_push, h.names i, if_pos htype, linksTo_insert, if_pos hown,
        Bool.toNat_false]
      omega
    · rcases List.mem_append.mp hx with hx | hx
      · exact .inl (List.mem_append_left _ hx)
      · rcases List.mem_cons.mp hx with rfl | hx
        · exact .inr ⟨hown, hval ▸ mem_push _ _⟩
        · exact .inl (List.mem_append_right _ hx)
    · rw [linksTo_insert, if_neg fun heq => hj (hinj (heq.symm.trans hown)), Nat.add_zero]

/-- Another step on a record. -/
theorem FilesLinked.record (hargs : ArgsOk n args)
    (h : FilesLinked coll ref n args fin blank old s T entries lost) (i : ι) {op : RecordOp}
    (hop : (LinkOp.record i op).Ok args) :
    AllLinked coll ref n args fin blank old (linkStep coll ref s (.record i op)).2 lost := by
  cases op with
  | set f k =>
    exact ⟨_, entries, h.updateRecord i rfl ((h.recs i).set hop k) (h.names i)
      (List.Subset.refl _) fun _ _ => rfl⟩
  | insert a =>
    have hattr : LinkAttr args a.record := .inl ⟨a, hop, rfl⟩
    rcases (h.recs i).insert hargs hattr with ⟨e, hins⟩ | ⟨m', hins, hrec⟩
    · simp only [linkStep, recordStep, recordInsert, hins]
      exact ⟨_, entries, h.updateRecord i rfl (h.recs i) (h.names i) (List.Subset.refl _)
        fun _ _ => rfl⟩
    · simp only [linkStep, recordStep, recordInsert, hins]
      refine ⟨_, entries, h.updateRecord i rfl hrec ?_ (subset_push _ _) fun _ _ => rfl⟩
      rw [AttrTable.names_push, if_neg (hargs.no_names a hop)]
      exact h.names i

/-- One step. -/
theorem FilesLinked.step (hargs : ArgsOk n args) (hinj : Function.Injective ref)
    (href : ∀ i, ref i < 2 ^ 64) (h : FilesLinked coll ref n args fin blank old s T entries lost)
    {op : LinkOp ι} (hop : op.Ok args) :
    AllLinked coll ref n args fin blank old (linkStep coll ref s op).2 fun j =>
      lost j + (op.loses j (linkStep coll ref s op).1).toNat := by
  cases op with
  | link i now a => exact h.link hargs hinj href i now a
  | record i op =>
    have hkept : ∀ j (e : Option HardlinkError), (LinkOp.record i op).loses j e = false := by
      intro j e
      cases e <;> rfl
    simp only [hkept, Bool.toNat_false, Nat.add_zero]
    exact h.record hargs i hop

/-- All steps, in order. -/
theorem FilesLinked.run (hargs : ArgsOk n args) (hinj : Function.Injective ref)
    (href : ∀ i, ref i < 2 ^ 64) : ∀ (ops : List (LinkOp ι)) (s : LinkState ι) (T : ι → AttrTable)
      (entries : List (List UInt8)) (lost : ι → ℕ), (∀ op ∈ ops, op.Ok args) →
      FilesLinked coll ref n args fin blank old s T entries lost →
      AllLinked coll ref n args fin blank old (execAll (linkStep coll ref) ops s) fun j =>
        lost j + lostNames coll ref j ops s := by
  intro ops
  induction ops with
  | nil =>
    intro s T entries lost _ h
    exact ⟨T, entries, h⟩
  | cons op ops ih =>
    intro s T entries lost hops h
    obtain ⟨T', entries', hnext⟩ := h.step hargs hinj href (hops op List.mem_cons_self)
    have hrest := ih _ T' entries' _ (fun x hx => hops x (List.mem_cons_of_mem _ hx)) hnext
    simpa only [lostNames, execAll, Nat.add_assoc] using hrest

/-- The start: records without attributes and links, and an index with entries of others. -/
structure LinksStart (coll : NameCollation) (ref : ι → ℕ) (n : ℕ) (fin blank : List UInt8)
    (old : List (List UInt8)) (s : LinkState ι) : Prop where
  injective : Function.Injective ref
  ref_lt : ∀ i, ref i < 2 ^ 64
  recs : ∀ i, MftRecord (s.recs i) [] ∧ (s.recs i).length = n ∧ leAt (s.recs i) 0x12 2 = 0
  index : LinkIndex coll blank s.idx old fin
  others : ∀ x ∈ old, ∀ i, (entryForm x).1 ≠ ref i

omit [DecidableEq ι] in
theorem LinksStart.linked (args : List AttrArg) (h : LinksStart coll ref n fin blank old s) :
    FilesLinked coll ref n args fin blank old s (fun i => .ofEmpty (s.recs i)) old fun _ => 0 := by
  have hzero : ∀ i, linksTo (ref i) old = 0 := fun i =>
    List.countP_eq_zero.mpr fun x hx => by simpa using h.others x hx i
  refine ⟨h.index, List.Subset.refl _, fun i => ?_, fun x hx => .inl hx, fun i => ?_⟩
  · obtain ⟨hrec, hlen, hcount⟩ := h.recs i
    have huse := hrec.in_use
    have hfits := hrec.fits
    refine ⟨⟨[], hrec, List.Pairwise.nil, .refl _, ?_⟩, hlen, fun t ht => ?_, ?_⟩
    · simp only [AttrTable.ofEmpty]
      omega
    · cases ht
    · rw [hzero i, hcount]
  · rw [hzero i]
    rfl

/-- The `FILE_NAME`s of a record are those of its table. -/
theorem Represents.countP_names {m : List UInt8} {T : AttrTable} {attrs : List (List UInt8)}
    (h : Represents coll m T attrs) : (attrs.countP fun x => leAt x 0 4 = 0x30) = T.names := by
  have hperm := h.forms.countP_eq fun f => decide (f.1.type = 0x30)
  rw [List.countP_map, List.countP_map] at hperm
  exact hperm

/-- After any links and other steps the index of the root directory is sorted, the link count of a
file is the number of its entries, and each entry has its `FILE_NAME` in the record of the file.
There are as many more `FILE_NAME`s in a record as calls have failed at the index. -/
theorem links_agree (hargs : ArgsOk n args) (h : LinksStart coll ref n fin blank old s)
    {ops : List (LinkOp ι)} (hops : ∀ op ∈ ops, op.Ok args) :
    let s' := execAll (linkStep coll ref) ops s
    ∃ entries, DirBlock s'.idx entries fin ∧ LinksSorted coll entries ∧ old ⊆ entries ∧
      (∀ i, leAt (s'.recs i) 0x12 2 = linksTo (ref i) entries ∧
        ∃ attrs, MftRecord (s'.recs i) attrs ∧ AttrsSorted coll attrs ∧
          (attrs.countP fun x => leAt x 0 4 = 0x30) =
            linksTo (ref i) entries + lostNames coll ref i ops s) ∧
      ∀ x ∈ entries, x ∈ old ∨ ∃ i a, (entryForm x).1 = ref i ∧
        mkntfsAttrFind coll 0x30 .unnamed (some (entryForm x).2) (s'.recs i) (s'.recs i).length
          (leAt (s'.recs i) 0x14 2) = .found a ∧
        attrValueAt (s'.recs i) a = (entryForm x).2 := by
  intro s'
  obtain ⟨T, entries, hend⟩ :=
    FilesLinked.run hargs h.injective h.ref_lt ops s _ old _ hops (h.linked args)
  refine ⟨entries, hend.index.block, hend.index.sorted, hend.kept, fun i => ?_, fun x hx => ?_⟩
  · obtain ⟨attrs, hrep⟩ := (hend.recs i).represents
    refine ⟨(hend.recs i).link_count, attrs, hrep.holds, hrep.sorted, ?_⟩
    rw [hrep.countP_names, hend.names i, Nat.zero_add]
  · refine (hend.owner x hx).imp_right ?_
    rintro ⟨i, hown, hin⟩
    have hrec := hend.recs i
    obtain ⟨attrs, hrep⟩ := hrec.represents
    obtain ⟨a, hfind, -, -, hval⟩ := hrep.find hin ((hrec.attrs _ hin).ok hargs).1
      fun t ht => (hrec.attrs _ hin).compatible hargs (hrec.attrs t ht)
    exact ⟨i, a, hown, hfind, hval _ rfl⟩

end Files

/-- An index block of 512 bytes, the 16 bytes of the end entry in it. -/
def emptyIndexEnd : List UInt8 := List.replicate 8 0 ++ [16, 0, 0, 0, 2, 0, 0, 0]

def emptyIndex : List UInt8 :=
  patchAll (List.replicate 512 0) [(0x18, leBytes 4 0x10), (0x1C, leBytes 4 0x20),
    (0x20, leBytes 4 0x1E8), (0x28, emptyIndexEnd)]

theorem emptyIndex_dir : DirBlock emptyIndex [] emptyIndexEnd := by
  refine ⟨?_, ?_, ?_, ?_, ?_, by simp, ?_, ?_⟩ <;> decide +kernel

def sampleRef (i : Fin 2) : ℕ := 2 ^ 48 + i

def sampleStart : LinkState (Fin 2) := ⟨fun _ => emptyRecord, emptyIndex⟩

theorem emptyRecord_header : emptyRecord.length = 1024 ∧ leAt emptyRecord 0x12 2 = 0 := by
  decide +kernel

theorem sampleStart_links :
    LinksStart (.upcase id) sampleRef 1024 emptyIndexEnd emptyIndex [] sampleStart where
  injective := by decide
  ref_lt := by decide
  recs := fun _ => ⟨emptyRecord_mft, emptyRecord_header⟩
  index := ⟨emptyIndex_dir, ⟨List.Pairwise.nil, List.Pairwise.nil⟩, by decide +kernel, rfl,
    fun _ _ => rfl⟩
  others := fun _ hx => absurd hx List.not_mem_nil

def sampleArgs : List AttrArg :=
  [.resident 0x10 [] 0 0 (List.replicate 48 7),
    .nonResident 0x80 [] 0 1 8192 8000 8000 [0x11, 2, 5, 0]]

theorem sampleArgs_ok : ArgsOk 1024 sampleArgs where
  size := by decide
  valid := by decide +kernel
  compatible := by decide +kernel
  no_names := by decide +kernel

/-- A file with two names; the name of the other file is taken already. -/
def sampleLinks : List (LinkOp (Fin 2)) :=
  (sampleArgs.map fun a => .record 0 (.insert a)) ++ [.record 0 (.set .flags 1),
    .link 0 99 ⟨5, 8192, 8000, 6, 0, 0, [0x24, 0x41], 3⟩,
    .link 0 99 ⟨5, 8192, 8000, 6, 0, 0, [0x24, 0x40], 3⟩,
    .link 1 99 ⟨5, 0, 0, 6, 0, 0, [0x24, 0x41], 3⟩]

theorem sampleLinks_ok : ∀ op ∈ sampleLinks, op.Ok sampleArgs := by
  simp [sampleLinks, sampleArgs, LinkOp.Ok]

theorem links_agree_sample : ∃ entries,
    DirBlock (execAll (linkStep (.upcase id) sampleRef) sampleLinks sampleStart).idx entries
        emptyIndexEnd ∧
      ∀ i, leAt ((execAll (linkStep (.upcase id) sampleRef) sampleLinks sampleStart).recs i)
        0x12 2 = linksTo (sampleRef i) entries := by
  obtain ⟨entries, hblock, -, -, hrecs, -⟩ :=
    links_agree sampleArgs_ok sampleStart_links sampleLinks_ok
  exact ⟨entries, hblock, fun i => (hrecs i).1⟩

end NtfsKit
