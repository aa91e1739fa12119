import NtfsKit.Format.MftRecord
import NtfsKit.Lib.Run

/-! An MFT record as a table. The formatter fills its records by inserting one attribute after the
other, and sets fields of the header in between; seen from outside a record is a table that takes an
attribute unless one like it is there already or its free bytes run out, and in which every
attribute that was taken is found again. -/

namespace NtfsKit

/-- An insertion; `none` is a return of 0, and a failure leaves the record as it is. -/
def recordInsert (coll : NameCollation) (m : List UInt8) (r : NewRecord) :
    Option InsertError × List UInt8 :=
  match insertAttr coll m r with
  | .ok m' => (none, m')
  | .error e => (some e, m)

/-- The second stands in the way of the first: it has the same type and name, and the same value
if that is looked for. -/
def NewRecord.Clashes (r t : NewRecord) : Prop :=
  r.type = t.type ∧ r.name = t.name ∧ (r.val = none ∨ r.val = t.val)

instance (r t : NewRecord) : Decidable (r.Clashes t) :=
  inferInstanceAs (Decidable (_ ∧ _ ∧ (_ ∨ _)))

/-- The attributes in the order of their insertion, and the free bytes. -/
structure AttrTable where
  entries : List NewRecord
  free : ℕ

def tableInsert (T : AttrTable) (r : NewRecord) : Option InsertError × AttrTable :=
  if ∃ t ∈ T.entries, r.Clashes t then (some .eexist, T)
  else if T.free < r.asize then (some .eopnotsupp, T)
  else (none, ⟨T.entries ++ [r], T.free - r.asize⟩)

/-- No value is looked for where an attribute has none in the record. -/
def NewRecord.Compatible (r t : NewRecord) : Prop :=
  r.type = t.type → r.name = t.name → r.val = none ∨ t.val.isSome

instance (r t : NewRecord) : Decidable (r.Compatible t) :=
  inferInstanceAs (Decidable (_ → _ → _))

/-- What the table knows of an attribute of the record. -/
def attrForm (x : List UInt8) : AttrKey × Bool := (attrKey x, decide (byteAt x 8 = 0))

def NewRecord.form (r : NewRecord) : AttrKey × Bool := (r.key, r.val.isSome)

/-- The record holds the attributes of the table, sorted. -/
structure Represents (coll : NameCollation) (m : List UInt8) (T : AttrTable)
    (attrs : List (List UInt8)) : Prop where
  holds : MftRecord m attrs
  sorted : AttrsSorted coll attrs
  forms : (attrs.map attrForm).Perm (T.entries.map NewRecord.form)
  free : leAt m 0x18 4 + T.free = m.length

/-- A record of the same size, with the same magic, update sequence and first attribute. -/
structure SameHeader (m m' : List UInt8) : Prop where
  length : m'.length = m.length
  header : ∀ i < 0x16, i < 0x10 ∨ 0x14 ≤ i → byteAt m' i = byteAt m i

theorem SameHeader.refl (m : List UInt8) : SameHeader m m := ⟨rfl, fun _ _ _ => rfl⟩

theorem SameHeader.trans {m m' m'' : List UInt8} (h : SameHeader m m') (h' : SameHeader m' m'') :
    SameHeader m m'' :=
  ⟨h'.length.trans h.length, fun i hi hi' => (h'.header i hi hi').trans (h.header i hi hi')⟩

theorem SameHeader.leAt_eq {m m' : List UInt8} (h : SameHeader m m') {a n : ℕ} (ha : a + n ≤ 0x16)
    (ha' : a + n ≤ 0x10 ∨ 0x14 ≤ a) : leAt m' a n = leAt m a n :=
  leAt_congr fun i hi => h.header _ (by omega) (by omega)

section Steps

variable {coll : NameCollation} {m : List UInt8} {T : AttrTable} {attrs : List (List UInt8)}
  {r : NewRecord}

/-- Every attribute of the record is one of the table, and the other way round. -/
theorem Represents.entry (h : Represents coll m T attrs) {x : List UInt8} (hx : x ∈ attrs) :
    ∃ t ∈ T.entries, attrKey x = t.key ∧ (byteAt x 8 = 0 ↔ t.val.isSome) := by
  have hmem := (h.forms.mem_iff (a := attrForm x)).mp (List.mem_map.mpr ⟨x, hx, rfl⟩)
  obtain ⟨t, ht, hform⟩ := List.mem_map.mp hmem
  obtain ⟨hkey, hres⟩ := Prod.mk.inj hform
  refine ⟨t, ht, hkey.symm, ?_⟩
  rw [hres, decide_eq_true_iff]

theorem Represents.attr (h : Represents coll m T attrs) {t : NewRecord} (ht : t ∈ T.entries) :
    ∃ x ∈ attrs, attrKey x = t.key ∧ (byteAt x 8 = 0 ↔ t.val.isSome) := by
  have hmem := (h.forms.mem_iff (a := t.form)).mpr (List.mem_map.mpr ⟨t, ht, rfl⟩)
  obtain ⟨x, hx, hform⟩ := List.mem_map.mp hmem
  obtain ⟨hkey, hres⟩ := Prod.mk.inj hform
  refine ⟨x, hx, hkey, ?_⟩
  rw [← hres, decide_eq_true_iff]

theorem Represents.comparable (h : Represents coll m T attrs)
    (hc : ∀ t ∈ T.entries, r.Compatible t) : ∀ x ∈ attrs, r.Comparable x := by
  intro x hx htype hname
  obtain ⟨t, ht, hkey, hres⟩ := h.entry hx
  have htype' : t.type = r.type := (congrArg AttrKey.type hkey).symm.trans htype
  have hname' : t.name = r.name := (congrArg AttrKey.name hkey).symm.trans hname
  exact (hc t ht htype'.symm hname'.symm).imp_right hres.mpr

/-- A search stops at an attribute exactly if it stands in the way. -/
theorem NewRecord.clashes_iff {x : List UInt8} {t : NewRecord} (hkey : attrKey x = t.key)
    (hres : byteAt x 8 = 0 ↔ t.val.isSome) (hc : r.Comparable x) :
    r.order coll x = .eq ↔ r.Clashes t := by
  have htype : (attrKey x).type = t.type := congrArg AttrKey.type hkey
  have hname : (attrKey x).name = t.name := congrArg AttrKey.name hkey
  cases hr : r.val with
  | none =>
    rw [r.order_none hr, NewRecord.Clashes, hr]
    constructor
    · intro h
      obtain ⟨h1, h2⟩ := compareHead_eq.mp h
      exact ⟨h1.trans htype, h2.trans hname, .inl rfl⟩
    · rintro ⟨h1, h2, -⟩
      exact compareHead_eq.mpr ⟨h1.trans htype.symm, h2.trans hname.symm⟩
  | some v =>
    rw [r.order_some hr hc, NewRecord.Clashes, hr]
    simp only [compareKey, compareLex_eq_eq]
    constructor
    · rintro ⟨h, hval⟩
      obtain ⟨h1, h2⟩ := compareHead_eq.mp h
      refine ⟨h1.trans htype, h2.trans hname, .inr ?_⟩
      have hin : byteAt x 8 = 0 := (hc h1.symm h2.symm).resolve_left (by rw [hr]; simp)
      obtain ⟨u, hu⟩ := Option.isSome_iff_exists.mp (hres.mp hin)
      have hvalue : r.key.value = (attrKey x).value := Std.LawfulEqCmp.compare_eq_iff_eq.mp hval
      rw [hkey, NewRecord.key, NewRecord.key, hr, hu] at hvalue
      rw [hu]
      exact congrArg some hvalue
    · rintro ⟨h1, h2, h3⟩
      have hval : t.val = some v := (h3.resolve_left (by simp)).symm
      have heq : r.key = attrKey x := by
        rw [hkey, NewRecord.key, NewRecord.key, h1, h2, hr, hval]
      rw [heq]
      exact ⟨Std.ReflCmp.compare_self, Std.ReflCmp.compare_self⟩

/-- One insertion is one of the table. -/
theorem Represents.insert (h : Represents coll m T attrs) (hr : r.Ok)
    (hc : ∀ t ∈ T.entries, r.Compatible t) (hm : m.length + r.asize < 2 ^ 32) :
    (recordInsert coll m r).1 = (tableInsert T r).1 ∧ (recordInsert coll m r).2.length = m.length ∧
      (∀ i < 0x18, byteAt (recordInsert coll m r).2 i = byteAt m i) ∧
      ∃ attrs', Represents coll (recordInsert coll m r).2 (tableInsert T r).2 attrs' := by
  have hcomp := h.comparable hc
  have hfree := h.free
  have hclash : (∃ x ∈ attrs, r.order coll x = .eq) ↔ ∃ t ∈ T.entries, r.Clashes t := by
    constructor
    · rintro ⟨x, hx, horder⟩
      obtain ⟨t, ht, hkey, hres⟩ := h.entry hx
      exact ⟨t, ht, (NewRecord.clashes_iff hkey hres (hcomp x hx)).mp horder⟩
    · rintro ⟨t, ht, hcl⟩
      obtain ⟨x, hx, hkey, hres⟩ := h.attr ht
      exact ⟨x, hx, (NewRecord.clashes_iff hkey hres (hcomp x hx)).mpr hcl⟩
  rw [recordInsert, tableInsert]
  rcases insertAttr_spec h.holds h.sorted hr hcomp hm with
    ⟨hex, hrun⟩ | ⟨hnot, hroom, hrun⟩ |
      ⟨hnot, hroom, m', pre, y, post, rfl, hrun, hrec, hsorted, hylen, hykey, hyres, hlen, hhead⟩
  · rw [hrun, if_pos (hclash.mp hex)]
    exact ⟨rfl, rfl, fun _ _ => rfl, attrs, h⟩
  · have hno : ¬ ∃ t ∈ T.entries, r.Clashes t := by
      rw [← hclash]
      rintro ⟨x, hx, hxe⟩
      exact hnot x hx hxe
    rw [hrun, if_neg hno, if_pos (by omega)]
    exact ⟨rfl, rfl, fun _ _ => rfl, attrs, h⟩
  · have hno : ¬ ∃ t ∈ T.entries, r.Clashes t := by
      rw [← hclash]
      rintro ⟨x, hx, hxe⟩
      exact hnot x hx hxe
    rw [hrun, if_neg hno, if_neg (by omega)]
    refine ⟨rfl, hlen, hhead, pre ++ y :: post, hrec, hsorted, ?_, ?_⟩
    · have hy : attrForm y = r.form := by
        rw [attrForm, NewRecord.form, hykey]
        refine congrArg (Prod.mk r.key) ?_
        rw [Bool.eq_iff_iff, decide_eq_true_iff]
        exact hyres
      have hforms := h.forms
      rw [List.map_append] at hforms
      rw [List.map_append, List.map_cons, List.map_append, hy]
      refine List.perm_middle.trans ((hforms.cons r.form).trans ?_)
      exact (List.perm_append_singleton _ _).symm
    · have h1 := h.holds.in_use
      have h2 := hrec.in_use
      have hofs : leAt m' 0x14 2 = leAt m 0x14 2 := leAt_congr fun i hi => hhead _ (by omega)
      simp only [List.flatten_append, List.flatten_cons, List.length_append, hylen, hofs] at h1 h2
      dsimp only
      omega

/-- A search for an attribute of the table ends at one that stands in the way of it. -/
theorem Represents.find (h : Represents coll m T attrs) {t : NewRecord} (ht : t ∈ T.entries)
    (hr : t.Ok) (hc : ∀ s ∈ T.entries, t.Compatible s) :
    ∃ a, mkntfsAttrFind coll t.type (if t.name = [] then .unnamed else .named t.name) t.val m
        m.length (leAt m 0x14 2) = .found a ∧
      leAt m a 4 = t.type ∧ attrNameAt m a = t.name ∧
      ∀ v, t.val = some v → attrValueAt m a = v := by
  have hcomp := h.comparable hc
  have hfits := h.holds.fits
  have hfind : mkntfsAttrFind coll t.type (if t.name = [] then .unnamed else .named t.name) t.val m
      m.length (leAt m 0x14 2) = (scan (t.order coll) attrs).findEnd (leAt m 0x14 2) attrs :=
    mkntfsAttrFind_eq hr.type_pos hr.type_lt h.holds.allocated attrs _ _ h.holds.fuel h.holds.ok
      hcomp (by rw [List.length_append]; exact hfits) h.holds.holds
  obtain ⟨pre, post, rfl, hpre, hcases⟩ := scan_cases (t.order coll) attrs
  rcases hcases with ⟨-, hpost⟩ | ⟨hscan, x, rest, rfl, hx⟩
  · -- its own attribute is there, so that the search cannot end at a gap
    obtain ⟨y, hy, hkey, hres⟩ := h.attr ht
    have hyeq : t.order coll y = .eq :=
      (NewRecord.clashes_iff hkey hres (hcomp y hy)).mpr ⟨rfl, rfl, .inr rfl⟩
    have hnot := h.sorted.not_found hpre hpost fun x hx y hy =>
      t.order_mono (hcomp x hx) (hcomp y hy)
    exact absurd hyeq (hnot y hy)
  · have hmem : x ∈ pre ++ x :: rest := by simp
    have hok := h.holds.ok x hmem
    have hoff : attrOffset (pre ++ x :: rest) pre.length = pre.flatten.length := by
      simp [attrOffset]
    obtain ⟨s, hs, hkey, hres⟩ := h.entry hmem
    obtain ⟨htype, hname, hval⟩ := (NewRecord.clashes_iff hkey hres (hcomp x hmem)).mp hx
    have hall := h.holds.holds
    rw [List.flatten_append, List.flatten_cons, List.append_assoc, List.append_assoc] at hall
    have hx : Holds m (leAt m 0x14 2 + pre.flatten.length) x := hall.append_right.append_left
    have hin : leAt m 0x14 2 + pre.flatten.length + x.length ≤ m.length := by
      rw [List.flatten_append, List.flatten_cons, List.length_append, List.length_append] at hfits
      omega
    refine ⟨_, by rw [hfind, hscan, Spot.findEnd, hoff], ?_, ?_, fun v hv => ?_⟩
    · have hbyte : leAt m (leAt m 0x14 2 + pre.flatten.length) 4 = leAt x 0 4 :=
        hx.leAt_inside (i := 0) (by have := hok.length_ge; omega)
      rw [hbyte, htype]
      exact congrArg AttrKey.type hkey
    · rw [attrNameAt_eq hx hin hok, hname]
      exact congrArg AttrKey.name hkey
    · have hsval : s.val = some v := by
        rw [← hv]
        exact (hval.resolve_left (by simp [hv])).symm
      have hinside : byteAt x 8 = 0 := hres.mpr (by simp [hsval])
      have hvalue : (attrKey x).value = s.key.value := congrArg AttrKey.value hkey
      rw [attrKey, if_pos hinside, NewRecord.key, hsval] at hvalue
      rw [attrValueAt_eq hx hin hok hinside]
      exact hvalue

end Steps

/-! ### The formatter's insertions -/

/-- What the formatter inserts: a value in the record, or one outside with its mapping pairs. -/
inductive AttrArg
  | resident (type : ℕ) (name : List UInt16) (flags : ℕ) (resFlags : UInt8) (val : List UInt8)
  | nonResident (type : ℕ) (name : List UInt16) (flags highestVcn allocated size inited : ℕ)
      (pairs : List UInt8)

def AttrArg.record : AttrArg → NewRecord
  | .resident type name flags resFlags val => residentRecord type name flags resFlags val
  | .nonResident type name flags highestVcn allocated size inited pairs =>
    nonResidentRecord type name flags highestVcn allocated size inited pairs

/-- What an insertion relies on, in a record of `n` bytes: a type, a name that fits its fields, and
no overflow of the 32 bits the sizes are counted in. -/
def AttrArg.Valid (n : ℕ) : AttrArg → Prop
  | .resident type name flags resFlags val => 0 < type ∧ type < 0xFFFFFFFF ∧ name.length < 256 ∧
      (type = 0x40 → name = []) ∧ n + (residentRecord type name flags resFlags val).asize < 2 ^ 32
  | .nonResident type name flags highestVcn allocated size inited pairs =>
    0 < type ∧ type < 0xFFFFFFFF ∧ name.length ≤ 4 ∧
      n + (nonResidentRecord type name flags highestVcn allocated size inited pairs).asize < 2 ^ 32

instance (n : ℕ) : (a : AttrArg) → Decidable (a.Valid n)
  | .resident .. => inferInstanceAs (Decidable (_ ∧ _))
  | .nonResident .. => inferInstanceAs (Decidable (_ ∧ _))

theorem AttrArg.Valid.ok {n : ℕ} {a : AttrArg} (h : a.Valid n) :
    a.record.Ok ∧ n + a.record.asize < 2 ^ 32 := by
  cases a with
  | resident type name flags resFlags val =>
    obtain ⟨h0, hend, hname, hid, hsize⟩ := h
    refine ⟨residentRecord_ok h0 hend hname hid ?_, hsize⟩
    change n + align8 _ < 2 ^ 32 at hsize
    omega
  | nonResident type name flags highestVcn allocated size inited pairs =>
    obtain ⟨h0, hend, hname, hsize⟩ := h
    refine ⟨nonResidentRecord_ok h0 hend hname ?_, hsize⟩
    change n + align8 _ < 2 ^ 32 at hsize
    omega

/-- The fields of the header that the formatter sets. -/
inductive HeaderField
  | sequenceNumber
  | linkCount
  | flags

def HeaderField.offset : HeaderField → ℕ
  | .sequenceNumber => 0x10
  | .linkCount => 0x12
  | .flags => 0x16

/-- What happens to a record. -/
inductive RecordOp
  | insert (a : AttrArg)
  | set (f : HeaderField) (n : ℕ)

/-- The attributes that are inserted. -/
def insertions (ops : List RecordOp) : List AttrArg :=
  ops.filterMap fun op =>
    match op with
    | .insert a => some a
    | .set _ _ => none

theorem mem_insertions {ops : List RecordOp} {a : AttrArg} (h : RecordOp.insert a ∈ ops) :
    a ∈ insertions ops :=
  List.mem_filterMap.mpr ⟨_, h, rfl⟩

/-- What the insertions rely on, in a record of `n` bytes. -/
def OpsOk (n : ℕ) (ops : List RecordOp) : Prop :=
  ∀ a ∈ insertions ops, a.Valid n ∧ ∀ b ∈ insertions ops, a.record.Compatible b.record

instance (n : ℕ) (ops : List RecordOp) : Decidable (OpsOk n ops) :=
  inferInstanceAs (Decidable (∀ a ∈ insertions ops, _))

def recordStep (coll : NameCollation) (m : List UInt8) : RecordOp → Option InsertError × List UInt8
  | .insert a => recordInsert coll m a.record
  | .set f n => (none, patch m f.offset (leBytes 2 n))

def tableStep (T : AttrTable) : RecordOp → Option InsertError × AttrTable
  | .insert a => tableInsert T a.record
  | .set _ _ => (none, T)

/-- What a record consists of is not in those fields. -/
theorem MftRecord.congr {m m' : List UInt8} {attrs : List (List UInt8)} (h : MftRecord m attrs)
    (hlen : m'.length = m.length)
    (hb : ∀ i, i < 0x10 ∨ (0x14 ≤ i ∧ i < 0x16) ∨ 0x18 ≤ i → byteAt m' i = byteAt m i) :
    MftRecord m' attrs := by
  have hofs : leAt m' 0x14 2 = leAt m 0x14 2 := leAt_congr fun i hi => hb _ (by omega)
  have huse : leAt m' 0x18 4 = leAt m 0x18 4 := leAt_congr fun i hi => hb _ (by omega)
  have hsize : leAt m' 0x1C 4 = leAt m 0x1C 4 := leAt_congr fun i hi => hb _ (by omega)
  have hstart := h.start_ge
  refine ⟨by omega, by rw [hsize, hlen, h.allocated], by rw [huse, hofs, h.in_use],
    by rw [hofs, hlen]; exact h.fits, ?_, h.ok⟩
  rw [hofs]
  exact h.holds.congr fun i h1 h2 => hb i (by omega)

section Runs

variable {coll : NameCollation} {m : List UInt8} {T : AttrTable} {attrs : List (List UInt8)}

/-- Setting a field of the header. -/
theorem Represents.set (h : Represents coll m T attrs) (f : HeaderField) (n : ℕ) :
    SameHeader m (patch m f.offset (leBytes 2 n)) ∧
      Represents coll (patch m f.offset (leBytes 2 n)) T attrs := by
  have hstart := h.holds.start_ge
  have hfits := h.holds.fits
  have htwo : (leBytes 2 n).length = 2 := length_leBytes _ _
  have hf : f.offset = 0x10 ∨ f.offset = 0x12 ∨ f.offset = 0x16 := by
    cases f <;> simp [HeaderField.offset]
  have hlen : (patch m f.offset (leBytes 2 n)).length = m.length := length_patch (by omega)
  have hb : ∀ i, i < 0x10 ∨ (0x14 ≤ i ∧ i < 0x16) ∨ 0x18 ≤ i →
      byteAt (patch m f.offset (leBytes 2 n)) i = byteAt m i := by
    intro i hi
    rw [byteAt_patch (by omega), if_neg (by omega)]
  refine ⟨⟨hlen, fun i h1 h2 => hb i (by omega)⟩, h.holds.congr hlen hb, h.sorted, h.forms, ?_⟩
  have huse : leAt (patch m f.offset (leBytes 2 n)) 0x18 4 = leAt m 0x18 4 :=
    leAt_congr fun i hi => hb _ (by omega)
  rw [huse, hlen]
  exact h.free

/-- All that is in the table comes from `ops`. -/
def AttrTable.From (ops : List RecordOp) (T : AttrTable) : Prop :=
  ∀ t ∈ T.entries, ∃ a ∈ insertions ops, t = a.record

theorem AttrTable.From.step {ops : List RecordOp} (h : T.From ops) {op : RecordOp}
    (hop : op ∈ ops) : (tableStep T op).2.From ops := by
  cases op with
  | set f n => exact h
  | insert a =>
    rw [tableStep, tableInsert]
    split_ifs
    · exact h
    · exact h
    · intro t ht
      rcases List.mem_append.mp ht with ht | ht
      · exact h t ht
      · exact ⟨a, mem_insertions hop, List.mem_singleton.mp ht⟩

/-- One step of the record is one step of the table. -/
theorem Represents.step {ops : List RecordOp} (h : Represents coll m T attrs)
    (hok : OpsOk m.length ops) (hT : T.From ops) {op : RecordOp} (hop : op ∈ ops) :
    (recordStep coll m op).1 = (tableStep T op).1 ∧ SameHeader m (recordStep coll m op).2 ∧
      ∃ attrs', Represents coll (recordStep coll m op).2 (tableStep T op).2 attrs' := by
  cases op with
  | set f n =>
    obtain ⟨hsame, hrep⟩ := h.set f n
    exact ⟨rfl, hsame, attrs, hrep⟩
  | insert a =>
    obtain ⟨hv, hc⟩ := hok a (mem_insertions hop)
    have hcomp : ∀ t ∈ T.entries, a.record.Compatible t := by
      intro t ht
      obtain ⟨b, hb, rfl⟩ := hT t ht
      exact hc b hb
    obtain ⟨hans, hlen, hhead, hrep⟩ := h.insert hv.ok.1 hcomp hv.ok.2
    exact ⟨hans, ⟨hlen, fun i hi _ => hhead i (by omega)⟩, hrep⟩

/-- All steps, in order. -/
theorem Represents.run {m₀ : List UInt8} {ops : List RecordOp} (hok : OpsOk m₀.length ops) :
    ∀ (rest : List RecordOp) (m : List UInt8) (T : AttrTable) (attrs : List (List UInt8)),
      rest ⊆ ops → T.From ops → SameHeader m₀ m → Represents coll m T attrs →
      answers (recordStep coll) rest m = answers tableStep rest T ∧
        (execAll tableStep rest T).From ops ∧ SameHeader m₀ (execAll (recordStep coll) rest m) ∧
        ∃ attrs', Represents coll (execAll (recordStep coll) rest m) (execAll tableStep rest T)
          attrs' := by
  intro rest
  induction rest with
  | nil =>
    intro m T attrs _ hT hm h
    exact ⟨rfl, hT, hm, attrs, h⟩
  | cons op rest ih =>
    intro m T attrs hops hT hm h
    have hop : op ∈ ops := hops List.mem_cons_self
    obtain ⟨hans, hsame, attrs', hrep⟩ := h.step (hm.length ▸ hok) hT hop
    obtain ⟨hrest, hfrom, hlast, hfinal⟩ := ih _ _ attrs' (fun x hx => hops (by simp [hx]))
      (hT.step hop) (hm.trans hsame) hrep
    exact ⟨by rw [answers, answers, hans, hrest], hfrom, hlast, hfinal⟩

/-- The table of an empty record. -/
def AttrTable.ofEmpty (m : List UInt8) : AttrTable := ⟨[], m.length - leAt m 0x18 4⟩

/-- After any steps from an empty record. -/
theorem MftRecord.run (coll : NameCollation) (h : MftRecord m []) {ops : List RecordOp}
    (hok : OpsOk m.length ops) :
    answers (recordStep coll) ops m = answers tableStep ops (.ofEmpty m) ∧
      (execAll tableStep ops (.ofEmpty m)).From ops ∧
      SameHeader m (execAll (recordStep coll) ops m) ∧
      ∃ attrs, Represents coll (execAll (recordStep coll) ops m)
        (execAll tableStep ops (.ofEmpty m)) attrs := by
  have huse := h.in_use
  have hfits := h.fits
  have hstart : Represents coll m (.ofEmpty m) [] :=
    ⟨h, List.Pairwise.nil, .refl _, by simp only [AttrTable.ofEmpty]; omega⟩
  refine Represents.run hok ops m _ [] (List.Subset.refl _) (fun t ht => ?_) (.refl m) hstart
  cases ht

end Runs

/-- A laid out record of 1024 bytes. -/
def emptyRecord : List UInt8 :=
  patchAll (List.replicate 1024 0) [(0, [0x46, 0x49, 0x4C, 0x45]), (4, leBytes 2 0x30),
    (6, leBytes 2 3), (0x14, leBytes 2 0x38), (0x18, leBytes 4 0x40), (0x1C, leBytes 4 1024),
    (0x38, endMark)]

theorem emptyRecord_mft : MftRecord emptyRecord [] := by
  refine ⟨?_, ?_, ?_, ?_, ?_, by simp⟩ <;> decide +kernel

/-- A label, a time stamp and a file outside the record; a second file is refused, and a value of
1000 bytes as well. -/
def sampleOps : List RecordOp :=
  [.set .sequenceNumber 3, .insert (.resident 0x60 [] 0 0 (utf16Bytes [0x41])),
    .insert (.resident 0x10 [] 0 0 (List.replicate 48 0)), .set .linkCount 1,
    .insert (.nonResident 0x80 [] 0 1 8192 8000 8000 [0x11, 2, 5, 0]),
    .insert (.nonResident 0x80 [] 0 0 4096 10 10 [0x11, 1, 9, 0]),
    .insert (.resident 0x70 [] 0 0 (List.replicate 1000 0))]

theorem sampleOps_ok : OpsOk emptyRecord.length sampleOps := by
  have hlen : emptyRecord.length = 1024 := by decide +kernel
  rw [hlen]
  decide +kernel

end NtfsKit
