import NtfsKit.Format.VolumeLabel
import NtfsKit.Lib.Packed
import NtfsKit.Lib.SortedScan

/-! The attributes of an MFT record. They lie end to end behind the header, sorted by type, name and
value; `mkntfs_attr_find` walks them, and where it finds no match it stops at the place where the
attribute belongs. To insert one there, the formatter moves up what is behind and fills in the
fields. -/

namespace NtfsKit

/-! ### Searching -/

/-- The name that is looked for. -/
inductive AttrName
  | any
  | unnamed
  | named (name : List UInt16)

/-- The name of the attribute at `a`. -/
def attrNameAt (m : List UInt8) (a : ℕ) : List UInt16 :=
  utf16Units (cut m (a + leAt m (a + 10) 2) (2 * (byteAt m (a + 9)).toNat))

/-- The value of the resident attribute at `a`. -/
def attrValueAt (m : List UInt8) (a : ℕ) : List UInt8 :=
  cut m (a + leAt m (a + 20) 2) (leAt m (a + 16) 4)

/-- `ntfs_names_full_collate` of libntfs with the table of capital letters of a volume: how it
compares two names with `IGNORE_CASE` and with `CASE_SENSITIVE`. Without regard to case the names
are ordered up to case, and the empty one is the first; with regard to case two names that are
equal are the same. -/
structure NameCollation where
  ignoreCase : List UInt16 → List UInt16 → Ordering
  caseSensitive : List UInt16 → List UInt16 → Ordering
  ignoreCase_trans : Std.TransCmp ignoreCase
  ignoreCase_nil : ∀ u us, ignoreCase [] (u :: us) = .lt
  caseSensitive_trans : Std.TransCmp caseSensitive
  caseSensitive_eq : Std.LawfulEqCmp caseSensitive

attribute [instance] NameCollation.ignoreCase_trans NameCollation.caseSensitive_trans
  NameCollation.caseSensitive_eq

/-- How the search compares names: less means that it fails, greater that it goes on. -/
def nameOrder (coll : NameCollation) (name : AttrName) (aname : List UInt16) : Ordering :=
  match name with
  | .any => .eq
  | .unnamed => if aname = [] then .eq else .lt
  | .named n =>
    if n = aname then .eq
    else
      match coll.ignoreCase n aname with
      | .lt => .lt
      | .gt => .gt
      | .eq => coll.caseSensitive n aname

/-- How it compares values: `memcmp` of the common length, then the lengths. -/
def valueOrder (val : Option (List UInt8)) (aval : List UInt8) : Ordering :=
  match val with
  | none => .eq
  | some v =>
    match compare (v.take (min v.length aval.length)) (aval.take (min v.length aval.length)) with
    | .eq =>
      if v.length = aval.length then .eq else if v.length < aval.length then .lt else .gt
    | o => o

/-- How `mkntfs_attr_find` ends; without a match it leaves the place in `ctx->attr`. -/
inductive FindEnd
  | found (a : ℕ)
  | enoent (a : ℕ)
  | eio
  deriving DecidableEq

/-- `mkntfs_attr_find` from offset `a` on. An attribute has a length, so that `fuel` for every byte
of the record is enough. -/
def mkntfsAttrFind (coll : NameCollation) (type : ℕ) (name : AttrName) (val : Option (List UInt8))
    (m : List UInt8) : ℕ → ℕ → FindEnd
  | 0, _ => .eio
  | fuel + 1, a =>
    if leAt m 0x1C 4 < a then .eio
    else if (type ≠ 0 ∧ type < leAt m a 4) ∨ leAt m a 4 = 0xFFFFFFFF then .enoent a
    else if leAt m (a + 4) 4 = 0 then .eio
    else if type = 0 then .found a
    else if leAt m a 4 ≠ type then mkntfsAttrFind coll type name val m fuel (a + leAt m (a + 4) 4)
    else
      match nameOrder coll name (attrNameAt m a) with
      | .lt => .enoent a
      | .gt => mkntfsAttrFind coll type name val m fuel (a + leAt m (a + 4) 4)
      | .eq =>
        match valueOrder val (attrValueAt m a) with
        | .eq => .found a
        | .lt => .enoent a
        | .gt => mkntfsAttrFind coll type name val m fuel (a + leAt m (a + 4) 4)

/-! ### Inserting -/

/-- `make_room_for_attribute`; `none` is `-ENOSPC`. -/
def makeRoomForAttribute (m : List UInt8) (pos size : ℕ) : Option (List UInt8) :=
  if size = 0 then some m
  else
    let biu := leAt m 0x18 4
    if leAt m 0x1C 4 < (biu + size) % 2 ^ 32 then none
    else some (patch (moveUp m pos biu size) 0x18 (leBytes 4 (biu + size)))

/-- An attribute that is to be inserted: what it is looked up by, its size, and the fields with
their offsets in it, given the instance number. -/
structure NewRecord where
  type : ℕ
  name : List UInt16
  val : Option (List UInt8)
  asize : ℕ
  fields : ℕ → List (ℕ × List UInt8)

inductive InsertError
  | eexist
  | eio
  | eopnotsupp
  deriving DecidableEq

/-- Fill in the fields at `pos`, and count up `next_attr_instance`. -/
def NewRecord.fillIn (r : NewRecord) (m : List UInt8) (pos : ℕ) : List UInt8 :=
  patchAll (patch m 0x28 (leBytes 2 (leAt m 0x28 2 + 1)))
    ((r.fields (leAt m 0x28 2)).map fun p => (pos + p.1, p.2))

/-- What `insert_resident_attr_in_mft_record`, `insert_non_resident_attr_in_mft_record` and
`insert_positioned_attr_in_mft_record` do to the record: look the attribute up, make room, fill in
the fields and count up the instance. -/
def insertAttr (coll : NameCollation) (m : List UInt8) (r : NewRecord) :
    Except InsertError (List UInt8) :=
  match mkntfsAttrFind coll r.type (if r.name = [] then .unnamed else .named r.name) r.val m
      m.length (leAt m 0x14 2) with
  | .found _ => .error .eexist
  | .eio => .error .eio
  | .enoent pos =>
    match makeRoomForAttribute m pos r.asize with
    | none => .error .eopnotsupp
    | some m => .ok (r.fillIn m pos)

/-- `(n + 7) & ~7`. -/
def align8 (n : ℕ) : ℕ := (n + 7) / 8 * 8

/-- The attribute of `insert_resident_attr_in_mft_record`. The name of an `OBJECT_ID` has the
offset 0. -/
def residentRecord (type : ℕ) (name : List UInt16) (flags : ℕ) (resFlags : UInt8)
    (val : List UInt8) : NewRecord where
  type := type
  name := name
  val := some val
  asize := align8 (24 + align8 (name.length * 2) + val.length)
  fields inst :=
    [(0, leBytes 4 type), (4, leBytes 4 (align8 (24 + align8 (name.length * 2) + val.length))),
      (8, [0]), (9, [UInt8.ofNat name.length]), (10, leBytes 2 (if type = 0x40 then 0 else 24)),
      (12, leBytes 2 flags), (14, leBytes 2 inst), (16, leBytes 4 val.length),
      (20, leBytes 2 (24 + align8 (name.length * 2))), (22, [resFlags]), (23, [0]),
      (24, utf16Bytes name), (24 + align8 (name.length * 2), val)]

/-- The attribute of `insert_non_resident_attr_in_mft_record` and of
`insert_positioned_attr_in_mft_record`, with its mapping pairs. The room for the name is counted in
characters here, not in bytes. -/
def nonResidentRecord (type : ℕ) (name : List UInt16) (flags highestVcn allocated size inited : ℕ)
    (pairs : List UInt8) : NewRecord where
  type := type
  name := name
  val := none
  asize := align8 (64 + align8 name.length + pairs.length)
  fields inst :=
    [(0, leBytes 4 type), (4, leBytes 4 (align8 (64 + align8 name.length + pairs.length))),
      (8, [1]), (9, [UInt8.ofNat name.length]), (10, leBytes 2 64), (12, leBytes 2 flags),
      (14, leBytes 2 inst), (16, leBytes 8 0), (24, leBytes 8 highestVcn),
      (32, leBytes 2 (64 + align8 name.length)), (34, [0]), (35, List.replicate 5 0),
      (40, leBytes 8 allocated), (48, leBytes 8 size), (56, leBytes 8 inited),
      (64, utf16Bytes name), (64 + align8 name.length, pairs)]

/-! ### Attributes in a record -/

/-- What the attributes are sorted by. -/
structure AttrKey where
  type : ℕ
  name : List UInt16
  value : List UInt8

/-- The order of things by their names: without regard to case, then with it. -/
def NameCollation.order {α : Type} (coll : NameCollation) (name : α → List UInt16) :
    α → α → Ordering :=
  compareLex (fun x y => coll.ignoreCase (name x) (name y))
    (fun x y => coll.caseSensitive (name x) (name y))

theorem transCmp_on {α β : Type} (cmp : α → α → Ordering) [Std.TransCmp cmp] (f : β → α) :
    Std.TransCmp fun x y => cmp (f x) (f y) where
  eq_swap := Std.OrientedCmp.eq_swap
  isLE_trans := Std.TransCmp.isLE_trans

instance {α : Type} (coll : NameCollation) (name : α → List UInt16) :
    Std.TransCmp (coll.order name) :=
  have := transCmp_on coll.ignoreCase name
  have := transCmp_on coll.caseSensitive name
  inferInstanceAs (Std.TransCmp (compareLex _ _))

/-- Names that are equal in both ways are the same. -/
theorem NameCollation.then_eq {coll : NameCollation} {n n' : List UInt16} :
    (coll.ignoreCase n n').then (coll.caseSensitive n n') = .eq ↔ n = n' := by
  rw [Ordering.then_eq_eq]
  refine ⟨fun h => Std.LawfulEqCmp.compare_eq_iff_eq.mp h.2, ?_⟩
  rintro rfl
  exact ⟨Std.ReflCmp.compare_self, Std.ReflCmp.compare_self⟩

/-- The collation by a table of capital letters. -/
def NameCollation.upcase (up : UInt16 → UInt16) : NameCollation where
  ignoreCase := compareOn fun n => n.map up
  caseSensitive := compareLex (compareOn fun n => n.map up) compare
  ignoreCase_trans := inferInstance
  ignoreCase_nil _ _ := rfl
  caseSensitive_trans := inferInstance
  caseSensitive_eq :=
    { compare_self := Std.ReflCmp.compare_self
      eq_of_compare := fun h => Std.LawfulEqCmp.compare_eq_iff_eq.mp (compareLex_eq_eq.mp h).2 }

/-- The order of types and names. -/
def compareHead (coll : NameCollation) : AttrKey → AttrKey → Ordering :=
  compareLex (compareOn AttrKey.type) (coll.order AttrKey.name)

def compareKey (coll : NameCollation) : AttrKey → AttrKey → Ordering :=
  compareLex (compareHead coll) (compareOn AttrKey.value)

instance (coll : NameCollation) : Std.TransCmp (compareHead coll) :=
  inferInstanceAs (Std.TransCmp (compareLex _ _))

instance (coll : NameCollation) : Std.TransCmp (compareKey coll) :=
  inferInstanceAs (Std.TransCmp (compareLex _ _))

/-- The key of an attribute; of one outside the record the value does not count. -/
def attrKey (x : List UInt8) : AttrKey :=
  ⟨leAt x 0 4, attrNameAt x 0, if byteAt x 8 = 0 then attrValueAt x 0 else []⟩

/-- An attribute as it lies in a record. -/
structure AttrOk (x : List UInt8) : Prop where
  length_ge : 24 ≤ x.length
  length_eq : leAt x 4 4 = x.length
  not_end : leAt x 0 4 ≠ 0xFFFFFFFF
  name_fits : leAt x 10 2 + 2 * (byteAt x 9).toNat ≤ x.length
  value_ofs : byteAt x 8 = 0 → 24 ≤ leAt x 20 2
  value_fits : byteAt x 8 = 0 → leAt x 20 2 + leAt x 16 4 ≤ x.length

/-- `AT_END` and a length of 0. -/
def endMark : List UInt8 := leBytes 4 0xFFFFFFFF ++ leBytes 4 0

/-- A record with these attributes. -/
structure MftRecord (m : List UInt8) (attrs : List (List UInt8)) : Prop where
  start_ge : 0x2A ≤ leAt m 0x14 2
  allocated : leAt m 0x1C 4 = m.length
  in_use : leAt m 0x18 4 = leAt m 0x14 2 + attrs.flatten.length + 8
  fits : leAt m 0x14 2 + attrs.flatten.length + 8 ≤ m.length
  holds : Holds m (leAt m 0x14 2) (attrs.flatten ++ endMark)
  ok : ∀ x ∈ attrs, AttrOk x

/-- The key of an attribute that is to be inserted. -/
def NewRecord.key (r : NewRecord) : AttrKey := ⟨r.type, r.name, r.val.getD []⟩

/-- How the search for an attribute compares it with another. -/
def NewRecord.order (coll : NameCollation) (r : NewRecord) (x : List UInt8) : Ordering :=
  match compare r.type (leAt x 0 4) with
  | .eq =>
    match nameOrder coll (if r.name = [] then .unnamed else .named r.name) (attrNameAt x 0) with
    | .eq => valueOrder r.val (attrValueAt x 0)
    | o => o
  | o => o

/-- An attribute outside the record has no value to be compared with. -/
def NewRecord.Comparable (r : NewRecord) (x : List UInt8) : Prop :=
  leAt x 0 4 = r.type → attrNameAt x 0 = r.name → r.val = none ∨ byteAt x 8 = 0

section Search

variable {coll : NameCollation} {m x : List UInt8} {a : ℕ}

theorem attrNameAt_eq (h : Holds m a x) (hm : a + x.length ≤ m.length) (hx : AttrOk x) :
    attrNameAt m a = attrNameAt x 0 := by
  have h9 : byteAt m (a + 9) = byteAt x 9 := h 9 (by have := hx.length_ge; omega)
  have h10 : leAt m (a + 10) 2 = leAt x 10 2 :=
    h.leAt_inside (by have := hx.length_ge; omega)
  rw [attrNameAt, attrNameAt, Nat.zero_add, Nat.zero_add, Nat.zero_add, h9, h10,
    h.cut_inside hm hx.name_fits]

theorem attrValueAt_eq (h : Holds m a x) (hm : a + x.length ≤ m.length) (hx : AttrOk x)
    (hres : byteAt x 8 = 0) : attrValueAt m a = attrValueAt x 0 := by
  have h16 : leAt m (a + 16) 4 = leAt x 16 4 := h.leAt_inside (by have := hx.length_ge; omega)
  have h20 : leAt m (a + 20) 2 = leAt x 20 2 := h.leAt_inside (by have := hx.length_ge; omega)
  rw [attrValueAt, attrValueAt, Nat.zero_add, Nat.zero_add, Nat.zero_add, h16, h20,
    h.cut_inside hm (hx.value_fits hres)]

theorem nameOrder_eq (coll : NameCollation) (n n' : List UInt16) :
    nameOrder coll (if n = [] then .unnamed else .named n) n' =
      (coll.ignoreCase n n').then (coll.caseSensitive n n') := by
  have hself : (coll.ignoreCase n n).then (coll.caseSensitive n n) = .eq :=
    NameCollation.then_eq.mpr rfl
  by_cases hn : n = []
  · subst hn
    cases n' with
    | nil => rw [hself, if_pos rfl, nameOrder, if_pos rfl]
    | cons u us => simp [nameOrder, coll.ignoreCase_nil]
  · rw [if_neg hn, nameOrder]
    split_ifs with heq
    · rw [← heq, hself]
    · cases coll.ignoreCase n n' <;> rfl

theorem eq_of_nameOrder {n n' : List UInt16}
    (h : nameOrder coll (if n = [] then .unnamed else .named n) n' = .eq) : n = n' := by
  rw [nameOrder_eq] at h
  exact NameCollation.then_eq.mp h

/-- `memcmp` and then the lengths: the order of byte strings. -/
theorem valueOrder_some (v w : List UInt8) : valueOrder (some v) w = compare v w := by
  induction v generalizing w with
  | nil =>
    cases w with
    | nil => rfl
    | cons b w => simp [valueOrder]
  | cons a v ih =>
    cases w with
    | nil => simp [valueOrder]
    | cons b w =>
      have ih' := ih w
      simp only [valueOrder, List.length_cons, Nat.add_min_add_right, List.take_succ_cons,
        List.compare_cons_cons, Nat.add_right_cancel_iff, Nat.add_lt_add_iff_right] at ih' ⊢
      rw [← ih']
      cases compare a b <;> rfl

theorem NewRecord.order_eq {r : NewRecord} : r.order coll x =
    (compareHead coll r.key (attrKey x)).then (valueOrder r.val (attrValueAt x 0)) := by
  have hhead : compareHead coll r.key (attrKey x) = (compare r.type (leAt x 0 4)).then
      ((coll.ignoreCase r.name (attrNameAt x 0)).then
        (coll.caseSensitive r.name (attrNameAt x 0))) := rfl
  rw [NewRecord.order, hhead, nameOrder_eq]
  cases compare r.type (leAt x 0 4) with
  | lt => rfl
  | gt => rfl
  | eq =>
    cases coll.ignoreCase r.name (attrNameAt x 0) with
    | lt => rfl
    | gt => rfl
    | eq => cases coll.caseSensitive r.name (attrNameAt x 0) <;> rfl

/-- A search by type and name only. -/
theorem NewRecord.order_none {r : NewRecord} (hr : r.val = none) :
    r.order coll x = compareHead coll r.key (attrKey x) := by
  rw [NewRecord.order_eq, hr]
  cases compareHead coll r.key (attrKey x) <;> rfl

/-- Two keys with the same type and name. -/
theorem compareHead_eq {k k' : AttrKey} :
    compareHead coll k k' = .eq ↔ k.type = k'.type ∧ k.name = k'.name := by
  rw [compareHead, compareLex_eq_eq, compareOn, Std.LawfulEqCmp.compare_eq_iff_eq]
  exact and_congr_right fun _ => NameCollation.then_eq

/-- A search by value as well. -/
theorem NewRecord.order_some {r : NewRecord} {v : List UInt8} (hr : r.val = some v)
    (hc : r.Comparable x) : r.order coll x = compareKey coll r.key (attrKey x) := by
  have hkey : compareKey coll r.key (attrKey x) =
      (compareHead coll r.key (attrKey x)).then (compare r.key.value (attrKey x).value) := rfl
  rw [NewRecord.order_eq, hkey]
  cases hhead : compareHead coll r.key (attrKey x) with
  | lt => rfl
  | gt => rfl
  | eq =>
    obtain ⟨htype, hname⟩ := compareHead_eq.mp hhead
    have hres : byteAt x 8 = 0 :=
      (hc htype.symm hname.symm).resolve_left (by rw [hr]; simp)
    rw [hr, valueOrder_some, NewRecord.key, attrKey, if_pos hres, hr]
    rfl

/-- A search that does not find an attribute tells how the new one compares with it. -/
theorem NewRecord.compareKey_eq {r : NewRecord} (hc : r.Comparable x) (hne : r.order coll x ≠ .eq) :
    compareKey coll r.key (attrKey x) = r.order coll x := by
  cases hr : r.val with
  | some v => rw [r.order_some hr hc]
  | none =>
    rw [r.order_none hr] at hne ⊢
    have hkey : compareKey coll r.key (attrKey x) =
        (compareHead coll r.key (attrKey x)).then (compare r.key.value (attrKey x).value) := rfl
    rw [hkey]
    cases hhead : compareHead coll r.key (attrKey x) with
    | lt => rfl
    | gt => rfl
    | eq => exact absurd hhead hne

/-- Behind an attribute that is greater all are. -/
theorem NewRecord.order_mono {r : NewRecord} {y : List UInt8} (hx : r.Comparable x)
    (hy : r.Comparable y) (h : compareKey coll (attrKey x) (attrKey y) = .lt)
    (hlt : r.order coll x = .lt) : r.order coll y = .lt := by
  cases hr : r.val with
  | some v =>
    rw [r.order_some hr hx] at hlt
    rw [r.order_some hr hy]
    exact Std.TransCmp.lt_trans hlt h
  | none =>
    rw [r.order_none hr] at hlt ⊢
    have hle : (compareHead coll (attrKey x) (attrKey y)).isLE = true := by
      have hkey : (compareHead coll (attrKey x) (attrKey y)).then
          (compare (attrKey x).value (attrKey y).value) = .lt := h
      cases hhead : compareHead coll (attrKey x) (attrKey y) with
      | lt => rfl
      | eq => rfl
      | gt =>
        rw [hhead] at hkey
        cases hkey
    exact Std.TransCmp.lt_of_lt_of_isLE hlt hle

/-- The offset of attribute `i` from the first one. -/
def attrOffset (attrs : List (List UInt8)) (i : ℕ) : ℕ := (attrs.take i).flatten.length

@[simp] theorem attrOffset_zero (attrs : List (List UInt8)) : attrOffset attrs 0 = 0 := by
  simp [attrOffset]

theorem attrOffset_cons (x : List UInt8) (attrs : List (List UInt8)) (i : ℕ) :
    attrOffset (x :: attrs) (i + 1) = x.length + attrOffset attrs i := by
  simp [attrOffset]

/-- Where a search in the list ends in the record. -/
def Spot.findEnd (a : ℕ) (attrs : List (List UInt8)) : Spot → FindEnd
  | .found i => .found (a + attrOffset attrs i)
  | .gap i => .enoent (a + attrOffset attrs i)

theorem Spot.findEnd_next (a : ℕ) (x : List UInt8) (attrs : List (List UInt8)) (s : Spot) :
    s.next.findEnd a (x :: attrs) = s.findEnd (a + x.length) attrs := by
  cases s <;> simp [Spot.next, Spot.findEnd, attrOffset_cons, Nat.add_assoc]

/-- `mkntfs_attr_find` searches the list of attributes. -/
theorem mkntfsAttrFind_eq {r : NewRecord} (hr : 0 < r.type) (hr' : r.type < 0xFFFFFFFF)
    (hm : leAt m 0x1C 4 = m.length) (attrs : List (List UInt8)) :
    ∀ fuel a, attrs.length < fuel → (∀ x ∈ attrs, AttrOk x) → (∀ x ∈ attrs, r.Comparable x) →
      a + (attrs.flatten ++ endMark).length ≤ m.length → Holds m a (attrs.flatten ++ endMark) →
      mkntfsAttrFind coll r.type (if r.name = [] then .unnamed else .named r.name) r.val m fuel a =
        (scan (r.order coll) attrs).findEnd a attrs := by
  induction attrs with
  | nil =>
    intro fuel a hfuel _ _ hlen hh
    obtain ⟨fuel, rfl⟩ : ∃ k, fuel = k + 1 := ⟨fuel - 1, by simp at hfuel; omega⟩
    have hmark : Holds m a (leBytes 4 0xFFFFFFFF ++ leBytes 4 0) := hh
    have hend : leAt m a 4 = 0xFFFFFFFF := hmark.append_left.leAt_of_lt (by decide)
    have ha : ¬ m.length < a := by omega
    rw [mkntfsAttrFind, hm, if_neg ha, if_pos (.inr hend)]
    simp [scan, Spot.findEnd]
  | cons x attrs ih =>
    intro fuel a hfuel hok hcomp hlen hh
    obtain ⟨fuel, rfl⟩ : ∃ k, fuel = k + 1 := ⟨fuel - 1, by simp at hfuel; omega⟩
    have hx := hok x List.mem_cons_self
    have hge := hx.length_ge
    rw [List.flatten_cons, List.append_assoc] at hh hlen
    rw [List.length_append] at hlen
    have hhx : Holds m a x := hh.append_left
    have htype : leAt m a 4 = leAt x 0 4 := hhx.leAt_inside (i := 0) (by omega)
    have hlength : leAt m (a + 4) 4 = x.length :=
      (hhx.leAt_inside (by omega)).trans hx.length_eq
    have hrest := ih fuel (a + x.length) (by simp at hfuel; omega)
      (fun y hy => hok y (List.mem_cons_of_mem x hy))
      (fun y hy => hcomp y (List.mem_cons_of_mem x hy)) (by omega) hh.append_right
    have hname := attrNameAt_eq hhx (by omega) hx
    have hend := hx.not_end
    have hcmp := hcomp x List.mem_cons_self
    rw [mkntfsAttrFind, hm, htype, hlength, if_neg (by omega), hname, hrest]
    simp only [scan, NewRecord.order]
    rcases lt_trichotomy r.type (leAt x 0 4) with hlt | heq | hgt
    · rw [if_pos (.inl ⟨hr.ne', hlt⟩), compare_lt_iff_lt.mpr hlt]
      simp [Spot.findEnd]
    · rw [if_neg (by omega), if_neg (by omega), if_neg hr.ne', if_neg (by omega),
        compare_eq_iff_eq.mpr heq]
      dsimp only
      cases hn : nameOrder coll (if r.name = [] then .unnamed else .named r.name)
          (attrNameAt x 0) with
      | lt => simp [Spot.findEnd]
      | gt => simp only [Spot.findEnd_next]
      | eq =>
        dsimp only
        have hval : valueOrder r.val (attrValueAt m a) = valueOrder r.val (attrValueAt x 0) := by
          rcases hcmp heq.symm (eq_of_nameOrder hn).symm with hnone | hres
          · rw [hnone]
            rfl
          · rw [attrValueAt_eq hhx (by omega) hx hres]
        rw [hval]
        cases valueOrder r.val (attrValueAt x 0) with
        | lt => simp [Spot.findEnd]
        | gt => simp only [Spot.findEnd_next]
        | eq => simp [Spot.findEnd]
    · rw [if_neg (by omega), if_neg (by omega), if_neg hr.ne', if_pos (by omega),
        compare_gt_iff_gt.mpr hgt]
      simp only [Spot.findEnd_next]

end Search

/-! ### Records with a new attribute -/

/-- A block that holds the fields is the attribute: it lies in a record as it should, and has the
key it is looked up by. -/
structure NewRecord.Ok (r : NewRecord) : Prop where
  type_pos : 0 < r.type
  type_lt : r.type < 0xFFFFFFFF
  size_ge : 24 ≤ r.asize
  laid : ∀ inst, Laid r.asize (r.fields inst)
  describes : ∀ inst y, y.length = r.asize → (∀ p ∈ r.fields inst, Holds y p.1 p.2) →
    AttrOk y ∧ attrKey y = r.key ∧ (byteAt y 8 = 0 ↔ r.val.isSome)

section Insert

variable {coll : NameCollation} {m : List UInt8} {pre post : List (List UInt8)} {r : NewRecord}

/-- A record in which an attribute is filled in, byte by byte: outside of the attribute and of the
two counters of the header stands what was moved. -/
structure Inserted (r : NewRecord) (m : List UInt8) (pos biu : ℕ) (m' : List UInt8) : Prop where
  length : m'.length = m.length
  moved : ∀ i, (i < 0x18 ∨ 0x1C ≤ i) → (i < 0x28 ∨ 0x2A ≤ i) → (i < pos ∨ pos + r.asize ≤ i) →
    byteAt m' i = byteAt (moveUp m pos biu r.asize) i
  count : Holds m' 0x18 (leBytes 4 (biu + r.asize))
  fields : ∃ inst, ∀ p ∈ r.fields inst, Holds m' (pos + p.1) p.2

theorem NewRecord.Ok.inserted (hr : r.Ok) {pos biu : ℕ} (hpos : 0x2A ≤ pos) (hbiu : pos ≤ biu)
    (hfit : biu + r.asize ≤ m.length) : Inserted r m pos biu
      (r.fillIn (patch (moveUp m pos biu r.asize) 0x18 (leBytes 4 (biu + r.asize))) pos) := by
  rw [NewRecord.fillIn]
  generalize leAt (patch (moveUp m pos biu r.asize) 0x18 (leBytes 4 (biu + r.asize))) 0x28 2 = inst
  have hlaid := hr.laid inst
  have hshift : Laid m.length ((r.fields inst).map fun p => (pos + p.1, p.2)) :=
    hlaid.shift (by omega)
  have hlen : (moveUp m pos biu r.asize).length = m.length := length_moveUp hbiu hfit
  have hfour : (leBytes 4 (biu + r.asize)).length = 4 := length_leBytes _ _
  have htwo : (leBytes 2 (inst + 1)).length = 2 := length_leBytes _ _
  have hlen₁ : (patch (moveUp m pos biu r.asize) 0x18 (leBytes 4 (biu + r.asize))).length =
      m.length := by
    rw [length_patch (by omega), hlen]
  have hlen₂ : (patch (patch (moveUp m pos biu r.asize) 0x18 (leBytes 4 (biu + r.asize))) 0x28
      (leBytes 2 (inst + 1))).length = m.length := by
    rw [length_patch (by omega), hlen₁]
  rw [← hlen₂] at hshift
  have houtside : ∀ i, (i < pos ∨ pos + r.asize ≤ i) →
      ∀ p ∈ (r.fields inst).map fun p => (pos + p.1, p.2), i < p.1 ∨ p.1 + p.2.length ≤ i := by
    intro i hi p hp
    obtain ⟨q, hq, rfl⟩ := List.mem_map.mp hp
    have := hlaid.1 q hq
    dsimp only
    omega
  refine ⟨by rw [length_patchAll hshift.1, hlen₂], fun i h1 h2 h3 => ?_, ?_, inst, fun p hp => ?_⟩
  · rw [byteAt_patchAll hshift.1 (houtside i h3), byteAt_patch (by omega), if_neg (by omega),
      byteAt_patch (by omega), if_neg (by omega)]
  · have hcount : Holds (patch (moveUp m pos biu r.asize) 0x18 (leBytes 4 (biu + r.asize))) 0x18
        (leBytes 4 (biu + r.asize)) := holds_patch (by omega)
    refine hcount.congr fun i h1 h2 => ?_
    rw [byteAt_patchAll hshift.1 (houtside i (by omega)), byteAt_patch (by omega),
      if_neg (by omega)]
  · exact holds_patchAll hshift _ (List.mem_map.mpr ⟨p, hp, rfl⟩)

/-- The header in front of the counters stays. -/
theorem Inserted.header_eq {attrs : List (List UInt8)} {n biu : ℕ} {m' : List UInt8}
    (h : Inserted r m (leAt m 0x14 2 + n) biu m') (hm : MftRecord m attrs)
    (hn : leAt m 0x14 2 + n ≤ biu) (hfit : biu + r.asize ≤ m.length) :
    ∀ i < 0x18, byteAt m' i = byteAt m i := by
  have hstart := hm.start_ge
  intro i hi
  rw [h.moved _ (by omega) (by omega) (by omega), byteAt_moveUp hn hfit, if_neg (by omega)]

/-- Insert an attribute behind those of `pre`. -/
theorem MftRecord.insert (h : MftRecord m (pre ++ post)) (hr : r.Ok) (hm : m.length < 2 ^ 32)
    {pos biu : ℕ} (hpos : pos = leAt m 0x14 2 + pre.flatten.length) (hbiu : biu = leAt m 0x18 4)
    (hfit : biu + r.asize ≤ m.length) {m' : List UInt8} (hm' : Inserted r m pos biu m') :
    MftRecord m' (pre ++ cut m' pos r.asize :: post) ∧
      (cut m' pos r.asize).length = r.asize ∧ attrKey (cut m' pos r.asize) = r.key ∧
      (byteAt (cut m' pos r.asize) 8 = 0 ↔ r.val.isSome) := by
  have hstart := h.start_ge
  have huse := h.in_use
  have hmark : endMark.length = 8 := rfl
  rw [List.flatten_append, List.length_append] at huse
  have hle : pos ≤ biu := by omega
  have hlen := hm'.length
  have hycut : (cut m' pos r.asize).length = r.asize := length_cut (by omega)
  have hheader : ∀ i, i < 0x18 ∨ (0x1C ≤ i ∧ i < 0x28) → byteAt m' i = byteAt m i := by
    intro i hi
    rw [hm'.moved i (by omega) (by omega) (by omega), byteAt_moveUp hle hfit, if_neg (by omega)]
  have hofs : leAt m' 0x14 2 = leAt m 0x14 2 := leAt_congr fun i hi => hheader _ (by omega)
  have hbefore : Holds m (leAt m 0x14 2) (pre.flatten ++ (post.flatten ++ endMark)) := by
    rw [← List.append_assoc, ← List.flatten_append]
    exact h.holds
  have hafter : Holds m' (leAt m 0x14 2)
      (pre.flatten ++ (cut m' pos r.asize ++ (post.flatten ++ endMark))) := by
    refine hbefore.insert_between hpos ?_ hfit hlen fun i h1 h2 =>
      hm'.moved i (by omega) (by omega) h2
    rw [List.length_append]
    omega
  obtain ⟨inst, hfields⟩ := hm'.fields
  obtain ⟨hyok, hykey, hyres⟩ := hr.describes inst (cut m' pos r.asize) hycut fun p hp =>
    (hfields p hp).of_cut ((hr.laid inst).1 p hp)
  have hflat : (pre ++ cut m' pos r.asize :: post).flatten.length =
      pre.flatten.length + r.asize + post.flatten.length := by
    simp only [List.flatten_append, List.flatten_cons, List.length_append, hycut]
    omega
  refine ⟨⟨by omega, ?_, ?_, ?_, ?_, ?_⟩, hycut, hykey, hyres⟩
  · rw [hlen, ← h.allocated]
    exact leAt_congr fun i hi => hheader _ (by omega)
  · rw [hm'.count.leAt_of_lt (by omega), hofs, hflat]
    omega
  · rw [hofs, hflat]
    omega
  · rw [hofs, List.flatten_append, List.flatten_cons, List.append_assoc, List.append_assoc]
    exact hafter
  · intro x hx
    rcases List.mem_append.mp hx with hx | hx
    · exact h.ok x (List.mem_append_left _ hx)
    · rcases List.mem_cons.mp hx with rfl | hx
      · exact hyok
      · exact h.ok x (List.mem_append_right _ hx)

/-- The attributes of a record are sorted. -/
def AttrsSorted (coll : NameCollation) (attrs : List (List UInt8)) : Prop :=
  SortedBy (compareKey coll) attrKey attrs

theorem MftRecord.fuel {attrs : List (List UInt8)} (h : MftRecord m attrs) :
    attrs.length < m.length := by
  have hflat := length_le_flatten fun x hx => (h.ok x hx).length_ge
  have := h.fits
  omega

/-- One insertion: an attribute that is there already is refused, one that does not fit as well;
any other is put in its place. -/
theorem insertAttr_spec {attrs : List (List UInt8)} (h : MftRecord m attrs)
    (hs : AttrsSorted coll attrs) (hr : r.Ok) (hc : ∀ x ∈ attrs, r.Comparable x)
    (hm : m.length + r.asize < 2 ^ 32) :
    ((∃ x ∈ attrs, r.order coll x = .eq) ∧ insertAttr coll m r = .error .eexist) ∨
    ((∀ x ∈ attrs, r.order coll x ≠ .eq) ∧ m.length < leAt m 0x18 4 + r.asize ∧
      insertAttr coll m r = .error .eopnotsupp) ∨
    ((∀ x ∈ attrs, r.order coll x ≠ .eq) ∧ leAt m 0x18 4 + r.asize ≤ m.length ∧
      ∃ m' pre y post, attrs = pre ++ post ∧ insertAttr coll m r = .ok m' ∧
        MftRecord m' (pre ++ y :: post) ∧ AttrsSorted coll (pre ++ y :: post) ∧
        y.length = r.asize ∧ attrKey y = r.key ∧ (byteAt y 8 = 0 ↔ r.val.isSome) ∧
        m'.length = m.length ∧ ∀ i < 0x18, byteAt m' i = byteAt m i) := by
  have huse := h.in_use
  have hfits := h.fits
  have hfind : mkntfsAttrFind coll r.type (if r.name = [] then .unnamed else .named r.name) r.val m
      m.length (leAt m 0x14 2) = (scan (r.order coll) attrs).findEnd (leAt m 0x14 2) attrs :=
    mkntfsAttrFind_eq hr.type_pos hr.type_lt h.allocated attrs _ _ h.fuel h.ok hc
      (by rw [List.length_append]; exact hfits) h.holds
  obtain ⟨pre, post, rfl, hpre, hcases⟩ := scan_cases (r.order coll) attrs
  rcases hcases with ⟨hscan, hpost⟩ | ⟨hscan, x, rest, rfl, hx⟩
  · right
    have hnot := hs.not_found hpre hpost fun x hx y hy => r.order_mono (hc x hx) (hc y hy)
    have hoff : attrOffset (pre ++ post) pre.length = pre.flatten.length := by
      simp [attrOffset]
    have hlen : leAt m 0x18 4 + r.asize < 2 ^ 32 := by omega
    by_cases hroom : leAt m 0x18 4 + r.asize ≤ m.length
    · right
      have hins : Inserted r m (leAt m 0x14 2 + pre.flatten.length) (leAt m 0x18 4) _ :=
        hr.inserted (by have := h.start_ge; omega)
          (by rw [List.flatten_append, List.length_append] at huse; omega) hroom
      obtain ⟨hrec, hylen, hykey, hyres⟩ := h.insert hr (by omega) rfl rfl hroom hins
      refine ⟨hnot, hroom, _, pre, _, post, rfl, ?_, hrec, ?_, hylen, hykey, hyres, hins.length,
        hins.header_eq h (by rw [List.flatten_append, List.length_append] at huse; omega) hroom⟩
      · rw [insertAttr, hfind, hscan]
        simp only [Spot.findEnd, hoff, makeRoomForAttribute, Nat.mod_eq_of_lt hlen, h.allocated]
        rw [if_neg (by have := hr.size_ge; omega), if_neg (by omega)]
      · refine hs.insert (fun y hy => ?_) fun y hy => ?_
        · have hgt : compareKey coll r.key (attrKey y) = .gt := by
            rw [r.compareKey_eq (hc y (by simp [hy])) (hnot y (by simp [hy])), hpre y hy]
          rw [hykey]
          exact Std.OrientedCmp.gt_iff_lt.mp hgt
        · have hmem : y ∈ post := List.mem_of_mem_head? hy
          rw [hykey, r.compareKey_eq (hc y (by simp [hmem])) (hnot y (by simp [hmem])), hpost y hy]
    · left
      refine ⟨hnot, not_le.mp hroom, ?_⟩
      rw [insertAttr, hfind, hscan]
      simp only [Spot.findEnd, hoff, makeRoomForAttribute, Nat.mod_eq_of_lt hlen, h.allocated]
      rw [if_neg (by have := hr.size_ge; omega), if_pos (not_le.mp hroom)]
  · left
    refine ⟨⟨x, by simp, hx⟩, ?_⟩
    rw [insertAttr, hfind, hscan]
    rfl

end Insert

/-! ### The attributes of the formatter -/

theorem le_align8 (n : ℕ) : n ≤ align8 n := by
  unfold align8
  omega

/-- A byte of a block that holds it as a field. -/
theorem Holds.byte {b : List UInt8} {o : ℕ} {c : UInt8} (h : Holds b o [c]) : byteAt b o = c :=
  h 0 (by simp)

/-- The value that stands in a block. -/
theorem Holds.cut_eq {b x : List UInt8} {o n : ℕ} (h : Holds b o x) (hn : x.length = n)
    (hb : o + n ≤ b.length) : cut b o n = x := by
  subst hn
  exact h.slice hb

/-- What `insert_resident_attr_in_mft_record` fills in is a resident attribute with its name and
its value. -/
theorem residentRecord_ok {type : ℕ} {name : List UInt16} {flags : ℕ} {resFlags : UInt8}
    {val : List UInt8} (h0 : 0 < type) (hend : type < 0xFFFFFFFF) (hname : name.length < 256)
    (hid : type = 0x40 → name = [])
    (hsize : align8 (24 + align8 (name.length * 2) + val.length) < 2 ^ 32) :
    (residentRecord type name flags resFlags val).Ok := by
  have hal := le_align8 (name.length * 2)
  have hal' := le_align8 (24 + align8 (name.length * 2) + val.length)
  have hbytes := length_utf16Bytes name
  refine ⟨h0, hend, ?_, fun inst => ?_, fun inst y hy hf => ?_⟩
  · change 24 ≤ align8 _
    omega
  · refine Laid.of_chain ?_ ?_
    · simp only [residentRecord, List.isChain_cons_cons, length_leBytes, List.length_singleton,
        hbytes, List.isChain_singleton, and_true]
      omega
    · simp only [residentRecord, List.forall_mem_cons, length_leBytes, List.length_singleton,
        hbytes, List.not_mem_nil, false_imp_iff, implies_true, and_true]
      omega
  · simp only [residentRecord, List.forall_mem_cons, List.not_mem_nil, false_imp_iff, implies_true,
      and_true] at hf hy
    obtain ⟨htype, hlength, hres, hnlen, hnofs, -, -, hvlen, hvofs, -, -, hn, hv⟩ := hf
    have hcount : (byteAt y 9).toNat = name.length := by
      rw [hnlen.byte, UInt8.toNat_ofNat', Nat.mod_eq_of_lt hname]
    have hvlen' : leAt y 16 4 = val.length := hvlen.leAt_of_lt (by omega)
    have hvofs' : leAt y 20 2 = 24 + align8 (name.length * 2) :=
      hvofs.leAt_of_lt (by unfold align8; omega)
    have hnofs' : leAt y 10 2 = if type = 0x40 then 0 else 24 :=
      hnofs.leAt_of_lt (by split_ifs <;> decide)
    have hnofs_le : leAt y 10 2 ≤ 24 := by rw [hnofs']; split_ifs <;> omega
    refine ⟨⟨by omega, ?_, ?_, by omega, fun _ => by omega, fun _ => by omega⟩, ?_,
      by simp [residentRecord, hres.byte]⟩
    · rw [hlength.leAt_of_lt hsize, hy]
    · rw [htype.leAt_of_lt (by omega)]
      exact hend.ne
    · have hnames : attrNameAt y 0 = name := by
        rw [attrNameAt, Nat.zero_add, Nat.zero_add, Nat.zero_add, hcount, hnofs']
        split_ifs with h40
        · rw [hid h40]
          rfl
        · rw [hn.cut_eq hbytes (by omega), utf16Units_bytes]
      rw [attrKey, htype.leAt_of_lt (by omega), hnames, if_pos hres.byte, attrValueAt, Nat.zero_add,
        Nat.zero_add, Nat.zero_add, hvlen', hvofs', hv.cut_eq rfl (by omega)]
      rfl

/-- What the other two fill in is an attribute outside the record, if its name has no more than
four characters: the mapping pairs of one with a longer name are written over it. -/
theorem nonResidentRecord_ok {type : ℕ} {name : List UInt16}
    {flags highestVcn allocated size inited : ℕ} {pairs : List UInt8} (h0 : 0 < type)
    (hend : type < 0xFFFFFFFF) (hname : name.length ≤ 4)
    (hsize : align8 (64 + align8 name.length + pairs.length) < 2 ^ 32) :
    (nonResidentRecord type name flags highestVcn allocated size inited pairs).Ok := by
  have hal : 2 * name.length ≤ align8 name.length := by
    unfold align8
    omega
  have hal' := le_align8 (64 + align8 name.length + pairs.length)
  have hbytes := length_utf16Bytes name
  refine ⟨h0, hend, ?_, fun inst => ?_, fun inst y hy hf => ?_⟩
  · change 24 ≤ align8 _
    omega
  · refine Laid.of_chain ?_ ?_
    · simp only [nonResidentRecord, List.isChain_cons_cons, length_leBytes, List.length_singleton,
        List.length_replicate, hbytes, List.isChain_singleton, and_true]
      omega
    · simp only [nonResidentRecord, List.forall_mem_cons, length_leBytes, List.length_singleton,
        List.length_replicate, hbytes, List.not_mem_nil, false_imp_iff, implies_true, and_true]
      omega
  · simp only [nonResidentRecord, List.forall_mem_cons, List.not_mem_nil, false_imp_iff,
      implies_true, and_true] at hf hy
    obtain ⟨htype, hlength, hres, hnlen, hnofs, -, -, -, -, -, -, -, -, -, -, hn, -⟩ := hf
    have hcount : (byteAt y 9).toNat = name.length := by
      rw [hnlen.byte, UInt8.toNat_ofNat', Nat.mod_eq_of_lt (by omega)]
    have hnofs' : leAt y 10 2 = 64 := hnofs.leAt_of_lt (by decide)
    have hres' : byteAt y 8 ≠ 0 := by rw [hres.byte]; decide
    refine ⟨⟨by omega, ?_, ?_, by omega, fun h => absurd h hres', fun h => absurd h hres'⟩, ?_,
      by simp [nonResidentRecord, hres']⟩
    · rw [hlength.leAt_of_lt hsize, hy]
    · rw [htype.leAt_of_lt (by omega)]
      exact hend.ne
    · have hnames : attrNameAt y 0 = name := by
        rw [attrNameAt, Nat.zero_add, Nat.zero_add, Nat.zero_add, hcount, hnofs',
          hn.cut_eq hbytes (by omega), utf16Units_bytes]
      rw [attrKey, htype.leAt_of_lt (by omega), hnames, if_neg hres']
      rfl

end NtfsKit
