import NtfsKit.Format.MftRecord

/-! The index block of the root directory. Its entries lie end to end, sorted by their names without
regard to case, and the last of them is an end without a name. A new link goes in front of the first
entry that is greater; a name that is there already is refused. -/

namespace NtfsKit

/-! ### Searching -/

/-- The name in the `FILE_NAME` at `a`. -/
def fileNameAt (b : List UInt8) (a : ℕ) : List UInt16 :=
  utf16Units (cut b (a + 66) (2 * (byteAt b (a + 64)).toNat))

def fileNameTypeAt (b : List UInt8) (a : ℕ) : UInt8 := byteAt b (a + 65)

/-- How the search compares the names: less means that it stops, equal that there is such an entry,
greater that it goes on. Case counts only between two names of the POSIX namespace. -/
def linkOrder (coll : NameCollation) (type type' : UInt8) (name name' : List UInt16) : Ordering :=
  match coll.ignoreCase name name' with
  | .lt => .lt
  | .gt => .gt
  | .eq => if type ≠ 0 ∨ type' ≠ 0 then .eq else coll.caseSensitive name name'

inductive LinkPlace
  | eexist
  | place (ie : ℕ)

/-- The loop of `insert_file_link_in_dir_index` from the entry at `ie` on. It does not end at an
entry of length 0, which is `none`; for others `fuel` for every byte is enough. -/
def findLinkPlace (coll : NameCollation) (v b : List UInt8) : ℕ → ℕ → Option LinkPlace
  | 0, _ => none
  | fuel + 1, ie =>
    if ie < 0x18 + leAt b 0x1C 4 ∧ (leAt b (ie + 12) 2).testBit 1 = false then
      match linkOrder coll (fileNameTypeAt v 0) (fileNameTypeAt b (ie + 16)) (fileNameAt v 0)
          (fileNameAt b (ie + 16)) with
      | .lt => some (.place ie)
      | .eq => some .eexist
      | .gt => findLinkPlace coll v b fuel (ie + leAt b (ie + 8) 2)
    else some (.place ie)

/-! ### Inserting -/

/-- `make_room_for_index_entry_in_index_block`; `none` is `-ENOSPC`. -/
def makeRoomForIndexEntry (b : List UInt8) (pos size : ℕ) : Option (List UInt8) :=
  if size = 0 then some b
  else
    let biu := leAt b 0x1C 4
    if leAt b 0x20 4 < (biu + size) % 2 ^ 32 then none
    else some (patch (moveUp b pos (0x18 + biu) size) 0x1C (leBytes 4 (biu + size)))

inductive LinkError
  | eexist
  | enospc
  | hang
  deriving DecidableEq

/-- The fields of an entry with the `FILE_NAME` `v`. -/
def linkFields (ref : ℕ) (v : List UInt8) : List (ℕ × List UInt8) :=
  [(0, leBytes 8 ref), (8, leBytes 2 (align8 (16 + v.length))), (10, leBytes 2 v.length),
    (12, leBytes 2 0), (14, leBytes 2 0), (16, v)]

/-- `insert_file_link_in_dir_index`. -/
def insertFileLinkInDirIndex (coll : NameCollation) (b : List UInt8) (ref : ℕ) (v : List UInt8) :
    Except LinkError (List UInt8) :=
  match findLinkPlace coll v b b.length (0x18 + leAt b 0x18 4) with
  | none => .error .hang
  | some .eexist => .error .eexist
  | some (.place ie) =>
    match makeRoomForIndexEntry b ie (align8 (16 + v.length)) with
    | none => .error .enospc
    | some b => .ok (patchAll b ((linkFields ref v).map fun p => (ie + p.1, p.2)))

/-! ### Entries in a block -/

/-- A `FILE_NAME` with the length of its name in it. -/
def FileNameOk (v : List UInt8) : Prop := v.length = 66 + 2 * (byteAt v 64).toNat

instance (v : List UInt8) : Decidable (FileNameOk v) := inferInstanceAs (Decidable (_ = _))

/-- An entry as it lies in a block. -/
structure EntryOk (x : List UInt8) : Prop where
  length_eq : leAt x 8 2 = x.length
  not_end : (leAt x 12 2).testBit 1 = false
  name_fits : 16 + (66 + 2 * (byteAt x 80).toNat) ≤ x.length

/-- A block with these entries in front of the end `fin`. -/
structure DirBlock (b : List UInt8) (entries : List (List UInt8)) (fin : List UInt8) : Prop where
  start_ge : 0x10 ≤ leAt b 0x18 4
  allocated : 0x18 + leAt b 0x20 4 = b.length
  in_use : leAt b 0x1C 4 = leAt b 0x18 4 + entries.flatten.length + fin.length
  fits : leAt b 0x1C 4 ≤ leAt b 0x20 4
  holds : Holds b (0x18 + leAt b 0x18 4) (entries.flatten ++ fin)
  ok : ∀ x ∈ entries, EntryOk x
  fin_length : 14 ≤ fin.length
  fin_end : (leAt fin 12 2).testBit 1 = true

/-- What an entry refers to, and its `FILE_NAME`. -/
def entryForm (x : List UInt8) : ℕ × List UInt8 := (leAt x 0 8, cut x 16 (leAt x 10 2))

/-- What entries are compared by. -/
structure LinkKey where
  type : UInt8
  name : List UInt16

def fileNameKey (v : List UInt8) : LinkKey := ⟨fileNameTypeAt v 0, fileNameAt v 0⟩

def entryKey (x : List UInt8) : LinkKey := ⟨fileNameTypeAt x 16, fileNameAt x 16⟩

def LinkKey.order (coll : NameCollation) (k k' : LinkKey) : Ordering :=
  linkOrder coll k.type k'.type k.name k'.name

/-- The order of names in an index. -/
def compareLink (coll : NameCollation) : LinkKey → LinkKey → Ordering := coll.order LinkKey.name

instance (coll : NameCollation) : Std.TransCmp (compareLink coll) :=
  inferInstanceAs (Std.TransCmp (coll.order LinkKey.name))

/-- The entries are sorted, and none is found by a search for another. -/
structure LinksSorted (coll : NameCollation) (entries : List (List UInt8)) : Prop where
  sorted : SortedBy (compareLink coll) entryKey entries
  apart : entries.Pairwise fun x y => (entryKey x).order coll (entryKey y) ≠ .eq

section Order

variable {coll : NameCollation} {k k' k'' : LinkKey}

theorem LinkKey.order_eq : k.order coll k' = (coll.ignoreCase k.name k'.name).then
    (if k.type ≠ 0 ∨ k'.type ≠ 0 then .eq else coll.caseSensitive k.name k'.name) := by
  rw [LinkKey.order, linkOrder]
  cases coll.ignoreCase k.name k'.name <;> rfl

theorem compareLink_def : compareLink coll k k' =
    (coll.ignoreCase k.name k'.name).then (coll.caseSensitive k.name k'.name) := rfl

/-- A search that does not find an entry tells how the new name compares with it. -/
theorem LinkKey.compareLink_eq (h : k.order coll k' ≠ .eq) :
    compareLink coll k k' = k.order coll k' := by
  rw [LinkKey.order_eq] at h ⊢
  rw [compareLink_def]
  cases hc : coll.ignoreCase k.name k'.name with
  | lt => rfl
  | gt => rfl
  | eq =>
    rw [hc] at h
    by_cases ht : k.type ≠ 0 ∨ k'.type ≠ 0
    · rw [if_pos ht] at h
      exact absurd rfl h
    · rw [if_neg ht]

/-- Behind an entry that is greater all are. -/
theorem LinkKey.order_mono (hlt : k.order coll k' = .lt) (h : compareLink coll k' k'' = .lt)
    (hapart : k'.order coll k'' ≠ .eq) : k.order coll k'' = .lt := by
  have htrans : compareLink coll k k'' = .lt := by
    refine Std.TransCmp.lt_trans (b := k') ?_ h
    rw [LinkKey.compareLink_eq (by rw [hlt]; decide), hlt]
  by_cases hne : k.order coll k'' = .eq
  · -- then the three names differ in case only, and all of them are POSIX names
    rw [LinkKey.order_eq, Ordering.then_eq_eq] at hne
    obtain ⟨hup, hnames⟩ := hne
    have hsame : coll.ignoreCase k'.name k''.name = coll.ignoreCase k'.name k.name :=
      (Std.TransCmp.congr_right hup).symm
    rw [compareLink_def, hup, Ordering.eq_then] at htrans
    rw [compareLink_def, hsame] at h
    rw [LinkKey.order_eq] at hlt
    rw [LinkKey.order_eq, hsame] at hapart
    cases hc : coll.ignoreCase k.name k'.name with
    | gt =>
      rw [hc] at hlt
      cases hlt
    | lt =>
      rw [Std.OrientedCmp.gt_iff_lt.mpr hc] at h
      cases h
    | eq =>
      have heq : coll.ignoreCase k'.name k.name = .eq := Std.OrientedCmp.eq_symm hc
      rw [hc, Ordering.eq_then] at hlt
      rw [heq, Ordering.eq_then] at hapart
      have h1 : ¬ (k.type ≠ 0 ∨ k'.type ≠ 0) := fun ht => by
        rw [if_pos ht] at hlt
        cases hlt
      have h2 : ¬ (k'.type ≠ 0 ∨ k''.type ≠ 0) := fun ht => hapart (if_pos ht)
      have h3 : ¬ (k.type ≠ 0 ∨ k''.type ≠ 0) := by tauto
      rw [if_neg h3, htrans] at hnames
      cases hnames
  · rw [← LinkKey.compareLink_eq hne]
    exact htrans

end Order

section Search

variable {coll : NameCollation} {b x v : List UInt8} {a : ℕ}

/-- The name of an entry, in the block and in the entry itself. -/
theorem entryKey_eq (h : Holds b a x) (hb : a + x.length ≤ b.length) (hx : EntryOk x) :
    fileNameTypeAt b (a + 16) = (entryKey x).type ∧ fileNameAt b (a + 16) = (entryKey x).name := by
  have hfits := hx.name_fits
  have h80 : byteAt b (a + 16 + 64) = byteAt x (16 + 64) := by
    rw [Nat.add_assoc]
    exact h 80 (by omega)
  have hcut : cut b (a + (16 + 66)) (2 * (byteAt x (16 + 64)).toNat) =
      cut x (16 + 66) (2 * (byteAt x (16 + 64)).toNat) := by
    refine h.cut_inside hb ?_
    change 16 + 66 + 2 * (byteAt x 80).toNat ≤ _
    omega
  constructor
  · rw [fileNameTypeAt, Nat.add_assoc]
    exact h 81 (by omega)
  · rw [fileNameAt, h80, Nat.add_assoc, hcut]
    rfl

/-- Where a search in the list ends in the block. -/
def Spot.linkPlace (a : ℕ) (entries : List (List UInt8)) : Spot → LinkPlace
  | .found _ => .eexist
  | .gap i => .place (a + attrOffset entries i)

theorem Spot.linkPlace_next (a : ℕ) (x : List UInt8) (entries : List (List UInt8)) (s : Spot) :
    s.next.linkPlace a (x :: entries) = s.linkPlace (a + x.length) entries := by
  cases s <;> simp [Spot.next, Spot.linkPlace, attrOffset_cons, Nat.add_assoc]

/-- The loop searches the list of entries. -/
theorem findLinkPlace_eq (coll : NameCollation) (v : List UInt8) (entries : List (List UInt8))
    {fin : List UInt8} (hlen : 14 ≤ fin.length)
    (hend : (leAt fin 12 2).testBit 1 = true) : ∀ fuel a, entries.length < fuel →
      (∀ x ∈ entries, EntryOk x) →
      a + (entries.flatten ++ fin).length = 0x18 + leAt b 0x1C 4 →
      0x18 + leAt b 0x1C 4 ≤ b.length → Holds b a (entries.flatten ++ fin) →
      findLinkPlace coll v b fuel a = some
        ((scan (fun x => (fileNameKey v).order coll (entryKey x)) entries).linkPlace a entries) := by
  induction entries with
  | nil =>
    intro fuel a hfuel _ _ _ hh
    obtain ⟨fuel, rfl⟩ : ∃ k, fuel = k + 1 := ⟨fuel - 1, by simp at hfuel; omega⟩
    have hfin : Holds b a fin := hh
    have hflags : leAt b (a + 12) 2 = leAt fin 12 2 := hfin.leAt_inside (by omega)
    rw [findLinkPlace, hflags, hend, if_neg (by simp)]
    simp [scan, Spot.linkPlace]
  | cons x entries ih =>
    intro fuel a hfuel hok hstop hb hh
    obtain ⟨fuel, rfl⟩ : ∃ k, fuel = k + 1 := ⟨fuel - 1, by simp at hfuel; omega⟩
    have hx := hok x List.mem_cons_self
    have hge := hx.name_fits
    rw [List.flatten_cons, List.append_assoc] at hh hstop
    rw [List.length_append] at hstop
    have hhx : Holds b a x := hh.append_left
    have hflags : leAt b (a + 12) 2 = leAt x 12 2 := hhx.leAt_inside (by omega)
    have hlength : leAt b (a + 8) 2 = x.length := (hhx.leAt_inside (by omega)).trans hx.length_eq
    obtain ⟨htype, hname⟩ := entryKey_eq hhx (by omega) hx
    have hrest := ih fuel (a + x.length) (by simp at hfuel; omega)
      (fun y hy => hok y (List.mem_cons_of_mem x hy)) (by omega) hb hh.append_right
    rw [findLinkPlace, hflags, if_pos ⟨by omega, hx.not_end⟩, htype, hname, hlength, hrest]
    change (match (fileNameKey v).order coll (entryKey x) with
      | .lt => _
      | .eq => _
      | .gt => _) = _
    simp only [scan]
    cases (fileNameKey v).order coll (entryKey x) with
    | lt => simp [Spot.linkPlace]
    | eq => simp [Spot.linkPlace]
    | gt => simp only [Spot.linkPlace_next]

end Search

/-! ### Blocks with a new entry -/

section Sorted

variable {coll : NameCollation} {entries pre post : List (List UInt8)} {x y : List UInt8}
  {k : LinkKey}

theorem LinkKey.order_eq_symm {k' : LinkKey} (h : k.order coll k' = .eq) :
    k'.order coll k = .eq := by
  rw [LinkKey.order_eq, Ordering.then_eq_eq] at h ⊢
  refine ⟨Std.OrientedCmp.eq_symm h.1, ?_⟩
  have hrest := h.2
  by_cases ht : k.type ≠ 0 ∨ k'.type ≠ 0
  · rw [if_pos ht.symm]
  · rw [if_neg ht] at hrest
    rw [if_neg fun ht' => ht ht'.symm]
    exact Std.OrientedCmp.eq_symm hrest

/-- No entry is found by a search for another one. -/
theorem LinksSorted.order_ne (h : LinksSorted coll entries) (hx : x ∈ entries) (hy : y ∈ entries)
    (hlt : compareLink coll (entryKey x) (entryKey y) = .lt) :
    (entryKey x).order coll (entryKey y) ≠ .eq := by
  have hne : x ≠ y := by
    rintro rfl
    have hself : compareLink coll (entryKey x) (entryKey x) = .eq := Std.ReflCmp.compare_self
    rw [hself] at hlt
    cases hlt
  have hsymm : Std.Symm fun x y : List UInt8 => (entryKey x).order coll (entryKey y) ≠ .eq :=
    ⟨fun _ _ hn he => hn (LinkKey.order_eq_symm he)⟩
  exact List.Pairwise.forall h.apart hx hy hne

/-- The order is kept by what a search puts in its place. -/
theorem LinksSorted.insert (h : LinksSorted coll (pre ++ post)) (hk : entryKey y = k)
    (hpre : ∀ x ∈ pre, k.order coll (entryKey x) = .gt)
    (hpost : ∀ x ∈ post.head?, k.order coll (entryKey x) = .lt)
    (hnot : ∀ x ∈ pre ++ post, k.order coll (entryKey x) ≠ .eq) :
    LinksSorted coll (pre ++ y :: post) := by
  constructor
  · refine h.sorted.insert (fun x hx => ?_) fun x hx => ?_
    · refine Std.OrientedCmp.gt_iff_lt.mp ?_
      rw [hk, LinkKey.compareLink_eq (hnot x (by simp [hx])), hpre x hx]
    · have hmem : x ∈ post := List.mem_of_mem_head? hx
      rw [hk, LinkKey.compareLink_eq (hnot x (by simp [hmem])), hpost x hx]
  · obtain ⟨h1, h2, h3⟩ := List.pairwise_append.mp h.apart
    refine List.pairwise_append.mpr
      ⟨h1, List.pairwise_cons.mpr ⟨fun x hx => ?_, h2⟩, fun x hx z hz => ?_⟩
    · rw [hk]
      exact hnot x (by simp [hx])
    · rcases List.mem_cons.mp hz with rfl | hz
      · rw [hk]
        exact fun he => hnot x (by simp [hx]) (LinkKey.order_eq_symm he)
      · exact h3 x hx z hz

end Sorted

section Insert

variable {coll : NameCollation} {b v : List UInt8} {ref : ℕ} {pre post : List (List UInt8)}
  {fin : List UInt8}

theorem FileNameOk.length_le (hv : FileNameOk v) : 66 ≤ v.length ∧ v.length ≤ 576 := by
  have := (byteAt v 64).toNat_lt
  rw [FileNameOk] at hv
  omega

theorem FileNameOk.size (hv : FileNameOk v) : 16 + v.length ≤ align8 (16 + v.length) ∧
    align8 (16 + v.length) < 600 := by
  have := hv.length_le
  unfold align8
  omega

theorem linkFields_laid (ref : ℕ) (hv : FileNameOk v) :
    Laid (align8 (16 + v.length)) (linkFields ref v) := by
  have hsize := hv.size.1
  refine Laid.of_chain ?_ ?_
  · simp only [linkFields, List.isChain_cons_cons, length_leBytes, List.isChain_singleton, and_true]
    omega
  · simp only [linkFields, List.forall_mem_cons, length_leBytes, List.not_mem_nil, false_imp_iff,
      implies_true, and_true]
    omega

/-- What is filled in is an entry with the `FILE_NAME`. -/
theorem linkFields_entry (hv : FileNameOk v) (href : ref < 2 ^ 64) {y : List UInt8}
    (hy : y.length = align8 (16 + v.length)) (hf : ∀ p ∈ linkFields ref v, Holds y p.1 p.2) :
    EntryOk y ∧ entryForm y = (ref, v) ∧ entryKey y = fileNameKey v := by
  obtain ⟨hsize, hlt⟩ := hv.size
  obtain ⟨hge, hle⟩ := hv.length_le
  simp only [linkFields, List.forall_mem_cons, List.not_mem_nil, false_imp_iff, implies_true,
    and_true] at hf
  obtain ⟨hrefs, hlength, hkey, hflags, -, hvalue⟩ := hf
  have h80 : byteAt y (16 + 64) = byteAt v 64 := hvalue 64 (by omega)
  have hlen : v.length = 66 + 2 * (byteAt v 64).toNat := hv
  refine ⟨⟨?_, ?_, ?_⟩, ?_, ?_⟩
  · rw [hlength.leAt_of_lt (by omega), hy]
  · rw [hflags.leAt_of_lt (by decide)]
    rfl
  · change 16 + (66 + 2 * (byteAt y (16 + 64)).toNat) ≤ _
    rw [h80]
    omega
  · rw [entryForm, hrefs.leAt_of_lt href, hkey.leAt_of_lt (by omega), hvalue.cut_eq rfl (by omega)]
  · have hname : fileNameAt y 16 = fileNameAt v 0 := by
      rw [fileNameAt, fileNameAt, h80, Nat.zero_add, Nat.zero_add,
        hvalue.cut_inside (by omega) (by omega)]
    rw [entryKey, fileNameKey, hname]
    exact congrArg (LinkKey.mk · _) (hvalue 65 (by omega))

/-- A block in which an entry is filled in: outside of the entry and of the length in the header
stands what was moved. -/
structure LinkFilled (ref : ℕ) (v b : List UInt8) (pos biu : ℕ) (b' : List UInt8) : Prop where
  length : b'.length = b.length
  moved : ∀ i, (i < 0x1C ∨ 0x20 ≤ i) → (i < pos ∨ pos + align8 (16 + v.length) ≤ i) →
    byteAt b' i = byteAt (moveUp b pos (0x18 + biu) (align8 (16 + v.length))) i
  count : Holds b' 0x1C (leBytes 4 (biu + align8 (16 + v.length)))
  fields : ∀ p ∈ linkFields ref v, Holds b' (pos + p.1) p.2

theorem FileNameOk.filled (hv : FileNameOk v) (ref : ℕ) {pos biu : ℕ} (hpos : 0x20 ≤ pos)
    (hbiu : pos ≤ 0x18 + biu) (hfit : 0x18 + biu + align8 (16 + v.length) ≤ b.length) :
    LinkFilled ref v b pos biu (patchAll (patch (moveUp b pos (0x18 + biu)
      (align8 (16 + v.length))) 0x1C (leBytes 4 (biu + align8 (16 + v.length))))
        ((linkFields ref v).map fun p => (pos + p.1, p.2))) := by
  have hlaid := linkFields_laid ref hv
  have hfour : (leBytes 4 (biu + align8 (16 + v.length))).length = 4 := length_leBytes _ _
  have hmove : (moveUp b pos (0x18 + biu) (align8 (16 + v.length))).length = b.length :=
    length_moveUp hbiu hfit
  have hlen : (patch (moveUp b pos (0x18 + biu) (align8 (16 + v.length))) 0x1C
      (leBytes 4 (biu + align8 (16 + v.length)))).length = b.length := by
    rw [length_patch (by omega), hmove]
  have hshift : Laid b.length ((linkFields ref v).map fun p => (pos + p.1, p.2)) :=
    hlaid.shift (by omega)
  rw [← hlen] at hshift
  have houtside : ∀ i, (i < pos ∨ pos + align8 (16 + v.length) ≤ i) →
      ∀ p ∈ (linkFields ref v).map fun p => (pos + p.1, p.2), i < p.1 ∨ p.1 + p.2.length ≤ i := by
    intro i hi p hp
    obtain ⟨q, hq, rfl⟩ := List.mem_map.mp hp
    have := hlaid.1 q hq
    dsimp only
    omega
  refine ⟨by rw [length_patchAll hshift.1, hlen], fun i h1 h2 => ?_, ?_, fun p hp => ?_⟩
  · rw [byteAt_patchAll hshift.1 (houtside i h2), byteAt_patch (by omega), if_neg (by omega)]
  · have hput : Holds (patch (moveUp b pos (0x18 + biu) (align8 (16 + v.length))) 0x1C
        (leBytes 4 (biu + align8 (16 + v.length)))) 0x1C
          (leBytes 4 (biu + align8 (16 + v.length))) := holds_patch (by omega)
    refine hput.congr fun i h1 h2 => ?_
    exact byteAt_patchAll hshift.1 (houtside i (by omega))
  · exact holds_patchAll hshift (pos + p.1, p.2) (List.mem_map.mpr ⟨p, hp, rfl⟩)

/-- The header of the block stays. -/
theorem LinkFilled.header_eq {pos biu : ℕ} {b' : List UInt8} (h : LinkFilled ref v b pos biu b')
    (hpos : 0x20 ≤ pos) (hbiu : pos ≤ 0x18 + biu)
    (hfit : 0x18 + biu + align8 (16 + v.length) ≤ b.length) :
    ∀ i < 0x18, byteAt b' i = byteAt b i := by
  intro i hi
  rw [h.moved i (by omega) (by omega), byteAt_moveUp hbiu hfit, if_neg (by omega)]

/-- Put an entry behind those of `pre`. -/
theorem DirBlock.insert (h : DirBlock b (pre ++ post) fin) (hv : FileNameOk v) (href : ref < 2 ^ 64)
    (hb : b.length < 2 ^ 31) {pos biu : ℕ} (hpos : pos = 0x18 + leAt b 0x18 4 + pre.flatten.length)
    (hbiu : biu = leAt b 0x1C 4) (hfit : biu + align8 (16 + v.length) ≤ leAt b 0x20 4)
    {b' : List UInt8} (hb' : LinkFilled ref v b pos biu b') :
    ∃ y, DirBlock b' (pre ++ y :: post) fin ∧ entryForm y = (ref, v) ∧
      entryKey y = fileNameKey v := by
  have hstart := h.start_ge
  have halloc := h.allocated
  have huse := h.in_use
  have hfin := h.fin_length
  have hlen := hb'.length
  have hmoved := hb'.moved
  have hcount := hb'.count
  have hlaid := linkFields_laid ref hv
  rw [List.flatten_append, List.length_append] at huse
  have hycut : (cut b' pos (align8 (16 + v.length))).length = align8 (16 + v.length) :=
    length_cut (by omega)
  obtain ⟨hyok, hyform, hykey⟩ := linkFields_entry hv href hycut fun p hp =>
    (hb'.fields p hp).of_cut (hlaid.1 p hp)
  generalize align8 (16 + v.length) = size at *
  have hheader : ∀ i, i < 0x1C ∨ (0x20 ≤ i ∧ i < 0x28) → byteAt b' i = byteAt b i := by
    intro i hi
    rw [hmoved i (by omega) (by omega), byteAt_moveUp (by omega) (by omega), if_neg (by omega)]
  have hofs : leAt b' 0x18 4 = leAt b 0x18 4 := leAt_congr fun i hi => hheader _ (by omega)
  have hsame : leAt b' 0x20 4 = leAt b 0x20 4 := leAt_congr fun i hi => hheader _ (by omega)
  have hall : Holds b (0x18 + leAt b 0x18 4) (pre.flatten ++ (post.flatten ++ fin)) := by
    rw [← List.append_assoc, ← List.flatten_append]
    exact h.holds
  have hafter : Holds b' (0x18 + leAt b 0x18 4)
      (pre.flatten ++ (cut b' pos size ++ (post.flatten ++ fin))) := by
    refine hall.insert_between hpos ?_ (by omega) hlen fun i h1 h2 => hmoved i (by omega) h2
    rw [List.length_append]
    omega
  refine ⟨cut b' pos size, ⟨by omega, by omega, ?_, ?_, ?_, ?_, hfin, h.fin_end⟩, hyform, hykey⟩
  · rw [hcount.leAt_of_lt (by omega), hofs]
    simp only [List.flatten_append, List.flatten_cons, List.length_append, hycut]
    omega
  · rw [hcount.leAt_of_lt (by omega), hsame]
    exact hfit
  · rw [hofs, List.flatten_append, List.flatten_cons, List.append_assoc, List.append_assoc]
    exact hafter
  · intro x hx
    rcases List.mem_append.mp hx with hx | hx
    · exact h.ok x (List.mem_append_left _ hx)
    · rcases List.mem_cons.mp hx with rfl | hx
      · exact hyok
      · exact h.ok x (List.mem_append_right _ hx)

theorem DirBlock.fuel {entries : List (List UInt8)} (h : DirBlock b entries fin) :
    entries.length < b.length := by
  have hflat := length_le_flatten fun x hx => le_trans (by omega : 24 ≤ _) (h.ok x hx).name_fits
  have := h.in_use
  have := h.fits
  have := h.allocated
  omega

/-- One new link: a name that is there already is refused, one that does not fit as well; any other
is put in its place. -/
theorem insertFileLink_spec {entries : List (List UInt8)} (h : DirBlock b entries fin)
    (hs : LinksSorted coll entries) (hv : FileNameOk v) (href : ref < 2 ^ 64)
    (hb : b.length < 2 ^ 31) :
    ((∃ x ∈ entries, (fileNameKey v).order coll (entryKey x) = .eq) ∧
      insertFileLinkInDirIndex coll b ref v = .error .eexist) ∨
    ((∀ x ∈ entries, (fileNameKey v).order coll (entryKey x) ≠ .eq) ∧
      leAt b 0x20 4 < leAt b 0x1C 4 + align8 (16 + v.length) ∧
      insertFileLinkInDirIndex coll b ref v = .error .enospc) ∨
    ((∀ x ∈ entries, (fileNameKey v).order coll (entryKey x) ≠ .eq) ∧
      ∃ b' pre y post, entries = pre ++ post ∧ insertFileLinkInDirIndex coll b ref v = .ok b' ∧
        DirBlock b' (pre ++ y :: post) fin ∧ LinksSorted coll (pre ++ y :: post) ∧
        entryForm y = (ref, v) ∧ b'.length = b.length ∧ ∀ i < 0x18, byteAt b' i = byteAt b i) := by
  have huse := h.in_use
  have hfits := h.fits
  have halloc := h.allocated
  have hsize := hv.size
  have hfind := findLinkPlace_eq coll v entries h.fin_length h.fin_end b.length
    (0x18 + leAt b 0x18 4) h.fuel h.ok (by rw [List.length_append]; omega) (by omega) h.holds
  obtain ⟨pre, post, rfl, hpre, hcases⟩ :=
    scan_cases (fun x => (fileNameKey v).order coll (entryKey x)) entries
  rcases hcases with ⟨hscan, hpost⟩ | ⟨hscan, x, rest, rfl, hx⟩
  · right
    have hnot : ∀ x ∈ pre ++ post, (fileNameKey v).order coll (entryKey x) ≠ .eq := by
      refine hs.sorted.not_found hpre hpost fun x hx y hy hxy hlt => ?_
      exact LinkKey.order_mono hlt hxy (hs.order_ne hx hy hxy)
    have hoff : attrOffset (pre ++ post) pre.length = pre.flatten.length := by
      simp [attrOffset]
    rw [List.flatten_append, List.length_append] at huse
    by_cases hroom : leAt b 0x1C 4 + align8 (16 + v.length) ≤ leAt b 0x20 4
    · right
      have hfill : LinkFilled ref v b (0x18 + leAt b 0x18 4 + pre.flatten.length)
          (leAt b 0x1C 4) _ :=
        hv.filled ref (by have := h.start_ge; omega) (by omega) (by omega)
      obtain ⟨y, hblock, hform, hkey⟩ := h.insert hv href hb rfl rfl hroom hfill
      refine ⟨hnot, _, pre, y, post, rfl, ?_, hblock, hs.insert hkey hpre hpost hnot, hform,
        hfill.length, hfill.header_eq (by have := h.start_ge; omega) (by omega) (by omega)⟩
      rw [insertFileLinkInDirIndex, hfind, hscan]
      simp only [Spot.linkPlace, makeRoomForIndexEntry, hoff]
      rw [if_neg (by omega), if_neg (by omega)]
    · left
      refine ⟨hnot, not_le.mp hroom, ?_⟩
      rw [insertFileLinkInDirIndex, hfind, hscan]
      simp only [Spot.linkPlace, makeRoomForIndexEntry, hoff]
      rw [if_neg (by omega), if_pos (by omega)]
  · left
    refine ⟨⟨x, by simp, hx⟩, ?_⟩
    rw [insertFileLinkInDirIndex, hfind, hscan]
    rfl

end Insert

end NtfsKit
