import Mathlib.Data.List.DropRight
import NtfsKit.Format.BootSector

/-! The label of a volume, from the record of `$Volume` as the formatter protects and writes it
to the string the probe shows. Protecting a record puts a sequence number over the last two
bytes of every 512 and keeps the bytes themselves in the record's update sequence array. -/

namespace NtfsKit

/-! ### Writing the record -/

/-- The bytes of an `ntfschar` string. -/
def utf16Bytes (label : List UInt16) : List UInt8 := label.flatMap fun u => leBytes 2 u.toNat

/-- The header of a resident attribute without a name, as `insert_resident_attr_in_mft_record`
fills it in. -/
def residentHeader (type asize attrInstance valLen : ℕ) : List UInt8 :=
  leBytes 4 type ++ leBytes 4 asize ++ [0, 0] ++ leBytes 2 24 ++ leBytes 2 0 ++
    leBytes 2 attrInstance ++ leBytes 4 valLen ++ leBytes 2 24 ++ [0, 0]

/-- `insert_resident_attr_in_mft_record` for an attribute without a name: the header, the value,
and zeros up to a multiple of 8. -/
def residentAttr (type attrInstance : ℕ) (val : List UInt8) : List UInt8 :=
  let asize := (24 + val.length + 7) / 8 * 8
  residentHeader type asize attrInstance val.length ++ val ++
    List.replicate (asize - (24 + val.length)) 0

/-- `add_attr_vol_name`. -/
def addAttrVolName (attrInstance : ℕ) (label : List UInt16) : List UInt8 :=
  residentAttr 0x60 attrInstance (utf16Bytes label)

/-- One 512 bytes of a record is protected: its last two bytes go into the update sequence
array, and the sequence number over them. -/
def protectSector (usaOfs : ℕ) (usn0 usn1 : UInt8) (record : List UInt8) (i : ℕ) : List UInt8 :=
  let record := patch record (usaOfs + i * 2) [byteAt record (i * 512 - 2), byteAt record (i * 512 - 1)]
  patch record (i * 512 - 2) [usn0, usn1]

/-- What `ntfs_mst_pwrite` writes for a record: the update sequence array is where the record
says, with one entry for each 512 bytes. -/
def mstProtect (usn0 usn1 : UInt8) (record : List UInt8) : List UInt8 :=
  let usaOfs := le16 record 4
  let usaCount := le16 record 6
  (List.range' 1 (usaCount - 1)).foldl (protectSector usaOfs usn0 usn1)
    (patch record usaOfs [usn0, usn1])

/-! ### Reading it -/

/-- The fix-up loop of `readVolumeLabel`: every trailer must hold the sequence number, and is
replaced by the bytes that were saved. -/
def applyFixups (bytesPerSector usaOfs : ℕ) (usn0 usn1 : UInt8) :
    List ℕ → List UInt8 → Option (List UInt8)
  | [], record => some record
  | i :: is, record =>
    let pos := i * bytesPerSector - 2
    if pos + 1 < record.length ∧ byteAt record pos = usn0 ∧ byteAt record (pos + 1) = usn1 then
      let record := patch record pos [byteAt record (usaOfs + i * 2)]
      let record := patch record (pos + 1) [byteAt record (usaOfs + i * 2 + 1)]
      applyFixups bytesPerSector usaOfs usn0 usn1 is record
    else none

/-- The UTF-16 units of little-endian data. -/
def utf16Units : List UInt8 → List UInt16
  | lo :: hi :: bs => UInt16.ofNat (lo.toNat + 256 * hi.toNat) :: utf16Units bs
  | _ => []

/-- The characters of UTF-16; `none` if a surrogate has no partner. -/
def utf16Decode : List UInt16 → Option (List Char)
  | [] => some []
  | u :: us =>
    if u.toNat < 0xD800 ∨ 0xDFFF < u.toNat then
      (utf16Decode us).map (Char.ofNat u.toNat :: ·)
    else
      match us with
      | [] => none
      | v :: us =>
        if u.toNat < 0xDC00 ∧ 0xDC00 ≤ v.toNat ∧ v.toNat ≤ 0xDFFF then
          (utf16Decode us).map
            (Char.ofNat (0x10000 + (u.toNat - 0xD800) * 0x400 + (v.toNat - 0xDC00)) :: ·)
        else none

section Decode

variable (ws : Char → Bool)

/-- `trimmingCharacters(in:)` for a set of characters. -/
def trimming (s : List Char) : List Char := (s.dropWhile ws).rdropWhile ws

/-- The value of a `VOLUME_NAME` as a string, `nil` if nothing is left of it. -/
def labelString (data : List UInt8) : Option (List Char) :=
  match (utf16Decode (utf16Units data)).map (trimming ws) with
  | none => none
  | some s => if s.isEmpty then none else some s

/-- The attribute walk of `readVolumeLabel` from offset `a` on. Every attribute is at least 24
bytes long, so that `fuel` for every byte of the record is enough. -/
def walkAttributes (record : List UInt8) : ℕ → ℕ → Option (List Char)
  | 0, _ => none
  | fuel + 1, a =>
    let recordSize := record.length
    if ¬ a + 8 ≤ recordSize then none
    else
      let type := le16 record a ||| le16 record (a + 2) <<< 16
      if type = 0xFFFFFFFF then none
      else
        let alen := le16 record (a + 4) ||| le16 record (a + 6) <<< 16
        if ¬ (alen ≥ 24 ∧ a + alen ≤ recordSize) then none
        else if type = 0x60 ∧ byteAt record (a + 8) = 0 then
          let vlen := le16 record (a + 0x10) ||| le16 record (a + 0x12) <<< 16
          let vofs := le16 record (a + 0x14)
          if ¬ (vlen > 0 ∧ vlen ≤ 256 ∧ vlen % 2 = 0 ∧ vofs ≥ 24 ∧ vofs + vlen ≤ alen ∧
              a + vofs + vlen ≤ recordSize) then none
          else labelString ws ((record.drop (a + vofs)).take vlen)
        else walkAttributes record fuel (a + alen)

/-- `readVolumeLabel` from the record on: the magic, the fix-ups and the walk. -/
def decodeLabel (bytesPerSector : ℕ) (record : List UInt8) : Option (List Char) :=
  let recordSize := record.length
  if ¬ (byteAt record 0 = 0x46 ∧ byteAt record 1 = 0x49 ∧ byteAt record 2 = 0x4C ∧ byteAt record 3 = 0x45)
  then none
  else
    let usaOfs := le16 record 4
    let usaCount := le16 record 6
    if ¬ (recordSize % bytesPerSector = 0 ∧ usaCount = recordSize / bytesPerSector + 1 ∧
        usaOfs ≥ 0x2A ∧ usaOfs + usaCount * 2 ≤ recordSize) then none
    else
      match applyFixups bytesPerSector usaOfs (byteAt record usaOfs) (byteAt record (usaOfs + 1))
          (List.range' 1 (usaCount - 1)) record with
      | none => none
      | some record => walkAttributes ws record record.length (le16 record 0x14)

/-- `readVolumeLabel`; `read` returns the bytes that could be read at an offset. -/
def readVolumeLabel (read : ℤ → ℕ → List UInt8) (boot : List UInt8) : Option (List Char) := do
  let g ← labelGeometry boot
  let record := read g.offset g.recordSize
  guard (record.length = g.recordSize)
  decodeLabel ws g.bytesPerSector record

end Decode

/-! ### Protecting and restoring -/

/-- `q` is the record `r` of `n` times 512 bytes with the trailers `lo + 1, …, hi` protected;
those up to `hi` are saved. Outside the array nothing else differs. -/
structure Sealed (r : List UInt8) (usaOfs : ℕ) (usn0 usn1 : UInt8) (n lo hi : ℕ)
    (q : List UInt8) : Prop where
  length : q.length = r.length
  usn : byteAt q usaOfs = usn0 ∧ byteAt q (usaOfs + 1) = usn1
  saved : ∀ i, 1 ≤ i → i ≤ hi → byteAt q (usaOfs + i * 2) = byteAt r (i * 512 - 2) ∧
    byteAt q (usaOfs + i * 2 + 1) = byteAt r (i * 512 - 1)
  trailer : ∀ i, lo < i → i ≤ hi → byteAt q (i * 512 - 2) = usn0 ∧ byteAt q (i * 512 - 1) = usn1
  rest : ∀ j, j < usaOfs ∨ usaOfs + (n + 1) * 2 ≤ j →
    (∀ i, lo < i → i ≤ hi → j ≠ i * 512 - 2 ∧ j ≠ i * 512 - 1) → byteAt q j = byteAt r j

section Sealed

variable {r q : List UInt8} {usaOfs n lo hi : ℕ} {usn0 usn1 : UInt8}

/-- Two bytes put down. -/
theorem byteAt_patch_pair {b : List UInt8} {o : ℕ} {x y : UInt8} (h : o + 2 ≤ b.length) (i : ℕ) :
    byteAt (patch b o [x, y]) i = if i = o then x else if i = o + 1 then y else byteAt b i := by
  rw [byteAt_patch h]
  by_cases h0 : i = o
  · rw [if_pos (by simp; omega), if_pos h0, h0, Nat.sub_self]
    rfl
  · rw [if_neg h0]
    by_cases h1 : i = o + 1
    · rw [if_pos (by simp; omega), if_pos h1, h1, Nat.add_sub_cancel_left]
      rfl
    · rw [if_neg h1, if_neg (by simp; omega)]

theorem byteAt_patch_one {b : List UInt8} {o : ℕ} {x : UInt8} (h : o + 1 ≤ b.length) (i : ℕ) :
    byteAt (patch b o [x]) i = if i = o then x else byteAt b i := by
  rw [byteAt_patch h]
  by_cases h0 : i = o
  · rw [if_pos (by simp; omega), if_pos h0, h0, Nat.sub_self]
    rfl
  · rw [if_neg (by simp; omega), if_neg h0]

variable (hlen : r.length = n * 512) (husa : usaOfs + (n + 1) * 2 ≤ 510)
include hlen husa

/-- Protecting one more sector. -/
theorem Sealed.protect (h : Sealed r usaOfs usn0 usn1 n 0 hi q) (hn : hi < n) :
    Sealed r usaOfs usn0 usn1 n 0 (hi + 1) (protectSector usaOfs usn0 usn1 q (hi + 1)) := by
  have hq : q.length = n * 512 := h.length.trans hlen
  unfold protectSector
  set p := patch q (usaOfs + (hi + 1) * 2)
    [byteAt q ((hi + 1) * 512 - 2), byteAt q ((hi + 1) * 512 - 1)] with hp
  have hplen : p.length = n * 512 := (length_patch (by simp; omega)).trans hq
  have hpb : ∀ i, byteAt p i = if i = usaOfs + (hi + 1) * 2 then byteAt q ((hi + 1) * 512 - 2)
      else if i = usaOfs + (hi + 1) * 2 + 1 then byteAt q ((hi + 1) * 512 - 1) else byteAt q i :=
    byteAt_patch_pair (by omega)
  have hnew : ∀ i, byteAt (patch p ((hi + 1) * 512 - 2) [usn0, usn1]) i =
      if i = (hi + 1) * 512 - 2 then usn0 else if i = (hi + 1) * 512 - 2 + 1 then usn1
        else byteAt p i := byteAt_patch_pair (by omega)
  refine ⟨?_, ⟨?_, ?_⟩, fun i h1 h2 => ?_, fun i h1 h2 => ?_, fun j h1 h2 => ?_⟩
  · rw [length_patch (by simp; omega), hplen, hlen]
  · rw [hnew, if_neg (by omega), if_neg (by omega), hpb, if_neg (by omega), if_neg (by omega)]
    exact h.usn.1
  · rw [hnew, if_neg (by omega), if_neg (by omega), hpb, if_neg (by omega), if_neg (by omega)]
    exact h.usn.2
  · by_cases hi' : i = hi + 1
    · subst hi'
      refine ⟨?_, ?_⟩
      · rw [hnew, if_neg (by omega), if_neg (by omega), hpb, if_pos rfl]
        exact h.rest _ (.inr (by omega)) fun k _ _ => by omega
      · rw [hnew, if_neg (by omega), if_neg (by omega), hpb, if_neg (by omega), if_pos rfl]
        exact h.rest _ (.inr (by omega)) fun k _ _ => by omega
    · obtain ⟨hs0, hs1⟩ := h.saved i h1 (by omega)
      refine ⟨?_, ?_⟩
      · rw [hnew, if_neg (by omega), if_neg (by omega), hpb, if_neg (by omega), if_neg (by omega)]
        exact hs0
      · rw [hnew, if_neg (by omega), if_neg (by omega), hpb, if_neg (by omega), if_neg (by omega)]
        exact hs1
  · by_cases hi' : i = hi + 1
    · subst hi'
      exact ⟨by rw [hnew, if_pos rfl], by rw [hnew, if_neg (by omega), if_pos (by omega)]⟩
    · obtain ⟨ht0, ht1⟩ := h.trailer i h1 (by omega)
      refine ⟨?_, ?_⟩
      · rw [hnew, if_neg (by omega), if_neg (by omega), hpb, if_neg (by omega), if_neg (by omega)]
        exact ht0
      · rw [hnew, if_neg (by omega), if_neg (by omega), hpb, if_neg (by omega), if_neg (by omega)]
        exact ht1
  · have hne := h2 (hi + 1) (by omega) le_rfl
    rw [hnew, if_neg (by omega), if_neg (by omega), hpb, if_neg (by omega), if_neg (by omega)]
    exact h.rest j h1 fun i h3 h4 => h2 i h3 (by omega)

/-- All of them. -/
theorem Sealed.protectAll : ∀ {k hi : ℕ} {q : List UInt8}, hi + k = n →
    Sealed r usaOfs usn0 usn1 n 0 hi q →
    Sealed r usaOfs usn0 usn1 n 0 n
      ((List.range' (hi + 1) k).foldl (protectSector usaOfs usn0 usn1) q)
  | 0, hi, q, hk, h => by
    obtain rfl : hi = n := by omega
    exact h
  | k + 1, hi, q, hk, h => by
    rw [List.range'_succ, List.foldl_cons]
    exact Sealed.protectAll (by omega) (h.protect hlen husa (by omega))

/-- The loop of the fix-ups passes every check and restores every trailer. -/
theorem Sealed.restoreAll : ∀ {k lo : ℕ} {q : List UInt8}, lo + k = n →
    Sealed r usaOfs usn0 usn1 n lo n q →
    ∃ q', applyFixups 512 usaOfs usn0 usn1 (List.range' (lo + 1) k) q = some q' ∧
      Sealed r usaOfs usn0 usn1 n n n q'
  | 0, lo, q, hk, h => by
    obtain rfl : lo = n := by omega
    exact ⟨q, rfl, h⟩
  | k + 1, lo, q, hk, h => by
    have hq : q.length = n * 512 := h.length.trans hlen
    obtain ⟨ht0, ht1⟩ := h.trailer (lo + 1) (by omega) (by omega)
    obtain ⟨hs0, hs1⟩ := h.saved (lo + 1) (by omega) (by omega)
    have hpos : (lo + 1) * 512 - 2 + 1 = (lo + 1) * 512 - 1 := by omega
    rw [List.range'_succ, applyFixups]
    simp only [hpos]
    rw [if_pos ⟨by omega, ht0, ht1⟩]
    set p := patch q ((lo + 1) * 512 - 2) [byteAt q (usaOfs + (lo + 1) * 2)] with hp
    have hplen : p.length = n * 512 := (length_patch (by simp; omega)).trans hq
    have hpb : ∀ i, byteAt p i = if i = (lo + 1) * 512 - 2 then byteAt q (usaOfs + (lo + 1) * 2)
        else byteAt q i := byteAt_patch_one (by omega)
    have hsave : byteAt p (usaOfs + (lo + 1) * 2 + 1) = byteAt r ((lo + 1) * 512 - 1) := by
      rw [hpb, if_neg (by omega)]
      exact hs1
    have hnew : ∀ i, byteAt (patch p ((lo + 1) * 512 - 1)
        [byteAt p (usaOfs + (lo + 1) * 2 + 1)]) i = if i = (lo + 1) * 512 - 1 then
          byteAt r ((lo + 1) * 512 - 1) else if i = (lo + 1) * 512 - 2 then
            byteAt r ((lo + 1) * 512 - 2) else byteAt q i := fun i => by
      rw [byteAt_patch_one (by omega), hsave, hpb, hs0]
    refine Sealed.restoreAll (by omega)
      ⟨?_, ⟨?_, ?_⟩, fun i h1 h2 => ?_, fun i h1 h2 => ?_, fun j h1 h2 => ?_⟩
    · rw [length_patch (by simp; omega), hplen, hlen]
    · rw [hnew, if_neg (by omega), if_neg (by omega)]
      exact h.usn.1
    · rw [hnew, if_neg (by omega), if_neg (by omega)]
      exact h.usn.2
    · rw [hnew, if_neg (by omega), if_neg (by omega), hnew, if_neg (by omega), if_neg (by omega)]
      exact h.saved i h1 h2
    · rw [hnew, if_neg (by omega), if_neg (by omega), hnew, if_neg (by omega), if_neg (by omega)]
      exact h.trailer i (by omega) h2
    · rw [hnew]
      split_ifs with h3 h4
      · rw [h3]
      · rw [h4]
      · refine h.rest j h1 fun i h5 h6 => ?_
        by_cases hi' : i = lo + 1
        · subst hi'
          exact ⟨h4, h3⟩
        · exact h2 i (by omega) h6

/-- Nothing is protected yet. -/
theorem Sealed.start (usn0 usn1 : UInt8) (hn : 0 < n) :
    Sealed r usaOfs usn0 usn1 n 0 0 (patch r usaOfs [usn0, usn1]) := by
  have hbyte : ∀ i, byteAt (patch r usaOfs [usn0, usn1]) i = if i = usaOfs then usn0 else
      if i = usaOfs + 1 then usn1 else byteAt r i := byteAt_patch_pair (by omega)
  refine ⟨length_patch (by simp; omega), ⟨?_, ?_⟩, fun i h1 h2 => by omega,
    fun i h1 h2 => by omega, fun j h1 _ => ?_⟩
  · rw [hbyte, if_pos rfl]
  · rw [hbyte, if_neg (by omega), if_pos rfl]
  · rw [hbyte, if_neg (by omega), if_neg (by omega)]

end Sealed

/-! ### The record of `$Volume` -/

/-- An attribute that is not a `VOLUME_NAME`: a header at least, and its own length in it. -/
structure OtherAttr (x : List UInt8) : Prop where
  length_ge : 24 ≤ x.length
  length_eq : leAt x 4 4 = x.length
  type_ne : leAt x 0 4 ≠ 0x60
  not_end : leAt x 0 4 ≠ 0xFFFFFFFF

/-- A resident `VOLUME_NAME` with the value `label`. -/
structure VolumeName (label : List UInt16) (x : List UInt8) : Prop where
  length_ge : 24 ≤ x.length
  length_eq : leAt x 4 4 = x.length
  type : leAt x 0 4 = 0x60
  resident : byteAt x 8 = 0
  value_length : leAt x 0x10 4 = (utf16Bytes label).length
  value_ofs : 24 ≤ leAt x 0x14 2
  value_fits : leAt x 0x14 2 + (utf16Bytes label).length ≤ x.length
  value : Holds x (leAt x 0x14 2) (utf16Bytes label)

/-- A record of `n` times 512 bytes with the attributes `attrs` and then `name`. The update
sequence array is in front of them and ends before the first trailer. -/
structure VolumeRecord (n usaOfs : ℕ) (attrs : List (List UInt8)) (name r : List UInt8) :
    Prop where
  length : r.length = n * 512
  magic : Holds r 0 [0x46, 0x49, 0x4C, 0x45]
  usa_ofs : leAt r 4 2 = usaOfs
  usa_count : leAt r 6 2 = n + 1
  usa_ge : 0x2A ≤ usaOfs
  usa_le : usaOfs + (n + 1) * 2 ≤ 510
  attrs_ofs : usaOfs + (n + 1) * 2 ≤ leAt r 0x14 2
  holds : Holds r (leAt r 0x14 2) (attrs.flatten ++ name)
  fits : leAt r 0x14 2 + (attrs.flatten ++ name).length ≤ r.length

theorem length_utf16Bytes (label : List UInt16) :
    (utf16Bytes label).length = 2 * label.length := by
  simp [utf16Bytes, List.length_flatMap]
  omega

theorem utf16Decode_eq_nil {label : List UInt16} (h : utf16Decode label = some []) :
    label = [] := by
  cases label with
  | nil => rfl
  | cons u us =>
    unfold utf16Decode at h
    split_ifs at h
    · simp at h
    · cases us with
      | nil => cases h
      | cons v us =>
        simp only at h
        split_ifs at h
        simp at h

theorem utf16Units_bytes : ∀ label : List UInt16, utf16Units (utf16Bytes label) = label
  | [] => rfl
  | u :: us => by
    have hu := u.toNat_lt
    have hunit : UInt16.ofNat ((UInt8.ofNat u.toNat).toNat +
        256 * (UInt8.ofNat (u.toNat / 256)).toNat) = u := by
      rw [UInt8.toNat_ofNat', UInt8.toNat_ofNat',
        show u.toNat % 2 ^ 8 + 256 * (u.toNat / 256 % 2 ^ 8) = u.toNat by omega]
      exact UInt16.ofNat_toNat
    calc utf16Units (utf16Bytes (u :: us))
        = UInt16.ofNat ((UInt8.ofNat u.toNat).toNat +
            256 * (UInt8.ofNat (u.toNat / 256)).toNat) :: utf16Units (utf16Bytes us) := rfl
      _ = u :: us := by rw [hunit, utf16Units_bytes us]

/-- The header of 24 bytes, field by field. -/
theorem residentHeader_fields (type asize attrInstance valLen : ℕ) :
    (residentHeader type asize attrInstance valLen).length = 24 ∧
    Holds (residentHeader type asize attrInstance valLen) 0 (leBytes 4 type) ∧
    Holds (residentHeader type asize attrInstance valLen) 4 (leBytes 4 asize) ∧
    byteAt (residentHeader type asize attrInstance valLen) 8 = 0 ∧
    Holds (residentHeader type asize attrInstance valLen) 0x10 (leBytes 4 valLen) ∧
    Holds (residentHeader type asize attrInstance valLen) 0x14 (leBytes 2 24) := by
  refine ⟨by simp [residentHeader], ?_, ?_, rfl, ?_, ?_⟩ <;>
  · intro i hi
    rw [length_leBytes] at hi
    interval_cases i <;> rfl

/-- The formatter's own attribute is such a `VOLUME_NAME`. -/
theorem addAttrVolName_volumeName (attrInstance : ℕ) {label : List UInt16}
    (h : label.length ≤ 128) : VolumeName label (addAttrVolName attrInstance label) := by
  have hval := length_utf16Bytes label
  obtain ⟨hlen, htype, hsize, hres, hvlen, hofs⟩ := residentHeader_fields 0x60
    ((24 + (utf16Bytes label).length + 7) / 8 * 8) attrInstance (utf16Bytes label).length
  have hself : Holds (addAttrVolName attrInstance label) 0 _ := Holds.self _
  have hxlen : (addAttrVolName attrInstance label).length =
      (24 + (utf16Bytes label).length + 7) / 8 * 8 := by
    simp only [addAttrVolName, residentAttr, List.length_append, hlen, List.length_replicate]
    omega
  have hhead := hself.append_left.append_left
  have hvalue := hself.append_left.append_right
  rw [hlen] at hvalue
  have hfield : ∀ {i w : ℕ}, i + w ≤ 24 → leAt (addAttrVolName attrInstance label) i w = leAt
      (residentHeader 0x60 ((24 + (utf16Bytes label).length + 7) / 8 * 8) attrInstance
        (utf16Bytes label).length) i w := fun hi => by
    rw [← hhead.leAt_inside (by omega), Nat.zero_add]
  have hvofs : leAt (addAttrVolName attrInstance label) 0x14 2 = 24 :=
    (hfield (by omega)).trans (hofs.leAt_of_lt (by decide))
  refine ⟨by omega, ?_, ?_, ?_, ?_, by omega, by omega, ?_⟩
  · rw [hfield (by omega), hsize.leAt_of_lt (by omega), hxlen]
  · exact (hfield (by omega)).trans (htype.leAt_of_lt (by decide))
  · exact (hhead 8 (by omega)).trans hres
  · exact (hfield (by omega)).trans (hvlen.leAt_of_lt (by omega))
  · rw [hvofs]
    exact hvalue

section Walk

variable {ws : Char → Bool} {name q : List UInt8} {label : List UInt16}

/-- The type and the length of an attribute, as the walk reads them. -/
theorem attrHeader_eq {a : ℕ} {x : List UInt8} (h : Holds q a x) (hx : 24 ≤ x.length) :
    le16 q a ||| le16 q (a + 2) <<< 16 = leAt x 0 4 ∧
      le16 q (a + 4) ||| le16 q (a + 6) <<< 16 = leAt x 4 4 :=
  ⟨(le32_eq q a).trans (h.leAt_inside (show 0 + 4 ≤ x.length by omega)),
    (le32_eq q (a + 4)).trans (h.leAt_inside (show 4 + 4 ≤ x.length by omega))⟩

/-- The walk passes over the other attributes and stops at the name. -/
theorem walkAttributes_finds (hname : VolumeName label name) (h1 : 0 < label.length)
    (h2 : label.length ≤ 128) : ∀ {attrs : List (List UInt8)} {a fuel : ℕ},
    (∀ x ∈ attrs, OtherAttr x) → Holds q a (attrs.flatten ++ name) →
    a + (attrs.flatten ++ name).length ≤ q.length → attrs.length < fuel →
    walkAttributes ws q fuel a = labelString ws (utf16Bytes label)
  | _, _, 0, _, _, _, hfuel => by omega
  | [], a, fuel + 1, _, hold, hfit, _ => by
    have hn : Holds q a name := hold
    have hfit : a + name.length ≤ q.length := hfit
    have hlen := length_utf16Bytes label
    have hge := hname.length_ge
    have hvofs := hname.value_ofs
    have hvfit := hname.value_fits
    obtain ⟨htype, halen⟩ := attrHeader_eq hn hge
    have hres : byteAt q (a + 8) = 0 := (hn 8 (by omega)).trans hname.resident
    have hvlen : le16 q (a + 0x10) ||| le16 q (a + 0x12) <<< 16 = (utf16Bytes label).length :=
      (le32_eq q (a + 0x10)).trans ((hn.leAt_inside (by omega)).trans hname.value_length)
    have hofs : le16 q (a + 0x14) = leAt name 0x14 2 :=
      (le16_eq q (a + 0x14)).trans (hn.leAt_inside (by omega))
    have hvalue : Holds q (a + leAt name 0x14 2) (utf16Bytes label) := fun i hi => by
      rw [show a + leAt name 0x14 2 + i = a + (leAt name 0x14 2 + i) by omega,
        hn _ (by omega)]
      exact hname.value i hi
    unfold walkAttributes
    simp only [htype, halen, hres, hvlen, hofs, hname.type, hname.length_eq]
    rw [if_neg (by omega), if_neg (by decide), if_neg (by omega), if_pos ⟨trivial, trivial⟩,
      if_neg (by omega), hvalue.slice (by omega)]
  | x :: xs, a, fuel + 1, hall, hold, hfit, hfuel => by
    have hx := hall x List.mem_cons_self
    have hge := hx.length_ge
    rw [List.flatten_cons, List.append_assoc] at hold hfit
    rw [List.length_append] at hfit
    have hhere : Holds q a x := hold.append_left
    obtain ⟨htype, halen⟩ := attrHeader_eq hhere hge
    have ih := walkAttributes_finds hname h1 h2 (fun y hy => hall y (List.mem_cons_of_mem _ hy))
      hold.append_right (by omega) (Nat.lt_of_succ_lt_succ hfuel)
    unfold walkAttributes
    simp only [htype, halen, hx.length_eq]
    rw [if_neg (by omega), if_neg hx.not_end, if_neg (by omega), if_neg fun h => hx.type_ne h.1]
    exact ih

end Walk

section Decodes

variable {ws : Char → Bool} {sector n usaOfs : ℕ} {attrs : List (List UInt8)} {name r : List UInt8}
  {label : List UInt16} {chars : List Char}

/-- A label without white space at its ends is its own string. -/
theorem labelString_eq (hl : 0 < label.length) (hv : utf16Decode label = some chars)
    (hfirst : ∀ c ∈ chars.head?, ws c = false) (hlast : ∀ c ∈ chars.getLast?, ws c = false) :
    labelString ws (utf16Bytes label) = some chars := by
  have htrim : trimming ws chars = chars := by
    have hd : chars.dropWhile ws = chars := by
      rw [List.dropWhile_eq_self_iff]
      intro hpos
      rw [hfirst _ (by simp [List.head?_eq_getElem?, List.getElem?_eq_getElem hpos])]
      decide
    rw [trimming, hd, List.rdropWhile_eq_self_iff]
    intro hne
    rw [hlast _ (List.getLast?_eq_some_getLast hne)]
    decide
  have hne : chars ≠ [] := by
    rintro rfl
    exact hl.ne' (congrArg List.length (utf16Decode_eq_nil hv))
  simp only [labelString, utf16Units_bytes, hv, Option.map_some, htrim]
  rw [if_neg (by simpa using hne)]

/-- There are no more attributes than bytes. -/
theorem length_le_flatten : ∀ {attrs : List (List UInt8)}, (∀ x ∈ attrs, 24 ≤ x.length) →
    attrs.length ≤ attrs.flatten.length
  | [], _ => le_rfl
  | x :: xs, h => by
    have ih := length_le_flatten fun y hy => h y (List.mem_cons_of_mem _ hy)
    have hx := h x List.mem_cons_self
    rw [List.flatten_cons, List.length_append, List.length_cons]
    omega

/-- The record as it is on the disk. -/
theorem VolumeRecord.mstProtect_sealed (hr : VolumeRecord n usaOfs attrs name r) (hn : 0 < n)
    (usn0 usn1 : UInt8) : Sealed r usaOfs usn0 usn1 n 0 n (mstProtect usn0 usn1 r) := by
  have hstart := Sealed.start hr.length hr.usa_le usn0 usn1 hn
  have hall := hstart.protectAll hr.length hr.usa_le (by omega : 0 + n = n)
  unfold mstProtect
  simp only [le16_eq, hr.usa_ofs, hr.usa_count, Nat.add_sub_cancel]
  exact hall

/-- The fields in front of the update sequence array are not touched. -/
theorem Sealed.header {usn0 usn1 : UInt8} {lo o w : ℕ} {q : List UInt8}
    (h : Sealed r usaOfs usn0 usn1 n lo n q) (husa : usaOfs + (n + 1) * 2 ≤ 510)
    (ho : o + w ≤ usaOfs) : leAt q o w = leAt r o w :=
  leAt_congr fun i hi => h.rest _ (.inl (by omega)) fun k h1 h2 => by omega

/-- The label is read back exactly if sectors have 512 bytes. -/
theorem label_decodes_iff (hn : 0 < n) (hattrs : ∀ x ∈ attrs, OtherAttr x)
    (hname : VolumeName label name) (hl : 1 ≤ label.length) (hl' : label.length ≤ 128)
    (hv : utf16Decode label = some chars)
    (hfirst : ∀ c ∈ chars.head?, ws c = false) (hlast : ∀ c ∈ chars.getLast?, ws c = false)
    (hr : VolumeRecord n usaOfs attrs name r) (usn0 usn1 : UInt8) :
    decodeLabel ws sector (mstProtect usn0 usn1 r) = some chars ↔ sector = 512 := by
  have hq := hr.mstProtect_sealed hn usn0 usn1
  set q := mstProtect usn0 usn1 r
  have hge := hr.usa_ge
  have hle := hr.usa_le
  have hqlen : q.length = n * 512 := hq.length.trans hr.length
  have hofs : le16 q 4 = usaOfs := by
    rw [le16_eq, hq.header hle (by omega), hr.usa_ofs]
  have hcount : le16 q 6 = n + 1 := by
    rw [le16_eq, hq.header hle (by omega), hr.usa_count]
  have hmagic : ∀ i, i < 4 → byteAt q i = byteAt [0x46, 0x49, 0x4C, 0x45] i := fun i hi => by
    rw [hq.rest i (.inl (by omega)) fun k h1 h2 => by omega]
    exact (Nat.zero_add i ▸ hr.magic i hi :)
  have hmagic : byteAt q 0 = 0x46 ∧ byteAt q 1 = 0x49 ∧ byteAt q 2 = 0x4C ∧ byteAt q 3 = 0x45 :=
    ⟨hmagic 0 (by omega), hmagic 1 (by omega), hmagic 2 (by omega), hmagic 3 (by omega)⟩
  unfold decodeLabel
  simp only [hofs, hcount, hqlen, hq.usn.1, hq.usn.2]
  rw [if_neg (not_not.mpr hmagic)]
  constructor
  · -- another sector size fails the check of the array's length
    intro h
    by_contra hne
    rw [if_pos] at h
    · cases h
    rintro ⟨hdvd, hc, -⟩
    have hdiv : n * 512 / sector = n := by omega
    have hmul : n * sector = n * 512 := by
      have := Nat.div_mul_cancel (Nat.dvd_of_mod_eq_zero hdvd)
      rwa [hdiv] at this
    exact hne (Nat.eq_of_mul_eq_mul_left hn hmul)
  · intro h512
    obtain ⟨q', hfix, hq'⟩ := hq.restoreAll hr.length hle (by omega : 0 + n = n)
    have hstart : le16 q' 0x14 = leAt r 0x14 2 := by
      rw [le16_eq, hq'.header hle (by omega)]
    have hlen' : q'.length = r.length := hq'.length
    have hattrs_ofs := hr.attrs_ofs
    have hfits := hr.fits
    have hold : Holds q' (leAt r 0x14 2) (attrs.flatten ++ name) :=
      hr.holds.congr fun i h1 h2 => hq'.rest i (.inr (by omega)) fun k h3 h4 => by omega
    have hfuel : attrs.length < r.length := by
      have := length_le_flatten fun x hx => (hattrs x hx).length_ge
      have := hname.length_ge
      rw [List.length_append] at hfits
      omega
    rw [h512, if_neg (by omega), Nat.add_sub_cancel, hfix]
    simp only [hstart, hlen']
    rw [walkAttributes_finds hname hl hl' hattrs hold (hlen' ▸ hfits) hfuel]
    exact labelString_eq hl hv hfirst hlast

end Decodes

/-- A record of 1024 bytes with a `STANDARD_INFORMATION` and the name "A". -/
def sampleRecord : List UInt8 :=
  patchAll (List.replicate 1024 0) [(0, [0x46, 0x49, 0x4C, 0x45]), (4, leBytes 2 0x30),
    (6, leBytes 2 3), (0x14, leBytes 2 0x38),
    (0x38, residentAttr 0x10 0 [] ++ addAttrVolName 1 [0x41] ++ leBytes 4 0xFFFFFFFF)]

theorem sampleRecord_volume : VolumeRecord 2 0x30 [residentAttr 0x10 0 []]
    (addAttrVolName 1 [0x41]) sampleRecord := by
  constructor <;> decide +kernel

/-- On sectors of 512 bytes the label is "A". -/
theorem label_decodes_512 :
    decodeLabel Char.isWhitespace 512 (mstProtect 1 0 sampleRecord) = some ['A'] := by
  have hother : ∀ x ∈ [residentAttr 0x10 0 []], OtherAttr x := fun x hx => by
    rw [List.mem_singleton.mp hx]
    constructor <;> decide +kernel
  have hletter : ∀ c ∈ some 'A', Char.isWhitespace c = false := fun c hc => by
    obtain rfl := Option.some.inj hc
    rfl
  have hfirst : ∀ c ∈ ['A'].head?, Char.isWhitespace c = false := hletter
  have hlast : ∀ c ∈ ['A'].getLast?, Char.isWhitespace c = false := hletter
  exact (label_decodes_iff (by decide) hother (addAttrVolName_volumeName 1 (by decide)) (by decide)
    (by decide) (by decide +kernel) hfirst hlast sampleRecord_volume 1 0).mpr rfl

/-- On sectors of 1024 bytes the same record has no label: its array has an entry for every 512
bytes, one more than it has sectors. -/
theorem label_lost_on_large_sectors :
    VolumeRecord 2 0x30 [residentAttr 0x10 0 []] (addAttrVolName 1 [0x41]) sampleRecord ∧
    utf16Decode [0x41] = some ['A'] ∧
    decodeLabel Char.isWhitespace 1024 (mstProtect 1 0 sampleRecord) = none :=
  ⟨sampleRecord_volume, by decide +kernel, by decide +kernel⟩

end NtfsKit
