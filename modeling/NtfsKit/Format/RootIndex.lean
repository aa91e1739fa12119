import NtfsKit.Format.Hardlinks
import NtfsKit.Format.SyncMft

/-! The index of the root directory. The formatter makes an `INDEX_ROOT` with the end entry only,
moves its entries to an index block, protects that once to put it down as `INDEX_ALLOCATION`, and
links the system files there. -/

namespace NtfsKit

/-! ### The root -/

/-- The value of an `INDEX_ROOT` without entries. -/
def indexRootValue (type collation blockSize clustersPerBlock : ℕ) : List UInt8 :=
  leBytes 4 type ++ leBytes 4 collation ++ leBytes 4 blockSize ++ [UInt8.ofNat clustersPerBlock] ++
    List.replicate 3 0 ++ leBytes 4 16 ++ leBytes 4 32 ++ leBytes 4 32 ++ [0] ++
    List.replicate 3 0 ++ leBytes 8 0 ++ leBytes 2 16 ++ leBytes 2 0 ++ leBytes 2 2 ++ leBytes 2 0

/-- `add_attr_index_root`: the value that it inserts; `none` is `-EINVAL`. -/
def addAttrIndexRoot (clusterSize sectorSize type collation blockSize : ℕ) : Option (List UInt8) :=
  let type' := if type = 0x30 then 0x30 else 0
  if type = 0x30 ∧ collation ≠ 1 then none
  else if clusterSize ≤ blockSize then
    if blockSize % clusterSize ≠ 0 then none
    else some (indexRootValue type' collation blockSize (blockSize / clusterSize))
  else if blockSize &&& (blockSize - 1) ≠ 0 then none
  else if blockSize < sectorSize then none
  else some (indexRootValue type' collation blockSize (blockSize / 512))

/-- The loop that looks for the end entry; one of length 0 it does not pass. -/
def lastIndexEntry (r : List UInt8) : ℕ → ℕ → Option ℕ
  | 0, _ => none
  | fuel + 1, re =>
    if re < r.length ∧ (leAt r (re + 12) 2).testBit 1 = false then
      lastIndexEntry r fuel (re + leAt r (re + 8) 2)
    else some re

/-- The fields of an index block with its entries. -/
def indexBlockFields (usaCount ofs blockSize : ℕ) (entries : List UInt8) :
    List (ℕ × List UInt8) :=
  [(0, [0x49, 0x4E, 0x44, 0x58]), (4, leBytes 2 0x28), (6, leBytes 2 usaCount), (8, leBytes 8 0),
    (0x10, leBytes 8 0), (0x18, leBytes 4 ofs), (0x1C, leBytes 4 (entries.length + ofs)),
    (0x20, leBytes 4 (blockSize - 24)), (0x24, [0]), (0x28, leBytes 2 1), (0x18 + ofs, entries)]

/-- The new index block, in memory of zeroes. -/
def newIndexBlock (blockSize : ℕ) (entries : List UInt8) : List UInt8 :=
  let usaCount := if 512 ≤ blockSize then blockSize / 512 + 1 else 1
  patchAll (List.replicate blockSize 0)
    (indexBlockFields usaCount (align8 (16 + usaCount * 2)) blockSize entries)

/-- `ntfs_resident_attr_value_resize`, for the value. -/
def resizeValue (r : List UInt8) (n : ℕ) : List UInt8 := (r ++ List.replicate n 0).take n

/-- The end entry at `re` is moved to the front of the root. -/
def moveEndEntry (r : List UInt8) (re : ℕ) : List UInt8 :=
  let start := 0x10 + leAt r 0x10 4
  if start < re then patch r start (cut r re (leAt r (re + 8) 2)) else r

/-- The entry at the front becomes a node, with room for the number of a block. -/
def makeNode (r : List UInt8) : List UInt8 :=
  let re := 0x10 + leAt r 0x10 4
  let r := patch r 0x1C [1]
  let r := patch r (re + 12) (leBytes 2 (leAt r (re + 12) 2 ||| 1))
  if leAt r (re + 8) 2 < 24 then patch r (re + 8) (leBytes 2 (leAt r (re + 8) 2 + 8)) else r

/-- The root is cut off behind this entry, which points to block 0. -/
def fitRoot (r : List UInt8) : List UInt8 :=
  let re := 0x10 + leAt r 0x10 4
  let r := patch r 0x14 (leBytes 4 (leAt r 0x10 4 + leAt r (re + 8) 2))
  let r := patch r 0x18 (leBytes 4 (leAt r 0x14 4))
  let r := resizeValue r (0x10 + leAt r 0x18 4)
  patch r (re + leAt r (re + 8) 2 - 8) (leBytes 8 0)

/-- `upgrade_to_large_index`, from the value of the root to the index block, before it is protected,
and the new value. -/
def upgradeToLargeIndex (blockSize : ℕ) (r : List UInt8) : Option (List UInt8 × List UInt8) :=
  let start := 0x10 + leAt r 0x10 4
  (lastIndexEntry r r.length start).map fun re =>
    (newIndexBlock blockSize (cut r start (re - start + leAt r (re + 8) 2)),
      fitRoot (makeNode (moveEndEntry r re)))

/-! ### Entries in a root -/

/-- A root with these entries in front of the end `fin`. -/
structure IndexRoot (r : List UInt8) (entries : List (List UInt8)) (fin : List UInt8) : Prop where
  start_ge : 0x10 ≤ leAt r 0x10 4
  fits : 0x10 + leAt r 0x10 4 + (entries.flatten ++ fin).length ≤ r.length
  holds : Holds r (0x10 + leAt r 0x10 4) (entries.flatten ++ fin)
  ok : ∀ x ∈ entries, EntryOk x
  fin_length : leAt fin 8 2 = fin.length
  fin_ge : 16 ≤ fin.length
  fin_end : (leAt fin 12 2).testBit 1 = true

section Root

variable {r fin : List UInt8} {entries : List (List UInt8)}

/-- The loop ends at the end entry. -/
theorem lastIndexEntry_eq (hlen : 16 ≤ fin.length) (hend : (leAt fin 12 2).testBit 1 = true)
    (entries : List (List UInt8)) : ∀ fuel a, entries.length < fuel → (∀ x ∈ entries, EntryOk x) →
      a + (entries.flatten ++ fin).length ≤ r.length → Holds r a (entries.flatten ++ fin) →
      lastIndexEntry r fuel a = some (a + entries.flatten.length) := by
  induction entries with
  | nil =>
    intro fuel a hfuel _ hfit hh
    obtain ⟨fuel, rfl⟩ : ∃ k, fuel = k + 1 := ⟨fuel - 1, by simp at hfuel; omega⟩
    have hfin : Holds r a fin := hh
    have hflags : leAt r (a + 12) 2 = leAt fin 12 2 := hfin.leAt_inside (by omega)
    rw [lastIndexEntry, hflags, hend, if_neg (by simp)]
    rfl
  | cons x entries ih =>
    intro fuel a hfuel hok hfit hh
    obtain ⟨fuel, rfl⟩ : ∃ k, fuel = k + 1 := ⟨fuel - 1, by simp at hfuel; omega⟩
    have hx := hok x List.mem_cons_self
    have hge := hx.name_fits
    rw [List.flatten_cons, List.append_assoc] at hh hfit
    rw [List.length_append] at hfit
    have hhx : Holds r a x := hh.append_left
    have hflags : leAt r (a + 12) 2 = leAt x 12 2 := hhx.leAt_inside (by omega)
    have hlength : leAt r (a + 8) 2 = x.length := (hhx.leAt_inside (by omega)).trans hx.length_eq
    have hrest := ih fuel (a + x.length) (by simp at hfuel; omega)
      (fun y hy => hok y (List.mem_cons_of_mem x hy)) (by omega) hh.append_right
    rw [lastIndexEntry, hflags, if_pos ⟨by omega, hx.not_end⟩, hlength, hrest, List.flatten_cons,
      List.length_append, Nat.add_assoc]

theorem IndexRoot.last (h : IndexRoot r entries fin) :
    lastIndexEntry r r.length (0x10 + leAt r 0x10 4) =
      some (0x10 + leAt r 0x10 4 + entries.flatten.length) := by
  have hfits := h.fits
  rw [List.length_append] at hfits
  have hflat := length_le_flatten fun x hx => le_trans (by omega : 24 ≤ _) (h.ok x hx).name_fits
  exact lastIndexEntry_eq h.fin_ge h.fin_end entries _ _ (by omega) h.ok
    (by rw [List.length_append]; omega) h.holds

/-- An index block with an update sequence array of `n` trailers in front of its entries. -/
structure IndexBlockOk (n : ℕ) (b : List UInt8) (entries : List (List UInt8)) (fin : List UInt8) :
    Prop where
  block : DirBlock b entries fin
  mst : MstOk n 0x28 b
  behind_usa : 0x10 + (n + 1) * 2 ≤ leAt b 0x18 4

theorem indexBlockFields_laid {n ofs : ℕ} {x : List UInt8} (hofs : 0x12 ≤ ofs)
    (hroom : 0x18 + ofs + x.length ≤ n) (count : ℕ) :
    Laid n (indexBlockFields count ofs n x) := by
  refine Laid.of_chain ?_ ?_
  · simp only [indexBlockFields, List.isChain_cons_cons, length_leBytes, List.length_cons,
      List.length_nil, List.isChain_singleton, and_true]
    omega
  · simp only [indexBlockFields, List.forall_mem_cons, length_leBytes, List.length_cons,
      List.length_nil, List.not_mem_nil, false_imp_iff, implies_true, and_true]
    omega

/-- A block with these fields. -/
theorem IndexRoot.block_of_fields (h : IndexRoot r entries fin) {n ofs : ℕ} {b : List UInt8}
    (hn : 0 < n) (husa : 0x28 + (n + 1) * 2 ≤ 510) (hofs : 0x10 + (n + 1) * 2 ≤ ofs)
    (hroom : 0x18 + ofs + (entries.flatten ++ fin).length ≤ n * 512) (hlen : b.length = n * 512)
    (hput : ∀ p ∈ indexBlockFields (n + 1) ofs (n * 512) (entries.flatten ++ fin),
      Holds b p.1 p.2) : IndexBlockOk n b entries fin := by
  simp only [indexBlockFields, List.forall_mem_cons, List.not_mem_nil, false_imp_iff, implies_true,
    and_true] at hput
  obtain ⟨-, husaofs, hcount, -, -, hstart, huse, halloc, -, -, hentries⟩ := hput
  have hstart' : leAt b 0x18 4 = ofs := hstart.leAt_of_lt (by omega)
  have huse' : leAt b 0x1C 4 = (entries.flatten ++ fin).length + ofs :=
    huse.leAt_of_lt (by omega)
  have halloc' : leAt b 0x20 4 = n * 512 - 24 := halloc.leAt_of_lt (by omega)
  have hfin := h.fin_ge
  rw [List.length_append] at huse' hroom
  refine ⟨⟨by omega, by omega, by omega, by omega, ?_, h.ok, by omega, h.fin_end⟩,
    ⟨hn, hlen, husaofs.leAt_of_lt (by decide), hcount.leAt_of_lt (by omega), by decide, husa⟩,
    by omega⟩
  rw [hstart']
  exact hentries

/-- The new block has the entries of the root, and an update sequence array. -/
theorem IndexRoot.block (h : IndexRoot r entries fin) {n : ℕ} (hn : 0 < n)
    (husa : 0x28 + (n + 1) * 2 ≤ 510)
    (hroom : 0x18 + align8 (16 + (n + 1) * 2) + (entries.flatten ++ fin).length ≤ n * 512) :
    IndexBlockOk n (newIndexBlock (n * 512) (entries.flatten ++ fin)) entries fin := by
  have hcount : (if 512 ≤ n * 512 then n * 512 / 512 + 1 else 1) = n + 1 := by
    rw [if_pos (by omega), Nat.mul_div_cancel _ (by decide)]
  have hblank : (List.replicate (n * 512) (0 : UInt8)).length = n * 512 := List.length_replicate
  have hofs : 0x10 + (n + 1) * 2 ≤ align8 (16 + (n + 1) * 2) := le_align8 _
  have hlaid : Laid (List.replicate (n * 512) (0 : UInt8)).length
      (indexBlockFields (n + 1) (align8 (16 + (n + 1) * 2)) (n * 512)
        (entries.flatten ++ fin)) := by
    rw [hblank]
    exact indexBlockFields_laid (by omega) hroom (n + 1)
  rw [newIndexBlock, hcount]
  exact h.block_of_fields hn husa hofs hroom ((length_patchAll hlaid.1).trans hblank)
    (holds_patchAll hlaid)

theorem IndexRoot.front (h : IndexRoot r entries fin) {re : ℕ}
    (hre : re = 0x10 + leAt r 0x10 4 + entries.flatten.length) :
    IndexRoot (moveEndEntry r re) [] fin ∧ (moveEndEntry r re).length = r.length ∧
      ∀ i < 0x20, byteAt (moveEndEntry r re) i = byteAt r i := by
  have hstart := h.start_ge
  have hfits := h.fits
  have hge := h.fin_ge
  rw [List.length_append] at hfits
  have hfin : Holds r re fin := hre ▸ h.holds.append_right
  have hlen : leAt r (re + 8) 2 = fin.length := (hfin.leAt_inside (by omega)).trans h.fin_length
  have hcut : cut r re fin.length = fin := hfin.cut_eq rfl (by omega)
  rw [moveEndEntry, hlen, hcut]
  have hput : 0x10 + leAt r 0x10 4 + fin.length ≤ r.length := by omega
  by_cases hlt : 0x10 + leAt r 0x10 4 < re
  · rw [if_pos hlt]
    have hhead : ∀ i < 0x20, byteAt (patch r (0x10 + leAt r 0x10 4) fin) i = byteAt r i := by
      intro i hi
      rw [byteAt_patch hput, if_neg (by omega)]
    have hofs : leAt (patch r (0x10 + leAt r 0x10 4) fin) 0x10 4 = leAt r 0x10 4 :=
      leAt_congr fun i hi => hhead _ (by omega)
    refine ⟨⟨by omega, ?_, ?_, by simp, h.fin_length, hge, h.fin_end⟩, length_patch hput, hhead⟩
    · rw [hofs, length_patch hput]
      exact hput
    · rw [hofs]
      exact holds_patch hput
  · rw [if_neg hlt]
    have hre' : re = 0x10 + leAt r 0x10 4 := by omega
    exact ⟨⟨hstart, hput, hre' ▸ hfin, by simp, h.fin_length, hge, h.fin_end⟩, rfl, fun _ _ => rfl⟩

/-- A root whose first entry is the end, a node now. -/
structure NodeFront (r r' : List UInt8) (len : ℕ) : Prop where
  length : r'.length = r.length
  header : ∀ i < 0x1C, byteAt r' i = byteAt r i
  large : byteAt r' 0x1C = 1
  entry : leAt r' (0x10 + leAt r 0x10 4 + 8) 2 = len
  node : (leAt r' (0x10 + leAt r 0x10 4 + 12) 2).testBit 0 = true
  is_end : (leAt r' (0x10 + leAt r 0x10 4 + 12) 2).testBit 1 = true

theorem NodeFront.setLength {r' : List UInt8} {len k : ℕ} (h : NodeFront r r' len)
    (hstart : 0x10 ≤ leAt r 0x10 4) (hfit : 0x10 + leAt r 0x10 4 + 16 ≤ r.length)
    (hk : k < 2 ^ 16) :
    NodeFront r (patch r' (0x10 + leAt r 0x10 4 + 8) (leBytes 2 k)) k := by
  have htwo : (leBytes 2 k).length = 2 := length_leBytes _ _
  have hlen := h.length
  have hput : 0x10 + leAt r 0x10 4 + 8 + (leBytes 2 k).length ≤ r'.length := by omega
  have hbyte : ∀ i, i < 0x10 + leAt r 0x10 4 + 8 ∨ 0x10 + leAt r 0x10 4 + 10 ≤ i →
      byteAt (patch r' (0x10 + leAt r 0x10 4 + 8) (leBytes 2 k)) i = byteAt r' i := by
    intro i hi
    rw [byteAt_patch hput, if_neg (by omega)]
  have hflags : leAt (patch r' (0x10 + leAt r 0x10 4 + 8) (leBytes 2 k))
      (0x10 + leAt r 0x10 4 + 12) 2 = leAt r' (0x10 + leAt r 0x10 4 + 12) 2 :=
    leAt_congr fun i _ => hbyte _ (by omega)
  exact ⟨(length_patch hput).trans hlen,
    fun i hi => (hbyte i (by omega)).trans (h.header i hi), (hbyte _ (by omega)).trans h.large,
    (holds_patch hput).leAt_of_lt hk, hflags ▸ h.node, hflags ▸ h.is_end⟩

/-- The two fields of the entry at `a`. -/
theorem node_fields {a : ℕ} (ha : 0x20 ≤ a) (hfit : a + 16 ≤ r.length)
    (hend : (leAt r (a + 12) 2).testBit 1 = true) :
    let r₁ := patch r 0x1C [1]
    let r₂ := patch r₁ (a + 12) (leBytes 2 (leAt r₁ (a + 12) 2 ||| 1))
    r₂.length = r.length ∧ (∀ i, i < a → byteAt r₂ i = if i = 0x1C then 1 else byteAt r i) ∧
      leAt r₂ (a + 8) 2 = leAt r (a + 8) 2 ∧ (leAt r₂ (a + 12) 2).testBit 0 = true ∧
      (leAt r₂ (a + 12) 2).testBit 1 = true := by
  intro r₁ r₂
  have hone : ∀ i, byteAt r₁ i = if i = 0x1C then 1 else byteAt r i :=
    byteAt_patch_one (by omega)
  have hsame : ∀ o, 0x20 ≤ o → leAt r₁ o 2 = leAt r o 2 := fun o ho =>
    leAt_congr fun i _ => by rw [hone, if_neg (by omega)]
  have hlen₁ : r₁.length = r.length := length_patch (by simp; omega)
  have htwo : (leBytes 2 (leAt r₁ (a + 12) 2 ||| 1)).length = 2 := length_leBytes _ _
  have hput : a + 12 + (leBytes 2 (leAt r₁ (a + 12) 2 ||| 1)).length ≤ r₁.length := by omega
  have hbyte : ∀ i, i < a + 12 → byteAt r₂ i = byteAt r₁ i := fun i hi => by
    rw [byteAt_patch hput, if_neg (by omega)]
  have hlt : leAt r₁ (a + 12) 2 ||| 1 < 2 ^ 16 :=
    Nat.or_lt_two_pow (leAt_lt _ _ 2) (by decide)
  have hflags : leAt r₂ (a + 12) 2 = leAt r (a + 12) 2 ||| 1 := by
    rw [← hsame _ (by omega)]
    exact (holds_patch hput).leAt_of_lt hlt
  refine ⟨(length_patch hput).trans hlen₁, fun i hi => ?_, ?_, ?_, ?_⟩
  · rw [hbyte i (by omega), hone]
  · rw [← hsame _ (by omega)]
    exact leAt_congr fun i hi => hbyte _ (by omega)
  · rw [hflags, Nat.testBit_or]
    simp
  · rw [hflags, Nat.testBit_or, hend]
    rfl

theorem IndexRoot.makeNode (h : IndexRoot r [] fin) :
    NodeFront r (makeNode r) (if fin.length < 24 then fin.length + 8 else fin.length) := by
  have hstart := h.start_ge
  have hfits := h.fits
  have hge := h.fin_ge
  have hfin : Holds r (0x10 + leAt r 0x10 4) fin := h.holds
  have hlen : leAt r (0x10 + leAt r 0x10 4 + 8) 2 = fin.length :=
    (hfin.leAt_inside (by omega)).trans h.fin_length
  have hend : (leAt r (0x10 + leAt r 0x10 4 + 12) 2).testBit 1 = true := by
    rw [hfin.leAt_inside (by omega)]
    exact h.fin_end
  have ha : 0x20 ≤ 0x10 + leAt r 0x10 4 := by omega
  have hfit : 0x10 + leAt r 0x10 4 + 16 ≤ r.length := by
    rw [List.flatten_nil, List.nil_append] at hfits
    omega
  obtain ⟨hsame, hbyte, hentry, hnode, hlast⟩ := node_fields ha hfit hend
  have hhead : ∀ i < 0x1C, _ := fun i hi => (hbyte i (by omega)).trans (if_neg (by omega))
  have hlarge := (hbyte 0x1C (by omega)).trans (if_pos rfl)
  rw [hlen] at hentry
  have hfront : NodeFront r _ fin.length := ⟨hsame, hhead, hlarge, hentry, hnode, hlast⟩
  unfold NtfsKit.makeNode
  dsimp only
  rw [hentry]
  by_cases hlt : fin.length < 24
  · rw [if_pos hlt, if_pos hlt]
    exact hfront.setLength hstart hfit (by omega)
  · rw [if_neg hlt, if_neg hlt]
    exact hfront

/-- What the root has become: one entry, the end, that points to block 0. -/
structure LargeRoot (r r' : List UInt8) : Prop where
  header : ∀ i < 0x14, byteAt r' i = byteAt r i
  large : byteAt r' 0x1C = 1
  root : ∃ fin, IndexRoot r' [] fin ∧ r'.length = 0x10 + leAt r' 0x10 4 + fin.length ∧
    leAt r' 0x14 4 = leAt r' 0x10 4 + fin.length ∧ leAt r' 0x18 4 = leAt r' 0x14 4 ∧
    (leAt fin 12 2).testBit 0 = true ∧ leAt fin (fin.length - 8) 8 = 0

theorem length_resizeValue (r : List UInt8) (n : ℕ) : (resizeValue r n).length = n := by
  rw [resizeValue, List.length_take, List.length_append, List.length_replicate]
  omega

theorem byteAt_resizeValue {n i : ℕ} (hi : i < n) (hr : i < r.length) :
    byteAt (resizeValue r n) i = byteAt r i := by
  rw [resizeValue, byteAt, byteAt, List.getD_eq_getElem?_getD, List.getD_eq_getElem?_getD,
    List.getElem?_take_of_lt hi, List.getElem?_append_left hr]

/-- The bytes of the root after the cut, in front of the number of the block. -/
theorem fit_bytes {r' : List UInt8} {a len n : ℕ} (ha : 0x20 ≤ a) (hfit : a + 16 ≤ r'.length)
    (hentry : leAt r' (a + 8) 2 = len) (hlen : 24 ≤ len) (hn : 0x10 + n = a + len)
    (hlt : n < 2 ^ 32) :
    let r₁ := patch r' 0x14 (leBytes 4 n)
    let r₂ := patch r₁ 0x18 (leBytes 4 (leAt r₁ 0x14 4))
    let r₃ := resizeValue r₂ (0x10 + leAt r₂ 0x18 4)
    let r₄ := patch r₃ (a + leAt r₃ (a + 8) 2 - 8) (leBytes 8 0)
    r₄.length = a + len ∧ (∀ i < a + 16, i < 0x14 ∨ 0x1C ≤ i → byteAt r₄ i = byteAt r' i) ∧
      leAt r₄ 0x14 4 = n ∧ leAt r₄ 0x18 4 = n ∧ leAt r₄ (a + len - 8) 8 = 0 := by
  intro r₁ r₂ r₃ r₄
  have hfour : ∀ k, (leBytes 4 k).length = 4 := length_leBytes 4
  have height : (leBytes 8 0).length = 8 := length_leBytes 8 0
  have hput₁ : 0x14 + (leBytes 4 n).length ≤ r'.length := by
    rw [hfour]
    omega
  have hlen₁ : r₁.length = r'.length := length_patch hput₁
  have hcount₁ : leAt r₁ 0x14 4 = n := (holds_patch hput₁).leAt_of_lt hlt
  have hput₂ : 0x18 + (leBytes 4 (leAt r₁ 0x14 4)).length ≤ r₁.length := by
    rw [hfour]
    omega
  have hlen₂ : r₂.length = r'.length := (length_patch hput₂).trans hlen₁
  have hcount₂ : leAt r₂ 0x18 4 = n := by
    have hput : Holds r₂ 0x18 (leBytes 4 (leAt r₁ 0x14 4)) := holds_patch hput₂
    rw [hcount₁] at hput
    exact hput.leAt_of_lt hlt
  have hbyte₂ : ∀ i, byteAt r₂ i = if 0x18 ≤ i ∧ i < 0x1C then byteAt r₂ i else byteAt r₁ i := by
    intro i
    split_ifs with hi
    · rfl
    · rw [byteAt_patch hput₂, hfour, if_neg hi]
  have hlen₃ : r₃.length = a + len := by
    rw [length_resizeValue, hcount₂, hn]
  have hbyte₃ : ∀ i < a + 16, byteAt r₃ i = byteAt r₂ i := fun i hi =>
    byteAt_resizeValue (by omega) (by omega)
  have hout : ∀ i, i < 0x14 ∨ 0x1C ≤ i → byteAt r₂ i = byteAt r' i := by
    intro i hi
    rw [hbyte₂, if_neg (by omega), byteAt_patch hput₁, hfour, if_neg (by omega)]
  have hentry₃ : leAt r₃ (a + 8) 2 = len := by
    rw [← hentry]
    exact leAt_congr fun i hi => (hbyte₃ _ (by omega)).trans (hout _ (by omega))
  have hput₄ : a + leAt r₃ (a + 8) 2 - 8 + (leBytes 8 0).length ≤ r₃.length := by
    rw [hentry₃, height]
    omega
  have hbyte₄ : ∀ i < a + 16, byteAt r₄ i = byteAt r₂ i := by
    intro i hi
    rw [byteAt_patch hput₄, if_neg (by omega)]
    exact hbyte₃ i hi
  refine ⟨(length_patch hput₄).trans hlen₃, fun i hi h => (hbyte₄ i hi).trans (hout i h), ?_, ?_,
    ?_⟩
  · rw [← hcount₁]
    refine leAt_congr fun i hi => (hbyte₄ _ (by omega)).trans ?_
    rw [hbyte₂, if_neg (by omega)]
  · rw [← hcount₂]
    exact leAt_congr fun i hi => hbyte₄ _ (by omega)
  · have hput : Holds r₄ (a + leAt r₃ (a + 8) 2 - 8) (leBytes 8 0) := holds_patch hput₄
    rw [hentry₃] at hput
    exact hput.leAt_of_lt (by decide)

theorem NodeFront.fit {r' : List UInt8} {len : ℕ} (h : NodeFront r r' len)
    (hstart : 0x10 ≤ leAt r 0x10 4) (hfit : 0x10 + leAt r 0x10 4 + 16 ≤ r.length)
    (hr : r.length < 2 ^ 31) (hlen : 24 ≤ len) (hlt : len < 2 ^ 16) : LargeRoot r (fitRoot r') := by
  have hofs : leAt r' 0x10 4 = leAt r 0x10 4 := leAt_congr fun i _ => h.header _ (by omega)
  have hsame := h.length
  have hentry := h.entry
  obtain ⟨hlen', hbyte, hcount, hsize, hblock⟩ := fit_bytes (n := leAt r 0x10 4 + len)
    (by omega : 0x20 ≤ 0x10 + leAt r 0x10 4) (by omega) hentry hlen (by omega) (by omega)
  unfold fitRoot
  dsimp only
  rw [hofs, hentry]
  generalize patch (resizeValue _ _) _ _ = r₄ at *
  have hofs₄ : leAt r₄ 0x10 4 = leAt r 0x10 4 :=
    (leAt_congr fun i _ => hbyte _ (by omega) (by omega)).trans hofs
  have hcut : Holds r₄ (0x10 + leAt r 0x10 4) (cut r₄ (0x10 + leAt r 0x10 4) len) :=
    holds_cut (by omega)
  have hcutlen : (cut r₄ (0x10 + leAt r 0x10 4) len).length = len := length_cut (by omega)
  have hfields : ∀ i, i + 2 ≤ 16 → leAt (cut r₄ (0x10 + leAt r 0x10 4) len) i 2 =
      leAt r' (0x10 + leAt r 0x10 4 + i) 2 := by
    intro i hi
    rw [← hcut.leAt_inside (by omega)]
    exact leAt_congr fun j _ => hbyte _ (by omega) (by omega)
  refine ⟨fun i hi => (hbyte i (by omega) (by omega)).trans (h.header i (by omega)),
    (hbyte _ (by omega) (by omega)).trans h.large, cut r₄ (0x10 + leAt r 0x10 4) len,
    ⟨by omega, ?_, ?_, by simp, ?_, by omega, ?_⟩, by omega, by omega, by omega, ?_, ?_⟩
  · rw [List.flatten_nil, List.nil_append, hofs₄, hcutlen]
    omega
  · rw [hofs₄]
    exact hcut
  · rw [hcutlen, hfields 8 (by omega), hentry]
  · rw [hfields 12 (by omega)]
    exact h.is_end
  · rw [hfields 12 (by omega)]
    exact h.node
  · rw [hcutlen, ← hblock, show 0x10 + leAt r 0x10 4 + len - 8 =
      0x10 + leAt r 0x10 4 + (len - 8) by omega]
    exact (hcut.leAt_inside (by omega)).symm

/-- The entries move to a block, and the root keeps the end entry. -/
theorem IndexRoot.upgrade (h : IndexRoot r entries fin) (hr : r.length < 2 ^ 31) {n : ℕ}
    (hn : 0 < n) (husa : 0x28 + (n + 1) * 2 ≤ 510)
    (hroom : 0x18 + align8 (16 + (n + 1) * 2) + (entries.flatten ++ fin).length ≤ n * 512) :
    ∃ b r', upgradeToLargeIndex (n * 512) r = some (b, r') ∧ IndexBlockOk n b entries fin ∧
      LargeRoot r r' := by
  have hfits := h.fits
  have hge := h.fin_ge
  have hlt : fin.length < 2 ^ 16 := h.fin_length ▸ leAt_lt fin 8 2
  have hend : leAt r (0x10 + leAt r 0x10 4 + entries.flatten.length + 8) 2 = fin.length :=
    (h.holds.append_right.leAt_inside (by omega)).trans h.fin_length
  have hcut : cut r (0x10 + leAt r 0x10 4) (entries.flatten.length + fin.length) =
      entries.flatten ++ fin :=
    h.holds.cut_eq List.length_append (by rwa [List.length_append] at hfits)
  obtain ⟨hfront, hlen, hhead⟩ := h.front rfl
  have hfront_fits := hfront.fits
  rw [List.flatten_nil, List.nil_append] at hfront_fits
  have hlarge := hfront.makeNode.fit hfront.start_ge (by omega) (hlen.trans_lt hr)
    (by split_ifs <;> omega) (by split_ifs <;> omega)
  refine ⟨newIndexBlock (n * 512) (entries.flatten ++ fin), _, ?_, h.block hn husa hroom,
    fun i hi => (hlarge.header i hi).trans (hhead i (by omega)), hlarge.large, hlarge.root⟩
  simp only [upgradeToLargeIndex, h.last, Option.map_some, Nat.add_sub_cancel_left, hend, hcut]

end Root

/-! ### The root directory of a new volume -/

theorem emptyIndexEnd_entry : emptyIndexEnd.length = 16 ∧ leAt emptyIndexEnd 8 2 = 16 ∧
    (leAt emptyIndexEnd 12 2).testBit 1 = true := by decide

theorem indexRootValue_parts (type collation blockSize clustersPerBlock : ℕ) :
    indexRootValue type collation blockSize clustersPerBlock =
      leBytes 4 type ++ leBytes 4 collation ++ (leBytes 4 blockSize ++
        ([UInt8.ofNat clustersPerBlock, 0, 0, 0] ++
          ([16, 0, 0, 0, 32, 0, 0, 0, 32, 0, 0, 0, 0, 0, 0, 0] ++ emptyIndexEnd))) := by
  simp only [indexRootValue, List.append_assoc]
  rfl

/-- The root has the end entry only, and tells the size of its blocks. -/
theorem indexRootValue_root {type collation blockSize clustersPerBlock : ℕ} {r : List UInt8}
    (hr : r = indexRootValue type collation blockSize clustersPerBlock) :
    IndexRoot r [] emptyIndexEnd ∧ r.length = 48 ∧ Holds r 8 (leBytes 4 blockSize) := by
  rw [indexRootValue_parts] at hr
  obtain ⟨hfin, hentry, hend⟩ := emptyIndexEnd_entry
  have hlen : r.length = 48 := by
    simp only [hr, List.length_append, length_leBytes, List.length_cons, List.length_nil, hfin]
  have hself := Holds.self r
  nth_rewrite 2 [hr] at hself
  have hsize := hself.append_right
  rw [List.length_append, length_leBytes, length_leBytes, Nat.zero_add] at hsize
  have hheader := hsize.append_right.append_right
  rw [length_leBytes] at hheader
  have hstart : leAt r 0x10 4 = 16 := hheader.append_left.leAt_inside (i := 0) (by decide)
  refine ⟨⟨hstart.ge, ?_, ?_, by simp, by rw [hentry, hfin], hfin.ge, hend⟩, hlen,
    hsize.append_left⟩
  · rw [hstart, hlen, List.flatten_nil, List.nil_append, hfin]
  · rw [hstart]
    exact hheader.append_right

theorem addAttrIndexRoot_eq_some {clusterSize sectorSize type collation blockSize : ℕ}
    {r : List UInt8}
    (h : addAttrIndexRoot clusterSize sectorSize type collation blockSize = some r) :
    ∃ type' clustersPerBlock, r = indexRootValue type' collation blockSize clustersPerBlock := by
  unfold addAttrIndexRoot at h
  dsimp only at h
  split_ifs at h
  all_goals exact ⟨_, _, (Option.some.inj h).symm⟩

/-- A new root directory with blocks of `n` times 512 bytes is upgraded to an empty block. -/
theorem addAttrIndexRoot_upgrade {clusterSize sectorSize type collation n : ℕ} {r : List UInt8}
    (h : addAttrIndexRoot clusterSize sectorSize type collation (n * 512) = some r) (hn : 0 < n)
    (husa : 0x28 + (n + 1) * 2 ≤ 510) :
    ∃ b r', upgradeToLargeIndex (leAt r 8 4) r = some (b, r') ∧ IndexBlockOk n b [] emptyIndexEnd ∧
      LargeRoot r r' := by
  obtain ⟨type', clustersPerBlock, hr⟩ := addAttrIndexRoot_eq_some h
  obtain ⟨hroot, hlen, hsize⟩ := indexRootValue_root hr
  rw [hsize.leAt_of_lt (by omega)]
  refine hroot.upgrade (by omega) hn husa ?_
  rw [List.flatten_nil, List.nil_append, emptyIndexEnd_entry.1, align8]
  omega

/-- Putting the block down and undoing the fixups changes the array only. -/
theorem IndexBlockOk.restored {n : ℕ} {b fin : List UInt8} {entries : List (List UInt8)}
    (h : IndexBlockOk n b entries fin) : IndexBlockOk n (mstRestored b) entries fin := by
  obtain ⟨hmst, -, hrest⟩ := h.mst.after_write
  have hblock := h.block
  have hbehind := h.behind_usa
  have hlen : (mstRestored b).length = b.length := hmst.length.trans h.mst.length.symm
  have hofs : leAt (mstRestored b) 0x18 4 = leAt b 0x18 4 :=
    leAt_congr fun i hi => hrest _ (by omega)
  have huse : leAt (mstRestored b) 0x1C 4 = leAt b 0x1C 4 :=
    leAt_congr fun i hi => hrest _ (by omega)
  have halloc : leAt (mstRestored b) 0x20 4 = leAt b 0x20 4 :=
    leAt_congr fun i hi => hrest _ (by omega)
  refine ⟨⟨hofs ▸ hblock.start_ge, by rw [halloc, hlen, hblock.allocated],
    by rw [huse, hofs, hblock.in_use], by rw [huse, halloc]; exact hblock.fits, ?_, hblock.ok,
    hblock.fin_length, hblock.fin_end⟩, hmst, hofs ▸ hbehind⟩
  rw [hofs]
  exact hblock.holds.congr fun i h1 _ => hrest i (by omega)

theorem IndexBlockOk.linkIndex {coll : NameCollation} {n : ℕ} {b fin : List UInt8}
    (h : IndexBlockOk n b [] fin) : LinkIndex coll b b [] fin := by
  have hlen := h.mst.length
  have husa := h.mst.usa_le
  exact ⟨h.block, ⟨List.Pairwise.nil, List.Pairwise.nil⟩, by omega, rfl, fun _ _ => rfl⟩

/-- The array is where it was. -/
theorem LinkIndex.mstOk {coll : NameCollation} {n : ℕ} {blank idx fin : List UInt8}
    {entries : List (List UInt8)} (h : LinkIndex coll blank idx entries fin)
    (hmst : MstOk n 0x28 blank) : MstOk n 0x28 idx := by
  have hofs : leAt idx 4 2 = leAt blank 4 2 := leAt_congr fun i hi => h.header _ (by omega)
  have hcount : leAt idx 6 2 = leAt blank 6 2 := leAt_congr fun i hi => h.header _ (by omega)
  exact ⟨hmst.pos, h.length.trans hmst.length, hofs.trans hmst.usa_ofs, hcount.trans hmst.usa_count,
    hmst.usa_ge, hmst.usa_le⟩

end NtfsKit
