import NtfsKit.Format.Bitmap
import NtfsKit.Bridge.NkDev

/-! Writing a value where a runlist says. `ntfs_rlwrite` goes through the runs, seeks each of them
and writes its part of the value, piece by piece as the device takes it; what the last run has
behind the end of the value is filled with zeroes. The pieces of `$Bitmap` and of `$LogFile` are
made as they are written. -/

namespace NtfsKit

/-- `WRITE_TYPE`, with the value. -/
inductive WriteType
  | standard (val : List UInt8)
  | bitmap (runs : List ClusterRun)
  | logfile

/-- The device and `g_dynamic_buf`. -/
structure Writer (σ : Type) where
  dev : NkDevice σ
  buf : List UInt8

section Operations

variable {σ : Type} (io : NkIo σ)

/-- `mkntfs_bitmap_write`. -/
def mkntfsBitmapWrite (runs : List ClusterRun) (offset length : ℕ) (w : Writer σ) : ℤ × Writer σ :=
  let partialLength := min length w.buf.length
  let buf := bitmapBuild runs (8 * offset) (8 * partialLength) w.buf
  let r := nkdevWrite io (buf.take partialLength) w.dev
  (r.1, ⟨r.2, buf⟩)

/-- `mkntfs_logfile_write`. -/
def mkntfsLogfileWrite (length : ℕ) (w : Writer σ) : ℤ × Writer σ :=
  let partialLength := min length w.buf.length
  let buf := List.replicate partialLength 255 ++ w.buf.drop partialLength
  let r := nkdevWrite io (buf.take partialLength) w.dev
  (r.1, ⟨r.2, buf⟩)

/-- Write a piece of the value, of `length` bytes from byte `total` on at most. -/
def WriteType.writePiece (t : WriteType) (total length : ℕ) (w : Writer σ) : ℤ × Writer σ :=
  match t with
  | .standard val =>
    let r := nkdevWrite io ((val.drop total).take length) w.dev
    (r.1, { w with dev := r.2 })
  | .bitmap runs => mkntfsBitmapWrite io runs total length w
  | .logfile => mkntfsLogfileWrite io length w

/-- The loop that writes until all is written, or the third time that nothing is; an error is the
return of -1, with the `total` reached before. A round writes something or counts as a retry. -/
def retryLoop (piece : ℕ → ℕ → Writer σ → ℤ × Writer σ) :
    ℕ → ℕ → ℕ → ℕ → Writer σ → Except ℕ (ℕ × ℕ) × Writer σ
  | 0, total, length, _, w => (.ok (total, length), w)
  | fuel + 1, total, length, retry, w =>
    let r := piece total length w
    if r.1 = -1 then (.error total, r.2)
    else
      let retry := if r.1 = 0 then retry + 1 else retry
      let length := length - r.1.toNat
      let total := total + r.1.toNat
      if length ≠ 0 ∧ retry < 3 then retryLoop piece fuel total length retry r.2
      else (.ok (total, length), r.2)

/-- `mkntfs_write`. The buffer is not advanced. -/
def mkntfsWrite (b : List UInt8) (w : Writer σ) : Option ℕ × Writer σ :=
  let r := retryLoop (fun _ count w =>
    let r := nkdevWrite io (b.take count) w.dev
    (r.1, { w with dev := r.2 })) (b.length + 3) 0 b.length 0 w
  (r.1.toOption.map (·.1), r.2)

/-- How the loop over the runs ends. -/
inductive RunsEnd
  | error (inited : ℕ)
  | short (total inited : ℕ)
  | done (total delta inited : ℕ)

/-- The loop over the runs; `inited` counts the bytes that are written. A run that begins behind the
end of the value has a negative `length` in the code, where it is 0 here: no runlist of the format
has one (`Target`), as its holes end where the value does at the latest. -/
def rlwriteRuns (t : WriteType) (clusterSize valLen : ℕ) :
    List RunlistElement → ℕ → ℕ → ℕ → Writer σ → RunsEnd × Writer σ
  | [], total, delta, inited, w => (.done total delta inited, w)
  | e :: rl, total, delta, inited, w =>
    if e.length = 0 then (.done total delta inited, w)
    else
      let length := e.length.toNat * clusterSize
      if e.lcn = lcnHole then
        rlwriteRuns t clusterSize valLen rl (total + length) delta inited w
      else
        let delta := if valLen < total + length then length - (valLen - total) else delta
        let length := if valLen < total + length then valLen - total else length
        let s := nkdevSeek io (e.lcn * clusterSize) .set w.dev
        if s.1 = -1 then (.error inited, { w with dev := s.2 })
        else
          match retryLoop (t.writePiece io) (length + 3) total length 0 { w with dev := s.2 } with
          | (.error total', w) => (.error (inited + (total' - total)), w)
          | (.ok (total', left), w) =>
            let inited := inited + (total' - total)
            if left ≠ 0 then (.short total' inited, w)
            else rlwriteRuns t clusterSize valLen rl total' delta inited w

/-- `ntfs_rlwrite` with its `inited_size`; `callocOk` tells whether the zeroes get their memory. -/
def ntfsRlwrite (callocOk : Bool) (t : WriteType) (clusterSize valLen : ℕ) (rl : Runlist)
    (w : Writer σ) : (ℤ × ℕ) × Writer σ :=
  match rlwriteRuns io t clusterSize valLen rl 0 0 0 w with
  | (.error inited, w) => ((-1, inited), w)
  | (.short total inited, w) => ((total, inited), w)
  | (.done total delta inited, w) =>
    if delta = 0 then ((total, inited), w)
    else if callocOk then
      match mkntfsWrite io (List.replicate delta 0) w with
      | (none, w) => ((-1, inited), w)
      | (some _, w) => ((total, inited), w)
    else ((-1, inited), w)

end Operations

/-! ### Pieces -/

/-- Byte `x` of the bitmap, built on its own. -/
def bitmapByte (runs : List ClusterRun) (x : ℕ) : UInt8 := byteAt (bitmapBuild runs (8 * x) 8 []) 0

/-- Byte `x` of the value. -/
def WriteType.byte : WriteType → ℕ → UInt8
  | .standard val, x => byteAt val x
  | .bitmap runs, x => bitmapByte runs x
  | .logfile, _ => 255

/-- The value has bytes up to `n`. -/
def WriteType.Has (n : ℕ) : WriteType → Prop
  | .standard val => n ≤ val.length
  | _ => True

theorem UInt8.eq_of_testBit {a b : UInt8} (h : ∀ j, j < 8 → a.toNat.testBit j = b.toNat.testBit j) :
    a = b := by
  apply UInt8.toNat_inj.mp
  apply Nat.eq_of_testBit_eq
  intro j
  by_cases hj : j < 8
  · exact h j hj
  · have hpow : 2 ^ 8 ≤ 2 ^ j := Nat.pow_le_pow_right (by decide) (not_lt.mp hj)
    rw [Nat.testBit_lt_two_pow (a.toNat_lt.trans_le hpow),
      Nat.testBit_lt_two_pow (b.toNat_lt.trans_le hpow)]

/-- The bits of a byte of the bitmap. -/
theorem bitmapByte_testBit (runs : List ClusterRun) (x : ℕ) {j : ℕ} (hj : j < 8) :
    (bitmapByte runs x).toNat.testBit j = decide (8 * x + j ∈ clustersOf runs) := by
  have hbit := bitmapBuild_bit runs (8 * x) 8 [] j
  rw [bitAt, if_pos (by omega), show j / 8 = 0 by omega, Nat.mod_eq_of_lt hj] at hbit
  rw [bitmapByte, hbit]
  simp [hj]

/-- A byte of a section of the bitmap. -/
theorem byteAt_bitmapBuild (runs : List ClusterRun) (o n : ℕ) (buf : List UInt8) {i : ℕ}
    (hi : i < n) : byteAt (bitmapBuild runs (8 * o) (8 * n) buf) i = bitmapByte runs (o + i) := by
  apply UInt8.eq_of_testBit
  intro j hj
  have hbit := bitmapBuild_bit runs (8 * o) (8 * n) buf (8 * i + j)
  rw [bitAt, if_pos (by omega), show (8 * i + j) / 8 = i by omega,
    show (8 * i + j) % 8 = j by omega] at hbit
  rw [hbit, bitmapByte_testBit runs _ hj, decide_eq_decide, mul_add, ← add_assoc]
  exact and_iff_right (by omega)

/-! ### Loops -/

section Loops

variable {σ : Type} {io : NkIo σ}

/-- Bytes `total` to `total + n` of the value are written at the position, which is behind them
then. -/
structure Puts (io : NkIo σ) (want : ℕ → UInt8) (total n : ℕ) (w w' : Writer σ) : Prop where
  readOnly : w'.dev.readOnly = false
  buf : w'.buf.length = w.buf.length
  pos : w'.dev.pos = w.dev.pos + n
  view : ∀ q, io.view w'.dev.ctx q =
    if w.dev.pos ≤ q ∧ q < w.dev.pos + n then want (total + (q - w.dev.pos).toNat)
    else io.view w.dev.ctx q

/-- A write of `n` bytes has failed: nothing outside of these is changed. -/
structure Confined (io : NkIo σ) (n : ℕ) (w w' : Writer σ) : Prop where
  fails : io.MayFail
  readOnly : w'.dev.readOnly = false
  buf : w'.buf.length = w.buf.length
  view : ∀ q, ¬ (w.dev.pos ≤ q ∧ q < w.dev.pos + n) → io.view w'.dev.ctx q = io.view w.dev.ctx q

theorem Puts.trans {want : ℕ → UInt8} {total n m : ℕ} {w w' w'' : Writer σ}
    (h : Puts io want total n w w') (h' : Puts io want (total + n) m w' w'') :
    Puts io want total (n + m) w w'' := by
  refine ⟨h'.readOnly, h'.buf.trans h.buf, by rw [h'.pos, h.pos]; push_cast; ring, fun q => ?_⟩
  rw [h'.view, h.view, h.pos]
  by_cases h1 : w.dev.pos + n ≤ q ∧ q < w.dev.pos + n + m
  · rw [if_pos h1, if_pos (by omega)]
    congr 1
    omega
  · rw [if_neg h1]
    by_cases h2 : w.dev.pos ≤ q ∧ q < w.dev.pos + n
    · rw [if_pos h2, if_pos (by omega)]
    · rw [if_neg h2, if_neg (by omega)]

theorem Puts.confined_trans {want : ℕ → UInt8} {total n m : ℕ} {w w' w'' : Writer σ}
    (h : Puts io want total n w w') (h' : Confined io m w' w'') : Confined io (n + m) w w'' := by
  refine ⟨h'.fails, h'.readOnly, h'.buf.trans h.buf, fun q hq => ?_⟩
  have hpos := h.pos
  rw [h'.view q (by omega), h.view, if_neg (by omega)]

/-- A piece gets on by some bytes of the value, or fails with -1. -/
def PieceOk (io : NkIo σ) (want : ℕ → UInt8) (piece : ℕ → ℕ → Writer σ → ℤ × Writer σ)
    (total length : ℕ) (w : Writer σ) : Prop :=
  ∃ n w', piece total length w = (n, w') ∧
    ((n = -1 ∧ Confined io length w w') ∨
      ∃ m : ℕ, n = m ∧ m ≤ length ∧ (0 < length → 0 < m) ∧ Puts io want total m w w')

/-- The bytes to be written lie on the device. -/
def Writer.Fits (io : NkIo σ) (length : ℕ) (w : Writer σ) : Prop :=
  w.dev.readOnly = false ∧ w.buf ≠ [] ∧ 0 ≤ w.dev.pos ∧ w.dev.pos + length ≤ io.size

theorem Puts.fits {want : ℕ → UInt8} {total n m : ℕ} {w w' : Writer σ}
    (h : Puts io want total n w w') (hw : w.Fits io (n + m)) : w'.Fits io m := by
  obtain ⟨-, hbuf, hpos, hsize⟩ := hw
  refine ⟨h.readOnly, ?_, ?_, ?_⟩
  · exact List.ne_nil_of_length_pos (h.buf ▸ List.length_pos_of_ne_nil hbuf)
  · rw [h.pos]
    omega
  · rw [h.pos]
    push_cast at hsize
    omega

/-- The loop writes all that it has to, unless the device fails. -/
theorem retryLoop_spec {want : ℕ → UInt8} {piece : ℕ → ℕ → Writer σ → ℤ × Writer σ} {stop : ℕ}
    (hpiece : ∀ total length w, total + length = stop → w.Fits io length →
      PieceOk io want piece total length w) (fuel : ℕ) :
    ∀ (total length retry : ℕ) (w : Writer σ), total + length = stop → length < fuel → retry < 3 →
      w.Fits io length → ∃ r w', retryLoop piece fuel total length retry w = (r, w') ∧
        (((∃ n, r = .error n) ∧ Confined io length w w') ∨
          (r = .ok (stop, 0) ∧ Puts io want total length w w')) := by
  induction fuel with
  | zero =>
    intro total length retry w _ hf
    exact absurd hf (Nat.not_lt_zero _)
  | succ fuel ih =>
    intro total length retry w hstop hf hretry hw
    obtain ⟨n, w', hrun, hcases⟩ := hpiece total length w hstop hw
    rw [retryLoop, hrun]
    rcases hcases with ⟨rfl, hfail⟩ | ⟨m, rfl, hle, hprogress, hputs⟩
    · exact ⟨_, w', rfl, .inl ⟨⟨_, rfl⟩, hfail⟩⟩
    · have hne : ¬ (m : ℤ) = -1 := by omega
      obtain ⟨k, rfl⟩ := Nat.exists_eq_add_of_le hle
      simp only [hne, if_false, Int.toNat_natCast, Nat.add_sub_cancel_left]
      by_cases hk : k = 0
      · subst hk
        rw [if_neg (by simp)]
        exact ⟨_, w', rfl, .inr ⟨by rw [← hstop]; rfl, hputs⟩⟩
      · have hm : 0 < m := hprogress (by omega)
        rw [if_neg (show ¬ (m : ℤ) = 0 by omega), if_pos ⟨hk, hretry⟩]
        obtain ⟨r, w'', hrun', hcases'⟩ := ih (total + m) k retry w' (by omega) (by omega) hretry
          (hputs.fits hw)
        refine ⟨r, w'', hrun', ?_⟩
        rcases hcases' with ⟨hr, hfail⟩ | ⟨hr, hputs'⟩
        · exact .inl ⟨hr, hputs.confined_trans hfail⟩
        · exact .inr ⟨hr, hputs.trans hputs'⟩

/-- A call of `write` with bytes of the value. -/
theorem pieceOk_write (h : io.Spec) {want : ℕ → UInt8} {total length : ℕ} {l buf : List UInt8}
    {w : Writer σ} (hw : w.Fits io length) (hl : l.length ≤ length) (hne : 0 < length → l ≠ [])
    (hbytes : ∀ i, i < l.length → byteAt l i = want (total + i))
    (hbuf : buf.length = w.buf.length) : ∃ n w',
      ((nkdevWrite io l w.dev).1, (⟨(nkdevWrite io l w.dev).2, buf⟩ : Writer σ)) = (n, w') ∧
      ((n = -1 ∧ Confined io length w w') ∨
        ∃ m : ℕ, n = m ∧ m ≤ length ∧ (0 < length → 0 < m) ∧ Puts io want total m w w') := by
  obtain ⟨hrw, -, hpos, hsize⟩ := hw
  obtain ⟨n, d', hrun, hrw', hcases⟩ := nkdevWrite_spec h l hrw
  rw [hrun]
  refine ⟨_, _, rfl, ?_⟩
  rcases hcases with ⟨rfl, hfails, hframe⟩ | ⟨h0, hle, hpos', hview, hprogress⟩
  · exact .inl ⟨rfl, hfails, hrw', hbuf, fun q hq => hframe q (by omega)⟩
  · obtain ⟨m, rfl⟩ := Int.eq_ofNat_of_zero_le h0
    have hml : m ≤ l.length := by exact_mod_cast hle
    refine .inr ⟨m, rfl, hml.trans hl, fun hlen => ?_, hrw', hbuf, hpos', fun q => ?_⟩
    · exact_mod_cast hprogress (hne hlen) hpos (by omega)
    · rw [hview, Int.toNat_natCast]
      split_ifs with hq
      · have hk : (q - w.dev.pos).toNat < m := by omega
        rw [← hbytes _ (by omega), overwrite_apply _ _ _ hq.1]
        rw [List.getElem?_take_of_lt hk, byteAt, List.getD_eq_getElem?_getD,
          List.getElem?_eq_getElem (by omega)]
        rfl
      · exact overwrite_outside _ _ _ (by rw [List.length_take]; omega)

/-- The pieces of a value are as it says. -/
theorem WriteType.piece_ok (h : io.Spec) {t : WriteType} {total length : ℕ} {w : Writer σ}
    (ht : t.Has (total + length)) (hw : w.Fits io length) :
    PieceOk io t.byte (t.writePiece io) total length w := by
  have hbuf : 0 < w.buf.length := List.length_pos_of_ne_nil hw.2.1
  cases t with
  | standard val =>
    have hval : total + length ≤ val.length := ht
    have hlen : ((val.drop total).take length).length = length := by
      rw [List.length_take, List.length_drop]
      omega
    refine pieceOk_write h hw hlen.le (fun hpos hnil => ?_) (fun i hi => ?_) rfl
    · rw [hnil] at hlen
      exact absurd hlen (by simpa using hpos.ne)
    · rw [hlen] at hi
      simp only [byteAt, WriteType.byte, List.getD_eq_getElem?_getD, List.getElem?_take_of_lt hi,
        List.getElem?_drop]
  | bitmap runs =>
    have hlen : ((bitmapBuild runs (8 * total) (8 * min length w.buf.length) w.buf).take
        (min length w.buf.length)).length = min length w.buf.length := by
      rw [List.length_take, length_bitmapBuild (by omega)]
      omega
    refine pieceOk_write h hw (by rw [hlen]; exact min_le_left _ _) (fun hpos hnil => ?_)
      (fun i hi => ?_) (length_bitmapBuild (by omega))
    · rw [hnil] at hlen
      have : (0 : ℕ) = min length w.buf.length := hlen
      omega
    · rw [hlen] at hi
      rw [byteAt, List.getD_eq_getElem?_getD, List.getElem?_take_of_lt hi,
        ← List.getD_eq_getElem?_getD]
      exact byteAt_bitmapBuild runs total _ w.buf hi
  | logfile =>
    have hlen : ((List.replicate (min length w.buf.length) (255 : UInt8) ++
        w.buf.drop (min length w.buf.length)).take (min length w.buf.length)).length =
          min length w.buf.length := by
      simp
    refine pieceOk_write h hw (by rw [hlen]; exact min_le_left _ _) (fun hpos hnil => ?_)
      (fun i hi => ?_) (by simp)
    · rw [hnil] at hlen
      have : (0 : ℕ) = min length w.buf.length := hlen
      omega
    · rw [hlen] at hi
      rw [byteAt, List.getD_eq_getElem?_getD, List.getElem?_take_of_lt hi,
        List.getElem?_append_left (by simpa using hi), List.getElem?_replicate_of_lt hi]
      rfl

/-- `mkntfs_write` of zeroes. -/
theorem mkntfsWrite_zeros (h : io.Spec) {n : ℕ} {w : Writer σ} (hw : w.Fits io n) :
    ∃ r w', mkntfsWrite io (List.replicate n 0) w = (r, w') ∧
      ((r = none ∧ Confined io n w w') ∨ (r = some n ∧ Puts io (fun _ => 0) 0 n w w')) := by
  have hpiece : ∀ total length (w : Writer σ), total + length = n → w.Fits io length →
      PieceOk io (fun _ => 0) (fun _ count w =>
        ((nkdevWrite io ((List.replicate n 0).take count) w.dev).1,
          { w with dev := (nkdevWrite io ((List.replicate n 0).take count) w.dev).2 }))
        total length w := by
    intro total length w hstop hw
    have hlen : ((List.replicate n (0 : UInt8)).take length).length = length := by
      rw [List.length_take, List.length_replicate]
      omega
    refine pieceOk_write h hw hlen.le (fun hpos hnil => ?_) (fun i hi => ?_) rfl
    · rw [hnil] at hlen
      exact absurd hlen (by simpa using hpos.ne)
    · rw [hlen] at hi
      rw [byteAt, List.getD_eq_getElem?_getD, List.getElem?_take_of_lt hi,
        List.getElem?_replicate_of_lt (by omega)]
      rfl
  obtain ⟨r, w', hrun, hcases⟩ := retryLoop_spec hpiece (n + 3) 0 n 0 w (Nat.zero_add n) (by omega)
    (by decide) hw
  rw [mkntfsWrite, List.length_replicate, hrun]
  refine ⟨_, w', rfl, ?_⟩
  rcases hcases with ⟨⟨_, rfl⟩, hfail⟩ | ⟨rfl, hputs⟩
  · exact .inl ⟨rfl, hfail⟩
  · exact .inr ⟨rfl, hputs⟩

theorem WriteType.Has.mono {t : WriteType} {n m : ℕ} (h : t.Has n) (hm : m ≤ n) : t.Has m := by
  cases t with
  | standard val => exact hm.trans h
  | bitmap runs => trivial
  | logfile => trivial

/-- Where a list of elements places byte `x` of the attribute. -/
def placeOf (cs : ℕ) (els : List RunlistElement) (x : ℤ) : Option ℤ :=
  els.findSome? (RunlistElement.phys cs · x)

theorem placeOf_cons {cs : ℕ} {e : RunlistElement} {rl : List RunlistElement} {x : ℤ} :
    placeOf cs (e :: rl) x = (e.phys cs x).or (placeOf cs rl x) := by
  rw [placeOf, List.findSome?_cons]
  cases e.phys cs x <;> rfl

theorem placeOf_ge {cs v : ℕ} {rl : List RunlistElement} (h : Contiguous v rl) {x p : ℤ}
    (hx : placeOf cs rl x = some p) : (v : ℤ) * cs ≤ x := by
  obtain ⟨e, he, hep⟩ := List.exists_of_findSome?_eq_some hx
  obtain ⟨⟨-, h1, -⟩, -⟩ := RunlistElement.phys_eq_some.mp hep
  exact (Int.mul_le_mul_of_nonneg_right (h.vcn_ge e he).1 (Int.natCast_nonneg cs)).trans h1

/-- The elements to be written: they follow each other, place no two bytes alike and all on the
device, and only the last one may go on behind the end of the value. -/
structure Target (io : NkIo σ) (cs valLen v : ℕ) (els : List RunlistElement) : Prop where
  contiguous : Contiguous v els
  apart : ∀ x y p, placeOf cs els x = some p → placeOf cs els y = some p → x = y
  inside : ∀ x p, placeOf cs els x = some p → p < io.size
  start : els ≠ [] → v * cs ≤ valLen
  full : ∀ e ∈ els.dropLast, (e.vcn + e.length) * cs ≤ valLen

theorem Target.tail {cs valLen v n : ℕ} {e : RunlistElement} {rl : List RunlistElement}
    (h : Target io cs valLen v (e :: rl)) (hn : e.length = n) :
    Target io cs valLen (v + n) rl := by
  obtain ⟨hv, -, -, hrest⟩ := h.contiguous
  have hrest' : Contiguous ((v + n : ℕ) : ℤ) rl := by
    rw [hn] at hrest
    exact_mod_cast hrest
  have hplace {x p : ℤ} (hx : placeOf cs rl x = some p) : placeOf cs (e :: rl) x = some p := by
    have hge := placeOf_ge hrest' hx
    rw [placeOf_cons, hx]
    have hnone : e.phys cs x = none := by
      rw [RunlistElement.phys, if_neg]
      rintro ⟨-, -, hlt⟩
      rw [hv, hn] at hlt
      push_cast at hge
      rw [add_mul] at hge
      omega
    rw [hnone]
    rfl
  refine ⟨hrest', fun x y p hx hy => h.apart x y p (hplace hx) (hplace hy),
    fun x p hx => h.inside x p (hplace hx), fun hne => ?_, fun f hf => ?_⟩
  · have := h.full e (by rw [List.dropLast_cons_of_ne_nil hne]; simp)
    rw [hv, hn] at this
    exact_mod_cast this
  · have hne : rl ≠ [] := by
      rintro rfl
      simp at hf
    exact h.full f (by rw [List.dropLast_cons_of_ne_nil hne]; simp [hf])

/-- The clusters of an element lie on the device. -/
theorem Target.size {cs valLen v n : ℕ} {e : RunlistElement} {rl : List RunlistElement}
    (h : Target io cs valLen v (e :: rl)) (hcs : 0 < cs) (hn : e.length = n) (hlcn : 0 ≤ e.lcn) :
    e.lcn * cs + n * cs ≤ io.size := by
  obtain ⟨hv, hpos, -, -⟩ := h.contiguous
  have hn1 : (cs : ℤ) ≤ n * cs := by
    have : 1 * cs ≤ n * cs := Nat.mul_le_mul_right cs (by omega)
    have hone : cs ≤ n * cs := by omega
    exact_mod_cast hone
  have hin := h.inside (v * cs + (n * cs - 1)) (e.lcn * cs + (n * cs - 1)) (by
    rw [placeOf_cons, RunlistElement.phys, hv, hn, if_pos ⟨hlcn, by omega, by omega⟩]
    simp)
  omega

/-- A run that goes on behind the end of the value is the last. -/
theorem Target.last {cs valLen v n : ℕ} {e : RunlistElement} {rl : List RunlistElement}
    (h : Target io cs valLen v (e :: rl)) (hn : e.length = n) (hlast : valLen < (v + n) * cs) :
    rl = [] := by
  by_contra hne
  have hfull := h.full e (by rw [List.dropLast_cons_of_ne_nil hne]; simp)
  rw [h.contiguous.1, hn] at hfull
  have : (v + n) * cs ≤ valLen := by exact_mod_cast hfull
  omega

/-- Nothing is changed but where the elements are. -/
structure OnlyPlaced (io : NkIo σ) (cs : ℕ) (els : List RunlistElement) (w w' : Writer σ) :
    Prop where
  readOnly : w'.dev.readOnly = false
  buf : w'.buf ≠ []
  frame : ∀ q, (∀ x, placeOf cs els x ≠ some q) → io.view w'.dev.ctx q = io.view w.dev.ctx q

/-- The value is where the elements are. The last `pad` bytes of these are behind its end, from the
position on. -/
structure ValueWritten (io : NkIo σ) (t : WriteType) (cs valLen : ℕ) (els : List RunlistElement)
    (pad : ℕ) (w' : Writer σ) : Prop where
  data : ∀ x p : ℤ, x < valLen → placeOf cs els x = some p → io.view w'.dev.ctx p = t.byte x.toNat
  rest : ∀ x p : ℤ, valLen ≤ x → placeOf cs els x = some p →
    p = w'.dev.pos + (x - valLen) ∧ x < valLen + pad
  padded : ∀ k : ℕ, k < pad → placeOf cs els (valLen + k) = some (w'.dev.pos + k)

/-- A run is written: as many bytes of it as the value still has. -/
theorem run_written (h : io.Spec) {t : WriteType} {cs v n len : ℕ} {e : RunlistElement}
    (hv : e.vcn = v) (hn : e.length = n) (hlcn : 0 ≤ e.lcn) (hlen : len ≤ n * cs)
    (ht : t.Has (v * cs + len)) (hsize : e.lcn * cs + n * cs ≤ io.size) {w : Writer σ}
    (hrw : w.dev.readOnly = false) (hbuf : w.buf ≠ []) :
    ∃ r w', retryLoop (t.writePiece io) (len + 3) (v * cs) len 0
        { w with dev := { w.dev with pos := e.lcn * cs } } = (r, w') ∧
      OnlyPlaced io cs [e] w w' ∧ (((∃ n, r = .error n) ∧ io.MayFail) ∨ (r = .ok (v * cs + len, 0) ∧
        w'.dev.pos = e.lcn * cs + len ∧ ∀ x p : ℤ, x < (v * cs + len : ℕ) →
          e.phys cs x = some p → io.view w'.dev.ctx p = t.byte x.toNat)) := by
  have hbase : 0 ≤ e.lcn * cs := mul_nonneg hlcn (Int.natCast_nonneg cs)
  have hlen' : (len : ℤ) ≤ n * cs := by exact_mod_cast hlen
  have hpiece : ∀ total length (w : Writer σ), total + length = v * cs + len →
      w.Fits io length → PieceOk io t.byte (t.writePiece io) total length w :=
    fun total length w hstop hw => t.piece_ok h (hstop ▸ ht) hw
  obtain ⟨r, w', hrun, hcases⟩ := retryLoop_spec hpiece (len + 3) (v * cs) len 0
    { w with dev := { w.dev with pos := e.lcn * cs } } rfl (by omega) (by decide)
    ⟨hrw, hbuf, hbase, by dsimp only; omega⟩
  have hplaced : ∀ q, (∀ x, placeOf cs [e] x ≠ some q) →
      ¬ (e.lcn * cs ≤ q ∧ q < e.lcn * cs + len) := by
    rintro q hq ⟨h1, h2⟩
    apply hq (e.vcn * cs + (q - e.lcn * cs))
    rw [placeOf_cons, RunlistElement.phys, hn, if_pos ⟨hlcn, by omega, by omega⟩]
    simp
  refine ⟨r, w', hrun, ?_⟩
  rcases hcases with ⟨herror, hfail⟩ | ⟨rfl, hputs⟩
  · exact ⟨⟨hfail.readOnly, List.ne_nil_of_length_pos (hfail.buf ▸ List.length_pos_of_ne_nil hbuf),
      fun q hq => hfail.view q (hplaced q hq)⟩, .inl ⟨herror, hfail.fails⟩⟩
  · refine ⟨⟨hputs.readOnly, List.ne_nil_of_length_pos
      (hputs.buf ▸ List.length_pos_of_ne_nil hbuf), fun q hq => ?_⟩, .inr ⟨rfl, hputs.pos, ?_⟩⟩
    · rw [hputs.view, if_neg (hplaced q hq)]
    · intro x p hx hp
      obtain ⟨⟨-, h1, -⟩, hp⟩ := RunlistElement.phys_eq_some.mp hp
      rw [hv] at h1 hp
      push_cast at hx
      have hx0 : (0 : ℤ) ≤ v * cs := by positivity
      rw [hputs.view, if_pos ⟨by dsimp only; omega, by dsimp only; omega⟩]
      congr 1
      have hvc : ((v * cs : ℕ) : ℤ) = v * cs := by push_cast; ring
      dsimp only
      omega

/-- What the loop over the runs comes to. -/
def RunsOutcome (io : NkIo σ) (t : WriteType) (cs valLen v delta : ℕ)
    (els : List RunlistElement) (w : Writer σ) (r : RunsEnd) (w' : Writer σ) : Prop :=
  OnlyPlaced io cs els w w' ∧
    (((∃ inited, r = .error inited) ∧ io.MayFail) ∨
      ∃ total delta' inited pad, r = .done total delta' inited ∧
      ValueWritten io t cs valLen els pad w' ∧
      ((pad = 0 ∧ delta' = delta ∧ (total : ℤ) = v * cs + (els.map (·.length)).sum * cs) ∨
        (0 < pad ∧ delta' = pad ∧ total = valLen)))

/-- A hole in front. -/
theorem RunsOutcome.hole {t : WriteType} {cs valLen v n delta : ℕ} {e : RunlistElement}
    {rl : List RunlistElement} {w w' : Writer σ} {r : RunsEnd} (hhole : e.lcn = lcnHole)
    (hn : e.length = n) (h : RunsOutcome io t cs valLen (v + n) delta rl w r w') :
    RunsOutcome io t cs valLen v delta (e :: rl) w r w' := by
  have hplace : placeOf cs (e :: rl) = placeOf cs rl := by
    funext x
    rw [placeOf_cons, RunlistElement.phys_hole hhole]
    rfl
  obtain ⟨hframe, hcases⟩ := h
  refine ⟨⟨hframe.readOnly, hframe.buf, by rw [hplace]; exact hframe.frame⟩, ?_⟩
  rcases hcases with hr | ⟨total, delta', inited, pad, hr, hval, hend⟩
  · exact .inl hr
  · refine .inr ⟨total, delta', inited, pad, hr, ⟨?_, ?_, ?_⟩, ?_⟩
    · rw [hplace]; exact hval.data
    · rw [hplace]; exact hval.rest
    · rw [hplace]; exact hval.padded
    · rcases hend with ⟨h1, h2, h3⟩ | hpad
      · refine .inl ⟨h1, h2, ?_⟩
        rw [h3, List.map_cons, List.sum_cons, hn]
        push_cast
        ring
      · exact .inr hpad

theorem OnlyPlaced.cons {cs : ℕ} {e : RunlistElement} {rl : List RunlistElement}
    {w w' w'' : Writer σ} (h : OnlyPlaced io cs [e] w w') (h' : OnlyPlaced io cs rl w' w'')
    (hrl : ∀ x p, placeOf cs rl x = some p → placeOf cs (e :: rl) x = some p) :
    OnlyPlaced io cs (e :: rl) w w'' := by
  refine ⟨h'.readOnly, h'.buf, fun q hq => ?_⟩
  rw [h'.frame q fun x hx => hq x (hrl x q hx), h.frame q fun x hx => ?_]
  apply hq x
  rw [placeOf_cons] at hx ⊢
  rw [show e.phys cs x = some q by simpa [placeOf] using hx]
  rfl

theorem OnlyPlaced.cons_of_head {cs : ℕ} {e : RunlistElement} {rl : List RunlistElement}
    {w w' : Writer σ} (h : OnlyPlaced io cs [e] w w') : OnlyPlaced io cs (e :: rl) w w' := by
  refine ⟨h.readOnly, h.buf, fun q hq => h.frame q fun x hx => hq x ?_⟩
  rw [placeOf_cons]
  rw [show e.phys cs x = some q by simpa [placeOf] using hx]
  rfl

/-- A run in front that is written whole. -/
theorem RunsOutcome.run {t : WriteType} {cs valLen v n delta : ℕ} {e : RunlistElement}
    {rl : List RunlistElement} {w w₁ w' : Writer σ} {r : RunsEnd}
    (htarget : Target io cs valLen v (e :: rl)) (hn : e.length = n)
    (hfits : (v + n) * cs ≤ valLen) (hhead : OnlyPlaced io cs [e] w w₁)
    (hdata : ∀ x p : ℤ, x < (v * cs + n * cs : ℕ) → e.phys cs x = some p →
      io.view w₁.dev.ctx p = t.byte x.toNat)
    (h : RunsOutcome io t cs valLen (v + n) delta rl w₁ r w') :
    RunsOutcome io t cs valLen v delta (e :: rl) w r w' := by
  obtain ⟨hv, -, -, hrest⟩ := htarget.contiguous
  have htail := htarget.tail hn
  have hphys : ∀ x p, e.phys cs x = some p → x < (v + n : ℕ) * cs := by
    intro x p hx
    obtain ⟨⟨-, -, hlt⟩, -⟩ := RunlistElement.phys_eq_some.mp hx
    rw [hv, hn] at hlt
    push_cast
    rw [add_mul]
    exact hlt
  have hrl : ∀ x p, placeOf cs rl x = some p → e.phys cs x = none ∧
      placeOf cs (e :: rl) x = some p := by
    intro x p hx
    have hge := placeOf_ge htail.contiguous hx
    have hnone : e.phys cs x = none := by
      cases hp : e.phys cs x with
      | none => rfl
      | some q => exact absurd (hphys x q hp) (not_lt.mpr hge)
    exact ⟨hnone, by rw [placeOf_cons, hnone, hx]; rfl⟩
  obtain ⟨hframe, hcases⟩ := h
  refine ⟨hhead.cons hframe fun x p hx => (hrl x p hx).2, ?_⟩
  rcases hcases with hr | ⟨total, delta', inited, pad, hr, hval, hend⟩
  · exact .inl hr
  · refine .inr ⟨total, delta', inited, pad, hr, ⟨?_, ?_, ?_⟩, ?_⟩
    · intro x p hx hp
      rw [placeOf_cons] at hp
      cases he : e.phys cs x with
      | none =>
        rw [he] at hp
        exact hval.data x p hx hp
      | some q =>
        -- no run behind the first one is where the first is
        rw [he] at hp
        obtain rfl : q = p := Option.some.inj hp
        have hlt := hphys x q he
        rw [hframe.frame q fun y hy => ?_]
        · exact hdata x q (by push_cast; push_cast [add_mul] at hlt; exact hlt) he
        · have hxy := htarget.apart x y q (by rw [placeOf_cons, he]; rfl) (hrl y q hy).2
          have hge := placeOf_ge htail.contiguous hy
          omega
    · intro x p hx hp
      rw [placeOf_cons] at hp
      cases he : e.phys cs x with
      | none =>
        rw [he] at hp
        exact hval.rest x p hx hp
      | some q =>
        have hlt := hphys x q he
        have hfits' : ((v + n : ℕ) : ℤ) * cs ≤ valLen := by exact_mod_cast hfits
        omega
    · intro k hk
      exact (hrl _ _ (hval.padded k hk)).2
    · rcases hend with ⟨h1, h2, h3⟩ | hpad
      · refine .inl ⟨h1, h2, ?_⟩
        rw [h3, List.map_cons, List.sum_cons, hn]
        push_cast
        ring
      · exact .inr hpad

/-- The loop over the runs writes the value, unless the device fails, and changes nothing else. -/
theorem rlwriteRuns_spec (h : io.Spec) {t : WriteType} {cs valLen : ℕ} (hcs : 0 < cs)
    (ht : t.Has valLen) (els : List RunlistElement) :
    ∀ (v delta inited : ℕ) (w : Writer σ), Target io cs valLen v els →
      w.dev.readOnly = false → w.buf ≠ [] → ∃ r w',
        rlwriteRuns io t cs valLen els (v * cs) delta inited w = (r, w') ∧
        RunsOutcome io t cs valLen v delta els w r w' := by
  induction els with
  | nil =>
    intro v delta inited w _ hrw hbuf
    exact ⟨_, w, rfl, ⟨hrw, hbuf, fun _ _ => rfl⟩, .inr ⟨_, _, _, 0, rfl,
      ⟨by simp [placeOf], by simp [placeOf], by simp⟩, .inl ⟨rfl, rfl, by simp⟩⟩⟩
  | cons e rl ih =>
    intro v delta inited w htarget hrw hbuf
    obtain ⟨hv, hpos, hlcn, -⟩ := htarget.contiguous
    obtain ⟨n, hn⟩ : ∃ n : ℕ, e.length = n := Int.eq_ofNat_of_zero_le hpos.le
    have htail := htarget.tail hn
    rw [rlwriteRuns, if_neg hpos.ne']
    simp only [hn, Int.toNat_natCast, ← add_mul]
    by_cases hhole : e.lcn = lcnHole
    · rw [if_pos hhole]
      obtain ⟨r, w', hrun, hout⟩ := ih (v + n) delta inited w htail hrw hbuf
      exact ⟨r, w', hrun, hout.hole hhole hn⟩
    · have hlcn : 0 ≤ e.lcn := by
        have hhole' : e.lcn ≠ -1 := hhole
        have hlcn' : (-1 : ℤ) ≤ e.lcn := hlcn
        omega
      have hbase : 0 ≤ e.lcn * cs := mul_nonneg hlcn (Int.natCast_nonneg cs)
      have hsize := htarget.size hcs hn hlcn
      rw [if_neg hhole, nkdevSeek_set hbase]
      have hne : ¬ e.lcn * (cs : ℤ) = -1 := by omega
      simp only [hne, if_false]
      have hstart := htarget.start (List.cons_ne_nil _ _)
      by_cases hlast : valLen < (v + n) * cs
      · -- the value ends in this run, which is the last
        have hrl : rl = [] := htarget.last hn hlast
        subst hrl
        obtain ⟨len, rfl⟩ := Nat.exists_eq_add_of_le hstart
        have hlen : len < n * cs := by
          rw [add_mul] at hlast
          omega
        rw [if_pos hlast, if_pos hlast, Nat.add_sub_cancel_left]
        obtain ⟨r, w', hrun, hplaced, hcases⟩ :=
          run_written h hv hn hlcn hlen.le ht hsize hrw hbuf
        rw [hrun]
        rcases hcases with ⟨⟨_, rfl⟩, hfails⟩ | ⟨rfl, hpos', hdata⟩
        · exact ⟨_, w', rfl, hplaced, .inl ⟨⟨_, rfl⟩, hfails⟩⟩
        · refine ⟨_, w', rfl, hplaced, .inr ⟨v * cs + len, n * cs - len, _, n * cs - len, rfl,
            ⟨?_, ?_, ?_⟩, .inr ⟨by omega, rfl, rfl⟩⟩⟩
          · intro x p hx hp
            exact hdata x p hx (by simpa [placeOf] using hp)
          · intro x p hx hp
            obtain ⟨⟨-, -, h2⟩, hp'⟩ := RunlistElement.phys_eq_some.mp
              (show e.phys cs x = some p by simpa [placeOf] using hp)
            rw [hv] at h2 hp'
            rw [hn] at h2
            rw [hpos']
            push_cast at hx ⊢
            have hcast : ((n * cs - len : ℕ) : ℤ) = n * cs - len := by
              rw [Nat.cast_sub hlen.le]
              push_cast
              ring
            rw [hcast]
            omega
          · intro k hk
            have hk' : (len : ℤ) + k < n * cs := by
              have : len + k < n * cs := by omega
              exact_mod_cast this
            rw [placeOf_cons, RunlistElement.phys, hv, hn, hpos']
            push_cast
            rw [if_pos ⟨hlcn, by omega, by omega⟩]
            simp only [Option.some_or]
            congr 1
            ring
      · rw [if_neg hlast, if_neg hlast]
        have hfits : (v + n) * cs ≤ valLen := not_lt.mp hlast
        obtain ⟨r, w₁, hrun, hplaced, hcases⟩ := run_written h hv hn hlcn le_rfl
          (ht.mono (by rwa [add_mul] at hfits)) hsize hrw hbuf
        rw [hrun]
        rcases hcases with ⟨⟨_, rfl⟩, hfails⟩ | ⟨rfl, -, hdata⟩
        · exact ⟨_, w₁, rfl, hplaced.cons_of_head, .inl ⟨⟨_, rfl⟩, hfails⟩⟩
        · obtain ⟨r, w', hrun', hout⟩ := ih (v + n) delta (inited + n * cs) w₁ htail
            hplaced.readOnly hplaced.buf
          refine ⟨r, w', ?_, hout.run htarget hn hfits hplaced hdata⟩
          simp only [ne_eq, not_true_eq_false, if_false, Nat.add_sub_cancel_left]
          rw [← add_mul]
          exact hrun'

/-- A runlist that was handed out can be written to. -/
theorem HandedOut.target {nr cs valLen : ℕ} {A : Finset ℕ} {rl : Runlist}
    (h : HandedOut nr ((valLen + cs - 1) / cs) A rl) (hcs : 0 < cs)
    (hsize : (nr * cs : ℕ) ≤ io.size) : Target io cs valLen 0 rl.elements := by
  have hcs' : (0 : ℤ) < cs := by exact_mod_cast hcs
  have hphys : ∀ x, placeOf cs rl.elements x = Runlist.phys cs rl.elements x := fun x => by
    rw [placeOf, Runlist.phys, h.contiguous.elements_eq]
  refine ⟨h.contiguous, fun x y p hx hy => ?_, fun x p hx => ?_, fun _ => by simp, fun e he => ?_⟩
  · rw [hphys] at hx hy
    exact (Runlist.Ok.of_nodup hcs' h.contiguous h.backed h.nodup).disjoint x y p hx hy
  · rw [hphys] at hx
    obtain ⟨k, hk, -, rfl⟩ := h.contiguous.phys_split hcs' h.backed hx
    have hin := (h.fresh _ (List.getElem_mem hk)).1
    have hmul : ((Runlist.clusters rl.elements)[k] + 1) * cs ≤ nr * cs :=
      Nat.mul_le_mul_right cs hin
    have hmul' : (((Runlist.clusters rl.elements)[k] : ℤ) + 1) * cs ≤ (nr * cs : ℕ) := by
      exact_mod_cast hmul
    have hmod := Int.emod_lt_of_pos x hcs'
    rw [add_mul, one_mul] at hmul'
    omega
  · have hlast := h.contiguous.before_last he
    rw [h.length] at hlast
    have hdiv : (valLen + cs - 1) / cs * cs ≤ valLen + cs - 1 := Nat.div_mul_le_self _ _
    generalize (valLen + cs - 1) / cs = n at hlast hdiv
    have hmul : (e.vcn + e.length + 1) * cs ≤ n * cs :=
      mul_le_mul_of_nonneg_right (by omega) hcs'.le
    have hdiv' : (n : ℤ) * cs ≤ valLen + cs - 1 := by
      have : (n * cs : ℕ) ≤ (valLen : ℤ) + cs - 1 := by omega
      exact_mod_cast this
    rw [add_mul, one_mul] at hmul
    omega

/-- Every byte of the clusters has its place. -/
theorem HandedOut.place {nr n cs : ℕ} {A : Finset ℕ} {rl : Runlist} (h : HandedOut nr n A rl)
    (hcs : 0 < cs) {x : ℕ} (hx : x < n * cs) : ∃ p, rl.phys cs x = some p := by
  have hcs' : (0 : ℤ) < cs := by exact_mod_cast hcs
  have hk : x / cs < (Runlist.clusters rl.elements).length := by
    rw [h.length]
    exact Nat.div_lt_of_lt_mul (Nat.mul_comm n cs ▸ hx)
  have hphys := h.contiguous.phys_clusters hcs' h.backed hk (Int.natCast_nonneg (x % cs))
    (by exact_mod_cast Nat.mod_lt x hcs)
  have hx' : ((x / cs : ℕ) : ℤ) * cs + (x % cs : ℕ) = x := by
    exact_mod_cast Nat.div_add_mod' x cs
  rw [hx', Runlist.phys, h.contiguous.elements_eq] at hphys
  exact ⟨_, hphys⟩

/-- The loop sees the elements before the terminator. -/
theorem rlwriteRuns_elements {t : WriteType} {cs valLen : ℕ} (rl : Runlist) :
    ∀ (total delta inited : ℕ) (w : Writer σ),
      rlwriteRuns io t cs valLen rl total delta inited w =
        rlwriteRuns io t cs valLen rl.elements total delta inited w := by
  induction rl with
  | nil => exact fun _ _ _ _ => rfl
  | cons e rl ih =>
    intro total delta inited w
    have ih' : ∀ (total delta inited : ℕ) (w : Writer σ),
        rlwriteRuns io t cs valLen rl total delta inited w =
          rlwriteRuns io t cs valLen (rl.takeWhile (·.length ≠ 0)) total delta inited w := ih
    rw [Runlist.elements, List.takeWhile_cons]
    by_cases h0 : e.length = 0
    · simp [rlwriteRuns, h0]
    · simp only [ne_eq, h0, not_false_eq_true, decide_true, if_true]
      rw [rlwriteRuns, rlwriteRuns, if_neg h0, if_neg h0]
      simp only [ih', ne_eq]

/-- The zeroes behind the end of the value. -/
theorem ValueWritten.zeros (h : io.Spec) {t : WriteType} {cs valLen v pad : ℕ}
    {els : List RunlistElement} {w w' : Writer σ} (hval : ValueWritten io t cs valLen els pad w')
    (htarget : Target io cs valLen v els) (hplaced : OnlyPlaced io cs els w w') (hpad : 0 < pad) :
    ∃ r w'', mkntfsWrite io (List.replicate pad 0) w' = (r, w'') ∧ OnlyPlaced io cs els w w'' ∧
      ((r = none ∧ io.MayFail) ∨ (r = some pad ∧ ∀ x p, placeOf cs els x = some p →
        io.view w''.dev.ctx p = if x < valLen then t.byte x.toNat else 0)) := by
  have hfirst := hval.padded 0 hpad
  have hlast := htarget.inside _ _ (hval.padded (pad - 1) (by omega))
  have hpos : 0 ≤ w'.dev.pos := by
    obtain ⟨e, he, hep⟩ := List.exists_of_findSome?_eq_some hfirst
    obtain ⟨⟨hlcn, h1, -⟩, hp⟩ := RunlistElement.phys_eq_some.mp hep
    have : 0 ≤ e.lcn * cs := mul_nonneg hlcn (Int.natCast_nonneg cs)
    simp only [Nat.cast_zero, add_zero] at hp
    omega
  have hin : ∀ q, w'.dev.pos ≤ q → q < w'.dev.pos + pad →
      placeOf cs els (valLen + (q - w'.dev.pos)) = some q := by
    intro q h1 h2
    have hk := hval.padded (q - w'.dev.pos).toNat (by omega)
    rwa [Int.toNat_of_nonneg (by omega), add_sub_cancel] at hk
  obtain ⟨r, w'', hrun, hcases⟩ := mkntfsWrite_zeros h (n := pad) (w := w')
    ⟨hplaced.readOnly, hplaced.buf, hpos, by omega⟩
  refine ⟨r, w'', hrun, ⟨?_, ?_, fun q hq => ?_⟩, ?_⟩
  · rcases hcases with ⟨-, hfail⟩ | ⟨-, hputs⟩
    · exact hfail.readOnly
    · exact hputs.readOnly
  · have hlen : w''.buf.length = w'.buf.length := by
      rcases hcases with ⟨-, hfail⟩ | ⟨-, hputs⟩
      · exact hfail.buf
      · exact hputs.buf
    exact List.ne_nil_of_length_pos (hlen ▸ List.length_pos_of_ne_nil hplaced.buf)
  · have hout : ¬ (w'.dev.pos ≤ q ∧ q < w'.dev.pos + pad) := fun hc => hq _ (hin q hc.1 hc.2)
    rcases hcases with ⟨-, hfail⟩ | ⟨-, hputs⟩
    · rw [hfail.view q hout, hplaced.frame q hq]
    · rw [hputs.view, if_neg hout, hplaced.frame q hq]
  · rcases hcases with ⟨hr, hfail⟩ | ⟨hr, hputs⟩
    · exact .inl ⟨hr, hfail.fails⟩
    · refine .inr ⟨hr, fun x p hp => ?_⟩
      rw [hputs.view]
      split_ifs with hc hx hx
      · have := htarget.apart x _ p hp (hin p hc.1 hc.2)
        omega
      · rfl
      · exact hval.data x p hx hp
      · obtain ⟨h1, h2⟩ := hval.rest x p (not_lt.mp hx) hp
        omega

/-- The value lies where the runlist says, with zeroes behind its end. -/
def Runlist.Has (io : NkIo σ) (t : WriteType) (cs valLen : ℕ) (rl : Runlist) (s : σ) : Prop :=
  ∀ x p, rl.phys cs x = some p → io.view s p = if x < valLen then t.byte x.toNat else 0

/-- `ntfs_rlwrite` puts every byte of the value where the runlist says and zeroes behind its end,
or returns -1 when a write fails or there is no memory for the zeroes; in either case nothing
changes where the runlist places no byte. -/
theorem ntfsRlwrite_spec (h : io.Spec) {t : WriteType} {cs valLen : ℕ} {rl : Runlist}
    (hcs : 0 < cs) (ht : t.Has valLen) (htarget : Target io cs valLen 0 rl.elements)
    (callocOk : Bool) {w : Writer σ} (hrw : w.dev.readOnly = false) (hbuf : w.buf ≠ []) :
    ∃ ret inited w', ntfsRlwrite io callocOk t cs valLen rl w = ((ret, inited), w') ∧
      OnlyPlaced io cs rl.elements w w' ∧
      ((ret = -1 ∧ (io.MayFail ∨ callocOk = false)) ∨
        ((ret = valLen ∨ (ret = (rl.elements.map (·.length)).sum * cs ∧
          ∀ x p, rl.phys cs x = some p → x < valLen)) ∧ rl.Has io t cs valLen w'.dev.ctx)) := by
  obtain ⟨r, w', hrun, hplaced, hcases⟩ :=
    rlwriteRuns_spec h hcs ht rl.elements 0 0 0 w htarget hrw hbuf
  rw [Nat.zero_mul, ← rlwriteRuns_elements] at hrun
  rw [ntfsRlwrite, hrun]
  rcases hcases with ⟨⟨_, rfl⟩, hfails⟩ | ⟨total, delta, inited, pad, rfl, hval, hend⟩
  · exact ⟨_, _, w', rfl, hplaced, .inl ⟨rfl, .inl hfails⟩⟩
  · rcases hend with ⟨rfl, rfl, htotal⟩ | ⟨hpad, rfl, rfl⟩
    · have hinside : ∀ x p, rl.phys cs x = some p → x < valLen := by
        intro x p hp
        by_contra hx
        have := (hval.rest x p (not_lt.mp hx) hp).2
        simp only [Nat.cast_zero, add_zero] at this
        exact hx this
      refine ⟨_, _, w', rfl, hplaced,
        .inr ⟨.inr ⟨by simpa using htotal, hinside⟩, fun x p hp => ?_⟩⟩
      rw [if_pos (hinside x p hp)]
      exact hval.data x p (hinside x p hp) hp
    · obtain ⟨r, w'', hzero, hplaced', hdata⟩ := hval.zeros h htarget hplaced hpad
      simp only [hpad.ne', if_false]
      cases callocOk with
      | false => exact ⟨_, _, w', rfl, hplaced, .inl ⟨rfl, .inr rfl⟩⟩
      | true =>
        simp only [if_true, hzero]
        rcases hdata with ⟨rfl, hfails⟩ | ⟨rfl, hdata⟩
        · exact ⟨_, _, w'', rfl, hplaced', .inl ⟨rfl, .inl hfails⟩⟩
        · exact ⟨_, _, w'', rfl, hplaced', .inr ⟨.inl rfl, hdata⟩⟩

end Loops

end NtfsKit
