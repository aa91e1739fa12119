import NtfsKit.Volume.Adapters

/-! Both adapters refine one flat byte store. An adapter that moves whole granules
faithfully serves every request as the flat store does; the buffer cache does so in any
mix of its two modes, and the plain API does so at once. -/

namespace NtfsKit

open Prog

section Transfers

variable {S A : Type} {s : S}

theorem wp_onDevice {m : Prog S Fault A} {Q : A → Copying S → Prop} {X : Fault → Copying S → Prop}
    {t : Copying S} : wp (onDevice m) Q X t ↔
      wp m (fun a s => Q a { t with dev := s }) (fun e s => X e { t with dev := s }) t.dev := by
  unfold wp onDevice
  rcases m t.dev with ⟨e | a, u⟩ <;> rfl

/-- A transfer that neither throws nor traps. -/
theorem wp_attempt {m : Prog (Copying S) Fault A} {scratch : List UInt8} {Q : A → S → Prop}
    (h : wp m (fun a t => Q a t.dev) (fun _ _ => False) ⟨s, scratch⟩) :
    wp (attempt scratch m) (fun r t => ∃ a, r = some a ∧ Q a t) (fun _ _ => False) s := by
  unfold wp attempt
  unfold wp at h
  rcases hm : m ⟨s, scratch⟩ with ⟨e | a, t⟩ <;> rw [hm] at h
  · exact h.elim
  · exact ⟨a, rfl, h⟩

theorem wp_checked {o : Option A} {a : A} (h : o = some a) {Q : A → S → Prop}
    {X : Fault → S → Prop} (hQ : Q a s) : wp (checked o) Q X s := by
  subst h
  exact hQ

theorem exists_of_wp {m : Prog S Fault A} {Q : A → S → Prop}
    (h : wp m Q (fun _ _ => False) s) : ∃ a t, m s = (.ok a, t) ∧ Q a t := by
  unfold wp at h
  rcases hm : m s with ⟨e | a, t⟩ <;> rw [hm] at h
  · exact h.elim
  · exact ⟨a, t, rfl, h⟩

end Transfers

/-! ### The flat store -/

/-- A request of the engine; `memory` is what the scratch buffer happens to hold. -/
inductive Request
  | pread (memory : ℕ → UInt8) (count offset : ℤ)
  | pwrite (memory : ℕ → UInt8) (buf : ℤ → UInt8) (count offset : ℤ)

/-- The bytes read, or the count written; `none` is -1. -/
inductive Answer
  | bytes (r : Option (List UInt8))
  | count (r : ℤ)
  deriving DecidableEq, Repr

namespace FlatStore

/-- The number of bytes of `[offset, offset + count)` on a device of `size` bytes. -/
def clip (size count offset : ℤ) : ℕ := (min (offset + count) size - offset).toNat

/-- A negative request, or one whose end is no 64-bit number. -/
def Refused (count offset : ℤ) : Prop := offset < 0 ∨ count < 0 ∨ int64Max < offset + count

instance (count offset : ℤ) : Decidable (Refused count offset) :=
  inferInstanceAs (Decidable (_ ∨ _))

/-- What a flat array of `size` bytes answers, and what it holds afterwards. -/
def serve (size : ℤ) (disk : ℤ → UInt8) : Request → Answer × (ℤ → UInt8)
  | .pread _ count offset =>
    if Refused count offset then (.bytes none, disk)
    else (.bytes (some (stretch disk offset (clip size count offset))), disk)
  | .pwrite _ buf count offset =>
    if Refused count offset then (.count (-1), disk)
    else (.count (clip size count offset), diskWrite disk offset (clip size count offset) buf)

def serveAll (size : ℤ) : List Request → (ℤ → UInt8) → List Answer × (ℤ → UInt8)
  | [], disk => ([], disk)
  | r :: rs, disk =>
    let (answers, final) := serveAll size rs (serve size disk r).2
    ((serve size disk r).1 :: answers, final)

end FlatStore

namespace Adapter

variable {S : Type} (A : Adapter S)

def serve : Request → Prog S Fault Answer
  | .pread memory count offset => do
    let r ← A.pread memory count offset
    pure (.bytes r)
  | .pwrite memory buf count offset => do
    let r ← A.pwrite memory buf count offset
    pure (.count r)

def serveAll : List Request → Prog S Fault (List Answer)
  | [] => pure []
  | r :: rs => do
    let a ← A.serve r
    let answers ← serveAll rs
    pure (a :: answers)

/-- The adapter moves whole granules of the store `disk` faithfully, in states `inv`. -/
structure Moves (disk : S → ℤ → UInt8) (inv : S → Prop) : Prop where
  pos : 0 < A.granule
  dvd : A.granule ∣ A.size
  fits : A.size + A.granule ≤ int64Max
  fill : ∀ (a : ℤ) (n : ℕ) (s : S) (scratch : List UInt8), inv s → 0 ≤ a → a + n ≤ A.size →
    A.granule ∣ a → A.granule ∣ (n : ℤ) → scratch.length = n →
    wp (A.fill a n) (fun _ t => inv t.dev ∧ disk t.dev = disk s ∧ t.scratch = stretch (disk s) a n)
      (fun _ _ => False) ⟨s, scratch⟩
  drain : ∀ (a : ℤ) (n : ℕ) (s : S) (scratch : List UInt8), inv s → 0 ≤ a → a + n ≤ A.size →
    A.granule ∣ a → A.granule ∣ (n : ℤ) → scratch.length = n →
    wp (A.drain a n) (fun _ t => inv t.dev ∧ disk t.dev = overwrite (disk s) a scratch)
      (fun _ _ => False) ⟨s, scratch⟩

variable {A} {disk : S → ℤ → UInt8} {inv : S → Prop} {s : S}

/-- The granules of a range on the device. -/
structure Span (A : Adapter S) (offset stop last : ℤ) : Prop where
  start_nonneg : 0 ≤ A.start offset
  start_le : A.start offset ≤ offset
  lt : offset < stop
  stop_le : stop ≤ last
  last_le : last ≤ A.size
  start_dvd : A.granule ∣ A.start offset
  len_dvd : A.granule ∣ ((last - A.start offset).toNat : ℤ)

theorem Moves.alignedEnd_wp (h : A.Moves disk inv) {offset stop : ℤ} (h0 : 0 ≤ offset)
    (hlt : offset < stop) (hle : stop ≤ A.size) {Q : ℤ → S → Prop} {X : Fault → S → Prop}
    (hQ : ∀ last, A.Span offset stop last → Q last s) : wp (A.alignedEnd stop) Q X s := by
  have hfits := h.fits
  have hlast : min (roundUp A.granule stop) A.size = roundUp A.granule stop :=
    min_eq_left (roundUp_le h.pos hle h.dvd)
  have hstart : A.start offset ≤ offset := Int.ediv_mul_le offset h.pos.ne'
  have hup : stop ≤ roundUp A.granule stop := le_roundUp h.pos stop
  have hsd : A.granule ∣ A.start offset := Dvd.intro_left _ rfl
  unfold alignedEnd
  rw [if_neg (by omega), wp_pure]
  change Q (min (roundUp A.granule stop) A.size) s
  rw [hlast]
  refine hQ _ ⟨?_, hstart, hlt, hup, roundUp_le h.pos hle h.dvd, hsd, ?_⟩
  · exact mul_nonneg (Int.ediv_nonneg h0 h.pos.le) h.pos.le
  · rw [Int.toNat_of_nonneg (by omega)]
    exact dvd_sub (dvd_roundUp _ _) hsd

/-- Reading the granules of a range and copying the range out. -/
theorem Moves.readOut_wp (h : A.Moves disk inv) (hs : inv s) {offset stop last : ℤ}
    (hspan : A.Span offset stop last) {scratch : List UInt8}
    (hlen : scratch.length = (last - A.start offset).toNat) :
    wp (A.readOut offset stop last)
      (fun r t => inv t.dev ∧ disk t.dev = disk s ∧
        r = stretch (disk s) offset (stop - offset).toNat) (fun _ _ => False) ⟨s, scratch⟩ := by
  obtain ⟨hnn, hsl, hlt, hstop, hlast, hsd, hld⟩ := hspan
  unfold readOut
  rw [wp_bind]
  refine wp_mono (h.fill _ _ s scratch hs hnn (by omega) hsd hld hlen) ?_ (fun _ _ hx => hx)
  rintro _ t ⟨hinv, hdisk, hscr⟩
  rw [wp_bind, wp_read]
  refine wp_checked (a := stretch (disk s) offset (stop - offset).toNat) ?_ ⟨hinv, hdisk, rfl⟩
  rw [hscr, min_eq_left (by omega), slice?_stretch (by omega)]
  congr 2
  omega

/-- A scratch buffer that holds the store around the range, with the range put in place. -/
theorem overwrite_patched {f buf : ℤ → UInt8} {a : ℤ} {o n : ℕ} {scratch m : List UInt8}
    (hm : splice? scratch o (stretch buf 0 n) = some m)
    (hscr : ∀ i < scratch.length, ¬ (o ≤ i ∧ i < o + n) → scratch[i]? = some (f (a + i))) :
    overwrite f a m = diskWrite f (a + o) n buf := by
  funext q
  have hlen := length_splice? hm
  have hget := getElem?_splice? hm (q - a).toNat
  rw [length_stretch] at hget
  have hle : o + n ≤ scratch.length := by
    unfold splice? at hm
    split_ifs at hm with hle
    simpa using hle
  unfold diskWrite
  by_cases hq : a ≤ q ∧ q < a + m.length
  · by_cases hin : a + o ≤ q ∧ q < a + o + n
    · rw [if_pos hin]
      rw [if_pos (by omega), getElem?_stretch (by omega)] at hget
      rw [overwrite_apply f a m hq.1 hget]
      congr 1
      omega
    · rw [if_neg hin]
      rw [if_neg (by omega), hscr _ (by omega) (by omega)] at hget
      rw [overwrite_apply f a m hq.1 hget]
      congr 1
      omega
  · rw [overwrite_outside f a m hq, if_neg (by omega)]

/-- The scratch buffer is right wherever the range does not write it. -/
theorem Moves.preload_wp (h : A.Moves disk inv) (hs : inv s) {offset stop last : ℤ}
    (hspan : A.Span offset stop last) {scratch : List UInt8}
    (hlen : scratch.length = (last - A.start offset).toNat) :
    wp (A.preload offset stop last)
      (fun _ t => inv t.dev ∧ disk t.dev = disk s ∧
        t.scratch.length = (last - A.start offset).toNat ∧
        ∀ i < t.scratch.length, ¬ ((offset - A.start offset).toNat ≤ i ∧
          i < (offset - A.start offset).toNat + (stop - offset).toNat) →
          t.scratch[i]? = some (disk s (A.start offset + i))) (fun _ _ => False) ⟨s, scratch⟩ := by
  obtain ⟨hnn, hsl, hlt, hstop, hlast, hsd, hld⟩ := hspan
  unfold preload
  refine wp_ite (fun _ => ?_) fun hfull => ?_
  · refine wp_mono (h.fill _ _ s scratch hs hnn (by omega) hsd hld hlen) ?_ (fun _ _ hx => hx)
    rintro _ t ⟨hinv, hdisk, hscr⟩
    refine ⟨hinv, hdisk, by simp [hscr], fun i hi _ => ?_⟩
    rw [hscr, length_stretch] at hi
    rw [hscr, getElem?_stretch hi]
  · push Not at hfull
    rw [wp_pure]
    refine ⟨hs, rfl, hlen, fun i (hi : i < scratch.length) hout => ?_⟩
    exact absurd ⟨by omega, by omega⟩ hout

theorem Moves.writeIn_wp (h : A.Moves disk inv) (hs : inv s) {offset stop last : ℤ}
    (hspan : A.Span offset stop last) {scratch : List UInt8}
    (hlen : scratch.length = (last - A.start offset).toNat) (buf : ℤ → UInt8) :
    wp (A.writeIn buf offset stop last)
      (fun r t => inv t.dev ∧ disk t.dev = diskWrite (disk s) offset (stop - offset) buf ∧
        r = stop - offset) (fun _ _ => False) ⟨s, scratch⟩ := by
  unfold writeIn
  rw [wp_bind]
  refine wp_mono (h.preload_wp hs hspan hlen) ?_ (fun _ _ hx => hx)
  rintro _ ⟨t, loaded⟩ ⟨hinv, hdisk, hlen', hscr⟩
  obtain ⟨hnn, hsl, hlt, hstop, hlast, hsd, hld⟩ := hspan
  rw [wp_bind, wp_read, wp_bind]
  have hfit : (offset - A.start offset).toNat + (stretch buf 0 (stop - offset).toNat).length ≤
      loaded.length := by
    simp only [length_stretch] at hlen' ⊢
    omega
  have hm : splice? loaded (offset - A.start offset).toNat (stretch buf 0 (stop - offset).toNat) =
      some _ := if_pos hfit
  refine wp_checked hm ?_
  rw [wp_bind, wp_modify, wp_bind]
  refine wp_mono (h.drain _ _ t _ hinv hnn (by omega) hsd hld
    ((length_splice? hm).trans hlen')) ?_ (fun _ _ hx => hx)
  rintro _ u ⟨hinv', hdisk'⟩
  refine ⟨hinv', ?_, rfl⟩
  rw [hdisk', hdisk, overwrite_patched hm hscr]
  congr 1 <;> omega

theorem badRange_iff (count offset : ℤ) :
    BlockDevice.badRange count offset = true ↔ FlatStore.Refused count offset := by
  simp only [BlockDevice.badRange, FlatStore.Refused, Bool.or_eq_true, decide_eq_true_eq]
  omega

theorem Moves.pread_wp (h : A.Moves disk inv) (hs : inv s) (memory : ℕ → UInt8)
    (count offset : ℤ) :
    wp (A.pread memory count offset)
      (fun r t => inv t ∧
        (.bytes r, disk t) = FlatStore.serve A.size (disk s) (.pread memory count offset))
      (fun _ _ => False) s := by
  unfold pread FlatStore.serve
  simp only [badRange_iff]
  refine wp_ite (fun hbad => ?_) fun hok => ?_
  · rw [wp_pure, if_pos hbad]
    exact ⟨hs, rfl⟩
  rw [if_neg hok]
  have hnn : 0 ≤ offset ∧ 0 ≤ count := by
    unfold FlatStore.Refused at hok
    omega
  refine wp_ite (fun hout => ?_) fun hin => ?_
  · rw [wp_pure]
    have hnone : FlatStore.clip A.size count offset = 0 := by
      unfold FlatStore.clip
      omega
    rw [hnone]
    exact ⟨hs, rfl⟩
  rw [wp_bind]
  refine h.alignedEnd_wp hnn.1 (by omega) (min_le_right _ _) fun last hspan => ?_
  refine wp_mono (wp_attempt (Q := fun r t => inv t ∧ disk t = disk s ∧
    r = stretch (disk s) offset (FlatStore.clip A.size count offset))
    (h.readOut_wp hs hspan (by simp))) ?_ (fun _ _ hx => hx)
  rintro _ t ⟨r, rfl, hinv, hdisk, rfl⟩
  exact ⟨hinv, by rw [hdisk]⟩

theorem Moves.pwrite_wp (h : A.Moves disk inv) (hs : inv s) (memory : ℕ → UInt8)
    (buf : ℤ → UInt8) (count offset : ℤ) :
    wp (A.pwrite memory buf count offset)
      (fun r t => inv t ∧
        (.count r, disk t) = FlatStore.serve A.size (disk s) (.pwrite memory buf count offset))
      (fun _ _ => False) s := by
  unfold pwrite FlatStore.serve
  simp only [badRange_iff]
  refine wp_ite (fun hbad => ?_) fun hok => ?_
  · rw [wp_pure, if_pos hbad]
    exact ⟨hs, rfl⟩
  rw [if_neg hok]
  have hnn : 0 ≤ offset ∧ 0 ≤ count := by
    unfold FlatStore.Refused at hok
    omega
  refine wp_ite (fun hout => ?_) fun hin => ?_
  · rw [wp_pure]
    have hnone : FlatStore.clip A.size count offset = 0 := by
      unfold FlatStore.clip
      omega
    rw [hnone, Nat.cast_zero, BlockDevice.diskWrite_empty le_rfl]
    exact ⟨hs, rfl⟩
  rw [wp_bind]
  refine h.alignedEnd_wp hnn.1 (by omega) (min_le_right _ _) fun last hspan => ?_
  rw [wp_bind]
  set stop := min (offset + count) A.size with hstop
  refine wp_mono (wp_attempt (Q := fun r t => inv t ∧
    disk t = diskWrite (disk s) offset (stop - offset) buf ∧ r = stop - offset)
    (h.writeIn_wp hs hspan (by simp) buf)) ?_ (fun _ _ hx => hx)
  rintro _ t ⟨r, rfl, hinv, hdisk, rfl⟩
  have hclip : (FlatStore.clip A.size count offset : ℤ) = stop - offset :=
    Int.toNat_of_nonneg (by omega)
  rw [wp_pure, hdisk, hclip]
  exact ⟨hinv, rfl⟩

theorem Moves.serve_wp (h : A.Moves disk inv) (hs : inv s) (r : Request) :
    wp (A.serve r) (fun a t => inv t ∧ (a, disk t) = FlatStore.serve A.size (disk s) r)
      (fun _ _ => False) s := by
  cases r with
  | pread memory count offset =>
    rw [serve, wp_bind]
    exact h.pread_wp hs memory count offset
  | pwrite memory buf count offset =>
    rw [serve, wp_bind]
    exact h.pwrite_wp hs memory buf count offset

/-- Every sequence of requests is answered as the flat store answers it. -/
theorem Moves.serveAll_wp (h : A.Moves disk inv) : ∀ (rs : List Request) (s : S), inv s →
    wp (A.serveAll rs)
      (fun a t => inv t ∧ (a, disk t) = FlatStore.serveAll A.size rs (disk s))
      (fun _ _ => False) s
  | [], s, hs => ⟨hs, rfl⟩
  | r :: rs, s, hs => by
    rw [serveAll, wp_bind]
    refine wp_mono (h.serve_wp hs r) ?_ (fun _ _ hx => hx)
    rintro a t ⟨ht, ha⟩
    rw [wp_bind]
    refine wp_mono (h.serveAll_wp rs t ht) ?_ (fun _ _ hx => hx)
    rintro as u ⟨hu, has⟩
    refine ⟨hu, ?_⟩
    simp only [FlatStore.serveAll, ← ha, ← has]

/-- No request traps, and the answers and the bytes are those of the flat store. -/
theorem Moves.refines (h : A.Moves disk inv) (hs : inv s) (rs : List Request) :
    ∃ t, A.serveAll rs s = (.ok (FlatStore.serveAll A.size rs (disk s)).1, t) ∧
      disk t = (FlatStore.serveAll A.size rs (disk s)).2 := by
  obtain ⟨a, t, ht, -, hflat⟩ := exists_of_wp (h.serveAll_wp rs s hs)
  have ha : a = (FlatStore.serveAll A.size rs (disk s)).1 := congrArg Prod.fst hflat
  exact ⟨t, by rw [ht, ha], congrArg Prod.snd hflat⟩

end Adapter

/-! ### The two adapters -/

namespace BlockDevice

variable {d : BlockDevice}

theorem granule_eq_iff {start q : ℤ} (h : d.cacheBlockSize ∣ start) :
    d.granule q = d.granule start ↔ start ≤ q ∧ q < start + d.cacheBlockSize := by
  obtain ⟨k, rfl⟩ := h
  have hk : d.granule (d.cacheBlockSize * k) = k := Int.mul_ediv_cancel_left _ d.pos.ne'
  have hlow : d.cacheBlockSize * k ≤ q ↔ k ≤ d.granule q := by
    rw [granule, Int.le_ediv_iff_mul_le d.pos, mul_comm]
  have hhigh : q < d.cacheBlockSize * k + d.cacheBlockSize ↔ d.granule q < k + 1 := by
    rw [granule, Int.ediv_lt_iff_lt_mul d.pos, add_mul, one_mul, mul_comm]
  rw [hk, hlow, hhigh]
  omega

theorem granuleLength_cast (d : BlockDevice) : (d.granuleLength : ℤ) = d.cacheBlockSize :=
  Int.toNat_of_nonneg d.pos.le

namespace Volume

/-- The cache is coherent, and nothing was cached while its calls failed. -/
structure Ready (d : BlockDevice) (s : EngineDevice) : Prop where
  coherent : s.dev.Coherent d.granule
  empty : 0 < s.failing → ∀ k, s.dev.cached k = false
  probing : 0 < s.failing → s.ioMode = .probing
  unmounted : 0 < s.failing → s.kernelMounted = false

variable {s : EngineDevice} {start : ℤ}

/-- Once its calls succeed the cache only has to be coherent. -/
theorem Ready.attached (h : s.dev.Coherent d.granule) (hf : ¬ 0 < s.failing) : Ready d s :=
  ⟨h, fun h => absurd h hf, fun h => absurd h hf, fun h => absurd h hf⟩

/-- A granule reads as the disk, whichever way it is read. -/
theorem readBlock_wp (h : Ready d s) (hserve : d.Serves start d.granuleLength)
    (hd : d.cacheBlockSize ∣ start) :
    wp (readBlock d start) (fun bytes t => Ready d t ∧ t.dev.disk = s.dev.disk ∧
      bytes = stretch s.dev.disk start d.granuleLength) (fun _ _ => False) s := by
  unfold readBlock
  rw [wp_bind, wp_read, wp_bind, wp_call]
  unfold metadataRead
  by_cases hf : 0 < s.failing
  · simp only [if_pos hf, h.probing hf, h.unmounted hf, plainRead, if_pos hserve]
    exact ⟨⟨h.coherent, fun _ => h.empty hf, fun _ => rfl, fun _ => rfl⟩, rfl, rfl⟩
  · have hcopy : stretch (s.dev.load d.granule (d.granule start)).copy start d.granuleLength =
        stretch s.dev.disk start d.granuleLength := by
      refine stretch_congr fun q h1 h2 => h.coherent.load_copy ?_
      rw [granuleLength_cast] at h2
      exact (granule_eq_iff hd).mpr ⟨h1, h2⟩
    simp only [if_neg hf, if_pos hserve, hcopy]
    have hload := h.coherent.load (d.granule start)
    cases s.ioMode
    · exact ⟨.attached hload hf, WriteThrough.load_disk, rfl⟩
    · exact ⟨.attached hload hf, WriteThrough.load_disk, rfl⟩

/-- A granule is written to the disk, whichever way it is written. -/
theorem writeBlock_wp (h : Ready d s) {bytes : List UInt8} (hlen : bytes.length = d.granuleLength)
    (hserve : d.Serves start d.granuleLength) (hd : d.cacheBlockSize ∣ start) :
    wp (writeBlock d start bytes) (fun _ t => Ready d t ∧
      t.dev.disk = overwrite s.dev.disk start bytes) (fun _ _ => False) s := by
  unfold writeBlock
  rw [wp_bind, wp_read, wp_bind, wp_call]
  unfold metadataWrite
  by_cases hf : 0 < s.failing
  · simp only [if_pos hf, h.probing hf, h.unmounted hf, plainWrite, hlen, if_pos hserve]
    -- the plain write goes behind a cache that holds nothing
    have hpoke : (s.dev.poke (overwrite s.dev.disk start bytes)).Coherent d.granule :=
      h.coherent.poke fun a _ => h.empty hf (d.granule a)
    exact ⟨⟨hpoke, fun _ => h.empty hf, fun _ => rfl, fun _ => rfl⟩, rfl⟩
  · have hdisk : (s.dev.store d.granule (d.granule start)
        (overwrite s.dev.disk start bytes)).disk = overwrite s.dev.disk start bytes := by
      funext q
      simp only [WriteThrough.store]
      split_ifs with hq
      · rfl
      · refine (overwrite_outside _ _ _ fun hin => hq ((granule_eq_iff hd).mpr ?_)).symm
        rwa [hlen, granuleLength_cast] at hin
    have hstore := h.coherent.store (d.granule start) (overwrite s.dev.disk start bytes)
    simp only [if_neg hf, hlen, if_pos hserve]
    cases s.ioMode
    · exact ⟨.attached hstore hf, hdisk⟩
    · exact ⟨.attached hstore hf, hdisk⟩

/-- Reading granule by granule fills the scratch buffer. -/
theorem readAligned_wp (hbs : d.blockSize ∣ d.cacheBlockSize) (h : Ready d s) {n : ℕ}
    (h0 : 0 ≤ start) (hn : start + n ≤ d.size) (hd : d.cacheBlockSize ∣ start)
    (hdn : d.cacheBlockSize ∣ (n : ℤ)) {scratch : List UInt8} (hlen : scratch.length = n) :
    wp (readAligned d start n) (fun _ t => Ready d t.dev ∧ t.dev.dev.disk = s.dev.disk ∧
      t.scratch = stretch s.dev.disk start n) (fun _ _ => False) ⟨s, scratch⟩ := by
  have hg := granuleLength_cast d
  have hpos := d.pos
  -- the part of the buffer before the position is the disk's
  let inv : ℕ → Copying EngineDevice → Prop := fun p t =>
    Ready d t.dev ∧ t.dev.dev.disk = s.dev.disk ∧ t.scratch.length = n ∧
      ∀ i < p, t.scratch[i]? = some (s.dev.disk (start + i))
  refine wp_mono (wp_strides inv (by omega) (Int.natCast_dvd_natCast.mp (hg.symm ▸ hdn))
    ⟨h, rfl, hlen, fun i hi => absurd hi (by omega)⟩ ?_) ?_ (fun _ _ hx => hx)
  · rintro p t hp hpd ⟨hr, hdisk, hl, hscr⟩
    have hpd' : d.cacheBlockSize ∣ start + p :=
      dvd_add hd (hg ▸ Int.natCast_dvd_natCast.mpr hpd)
    rw [wp_bind, wp_read, wp_bind]
    refine wp_checked (if_pos (by omega)) ?_
    rw [wp_bind, wp_onDevice]
    refine wp_mono (readBlock_wp hr ⟨by omega, by omega, hbs.trans hpd', hg ▸ hbs⟩ hpd') ?_
      (fun _ _ hx => hx)
    rintro _ u ⟨hu, hudisk, rfl⟩
    rw [wp_bind]
    have hm : splice? t.scratch p (stretch t.dev.dev.disk (start + p) d.granuleLength) = some _ :=
      if_pos (by rw [length_stretch]; omega)
    refine wp_checked hm ?_
    rw [wp_modify]
    refine ⟨hu, hudisk.trans hdisk, (length_splice? hm).trans hl, fun i hi => ?_⟩
    rw [getElem?_splice? hm, length_stretch]
    split_ifs with hin
    · rw [getElem?_stretch (by omega), hdisk]
      congr 2
      omega
    · exact hscr i (by omega)
  · rintro _ t ⟨hr, hdisk, hl, hscr⟩
    refine ⟨hr, hdisk, List.ext_getElem? fun i => ?_⟩
    by_cases hi : i < n
    · rw [hscr i hi, getElem?_stretch hi]
    · rw [List.getElem?_eq_none (by omega), List.getElem?_eq_none (by simp; omega)]

/-- Writing granule by granule puts the scratch buffer down on the disk. -/
theorem writeAligned_wp (hbs : d.blockSize ∣ d.cacheBlockSize) (h : Ready d s) {n : ℕ}
    (h0 : 0 ≤ start) (hn : start + n ≤ d.size) (hd : d.cacheBlockSize ∣ start)
    (hdn : d.cacheBlockSize ∣ (n : ℤ)) {scratch : List UInt8} (hlen : scratch.length = n) :
    wp (writeAligned d start n) (fun _ t => Ready d t.dev ∧
      t.dev.dev.disk = overwrite s.dev.disk start scratch) (fun _ _ => False) ⟨s, scratch⟩ := by
  have hg := granuleLength_cast d
  have hpos := d.pos
  let inv : ℕ → Copying EngineDevice → Prop := fun p t =>
    Ready d t.dev ∧ t.scratch = scratch ∧
      t.dev.dev.disk = overwrite s.dev.disk start (scratch.take p)
  refine wp_mono (wp_strides inv (by omega) (Int.natCast_dvd_natCast.mp (hg.symm ▸ hdn))
    ⟨h, rfl, ?_⟩ ?_) ?_ (fun _ _ hx => hx)
  · funext q
    exact (overwrite_outside _ _ _ (by simp)).symm
  · rintro p t hp hpd ⟨hr, hscr, hdisk⟩
    have hl : t.scratch.length = n := hscr ▸ hlen
    have hpd' : d.cacheBlockSize ∣ start + p :=
      dvd_add hd (hg ▸ Int.natCast_dvd_natCast.mpr hpd)
    rw [wp_bind, wp_read, wp_bind]
    refine wp_checked (if_pos (by omega)) ?_
    rw [wp_onDevice]
    refine wp_mono (writeBlock_wp hr (by simp; omega)
      ⟨by omega, by omega, hbs.trans hpd', hg ▸ hbs⟩ hpd') ?_ (fun _ _ hx => hx)
    rintro _ u ⟨hu, hudisk⟩
    refine ⟨hu, hscr, ?_⟩
    rw [hudisk, hdisk, hscr, overwrite_take _ _ _ (by omega)]
  · rintro _ t ⟨hr, -, hdisk⟩
    rw [← hlen, List.take_length] at hdisk
    exact ⟨hr, hdisk⟩

theorem moves (hbs : d.blockSize ∣ d.cacheBlockSize) (hfits : d.size + d.cacheBlockSize ≤ int64Max) :
    (adapter d).Moves (fun s => s.dev.disk) (Ready d) where
  pos := d.pos
  dvd := d.dvd
  fits := hfits
  fill _ _ _ _ hs h0 hn hd hdn hlen := readAligned_wp hbs hs h0 hn hd hdn hlen
  drain _ _ _ _ hs h0 hn hd hdn hlen := writeAligned_wp hbs hs h0 hn hd hdn hlen

end Volume

/-- The plain API moves the whole range at once. -/
theorem Fsck.moves (hpos : 0 < d.blockSize) (hfits : d.size + d.blockSize ≤ int64Max) :
    (Fsck.adapter d).Moves (fun s => s.disk) (fun _ => True) where
  pos := hpos
  dvd := Dvd.intro_left _ rfl
  fits := hfits
  fill a n s scratch _ h0 hn hd hdn _ := by
    change wp (Fsck.fill d a n) _ _ _
    have hserve : d.Serves a n := ⟨h0, hn, hd, hdn⟩
    rw [Fsck.fill, wp_bind, wp_read]
    simp only [plainRead, if_pos hserve]
    exact ⟨trivial, rfl, rfl⟩
  drain a n s scratch _ h0 hn hd hdn hlen := by
    change wp (Fsck.drain d a n) _ _ _
    have hserve : d.Serves a scratch.length := hlen ▸ ⟨h0, hn, hd, hdn⟩
    rw [Fsck.drain, wp_bind, wp_read]
    simp only [plainWrite, if_pos hserve]
    exact ⟨trivial, rfl⟩

end BlockDevice

/-! ### Refinement -/

/-- The device as `openEngine` leaves it, with the bytes of `disk`. -/
def EngineDevice.opened (disk : ℤ → UInt8) (failing : ℕ) (mounted : Bool) : EngineDevice :=
  ⟨WriteThrough.cold disk, failing, .probing, mounted⟩

theorem EngineDevice.opened_ready {d : BlockDevice} {disk : ℤ → UInt8} {failing : ℕ}
    {mounted : Bool} (h : mounted = true → failing = 0) :
    BlockDevice.Volume.Ready d (EngineDevice.opened disk failing mounted) where
  coherent := WriteThrough.coherent_cold disk
  empty _ _ := rfl
  probing _ := rfl
  unmounted hf := by
    change 0 < failing at hf
    change mounted = false
    cases mounted with
    | false => rfl
    | true => exact absurd (h rfl) (by omega)

/-- The granule is made of device blocks and no longer than 4096 bytes or one block. -/
theorem pickCacheBlockSize_blocks (bs size : ℤ) (boot : Option (ℕ → UInt8)) :
    bs ∣ pickCacheBlockSize bs size boot ∧ pickCacheBlockSize bs size boot ≤ max 4096 bs := by
  have hself : bs ∣ bs ∧ bs ≤ max 4096 bs := ⟨dvd_rfl, le_max_right _ _⟩
  unfold pickCacheBlockSize
  by_cases hc : 0 < bs ∧ size % 4096 = 0 ∧ 4096 % bs = 0
  · rw [if_pos hc]
    cases boot with
    | none => exact hself
    | some boot =>
      dsimp only
      split_ifs
      · exact ⟨Int.dvd_of_emod_eq_zero hc.2.2, le_max_left _ _⟩
      · exact hself
  · rw [if_neg hc]
    exact hself

/-- Both adapters answer every sequence of requests as a flat array does, without a trap,
and leave its bytes on the disk. The buffer cache may refuse any number of calls first. -/
theorem adapters_refine_flat_store {bs count : ℤ} (hbs : 0 < bs)
    (hsize : count * bs < 2 ^ 63 - max 4096 bs) (boot : Option (ℕ → UInt8)) (disk : ℤ → UInt8)
    (failing : ℕ) (mounted : Bool) (hmount : mounted = true → failing = 0) (rs : List Request) :
    (∃ t, (BlockDevice.Volume.adapter (.opened bs count hbs boot)).serveAll rs
        (.opened disk failing mounted) = (.ok (FlatStore.serveAll (count * bs) rs disk).1, t) ∧
      t.dev.disk = (FlatStore.serveAll (count * bs) rs disk).2) ∧
    ∃ t, (BlockDevice.Fsck.adapter (.opened bs count hbs boot)).serveAll rs
        (WriteThrough.cold disk) = (.ok (FlatStore.serveAll (count * bs) rs disk).1, t) ∧
      t.disk = (FlatStore.serveAll (count * bs) rs disk).2 := by
  have hmax : int64Max = 2 ^ 63 - 1 := by decide
  obtain ⟨hdvd, hle⟩ := pickCacheBlockSize_blocks bs (count * bs) boot
  have hwide := le_max_right 4096 bs
  constructor
  · have hmoves := BlockDevice.Volume.moves (d := .opened bs count hbs boot) hdvd
      (show count * bs + pickCacheBlockSize bs (count * bs) boot ≤ int64Max by omega)
    exact hmoves.refines (s := .opened disk failing mounted)
      (EngineDevice.opened_ready hmount) rs
  · have hmoves := BlockDevice.Fsck.moves (d := .opened bs count hbs boot) hbs
      (show count * bs + bs ≤ int64Max by omega)
    exact hmoves.refines (s := WriteThrough.cold disk) trivial rs

/-- A boot sector of 512-byte sectors and clusters of 8 of them. -/
def bootSector : ℕ → UInt8
  | 0x0C => 2
  | 0x0D => 8
  | _ => 0

/-- Two granules of 4096 bytes; the cache comes alive between the two that are written. -/
theorem adapters_refine_two_granules :
    (∃ t, (BlockDevice.Volume.adapter (.opened 512 16 (by decide) (some bootSector))).serveAll
        [.pwrite (fun _ => 7) (fun _ => 1) 5000 100, .pread (fun _ => 7) 9000 5098]
        (.opened (fun _ => 0) 3 false) =
      (.ok (FlatStore.serveAll (16 * 512) [.pwrite (fun _ => 7) (fun _ => 1) 5000 100,
        .pread (fun _ => 7) 9000 5098] (fun _ => 0)).1, t) ∧
      t.dev.disk = (FlatStore.serveAll (16 * 512) [.pwrite (fun _ => 7) (fun _ => 1) 5000 100,
        .pread (fun _ => 7) 9000 5098] (fun _ => 0)).2) :=
  (adapters_refine_flat_store (by decide) (by decide) (some bootSector) (fun _ => 0) 3 false
    (by decide) _).1

/-- With blocks of 8192 bytes the end of the last block plus a block is no 64-bit number,
although the device is shorter than `2 ^ 63 - 4096`; and a mounted volume does not fall
back to the plain API when the cache refuses a call. -/
theorem adapters_leave_flat_store :
    (2 ^ 50 - 1) * 8192 < (2 : ℤ) ^ 63 - 4096 ∧
    ((BlockDevice.Volume.adapter (.opened 8192 (2 ^ 50 - 1) (by decide) none)).serveAll
        [.pread (fun _ => 0) 1 (2 ^ 63 - 8193)] (.opened (fun _ => 0) 0 false)).1 =
      .error .trap ∧
    (FlatStore.serveAll ((2 ^ 50 - 1) * 8192) [.pread (fun _ => 0) 1 (2 ^ 63 - 8193)]
      (fun _ => 0)).1 = [.bytes (some [0])] ∧
    ((BlockDevice.Volume.adapter (.opened 512 16 (by decide) none)).serveAll
        [.pread (fun _ => 0) 1 0] (.opened (fun _ => 0) 1 true)).1 =
      .ok [.bytes none] ∧
    (FlatStore.serveAll (16 * 512) [.pread (fun _ => 0) 1 0] (fun _ => 0)).1 =
      [.bytes (some [0])] := by
  refine ⟨by decide, rfl, by decide +kernel, ?_, by decide +kernel⟩
  decide +kernel

end NtfsKit
