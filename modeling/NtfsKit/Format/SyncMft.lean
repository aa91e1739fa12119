import NtfsKit.Format.AttrTable
import NtfsKit.Format.LayoutExact
import NtfsKit.Format.MstIo

/-! The end of a format. The records are written to `$MFT`, and the first of them once more to
`$MFTMirr`. A write counts up the update sequence number of a record; it is counted down in between,
so that the mirror has the same bytes. -/

namespace NtfsKit

open Prog

/-- How a loop stops early; `overrun` stands for an access behind the end of `g_buf`. -/
inductive SyncError
  | overrun
  | usnDec
  | pwrite
  deriving DecidableEq

/-- The device, and `g_buf` record by record. -/
structure SyncState (σ : Type) where
  dev : σ
  buf : List (List UInt8)

section Loops

variable {σ : Type} (io : MstIo σ)

/-- The loop over `k` records from record `i` on: prepare it, write it, and go on behind it. -/
def syncRecords (rs : ℕ) (prepare : List UInt8 → Option (List UInt8)) :
    ℕ → ℕ → ℤ → SyncState σ → Option SyncError × SyncState σ
  | 0, _, _, s => (none, s)
  | k + 1, i, pos, s =>
    match s.buf[i]? with
    | none => (some .overrun, s)
    | some r =>
      match prepare r with
      | none => (some .usnDec, s)
      | some r =>
        let w := io.pwrite s.dev pos r
        if w.1 ≠ 1 then (some .pwrite, ⟨w.2.1, s.buf.set i w.2.2⟩)
        else syncRecords rs prepare k (i + 1) (pos + rs) ⟨w.2.1, s.buf.set i w.2.2⟩

/-- How many records the mirror takes. -/
def Globals.mirrRecords (t : Globals) : ℕ :=
  (t.rlMftmirr.map ClusterRun.length).getD 0 * t.vol.clusterSize / t.vol.mftRecordSize

/-- `mkntfs_redirect` from "Syncing $MFT" on. -/
def syncMft (t : Globals) (s : SyncState σ) : Option SyncError × SyncState σ :=
  let rs := t.vol.mftRecordSize
  match syncRecords io rs some (t.mftSize / rs) 0 (t.mftLcn * t.vol.clusterSize : ℕ) s with
  | (some e, s) => (some e, s)
  | (none, s) =>
    syncRecords io rs io.usnDec t.mirrRecords 0 (t.mftmirrLcn * t.vol.clusterSize : ℕ) s

variable {io}

/-- What one loop does. -/
structure Synced (io : MstIo σ) (rs : ℕ) (prepare : List UInt8 → Option (List UInt8)) (k i : ℕ)
    (pos : ℤ) (s : SyncState σ) (e : Option SyncError) (s' : SyncState σ) : Prop where
  inside : i + k ≤ s.buf.length → e ≠ some .overrun
  length : s'.buf.length = s.buf.length
  sizes : ∀ r ∈ s'.buf, r.length = rs
  outside : ∀ q, ¬ (pos ≤ q ∧ q < pos + (k * rs : ℕ)) → io.view s'.dev q = io.view s.dev q
  before : ∀ j < i, s'.buf[j]? = s.buf[j]?
  written : e = none → ∀ j < k, ∃ r r₁ x, s.buf[i + j]? = some r ∧ prepare r = some r₁ ∧
    stretch (io.view s'.dev) (pos + (j * rs : ℕ)) rs = io.protect r₁ ∧
    s'.buf[i + j]? = some x ∧ io.Again (io.protect r₁) x

/-- A stretch that was put down. -/
theorem stretch_overwrite {f : ℤ → UInt8} {a : ℤ} {l : List UInt8} {n : ℕ} (h : l.length = n) :
    stretch (overwrite f a l) a n = l := by
  refine List.ext_getElem? fun i => ?_
  by_cases hi : i < n
  · rw [getElem?_stretch hi, List.getElem?_eq_getElem (by omega),
      overwrite_apply f a l (v := l.get ⟨i, by omega⟩) (by omega)]
    · rfl
    · rw [show (a + (i : ℤ) - a).toNat = i by omega]
      exact List.getElem?_eq_getElem _
  · rw [List.getElem?_eq_none (by simp; omega), List.getElem?_eq_none (by omega)]

/-- Two stretches that agree piece by piece. -/
theorem stretch_pieces {f g : ℤ → UInt8} {a b : ℤ} {rs k : ℕ} (hrs : 0 < rs)
    (h : ∀ j < k, stretch f (a + (j * rs : ℕ)) rs = stretch g (b + (j * rs : ℕ)) rs) :
    stretch f a (k * rs) = stretch g b (k * rs) := by
  refine List.map_congr_left fun x hx => ?_
  have hx := List.mem_range.mp hx
  have hdiv := Nat.div_add_mod' x rs
  have hmod := Nat.mod_lt x hrs
  have hpiece := congrArg (fun l => l[x % rs]?) (h (x / rs) (Nat.div_lt_of_lt_mul (by linarith)))
  rw [getElem?_stretch hmod, getElem?_stretch hmod, Option.some.injEq] at hpiece
  convert hpiece using 2 <;> omega

theorem syncRecords_synced (h : io.Spec) {rs : ℕ} {prepare : List UInt8 → Option (List UInt8)}
    (hp : ∀ r r₁, prepare r = some r₁ → r₁.length = r.length) :
    ∀ (k i : ℕ) (pos : ℤ) (s : SyncState σ), (∀ r ∈ s.buf, r.length = rs) →
      Synced io rs prepare k i pos s (syncRecords io rs prepare k i pos s).1
        (syncRecords io rs prepare k i pos s).2 := by
  intro k
  induction k with
  | zero =>
    intro i pos s hs
    exact ⟨fun _ => by simp [syncRecords], rfl, hs, fun _ _ => rfl, fun _ _ => rfl,
      fun _ j hj => absurd hj (Nat.not_lt_zero j)⟩
  | succ k ih =>
    intro i pos s hs
    rw [syncRecords]
    cases hr : s.buf[i]? with
    | none =>
      have hlen := List.getElem?_eq_none_iff.mp hr
      exact ⟨fun hin => by omega, rfl, hs, fun _ _ => rfl, fun _ _ => rfl, by rintro ⟨⟩⟩
    | some r =>
      have hi : i < s.buf.length := (List.getElem?_eq_some_iff.mp hr).1
      have hrs : r.length = rs := hs r (List.mem_of_getElem? hr)
      dsimp only
      cases hr₁ : prepare r with
      | none =>
        exact ⟨fun _ => by rintro ⟨⟩, rfl, hs, fun _ _ => rfl, fun _ _ => rfl, by rintro ⟨⟩⟩
      | some r₁ =>
        have hrs₁ : r₁.length = rs := (hp r r₁ hr₁).trans hrs
        have hwlen := h.length_pwrite s.dev pos r₁
        have hwritten := h.written s.dev pos r₁
        have hframe := h.outside s.dev pos r₁
        have hagain := h.again s.dev pos r₁
        have hmul : (k + 1) * rs = k * rs + rs := by ring
        rw [hrs₁] at hframe hwlen
        dsimp only
        generalize io.pwrite s.dev pos r₁ = w at hwlen hwritten hframe hagain
        have hsizes : ∀ x ∈ s.buf.set i w.2.2, x.length = rs := by
          intro x hx
          rcases List.mem_or_eq_of_mem_set hx with hx | rfl
          · exact hs x hx
          · exact hwlen
        by_cases hw : w.1 = 1
        · rw [if_neg (not_not.mpr hw)]
          have hrest := ih (i + 1) (pos + rs) ⟨w.2.1, s.buf.set i w.2.2⟩ hsizes
          generalize syncRecords io rs prepare k (i + 1) (pos + rs) ⟨w.2.1, s.buf.set i w.2.2⟩ = t
            at hrest
          refine ⟨fun hin => hrest.inside (by simp; omega), by rw [hrest.length]; simp,
            hrest.sizes, fun q hq => ?_, fun j hj => ?_, fun he j hj => ?_⟩
          · rw [hrest.outside q (by omega)]
            exact hframe q (by omega)
          · rw [hrest.before j (by omega), List.getElem?_set_ne (by omega)]
          · cases j with
            | zero =>
              refine ⟨r, r₁, w.2.2, hr, hr₁, ?_, (hrest.before i (by omega)).trans
                (List.getElem?_set_self hi), hagain hw⟩
              -- the records behind are written behind this one
              have hkeep : stretch (io.view t.2.dev) pos rs = stretch (io.view w.2.1) pos rs :=
                stretch_congr fun q h1 h2 => hrest.outside q (by omega)
              rw [Nat.zero_mul, Nat.cast_zero, add_zero, hkeep, hwritten hw]
              exact stretch_overwrite (by rw [h.length_protect, hrs₁])
            | succ j =>
              obtain ⟨r', r₁', x, hr', hr₁', hview, hx, hx'⟩ := hrest.written he j (by omega)
              have hidx : i + 1 + j = i + (j + 1) := by omega
              rw [hidx] at hr' hx
              rw [List.getElem?_set_ne (by omega)] at hr'
              have hofs : pos + rs + (j * rs : ℕ) = pos + ((j + 1) * rs : ℕ) := by
                push_cast
                ring
              rw [hofs] at hview
              exact ⟨r', r₁', x, hr', hr₁', hview, hx, hx'⟩
        · rw [if_pos hw]
          refine ⟨fun _ => by rintro ⟨⟩, by simp, hsizes, fun q hq => hframe q ?_, fun j hj => ?_,
            by rintro ⟨⟩⟩
          · omega
          · rw [List.getElem?_set_ne (by omega)]

end Loops

/-- Where the MFT and its mirror are: the MFT in front, and the mirror one cluster behind it. -/
structure Globals.MftPlaced (n e : ℕ) (t : Globals) : Prop where
  sector : t.sectorSize = 512
  record : t.vol.mftRecordSize = 1024
  cluster : t.vol.clusterSize = 2 ^ e
  cluster_ge : 12 ≤ e
  cluster_le : e ≤ 21
  size : t.mftSize = max (27 * 1024) (2 ^ e)
  mft : t.rlMft = some ⟨t.mftLcn, n⟩
  mirr : t.rlMftmirr = some ⟨t.mftmirrLcn, 1⟩
  lcn_pos : 0 < t.mftLcn
  lcn_le : t.mftLcn ≤ 4
  enough : t.mftSize ≤ n * 2 ^ e
  apart : t.mftLcn + n ≤ t.mftmirrLcn

theorem layOut_mftPlaced {M : ℕ} {c : FormatCall} (hdev : c.Gets [.devctx, .device]) {t : Globals}
    (h : layOut M c (initOptions .fresh) = (.ok (), t)) : ∃ n e, t.MftPlaced n e := by
  obtain ⟨cs, front, hr, -, -, hplan, -, hvol, -, hlcn, hmirr, hsize, hsector⟩ :=
    wp_ok (layOut_wp hdev) h
  obtain ⟨e, he, rfl, -⟩ := growCluster_spec (show 12 + 20 ≤ 32 by decide) hr.sized.grow
  obtain ⟨-, hmid, -⟩ := hr.sized.nr_gt
  obtain ⟨-, -, hmft, hone⟩ := hr.sized.mft
  have hstart := c.ownStart_cases
  have hpow : 2 ^ e ≤ 2 ^ 21 := hr.sized.sectors
  have hplace : c.mirrLcn (2 ^ e) = c.volumeSize / 2 / 2 ^ e := rfl
  have hmftrun : t.rlMft = some ⟨c.ownStart, mftClusters (2 ^ e)⟩ := congrArg Layout.rlMft hplan
  have hmirrrun : t.rlMftmirr = some ⟨c.mirrLcn (2 ^ e), mirrClusters (2 ^ e)⟩ :=
    congrArg Layout.rlMftmirr hplan
  refine ⟨mftClusters (2 ^ e), e, hsector, by rw [hvol], by rw [hvol], he,
    (Nat.pow_le_pow_iff_right (by decide)).mp hpow, hsize, by rw [hlcn]; exact hmftrun,
    by rw [hmirr, hmirrrun, hone], by omega, by omega, ?_, by omega⟩
  rw [hsize, mftClusters]
  have := Nat.lt_div_mul_add (a := max (27 * 1024) (2 ^ e) + 2 ^ e - 1) (b := 2 ^ e) (by positivity)
  omega

section Mirror

variable {n e : ℕ} {t : Globals}

/-- A cluster has a whole number of records. -/
theorem Globals.MftPlaced.records (h : t.MftPlaced n e) :
    t.mirrRecords = 2 ^ (e - 10) ∧ t.mirrRecords * 1024 = 2 ^ e ∧
      t.mirrRecords ≤ t.mftSize / 1024 := by
  have hpow : 2 ^ e = 2 ^ (e - 10) * 1024 := by
    rw [show (1024 : ℕ) = 2 ^ 10 by rfl, ← pow_add]
    congr 1
    have := h.cluster_ge
    omega
  have hmirr : t.mirrRecords = 2 ^ (e - 10) := by
    rw [Globals.mirrRecords, h.mirr, h.record, h.cluster]
    simp only [Option.map_some, Option.getD_some, Nat.one_mul]
    omega
  rw [hmirr, h.size]
  omega

/-- What the end of a format leaves. -/
structure MftSynced {σ : Type} (io : MstIo σ) (t : Globals) (s : SyncState σ)
    (e : Option SyncError) (s' : SyncState σ) : Prop where
  inside : e ≠ some .overrun
  outside : ∀ q : ℤ, (∀ r ∈ t.rlMft.toList ++ t.rlMftmirr.toList,
      ¬ ((r.lcn * t.vol.clusterSize : ℕ) ≤ q ∧ q < (r.stop * t.vol.clusterSize : ℕ))) →
    io.view s'.dev q = io.view s.dev q
  records : e = none → ∀ (i : ℕ) (r : List UInt8), s.buf[i]? = some r →
    stretch (io.view s'.dev) (t.mftLcn * t.vol.clusterSize + i * t.vol.mftRecordSize : ℕ)
      t.vol.mftRecordSize = io.protect r
  mirror : e = none →
    stretch (io.view s'.dev) (t.mftmirrLcn * t.vol.clusterSize : ℕ) t.vol.clusterSize =
      stretch (io.view s'.dev) (t.mftLcn * t.vol.clusterSize : ℕ) t.vol.clusterSize

theorem Globals.MftPlaced.synced (h : t.MftPlaced n e) {σ : Type} {io : MstIo σ} (hio : io.Spec)
    {s : SyncState σ} (hbuf : s.buf.length = t.mftSize / t.vol.mftRecordSize)
    (hsizes : ∀ r ∈ s.buf, r.length = t.vol.mftRecordSize) :
    MftSynced io t s (syncMft io t s).1 (syncMft io t s).2 := by
  obtain ⟨-, hmirr, hle⟩ := h.records
  have hmft := Nat.div_mul_le_self t.mftSize 1024
  have henough := h.enough
  have hapart : (t.mftLcn + n) * 2 ^ e ≤ t.mftmirrLcn * 2 ^ e := Nat.mul_le_mul_right _ h.apart
  rw [Nat.add_mul] at hapart
  have hstop : (t.mftmirrLcn + 1) * 2 ^ e = t.mftmirrLcn * 2 ^ e + 2 ^ e := by ring
  rw [h.record] at hbuf hsizes
  have hout : ∀ q : ℤ, (∀ r ∈ t.rlMft.toList ++ t.rlMftmirr.toList,
      ¬ ((r.lcn * t.vol.clusterSize : ℕ) ≤ q ∧ q < (r.stop * t.vol.clusterSize : ℕ))) →
      ¬ ((t.mftLcn * 2 ^ e : ℕ) ≤ q ∧ q < (t.mftLcn * 2 ^ e + n * 2 ^ e : ℕ)) ∧
        ¬ ((t.mftmirrLcn * 2 ^ e : ℕ) ≤ q ∧ q < (t.mftmirrLcn * 2 ^ e + 2 ^ e : ℕ)) := by
    intro q hq
    simp only [h.mft, h.mirr, h.cluster, Option.toList_some, List.cons_append, List.nil_append,
      List.forall_mem_cons, ClusterRun.stop, Nat.add_mul _ n, hstop] at hq
    exact ⟨hq.1, hq.2.1⟩
  rw [syncMft, h.record, h.cluster]
  have hsome : ∀ r r₁ : List UInt8, some r = some r₁ → r₁.length = r.length := by
    rintro r _ ⟨⟩
    rfl
  have hA := syncRecords_synced hio hsome (t.mftSize / 1024) 0 (t.mftLcn * 2 ^ e : ℕ) s hsizes
  generalize syncRecords io 1024 some (t.mftSize / 1024) 0 (t.mftLcn * 2 ^ e : ℕ) s = A at hA
  obtain ⟨e₁, s₁⟩ := A
  cases e₁ with
  | some err =>
    refine ⟨hA.inside (by omega), fun q hq => hA.outside q ?_, by rintro ⟨⟩, by rintro ⟨⟩⟩
    have := hout q hq
    omega
  | none =>
    dsimp only at hA ⊢
    have hB := syncRecords_synced hio hio.length_usnDec t.mirrRecords 0
      (t.mftmirrLcn * 2 ^ e : ℕ) s₁ hA.sizes
    generalize syncRecords io 1024 io.usnDec t.mirrRecords 0 (t.mftmirrLcn * 2 ^ e : ℕ) s₁ = B at hB
    have hlen := hA.length
    have hkeep : ∀ j < t.mftSize / 1024, stretch (io.view B.2.dev)
        (t.mftLcn * 2 ^ e + j * 1024 : ℕ) 1024 = stretch (io.view s₁.dev)
          ((t.mftLcn * 2 ^ e : ℕ) + (j * 1024 : ℕ)) 1024 := by
      intro j hj
      rw [Nat.cast_add]
      exact stretch_congr fun q h1 h2 => hB.outside q (by omega)
    refine ⟨hB.inside (by omega), fun q hq => ?_, fun hdone i r hr => ?_, fun hdone => ?_⟩
    · have := hout q hq
      rw [hB.outside q (by omega), hA.outside q (by omega)]
    · rw [h.cluster, h.record]
      have hi : i < t.mftSize / 1024 := hbuf ▸ (List.getElem?_eq_some_iff.mp hr).1
      obtain ⟨r', r₁, -, hr', hr₁, hview, -⟩ := hA.written rfl i hi
      rw [Nat.zero_add, hr] at hr'
      rw [hkeep i hi, hview, ← Option.some.inj hr₁, Option.some.inj hr']
    · have hall : stretch (io.view B.2.dev) (t.mftmirrLcn * 2 ^ e : ℕ) (t.mirrRecords * 1024) =
          stretch (io.view B.2.dev) (t.mftLcn * 2 ^ e : ℕ) (t.mirrRecords * 1024) := by
        refine stretch_pieces (by decide) fun j hj => ?_
        obtain ⟨r, r₁, x, -, -, hview, hx, hagain⟩ := hA.written rfl j (by omega)
        obtain ⟨r', r₁', -, hr', hr₁', hview', -⟩ := hB.written hdone j hj
        rw [hx, Option.some.injEq] at hr'
        rw [hview', ← Nat.cast_add, hkeep j (by omega), hview]
        exact hagain r₁' (hr' ▸ hr₁')
      rw [h.cluster]
      rwa [hmirr] at hall

/-- The end of a format. No loop reads behind the end of the buffer, nothing outside of `$MFT` and
`$MFTMirr` is touched, and if all writes succeed, every record is in `$MFT` and the cluster of the
mirror has the bytes `$MFT` begins with. -/
theorem mft_mirrored {M : ℕ} {c : FormatCall} (hdev : c.Gets [.devctx, .device])
    (hlay : layOut M c (initOptions .fresh) = (.ok (), t)) {σ : Type} {io : MstIo σ} (hio : io.Spec)
    {s : SyncState σ} (hbuf : s.buf.length = t.mftSize / t.vol.mftRecordSize)
    (hsizes : ∀ r ∈ s.buf, r.length = t.vol.mftRecordSize) :
    (syncMft io t s).1 ≠ some .overrun ∧
    (∀ q : ℤ, (∀ r ∈ t.rlMft.toList ++ t.rlMftmirr.toList,
        ¬ ((r.lcn * t.vol.clusterSize : ℕ) ≤ q ∧ q < (r.stop * t.vol.clusterSize : ℕ))) →
      io.view (syncMft io t s).2.dev q = io.view s.dev q) ∧
    ((syncMft io t s).1 = none →
      (∀ (i : ℕ) (r : List UInt8), s.buf[i]? = some r →
        stretch (io.view (syncMft io t s).2.dev)
          (t.mftLcn * t.vol.clusterSize + i * t.vol.mftRecordSize : ℕ) t.vol.mftRecordSize =
            io.protect r) ∧
      stretch (io.view (syncMft io t s).2.dev) (t.mftmirrLcn * t.vol.clusterSize : ℕ)
          t.vol.clusterSize =
        stretch (io.view (syncMft io t s).2.dev) (t.mftLcn * t.vol.clusterSize : ℕ)
          t.vol.clusterSize) := by
  obtain ⟨n, e, h⟩ := layOut_mftPlaced hdev hlay
  have hs := h.synced hio hbuf hsizes
  exact ⟨hs.inside, hs.outside, fun hdone => ⟨hs.records hdone, hs.mirror hdone⟩⟩

/-- On the device of bytes all records are written. -/
theorem byteEngine_syncs {rs n usaOfs : ℕ} {prepare : List UInt8 → Option (List UInt8)}
    (hp : ∀ r, MstOk n usaOfs r → ∃ r₁, prepare r = some r₁ ∧ MstOk n usaOfs r₁) :
    ∀ (k i : ℕ) (pos : ℤ) (s : SyncState (ℤ → UInt8)), i + k ≤ s.buf.length →
      (∀ r ∈ s.buf, MstOk n usaOfs r) →
      (syncRecords byteEngine rs prepare k i pos s).1 = none ∧
        (syncRecords byteEngine rs prepare k i pos s).2.buf.length = s.buf.length ∧
        ∀ r ∈ (syncRecords byteEngine rs prepare k i pos s).2.buf, MstOk n usaOfs r := by
  intro k
  induction k with
  | zero => exact fun i pos s _ hs => ⟨rfl, rfl, hs⟩
  | succ k ih =>
    intro i pos s hin hs
    have hget : s.buf[i]? = some s.buf[i] := List.getElem?_eq_getElem (by omega)
    obtain ⟨r₁, hr₁, hok⟩ := hp _ (hs _ (List.getElem_mem (by omega : i < s.buf.length)))
    have hpwrite : byteEngine.pwrite s.dev pos r₁ =
        (1, overwrite s.dev pos (mstWritten r₁), mstRestored r₁) := if_pos hok.self
    simp only [syncRecords, hget, hr₁, hpwrite, ne_eq, not_true_eq_false, if_false]
    have hset : ∀ x ∈ s.buf.set i (mstRestored r₁), MstOk n usaOfs x := by
      intro x hx
      rcases List.mem_or_eq_of_mem_set hx with hx | rfl
      · exact hs x hx
      · exact hok.after_write.1
    obtain ⟨h1, h2, h3⟩ := ih (i + 1) (pos + rs)
      ⟨overwrite s.dev pos (mstWritten r₁), s.buf.set i (mstRestored r₁)⟩ (by simp; omega) hset
    exact ⟨h1, by rw [h2]; simp, h3⟩

theorem byteEngine_syncMft {n usaOfs : ℕ} {s : SyncState (ℤ → UInt8)}
    (hmft : t.mftSize / t.vol.mftRecordSize ≤ s.buf.length) (hmirr : t.mirrRecords ≤ s.buf.length)
    (hs : ∀ r ∈ s.buf, MstOk n usaOfs r) : (syncMft byteEngine t s).1 = none := by
  have hsome : ∀ r, MstOk n usaOfs r → ∃ r₁, some r = some r₁ ∧ MstOk n usaOfs r₁ :=
    fun r hr => ⟨r, rfl, hr⟩
  have hdec : ∀ r, MstOk n usaOfs r → ∃ r₁, byteEngine.usnDec r = some r₁ ∧ MstOk n usaOfs r₁ :=
    fun r hr => ⟨_, if_pos hr.self, hr.after_dec.1⟩
  obtain ⟨h1, h2, h3⟩ := byteEngine_syncs hsome (t.mftSize / t.vol.mftRecordSize) 0
    (t.mftLcn * t.vol.clusterSize : ℕ) s (by omega) hs
  rw [syncMft]
  generalize syncRecords byteEngine t.vol.mftRecordSize some (t.mftSize / t.vol.mftRecordSize) 0
    (t.mftLcn * t.vol.clusterSize : ℕ) s = A at h1 h2 h3
  obtain ⟨e₁, s₁⟩ := A
  obtain rfl : e₁ = none := h1
  dsimp only at h2 h3
  exact (byteEngine_syncs hdec t.mirrRecords 0 _ s₁ (by omega) h3).1

theorem emptyRecord_mstOk : MstOk 2 0x30 emptyRecord := by
  decide +kernel

/-- The records of an empty volume. -/
def blankSync : SyncState (ℤ → UInt8) := ⟨fun _ => 0, List.replicate 27 emptyRecord⟩

theorem blankSync_mstOk : ∀ r ∈ blankSync.buf, MstOk 2 0x30 r := by
  intro r hr
  rw [List.eq_of_mem_replicate hr]
  exact emptyRecord_mstOk

/-- The smallest volume: 27 records, and the first four of them in the mirror. -/
theorem mft_mirrored_tiny : (syncMft byteEngine tinyVolume blankSync).1 = none ∧
    stretch (byteEngine.view (syncMft byteEngine tinyVolume blankSync).2.dev)
        (tinyVolume.mftmirrLcn * tinyVolume.vol.clusterSize : ℕ) tinyVolume.vol.clusterSize =
      stretch (byteEngine.view (syncMft byteEngine tinyVolume blankSync).2.dev)
        (tinyVolume.mftLcn * tinyVolume.vol.clusterSize : ℕ) tinyVolume.vol.clusterSize := by
  have hrs : tinyVolume.vol.mftRecordSize = 1024 := by decide +kernel
  have hcount : tinyVolume.mftSize / tinyVolume.vol.mftRecordSize = 27 := by decide +kernel
  have hmirr : tinyVolume.mirrRecords = 4 := by decide +kernel
  have hbuf : blankSync.buf.length = 27 := List.length_replicate
  have hdone := byteEngine_syncMft (hcount.trans hbuf.symm).le (by rw [hmirr, hbuf]; decide)
    blankSync_mstOk
  have hsizes : ∀ r ∈ blankSync.buf, r.length = tinyVolume.vol.mftRecordSize := by
    intro r hr
    rw [hrs]
    exact (blankSync_mstOk r hr).length
  exact ⟨hdone, ((mft_mirrored (fun _ _ => rfl) tinyVolume_layOut byteEngine_spec
    (hbuf.trans hcount.symm) hsizes).2.2 hdone).2⟩

end Mirror

end NtfsKit
