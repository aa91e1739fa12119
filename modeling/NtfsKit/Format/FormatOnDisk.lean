import NtfsKit.Format.FilesOnDisk

/-! A formatted disk. After the layout the attributes are written, those of the system files to the
places of the layout; at the end the bitmap is built from the list of clusters as it is then, and
written over the first one. The disk has all values then, and a bitmap that is exact. -/

namespace NtfsKit

open Finset

/-- The runlist of one run. -/
def ClusterRun.runlist (r : ClusterRun) : Runlist := [⟨0, r.lcn, r.length⟩, ⟨r.length, -1, 0⟩]

/-- The runlist of `$Bad`: one hole over the whole volume. -/
def badRuns (nr : ℕ) : Runlist := [⟨0, lcnHole, nr⟩, ⟨nr, -1, 0⟩]

/-- The disk that a layout leaves to the attributes. -/
def Globals.disk {σ : Type} (t : Globals) (w : Writer σ) : Disk σ :=
  ⟨⟨⟨t.allocation, 0⟩, t.mftZoneEnd⟩, w⟩

/-- "Syncing $Bitmap." -/
def syncBitmap {σ : Type} (io : NkIo σ) (callocOk : Bool) (t : Globals) (rl : Runlist)
    (s : Disk σ) : Bool × Writer σ :=
  let r := ntfsRlwrite io callocOk (.bitmap s.alloc.list.runs) t.vol.clusterSize
    t.lcnBitmapByteSize rl s.writer
  (decide (r.1.1 = t.lcnBitmapByteSize), r.2)

/-! ### The places of the layout -/

section Places

variable {nr cs : ℕ} {r : ClusterRun}

theorem ClusterRun.elements_runlist (r : ClusterRun) (hpos : 0 < r.length) :
    r.runlist.elements = [⟨0, r.lcn, r.length⟩] := by
  rw [runlist, Runlist.elements, List.takeWhile_cons, if_pos (by simp; omega)]
  simp

/-- A run of the volume, as if it were handed out. -/
theorem ClusterRun.handedOut (r : ClusterRun) (hpos : 0 < r.length) (hstop : r.stop ≤ nr) :
    HandedOut nr r.length ∅ r.runlist := by
  have hel := r.elements_runlist hpos
  have hcl : Runlist.clusters r.runlist.elements = List.range' r.lcn r.length := by
    rw [hel]
    simp [RunlistElement.clusters]
  refine ⟨?_, ?_, ?_, ?_, ?_⟩
  · rw [hel]
    have hlcn : lcnHole ≤ (r.lcn : ℤ) := by unfold lcnHole; omega
    have hlen : (0 : ℤ) < r.length := by exact_mod_cast hpos
    exact ⟨rfl, hlen, hlcn, trivial⟩
  · rw [hel]
    intro e he
    rw [List.mem_singleton.mp he]
    exact Int.natCast_nonneg _
  · rw [hcl]
    exact List.nodup_range'
  · rw [hcl, List.length_range']
  · intro k hk
    rw [hcl, List.mem_range'_1] at hk
    rw [ClusterRun.stop] at hstop
    exact ⟨by omega, notMem_empty k⟩

theorem ClusterRun.covers (hpos : 0 < r.length) (hcs : 0 < cs) {q : ℤ}
    (hq : r.runlist.Covers cs q) : r.lcn ≤ (q / cs).toNat ∧ (q / cs).toNat < r.stop := by
  have hout : HandedOut r.stop r.length ∅ r.runlist := r.handedOut hpos le_rfl
  have hmem := hout.cluster_of hcs hq
  rw [r.elements_runlist hpos] at hmem
  simpa [RunlistElement.clusters, ClusterRun.stop] using hmem

/-- `$Bad` has no bytes on the disk. -/
theorem badRuns_covers {q : ℤ} : ¬ (badRuns nr).Covers cs q := by
  rintro ⟨x, hx⟩
  obtain ⟨e, he, hep⟩ := Runlist.phys_mem hx
  obtain ⟨⟨hlcn, -⟩, -⟩ := RunlistElement.phys_eq_some.mp hep
  have hmem : e ∈ badRuns nr := (List.takeWhile_prefix _).subset he
  simp only [badRuns, List.mem_cons, List.not_mem_nil, or_false] at hmem
  rcases hmem with rfl | rfl
  · exact absurd hlcn (show ¬ (0 : ℤ) ≤ -1 by decide)
  · exact absurd hlcn (show ¬ (0 : ℤ) ≤ -1 by decide)

theorem badRuns_target {σ : Type} {io : NkIo σ} {valLen : ℕ} (hnr : 0 < nr) :
    Target io cs valLen 0 (badRuns nr).elements := by
  have hel : (badRuns nr).elements = [⟨0, lcnHole, nr⟩] := by
    rw [badRuns, Runlist.elements, List.takeWhile_cons, if_pos (by simp; omega)]
    simp
  have hno : ∀ x p, placeOf cs (badRuns nr).elements x ≠ some p :=
    fun x p hx => badRuns_covers ⟨x, hx⟩
  refine ⟨?_, fun x _ p hx => absurd hx (hno x p), fun x p hx => absurd hx (hno x p),
    fun _ => by simp, ?_⟩
  · rw [hel]
    have hlen : (0 : ℤ) < nr := by exact_mod_cast hnr
    exact ⟨rfl, hlen, le_rfl, trivial⟩
  · rw [hel]
    simp

/-- The places that the layout has for the attributes: runs of the system files, each for a value
that fills it but for a part of its last cluster, and the hole of `$Bad`. -/
def Globals.Places (t : Globals) (a : NewAttr) : Prop :=
  ∀ rl, a.positioned = some rl → rl = badRuns t.vol.nrClusters ∨
    ∃ r ∈ t.layout.systemRuns, 0 < r.length ∧ rl = r.runlist ∧
      a.clusters t.vol.clusterSize = r.length

/-- The attributes find the disk of a layout in order. -/
theorem Globals.LaidOut.disk_ok {σ : Type} {t : Globals} (h : t.LaidOut nr) {w : Writer σ}
    (hrw : w.dev.readOnly = false) (hbuf : w.buf ≠ []) : (t.disk w).Ok nr :=
  ⟨⟨h.ordered, h.boot, h.zone⟩, hrw, hbuf⟩

/-- A byte of an attribute that is positioned lies in the run of a system file. -/
theorem Globals.Places.run {t : Globals} (h : t.LaidOut t.vol.nrClusters) {a : NewAttr}
    (ha : t.Places a) {q : ℤ} (hq : a.Positions t.vol.clusterSize q) :
    ∃ r ∈ t.layout.systemRuns, a.positioned = some r.runlist ∧
      r.lcn ≤ (q / t.vol.clusterSize).toNat ∧ (q / t.vol.clusterSize).toNat < r.stop := by
  obtain ⟨rl, hpos, hc⟩ := hq
  obtain rfl | ⟨r, hr, hlen, rfl, -⟩ := ha rl hpos
  · exact absurd hc badRuns_covers
  · exact ⟨r, hr, hpos, ClusterRun.covers hlen h.cluster hc⟩

theorem Globals.LaidOut.positioned {σ : Type} {io : NkIo σ} {t : Globals}
    (h : t.LaidOut t.vol.nrClusters) (hsize : (t.vol.nrClusters * t.vol.clusterSize : ℕ) ≤ io.size)
    {attrs : List NewAttr} (hplaces : ∀ a ∈ attrs, t.Places a)
    (hdiff : attrs.Pairwise fun a b => a.positioned = none ∨ a.positioned ≠ b.positioned)
    (hhas : ∀ a ∈ attrs, ∀ runs, (a.value runs).Has a.valLen) (w : Writer σ) :
    (t.disk w).Positioned io t.vol.clusterSize attrs where
  target a ha rl hrl := by
    obtain rfl | ⟨r, hr, hlen, rfl, hcl⟩ := hplaces a ha rl hrl
    · exact badRuns_target h.positive
    · have hout := r.handedOut hlen (h.inside r hr)
      rw [← hcl] at hout
      exact hout.target h.cluster hsize
  taken a ha q hq := by
    obtain ⟨r, hr, -, hk⟩ := (hplaces a ha).run h hq
    change _ ∈ clustersOf t.allocation
    rw [h.exact, mem_union, mem_clustersOf]
    exact .inl ⟨r, hr, hk⟩
  apart := by
    refine List.Pairwise.imp_of_mem ?_ hdiff
    intro a b ha hb hne q hq hq'
    obtain ⟨r, hr, hpos, hk⟩ := (hplaces a ha).run h hq
    obtain ⟨r', hr', hpos', hk'⟩ := (hplaces b hb).run h hq'
    obtain rfl := h.separate.eq_of_mem hr hr' hk hk'
    rw [hpos, hpos'] at hne
    simp at hne
  has := hhas

end Places

/-! ### The end of a format -/

/-- A format in which every list node gets its memory, the node of the MFT among them, whose
attributes are all written and whose bitmap is synced. The bitmap on the disk has exactly the
clusters of the system files, those that were taken for an attribute, and the bits behind the end
of the volume; every other value lies whole where its runlist says. -/
theorem format_on_disk {M : ℕ} {c : FormatCall} (hdev : c.Gets [.devctx, .device])
    (hnode : c.fails .mftNode = false) {t : Globals}
    (hlay : layOut M c (initOptions .fresh) = (.ok (), t)) {memory : ℕ → Bool}
    (hm : ∀ k, memory k = true) {attrs : List NewAttr} (hplaces : ∀ a ∈ attrs, t.Places a)
    (hdiff : attrs.Pairwise fun a b => a.positioned = none ∨ a.positioned ≠ b.positioned)
    (hhas : ∀ a ∈ attrs, ∀ runs, (a.value runs).Has a.valLen) {σ : Type} {io : NkIo σ}
    (hio : io.Spec) (hsize : (t.vol.nrClusters * t.vol.clusterSize : ℕ) ≤ io.size) {w : Writer σ}
    (hrw : w.dev.readOnly = false) (hbuf : w.buf ≠ [])
    (hall : none ∉ runlistsOf memory io t.vol.nrClusters t.vol.clusterSize attrs (t.disk w))
    {b : ℕ} {bitmap : NewAttr} {rl : Runlist} (hb : attrs[b]? = some bitmap)
    (hown : bitmap.positioned = none) (hlen : bitmap.valLen = t.lcnBitmapByteSize)
    (hrl : (runlistsOf memory io t.vol.nrClusters t.vol.clusterSize attrs (t.disk w))[b]? =
      some (some rl)) {callocOk : Bool} {w' : Writer σ}
    (hsync : syncBitmap io callocOk t rl (execAll
      (insertNonResident memory io t.vol.nrClusters t.vol.clusterSize) attrs (t.disk w)) =
        (true, w')) :
    (∀ k < t.lcnBitmapByteSize * 8, ∃ p, rl.phys t.vol.clusterSize (k / 8 : ℕ) = some p ∧
      ((io.view w'.dev.ctx p).toNat.testBit (k % 8) = true ↔
        (∃ r ∈ t.layout.systemRuns, r.lcn ≤ k ∧ k < r.stop) ∨
        (∃ (i : ℕ) (a : NewAttr) (rl : Runlist), attrs[i]? = some a ∧
          (runlistsOf memory io t.vol.nrClusters t.vol.clusterSize attrs (t.disk w))[i]? =
            some (some rl) ∧ k ∈ a.own rl) ∨ t.vol.nrClusters ≤ k)) ∧
    ∀ (i : ℕ) (a : NewAttr) (rl' : Runlist), i ≠ b → attrs[i]? = some a →
      (runlistsOf memory io t.vol.nrClusters t.vol.clusterSize attrs (t.disk w))[i]? =
        some (some rl') →
      rl'.Has io (a.value (allocatedAfter memory io t.vol.nrClusters t.vol.clusterSize attrs
        (t.disk w) i)) t.vol.clusterSize a.valLen w'.dev.ctx := by
  have hlaid := layOut_laidOut hdev hnode hlay
  have hcs := hlaid.cluster
  have hs : (t.disk w).Ok t.vol.nrClusters := hlaid.disk_ok hrw hbuf
  have hp := hlaid.positioned hsize hplaces hdiff hhas w
  obtain ⟨hend, -, -⟩ := insertAll_frame hio hm hcs hsize attrs _ hs hp
  obtain ⟨hfrom, -⟩ := insertAll_runlists hio hm hcs hsize attrs _ hs hp b bitmap rl hb hrl
  have hset := insertAll_clusters hio hm hcs hsize attrs _ hs hp hall
  obtain ⟨A, hout⟩ := hfrom.resolve_left (by rw [hown]; simp)
  rw [NewAttr.clusters, hlen] at hout
  generalize hend' : execAll (insertNonResident memory io t.vol.nrClusters t.vol.clusterSize) attrs
    (t.disk w) = s at hend hset hsync
  obtain ⟨ret, inited, w₁, hrun, hplaced, hcases⟩ := ntfsRlwrite_spec hio hcs
    (t := .bitmap s.alloc.list.runs) trivial (hout.target hcs hsize) callocOk hend.readOnly hend.buf
  rw [syncBitmap, hrun] at hsync
  obtain ⟨hdone, rfl⟩ := Prod.mk.inj hsync
  have hret : ret = t.lcnBitmapByteSize := of_decide_eq_true hdone
  obtain ⟨-, hdata⟩ := hcases.resolve_left fun hfail => by omega
  constructor
  · intro k hk
    have hbitmap := hlaid.bitmap
    have hx : k / 8 < t.lcnBitmapByteSize := by omega
    have hfit : k / 8 < (t.lcnBitmapByteSize + t.vol.clusterSize - 1) / t.vol.clusterSize *
        t.vol.clusterSize := by
      have := Nat.lt_div_mul_add (a := t.lcnBitmapByteSize + t.vol.clusterSize - 1) hcs
      omega
    obtain ⟨p, hplace⟩ := hout.place hcs hfit
    refine ⟨p, hplace, ?_⟩
    rw [hdata _ p hplace, if_pos (by exact_mod_cast hx), Int.toNat_natCast, WriteType.byte,
      bitmapByte_testBit _ _ (Nat.mod_lt _ (by decide)), Nat.div_add_mod, decide_eq_true_eq, hset]
    change k ∈ clustersOf t.allocation ∨ _ ↔ _
    rw [hlaid.exact, mem_union, mem_clustersOf, mem_Ico, or_assoc]
    refine or_congr_right ?_
    rw [or_comm]
    exact or_congr_right ⟨And.left, fun h => ⟨h, by omega⟩⟩
  · intro i a rl' hne ha hrl'
    have hvalue := insertAll_values hio hm hcs hsize attrs _ hs hp i a rl' ha hrl'
    rw [hend'] at hvalue
    intro x p hx
    rw [hplaced.frame p fun y hy => ?_]
    · exact hvalue x p hx
    · rcases lt_or_gt_of_ne hne with hlt | hgt
      · exact insertAll_apart hio hm hcs hsize attrs _ hs hp i b rl' rl hlt hrl' hrl p ⟨x, hx⟩
          ⟨y, hy⟩
      · exact insertAll_apart hio hm hcs hsize attrs _ hs hp b i rl rl' hgt hrl hrl' p ⟨y, hy⟩
          ⟨x, hx⟩

/-- A bitmap is synced on a device that never fails. -/
theorem syncBitmap_ok {σ : Type} {io : NkIo σ} (h : io.Spec) (hnever : ¬ io.MayFail) {nr : ℕ}
    {A : Finset ℕ} {t : Globals} {rl : Runlist}
    (hout : HandedOut nr ((t.lcnBitmapByteSize + t.vol.clusterSize - 1) / t.vol.clusterSize) A rl)
    (hcs : 0 < t.vol.clusterSize) (hsize : (nr * t.vol.clusterSize : ℕ) ≤ io.size) {s : Disk σ}
    (hs : s.Ok nr) : ∃ w', syncBitmap io true t rl s = (true, w') := by
  obtain ⟨ret, inited, w', hrun, hcases⟩ := hout.written h hcs hsize
    (t := .bitmap s.alloc.list.runs) trivial true hs.readOnly hs.buf
  rw [syncBitmap, hrun]
  rcases hcases with ⟨-, hfail | hfail⟩ | rfl
  · exact absurd hfail hnever
  · exact absurd hfail (by decide)
  · exact ⟨w', by simp⟩

def sevens : List UInt8 := List.replicate 9000 7

/-- The log, the bitmap and a file of three clusters on the tiny volume. -/
def tinyAttrs : List NewAttr :=
  [⟨some (ClusterRun.runlist ⟨129, 64⟩), fun _ => .logfile, 64 * 4096, fun _ => true, true, true⟩,
    ⟨none, .bitmap, 40, fun _ => true, true, true⟩,
    ⟨none, fun _ => .standard sevens, 9000, fun _ => true, true, true⟩]

theorem tinyVolume_sizes : tinyVolume.vol.nrClusters = 257 ∧
    tinyVolume.vol.clusterSize = 4096 ∧ tinyVolume.lcnBitmapByteSize = 40 := by
  decide +kernel

theorem tinyVolume_laidOut : tinyVolume.LaidOut tinyVolume.vol.nrClusters :=
  layOut_laidOut (fun _ _ => rfl) rfl tinyVolume_layOut

theorem tinyAttrs_apart :
    tinyAttrs.Pairwise fun a b => a.positioned = none ∨ a.positioned ≠ b.positioned := by
  simp only [tinyAttrs, List.pairwise_cons, List.mem_cons, List.not_mem_nil, or_false,
    forall_eq_or_imp, forall_eq, false_imp_iff, implies_true, List.Pairwise.nil, and_true]
  exact ⟨⟨.inr (by simp), .inr (by simp)⟩, .inl trivial⟩

theorem tinyAttrs_has : ∀ a ∈ tinyAttrs, ∀ runs, (a.value runs).Has a.valLen := by
  intro a ha runs
  simp only [tinyAttrs, List.mem_cons, List.not_mem_nil, or_false] at ha
  rcases ha with rfl | rfl | rfl
  · trivial
  · trivial
  · exact (List.length_replicate (n := 9000) (a := (7 : UInt8))).ge

theorem tinyAttrs_places : ∀ a ∈ tinyAttrs, tinyVolume.Places a := by
  intro a ha rl hrl
  simp only [tinyAttrs, List.mem_cons, List.not_mem_nil, or_false] at ha
  rcases ha with rfl | rfl | rfl
  · refine .inr ⟨⟨129, 64⟩, by decide +kernel, by decide, (Option.some.inj hrl).symm, ?_⟩
    rw [tinyVolume_sizes.2.1]
    rfl
  · cases hrl
  · cases hrl

/-- The files of the tiny volume and their clusters; all of them are written. -/
theorem tinyAttrs_runlists (w : Writer (ℤ → UInt8)) (hrw : w.dev.readOnly = false)
    (hbuf : w.buf ≠ []) :
    runlistsOf (fun _ => true) (sipDisk 7 (2 ^ 21)) tinyVolume.vol.nrClusters
        tinyVolume.vol.clusterSize tinyAttrs (tinyVolume.disk w) =
      [some (ClusterRun.runlist ⟨129, 64⟩), some [⟨0, 36, 1⟩, ⟨1, 0, 0⟩],
        some [⟨0, 37, 3⟩, ⟨3, 0, 0⟩]] := by
  obtain ⟨hnr, hcs, -⟩ := tinyVolume_sizes
  have hlaid := tinyVolume_laidOut
  have hsize : (tinyVolume.vol.nrClusters * tinyVolume.vol.clusterSize : ℕ) ≤
      (sipDisk 7 (2 ^ 21)).size := by
    rw [hnr, hcs]
    decide
  have hp : (tinyVolume.disk w).Positioned (sipDisk 7 (2 ^ 21)) _ tinyAttrs :=
    hlaid.positioned hsize tinyAttrs_places tinyAttrs_apart tinyAttrs_has w
  rw [runlistsOf_eq (sipDisk_spec (by decide) (2 ^ 21)) (fun _ => rfl) hlaid.cluster hsize
    sipDisk_neverFails tinyAttrs _ (hlaid.disk_ok hrw hbuf) hp]
  · change answers (fun g a => a.runlist (fun _ => true) tinyVolume.vol.nrClusters
      tinyVolume.vol.clusterSize g) tinyAttrs
        ⟨⟨tinyVolume.allocation, 0⟩, tinyVolume.mftZoneEnd⟩ = _
    decide +kernel
  · intro a ha
    simp only [tinyAttrs, List.mem_cons, List.not_mem_nil, or_false] at ha
    rw [hnr, hcs]
    rcases ha with rfl | rfl | rfl
    · refine ⟨fun rl hrl => ?_, rfl, rfl⟩
      obtain rfl := Option.some.inj hrl
      exact ClusterRun.handedOut ⟨129, 64⟩ (by decide) (by decide)
    · exact ⟨by rintro _ ⟨⟩, rfl, rfl⟩
    · exact ⟨by rintro _ ⟨⟩, rfl, rfl⟩

theorem format_on_disk_tiny : ∃ w' : Writer (ℤ → UInt8),
    (∀ k < 40 * 8, ∃ p, Runlist.phys (4096 : ℕ) [⟨0, 36, 1⟩, ⟨1, 0, 0⟩] (k / 8 : ℕ) = some p ∧
      (((sipDisk 7 (2 ^ 21)).view w'.dev.ctx p).toNat.testBit (k % 8) = true ↔
        (∃ r ∈ tinyVolume.layout.systemRuns, r.lcn ≤ k ∧ k < r.stop) ∨
        (∃ (i : ℕ) (a : NewAttr) (rl : Runlist), tinyAttrs[i]? = some a ∧
          [some (ClusterRun.runlist ⟨129, 64⟩), some [⟨0, 36, 1⟩, ⟨1, 0, 0⟩],
            some [⟨0, 37, 3⟩, ⟨3, 0, 0⟩]][i]? = some (some rl) ∧ k ∈ a.own rl) ∨ 257 ≤ k)) ∧
    Runlist.Has (sipDisk 7 (2 ^ 21)) (.standard sevens) 4096 9000 [⟨0, 37, 3⟩, ⟨3, 0, 0⟩]
      w'.dev.ctx := by
  obtain ⟨hnr, hcs, hbytes⟩ := tinyVolume_sizes
  have hlaid := tinyVolume_laidOut
  have hsize : (tinyVolume.vol.nrClusters * tinyVolume.vol.clusterSize : ℕ) ≤
      (sipDisk 7 (2 ^ 21)).size := by
    rw [hnr, hcs]
    decide
  have hspec := sipDisk_spec (show 0 < 7 by decide) (2 ^ 21)
  let w : Writer (ℤ → UInt8) := ⟨⟨fun _ => 1, 0, false, false⟩, List.replicate 16 9⟩
  have hs : (tinyVolume.disk w).Ok _ := hlaid.disk_ok rfl (by decide)
  have hp := hlaid.positioned hsize tinyAttrs_places tinyAttrs_apart tinyAttrs_has w
  have hrl := tinyAttrs_runlists w rfl (by decide)
  have hb : (runlistsOf (fun _ => true) (sipDisk 7 (2 ^ 21)) tinyVolume.vol.nrClusters
      tinyVolume.vol.clusterSize tinyAttrs (tinyVolume.disk w))[1]? =
        some (some [⟨0, 36, 1⟩, ⟨1, 0, 0⟩]) := by
    rw [hrl]
    rfl
  obtain ⟨hfrom, -⟩ := insertAll_runlists hspec (fun _ => rfl) hlaid.cluster hsize tinyAttrs _ hs
    hp 1 _ _ rfl hb
  obtain ⟨A, hout⟩ := hfrom.resolve_left (by rintro ⟨⟩)
  have hend := (insertAll_frame hspec (fun _ => rfl) hlaid.cluster hsize tinyAttrs _ hs hp).1
  rw [NewAttr.clusters, show (40 : ℕ) = tinyVolume.lcnBitmapByteSize from hbytes.symm] at hout
  obtain ⟨w', hsync⟩ := syncBitmap_ok hspec sipDisk_neverFails hout hlaid.cluster hsize hend
  obtain ⟨hbits, hfiles⟩ := format_on_disk (fun _ _ => rfl) rfl tinyVolume_layOut (fun _ => rfl)
    tinyAttrs_places tinyAttrs_apart tinyAttrs_has hspec hsize (w := w) rfl (by decide)
    (by rw [hrl]; simp) (b := 1) rfl rfl hbytes.symm hb hsync
  have hfile := hfiles 2 _ _ (by decide) rfl (by rw [hrl]; rfl)
  rw [hrl, hbytes, hnr, hcs] at hbits
  rw [hcs] at hfile
  exact ⟨w', hbits, hfile⟩

end NtfsKit
