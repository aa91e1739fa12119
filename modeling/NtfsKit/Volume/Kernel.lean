import NtfsKit.Bridge.Blockmap
import NtfsKit.Bridge.File
import NtfsKit.Lib.Lookup
import NtfsKit.Lib.Run
import NtfsKit.Volume.Coherence

/-! The engine and the kernel on one device. The engine reads and writes through the
buffer cache; a write map purges the granules of the ranges it hands out; the kernel
then stores data in those ranges behind the cache. An engine write is a read-modify-write
of whole granules, so it keeps the kernel's bytes only while the cache is coherent. -/

namespace NtfsKit

/-- A window handed to the kernel: its ranges on the device as `(phys, len)`. -/
structure Grant where
  ranges : List (ℤ × ℤ)
  outstanding : Bool

structure DeviceSys where
  dev : Device
  grants : List Grant

inductive DeviceEvent
  /-- Engine I/O, from whatever call of the bridge or the library. -/
  | pread (io : Faults) (count offset : ℤ)
  | pwrite (io : Faults) (buf : ℤ → UInt8) (count offset : ℤ)
  /-- The end of a write `blockmapFile`: the purge, which may fail, and the hand-out. -/
  | blockmapFile (ranges : List (ℤ × ℤ)) (purged : Bool)
  /-- The kernel stores `data` on the bytes `[a, b)` of the device for window `i`. -/
  | land (i : ℕ) (a b : ℤ) (data : ℤ → UInt8)
  /-- `completeIO` of window `i`, whether the write succeeded or not. -/
  | completeIo (i : ℕ)

/-- A direct write of `data` on `[a, b)`. -/
def directWrite (a b : ℤ) (data disk : ℤ → UInt8) : ℤ → UInt8 := fun q =>
  if a ≤ q ∧ q < b then data q else disk q

namespace DeviceSys

variable (d : BlockDevice)

/-- One event; the reply is what an engine write returned. -/
def step (s : DeviceSys) : DeviceEvent → Option ℤ × DeviceSys
  | .pread io count offset => (none, { s with dev := (d.devicePread io count offset s.dev).2 })
  | .pwrite io buf count offset =>
    let r := d.devicePwrite io buf count offset s.dev
    (some r.1, { s with dev := r.2 })
  | .blockmapFile ranges purged => (none, if purged then
      { dev := metadataPurge (ranges.map (purgeRange d.cacheBlockSize)) s.dev
        grants := s.grants ++ [⟨ranges, true⟩] }
      else s)
  | .land _ a b data => (none, { s with dev := s.dev.poke (directWrite a b data s.dev.disk) })
  | .completeIo i =>
    (none, { s with grants := s.grants.modify i fun w => { w with outstanding := false } })

/-- The engine has just opened the device. -/
def opened (disk : ℤ → UInt8) : DeviceSys := ⟨.cold disk, []⟩

end DeviceSys

/-- What runs are made of: a map hands out whole blocks that no outstanding window holds,
the kernel stores inside a range of an outstanding window, and a window is completed at
most once. Engine I/O is arbitrary. -/
def DeviceRule (d : BlockDevice) (s : DeviceSys) : DeviceEvent → Option ℤ → Prop
  | .blockmapFile ranges _, _ => ∀ r ∈ ranges, d.blockSize ∣ r.1 ∧ d.blockSize ∣ r.2 ∧
      ∀ w ∈ s.grants, w.outstanding = true → ∀ t ∈ w.ranges, r.1 + r.2 ≤ t.1 ∨ t.1 + t.2 ≤ r.1
  | .land i a b _, _ => ∃ w ∈ s.grants[i]?, w.outstanding = true ∧
      ∃ r ∈ w.ranges, r.1 ≤ a ∧ b ≤ r.1 + r.2
  | .completeIo i, _ => ∃ w ∈ s.grants[i]?, w.outstanding = true
  | _, _ => True

/-- The kernel stores nothing into a granule that is in the cache. -/
def NotCached (d : BlockDevice) (s : DeviceSys) : DeviceEvent → Prop
  | .land _ a b _ => ∀ q, a ≤ q → q < b → s.dev.cached (d.granule q) = false
  | _ => True

instance (d : BlockDevice) (s : DeviceSys) : ∀ (e : DeviceEvent) (r : Option ℤ),
    Decidable (DeviceRule d s e r)
  | .blockmapFile ranges _, _ => inferInstanceAs (Decidable (∀ r ∈ ranges, d.blockSize ∣ r.1 ∧
      d.blockSize ∣ r.2 ∧ ∀ w ∈ s.grants, w.outstanding = true → ∀ t ∈ w.ranges,
        r.1 + r.2 ≤ t.1 ∨ t.1 + t.2 ≤ r.1))
  | .land i a b _, _ => inferInstanceAs (Decidable (∃ w ∈ s.grants[i]?, w.outstanding = true ∧
      ∃ r ∈ w.ranges, r.1 ≤ a ∧ b ≤ r.1 + r.2))
  | .completeIo i, _ => inferInstanceAs (Decidable (∃ w ∈ s.grants[i]?, w.outstanding = true))
  | .pread _ _ _, _ | .pwrite _ _ _ _, _ => inferInstanceAs (Decidable True)

instance (d : BlockDevice) (s : DeviceSys) : ∀ e : DeviceEvent, Decidable (NotCached d s e)
  | .land _ a b _ => inferInstanceAs (Decidable (∀ q, a ≤ q → q < b →
      s.dev.cached (d.granule q) = false))
  | .blockmapFile _ _ | .completeIo _ | .pread _ _ _ | .pwrite _ _ _ _ =>
    inferInstanceAs (Decidable True)

/-- An engine write from `s` leaves every byte of the disk outside its range alone. -/
def WritesOnlyItsRange (d : BlockDevice) (s : Device) : Prop :=
  ∀ io buf count offset q, ¬ (offset ≤ q ∧ q < offset + count) →
    (d.devicePwrite io buf count offset s).2.disk q = s.disk q

/-- On a coherent cache an engine write is a flat write. -/
theorem writesOnlyItsRange_of_coherent {d : BlockDevice} {s : Device} (hs : s.Coherent d.granule) :
    WritesOnlyItsRange d s := by
  intro io buf count offset q hq
  rcases (BlockDevice.devicePwrite_spec hs io buf count offset).part q with h | h
  · exact h
  · rw [h]
    simp only [diskWrite]
    rw [if_neg hq]

section Runs

variable {d : BlockDevice}

/-- Every step keeps the cache coherent unless the kernel stores into a cached granule. -/
theorem coherent_step {s : DeviceSys} (hs : s.dev.Coherent d.granule) {e : DeviceEvent}
    (he : NotCached d s e) : (s.step d e).2.dev.Coherent d.granule := by
  cases e with
  | pread io count offset => exact (BlockDevice.devicePread_spec hs io count offset).1.coherent
  | pwrite io buf count offset =>
    exact (BlockDevice.devicePwrite_spec hs io buf count offset).coherent
  | blockmapFile ranges purged =>
    simp only [DeviceSys.step]
    split_ifs
    · exact hs.purge _
    · exact hs
  | land i a b data =>
    apply hs.poke
    intro q hq
    by_cases hin : a ≤ q ∧ q < b
    · exact he q hin.1 hin.2
    · exact absurd (if_neg hin) hq
  | completeIo i => exact hs

/-- No engine write undoes a direct write of the kernel, in every run in which the kernel
stores into no granule that is in the cache. -/
theorem engine_write_keeps_direct_writes {disk : ℤ → UInt8} {s : DeviceSys}
    (hr : Run (DeviceSys.step d) (fun s e r => DeviceRule d s e r ∧ NotCached d s e)
      (.opened disk) s) : WritesOnlyItsRange d s.dev := by
  have hstep : ∀ (t : DeviceSys) (e : DeviceEvent), t.dev.Coherent d.granule →
      (DeviceRule d t e (t.step d e).1 ∧ NotCached d t e) →
      (t.step d e).2.dev.Coherent d.granule :=
    fun _ _ ht hok => coherent_step ht hok.2
  exact writesOnlyItsRange_of_coherent (hr.invariant hstep (WriteThrough.coherent_cold disk))

/-! ### The purge protocol -/

/-- A purge covers the granules of the ranges it was made from. -/
theorem hasGranule_purgeRange {w : ℤ × ℤ} {q : ℤ} (h1 : w.1 ≤ q) (h2 : q < w.1 + w.2) :
    (purgeRange d.cacheBlockSize w).hasGranule (d.granule q) = true := by
  have hg := d.pos
  have hup : w.1 + w.2 ≤ roundUp d.cacheBlockSize (w.1 + w.2) := le_roundUp hg _
  have hlow : w.1 / d.cacheBlockSize ≤ d.granule q := Int.ediv_le_ediv hg h1
  have hhigh : d.granule q < (w.1 + w.2 + d.cacheBlockSize - 1) / d.cacheBlockSize := by
    rw [BlockDevice.granule, Int.ediv_lt_iff_lt_mul hg]
    exact h2.trans_le hup
  simp only [FSMetadataRange.hasGranule, purgeRange, ← sub_mul, Int.mul_ediv_cancel _ hg.ne',
    Bool.and_eq_true, decide_eq_true_eq]
  omega

/-- Nothing of an outstanding window is in the cache. -/
def Purged (d : BlockDevice) (s : DeviceSys) : Prop :=
  ∀ w ∈ s.grants, w.outstanding = true → ∀ r ∈ w.ranges, ∀ q, r.1 ≤ q → q < r.1 + r.2 →
    s.dev.cached (d.granule q) = false

/-- No granule of `[offset, offset + count)` holds a byte of an outstanding window. -/
def OffWindows (d : BlockDevice) (s : DeviceSys) (count offset : ℤ) : Prop :=
  ∀ w ∈ s.grants, w.outstanding = true → ∀ r ∈ w.ranges, ∀ q, r.1 ≤ q → q < r.1 + r.2 →
    ¬ (d.alignedStart offset ≤ q ∧ q < d.alignedEnd (min (offset + count) d.size))

/-- Engine I/O stays off the granules of the outstanding windows. -/
def EngineApart (d : BlockDevice) (s : DeviceSys) : DeviceEvent → Prop
  | .pread _ count offset => OffWindows d s count offset
  | .pwrite _ _ count offset => OffWindows d s count offset
  | _ => True

/-- Engine I/O off the windows leaves them out of the cache. -/
theorem Purged.engine {s t : DeviceSys} (h : Purged d s) (hg : t.grants = s.grants)
    {count offset : ℤ} (hoff : OffWindows d s count offset)
    (hc : ∀ q, t.dev.cached (d.granule q) = true → s.dev.cached (d.granule q) = true ∨
      (d.alignedStart offset ≤ q ∧ q < d.alignedEnd (min (offset + count) d.size))) :
    Purged d t := by
  intro w hw ho r hr q h1 h2
  rw [hg] at hw
  by_contra hn
  rcases hc q (by simpa using hn) with hq | hq
  · exact absurd hq (by simp [h w hw ho r hr q h1 h2])
  · exact hoff w hw ho r hr q h1 h2 hq

/-- The purge at the end of a write map takes the new window out of the cache, and it stays
out while engine I/O keeps off it. -/
theorem Purged.step {s : DeviceSys} (hs : s.dev.Coherent d.granule) (h : Purged d s)
    {e : DeviceEvent} (he : EngineApart d s e) : Purged d (s.step d e).2 := by
  cases e with
  | pread io count offset =>
    exact h.engine rfl he (BlockDevice.devicePread_spec hs io count offset).1.cached
  | pwrite io buf count offset =>
    exact h.engine rfl he (BlockDevice.devicePwrite_spec hs io buf count offset).cached
  | blockmapFile ranges purged =>
    simp only [DeviceSys.step]
    split_ifs
    · intro w hw ho r hr q h1 h2
      simp only [metadataPurge, WriteThrough.purge_cached, Bool.and_eq_false_iff]
      rcases List.mem_append.mp hw with hw | hw
      · exact .inl (h w hw ho r hr q h1 h2)
      · obtain rfl := List.mem_singleton.mp hw
        have hin : (ranges.map (purgeRange d.cacheBlockSize)).any
            (·.hasGranule (d.granule q)) = true :=
          List.any_eq_true.mpr ⟨_, List.mem_map_of_mem hr, hasGranule_purgeRange h1 h2⟩
        exact .inr (by rw [hin]; rfl)
    · exact h
  | land i a b data => exact h
  | completeIo i =>
    intro w hw ho r hr q h1 h2
    obtain ⟨j, hj⟩ := List.mem_iff_getElem?.mp hw
    obtain ⟨u, hu, rfl⟩ := lookup_modify.mp hj
    by_cases hij : i = j
    · rw [if_pos hij] at ho
      cases ho
    · rw [if_neg hij] at hr
      exact h u (List.mem_of_getElem? hu) (by simpa [hij] using ho) r hr q h1 h2

/-- Landings in purged windows meet no cached granule. -/
theorem Purged.notCached {s : DeviceSys} (h : Purged d s) {e : DeviceEvent} {r : Option ℤ}
    (hr : DeviceRule d s e r) : NotCached d s e := by
  cases e with
  | land i a b data =>
    obtain ⟨w, hw, ho, t, ht, h1, h2⟩ := hr
    intro q hqa hqb
    exact h w (List.mem_of_getElem? hw) ho t ht q (by omega) (by omega)
  | pread io count offset => trivial
  | pwrite io buf count offset => trivial
  | blockmapFile ranges purged => trivial
  | completeIo i => trivial

/-- The purge protocol is enough for engine I/O that keeps off the outstanding windows. -/
theorem apart_keeps_direct_writes {disk : ℤ → UInt8} {s : DeviceSys}
    (hr : Run (DeviceSys.step d) (fun s e r => DeviceRule d s e r ∧ EngineApart d s e)
      (.opened disk) s) : WritesOnlyItsRange d s.dev := by
  have hstep : ∀ (t : DeviceSys) (e : DeviceEvent),
      (t.dev.Coherent d.granule ∧ Purged d t) →
      (DeviceRule d t e (t.step d e).1 ∧ EngineApart d t e) →
      ((t.step d e).2.dev.Coherent d.granule ∧ Purged d (t.step d e).2) :=
    fun _ _ ht hok => ⟨coherent_step ht.1 (ht.2.notCached hok.1), ht.2.step ht.1 hok.2⟩
  have hstart : (DeviceSys.opened disk).dev.Coherent d.granule ∧ Purged d (.opened disk) := by
    refine ⟨WriteThrough.coherent_cold disk, ?_⟩
    intro w hw
    cases hw
  exact writesOnlyItsRange_of_coherent (hr.invariant hstep hstart).1

end Runs

/-! ### A cluster shared by four windows -/

/-- A device of blocks of 512 bytes with clusters and granules of 4096. -/
def sharedDevice : BlockDevice :=
  .opened 512 512 BlockDevice.sector_pos
    (some fun i => if i = 0x0C then 2 else if i = 0x0D then 8 else 0)

/-- No access fails. -/
def noFaults : Faults := ⟨fun _ => true, fun _ => true⟩

/-- The device writes that zero the aborted window `[lo, hi)` of a file in cluster 4. -/
def abortWrites (lo hi : ℤ) : List DeviceEvent :=
  (zeroRawWrites 4096 [⟨0, 4, 1⟩] lo hi).map fun c => .pwrite noFaults zeros c.2 c.1

/-- Four windows of one block, all in cluster 4, then `es`. -/
def sharedCluster (es : List DeviceEvent) : DeviceSys :=
  execAll (DeviceSys.step sharedDevice) ([.blockmapFile [(16384, 512)] true,
    .blockmapFile [(16896, 512)] true, .blockmapFile [(17408, 512)] true,
    .blockmapFile [(17920, 512)] true] ++ es) (.opened fun _ => 0xAA)

/-- The first window lands before the engine touches the cluster. -/
theorem engine_write_keeps_direct_writes_land_first :
    WritesOnlyItsRange sharedDevice
      (sharedCluster (.land 0 16384 16896 (fun _ => 1) :: abortWrites 512 1024)).dev :=
  have hrun : Run (DeviceSys.step sharedDevice)
      (fun s e r => DeviceRule sharedDevice s e r ∧ NotCached sharedDevice s e)
      (.opened fun _ => 0xAA)
      (sharedCluster (.land 0 16384 16896 (fun _ => 1) :: abortWrites 512 1024)) :=
    Run.of_execAll (by decide +kernel)
  engine_write_keeps_direct_writes hrun

/-- The abort of the second window brings the whole cluster into the cache. The first window
lands behind it, and the abort of the third writes the cached copy back over it. -/
theorem second_abort_undoes_direct_write :
    sharedDevice.cacheBlockSize = 4096 ∧
    abortWrites 1024 1536 = [.pwrite noFaults zeros 512 17408] ∧
    Run (DeviceSys.step sharedDevice) (DeviceRule sharedDevice) (.opened fun _ => 0xAA)
      (sharedCluster (abortWrites 512 1024 ++ [.land 0 16384 16896 fun _ => 1])) ∧
    ¬ WritesOnlyItsRange sharedDevice
      (sharedCluster (abortWrites 512 1024 ++ [.land 0 16384 16896 fun _ => 1])).dev := by
  refine ⟨by decide +kernel, rfl, Run.of_execAll (by decide +kernel), fun h => ?_⟩
  exact absurd (h noFaults zeros 512 17408 16384 (by decide)) (by decide +kernel)

end NtfsKit
