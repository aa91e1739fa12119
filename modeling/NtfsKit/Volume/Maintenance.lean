import NtfsKit.Lib.Run
import NtfsKit.Volume.Adapters

/-! Check and format against the mounted engine. Both run as blocks of one serial queue; a block
asks once whether the engine has the device open and then writes through `FsckIO` for as long
as it takes. Opening the engine asks nothing of the queue. -/

namespace NtfsKit

/-- What was put on the maintenance queue. -/
inductive Task
  | check (checkOnly : Bool)
  | format
  deriving DecidableEq

/-- The block that the queue executes: before it has sampled `isEngineOpen`, or inside `nk_fsck`
or `nk_format`, with the device opened read-only or not. -/
inductive Block
  | begun (task : Task)
  | working (deviceReadOnly : Bool)
  deriving DecidableEq

/-- A volume with the maintenance of its resource. `vol` says whether the engine handle is
open. -/
structure Maintained where
  vol : Bool
  readOnly : Bool
  queue : List Task
  running : Option Block
  device : Device

/-- The upcalls, and the steps of the running block. `rw` and `ro` say whether the engine mounts
the device for writing, and read-only. -/
inductive Step
  | startCheck (checkOnly : Bool)
  | startFormat
  | dequeue
  | sample
  | pwrite (memory : ℕ → UInt8) (buf : ℤ → UInt8) (count offset : ℤ)
  | finish
  | activate (rw ro : Bool)
  | mount (rw ro : Bool)
  | unmount
  | deactivate

/-- What became of a device write. -/
inductive WriteReply
  | nothing
  | refused
  | reached (n : Except Fault ℤ)

namespace Maintained

/-- `openEngine`: a volume that cannot be mounted for writing falls back to read-only. -/
def openEngine (rw ro : Bool) (s : Maintained) : Maintained :=
  if s.vol then s
  else if rw then { s with vol := true }
  else if !s.readOnly && ro then { s with vol := true, readOnly := true }
  else s

/-- `closeEngine`. -/
def closeEngine (s : Maintained) : Maintained := { s with vol := false }

/-- What a block does after it has sampled the engine: a check repairs only a writable device
that is not open, a format gives up. -/
def afterSample (isWritable engineOpen : Bool) : Task → Option Block
  | .check checkOnly =>
    let repair := !checkOnly && isWritable && !engineOpen
    some (.working !repair)
  | .format => if !isWritable then none else if engineOpen then none else some (.working false)

/-- `nkdev_pwrite` of the running block. -/
def nkdevPwrite (d : BlockDevice) (memory : ℕ → UInt8) (buf : ℤ → UInt8) (count offset : ℤ)
    (s : Maintained) : WriteReply × Maintained :=
  match s.running with
  | some (.working true) => (.refused, s)
  | some (.working false) =>
    let r := (BlockDevice.Fsck.adapter d).pwrite memory buf count offset s.device
    (.reached r.1, { s with device := r.2 })
  | _ => (.nothing, s)

def step (d : BlockDevice) (isWritable : Bool) (s : Maintained) : Step → WriteReply × Maintained
  | .startCheck checkOnly => (.nothing, { s with queue := s.queue ++ [.check checkOnly] })
  | .startFormat => (.nothing, { s with queue := s.queue ++ [.format] })
  | .dequeue =>
    match s.running, s.queue with
    | none, t :: ts => (.nothing, { s with queue := ts, running := some (.begun t) })
    | _, _ => (.nothing, s)
  | .sample =>
    match s.running with
    | some (.begun t) => (.nothing, { s with running := afterSample isWritable s.vol t })
    | _ => (.nothing, s)
  | .pwrite memory buf count offset => s.nkdevPwrite d memory buf count offset
  | .finish =>
    match s.running with
    | some (.working _) => (.nothing, { s with running := none })
    | _ => (.nothing, s)
  | .activate rw ro => (.nothing, s.openEngine rw ro)
  | .mount rw ro => (.nothing, s.openEngine rw ro)
  | .unmount => (.nothing, s.closeEngine)
  | .deactivate => (.nothing, s.closeEngine)

/-- The running block has found the engine closed and may write. -/
def Writing (s : Maintained) : Prop := s.running = some (.working false)

instance (s : Maintained) : Decidable s.Writing :=
  inferInstanceAs (Decidable (s.running = some (.working false)))

/-- No write of the running block reaches the device while the engine has it open. -/
def Excluded (d : BlockDevice) (s : Maintained) : Prop :=
  s.vol = true → ∀ memory buf count offset,
    (∀ n, (s.nkdevPwrite d memory buf count offset).1 ≠ .reached n) ∧
      (s.nkdevPwrite d memory buf count offset).2.device = s.device

/-- The engine is not opened under a block that may write. -/
def NotUnder (s : Maintained) : Step → WriteReply → Prop
  | .activate rw ro, _ => s.Writing → (s.openEngine rw ro).vol = false
  | .mount rw ro, _ => s.Writing → (s.openEngine rw ro).vol = false
  | _, _ => True

instance (s : Maintained) : ∀ (e : Step) (r : WriteReply), Decidable (NotUnder s e r)
  | .activate rw ro, _ =>
    inferInstanceAs (Decidable (s.Writing → (s.openEngine rw ro).vol = false))
  | .mount rw ro, _ => inferInstanceAs (Decidable (s.Writing → (s.openEngine rw ro).vol = false))
  | .startCheck _, _ => inferInstanceAs (Decidable True)
  | .startFormat, _ => inferInstanceAs (Decidable True)
  | .dequeue, _ => inferInstanceAs (Decidable True)
  | .sample, _ => inferInstanceAs (Decidable True)
  | .pwrite _ _ _ _, _ => inferInstanceAs (Decidable True)
  | .finish, _ => inferInstanceAs (Decidable True)
  | .unmount, _ => inferInstanceAs (Decidable True)
  | .deactivate, _ => inferInstanceAs (Decidable True)

variable {d : BlockDevice} {isWritable : Bool} {s : Maintained}

/-! ### Exclusion -/

/-- A write that reaches the device is one of a block that may write. -/
theorem excluded_iff : s.Excluded d ↔ (s.Writing → s.vol = false) := by
  constructor
  · intro h hw
    cases hv : s.vol with
    | false => rfl
    | true =>
      refine absurd ?_ ((h hv (fun _ => 0) (fun _ => 0) 0 0).1
        ((BlockDevice.Fsck.adapter d).pwrite (fun _ => 0) (fun _ => 0) 0 0 s.device).1)
      simp only [nkdevPwrite, show s.running = some (.working false) from hw]
  · intro h hv memory buf count offset
    have hnw : ¬ s.Writing := fun hw => by simp [h hw] at hv
    unfold nkdevPwrite
    rcases hrun : s.running with - | (t | b)
    · exact ⟨fun n => nofun, rfl⟩
    · exact ⟨fun n => nofun, rfl⟩
    · cases b with
      | true => exact ⟨fun n => nofun, rfl⟩
      | false => exact absurd hrun hnw

/-- A block gets to write only if it found the engine closed. -/
theorem afterSample_working {engineOpen : Bool} {t : Task}
    (h : afterSample isWritable engineOpen t = some (.working false)) : engineOpen = false := by
  cases t with
  | check checkOnly =>
    simp only [afterSample, Option.some.injEq, Block.working.injEq, Bool.not_eq_false',
      Bool.and_eq_true, Bool.not_eq_true'] at h
    exact h.2
  | format =>
    simp only [afterSample] at h
    split_ifs at h with h1 h2
    simpa using h2

theorem openEngine_running (rw ro : Bool) : (s.openEngine rw ro).running = s.running := by
  unfold openEngine
  split_ifs <;> rfl

/-- The invariant along one step. -/
theorem writing_step {e : Step} (hs : s.Writing → s.vol = false)
    (he : NotUnder s e (s.step d isWritable e).1) :
    (s.step d isWritable e).2.Writing → (s.step d isWritable e).2.vol = false := by
  cases e with
  | startCheck checkOnly => exact hs
  | startFormat => exact hs
  | dequeue =>
    simp only [step]
    split
    · intro hw
      simp [Writing] at hw
    · exact hs
  | sample =>
    simp only [step]
    split
    · exact afterSample_working
    · exact hs
  | pwrite memory buf count offset =>
    simp only [step, nkdevPwrite]
    split
    · exact hs
    · exact hs
    · exact hs
  | finish =>
    simp only [step]
    split
    · intro hw
      simp [Writing] at hw
    · exact hs
  | activate rw ro => exact fun hw => he ((openEngine_running rw ro).symm.trans hw)
  | mount rw ro => exact fun hw => he ((openEngine_running rw ro).symm.trans hw)
  | unmount => exact fun _ => rfl
  | deactivate => exact fun _ => rfl

/-- As long as the engine is not opened under a block that may write, maintenance and the open
engine exclude each other; a step that opens it there breaks this at once. -/
theorem maintenance_excludes_engine {s₀ : Maintained} (h₀ : s₀.running = none)
    (hr : Run (step d isWritable) NotUnder s₀ s) :
    s.Excluded d ∧ ∀ e, ¬ NotUnder s e (s.step d isWritable e).1 →
      ¬ (s.step d isWritable e).2.Excluded d := by
  have hstep : ∀ (t : Maintained) (e : Step), (t.Writing → t.vol = false) →
      NotUnder t e (t.step d isWritable e).1 →
      ((t.step d isWritable e).2.Writing → (t.step d isWritable e).2.vol = false) :=
    fun t e ht he => writing_step ht he
  have hinv : s.Writing → s.vol = false :=
    hr.invariant hstep fun hw => by simp [Writing, h₀] at hw
  refine ⟨excluded_iff.mpr hinv, fun e he hex => ?_⟩
  have hopen : ∀ rw ro, ¬ (s.Writing → (s.openEngine rw ro).vol = false) →
      ¬ (s.openEngine rw ro).Excluded d := fun rw ro hn hx => by
    obtain ⟨hw, hv⟩ := Classical.not_imp.mp hn
    exact hv (excluded_iff.mp hx ((openEngine_running rw ro).trans hw))
  cases e with
  | activate rw ro => exact hopen rw ro he hex
  | mount rw ro => exact hopen rw ro he hex
  | startCheck _ => exact he trivial
  | startFormat => exact he trivial
  | dequeue => exact he trivial
  | sample => exact he trivial
  | pwrite _ _ _ _ => exact he trivial
  | finish => exact he trivial
  | unmount => exact he trivial
  | deactivate => exact he trivial

/-- A device of two blocks. -/
def smallDevice : BlockDevice := .opened 512 2 BlockDevice.sector_pos none

/-- An idle volume that is not mounted. -/
def idle : Maintained := ⟨false, false, [], none, .cold fun _ => 0⟩

/-- The run of some steps on a writable device of two blocks. -/
def after (es : List Step) : Maintained := execAll (step smallDevice true) es idle

/-- A format that has finished when the volume is activated. -/
theorem maintenance_excludes_engine_formatted :
    (after [.startFormat, .dequeue, .sample, .pwrite (fun _ => 0) (fun _ => 7) 512 0, .finish,
      .activate true true]).vol = true ∧
    (after [.startFormat, .dequeue, .sample, .pwrite (fun _ => 0) (fun _ => 7) 512 0, .finish,
      .activate true true]).Excluded smallDevice := by
  have hrun : Run (step smallDevice true) NotUnder idle (after [.startFormat, .dequeue, .sample,
      .pwrite (fun _ => 0) (fun _ => 7) 512 0, .finish, .activate true true]) :=
    Run.of_execAll (by decide +kernel)
  exact ⟨by decide +kernel, (maintenance_excludes_engine rfl hrun).1⟩

/-- A repair that has sampled the closed engine when the volume is activated: its next write
reaches the device under the open engine. -/
theorem activation_under_repair :
    (after [.startCheck false, .dequeue, .sample, .activate true true]).vol = true ∧
    ¬ (after [.startCheck false, .dequeue, .sample, .activate true true]).Excluded smallDevice ∧
    ((after [.startCheck false, .dequeue, .sample, .activate true true]).nkdevPwrite smallDevice
      (fun _ => 0) (fun _ => 7) 512 0).2.device.disk 0 = 7 := by
  refine ⟨by decide +kernel, fun h => ?_, by decide +kernel⟩
  have hv := excluded_iff.mp h (by decide +kernel)
  revert hv
  decide +kernel

end Maintained

end NtfsKit
