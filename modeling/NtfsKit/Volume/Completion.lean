import NtfsKit.Volume.Aliasing
import NtfsKit.System.Failures

/-! Write completions against renames. `completeIO` resolves the item's path in an engine
hold of its own; while `renameItem` has moved the file and not yet rewritten the path, it
finds nothing there, and a completion for the victim of a rename misses the file from the
time it is parked. Outside these gaps the completion reaches the file and covers what was
written, as long as the rename rewrites the path of every item below it. -/

namespace NtfsKit

open PathTree

variable {σ : Type}

/-- `completeIO`, on the files the engine keeps by inode; `write` is whether the flags have
`.write`, `failed` whether the kernel's write failed. -/
def completeIo (L : Libntfs σ) (v : NkVolume) (s : Namespace) (x : ℕ) (offset length : ℤ)
    (write failed : Bool) (files : ℕ → NkFile σ) : Except Errno Unit × (ℕ → NkFile σ) :=
  if write = false then (.ok (), files)
  else match s.tree.inodeAt (s.pathOf x) with
    | none => (if failed then .ok () else .error .engine, files)
    | some i =>
      let r := if failed then nkAbortWrite L v offset length (files i)
        else nkCompleteWrite L v offset length (files i)
      (if failed ∨ r.1 = 0 then .ok () else .error .engine, Function.update files i r.2)

/-- The completion of a successful write reaches the file with inode `i` and, when the
engine's call succeeds, covers what is left of the written range. -/
structure Completes (L : Libntfs σ) (v : NkVolume) (s : Namespace) (x : ℕ) (offset length : ℤ)
    (files : ℕ → NkFile σ) (i : ℕ) : Prop where
  resolves : s.tree.inodeAt (s.pathOf x) = some i
  result : (completeIo L v s x offset length true false files).1 = .ok () ↔
    (nkCompleteWrite L v offset length (files i)).1 = 0
  covers : (completeIo L v s x offset length true false files).1 = .ok () →
    offset < (files i).na.dataSize → min (offset + length) (files i).na.dataSize ≤
      ((completeIo L v s x offset length true false files).2 i).na.recInitializedSize

/-- The engine has moved the item's file, by itself or below a directory, or has parked it,
and the item still has the old path. -/
def Namespace.InGap (s : Namespace) (x : ℕ) : Prop :=
  ∃ r ∈ s.pending,
    (r.phase ∈ [.point, .drop, .rekey] ∧ r.oldPath <+: s.pathOf x ∧
      s.tree.inodeAt r.oldPath ≠ s.tree.inodeAt r.newPath) ∨
    (r.phase ∈ [.move, .rollback, .point] ∧ ∃ o ∈ r.overItem, o.item = x)

instance (s : Namespace) (x : ℕ) : Decidable (s.InGap x) :=
  inferInstanceAs (Decidable (∃ r ∈ s.pending,
    (r.phase ∈ [.point, .drop, .rekey] ∧ r.oldPath <+: s.pathOf x ∧
      s.tree.inodeAt r.oldPath ≠ s.tree.inodeAt r.newPath) ∨
    (r.phase ∈ [.move, .rollback, .point] ∧ ∃ o ∈ r.overItem, o.item = x)))

/-- A path that resolves to the file is enough. -/
theorem completes_of_resolves {L : Libntfs σ} {v : NkVolume} (hL : L.Spec v.vol)
    (hc : 0 < v.vol.clusterSize) {s : Namespace} {x i : ℕ} {files : ℕ → NkFile σ}
    (hf : (files i).Sound v.vol) (hr : s.tree.inodeAt (s.pathOf x) = some i) (offset length : ℤ) :
    Completes L v s x offset length files i := by
  have hio : completeIo L v s x offset length true false files =
      (if (nkCompleteWrite L v offset length (files i)).1 = 0 then .ok () else .error .engine,
        Function.update files i (nkCompleteWrite L v offset length (files i)).2) := by
    simp [completeIo, hr]
  have hres : (completeIo L v s x offset length true false files).1 = .ok () ↔
      (nkCompleteWrite L v offset length (files i)).1 = 0 := by
    rw [hio]
    simp only
    split_ifs with h0
    · exact ⟨fun _ => h0, fun _ => rfl⟩
    · exact ⟨fun h => (nomatch h), fun h => absurd h h0⟩
  refine ⟨hr, hres, fun hok hlt => ?_⟩
  have hdone := (nkCompleteWrite_spec hL hc hf offset length).2.2 (hres.mp hok)
  have hinit := hdone.init
  rw [if_pos (show offset < ((files i).view v.vol).size from hlt)] at hinit
  rw [hio]
  simp only [Function.update_self]
  exact (le_max_right _ _).trans hinit.ge

namespace Namespace

variable {s : Namespace} {x : ℕ} {it : Item}

theorem Good.find_cached (h : s.Good) {p : Path} (hf : SwapTable.find s.itemByPath p = some x) :
    (p, x) ∈ s.itemByPath := by
  refine (SwapTable.find_eq_some ?_).mp hf
  cases hr : s.pending with
  | none => exact ((good_none hr).mp h).distinct
  | some r =>
    obtain ⟨t, items, hB, -⟩ := (good_some hr).mp h
    exact hB.idle.distinct

/-- A phase as `InGap` tells it. -/
theorem inGap_some {r : Rename} (hr : s.pending = some r) (hp : s.pathOf x = it.path) :
    s.InGap x ↔ (r.phase ∈ [.point, .drop, .rekey] ∧ r.oldPath <+: it.path ∧
      s.tree.inodeAt r.oldPath ≠ s.tree.inodeAt r.newPath) ∨
    (r.phase ∈ [.move, .rollback, .point] ∧ ∃ o ∈ r.overItem, o.item = x) := by
  rw [InGap, hr, hp]
  simp only [Option.mem_some_iff, exists_eq_left']

/-- The item cached for its path reaches its file exactly outside the gaps. -/
theorem Good.resolves_iff (h : s.Good) (hi : s.items[x]? = some it)
    (hcur : (it.path, x) ∈ s.itemByPath) :
    s.tree.inodeAt it.path = some it.inode ↔ ¬ s.InGap x := by
  have hp : s.pathOf x = it.path := by
    rw [pathOf, hi]
    rfl
  cases hr : s.pending with
  | none =>
    have hgap : ¬ s.InGap x := by
      rintro ⟨r, hr', -⟩
      rw [hr] at hr'
      cases hr'
    exact ⟨fun _ => hgap, fun _ => (((good_none hr).mp h).cached_at hcur hi).2.2⟩
  | some r =>
    obtain ⟨t, items, hB, hS⟩ := (good_some hr).mp h
    rw [inGap_some hr hp]
    have hearly : s.tree = r.parkedTree t → s.items = items → (s.tree.inodeAt it.path = some it.inode ↔
        ¬ ∃ o ∈ r.overItem, o.item = x) := by
      rintro htree rfl
      have hcached := (hB.idle.cached_at hcur hi).2.2
      constructor
      · rintro hn ⟨o, ho, rfl⟩
        have hnone := hB.node_parked_new ho []
        rw [List.append_nil] at hnone
        rw [(hB.idle.cached_at (hB.victim o ho).cached hi).1, htree,
          Tree.inodeAt_eq_none.mpr hnone] at hn
        cases hn
      · intro hno
        rw [htree, Tree.inodeAt_congr (hB.node_parked_cached hcur ?_), hcached]
        intro ho hnew
        obtain ⟨o, ho⟩ := Option.isSome_iff_exists.mp ho
        rw [hnew] at hcur
        exact hno ⟨o, ho, hB.idle.unique (hB.victim o ho).cached hcur⟩
    -- after the engine's rename, for any item but the victim
    have hlate : Carried t s.tree s.nextInode s.itemByPath r → items[x]? = some it →
        (∀ o, r.overItem = some o → x ≠ o.item) → (s.tree.inodeAt it.path = some it.inode ↔
          ¬ (r.oldPath <+: it.path ∧ s.tree.inodeAt r.oldPath ≠ s.tree.inodeAt r.newPath)) := by
      intro hcar hi hov
      rw [hcar.inodeAt_cached hB hcur hov]
      split_ifs with hgap
      · refine ⟨fun hn => ?_, fun hn => absurd hgap hn⟩
        cases hn
      · exact ⟨fun _ => hgap, fun _ => (hB.idle.cached_at hcur hi).2.2⟩
    -- the victim has left its path, so what is cached is another item
    have hrepointed : s.items = r.repointed items →
        items[x]? = some it ∧ ∀ o, r.overItem = some o → x ≠ o.item := by
      intro hitems
      rw [hitems] at hi
      obtain ⟨jt, hj, ⟨o, ho, rfl, rfl⟩ | ⟨hov, rfl⟩⟩ := repointed_lookup.mp hi
      · exact absurd (hB.victim o ho).fresh (hB.idle.node_cached hcur)
      · exact ⟨hj, hov⟩
    cases hphase : r.phase <;> simp only [Rename.Stage, hphase] at hS
    case park =>
      obtain ⟨rfl, rfl⟩ := hS
      simpa using (hB.idle.cached_at hcur hi).2.2
    case move => simpa using hearly hS.1 hS.2
    case rollback => simpa using hearly hS.1 hS.2.1
    case point =>
      obtain ⟨hcar, rfl, -⟩ := hS
      by_cases hvic : ∃ o ∈ r.overItem, o.item = x
      · refine iff_of_false (fun hn => ?_) (fun hno => hno (.inr ⟨by simp, hvic⟩))
        obtain ⟨o, ho, rfl⟩ := hvic
        have v := hB.victim o ho
        obtain ⟨hpath, -, hnew⟩ := hB.idle.cached_at v.cached hi
        have hmoved := hcar.moved [] (by rw [List.append_nil]; exact hcar.found)
        rw [List.append_nil, List.append_nil, ← hpath, hn] at hmoved
        exact v.differ (by rw [hnew, hmoved])
      · have hov : ∀ o, r.overItem = some o → x ≠ o.item := fun o ho hx => hvic ⟨o, ho, hx.symm⟩
        rw [hlate hcar hi hov, not_iff_not]
        constructor
        · exact fun hgap => .inl ⟨by simp, hgap⟩
        · rintro (⟨-, hgap⟩ | ⟨-, hx⟩)
          · exact hgap
          · exact absurd hx hvic
    case drop =>
      obtain ⟨hx, hov⟩ := hrepointed hS.2.1
      simpa using hlate hS.1 hx hov
    case rekey =>
      obtain ⟨hx, hov⟩ := hrepointed hS.2
      simpa using hlate hS.1 hx hov

end Namespace

/-- A file is created and renamed, for the first `n` steps of the rename. -/
def renamedAway (n : ℕ) : Namespace := fromEmpty .accented <|
  [.createItem 0 (.plain "a") .file true true, .renameItem 1 0 (.plain "b") none 7 true] ++
    (List.replicate 2 (.advance ⟨true, true, true⟩)).take n

/-- The kernel's write has landed in a window of the file. -/
def landedFiles : ℕ → NkFile Unit := fun _ => landedWindow.file

theorem landedFiles_sound (i : ℕ) : (landedFiles i).Sound smallVolume.vol := by
  have hrun : Run (Sys.step (fullDisk 512 0) smallVolume) Rule ⟨staleFile 1 512 0, [], []⟩
      landedWindow := Run.of_execAll (by decide +kernel)
  have hf := staleFile_sound (show (0 : ℤ) < 1 by decide) (le_refl 0) (show (0 : ℤ) ≤ 512 by decide)
  exact ((Sys.Good.fresh hf).run smallSpec (by decide) hrun).placed.sound

end NtfsKit
