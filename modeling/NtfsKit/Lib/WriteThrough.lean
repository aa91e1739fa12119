import Mathlib.Tactic

/-! A store with a write-through cache. Addresses are grouped into blocks, and a block
is cached whole: loading it copies it from the store, storing it changes both. A
direct write changes the store alone, behind the cache. The cache is coherent while
every cached copy is what the store holds; a direct write keeps it so where nothing
is cached. -/

namespace NtfsKit

/-- The store, the copies, and which blocks are cached. -/
structure WriteThrough (A B V : Type) where
  disk : A → V
  copy : A → V
  cached : B → Bool

namespace WriteThrough

variable {A B V : Type} (block : A → B)

/-- A store of which nothing is cached. -/
def cold (disk : A → V) : WriteThrough A B V := ⟨disk, disk, fun _ => false⟩

/-- Drop the blocks of `p`. -/
def purge (p : B → Bool) (s : WriteThrough A B V) : WriteThrough A B V :=
  { s with cached := fun b => s.cached b && !p b }

/-- Change the store behind the cache. -/
def poke (disk : A → V) (s : WriteThrough A B V) : WriteThrough A B V := { s with disk := disk }

/-- Every cached copy is what the store holds. -/
def Coherent (s : WriteThrough A B V) : Prop := ∀ a, s.cached (block a) = true → s.copy a = s.disk a

variable {block} {b c : B} {s : WriteThrough A B V}

@[simp] theorem purge_cached {p : B → Bool} : (s.purge p).cached c = (s.cached c && !p c) := rfl

theorem coherent_cold (disk : A → V) : (cold disk : WriteThrough A B V).Coherent block := by
  intro a h
  simp [cold] at h

theorem Coherent.purge (h : s.Coherent block) (p : B → Bool) : (s.purge p).Coherent block := by
  intro a ha
  simp only [purge_cached, Bool.and_eq_true] at ha
  exact h a ha.1

/-- A direct write to blocks that are not cached. -/
theorem Coherent.poke (h : s.Coherent block) {disk : A → V}
    (hd : ∀ a, disk a ≠ s.disk a → s.cached (block a) = false) :
    (s.poke disk).Coherent block := by
  intro a ha
  have hsame : disk a = s.disk a := by
    by_contra hne
    have hf := hd a hne
    rw [show s.cached (block a) = true from ha] at hf
    cases hf
  exact (h a ha).trans hsame.symm

section Blocks

variable [DecidableEq B]

/-- Bring block `b` into the cache unless it is there. -/
def load (block : A → B) (b : B) (s : WriteThrough A B V) : WriteThrough A B V :=
  if s.cached b then s else
    { s with
      copy := fun a => if block a = b then s.disk a else s.copy a
      cached := fun c => c = b || s.cached c }

/-- Write block `b` through the cache. -/
def store (block : A → B) (b : B) (data : A → V) (s : WriteThrough A B V) :
    WriteThrough A B V where
  disk a := if block a = b then data a else s.disk a
  copy a := if block a = b then data a else s.copy a
  cached c := c = b || s.cached c

@[simp] theorem load_disk : (s.load block b).disk = s.disk := by
  unfold load
  split_ifs <;> rfl

@[simp] theorem load_cached : (s.load block b).cached c = (decide (c = b) || s.cached c) := by
  unfold load
  split_ifs with h
  · by_cases hc : c = b <;> simp [hc, h]
  · rfl

@[simp] theorem store_cached {data : A → V} :
    (s.store block b data).cached c = (decide (c = b) || s.cached c) := rfl

/-- A loaded block holds the bytes of the store. -/
theorem Coherent.load_copy (h : s.Coherent block) {a : A} (ha : block a = b) :
    (s.load block b).copy a = s.disk a := by
  unfold load
  split_ifs with hb
  · exact h a (ha ▸ hb)
  · simp [ha]

theorem Coherent.load (h : s.Coherent block) (b : B) : (s.load block b).Coherent block := by
  intro a ha
  by_cases hb : block a = b
  · rw [h.load_copy hb, load_disk]
  · have hca : s.cached (block a) = true := by simpa [hb] using ha
    unfold WriteThrough.load
    split_ifs
    · exact h a hca
    · simp [hb, h a hca]

theorem Coherent.store (h : s.Coherent block) (b : B) (data : A → V) :
    (s.store block b data).Coherent block := by
  intro a ha
  simp only [WriteThrough.store]
  split_ifs with hb
  · rfl
  · exact h a (by simpa [hb] using ha)

end Blocks

end WriteThrough

end NtfsKit
