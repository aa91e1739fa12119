import NtfsKit.Volume.Verifiers

/-! A directory has one path, in every state that is reached by calls that leave no trace when
they fail: each node of the tree after a call was a node before it, moved or not, or has a new
inode. -/

namespace NtfsKit

open PathTree

variable {T : PathText} {s : Namespace} {t u w : Tree} {d : ℕ} {P Q : Path}

/-! ### Where nodes go -/

/-- The path of a node once the subtree at `old` is at `new`. -/
def relocate (old new Q : Path) : Path := if old <+: Q then new ++ Q.drop old.length else Q

/-- Every node was in the tree before, and `f` says where it is now. -/
def Traces (f : Path → Path) (t u : Tree) : Prop :=
  ∀ Q i, node u Q = some i → ∃ Q₀, node t Q₀ = some i ∧ Q = f Q₀

theorem Traces.comp {f g : Path → Path} (h : Traces f t u) (h' : Traces g u w) :
    Traces (g ∘ f) t w := by
  intro Q i hQ
  obtain ⟨Q₁, h₁, rfl⟩ := h' Q i hQ
  obtain ⟨Q₀, h₀, rfl⟩ := h Q₁ i h₁
  exact ⟨Q₀, h₀, rfl⟩

theorem traces_id (h : ∀ Q i, node u Q = some i → node t Q = some i) : Traces id t u :=
  fun Q i hQ => ⟨Q, h Q i hQ, rfl⟩

theorem traces_move (hc : t.Closed) {old new : Path} (hfree : node t new = none) :
    Traces (relocate old new) t (move old new t) := by
  intro Q i hQ
  have hout : ¬ old <+: Q := by
    intro hp
    rw [node_move_old hp] at hQ
    cases hQ
  by_cases hnew : new <+: Q
  · obtain ⟨rest, rfl⟩ := hnew
    rw [node_move_new hout (hc.none_below hfree rest)] at hQ
    refine ⟨old ++ rest, hQ, ?_⟩
    rw [relocate, if_pos (List.prefix_append _ _), List.drop_left]
  · rw [node_move_of_not hout hnew] at hQ
    exact ⟨Q, hQ, by rw [relocate, if_neg hout]⟩

theorem traces_nkDelete (ok : Bool) (path : Path) (t : Tree) :
    Traces id t (nkDelete ok path t).2 := by
  refine traces_id fun Q i hQ => ?_
  rcases nkDelete_cases ok path t with h | ⟨h, -⟩
  · rwa [h] at hQ
  · rw [h, node_unlink] at hQ
    split_ifs at hQ
    exact hQ

theorem traces_nkRename (hc : t.Closed) {ok : RenameSteps} {old dir : Path} {name : Name}
    (hok : (nkRename ok old dir name t).1 = true) :
    ∃ f, Traces f t (nkRename ok old dir name t).2 := by
  obtain ⟨x, e, -, -, -, ⟨-, hsame⟩ | ⟨hfree, hmove⟩⟩ := nkRename_ok hok
  · exact ⟨id, by rw [hsame]; exact traces_id fun _ _ h => h⟩
  · exact ⟨_, by rw [hmove]; exact traces_move hc hfree⟩

namespace Canonical

theorem Relocated.traces {r : Rename} (hc : t.Closed) (h : Relocated r t u) : ∃ f, Traces f t u := by
  cases h with
  | plain _ hok => exact traces_nkRename hc hok
  | replace _ _ hfree _ hclosed hok =>
    obtain ⟨f, hf⟩ := traces_nkRename hclosed hok
    exact ⟨_, ((traces_move hc hfree).comp hf).comp (traces_nkDelete _ _ _)⟩

/-! ### One path for a directory -/

/-- A directory has one path, and the inodes in use are below the next one. -/
structure Housed (s : Namespace) : Prop where
  kempt : Kempt s
  single : ∀ p q i j, node s.tree p = some i → node s.tree q = some j → i.number = j.number →
    i.kind = .directory → p = q
  bound : ∀ Q i, node s.tree Q = some i → i.number < s.nextInode

theorem Housed.of_traces {s' : Namespace} {f : Path → Path} (h : Housed s) (hk : Kempt s')
    (hn : s.nextInode ≤ s'.nextInode) (hf : Traces f s.tree s'.tree) : Housed s' := by
  refine ⟨hk, fun p q i j hp hq hnum hkind => ?_, fun Q i hQ => ?_⟩
  · obtain ⟨p₀, hp₀, rfl⟩ := hf p i hp
    obtain ⟨q₀, hq₀, rfl⟩ := hf q j hq
    rw [h.single _ _ _ _ hp₀ hq₀ hnum hkind]
  · obtain ⟨Q₀, h₀, -⟩ := hf Q i hQ
    exact (h.bound Q₀ i h₀).trans_le hn

/-- A new node has a new inode. -/
theorem Housed.grow {s' : Namespace} {path : Path} {kind : Kind} (h : Housed s) (hk : Kempt s')
    (hn : s'.nextInode = s.nextInode + 1) (ht : s'.tree = (path, ⟨s.nextInode, kind⟩) :: s.tree) :
    Housed s' := by
  have hcase : ∀ {Q i}, node s'.tree Q = some i →
      (Q = path ∧ i = ⟨s.nextInode, kind⟩) ∨ node s.tree Q = some i := by
    intro Q i hQ
    rw [ht, node_cons] at hQ
    split_ifs at hQ with heq
    · exact .inl ⟨heq.symm, (Option.some.inj hQ).symm⟩
    · exact .inr hQ
  refine ⟨hk, fun p q i j hp hq hnum hkind => ?_, fun Q i hQ => ?_⟩
  · rcases hcase hp with ⟨rfl, rfl⟩ | hp <;> rcases hcase hq with ⟨rfl, rfl⟩ | hq
    · rfl
    · exact absurd hnum.symm (h.bound q j hq).ne
    · exact absurd hnum (h.bound p i hp).ne
    · exact h.single _ _ _ _ hp hq hnum hkind
  · rw [hn]
    rcases hcase hQ with ⟨-, rfl⟩ | hQ
    · exact Nat.lt_succ_self _
    · exact Nat.lt_succ_of_lt (h.bound Q i hQ)

variable (T) in
/-- What `create` does to the tree. -/
theorem create_cases (dir : ℕ) (name : Name) (kind : Kind) (made closed : Bool) (s : Namespace) :
    ((s.create T dir name kind made closed).2.tree = s.tree ∨
      (s.create T dir name kind made closed).2.tree =
        (s.pathOf dir ++ [name], ⟨s.nextInode, kind⟩) :: s.tree ∧
      (s.create T dir name kind made closed).2.nextInode = s.nextInode + 1) ∧
    s.nextInode ≤ (s.create T dir name kind made closed).2.nextInode := by
  unfold Namespace.create
  split_ifs with hro
  · exact ⟨.inl rfl, le_rfl⟩
  extract_lets dirPath calls c t childPath r
  have htree : t.tree = s.tree ∨ t.tree = (childPath, ⟨s.nextInode, kind⟩) :: s.tree := by
    rcases createNode_cases made closed dirPath name ⟨s.nextInode, kind⟩ s.tree
      with hcase | ⟨hcase, -⟩
    · exact .inl (congrArg Prod.snd hcase)
    · exact .inr (congrArg Prod.snd hcase)
  have hnext : t.nextInode = s.nextInode + 1 := rfl
  split_ifs with hfail
  · rcases htree with h | h
    · exact ⟨.inl h, Nat.le_succ _⟩
    · exact ⟨.inr ⟨h, hnext⟩, Nat.le_succ _⟩
  · have h1 : r.2.tree = t.tree :=
      (Namespace.itemFor_tree T _ _ _ _).trans (Namespace.mutateNamespace_tree T _ t)
    have h2 : r.2.nextInode = s.nextInode + 1 :=
      (Namespace.itemFor_nextInode T _ _ _ _).trans (Namespace.mutateNamespace_nextInode T _ t)
    rcases htree with h | h
    · exact ⟨.inl (h1.trans h), h2 ▸ Nat.le_succ _⟩
    · exact ⟨.inr ⟨h1.trans h, h2⟩, h2 ▸ Nat.le_succ _⟩

theorem Housed.create (h : Housed s) (dir : ℕ) (name : Name) (kind : Kind) (made closed : Bool) :
    Housed (s.create T dir name kind made closed).2 := by
  have hk : Kempt (s.create T dir name kind made closed).2 :=
    h.kempt.create dir name kind made closed
  obtain ⟨htree | ⟨htree, hnext⟩, hle⟩ := create_cases T dir name kind made closed s
  · exact h.of_traces hk hle (traces_id fun Q i hQ => htree ▸ hQ)
  · exact h.grow hk hnext htree

variable (T) in
theorem removeItem_traces (x : ℕ) (ok : Bool) (s : Namespace) :
    Traces id s.tree (s.removeItem T x ok).2.tree ∧
      (s.removeItem T x ok).2.nextInode = s.nextInode := by
  unfold Namespace.removeItem
  split_ifs
  · exact ⟨traces_id fun _ _ hQ => hQ, rfl⟩
  extract_lets path calls r t
  split_ifs
  · exact ⟨traces_nkDelete ok path s.tree, rfl⟩
  · refine ⟨?_, Namespace.mutateNamespace_nextInode T _ _⟩
    change Traces id s.tree t.tree
    rw [show t.tree = r.2 from Namespace.mutateNamespace_tree T _ _]
    exact traces_nkDelete ok path s.tree

/-- Calls that leave no trace when they fail keep it so. -/
theorem Housed.step (h : Housed s) {e : NameCall} (hoffer : s.Offered e) (hclean : e.Clean) :
    Housed (s.nameStep T e).2 := by
  have hk : Kempt (s.nameStep T e).2 := h.kempt.step e
  have hsame : ∀ {s' : Namespace}, Kempt s' → s'.nextInode = s.nextInode →
      (∀ Q, node s'.tree Q = node s.tree Q) → Housed s' := fun hk hn ht =>
    h.of_traces hk hn.ge (traces_id fun Q i hQ => ht Q ▸ hQ)
  cases e with
  | lookupItem dir name =>
    refine hsame hk ?_ fun Q => ?_
    all_goals
      simp only [Namespace.nameStep, Namespace.lookupItem, Prod.map_snd, id_eq]
      cases treeEngine.stat s.tree (s.pathOf dir ++ [name]) <;> simp
  | createItem dir name kind made closed =>
    simp only [Namespace.nameStep, Namespace.createItem, Prod.map_snd, id_eq]
    split_ifs
    · exact h
    · exact h.create dir name kind made closed
  | createSymbolicLink dir name made => exact h.create dir name .symlink made true
  | removeItem x ok =>
    obtain ⟨ht, hn⟩ := removeItem_traces T x ok s
    exact h.of_traces hk hn.ge ht
  | reclaimItem x =>
    refine hsame hk ?_ fun Q => ?_
    all_goals
      simp only [Namespace.nameStep, Namespace.reclaimItem, Prod.map_snd, id_eq]
      split_ifs <;> rfl
  | renameItem a =>
    rcases renameCall_cases T h.kempt.idle h.kempt.closed hoffer hclean
      with ⟨u, hu, heq⟩ | ⟨u, hrel, -, heq⟩
    · refine hsame hk ?_ fun Q => ?_
      · rw [show (s.nameStep T (.renameItem a)).2 = _ from heq]
      · rw [show (s.nameStep T (.renameItem a)).2 = _ from heq]
        exact hu Q
    · obtain ⟨f, hf⟩ := hrel.traces h.kempt.closed
      refine h.of_traces (f := f) hk ?_ ?_
      · rw [show (s.nameStep T (.renameItem a)).2 = _ from heq, rekey_nextInode]
      · rw [show (s.nameStep T (.renameItem a)).2 = _ from heq, rekey_tree]
        exact hf
  | seed path => refine hsame hk ?_ fun Q => ?_ <;> simp [Namespace.nameStep]

theorem Housed.listed {s' : Namespace} (h : Housed s) (hl : Listed s s') : Housed s' :=
  h.of_traces (h.kempt.congr (hl.tree ▸ h.kempt.closed) hl.dirGen hl.genCounter hl.pending)
    hl.nextInode.ge
    (traces_id fun _ _ hQ => hl.tree ▸ hQ)

theorem mounted_housed (readOnly : Bool) {b root : ℕ} (ht : t.Wf b) :
    Housed (.mounted readOnly t b root) := by
  refine ⟨mounted_kempt readOnly ht.closed b root, fun p q i j hp hq hnum hkind => ?_, ht.bound⟩
  by_contra hne
  exact (ht.single p q i j hp hq hnum hne).2 hkind

/-- A directory has one path in every state that such calls reach. -/
theorem reached_housed {collate : Name → Name → Bool} {readOnly : Bool} {b root : ℕ} (ht : t.Wf b)
    {s' : Namespace} (hrun : Run (dirStep T collate) (fun s e _ => Offers s e)
      (.mounted readOnly t b root) s') : Housed s' := by
  have hstep : ∀ (s : Namespace) (e : DirCall), Housed s → Offers s e →
      Housed (dirStep T collate s e).2 := by
    intro s e h hok
    cases e with
    | names e => exact h.step hok.1 hok.2
    | enumerate c => exact h.listed (enumerateDirectory_listed T collate c s)
  exact Run.invariant hstep hrun (mounted_housed readOnly ht)

end Canonical

end NtfsKit
