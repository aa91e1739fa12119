import NtfsKit.Volume.TreeSpec
import NtfsKit.Lib.Lookup

/-! What holds of the volume's items while no rename is under way. Every path in the cache
resolves to the inode its item was handed out for, and every item in use is in the cache
under its own path, or parked: its path then ends in a name drawn for its inode. Lookup,
create, remove and reclaim keep this. -/

namespace NtfsKit

open PathTree

/-- The item's path ends in the name its inode was parked under. -/
def Item.Parked (it : Item) : Prop := ∃ d u, it.path = d ++ [.nkOver u it.inode]

/-- The item's path resolves to its own file or to nothing. -/
def Item.Own (it : Item) (t : Tree) : Prop :=
  t.inodeAt it.path = none ∨ t.inodeAt it.path = some it.inode

theorem Item.Parked.own {it : Item} (h : it.Parked) {t : Tree} {b : ℕ} (hw : t.Wf b) : it.Own t := by
  obtain ⟨d, u, hp⟩ := h
  exact hw.parkedAt hp

/-- The items and their cache agree with the tree. -/
structure Idle (t : Tree) (b : ℕ) (items : List Item) (byPath : List (Path × ℕ)) : Prop where
  wf : t.Wf b
  distinct : SwapTable.Distinct byPath
  cached : ∀ p c, (p, c) ∈ byPath → ∃ it, items[c]? = some it ∧ it.path = p ∧ it.gone = false ∧
    t.inodeAt p = some it.inode
  kept : ∀ (c : ℕ) (it : Item), items[c]? = some it → it.gone = false →
    (it.path, c) ∈ byPath ∨ it.Parked
  kind : ∀ (c : ℕ) (it : Item) (p : Path) (i : Inode), items[c]? = some it → node t p = some i →
    i.number = it.inode → i.kind = it.kind
  bound : ∀ (c : ℕ) (it : Item), items[c]? = some it → it.inode < b

namespace Idle

variable {t : Tree} {b : ℕ} {items : List Item} {byPath : List (Path × ℕ)}

theorem cached_at (h : Idle t b items byPath) {p : Path} {c : ℕ} (hc : (p, c) ∈ byPath) {it : Item}
    (hi : items[c]? = some it) : it.path = p ∧ it.gone = false ∧ t.inodeAt p = some it.inode := by
  obtain ⟨it', hi', hrest⟩ := h.cached p c hc
  rw [hi] at hi'
  obtain rfl := Option.some.inj hi'
  exact hrest

/-- The cache has one item for a path. -/
theorem unique (h : Idle t b items byPath) {p : Path} {c d : ℕ} (hc : (p, c) ∈ byPath)
    (hd : (p, d) ∈ byPath) : c = d := by
  rw [← SwapTable.find_eq_some h.distinct] at hc hd
  exact Option.some.inj (hc.symm.trans hd)

theorem node_cached (h : Idle t b items byPath) {p : Path} {c : ℕ} (hc : (p, c) ∈ byPath) :
    node t p ≠ none := by
  obtain ⟨it, -, -, -, hn⟩ := h.cached p c hc
  intro hnone
  rw [Tree.inodeAt_eq_none.mpr hnone] at hn
  cases hn

/-- An item in use reaches its own file or nothing. -/
theorem own (h : Idle t b items byPath) {c : ℕ} {it : Item} (hi : items[c]? = some it)
    (hg : it.gone = false) : it.Own t := by
  rcases h.kept c it hi hg with hc | hp
  · exact .inr (h.cached_at hc hi).2.2
  · exact hp.own h.wf

/-- A second item in use at a cached path leaves both parked there. -/
theorem twin (h : Idle t b items byPath) {p : Path} {c d : ℕ} {it jt : Item}
    (hc : items[c]? = some it) (hg : it.gone = false) (hp : it.path = p) (hd : (p, d) ∈ byPath)
    (hj : items[d]? = some jt) (hne : d ≠ c) : jt.Parked := by
  rcases h.kept c it hc hg with hk | ⟨q, u, hq⟩
  · rw [hp] at hk
    exact absurd (h.unique hd hk) hne
  · obtain ⟨hjp, -, hjn⟩ := h.cached_at hd hj
    rw [hp] at hq
    have heq : jt.inode = it.inode := by
      rcases h.wf.parkedAt hq with hn | hn
      · rw [hn] at hjn
        cases hjn
      · rw [hn] at hjn
        exact (Option.some.inj hjn).symm
    exact ⟨q, u, by rw [hjp, hq, heq]⟩

/-- Only what paths resolve to matters. -/
theorem congr (h : Idle t b items byPath) {u : Tree} (hu : ∀ p, node u p = node t p) :
    Idle u b items byPath where
  wf := h.wf.congr hu
  distinct := h.distinct
  cached p c hc := by
    obtain ⟨it, hi, hp, hg, hn⟩ := h.cached p c hc
    exact ⟨it, hi, hp, hg, (Tree.inodeAt_congr (hu p)).trans hn⟩
  kept := h.kept
  kind c it p i hi hn := h.kind c it p i hi (hu p ▸ hn)
  bound := h.bound

theorem mono (h : Idle t b items byPath) {c : ℕ} (hc : b ≤ c) : Idle t c items byPath :=
  ⟨h.wf.mono hc, h.distinct, h.cached, h.kept, h.kind,
    fun x it hi => (h.bound x it hi).trans_le hc⟩

theorem distinct_filter {d : List (Path × ℕ)} (h : SwapTable.Distinct d) (f : Path × ℕ → Bool) :
    SwapTable.Distinct (d.filter f) :=
  h.sublist (List.filter_sublist.map Prod.fst)

/-- Give up an item. It is not cached afterwards, and whatever else leaves the cache is
parked. -/
theorem giveUp (h : Idle t b items byPath) {x : ℕ} {d : List (Path × ℕ)} (hsub : d.Sublist byPath)
    (hx : ∀ p, (p, x) ∉ d) (hkeep : ∀ (c : ℕ) (it : Item), items[c]? = some it → c ≠ x →
      (it.path, c) ∈ byPath → (it.path, c) ∈ d ∨ it.Parked) :
    Idle t b (items.modify x fun it => { it with gone := true }) d where
  wf := h.wf
  distinct := h.distinct.sublist (hsub.map Prod.fst)
  cached p c hc := by
    obtain ⟨it, hi, hrest⟩ := h.cached p c (hsub.subset hc)
    refine ⟨it, lookup_modify.mpr ⟨it, hi, if_neg ?_⟩, hrest⟩
    rintro rfl
    exact hx p hc
  kept c jt hj hg := by
    obtain ⟨it, hi, rfl⟩ := lookup_modify.mp hj
    split_ifs at hg ⊢ with hc
    rcases h.kept c it hi hg with hm | hp
    · exact hkeep c it hi (Ne.symm hc) hm
    · exact .inr hp
  kind c jt p i hj hn heq := by
    obtain ⟨it, hi, rfl⟩ := lookup_modify.mp hj
    have hsame : i.number = it.inode := by
      rw [heq]
      split_ifs <;> rfl
    rw [h.kind c it p i hi hn hsame]
    split_ifs <;> rfl
  bound c jt hj := by
    obtain ⟨it, hi, rfl⟩ := lookup_modify.mp hj
    have := h.bound c it hi
    split_ifs <;> exact this

/-- Give up an item and its key. -/
theorem bury (h : Idle t b items byPath) {x : ℕ} {it : Item} (hx : items[x]? = some it)
    (hg : it.gone = false) :
    Idle t b (items.modify x fun it => { it with gone := true }) (PathText.exact.drop byPath it.path) := by
  refine h.giveUp List.filter_sublist ?_ ?_
  · intro p hc
    obtain ⟨hc, hp⟩ := PathText.mem_exact_drop.mp hc
    exact hp (h.cached_at hc hx).1.symm
  · intro c jt hj hne hm
    by_cases hp : jt.path = it.path
    · exact .inr (h.twin hx hg hp.symm hm hj hne)
    · exact .inl (PathText.mem_exact_drop.mpr ⟨hm, hp⟩)

/-- A name goes that has nothing below it and is not cached. -/
theorem unlink (h : Idle t b items byPath) {path : Path} (hl : leaf t path = true)
    (hp : ∀ c, (path, c) ∉ byPath) : Idle (unlink path t) b items byPath where
  wf := h.wf.unlink path
  distinct := h.distinct
  cached p c hc := by
    obtain ⟨it, hi, hip, hg, hn⟩ := h.cached p c hc
    refine ⟨it, hi, hip, hg, ?_⟩
    rw [Tree.inodeAt, node_unlink, if_neg, ← hn, Tree.inodeAt]
    rintro ⟨rest, rfl⟩
    have hr : rest ≠ [] := by
      rintro rfl
      rw [List.append_nil] at hc
      exact hp c hc
    exact h.node_cached hc (leaf_iff.mp hl rest hr)
  kept := h.kept
  kind c it p i hi hn := by
    rw [node_unlink] at hn
    split_ifs at hn
    exact h.kind c it p i hi hn
  bound := h.bound

/-- A new name of a directory, with a new inode. -/
theorem grow (h : Idle t b items byPath) {dir : Path} {name : Name} {d : Inode}
    (hd : node t dir = some d) (hk : d.kind = .directory) (hname : ∀ u j, name ≠ .nkOver u j)
    (hnew : node t (dir ++ [name]) = none) (kind : Kind) :
    Idle ((dir ++ [name], ⟨b, kind⟩) :: t) (b + 1) items byPath where
  wf := h.wf.cons hd hk rfl hname hnew
  distinct := h.distinct
  cached p c hc := by
    obtain ⟨it, hi, hip, hg, hn⟩ := h.cached p c hc
    refine ⟨it, hi, hip, hg, ?_⟩
    rw [Tree.inodeAt, node_cons, if_neg, ← hn, Tree.inodeAt]
    rintro rfl
    exact h.node_cached hc hnew
  kept := h.kept
  kind c it p i hi hn heq := by
    rw [node_cons] at hn
    split_ifs at hn
    · rw [← Option.some.inj hn] at heq
      have := h.bound c it hi
      simp only at heq
      omega
    · exact h.kind c it p i hi hn heq
  bound c it hi := (h.bound c it hi).trans (Nat.lt_succ_self b)

/-- A new item for what a path was found to be. -/
theorem enter (h : Idle t b items byPath) {path : Path} {i : Inode} (hn : node t path = some i)
    (hfree : SwapTable.find byPath path = none) (id : ℕ) :
    Idle t b (items ++ [⟨path, i.kind, id, i.number, false⟩])
      (SwapTable.set byPath path items.length) := by
  have hset := h.distinct.set path items.length
  have hmem : ∀ p c, (p, c) ∈ SwapTable.set byPath path items.length ↔
      (p = path ∧ c = items.length) ∨ (p ≠ path ∧ (p, c) ∈ byPath) :=
    fun p c => SwapTable.mem_set h.distinct
  have hkind : ∀ p j, node t p = some j → j.number = i.number → j.kind = i.kind := by
    intro p j hj heq
    by_cases hp : p = path
    · rw [hp, hn] at hj
      rw [Option.some.inj hj]
    · exact (h.wf.single p path j i hj hn heq hp).1
  refine ⟨h.wf, hset, ?_, ?_, ?_, ?_⟩
  · intro p c hc
    rcases (hmem p c).mp hc with ⟨rfl, rfl⟩ | ⟨-, hc⟩
    · refine ⟨_, lookup_concat.mpr (.inr ⟨rfl, rfl⟩), rfl, rfl, ?_⟩
      rw [Tree.inodeAt, hn]
      rfl
    · obtain ⟨it, hi, hrest⟩ := h.cached p c hc
      exact ⟨it, lookup_concat.mpr (.inl hi), hrest⟩
  · intro c it hi hg
    rcases lookup_concat.mp hi with hi | ⟨rfl, rfl⟩
    · rcases h.kept c it hi hg with hc | hp
      · refine .inl ((hmem _ c).mpr (.inr ⟨?_, hc⟩))
        intro hp
        rw [hp] at hc
        exact SwapTable.find_eq_none.mp hfree (List.mem_map_of_mem (f := Prod.fst) hc)
      · exact .inr hp
    · exact .inl ((hmem _ _).mpr (.inl ⟨rfl, rfl⟩))
  · intro c it p j hi hj heq
    rcases lookup_concat.mp hi with hi | ⟨rfl, rfl⟩
    · exact h.kind c it p j hi hj heq
    · exact hkind p j hj heq
  · intro c it hi
    rcases lookup_concat.mp hi with hi | ⟨rfl, rfl⟩
    · exact h.bound c it hi
    · exact h.wf.bound path i hn

end Idle

end NtfsKit
