import NtfsKit.Volume.RenameSpec

/-! The bookkeeping at the end of `renameItem`: the item and everything cached below it get
their new paths, the victim keeps its hidden one, and the items agree with the tree
again. -/

namespace NtfsKit

open PathTree

/-! ### Tables of paths -/

section

variable {old new p : Path} {c : ℕ} {d : List (Path × ℕ)}

/-- Strictly below a path. -/
theorem below_iff : (old <+: p ∧ old ≠ p) ↔ ∃ rest, rest ≠ [] ∧ p = old ++ rest := by
  constructor
  · rintro ⟨⟨rest, rfl⟩, hne⟩
    refine ⟨rest, ?_, rfl⟩
    rintro rfl
    exact hne (List.append_nil old).symm
  · rintro ⟨rest, hr, rfl⟩
    exact ⟨List.prefix_append _ _, by simpa using hr⟩

theorem mem_dropBelow (h : old ≠ []) :
    (p, c) ∈ PathText.exact.dropBelow d old ↔ (p, c) ∈ d ∧ ¬ (old <+: p ∧ old ≠ p) := by
  rw [PathText.dropBelow, List.mem_filter, decide_eq_true_eq, PathText.exact_beneath]
  simp only [ne_eq, h, not_false_eq_true, true_and]

/-- The entries below `old`, each under its path below `new`. -/
def movedBelow (old new : Path) (d : List (Path × ℕ)) : List (Path × ℕ) :=
  (d.filter fun e => old <+: e.1 ∧ old ≠ e.1).map fun e => (new ++ e.1.drop old.length, e.2)

theorem mem_movedBelow : (p, c) ∈ movedBelow old new d ↔
    ∃ rest, rest ≠ [] ∧ (old ++ rest, c) ∈ d ∧ p = new ++ rest := by
  simp only [movedBelow, List.mem_map, List.mem_filter, decide_eq_true_eq, Prod.mk.injEq,
    Prod.exists]
  constructor
  · rintro ⟨q, e, ⟨hm, hb⟩, rfl, rfl⟩
    obtain ⟨rest, hr, rfl⟩ := below_iff.mp hb
    exact ⟨rest, hr, hm, by rw [List.drop_left]⟩
  · rintro ⟨rest, hr, hm, rfl⟩
    exact ⟨_, c, ⟨hm, below_iff.mpr ⟨rest, hr, rfl⟩⟩, by rw [List.drop_left], rfl⟩

theorem distinct_movedBelow (h : SwapTable.Distinct d) :
    SwapTable.Distinct (movedBelow old new d) := by
  rw [SwapTable.Distinct, movedBelow, List.map_map]
  have hnd : ((d.filter fun e => old <+: e.1 ∧ old ≠ e.1).map Prod.fst).Nodup :=
    Idle.distinct_filter h _
  refine List.Nodup.of_map (fun q => old ++ q.drop new.length) ?_
  rw [List.map_map]
  convert hnd using 1
  refine List.map_congr_left fun e he => ?_
  obtain ⟨⟨rest, hrest⟩, -⟩ := (List.mem_filter.mp he).2 |> of_decide_eq_true
  simp [← hrest]

theorem exact_rekeyBelow (hold : old ≠ []) : PathText.exact.rekeyBelow old new d =
    EquivDict.setAll id (movedBelow old new d) (d.filter fun e => ¬ (old <+: e.1 ∧ old ≠ e.1)) := by
  simp only [PathText.rekeyBelow, movedBelow, PathText.exact_beneath, PathText.exact_form_eq,
    ne_eq, hold, not_false_eq_true, true_and]

theorem mem_rekeyBelow (hold : old ≠ []) (h : SwapTable.Distinct d) :
    (p, c) ∈ PathText.exact.rekeyBelow old new d ↔
    (∃ rest, rest ≠ [] ∧ (old ++ rest, c) ∈ d ∧ p = new ++ rest) ∨
    ((p, c) ∈ d ∧ ¬ (old <+: p ∧ old ≠ p) ∧
      ∀ rest c', rest ≠ [] → p = new ++ rest → (old ++ rest, c') ∉ d) := by
  rw [exact_rekeyBelow hold, EquivDict.mem_setAll_id (distinct_movedBelow h)
    (Idle.distinct_filter h _), mem_movedBelow, List.mem_filter, decide_eq_true_eq, and_assoc]
  refine or_congr_right (and_congr_right fun _ => and_congr_right fun _ => ?_)
  constructor
  · intro hno rest c' hr hp hm
    exact hno c' (mem_movedBelow.mpr ⟨rest, hr, hm, hp⟩)
  · intro hno c' hm
    obtain ⟨rest, hr, hm, hp⟩ := mem_movedBelow.mp hm
    exact hno rest c' hr hp hm

theorem distinct_rekeyBelow (hold : old ≠ []) (h : SwapTable.Distinct d) :
    SwapTable.Distinct (PathText.exact.rekeyBelow old new d) := by
  rw [exact_rekeyBelow hold]
  exact EquivDict.distinct_setAll_id (Idle.distinct_filter h _)

end

/-! ### The renamed items -/

variable {t u : Tree} {b : ℕ} {items : List Item} {byPath : List (Path × ℕ)} {r : Rename}

theorem repath_gone (T : PathText) (r : Rename) (byPath : List (Path × ℕ)) (c : ℕ) (it : Item) :
    (r.repath T byPath c it).gone = it.gone ∧
    (r.repath T byPath c it).inode = it.inode ∧ (r.repath T byPath c it).kind = it.kind := by
  unfold Rename.repath
  split
  · exact ⟨rfl, rfl, rfl⟩
  · split_ifs <;> exact ⟨rfl, rfl, rfl⟩

/-- An item that stands in the cache at one place below the old path. -/
theorem repath_of_mem {e : List (Path × ℕ)} {rest : Path} {c : ℕ} {it : Item}
    (hold : r.oldPath ≠ []) (hr : rest ≠ [])
    (hm : (r.oldPath ++ rest, c) ∈ e)
    (hone : ∀ q, (q, c) ∈ e → r.oldPath <+: q ∧ r.oldPath ≠ q → q = r.oldPath ++ rest) :
    r.repath .exact e c it = { it with path := r.newPath ++ rest } := by
  unfold Rename.repath
  split
  case h_1 e' he =>
    have hsat : e'.2 = c ∧ r.oldPath <+: e'.1 ∧ r.oldPath ≠ e'.1 := by
      simpa [hold] using List.find?_some he
    have hmem := List.mem_of_find?_eq_some he
    rw [hone e'.1 (by rw [← hsat.1]; exact hmem) hsat.2, List.drop_left]
  case h_2 hnone =>
    exact absurd (List.find?_eq_none.mp hnone _ hm) (by simp [hold, hr])

/-- An item that stands nowhere below the old path. -/
theorem repath_of_not {e : List (Path × ℕ)} {c : ℕ} {it : Item}
    (hno : ∀ rest, rest ≠ [] → (r.oldPath ++ rest, c) ∉ e) :
    r.repath .exact e c it = if c = r.item then { it with path := r.newPath } else it := by
  unfold Rename.repath
  split
  case h_1 e' he =>
    obtain ⟨hc, -, hsat⟩ : e'.2 = c ∧ r.oldPath ≠ [] ∧ r.oldPath <+: e'.1 ∧ r.oldPath ≠ e'.1 := by
      simpa using List.find?_some he
    have hmem := List.mem_of_find?_eq_some he
    obtain ⟨rest, hr, heq⟩ := below_iff.mp hsat
    exact absurd (by rw [← heq, ← hc]; exact hmem) (hno rest hr)
  case h_2 => rfl

theorem repointed_lookup {c : ℕ} {jt : Item} : (r.repointed items)[c]? = some jt ↔
    ∃ it, items[c]? = some it ∧
      ((∃ o, r.overItem = some o ∧ o.item = c ∧ jt = { it with path := o.parked }) ∨
      ((∀ o, r.overItem = some o → c ≠ o.item) ∧ jt = it)) := by
  unfold Rename.repointed
  cases ho : r.overItem with
  | none => simp
  | some o =>
    simp only [lookup_modify, Option.some.injEq, exists_eq_left', forall_eq']
    refine exists_congr fun it => and_congr_right fun _ => ?_
    by_cases hc : o.item = c
    · simp [hc, eq_comm]
    · simp [hc, Ne.symm hc, eq_comm]

theorem evict_distinct (h : SwapTable.Distinct byPath) : SwapTable.Distinct (r.evict .exact byPath) := by
  unfold Rename.evict
  cases r.overItem with
  | none => exact h
  | some o => exact Idle.distinct_filter (Idle.distinct_filter h _) _

theorem distinct_evict (h : SwapTable.Distinct byPath) :
    SwapTable.Distinct (PathText.exact.drop (r.evict .exact byPath) r.oldPath) :=
  Idle.distinct_filter (evict_distinct h) _

theorem distinct_entered (h : SwapTable.Distinct byPath) (v : ℕ) :
    SwapTable.Distinct (r.entered .exact byPath v) := by
  rw [Rename.entered, PathText.exact_set]
  exact (distinct_evict h).set _ _

theorem Rename.newPath_ne (r : Rename) : r.newPath ≠ [] := by
  simp [Rename.newPath]

namespace Begun

variable (h : Begun t b items byPath r)
include h

theorem new_not_below : ¬ (r.oldPath <+: r.newPath ∧ r.oldPath ≠ r.newPath) := by
  rintro ⟨hp, hne⟩
  rcases prefix_concat hp with heq | hp
  · exact hne heq
  · exact h.outside hp

/-- The cache with the item under its new path. -/
theorem mem_entered {p : Path} {c : ℕ} :
    (p, c) ∈ r.entered .exact byPath r.item ↔
    (p = r.newPath ∧ c = r.item) ∨ (p ≠ r.newPath ∧ p ≠ r.oldPath ∧ (p, c) ∈ byPath) := by
  have hevict : p ≠ r.newPath → ((p, c) ∈ r.evict .exact byPath ↔ (p, c) ∈ byPath) := by
    intro hp
    unfold Rename.evict
    cases ho : r.overItem with
    | none => exact Iff.rfl
    | some o =>
      simp only
      have hpath := (h.victim o ho).path
      rw [mem_dropBelow (hpath ▸ r.newPath_ne), PathText.mem_exact_drop, hpath]
      constructor
      · exact fun hm => hm.1.1
      · exact fun hm => ⟨⟨hm, hp⟩, fun hb => (h.not_below ho hm hp).1 hb.1⟩
  rw [Rename.entered, PathText.exact_set, SwapTable.mem_set (distinct_evict h.idle.distinct),
    PathText.mem_exact_drop]
  refine or_congr_right (and_congr_right fun hp => ?_)
  rw [hevict hp, and_comm]

/-- An item cached below the old path gets the path below the new one. -/
theorem repath_below {rest : Path} {c : ℕ} (hr : rest ≠ []) (hc : (r.oldPath ++ rest, c) ∈ byPath)
    (it : Item) : (r.repath .exact (r.entered .exact byPath r.item) c it).path = r.newPath ++ rest := by
  have hb : r.oldPath <+: r.oldPath ++ rest ∧ r.oldPath ≠ r.oldPath ++ rest :=
    below_iff.mpr ⟨rest, hr, rfl⟩
  have hent : (r.oldPath ++ rest, c) ∈ r.entered .exact byPath r.item := by
    refine h.mem_entered.mpr (.inr ⟨?_, fun heq => hb.2 heq.symm, hc⟩)
    intro heq
    exact h.new_not_below (heq ▸ hb)
  rw [repath_of_mem h.proper hr hent]
  intro q hq hbelow
  rcases h.mem_entered.mp hq with ⟨hnew, -⟩ | ⟨-, -, hcached⟩
  · exact absurd (hnew ▸ hbelow) h.new_not_below
  · obtain ⟨jt, hj, hpath, -⟩ := h.idle.cached _ c hc
    rw [← (h.idle.cached_at hcached hj).1, hpath]

/-- Any other item keeps its path, the renamed one apart. -/
theorem repath_other {c : ℕ} (hc : ∀ rest, rest ≠ [] → (r.oldPath ++ rest, c) ∉ byPath)
    (it : Item) : (r.repath .exact (r.entered .exact byPath r.item) c it).path =
      if c = r.item then r.newPath else it.path := by
  rw [repath_of_not]
  · split_ifs <;> rfl
  · intro rest hr hm
    rcases h.mem_entered.mp hm with ⟨hnew, -⟩ | ⟨-, -, hcached⟩
    · exact h.new_not_below (hnew ▸ below_iff.mpr ⟨rest, hr, rfl⟩)
    · exact hc rest hr hcached

/-- An item's record afterwards. -/
theorem rekeyed_lookup {c : ℕ} {jt : Item}
    (hj : ((r.repointed items).mapIdx (r.repath .exact (r.entered .exact byPath r.item)))[c]? = some jt) :
    ∃ it, items[c]? = some it ∧ jt.gone = it.gone ∧ jt.inode = it.inode ∧ jt.kind = it.kind ∧
      ((∃ rest, rest ≠ [] ∧ (r.oldPath ++ rest, c) ∈ byPath ∧ jt.path = r.newPath ++ rest) ∨
       (c = r.item ∧ jt.path = r.newPath) ∨
       (∃ o, r.overItem = some o ∧ c = o.item ∧ jt.path = o.parked) ∨
       (c ≠ r.item ∧ (∀ o, r.overItem = some o → c ≠ o.item) ∧ jt.path = it.path ∧
        ∀ rest, rest ≠ [] → (r.oldPath ++ rest, c) ∉ byPath)) := by
  rw [List.getElem?_mapIdx, Option.map_eq_some_iff] at hj
  obtain ⟨kt, hk, rfl⟩ := hj
  obtain ⟨hgone, hinode, hkind⟩ := repath_gone .exact r (r.entered .exact byPath r.item) c kt
  obtain ⟨it, hi, hcase⟩ := repointed_lookup.mp hk
  have hsame : kt.gone = it.gone ∧ kt.inode = it.inode ∧ kt.kind = it.kind := by
    rcases hcase with ⟨o, -, -, rfl⟩ | ⟨-, rfl⟩
    · exact ⟨rfl, rfl, rfl⟩
    · exact ⟨rfl, rfl, rfl⟩
  refine ⟨it, hi, hgone.trans hsame.1, hinode.trans hsame.2.1, hkind.trans hsame.2.2, ?_⟩
  by_cases hb : ∃ rest, rest ≠ [] ∧ (r.oldPath ++ rest, c) ∈ byPath
  · obtain ⟨rest, hr, hm⟩ := hb
    exact .inl ⟨rest, hr, hm, h.repath_below hr hm kt⟩
  have hno : ∀ rest, rest ≠ [] → (r.oldPath ++ rest, c) ∉ byPath :=
    fun rest hr hm => hb ⟨rest, hr, hm⟩
  rw [h.repath_other hno]
  split_ifs with hc
  · exact .inr (.inl ⟨hc, rfl⟩)
  · rcases hcase with ⟨o, ho, rfl, rfl⟩ | ⟨hov, rfl⟩
    · exact .inr (.inr (.inl ⟨o, ho, rfl, rfl⟩))
    · exact .inr (.inr (.inr ⟨hc, hov, rfl, hno⟩))

end Begun

namespace Carried

variable (h : Carried t u b byPath r) (hB : Begun t b items byPath r)
include h hB

/-- The cache afterwards. -/
theorem mem_rekeyed {p : Path} {c : ℕ} :
    (p, c) ∈ PathText.exact.rekeyBelow r.oldPath r.newPath (r.entered .exact byPath r.item) ↔
      (p = r.newPath ∧ c = r.item) ∨
      (∃ rest, rest ≠ [] ∧ (r.oldPath ++ rest, c) ∈ byPath ∧ p = r.newPath ++ rest) ∨
      ((p, c) ∈ byPath ∧ ¬ r.oldPath <+: p ∧ p ≠ r.newPath) := by
  have hbelow : ∀ rest e, rest ≠ [] →
      ((r.oldPath ++ rest, e) ∈ r.entered .exact byPath r.item ↔ (r.oldPath ++ rest, e) ∈ byPath) := by
    intro rest e hr
    have hb : r.oldPath <+: r.oldPath ++ rest ∧ r.oldPath ≠ r.oldPath ++ rest :=
      below_iff.mpr ⟨rest, hr, rfl⟩
    rw [hB.mem_entered]
    constructor
    · rintro (⟨heq, -⟩ | ⟨-, -, hm⟩)
      · exact absurd (heq ▸ hb) hB.new_not_below
      · exact hm
    · exact fun hm => .inr ⟨fun heq => hB.new_not_below (heq ▸ hb), fun heq => hb.2 heq.symm, hm⟩
  rw [mem_rekeyBelow hB.proper (distinct_entered hB.idle.distinct _)]
  constructor
  · rintro (⟨rest, hr, hm, rfl⟩ | ⟨hm, hnb, -⟩)
    · exact .inr (.inl ⟨rest, hr, (hbelow rest c hr).mp hm, rfl⟩)
    · rcases hB.mem_entered.mp hm with hnew | ⟨hne, hold, hm⟩
      · exact .inl hnew
      · exact .inr (.inr ⟨hm, fun hp => hnb ⟨hp, Ne.symm hold⟩, hne⟩)
  · rintro (⟨rfl, rfl⟩ | ⟨rest, hr, hm, rfl⟩ | ⟨hm, hp, hne⟩)
    · refine .inr ⟨hB.mem_entered.mpr (.inl ⟨rfl, rfl⟩), hB.new_not_below, ?_⟩
      intro rest _ hr heq
      exact absurd heq (by simpa using hr)
    · exact .inl ⟨rest, hr, (hbelow rest c hr).mpr hm, rfl⟩
    · refine .inr ⟨hB.mem_entered.mpr (.inr ⟨hne, ?_, hm⟩), fun hb => hp hb.1, ?_⟩
      · rintro rfl
        exact hp List.prefix_rfl
      · rintro rest _ - rfl
        exact absurd (List.prefix_append _ _) (h.outside _ c hm hp hne).1

/-- The renamed item's file. -/
theorem inodeAt_new {it : Item} (hi : items[r.item]? = some it) :
    u.inodeAt r.newPath = some it.inode := by
  have hm := h.moved [] (by rw [List.append_nil]; exact h.found)
  rw [List.append_nil, List.append_nil] at hm
  obtain ⟨jt, hj, hpath, hg⟩ := hB.item
  rw [hi] at hj
  obtain rfl := Option.some.inj hj
  rcases hB.idle.own hi hg with hn | hn
  · rw [hpath] at hn
    exact absurd (Tree.inodeAt_eq_none.mp hn) h.found
  · rw [hm, ← hpath, hn]

/-- A cached item's record has the path it is cached under. -/
theorem rekeyed_path {p : Path} {c : ℕ} {jt : Item}
    (hc : (p, c) ∈ PathText.exact.rekeyBelow r.oldPath r.newPath (r.entered .exact byPath r.item))
    (hj : ((r.repointed items).mapIdx (r.repath .exact (r.entered .exact byPath r.item)))[c]? = some jt) :
    jt.path = p := by
  obtain ⟨it, hi, -, -, -, hpath⟩ := hB.rekeyed_lookup hj
  obtain ⟨xt, hx, hxp, -⟩ := hB.item
  -- the item's old record, by where it was cached
  have hat : ∀ {q}, (q, c) ∈ byPath → it.path = q := fun hq => (hB.idle.cached_at hq hi).1
  have hitem : c = r.item → it.path = r.oldPath := by
    rintro rfl
    rw [hi] at hx
    rw [Option.some.inj hx, hxp]
  have hover : ∀ o, r.overItem = some o → c = o.item → it.path = r.newPath := by
    rintro o ho rfl
    exact hat (hB.victim o ho).cached
  rcases (h.mem_rekeyed hB).mp hc with ⟨rfl, rfl⟩ | ⟨rest, hr, hm, rfl⟩ | ⟨hm, hp, hne⟩
  · rcases hpath with ⟨rest, hr, hm, -⟩ | ⟨-, hp⟩ | ⟨o, ho, hov, -⟩ | ⟨hc, -⟩
    · exact absurd ((hitem rfl).symm.trans (hat hm)) (by simpa using hr)
    · exact hp
    · exact absurd hov.symm (hB.victim o ho).other
    · exact absurd rfl hc
  · have hb : r.oldPath <+: r.oldPath ++ rest ∧ r.oldPath ≠ r.oldPath ++ rest :=
      below_iff.mpr ⟨rest, hr, rfl⟩
    rcases hpath with ⟨rest', -, hm', hp⟩ | ⟨hx, -⟩ | ⟨o, ho, hov, -⟩ | ⟨-, -, -, hno⟩
    · rw [hp, List.append_cancel_left ((hat hm').symm.trans (hat hm))]
    · exact absurd ((hitem hx).symm.trans (hat hm)) hb.2
    · rw [(hat hm).symm.trans (hover o ho hov)] at hb
      exact absurd hb hB.new_not_below
    · exact absurd hm (hno rest hr)
  · rcases hpath with ⟨rest, -, hm', -⟩ | ⟨hx, -⟩ | ⟨o, ho, hov, -⟩ | ⟨-, -, heq, -⟩
    · rw [(hat hm).symm.trans (hat hm')] at hp
      exact absurd (List.prefix_append _ _) hp
    · rw [(hat hm).symm.trans (hitem hx)] at hp
      exact absurd List.prefix_rfl hp
    · exact absurd ((hat hm).symm.trans (hover o ho hov)) hne
    · rw [heq, hat hm]

/-- Once the items have their new paths, they agree with the tree. -/
theorem rekey : Idle u b ((r.repointed items).mapIdx (r.repath .exact (r.entered .exact byPath r.item)))
    (PathText.exact.rekeyBelow r.oldPath r.newPath (r.entered .exact byPath r.item)) := by
  have hlook : ∀ {c : ℕ} {it : Item}, items[c]? = some it → ∃ jt,
      ((r.repointed items).mapIdx (r.repath .exact (r.entered .exact byPath r.item)))[c]? = some jt := by
    intro c it hi
    refine Option.isSome_iff_exists.mp ?_
    have hlen : (r.repointed items).length = items.length := by
      unfold Rename.repointed
      split <;> simp
    rw [List.getElem?_mapIdx, Option.isSome_map, isSome_getElem?, hlen]
    exact (List.getElem?_eq_some_iff.mp hi).1
  obtain ⟨xt, hx, hxp, hxg⟩ := hB.item
  refine ⟨h.wf, distinct_rekeyBelow hB.proper (distinct_entered hB.idle.distinct _), ?_, ?_, ?_, ?_⟩
  · intro p c hc
    have hfind : ∃ it, items[c]? = some it ∧ it.gone = false ∧ u.inodeAt p = some it.inode := by
      rcases (h.mem_rekeyed hB).mp hc with ⟨rfl, rfl⟩ | ⟨rest, -, hm, rfl⟩ | ⟨hm, hp, hne⟩
      · exact ⟨xt, hx, hxg, h.inodeAt_new hB hx⟩
      · obtain ⟨it, hi, -, hg, hn⟩ := hB.idle.cached _ c hm
        exact ⟨it, hi, hg, (h.moved rest (hB.idle.node_cached hm)).trans hn⟩
      · obtain ⟨it, hi, -, hg, hn⟩ := hB.idle.cached _ c hm
        exact ⟨it, hi, hg, (h.outside p c hm hp hne).2.trans hn⟩
    obtain ⟨it, hi, hg, hn⟩ := hfind
    obtain ⟨jt, hj⟩ := hlook hi
    obtain ⟨it', hi', hjg, hji, -⟩ := hB.rekeyed_lookup hj
    rw [hi] at hi'
    obtain rfl := Option.some.inj hi'
    exact ⟨jt, hj, h.rekeyed_path hB hc hj, hjg.trans hg, by rw [hn, hji]⟩
  · intro c jt hj hg
    obtain ⟨it, hi, hjg, hji, -, ⟨rest, hr, hm, hp⟩ | ⟨rfl, hp⟩ | ⟨o, ho, rfl, hp⟩ |
      ⟨hc, hov, hp, hno⟩⟩ := hB.rekeyed_lookup hj
    · rw [hp]
      exact .inl ((h.mem_rekeyed hB).mpr (.inr (.inl ⟨rest, hr, hm, rfl⟩)))
    · rw [hp]
      exact .inl ((h.mem_rekeyed hB).mpr (.inl ⟨rfl, rfl⟩))
    · have v := hB.victim o ho
      obtain ⟨kt, w, hk, htok⟩ := v.token
      rw [hi] at hk
      obtain rfl := Option.some.inj hk
      exact .inr ⟨r.destPath, w, by rw [hp, v.parked_eq, htok, hji]⟩
    · have hparked : it.Parked → jt.Parked := by
        rintro ⟨q, w, hq⟩
        exact ⟨q, w, by rw [hp, hq, hji]⟩
      rcases hB.idle.kept c it hi (hjg ▸ hg) with hm | hpk
      · by_cases hold : it.path = r.oldPath
        · exact .inr (hparked (hB.idle.twin hx hxg (hxp.trans hold.symm) hm hi hc))
        · rw [hp]
          refine .inl ((h.mem_rekeyed hB).mpr (.inr (.inr ⟨hm, ?_, ?_⟩)))
          · intro hb
            obtain ⟨rest, hr, heq⟩ := below_iff.mp ⟨hb, Ne.symm hold⟩
            exact hno rest hr (heq ▸ hm)
          · intro heq
            rw [heq] at hm
            cases ho : r.overItem with
            | none => exact hc (hB.free ho c hm)
            | some o => exact hov o ho (hB.idle.unique hm (hB.victim o ho).cached)
      · exact .inr (hparked hpk)
  · intro c jt p i hj hn heq
    obtain ⟨it, hi, -, hji, hjk, -⟩ := hB.rekeyed_lookup hj
    obtain ⟨q, hq⟩ := h.origin p i hn
    rw [hjk]
    exact hB.idle.kind c it q i hi hq (heq.trans hji)
  · intro c jt hj
    obtain ⟨it, hi, -, hji, -⟩ := hB.rekeyed_lookup hj
    rw [hji]
    exact hB.idle.bound c it hi

end Carried

end NtfsKit
