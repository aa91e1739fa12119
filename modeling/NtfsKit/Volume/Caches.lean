import NtfsKit.Volume.Lossless

/-! The two dictionaries of the namespace, `itemByPath` and `idByPath`, and the paths inside
the items. Each operation keeps them in step: an item is cached under its own path and under
no other, with the identifier its path has, and identifiers are given out once. -/

namespace NtfsKit

open PathTree

/-! ### The invariant -/

/-- The dictionaries are in step. -/
structure Caches (items : List Item) (byPath ids : List (Path × ℕ)) (nextID : ℕ) : Prop where
  items_distinct : SwapTable.Distinct byPath
  ids_distinct : SwapTable.Distinct ids
  keyed : ∀ p c, (p, c) ∈ byPath → ∃ it, items[c]? = some it ∧ it.path = p ∧
    (p, it.identifier) ∈ ids
  unique : ∀ p q id, (p, id) ∈ ids → (q, id) ∈ ids → p = q
  issued : ∀ p id, (p, id) ∈ ids → id ≤ nextID
  handed : ∀ it ∈ items, it.identifier ≤ nextID

namespace Caches

variable {items : List Item} {byPath ids : List (Path × ℕ)} {n : ℕ}

/-- No object is cached under two paths. -/
theorem once (h : Caches items byPath ids n) {p q : Path} {c : ℕ} (hp : (p, c) ∈ byPath)
    (hq : (q, c) ∈ byPath) : p = q := by
  obtain ⟨it, hi, hip, -⟩ := h.keyed p c hp
  obtain ⟨jt, hj, hjp, -⟩ := h.keyed q c hq
  rw [hi] at hj
  rw [← hip, ← hjp, Option.some.inj hj]

/-- `id(for:)` gives the path's identifier, an old one or a new one. -/
theorem idFor {s : Namespace} (h : Caches s.items s.itemByPath s.idByPath s.nextID) (path : Path) :
    Caches (s.idFor .exact path).2.items (s.idFor .exact path).2.itemByPath (s.idFor .exact path).2.idByPath
        (s.idFor .exact path).2.nextID ∧
      (path, (s.idFor .exact path).1) ∈ (s.idFor .exact path).2.idByPath := by
  unfold Namespace.idFor
  rw [PathText.exact_find, PathText.exact_set]
  cases hf : SwapTable.find s.idByPath path with
  | some id => exact ⟨h, (SwapTable.find_eq_some h.ids_distinct).mp hf⟩
  | none =>
    have hmem : ∀ {p id}, (p, id) ∈ SwapTable.set s.idByPath path (s.nextID + 1) ↔
        (p = path ∧ id = s.nextID + 1) ∨ (p ≠ path ∧ (p, id) ∈ s.idByPath) :=
      SwapTable.mem_set h.ids_distinct
    have hfree : ∀ id, (path, id) ∉ s.idByPath := by
      intro id hid
      rw [← SwapTable.find_eq_some h.ids_distinct, hf] at hid
      cases hid
    refine ⟨⟨h.items_distinct, h.ids_distinct.set _ _, ?_, ?_, ?_, ?_⟩, hmem.mpr (.inl ⟨rfl, rfl⟩)⟩
    · intro p c hc
      obtain ⟨it, hi, hp, hid⟩ := h.keyed p c hc
      refine ⟨it, hi, hp, hmem.mpr (.inr ⟨?_, hid⟩)⟩
      rintro rfl
      exact hfree _ hid
    · intro p q id hp hq
      rcases hmem.mp hp with ⟨rfl, hid⟩ | ⟨-, hp'⟩ <;> rcases hmem.mp hq with ⟨rfl, hid'⟩ | ⟨-, hq'⟩
      · rfl
      · have := h.issued q _ hq'
        omega
      · have := h.issued p _ hp'
        omega
      · exact h.unique p q id hp' hq'
    · intro p id hp
      rcases hmem.mp hp with ⟨-, rfl⟩ | ⟨-, hp⟩
      · exact le_rfl
      · exact (h.issued p id hp).trans (Nat.le_succ _)
    · exact fun it hi => (h.handed it hi).trans (Nat.le_succ _)

/-- A new object for a path, with the path's identifier. -/
theorem enter (h : Caches items byPath ids n) (it : Item) (hid : (it.path, it.identifier) ∈ ids) :
    Caches (items ++ [it]) (SwapTable.set byPath it.path items.length) ids n where
  items_distinct := h.items_distinct.set _ _
  ids_distinct := h.ids_distinct
  keyed p c hc := by
    rcases (SwapTable.mem_set h.items_distinct).mp hc with ⟨rfl, rfl⟩ | ⟨-, hc⟩
    · exact ⟨it, lookup_concat.mpr (.inr ⟨rfl, rfl⟩), rfl, hid⟩
    · obtain ⟨jt, hj, hrest⟩ := h.keyed p c hc
      exact ⟨jt, lookup_concat.mpr (.inl hj), hrest⟩
  unique := h.unique
  issued := h.issued
  handed jt hj := by
    rcases List.mem_append.mp hj with hj | hj
    · exact h.handed jt hj
    · rw [List.mem_singleton.mp hj]
      exact h.issued _ _ hid

theorem itemFor {s : Namespace} (h : Caches s.items s.itemByPath s.idByPath s.nextID) (path : Path)
    (kind : Kind) (i : ℕ) : Caches (s.itemFor .exact path kind i).2.items
      (s.itemFor .exact path kind i).2.itemByPath (s.itemFor .exact path kind i).2.idByPath
      (s.itemFor .exact path kind i).2.nextID := by
  unfold Namespace.itemFor
  simp only [PathText.exact_find, PathText.exact_set]
  cases SwapTable.find s.itemByPath path with
  | some x => exact h
  | none =>
    obtain ⟨hids, hid⟩ := h.idFor path
    exact hids.enter ⟨path, kind, (s.idFor .exact path).1, i, false⟩ hid

/-- Keys leave the dictionaries; a key leaves `idByPath` only if it leaves `itemByPath`. -/
theorem drop (h : Caches items byPath ids n) {byPath' ids' : List (Path × ℕ)}
    (hb : byPath'.Sublist byPath) (hi : ids'.Sublist ids)
    (hkeep : ∀ p c id, (p, c) ∈ byPath' → (p, id) ∈ ids → (p, id) ∈ ids') :
    Caches items byPath' ids' n where
  items_distinct := h.items_distinct.sublist (hb.map Prod.fst)
  ids_distinct := h.ids_distinct.sublist (hi.map Prod.fst)
  keyed p c hc := by
    obtain ⟨it, hit, hp, hid⟩ := h.keyed p c (hb.subset hc)
    exact ⟨it, hit, hp, hkeep p c _ hc hid⟩
  unique p q id hp hq := h.unique p q id (hi.subset hp) (hi.subset hq)
  issued p id hp := h.issued p id (hi.subset hp)
  handed := h.handed

/-- Marking an object as given up changes nothing of this. -/
theorem bury (h : Caches items byPath ids n) (x : ℕ) :
    Caches (items.modify x fun it => { it with gone := true }) byPath ids n where
  items_distinct := h.items_distinct
  ids_distinct := h.ids_distinct
  keyed p c hc := by
    obtain ⟨it, hi, hp, hid⟩ := h.keyed p c hc
    refine ⟨_, lookup_modify.mpr ⟨it, hi, rfl⟩, ?_, ?_⟩
    · split_ifs <;> exact hp
    · split_ifs <;> exact hid
  unique := h.unique
  issued := h.issued
  handed jt hj := by
    obtain ⟨c, hc⟩ := List.mem_iff_getElem?.mp hj
    obtain ⟨it, hi, rfl⟩ := lookup_modify.mp hc
    have := h.handed it (List.mem_of_getElem? hi)
    split_ifs <;> exact this

end Caches

/-! ### Moving a subtree of keys -/

/-- A dictionary after the bookkeeping of a rename: the victim's subtree evicted, the item's
entry under its new path, and every key below the old path moved along. -/
def Rename.shift (r : Rename) (d : List (Path × ℕ)) (v : ℕ) : List (Path × ℕ) :=
  PathText.exact.rekeyBelow r.oldPath r.newPath (r.entered .exact d v)

/-- A rename as it is asked for: the item and the victim are the ones cached for their paths,
and the new path is not below the old one. -/
structure Rename.Chosen (r : Rename) (byPath : List (Path × ℕ)) : Prop where
  item : (r.oldPath, r.item) ∈ byPath
  out : ¬ (r.oldPath <+: r.newPath ∧ r.oldPath ≠ r.newPath)
  victim : ∀ o, r.overItem = some o →
    o.path = r.newPath ∧ (r.newPath, o.item) ∈ byPath ∧ o.item ≠ r.item

/-- Without a victim, nothing is cached below the new path. -/
def Rename.Clear (r : Rename) (byPath : List (Path × ℕ)) : Prop :=
  r.overItem = none → r.newPath = r.oldPath ∨
    ∀ p c, (p, c) ∈ byPath → ¬ (r.newPath <+: p ∧ r.newPath ≠ p)

/-- The victim does not lie above the item: the engine could not have renamed it. -/
def Rename.Apart (r : Rename) : Prop := r.overItem.isSome → ¬ r.newPath <+: r.oldPath

/-- What the bookkeeping of a rename relies on. -/
structure Rename.Fits (r : Rename) (byPath : List (Path × ℕ)) : Prop extends r.Chosen byPath where
  clear : r.Clear byPath
  apart : r.Apart

namespace Rename.Fits

variable {r : Rename} {byPath d : List (Path × ℕ)} {p : Path} {c v : ℕ}

section

variable (h : r.Fits byPath)
include h

theorem proper : r.oldPath ≠ [] := by
  intro hroot
  exact h.out ⟨hroot ▸ List.nil_prefix, fun heq => r.newPath_ne (heq ▸ hroot)⟩

theorem mem_evict : (p, c) ∈ r.evict .exact d ↔ (p, c) ∈ d ∧ (r.overItem.isSome → ¬ r.newPath <+: p) := by
  unfold Rename.evict
  cases ho : r.overItem with
  | none => simp
  | some o =>
    simp only [(h.victim o ho).1, mem_dropBelow r.newPath_ne, PathText.mem_exact_drop,
      Option.isSome_some, true_imp_iff]
    constructor
    · rintro ⟨⟨hm, hne⟩, hb⟩
      exact ⟨hm, fun hp => hb ⟨hp, Ne.symm hne⟩⟩
    · rintro ⟨hm, hp⟩
      refine ⟨⟨hm, ?_⟩, fun hb => hp hb.1⟩
      rintro rfl
      exact hp List.prefix_rfl

/-- The victim's subtree does not hold the item's. -/
theorem not_evicted (rest : Path) : r.overItem.isSome → ¬ r.newPath <+: r.oldPath ++ rest := by
  intro ho hp
  rcases List.prefix_or_prefix_of_prefix hp (List.prefix_append r.oldPath rest) with h1 | h1
  · exact h.apart ho h1
  · refine h.out ⟨h1, fun heq => h.apart ho ?_⟩
    rw [heq]

theorem mem_entered (hd : SwapTable.Distinct d) :
    (p, c) ∈ r.entered .exact d v ↔
      (p = r.newPath ∧ c = v) ∨ (p ≠ r.newPath ∧ p ≠ r.oldPath ∧ (p, c) ∈ d ∧
        (r.overItem.isSome → ¬ r.newPath <+: p)) := by
  rw [Rename.entered, PathText.exact_set, SwapTable.mem_set (distinct_evict hd),
    PathText.mem_exact_drop, h.mem_evict]
  refine or_congr_right (and_congr_right fun _ => ?_)
  rw [and_comm]

/-- What is below the old path stays there until it is moved. -/
theorem mem_entered_below (hd : SwapTable.Distinct d) {rest : Path} (hr : rest ≠ []) :
    (r.oldPath ++ rest, c) ∈ r.entered .exact d v ↔
      (r.oldPath ++ rest, c) ∈ d := by
  have hb : r.oldPath <+: r.oldPath ++ rest ∧ r.oldPath ≠ r.oldPath ++ rest :=
    below_iff.mpr ⟨rest, hr, rfl⟩
  have hnew : r.oldPath ++ rest ≠ r.newPath := fun heq => h.out (heq ▸ hb)
  rw [h.mem_entered hd]
  constructor
  · rintro (⟨heq, -⟩ | ⟨-, -, hm, -⟩)
    · exact absurd heq hnew
    · exact hm
  · exact fun hm => .inr ⟨hnew, Ne.symm hb.2, hm, h.not_evicted rest⟩

/-- The entries afterwards: the item's, those that moved along, and those that stayed. -/
theorem mem_shift (hd : SwapTable.Distinct d) : (p, c) ∈ r.shift d v ↔
    (p = r.newPath ∧ c = v) ∨
    (∃ rest, rest ≠ [] ∧ (r.oldPath ++ rest, c) ∈ d ∧ p = r.newPath ++ rest) ∨
    ((p, c) ∈ d ∧ ¬ r.oldPath <+: p ∧ p ≠ r.newPath ∧ (r.overItem.isSome → ¬ r.newPath <+: p) ∧
      ∀ rest c', rest ≠ [] → p = r.newPath ++ rest → (r.oldPath ++ rest, c') ∉ d) := by
  rw [Rename.shift, mem_rekeyBelow h.proper (distinct_entered hd v)]
  constructor
  · rintro (⟨rest, hr, hm, rfl⟩ | ⟨hm, hnb, hno⟩)
    · exact .inr (.inl ⟨rest, hr, (h.mem_entered_below hd hr).mp hm, rfl⟩)
    · rcases (h.mem_entered hd).mp hm with hnew | ⟨hne, hold, hm, hev⟩
      · exact .inl hnew
      · refine .inr (.inr ⟨hm, fun hp => hnb ⟨hp, Ne.symm hold⟩, hne, hev, ?_⟩)
        exact fun rest c' hr hp hc => hno rest c' hr hp ((h.mem_entered_below hd hr).mpr hc)
  · rintro (⟨rfl, rfl⟩ | ⟨rest, hr, hm, rfl⟩ | ⟨hm, hp, hne, hev, hno⟩)
    · refine .inr ⟨(h.mem_entered hd).mpr (.inl ⟨rfl, rfl⟩), h.out, ?_⟩
      intro rest _ hr heq
      exact absurd heq (by simpa using hr)
    · exact .inl ⟨rest, hr, (h.mem_entered_below hd hr).mpr hm, rfl⟩
    · refine .inr ⟨(h.mem_entered hd).mpr (.inr ⟨hne, ?_, hm, hev⟩), fun hb => hp hb.1, ?_⟩
      · rintro rfl
        exact hp List.prefix_rfl
      · exact fun rest c' hr heq hc => hno rest c' hr heq ((h.mem_entered_below hd hr).mp hc)

theorem distinct_shift (hd : SwapTable.Distinct d) : SwapTable.Distinct (r.shift d v) :=
  distinct_rekeyBelow h.proper (distinct_entered hd v)

end

end Rename.Fits

section

variable {r : Rename} {items : List Item} {byPath ids : List (Path × ℕ)} {n : ℕ}

theorem repointed_record {c : ℕ} {it : Item} (hi : items[c]? = some it) :
    ∃ kt, (r.repointed items)[c]? = some kt ∧ kt.identifier = it.identifier ∧
      ((∀ o, r.overItem = some o → c ≠ o.item) → kt = it) := by
  by_cases ho : ∃ o, r.overItem = some o ∧ o.item = c
  · obtain ⟨o, ho, rfl⟩ := ho
    exact ⟨_, repointed_lookup.mpr ⟨it, hi, .inl ⟨o, ho, rfl, rfl⟩⟩, rfl, fun h => absurd rfl (h o ho)⟩
  · have hno : ∀ o, r.overItem = some o → c ≠ o.item := fun o h heq => ho ⟨o, h, heq.symm⟩
    exact ⟨it, repointed_lookup.mpr ⟨it, hi, .inr ⟨hno, rfl⟩⟩, rfl, fun _ => rfl⟩

theorem repath_identifier (T : PathText) (e : List (Path × ℕ)) (c : ℕ) (it : Item) :
    (r.repath T e c it).identifier = it.identifier := by
  unfold Rename.repath
  split
  · rfl
  · split_ifs <;> rfl

variable (h : Caches items byPath ids n) (hf : r.Fits byPath)
include h hf

/-- A cached item has the path it is cached under after the bookkeeping. -/
theorem Caches.shifted_path {p : Path} {c : ℕ} (hc : (p, c) ∈ r.shift byPath r.item) :
    ∃ it, items[c]? = some it ∧
      ∃ jt, ((r.repointed items).mapIdx (r.repath .exact (r.entered .exact byPath r.item)))[c]? = some jt ∧
        jt.path = p ∧ jt.identifier = it.identifier := by
  have hd := h.items_distinct
  have hat : ∀ {it : Item}, items[c]? = some it →
      ∃ kt, (r.repointed items)[c]? = some kt ∧
        ((r.repointed items).mapIdx (r.repath .exact (r.entered .exact byPath r.item)))[c]? =
          some (r.repath .exact (r.entered .exact byPath r.item) c kt) ∧ kt.identifier = it.identifier ∧
        ((∀ o, r.overItem = some o → c ≠ o.item) → kt = it) := by
    intro it hi
    obtain ⟨kt, hk, hid, hsame⟩ := repointed_record (r := r) hi
    exact ⟨kt, hk, by rw [List.getElem?_mapIdx, hk, Option.map_some], hid, hsame⟩
  have hnot : (∀ rest, rest ≠ [] → (r.oldPath ++ rest, c) ∉ byPath) →
      ∀ rest, rest ≠ [] → (r.oldPath ++ rest, c) ∉ r.entered .exact byPath r.item :=
    fun hno rest hr hm => hno rest hr ((hf.mem_entered_below hd hr).mp hm)
  rcases (hf.mem_shift hd).mp hc with ⟨rfl, rfl⟩ | ⟨rest, hr, hm, rfl⟩ | ⟨hm, hp, hne, -, -⟩
  · obtain ⟨it, hi, -⟩ := h.keyed _ _ hf.item
    obtain ⟨kt, -, hj, hid, -⟩ := hat hi
    refine ⟨it, hi, _, hj, ?_, (repath_identifier _ _ _ _).trans hid⟩
    rw [repath_of_not (hnot fun rest hr hm => ?_), if_pos rfl]
    exact absurd (h.once hf.item hm) (by simpa using hr)
  · obtain ⟨it, hi, -⟩ := h.keyed _ _ hm
    obtain ⟨kt, -, hj, hid, -⟩ := hat hi
    refine ⟨it, hi, _, hj, ?_, (repath_identifier _ _ _ _).trans hid⟩
    have hent : (r.oldPath ++ rest, c) ∈ r.entered .exact byPath r.item :=
      (hf.mem_entered_below hd hr).mpr hm
    rw [repath_of_mem hf.proper hr hent]
    intro q hq hb
    obtain ⟨rest', hr', rfl⟩ := below_iff.mp hb
    exact h.once ((hf.mem_entered_below hd hr').mp hq) hm
  · obtain ⟨it, hi, hpath, -⟩ := h.keyed _ _ hm
    obtain ⟨kt, -, hj, hid, hsame⟩ := hat hi
    refine ⟨it, hi, _, hj, ?_, (repath_identifier _ _ _ _).trans hid⟩
    have hitem : c ≠ r.item := by
      rintro rfl
      exact hp (h.once hf.item hm ▸ List.prefix_rfl)
    have hover : ∀ o, r.overItem = some o → c ≠ o.item := by
      rintro o ho rfl
      exact hne (h.once hm (hf.victim o ho).2.1)
    rw [repath_of_not (hnot fun rest hr hb => ?_), if_neg hitem, hsame hover, hpath]
    rw [h.once hm hb] at hp
    exact hp (List.prefix_append _ _)

/-- The bookkeeping of a rename keeps the dictionaries in step. -/
theorem Caches.rekey {xt : Item} (hx : items[r.item]? = some xt) :
    Caches ((r.repointed items).mapIdx (r.repath .exact (r.entered .exact byPath r.item)))
      (r.shift byPath r.item)
      (r.shift ids xt.identifier) n := by
  have hd := h.items_distinct
  have hdi := h.ids_distinct
  obtain ⟨yt, hy, -, hxid⟩ := h.keyed _ _ hf.item
  rw [hx] at hy
  obtain rfl := Option.some.inj hy
  refine ⟨hf.distinct_shift hd, hf.distinct_shift hdi, ?_, ?_, ?_, ?_⟩
  · intro p c hc
    obtain ⟨it, hi, jt, hj, hpath, hid⟩ := h.shifted_path hf hc
    refine ⟨jt, hj, hpath, ?_⟩
    rw [hid, hf.mem_shift hdi]
    rcases (hf.mem_shift hd).mp hc with ⟨rfl, rfl⟩ | ⟨rest, hr, hm, rfl⟩ | ⟨hm, hp, hne, hev, -⟩
    · rw [hi] at hx
      exact .inl ⟨rfl, by rw [Option.some.inj hx]⟩
    · obtain ⟨kt, hk, -, hmem⟩ := h.keyed _ _ hm
      rw [hi] at hk
      obtain rfl := Option.some.inj hk
      exact .inr (.inl ⟨rest, hr, hmem, rfl⟩)
    · obtain ⟨kt, hk, -, hmem⟩ := h.keyed _ _ hm
      rw [hi] at hk
      obtain rfl := Option.some.inj hk
      refine .inr (.inr ⟨hmem, hp, hne, hev, ?_⟩)
      -- what stays is not below the new path, so no moved key covers it
      rintro rest c' hr rfl -
      cases ho : r.overItem with
      | some o => exact hev (by rw [ho]; rfl) (List.prefix_append _ _)
      | none =>
        rcases hf.clear ho with heq | hclear
        · exact hp (heq ▸ List.prefix_append _ _)
        · exact hclear _ c hm (below_iff.mpr ⟨rest, hr, rfl⟩)
  · intro p q id hp hq
    rw [hf.mem_shift hdi] at hp hq
    have hself : ∀ {rest : Path}, rest ≠ [] → (r.oldPath ++ rest, xt.identifier) ∉ ids := by
      intro rest hr hm
      exact hr (by simpa using h.unique _ _ _ hxid hm)
    have hstay : ∀ {p : Path}, ¬ r.oldPath <+: p → (p, xt.identifier) ∉ ids := by
      intro p hp hm
      exact hp (h.unique _ _ _ hxid hm ▸ List.prefix_rfl)
    rcases hp with ⟨rfl, rfl⟩ | ⟨r1, h1, hm, rfl⟩ | ⟨hm, hp, -⟩ <;>
      rcases hq with ⟨rfl, hid⟩ | ⟨r2, h2, hm', rfl⟩ | ⟨hm', hq, -⟩
    · rfl
    · exact absurd hm' (hself h2)
    · exact absurd hm' (hstay hq)
    · exact absurd (hid ▸ hm) (hself h1)
    · rw [List.append_cancel_left (h.unique _ _ _ hm hm')]
    · exact absurd (h.unique _ _ _ hm hm' ▸ List.prefix_append _ _) hq
    · exact absurd (hid ▸ hm) (hstay hp)
    · exact absurd (h.unique _ _ _ hm' hm ▸ List.prefix_append _ _) hp
    · exact h.unique _ _ _ hm hm'
  · intro p id hp
    rcases (hf.mem_shift hdi).mp hp with ⟨-, rfl⟩ | ⟨rest, -, hm, -⟩ | ⟨hm, -⟩
    · exact h.issued _ _ hxid
    · exact h.issued _ _ hm
    · exact h.issued _ _ hm
  · intro jt hj
    obtain ⟨c, hc⟩ := List.mem_iff_getElem?.mp hj
    rw [List.getElem?_mapIdx, Option.map_eq_some_iff] at hc
    obtain ⟨kt, hk, rfl⟩ := hc
    obtain ⟨it, hi, hcase⟩ := repointed_lookup.mp hk
    rw [repath_identifier]
    have hle := h.handed it (List.mem_of_getElem? hi)
    rcases hcase with ⟨o, -, -, rfl⟩ | ⟨-, rfl⟩
    · exact hle
    · exact hle

end

end NtfsKit
