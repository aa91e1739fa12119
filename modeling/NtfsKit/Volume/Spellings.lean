import NtfsKit.Volume.Caches
import NtfsKit.Volume.NameCalls

/-! Which item a name gets. Two names of one canonical form share a key, and an item keeps the
spelling it was made with. In every run an identifier belongs to one form, through
the identifiers' dictionary and through the cached items alike, and a cached item's path has
the form it is cached under. Two entries get items of their own when their names differ in
form; that the items name the right files needs the spelling too. -/

namespace NtfsKit

open PathTree

namespace Canonical

variable {T : PathText} {s : Namespace} {d : List (Path × ℕ)} {p q : Path}

/-- The identifier stands for this form: it is the form's, or that of the item cached
under it. -/
def Owns (T : PathText) (s : Namespace) (k : Path) (i : ℕ) : Prop :=
  (∃ p, (p, i) ∈ s.idByPath ∧ T.form p = k) ∨
    ∃ p c it, (p, c) ∈ s.itemByPath ∧ T.form p = k ∧ s.items[c]? = some it ∧ it.identifier = i

/-- Cached items have the form they are cached under, and an identifier stands for one form. -/
structure Keyed (T : PathText) (s : Namespace) : Prop where
  path : ∀ p c, (p, c) ∈ s.itemByPath → ∃ it, s.items[c]? = some it ∧ T.form it.path = T.form p
  owner : ∀ k k' i, Owns T s k i → Owns T s k' i → k = k'
  fresh : ∀ k i, Owns T s k i → i ≤ s.nextID

/-- Fewer entries. -/
theorem Keyed.shrink (h : Keyed T s) {t : Namespace} (hi : t.items = s.items)
    (hb : ∀ e ∈ t.itemByPath, e ∈ s.itemByPath) (hd : ∀ e ∈ t.idByPath, e ∈ s.idByPath)
    (hn : t.nextID = s.nextID) : Keyed T t := by
  have hsub : ∀ k i, Owns T t k i → Owns T s k i := by
    rintro k i (⟨p, hp, hk⟩ | ⟨p, c, it, hp, hk, hc, hid⟩)
    · exact .inl ⟨p, hd _ hp, hk⟩
    · exact .inr ⟨p, c, it, hb _ hp, hk, hi ▸ hc, hid⟩
  refine ⟨fun p c hp => ?_, fun k k' i hk hk' => ?_, fun k i hk => ?_⟩
  · rw [hi]
    exact h.path p c (hb _ hp)
  · exact h.owner k k' i (hsub k i hk) (hsub k' i hk')
  · rw [hn]
    exact h.fresh k i (hsub k i hk)

/-! ### Handing out -/

variable (T) in
/-- The path has this identifier from now on. -/
theorem find_idFor (path : Path) (s : Namespace) :
    T.find (s.idFor T path).2.idByPath path = some (s.idFor T path).1 := by
  unfold Namespace.idFor
  cases hf : T.find s.idByPath path with
  | some i => exact hf
  | none => exact PathText.find_set_self

theorem Owns.of_find {i : ℕ} (h : T.find s.idByPath p = some i) :
    Owns T s (T.form p) i := by
  obtain ⟨q, hq, heq⟩ := EquivDict.mem_of_find h
  exact .inl ⟨q, hq, heq⟩

theorem Keyed.idFor (h : Keyed T s) (path : Path) : Keyed T (s.idFor T path).2 := by
  unfold Namespace.idFor
  cases hf : T.find s.idByPath path with
  | some i => exact h
  | none =>
    -- what owns an identifier now owned it before, or it is the new one
    have hnew : ∀ k i, Owns T { s with
        nextID := s.nextID + 1
        idByPath := T.set s.idByPath path (s.nextID + 1) } k i →
        Owns T s k i ∨ (k = T.form path ∧ i = s.nextID + 1) := by
      rintro k i (⟨p, hp, rfl⟩ | hitem)
      · rcases EquivDict.mem_set hp with ⟨hk, hi⟩ | hp
        · exact .inr ⟨hk, hi⟩
        · exact .inl (.inl ⟨p, hp, rfl⟩)
      · exact .inl (.inr hitem)
    refine ⟨h.path, fun k k' i hk hk' => ?_, fun k i hk => ?_⟩
    · rcases hnew k i hk with hk | ⟨rfl, hi⟩ <;> rcases hnew k' i hk' with hk' | ⟨rfl, hi'⟩
      · exact h.owner k k' i hk hk'
      · have := h.fresh k i hk
        omega
      · have := h.fresh k' i hk'
        omega
      · rfl
    · change i ≤ s.nextID + 1
      rcases hnew k i hk with hk | ⟨-, hi⟩
      · have := h.fresh k i hk
        omega
      · omega

theorem Keyed.itemFor (h : Keyed T s) (path : Path) (kind : Kind) (i : ℕ) :
    Keyed T (s.itemFor T path kind i).2 := by
  unfold Namespace.itemFor
  cases hf : T.find s.itemByPath path with
  | some c => exact h
  | none =>
    simp only
    have hk := h.idFor path
    have hown := Owns.of_find (find_idFor T path s)
    set r := s.idFor T path
    set it : Item := ⟨path, kind, r.1, i, false⟩
    have hkeep : ∀ {c jt}, r.2.items[c]? = some jt → (r.2.items ++ [it])[c]? = some jt :=
      fun hc => List.getElem?_append_left (List.getElem?_eq_some_iff.mp hc).1 ▸ hc
    have hback : ∀ {p c jt}, (p, c) ∈ r.2.itemByPath → (r.2.items ++ [it])[c]? = some jt →
        r.2.items[c]? = some jt := by
      intro p c jt hp hc
      obtain ⟨jt', hc', -⟩ := hk.path p c hp
      rw [hkeep hc'] at hc
      rw [hc', hc]
    have hsub : ∀ k j, Owns T { r.2 with
        items := r.2.items ++ [it]
        itemByPath := T.set r.2.itemByPath path r.2.items.length } k j →
        Owns T r.2 k j := by
      rintro k j (hid | ⟨p, c, jt, hp, rfl, hc, rfl⟩)
      · exact .inl hid
      · rcases EquivDict.mem_set hp with ⟨hform, rfl⟩ | hp
        · obtain rfl : it = jt := by simpa using hc
          rw [hform]
          exact hown
        · exact .inr ⟨p, c, jt, hp, rfl, hback hp hc, rfl⟩
    refine ⟨fun p c hp => ?_, fun k k' j h1 h2 => hk.owner k k' j (hsub k j h1) (hsub k' j h2),
      fun k j h1 => hk.fresh k j (hsub k j h1)⟩
    rcases EquivDict.mem_set hp with ⟨hform, rfl⟩ | hp
    · exact ⟨it, by simp, hform.symm⟩
    · obtain ⟨jt, hc, hpath⟩ := hk.path p c hp
      exact ⟨jt, hkeep hc, hpath⟩

/-! ### Renames -/

/-- The form a key gets when the entries below `old` move under `new`. -/
def carry (T : PathText) (old new q : Path) : Path :=
  if T.Beneath old q then T.form new ++ (T.form q).drop old.length else T.form q

theorem carry_congr {old new : Path} (h : T.form p = T.form q) :
    carry T old new p = carry T old new q := by
  simp only [carry, PathText.beneath_congr h, h]

theorem mem_rekeyBelow {old new : Path} {v : ℕ} (h : (p, v) ∈ T.rekeyBelow old new d) :
    ∃ q, (q, v) ∈ d ∧ T.form p = carry T old new q := by
  rcases EquivDict.mem_setAll h with ⟨e, he, hp, rfl⟩ | hp
  · obtain ⟨⟨q, v⟩, hq, rfl⟩ := List.mem_map.mp he
    obtain ⟨hq, hb⟩ := List.mem_filter.mp hq
    refine ⟨q, hq, ?_⟩
    rw [carry, if_pos (by simpa using hb), hp, PathText.form_append, PathText.form_drop]
  · obtain ⟨hp, hb⟩ := List.mem_filter.mp hp
    exact ⟨p, hp, by rw [carry, if_neg (by simpa using hb)]⟩

theorem mem_evict {r : Rename} {v : ℕ} (h : (q, v) ∈ r.evict T d) :
    (q, v) ∈ d ∧ ∀ o, r.overItem = some o → T.form q ≠ T.form o.path := by
  unfold Rename.evict at h
  cases ho : r.overItem with
  | none =>
    rw [ho] at h
    exact ⟨h, fun o ho => absurd ho (by simp)⟩
  | some o =>
    rw [ho] at h
    obtain ⟨hm, hne⟩ := EquivDict.mem_drop.mp (List.mem_of_mem_filter h)
    refine ⟨hm, fun o' ho' => ?_⟩
    rw [← Option.some.inj ho']
    exact hne

theorem mem_entered {r : Rename} {v w : ℕ} (h : (q, w) ∈ r.entered T d v) :
    (T.form q = T.form r.newPath ∧ w = v) ∨
      ((q, w) ∈ d ∧ T.form q ≠ T.form r.oldPath ∧
        ∀ o, r.overItem = some o → T.form q ≠ T.form o.path) := by
  rcases EquivDict.mem_set h with hnew | hold
  · exact .inl hnew
  · obtain ⟨hold, hne⟩ := EquivDict.mem_drop.mp hold
    obtain ⟨hm, hover⟩ := mem_evict hold
    exact .inr ⟨hm, hne, hover⟩

variable (T) in
/-- The tables after the bookkeeping. -/
theorem rekey_tables (r : Rename) (t : Tree) (s : Namespace) :
    ({ s with tree := t, items := r.repointed s.items }.rekey T r).items =
      (r.repointed s.items).mapIdx (r.repath T (r.entered T s.itemByPath r.item)) ∧
    ({ s with tree := t, items := r.repointed s.items }.rekey T r).itemByPath =
      T.rekeyBelow r.oldPath r.newPath (r.entered T s.itemByPath r.item) ∧
    ({ s with tree := t, items := r.repointed s.items }.rekey T r).idByPath =
      T.rekeyBelow r.oldPath r.newPath (r.entered T s.idByPath
        ((T.find (r.evict T s.idByPath) r.oldPath).getD
          ((((r.repointed s.items)[r.item]?).map Item.identifier).getD 0))) ∧
    ({ s with tree := t, items := r.repointed s.items }.rekey T r).nextID = s.nextID := by
  refine ⟨?_, ?_, ?_, Namespace.mutateNamespace_nextID T _ _⟩
  · simp only [Namespace.rekey, Namespace.mutateNamespace_items, Namespace.mutateNamespace_itemByPath]
  · simp only [Namespace.rekey, Namespace.mutateNamespace_itemByPath]
  · simp only [Namespace.rekey, Namespace.mutateNamespace_items, Namespace.mutateNamespace_idByPath]

/-- A rename of the item cached under its path, not into its own subtree. -/
structure Rekeyed (T : PathText) (r : Rename) (s : Namespace) : Prop where
  item : ∃ p, (p, r.item) ∈ s.itemByPath ∧ T.form p = T.form r.oldPath
  out : ¬ T.Beneath r.oldPath r.newPath
  victim : ∀ o, r.overItem = some o → o.path = s.pathOf o.item

section

variable {r : Rename} (h : Keyed T s) (hr : Rekeyed T r s)
include h hr

/-- An entry of an object below the old path is an old one, so it has the object's form. -/
theorem Keyed.entered_below {c : ℕ} {it : Item} (hi : s.items[c]? = some it)
    (hq : (q, c) ∈ r.entered T s.itemByPath r.item) (hb : T.Beneath r.oldPath q) :
    T.form it.path = T.form q ∧ T.form q ≠ T.form r.oldPath := by
  rcases mem_entered hq with ⟨hnew, -⟩ | ⟨hm, hne, -⟩
  · exact absurd ((PathText.beneath_congr hnew).mp hb) hr.out
  · obtain ⟨it', hi', hpath⟩ := h.path _ _ hm
    rw [hi] at hi'
    exact ⟨Option.some.inj hi' ▸ hpath, hne⟩

/-- The renamed item, and whatever is not below it, is not moved as an item below it. -/
theorem Keyed.not_carried {c : ℕ} {it : Item} (hi : s.items[c]? = some it)
    (hout : ¬ T.Beneath r.oldPath it.path ∨ c = r.item) :
    (r.entered T s.itemByPath r.item).find? (fun e => e.2 = c ∧ T.Beneath r.oldPath e.1) =
      none := by
  rw [List.find?_eq_none]
  rintro ⟨e, c'⟩ he hsat
  obtain ⟨rfl, hb⟩ : c' = c ∧ T.Beneath r.oldPath e := by simpa using hsat
  obtain ⟨hpath, hne⟩ := h.entered_below hr hi he hb
  rcases hout with hout | rfl
  · exact hout ((PathText.beneath_congr hpath).mpr hb)
  · obtain ⟨p₀, hp₀, hform₀⟩ := hr.item
    obtain ⟨xt, hx, hxpath⟩ := h.path _ _ hp₀
    rw [hx] at hi
    obtain rfl := Option.some.inj hi
    exact hne (hpath.symm.trans (hxpath.trans hform₀))

/-- A cached item has the form it is cached under after the bookkeeping. -/
theorem Keyed.repathed {c : ℕ} (hq : (q, c) ∈ r.entered T s.itemByPath r.item) :
    ∃ it, s.items[c]? = some it ∧ ∃ jt, ((r.repointed s.items).mapIdx
        (r.repath T (r.entered T s.itemByPath r.item)))[c]? = some jt ∧
      jt.identifier = it.identifier ∧
      T.form jt.path = carry T r.oldPath r.newPath q := by
  obtain ⟨p₀, hp₀, hform₀⟩ := hr.item
  obtain ⟨xt, hx, hxpath⟩ := h.path _ _ hp₀
  have hat : ∀ {it : Item}, s.items[c]? = some it → ∃ kt, ((r.repointed s.items).mapIdx
        (r.repath T (r.entered T s.itemByPath r.item)))[c]? =
          some (r.repath T (r.entered T s.itemByPath r.item) c kt) ∧
        kt.identifier = it.identifier ∧
        ((∀ o, r.overItem = some o → c ≠ o.item) → kt = it) := by
    intro it hi
    obtain ⟨kt, hk, hid, hsame⟩ := repointed_record (r := r) hi
    exact ⟨kt, by rw [List.getElem?_mapIdx, hk, Option.map_some], hid, hsame⟩
  rcases mem_entered hq with ⟨hnew, rfl⟩ | ⟨hm, hne, hover⟩
  · obtain ⟨kt, hj, hid, -⟩ := hat hx
    refine ⟨xt, hx, _, hj, (repath_identifier _ _ _ _).trans hid, ?_⟩
    rw [carry, if_neg fun hb => hr.out ((PathText.beneath_congr hnew).mp hb), hnew, Rename.repath,
      h.not_carried hr hx (.inr rfl)]
    simp
  · obtain ⟨it, hi, hpath⟩ := h.path _ _ hm
    obtain ⟨kt, hj, hid, hsame⟩ := hat hi
    refine ⟨it, hi, _, hj, (repath_identifier _ _ _ _).trans hid, ?_⟩
    have hitem : c ≠ r.item := by
      rintro rfl
      rw [hx] at hi
      obtain rfl := Option.some.inj hi
      exact hne (hpath.symm.trans (hxpath.trans hform₀))
    have hvictim : ∀ o, r.overItem = some o → c ≠ o.item := by
      rintro o ho rfl
      refine hover o ho (hpath.symm.trans ?_)
      rw [hr.victim o ho, Namespace.pathOf, hi]
      rfl
    by_cases hb : T.Beneath r.oldPath q
    · have hsome : ((r.entered T s.itemByPath r.item).find?
          fun e => e.2 = c ∧ T.Beneath r.oldPath e.1).isSome := by
        rw [List.find?_isSome]
        exact ⟨(q, c), hq, by simp [hb]⟩
      obtain ⟨⟨e, c'⟩, hf⟩ := Option.isSome_iff_exists.mp hsome
      obtain ⟨rfl, hbe⟩ : c' = c ∧ T.Beneath r.oldPath e := by simpa using List.find?_some hf
      obtain ⟨hform, -⟩ := h.entered_below hr hi (List.mem_of_find?_eq_some hf) hbe
      rw [Rename.repath, hf, carry, if_pos hb, PathText.form_append, PathText.form_drop, ← hform, hpath]
    · have hout : ¬ T.Beneath r.oldPath it.path := fun hb' => hb ((PathText.beneath_congr hpath).mp hb')
      rw [Rename.repath, h.not_carried hr hi (.inl hout), carry, if_neg hb]
      simp only [if_neg hitem]
      rw [hsame hvictim, hpath]

/-- The renamed item's identifier, and the one its path has, stand for its path. -/
theorem Keyed.owns_moved : Owns T s (T.form r.oldPath)
    ((T.find (r.evict T s.idByPath) r.oldPath).getD
      ((((r.repointed s.items)[r.item]?).map Item.identifier).getD 0)) := by
  obtain ⟨p, hp, hform⟩ := hr.item
  obtain ⟨xt, hx, -⟩ := h.path _ _ hp
  cases hf : T.find (r.evict T s.idByPath) r.oldPath with
  | some j =>
    obtain ⟨q, hq, heq⟩ := EquivDict.mem_of_find hf
    exact .inl ⟨q, (mem_evict hq).1, heq⟩
  | none =>
    obtain ⟨kt, hk, hid, -⟩ := repointed_record (r := r) hx
    refine .inr ⟨p, r.item, xt, hp, hform, hx, ?_⟩
    rw [hk, ← hid]
    rfl

/-- The bookkeeping of a rename keeps the invariant. -/
theorem Keyed.rekey (t : Tree) :
    Keyed T ({ s with tree := t, items := r.repointed s.items }.rekey T r) := by
  obtain ⟨hitems, hby, hids, hnext⟩ := rekey_tables T r t s
  have hmoved := h.owns_moved hr
  set u := { s with tree := t, items := r.repointed s.items }.rekey T r
  set movedID := (T.find (r.evict T s.idByPath) r.oldPath).getD
    ((((r.repointed s.items)[r.item]?).map Item.identifier).getD 0)
  -- an identifier goes where its form goes
  let goes (q : Path) : Path :=
    if T.form q = T.form r.oldPath then T.form r.newPath
    else carry T r.oldPath r.newPath q
  have hgoes : ∀ {q q' : Path}, T.form q = T.form q' → goes q = goes q' := by
    intro q q' heq
    simp only [goes, heq, carry_congr heq]
  have hcase : ∀ {d : List (Path × ℕ)} {v w : ℕ} {q : Path}, (q, w) ∈ r.entered T d v →
      (carry T r.oldPath r.newPath q = goes r.oldPath ∧ w = v) ∨
        ((q, w) ∈ d ∧ carry T r.oldPath r.newPath q = goes q) := by
    intro d v w q hq
    rcases mem_entered hq with ⟨hnew, rfl⟩ | ⟨hm, hne, -⟩
    · refine .inl ⟨?_, rfl⟩
      rw [carry, if_neg fun hb => hr.out ((PathText.beneath_congr hnew).mp hb), hnew]
      exact (if_pos rfl).symm
    · exact .inr ⟨hm, (if_neg hne).symm⟩
  have hback : ∀ k i, Owns T u k i → ∃ q, Owns T s (T.form q) i ∧ k = goes q := by
    rintro k i (⟨p, hp, rfl⟩ | ⟨p, c, jt, hp, rfl, hc, rfl⟩)
    · rw [hids] at hp
      obtain ⟨q, hq, heq⟩ := mem_rekeyBelow hp
      rcases hcase hq with ⟨hgo, rfl⟩ | ⟨hm, hgo⟩
      · exact ⟨r.oldPath, hmoved, heq.trans hgo⟩
      · exact ⟨q, .inl ⟨q, hm, rfl⟩, heq.trans hgo⟩
    · rw [hby] at hp
      obtain ⟨q, hq, heq⟩ := mem_rekeyBelow hp
      obtain ⟨it, hi, jt', hj, hid, -⟩ := h.repathed hr hq
      rw [hitems, hj] at hc
      rw [← Option.some.inj hc, hid]
      rcases hcase hq with ⟨hgo, rfl⟩ | ⟨hm, hgo⟩
      · obtain ⟨p₀, hp₀, hform⟩ := hr.item
        exact ⟨r.oldPath, .inr ⟨p₀, r.item, it, hp₀, hform, hi, rfl⟩, heq.trans hgo⟩
      · exact ⟨q, .inr ⟨q, c, it, hm, rfl, hi, rfl⟩, heq.trans hgo⟩
  refine ⟨fun p c hp => ?_, fun k k' i hk hk' => ?_, fun k i hk => ?_⟩
  · rw [hby] at hp
    obtain ⟨q, hq, heq⟩ := mem_rekeyBelow hp
    obtain ⟨it, -, jt, hj, -, hpath⟩ := h.repathed hr hq
    exact ⟨jt, by rw [hitems]; exact hj, hpath.trans heq.symm⟩
  · obtain ⟨q, hq, rfl⟩ := hback k i hk
    obtain ⟨q', hq', rfl⟩ := hback k' i hk'
    exact hgoes (h.owner _ _ i hq hq')
  · obtain ⟨q, hq, -⟩ := hback k i hk
    rw [hnext]
    exact h.fresh _ i hq

end

/-! ### Runs -/

/-- The kernel renames the item that is cached under its path, and never the root. -/
def Allowed (T : PathText) (s : Namespace) : NameCall → Prop
  | .renameItem a => s.pathOf a.item ≠ [] ∧
      T.find s.itemByPath (s.pathOf a.item) = some a.item
  | _ => True

instance (s : Namespace) : ∀ e : NameCall, Decidable (Allowed T s e)
  | .renameItem a => inferInstanceAs (Decidable (s.pathOf a.item ≠ [] ∧
      T.find s.itemByPath (s.pathOf a.item) = some a.item))
  | .lookupItem _ _ | .createItem _ _ _ _ _ | .createSymbolicLink _ _ _ | .removeItem _ _
  | .reclaimItem _ | .seed _ => inferInstanceAs (Decidable True)

theorem Keyed.withTree (h : Keyed T s) (t : Tree) (b : ℕ) :
    Keyed T { s with tree := t, nextInode := b } :=
  h.shrink rfl (fun _ he => he) (fun _ he => he) rfl

theorem Keyed.mutated (h : Keyed T s) (dirs : List Path) :
    Keyed T (s.mutateNamespace T dirs) := by
  refine h.shrink ?_ ?_ ?_ ?_ <;> simp

theorem Keyed.bury (h : Keyed T s) (x : ℕ) : Keyed T (s.bury x) := by
  have hrec : ∀ {c : ℕ} {jt : Item}, (s.bury x).items[c]? = some jt → ∃ it, s.items[c]? = some it ∧
      jt.path = it.path ∧ jt.identifier = it.identifier := by
    intro c jt hc
    obtain ⟨it, hi, rfl⟩ := lookup_modify.mp hc
    exact ⟨it, hi, by split_ifs <;> rfl, by split_ifs <;> rfl⟩
  have hsub : ∀ k i, Owns T (s.bury x) k i → Owns T s k i := by
    rintro k i (hid | ⟨p, c, jt, hp, hk, hc, hid⟩)
    · exact .inl hid
    · obtain ⟨it, hi, -, heq⟩ := hrec hc
      exact .inr ⟨p, c, it, hp, hk, hi, heq ▸ hid⟩
  refine ⟨fun p c hp => ?_, fun k k' i hk hk' => h.owner k k' i (hsub k i hk) (hsub k' i hk'),
    fun k i hk => h.fresh k i (hsub k i hk)⟩
  obtain ⟨it, hi, hpath⟩ := h.path p c hp
  refine ⟨_, lookup_modify.mpr ⟨it, hi, rfl⟩, ?_⟩
  split_ifs <;> exact hpath

theorem Keyed.lookupItem (h : Keyed T s) (dir : ℕ) (name : Name) :
    Keyed T (s.lookupItem T treeEngine dir name).2 := by
  unfold Namespace.lookupItem
  extract_lets path calls
  cases treeEngine.stat s.tree path with
  | none => exact h
  | some i => exact h.itemFor path i.kind i.number

theorem Keyed.create (h : Keyed T s) (dir : ℕ) (name : Name) (kind : Kind) (made closed : Bool) :
    Keyed T (s.create T dir name kind made closed).2 := by
  unfold Namespace.create
  split_ifs with hro
  · exact h
  extract_lets dirPath calls c t childPath r
  have ht : Keyed T t := h.withTree c.2 (s.nextInode + 1)
  split_ifs with hfail
  · exact ht
  · exact (ht.mutated [dirPath, childPath]).itemFor childPath kind s.nextInode

theorem Keyed.removeItem (h : Keyed T s) (x : ℕ) (ok : Bool) : Keyed T (s.removeItem T x ok).2 := by
  unfold Namespace.removeItem
  split_ifs with hro
  · exact h
  extract_lets path calls d t
  split_ifs with hfail
  · exact h.withTree d.2 s.nextInode
  · have ht : Keyed T t := (h.withTree d.2 s.nextInode).mutated [path.dropLast, path]
    refine Keyed.bury ?_ x
    exact ht.shrink rfl (fun _ he => List.mem_of_mem_filter he) (fun _ he => List.mem_of_mem_filter he)
      rfl

theorem Keyed.reclaimItem (h : Keyed T s) (x : ℕ) : Keyed T (s.reclaimItem T x).2 := by
  unfold Namespace.reclaimItem
  extract_lets path
  refine Keyed.bury ?_ x
  split_ifs with hf
  · exact h.shrink rfl (fun _ he => List.mem_of_mem_filter he) (fun _ he => he) rfl
  · exact h

/-- What the checks let through is not a rename into the item's own subtree. -/
theorem Allowed.rekeyed {a : RenameCall} (hok : Allowed T s (.renameItem a))
    (hacc : a.Accepted T treeEngine s) : Rekeyed T (a.rename s) s := by
  refine ⟨EquivDict.mem_of_find hok.2, fun hb => hacc.2.1 hb.of_concat, ?_⟩
  intro o ho
  obtain ⟨c, -, rfl⟩ := Option.map_eq_some_iff.mp ho
  rfl

theorem Keyed.renameItem (h : Keyed T s) (hidle : s.pending = none) {a : RenameCall}
    (hok : Allowed T s (.renameItem a)) : Keyed T (s.renameCall T treeEngine a).final := by
  have hend := renameCall_ending T treeEngine a hidle
  generalize (s.renameCall T treeEngine a).result = res at hend
  generalize (s.renameCall T treeEngine a).final = t at hend ⊢
  cases hend with
  | refused => exact h
  | unparked | kept | givenBack => exact h.withTree _ _
  | moved hacc ho _ =>
    have hrekey := h.rekey (hok.rekeyed hacc)
    rw [Rename.repointed, ho] at hrekey
    exact hrekey _
  | replaced hacc _ _ _ => exact h.rekey (hok.rekeyed hacc) _

theorem Keyed.step (h : Keyed T s) (hidle : s.pending = none) {e : NameCall}
    (hok : Allowed T s e) : Keyed T (s.nameStep T e).2 := by
  cases e with
  | lookupItem dir name => exact h.lookupItem dir name
  | createItem dir name kind made closed =>
    simp only [Namespace.nameStep, Namespace.createItem, Prod.map_snd, id_eq]
    split_ifs
    · exact h
    · exact h.create dir name kind made closed
  | createSymbolicLink dir name made => exact h.create dir name .symlink made true
  | removeItem x ok => exact h.removeItem x ok
  | reclaimItem x => exact h.reclaimItem x
  | renameItem a => exact h.renameItem hidle hok
  | seed path => exact h.idFor path

theorem mounted_keyed (T : PathText) (readOnly : Bool) (t : Tree) (b root : ℕ) :
    Keyed T (.mounted readOnly t b root) := by
  have hown : ∀ k i, Owns T (.mounted readOnly t b root) k i → k = [] ∧ i = 2 := by
    rintro k i (⟨p, hp, rfl⟩ | ⟨p, c, it, hp, rfl, hc, rfl⟩)
    · obtain ⟨rfl, rfl⟩ : p = [] ∧ i = 2 := by simpa [Namespace.mounted] using hp
      exact ⟨rfl, rfl⟩
    · obtain ⟨rfl, rfl⟩ : p = [] ∧ c = 0 := by simpa [Namespace.mounted] using hp
      obtain rfl : (⟨[], .directory, 2, root, false⟩ : Item) = it := by
        simpa [Namespace.mounted] using hc
      exact ⟨rfl, rfl⟩
  refine ⟨fun p c hp => ?_, fun k k' i hk hk' => ?_, fun k i hk => ?_⟩
  · obtain ⟨rfl, rfl⟩ : p = [] ∧ c = 0 := by simpa [Namespace.mounted] using hp
    exact ⟨_, rfl, rfl⟩
  · rw [(hown k i hk).1, (hown k' i hk').1]
  · rw [(hown k i hk).2]
    simp [Namespace.mounted]

/-! ### Two entries -/

/-- `lookupItem` of `name₁` and then of `name₂` gives two items with identifiers of their own
that name `i₁` and `i₂`, and whatever an enumeration packs, the two paths get identifiers of
their own. -/
def Separate (T : PathText) (s : Namespace) (dir : ℕ) (name₁ name₂ : Name) (i₁ i₂ : ℕ) :
    Prop :=
  let first := s.lookupItem T treeEngine dir name₁
  let second := first.2.lookupItem T treeEngine dir name₂
  (∃ c₁ c₂ it₁ it₂, first.1.result = some (.ok (some c₁)) ∧
    second.1.result = some (.ok (some c₂)) ∧ c₁ ≠ c₂ ∧
    second.2.items[c₁]? = some it₁ ∧ second.2.items[c₂]? = some it₂ ∧
    it₁.identifier ≠ it₂.identifier ∧
    s.tree.inodeAt it₁.path = some i₁ ∧ s.tree.inodeAt it₂.path = some i₂) ∧
  ∀ (paths : List Path) (j k : ℕ), paths[j]? = some (s.pathOf dir ++ [name₁]) →
    paths[k]? = some (s.pathOf dir ++ [name₂]) →
    (s.packIDs T paths).1[j]? ≠ (s.packIDs T paths).1[k]?

/-- An item cached under the path, in whatever spelling, names this file. -/
def Names (T : PathText) (s : Namespace) (path : Path) (i : ℕ) : Prop :=
  ∀ c ∈ T.find s.itemByPath path, s.tree.inodeAt (s.pathOf c) = some i

instance (s : Namespace) (path : Path) (i : ℕ) : Decidable (Names T s path i) :=
  inferInstanceAs (Decidable (∀ c ∈ T.find s.itemByPath path,
    s.tree.inodeAt (s.pathOf c) = some i))

/-- What a lookup that finds its name does. -/
structure Found (T : PathText) (s : Namespace) (path : Path) (c : ℕ) (t : Namespace) :
    Prop where
  keyed : Keyed T t
  tree : t.tree = s.tree
  cached : T.find t.itemByPath path = some c
  others : ∀ q, T.form q ≠ T.form path →
    T.find t.itemByPath q = T.find s.itemByPath q
  items : ∀ (x : ℕ) (it : Item), s.items[x]? = some it → t.items[x]? = some it
  /-- The item was cached, or is a new one with this very path. -/
  given : T.find s.itemByPath path = some c ∨
    (T.find s.itemByPath path = none ∧ t.pathOf c = path)

theorem found_itemFor (h : Keyed T s) (path : Path) (kind : Kind) (i : ℕ) :
    Found T s path (s.itemFor T path kind i).1 (s.itemFor T path kind i).2 := by
  have hkeyed := h.itemFor path kind i
  unfold Namespace.itemFor at hkeyed ⊢
  cases hf : T.find s.itemByPath path with
  | some c => exact ⟨h, rfl, hf, fun q _ => rfl, fun x it hx => hx, .inl hf⟩
  | none =>
    simp only [hf] at hkeyed ⊢
    refine ⟨hkeyed, Namespace.idFor_tree T path s, ?_, fun q hq => ?_, fun x it hx => ?_, .inr ⟨hf, ?_⟩⟩
    · exact PathText.find_set_self
    · exact (PathText.find_set_of_ne hq).trans (by rw [Namespace.idFor_itemByPath])
    · rw [← Namespace.idFor_items T path s] at hx
      exact List.getElem?_append_left (List.getElem?_eq_some_iff.mp hx).1 ▸ hx
    · simp [Namespace.pathOf]

theorem found_lookupItem (h : Keyed T s) {dir : ℕ} {name : Name} {i : Inode}
    (hn : node s.tree (s.pathOf dir ++ [name]) = some i) :
    ∃ c, (s.lookupItem T treeEngine dir name).1.result = some (.ok (some c)) ∧
      Found T s (s.pathOf dir ++ [name]) c (s.lookupItem T treeEngine dir name).2 := by
  unfold Namespace.lookupItem
  simp only [treeEngine_stat, hn]
  exact ⟨_, rfl, found_itemFor h _ _ _⟩

theorem Found.record {t : Namespace} {c : ℕ} (hf : Found T s p c t) :
    ∃ it, t.items[c]? = some it ∧ T.form it.path = T.form p ∧
      Owns T t (T.form p) it.identifier := by
  obtain ⟨q, hq, heq⟩ := EquivDict.mem_of_find hf.cached
  obtain ⟨it, hi, hpath⟩ := hf.keyed.path q c hq
  exact ⟨it, hi, hpath.trans heq, .inr ⟨q, c, it, hq, heq, hi, rfl⟩⟩

theorem pathOf_eq {x : ℕ} {it : Item} (h : s.items[x]? = some it) : s.pathOf x = it.path := by
  rw [Namespace.pathOf, h]
  rfl

theorem Found.pathOf {t : Namespace} {c x : ℕ} (hf : Found T s p c t)
    (hx : x < s.items.length) : t.pathOf x = s.pathOf x := by
  have hi := List.getElem?_eq_getElem hx
  rw [pathOf_eq hi, pathOf_eq (hf.items _ _ hi)]

/-- The item handed out names the file if every item cached under the path does. -/
theorem Found.names_iff {t : Namespace} {c i : ℕ} (h : Keyed T s) (hf : Found T s p c t)
    (hp : s.tree.inodeAt p = some i) :
    s.tree.inodeAt (t.pathOf c) = some i ↔ Names T s p i := by
  rcases hf.given with hc | ⟨hnone, hpath⟩
  · obtain ⟨q, hq, -⟩ := EquivDict.mem_of_find hc
    obtain ⟨it, hi, -⟩ := h.path q c hq
    rw [pathOf_eq (hf.items _ _ hi), ← pathOf_eq hi]
    constructor
    · intro hname c' hc'
      rw [hc] at hc'
      rwa [← Option.some.inj hc']
    · exact fun hname => hname c hc
  · rw [hpath]
    refine ⟨fun _ c' hc' => ?_, fun _ => hp⟩
    rw [hnone] at hc'
    cases hc'

/-- A path keeps its identifier. -/
theorem find_idFor_keeps {i : ℕ} (hf : T.find s.idByPath p = some i) (q : Path) :
    T.find (s.idFor T q).2.idByPath p = some i := by
  unfold Namespace.idFor
  cases hq : T.find s.idByPath q with
  | some j => exact hf
  | none =>
    refine (PathText.find_set_of_ne fun heq => ?_).trans hf
    rw [PathText.find_congr heq, hq] at hf
    cases hf

theorem find_packIDs_keeps {i : ℕ} (paths : List Path)
    (hf : T.find s.idByPath p = some i) :
    T.find (s.packIDs T paths).2.idByPath p = some i := by
  induction paths generalizing s with
  | nil => exact hf
  | cons q paths ih => exact ih (find_idFor_keeps hf q)

/-- Every packed path has the identifier it was packed with. -/
theorem packIDs_spec (h : Keyed T s) (paths : List Path) :
    Keyed T (s.packIDs T paths).2 ∧ ∀ (j : ℕ) (p : Path), paths[j]? = some p → ∃ i,
      (s.packIDs T paths).1[j]? = some i ∧
      T.find (s.packIDs T paths).2.idByPath p = some i := by
  induction paths generalizing s with
  | nil => exact ⟨h, fun j p hj => absurd hj (by simp)⟩
  | cons q paths ih =>
    obtain ⟨hkeyed, hrest⟩ := ih (h.idFor q)
    refine ⟨hkeyed, fun j p hj => ?_⟩
    cases j with
    | zero =>
      obtain rfl : q = p := by simpa using hj
      exact ⟨_, rfl, find_packIDs_keeps paths (find_idFor T q s)⟩
    | succ j => exact hrest j p (by simpa using hj)

end Canonical

open Canonical in
/-- In every run, two entries of a directory that name different files get items of their
own that name them, and identifiers of their own, if and only if their names differ in
canonical form and no item is cached under another spelling of one of them that names
another file. -/
theorem entries_separate_iff {T : PathText} {readOnly : Bool} {t : Tree} {b root : ℕ}
    {s : Namespace} (hrun : Run (Namespace.nameStep T) (fun s e _ => Canonical.Allowed T s e)
      (.mounted readOnly t b root) s) {dir : ℕ} (hdir : dir < s.items.length)
    {name₁ name₂ : Name} {i₁ i₂ : ℕ}
    (h₁ : s.tree.inodeAt (s.pathOf dir ++ [name₁]) = some i₁)
    (h₂ : s.tree.inodeAt (s.pathOf dir ++ [name₂]) = some i₂) :
    Separate T s dir name₁ name₂ i₁ i₂ ↔ T.canon name₁ ≠ T.canon name₂ ∧
      Canonical.Names T s (s.pathOf dir ++ [name₁]) i₁ ∧
      Canonical.Names T s (s.pathOf dir ++ [name₂]) i₂ := by
  have hstep : ∀ (s : Namespace) (e : NameCall), Keyed T s ∧ s.pending = none → Allowed T s e →
      Keyed T (s.nameStep T e).2 ∧ (s.nameStep T e).2.pending = none :=
    fun s e h hok => ⟨h.1.step h.2 hok, Namespace.nameStep_pending h.2 e⟩
  obtain ⟨h, -⟩ := Run.invariant hstep hrun ⟨mounted_keyed T readOnly t b root, rfl⟩
  obtain ⟨j₁, hj₁, -⟩ := Tree.inodeAt_eq_some.mp h₁
  obtain ⟨j₂, hj₂, -⟩ := Tree.inodeAt_eq_some.mp h₂
  obtain ⟨c₁, hfirst, hf₁⟩ := found_lookupItem h hj₁
  have hpath : (s.lookupItem T treeEngine dir name₁).2.pathOf dir = s.pathOf dir := hf₁.pathOf hdir
  rw [← hpath, ← hf₁.tree] at hj₂
  obtain ⟨c₂, hsecond, hf₂⟩ := found_lookupItem hf₁.keyed hj₂
  rw [hpath] at hf₂
  obtain ⟨it₁, hit₁, hform₁, -⟩ := hf₁.record
  obtain ⟨it₂, hit₂, hform₂, hown₂⟩ := hf₂.record
  have hit₁' := hf₂.items _ _ hit₁
  have hnames₁ := hf₁.names_iff h h₁
  rw [pathOf_eq hit₁] at hnames₁
  have hnames₂ : T.canon name₁ ≠ T.canon name₂ →
      (s.tree.inodeAt it₂.path = some i₂ ↔
        Canonical.Names T s (s.pathOf dir ++ [name₂]) i₂) := by
    intro hne
    have hsame : Canonical.Names T (s.lookupItem T treeEngine dir name₁).2
        (s.pathOf dir ++ [name₂]) i₂ ↔ Canonical.Names T s (s.pathOf dir ++ [name₂]) i₂ := by
      have hother := hf₁.others _ fun heq => hne (PathText.form_concat_inj.mp heq).symm
      unfold Canonical.Names
      rw [hother, hf₁.tree]
      refine forall₂_congr fun c hc => ?_
      obtain ⟨q, hq, -⟩ := EquivDict.mem_of_find hc
      obtain ⟨it, hi, -⟩ := h.path q c hq
      rw [pathOf_eq (hf₁.items _ _ hi), pathOf_eq hi]
    have := hf₂.names_iff hf₁.keyed (hf₁.tree ▸ h₂)
    rw [pathOf_eq hit₂, hsame, hf₁.tree] at this
    exact this
  constructor
  · rintro ⟨⟨d₁, d₂, kt₁, kt₂, hd₁, hd₂, hne, hk₁, hk₂, -, hr₁, hr₂⟩, -⟩
    obtain rfl : c₁ = d₁ := by simpa using hfirst.symm.trans hd₁
    obtain rfl : c₂ = d₂ := by simpa using hsecond.symm.trans hd₂
    obtain rfl : it₁ = kt₁ := Option.some.inj (hit₁'.symm.trans hk₁)
    obtain rfl : it₂ = kt₂ := Option.some.inj (hit₂.symm.trans hk₂)
    have hcanon : T.canon name₁ ≠ T.canon name₂ := by
      intro heq
      rcases hf₂.given with hc | ⟨hnone, -⟩
      · rw [PathText.find_congr (PathText.form_concat_inj.mpr heq.symm), hf₁.cached] at hc
        exact hne (Option.some.inj hc)
      · rw [PathText.find_congr (PathText.form_concat_inj.mpr heq.symm), hf₁.cached] at hnone
        cases hnone
    exact ⟨hcanon, hnames₁.mp hr₁, (hnames₂ hcanon).mp hr₂⟩
  · rintro ⟨hcanon, hn₁, hn₂⟩
    have hforms : T.form (s.pathOf dir ++ [name₁]) ≠ T.form (s.pathOf dir ++ [name₂]) :=
      fun heq => hcanon (PathText.form_concat_inj.mp heq)
    have hown₁ : Owns T ((s.lookupItem T treeEngine dir name₁).2.lookupItem T treeEngine dir name₂).2
        (T.form (s.pathOf dir ++ [name₁])) it₁.identifier := by
      have hc := (hf₂.others _ hforms).trans hf₁.cached
      obtain ⟨q, hq, heq⟩ := EquivDict.mem_of_find hc
      exact .inr ⟨q, c₁, it₁, hq, heq, hit₁', rfl⟩
    refine ⟨⟨c₁, c₂, it₁, it₂, hfirst, hsecond, ?_, hit₁', hit₂, ?_, hnames₁.mpr hn₁,
      (hnames₂ hcanon).mpr hn₂⟩, ?_⟩
    · rintro rfl
      obtain rfl : it₁ = it₂ := Option.some.inj (hit₁'.symm.trans hit₂)
      exact hforms (hform₁.symm.trans hform₂)
    · intro heq
      exact hforms (hf₂.keyed.owner _ _ _ hown₁ (heq ▸ hown₂))
    · intro paths j k hj hk heq
      obtain ⟨hkeyed, hpack⟩ := packIDs_spec h paths
      obtain ⟨a, ha, hfa⟩ := hpack j _ hj
      obtain ⟨b, hb, hfb⟩ := hpack k _ hk
      obtain rfl : a = b := Option.some.inj (ha.symm.trans (heq.trans hb))
      exact hforms (hkeyed.owner _ _ _ (.of_find hfa) (.of_find hfb))

/-- Files with an accent in either form, and a third one. -/
def accents : Namespace :=
  .mounted false [([], ⟨5, .directory⟩), ([.plain "\u00e9"], ⟨70, .file⟩),
    ([.plain "e\u0301"], ⟨71, .file⟩), ([.plain "f"], ⟨72, .file⟩)] 80 5

/-- The composed name has an item, and `f` an identifier. -/
def accentsSeen : Namespace :=
  execAll (Namespace.nameStep .accented) [.lookupItem 0 (.plain "\u00e9"), .seed [.plain "f"]] accents

theorem entries_separate_iff_seen :
    Canonical.Separate .accented accentsSeen 0 (.plain "\u00e9") (.plain "f") 70 72 := by
  have hrun : Run (Namespace.nameStep .accented) (fun s e _ => Canonical.Allowed .accented s e) accents
      accentsSeen := Run.of_execAll (by decide +kernel)
  refine (entries_separate_iff hrun (by decide +kernel) (by decide +kernel) (by decide +kernel)).mpr ?_
  decide +kernel

/-- Looked up after the composed name, the decomposed one gets the other's item. -/
theorem decomposed_name_gets_other_item :
    Name.plain "\u00e9" ≠ .plain "e\u0301" ∧
    Run (Namespace.nameStep .accented) (fun s e _ => Canonical.Allowed .accented s e) accents accentsSeen ∧
    accentsSeen.tree.inodeAt [.plain "\u00e9"] = some 70 ∧
    accentsSeen.tree.inodeAt [.plain "e\u0301"] = some 71 ∧
    (accentsSeen.lookupItem .accented treeEngine 0 (.plain "e\u0301")).1.result = some (.ok (some 1)) ∧
    accentsSeen.tree.inodeAt (accentsSeen.pathOf 1) = some 70 ∧
    ¬ Canonical.Separate .accented accentsSeen 0 (.plain "\u00e9") (.plain "e\u0301") 70 71 := by
  refine ⟨by decide, Run.of_execAll (by decide +kernel), by decide +kernel, by decide +kernel,
    by decide +kernel, by decide +kernel, ?_⟩
  rintro ⟨⟨c₁, c₂, it₁, it₂, h₁, h₂, hne, -⟩, -⟩
  have h₁' : (accentsSeen.lookupItem .accented treeEngine 0 (.plain "\u00e9")).1.result =
      some (.ok (some 1)) := by
    decide +kernel
  have h₂' : ((accentsSeen.lookupItem .accented treeEngine 0 (.plain "\u00e9")).2.lookupItem
      .accented treeEngine 0 (.plain "e\u0301")).1.result = some (.ok (some 1)) := by
    decide +kernel
  have hc₁ : 1 = c₁ := by simpa using h₁'.symm.trans h₁
  have hc₂ : 1 = c₂ := by simpa using h₂'.symm.trans h₂
  exact hne (hc₁.symm.trans hc₂)

end NtfsKit
