import NtfsKit.Volume.Items

/-! The tree while `renameItem` is under way, against the tree it began with: after the
victim is parked, after the engine's rename, and after a rollback. -/

namespace NtfsKit

open PathTree

/-- What `renameItem` knows of the victim `o` when it parks it. -/
structure Replaced (t : Tree) (items : List Item) (byPath : List (Path × ℕ)) (r : Rename)
    (o : Victim) : Prop where
  path : o.path = r.newPath
  cached : (r.newPath, o.item) ∈ byPath
  other : o.item ≠ r.item
  leaf : leaf t r.newPath = true
  token : ∃ it u, items[o.item]? = some it ∧ o.tmpName = .nkOver u it.inode
  fresh : node t o.parked = none
  apart : r.oldPath ≠ o.parked
  differ : t.inodeAt r.oldPath ≠ t.inodeAt r.newPath

/-- A rename that passed the checks of `renameItem` with the tree, items and cache as they
were then. -/
structure Begun (t : Tree) (b : ℕ) (items : List Item) (byPath : List (Path × ℕ)) (r : Rename) :
    Prop where
  idle : Idle t b items byPath
  item : ∃ it, items[r.item]? = some it ∧ it.path = r.oldPath ∧ it.gone = false
  dest : ∃ it, items[r.dest]? = some it ∧ it.path = r.destPath ∧ it.gone = false
  proper : r.oldPath ≠ []
  outside : ¬ r.oldPath <+: r.destPath
  plain : ∀ u i, r.newName ≠ .nkOver u i
  free : r.overItem = none → ∀ c, (r.newPath, c) ∈ byPath → c = r.item
  victim : ∀ o, r.overItem = some o → Replaced t items byPath r o

/-- The tree with the victim parked. -/
def Rename.parkedTree (r : Rename) (t : Tree) : Tree :=
  match r.overItem with
  | some o => move o.path o.parked t
  | none => t

variable {t u : Tree} {b : ℕ} {items : List Item} {byPath : List (Path × ℕ)} {r : Rename}
  {o : Victim}

theorem Begun.withPhase (h : Begun t b items byPath r) (p : Phase) :
    Begun t b items byPath { r with phase := p } :=
  ⟨h.idle, h.item, h.dest, h.proper, h.outside, h.plain, h.free, fun o ho =>
    let v := h.victim o ho
    ⟨v.path, v.cached, v.other, v.leaf, v.token, v.fresh, v.apart, v.differ⟩⟩

namespace Replaced

variable (v : Replaced t items byPath r o)
include v

theorem dir_eq : o.dir = r.destPath := by
  rw [Victim.dir, v.path, Rename.newPath, List.dropLast_concat]

theorem parked_eq : o.parked = r.destPath ++ [o.tmpName] := by
  rw [Victim.parked, v.dir_eq]

/-- The hidden name lies beside the new path. -/
theorem aside (hp : ∀ u i, r.newName ≠ .nkOver u i) : Aside r.newPath o.parked := by
  obtain ⟨it, u, -, htok⟩ := v.token
  rw [v.parked_eq]
  refine aside_siblings ?_
  rw [htok]
  exact hp u it.inode

end Replaced

namespace Begun

variable (h : Begun t b items byPath r)
include h

/-- The tree with the victim parked, by paths. -/
theorem node_parked_new (ho : r.overItem = some o) (rest : Path) :
    node (r.parkedTree t) (r.newPath ++ rest) = none := by
  rw [Rename.parkedTree, ho]
  simp only
  rw [(h.victim o ho).path, node_move_old (List.prefix_append _ _)]

theorem node_parked_tmp (ho : r.overItem = some o) (rest : Path) :
    node (r.parkedTree t) (o.parked ++ rest) = node t (r.newPath ++ rest) := by
  have v := h.victim o ho
  rw [Rename.parkedTree, ho]
  simp only
  rw [v.path, node_move_new ((v.aside h.plain).not_prefix_append rest)]
  exact h.idle.wf.none_below v.fresh rest

theorem node_parked_of_not {p : Path}
    (hp : ∀ o, r.overItem = some o → ¬ r.newPath <+: p ∧ ¬ o.parked <+: p) :
    node (r.parkedTree t) p = node t p := by
  unfold Rename.parkedTree
  cases ho : r.overItem with
  | none => rfl
  | some o =>
    simp only
    rw [(h.victim o ho).path, node_move_of_not (hp o ho).1 (hp o ho).2]

/-- Nothing cached lies below the victim or its hidden name. -/
theorem not_below (ho : r.overItem = some o) {p : Path} {c : ℕ} (hc : (p, c) ∈ byPath)
    (hp : p ≠ r.newPath) : ¬ r.newPath <+: p ∧ ¬ o.parked <+: p := by
  have v := h.victim o ho
  constructor
  · rintro ⟨rest, rfl⟩
    have hr : rest ≠ [] := by
      rintro rfl
      exact hp (List.append_nil _)
    exact h.idle.node_cached hc (leaf_iff.mp v.leaf rest hr)
  · rintro ⟨rest, rfl⟩
    exact h.idle.node_cached hc (h.idle.wf.none_below v.fresh rest)

theorem node_parked_cached {p : Path} {c : ℕ} (hc : (p, c) ∈ byPath)
    (hp : r.overItem.isSome → p ≠ r.newPath) : node (r.parkedTree t) p = node t p :=
  h.node_parked_of_not fun _ ho => h.not_below ho hc (hp (by rw [ho]; rfl))

/-- The victim's own directory. -/
theorem victim_dir (ho : r.overItem = some o) :
    ∃ d, node t r.destPath = some d ∧ d.kind = .directory := by
  have v := h.victim o ho
  refine h.idle.wf.parent r.destPath r.newName ?_
  exact Option.isSome_iff_ne_none.mpr (h.idle.node_cached v.cached)

/-- The victim's node. -/
theorem victim_node (ho : r.overItem = some o) {it : Item} (hi : items[o.item]? = some it) :
    ∃ i, node t r.newPath = some i ∧ i.number = it.inode :=
  Tree.inodeAt_eq_some.mp (h.idle.cached_at (h.victim o ho).cached hi).2.2

theorem wf_parked : (r.parkedTree t).Wf b := by
  unfold Rename.parkedTree
  cases ho : r.overItem with
  | none => exact h.idle.wf
  | some o =>
    have v := h.victim o ho
    obtain ⟨it, u, hi, htok⟩ := v.token
    obtain ⟨i, hn, hnum⟩ := h.victim_node ho hi
    obtain ⟨d, hd, hk⟩ := h.victim_dir ho
    have hfresh := v.fresh
    simp only
    rw [v.parked_eq] at hfresh ⊢
    rw [v.path]
    refine h.idle.wf.move hn hd hk hfresh ?_
    intro u' j hj
    rw [htok] at hj
    rw [hnum]
    exact (Name.nkOver.inj hj).2

/-- While the victim is parked, an item in use still reaches its own file or nothing. -/
theorem own_parked {c : ℕ} {it : Item} (hi : items[c]? = some it) (hg : it.gone = false) :
    it.Own (r.parkedTree t) := by
  rcases h.idle.kept c it hi hg with hc | hp
  · by_cases hnew : r.overItem.isSome ∧ it.path = r.newPath
    · obtain ⟨o, ho⟩ := Option.isSome_iff_exists.mp hnew.1
      refine .inl (Tree.inodeAt_eq_none.mpr ?_)
      rw [hnew.2, ← List.append_nil r.newPath, h.node_parked_new ho]
    · refine .inr ?_
      rw [Tree.inodeAt_congr (h.node_parked_cached hc fun hs hp => hnew ⟨hs, hp⟩)]
      exact (h.idle.cached_at hc hi).2.2
  · exact hp.own h.wf_parked

/-- The parking itself. -/
theorem park_ok (ho : r.overItem = some o) {ok : RenameSteps}
    (hok : (nkRename ok o.path o.dir o.tmpName t).1 = true) :
    (nkRename ok o.path o.dir o.tmpName t).2 = r.parkedTree t := by
  have v := h.victim o ho
  have hfresh : node t (o.dir ++ [o.tmpName]) = none := v.fresh
  obtain ⟨x, d, -, -, -, ⟨hsame, -⟩ | ⟨-, hmove⟩⟩ := nkRename_ok hok
  · rw [Tree.inodeAt_eq_none.mpr hfresh] at hsame
    cases hsame
  · rw [hmove, Rename.parkedTree, ho]
    rfl

/-- A rollback that succeeds restores what every path resolves to. -/
theorem rollback_ok (ho : r.overItem = some o) {ok : RenameSteps} (hlink : ok.link = true)
    (hdel : ok.delete = true) (p : Path) :
    node (nkRename ok o.parked o.dir o.overName (r.parkedTree t)).2 p =
      node t p := by
  have v := h.victim o ho
  obtain ⟨it, u, hi, -⟩ := v.token
  obtain ⟨i, hn, -⟩ := h.victim_node ho hi
  obtain ⟨d, hd, hk⟩ := h.victim_dir ho
  have hlast : o.overName = r.newName := by
    rw [Victim.overName, v.path, Rename.newPath, List.getLast?_concat]
    rfl
  have hsrc : node (r.parkedTree t) o.parked = some i := by
    rw [← List.append_nil o.parked, h.node_parked_tmp ho, List.append_nil, hn]
  have hdir : node (r.parkedTree t) r.destPath = some d := by
    rw [h.node_parked_of_not, hd]
    intro o' ho'
    rw [(h.victim o' ho').parked_eq, Rename.newPath]
    constructor <;>
    · intro hp
      have := hp.length_le
      simp at this
  have hnew : node (r.parkedTree t) (r.destPath ++ [r.newName]) = none := by
    have := h.node_parked_new ho []
    rwa [List.append_nil] at this
  have hroot : o.parked ≠ [] := by
    rw [v.parked_eq]
    simp
  rw [hlast, v.dir_eq, nkRename_succeeds hsrc hdir hk hnew hroot hlink hdel]
  change node (move o.parked r.newPath (r.parkedTree t)) p = node t p
  by_cases h1 : o.parked <+: p
  · obtain ⟨rest, rfl⟩ := h1
    rw [node_move_old (List.prefix_append _ _), h.idle.wf.none_below v.fresh]
  by_cases h2 : r.newPath <+: p
  · obtain ⟨rest, rfl⟩ := h2
    rw [node_move_new h1 (h.node_parked_new ho rest), h.node_parked_tmp ho]
  · rw [node_move_of_not h1 h2, h.node_parked_of_not]
    intro o' ho'
    rw [ho] at ho'
    obtain rfl := Option.some.inj ho'
    exact ⟨h2, h1⟩

end Begun

/-! ### After the engine's rename -/

/-- The tree `u` after the engine's rename, against the tree `t` before `renameItem`. -/
structure Carried (t u : Tree) (b : ℕ) (byPath : List (Path × ℕ)) (r : Rename) : Prop where
  wf : u.Wf b
  origin : ∀ p i, node u p = some i → ∃ q, node t q = some i
  found : node t r.oldPath ≠ none
  moved : ∀ rest, node t (r.oldPath ++ rest) ≠ none →
    u.inodeAt (r.newPath ++ rest) = t.inodeAt (r.oldPath ++ rest)
  outside : ∀ p c, (p, c) ∈ byPath → ¬ r.oldPath <+: p → p ≠ r.newPath →
    ¬ r.newPath <+: p ∧ u.inodeAt p = t.inodeAt p
  left : (u.inodeAt r.oldPath ≠ u.inodeAt r.newPath ∧ ∀ rest, u.inodeAt (r.oldPath ++ rest) = none) ∨
    (r.overItem = none ∧ u = t ∧ u.inodeAt r.oldPath = u.inodeAt r.newPath)

theorem Carried.withPhase (h : Carried t u b byPath r) (p : Phase) :
    Carried t u b byPath { r with phase := p } :=
  ⟨h.wf, h.origin, h.found, h.moved, h.outside, h.left⟩

namespace Begun

variable (h : Begun t b items byPath r)
include h

/-- The rename found another name of the same file, or its own. -/
theorem carried_same (ho : r.overItem = none) {x : Inode} (hx : node t r.oldPath = some x)
    (hsame : t.inodeAt r.newPath = some x.number) : Carried t t b byPath r := by
  have hold : t.inodeAt r.oldPath = some x.number := by
    rw [Tree.inodeAt, hx]
    rfl
  obtain ⟨y, hy, hnum⟩ := Tree.inodeAt_eq_some.mp hsame
  -- a directory has one name, so below either path nothing else is named
  have hdir : ∀ q rest, (q = r.oldPath ∨ q = r.newPath) → rest ≠ [] → node t (q ++ rest) ≠ none →
      r.oldPath = r.newPath := by
    intro q rest hq hr hn
    by_contra hne
    have hno := h.idle.wf.single r.oldPath r.newPath x y hx hy hnum.symm hne
    obtain ⟨d, hd, hk⟩ := h.idle.wf.closed.below hr (Option.isSome_iff_ne_none.mpr hn)
    rcases hq with rfl | rfl
    · rw [hx] at hd
      rw [← Option.some.inj hd] at hk
      exact hno.2 hk
    · rw [hy] at hd
      rw [← Option.some.inj hd, ← hno.1] at hk
      exact hno.2 hk
  refine ⟨h.idle.wf, fun p i hi => ⟨p, hi⟩, by rw [hx]; simp, ?_, ?_, .inr ⟨ho, rfl, ?_⟩⟩
  · intro rest hn
    by_cases hr : rest = []
    · rw [hr, List.append_nil, List.append_nil, hsame, hold]
    · rw [hdir _ rest (.inl rfl) hr hn]
  · intro p c hc hp hne
    refine ⟨?_, rfl⟩
    rintro ⟨rest, rfl⟩
    have hr : rest ≠ [] := by
      rintro rfl
      exact hne (List.append_nil _)
    rw [hdir _ rest (.inr rfl) hr (h.idle.node_cached hc)] at hp
    exact hp (List.prefix_append _ _)
  · rw [hold, hsame]

/-- The rename moved the item to a free name. -/
theorem carried_moved {x d : Inode} (hx : node (r.parkedTree t) r.oldPath = some x)
    (hd : node (r.parkedTree t) r.destPath = some d) (hk : d.kind = .directory)
    (hnew : node (r.parkedTree t) r.newPath = none) :
    Carried t (move r.oldPath r.newPath (r.parkedTree t)) b byPath r := by
  have hw := h.wf_parked
  have hside : Aside r.oldPath r.newPath := by
    constructor
    · intro hp
      rcases prefix_concat hp with heq | hp
      · rw [heq, ← Rename.newPath, hnew] at hx
        cases hx
      · exact h.outside hp
    · rintro ⟨rest, heq⟩
      rw [← heq, hw.none_below hnew rest] at hx
      cases hx
  -- nor is the item below the victim's hidden name, which has nothing below it
  have htmp : ∀ o, r.overItem = some o → Aside r.oldPath o.parked := by
    intro o ho
    have v := h.victim o ho
    constructor
    · intro hp
      rw [v.parked_eq] at hp
      rcases prefix_concat hp with heq | hp
      · exact v.apart (by rw [v.parked_eq, heq])
      · exact h.outside hp
    · rintro ⟨rest, heq⟩
      have hr : rest ≠ [] := by
        rintro rfl
        exact v.apart (by rw [← heq, List.append_nil])
      rw [← heq, h.node_parked_tmp ho, leaf_iff.mp v.leaf rest hr] at hx
      cases hx
  have hkeep : ∀ rest, node (r.parkedTree t) (r.oldPath ++ rest) = node t (r.oldPath ++ rest) :=
    fun rest => h.node_parked_of_not fun o ho =>
      ⟨hside.symm.not_prefix_append rest, (htmp o ho).symm.not_prefix_append rest⟩
  have hold := hkeep []
  rw [List.append_nil, hx] at hold
  have hmoved : ∀ rest, node (move r.oldPath r.newPath (r.parkedTree t)) (r.newPath ++ rest) =
      node t (r.oldPath ++ rest) := by
    intro rest
    rw [node_move_new (hside.not_prefix_append rest) (hw.none_below hnew rest), hkeep]
  have hgone : ∀ rest, node (move r.oldPath r.newPath (r.parkedTree t)) (r.oldPath ++ rest) = none :=
    fun rest => node_move_old (List.prefix_append _ _)
  refine ⟨?_, ?_, by rw [← hold]; simp, fun rest _ => Tree.inodeAt_congr (hmoved rest), ?_, .inl ⟨?_, ?_⟩⟩
  · exact hw.move hx hd hk hnew fun u i hi => absurd hi (h.plain u i)
  · intro p i hi
    obtain ⟨q, hq⟩ := move_origin hi
    unfold Rename.parkedTree at hq
    cases ho : r.overItem with
    | none =>
      rw [ho] at hq
      exact ⟨q, hq⟩
    | some o =>
      rw [ho] at hq
      exact move_origin hq
  · intro p c hc hp hne
    have hpn : ¬ r.newPath <+: p := by
      rintro ⟨rest, rfl⟩
      have hn := h.node_parked_cached hc fun _ => hne
      rw [hw.none_below hnew] at hn
      exact h.idle.node_cached hc hn.symm
    refine ⟨hpn, Tree.inodeAt_congr ?_⟩
    rw [node_move_of_not hp hpn, h.node_parked_cached hc fun _ => hne]
  · have h1 := hgone []
    have h2 := hmoved []
    rw [List.append_nil] at h1 h2
    rw [Tree.inodeAt, Tree.inodeAt, h1, h2, List.append_nil, ← hold]
    simp
  · intro rest
    exact Tree.inodeAt_eq_none.mpr (hgone rest)

/-- The engine's rename. -/
theorem carried {ok : RenameSteps}
    (hok : (nkRename ok r.oldPath r.destPath r.newName (r.parkedTree t)).1 = true) :
    Carried t (nkRename ok r.oldPath r.destPath r.newName (r.parkedTree t)).2 b byPath r := by
  obtain ⟨x, d, hx, hd, hk, ⟨hsame, hres⟩ | ⟨hnew, hres⟩⟩ := nkRename_ok hok
  · cases ho : r.overItem with
    | some o =>
      have hnone := h.node_parked_new ho []
      rw [List.append_nil] at hnone
      rw [← Rename.newPath, Tree.inodeAt_eq_none.mpr hnone] at hsame
      cases hsame
    | none =>
      have ht : r.parkedTree t = t := by
        rw [Rename.parkedTree, ho]
      rw [hres, ht]
      rw [ht] at hx hsame
      exact h.carried_same ho hx hsame
  · rw [hres]
    exact h.carried_moved hx hd hk hnew

end Begun

namespace Carried

variable (h : Carried t u b byPath r)
include h

/-- Deleting the parked victim. -/
theorem unlink (hB : Begun t b items byPath r) (ho : r.overItem = some o) :
    Carried t (unlink o.parked u) b byPath r := by
  have v := hB.victim o ho
  have hside := v.aside hB.plain
  have hnew : ∀ rest, node (PathTree.unlink o.parked u) (r.newPath ++ rest) =
      node u (r.newPath ++ rest) := fun rest => by
    rw [node_unlink, if_neg (hside.symm.not_prefix_append rest)]
  have hnew0 := hnew []
  rw [List.append_nil] at hnew0
  refine ⟨h.wf.unlink o.parked, ?_, h.found, ?_, ?_, .inl ?_⟩
  · intro p i hi
    rw [node_unlink] at hi
    split_ifs at hi
    exact h.origin p i hi
  · intro rest hn
    rw [← h.moved rest hn]
    exact Tree.inodeAt_congr (hnew rest)
  · intro p c hc hp hne
    obtain ⟨hpn, heq⟩ := h.outside p c hc hp hne
    refine ⟨hpn, ?_⟩
    rw [← heq, Tree.inodeAt, node_unlink, if_neg (hB.not_below ho hc hne).2]
    rfl
  · rcases h.left with ⟨hne, hgone⟩ | ⟨hno, -, -⟩
    · have hgone' : ∀ rest, Tree.inodeAt (PathTree.unlink o.parked u) (r.oldPath ++ rest) = none := by
        intro rest
        rw [Tree.inodeAt_eq_none, node_unlink]
        split_ifs
        · rfl
        · exact Tree.inodeAt_eq_none.mp (hgone rest)
      have h0 := hgone' []
      have h1 := hgone []
      rw [List.append_nil] at h0 h1
      refine ⟨?_, hgone'⟩
      rw [h0, Tree.inodeAt_congr hnew0, ← h1]
      exact hne
    · rw [ho] at hno
      cases hno

/-- A cached path other than the victim's resolves as before, unless the engine has moved
what lies there. -/
theorem inodeAt_cached (hB : Begun t b items byPath r) {p : Path} {c : ℕ} (hc : (p, c) ∈ byPath)
    (hov : ∀ o, r.overItem = some o → c ≠ o.item) :
    u.inodeAt p = if r.oldPath <+: p ∧ u.inodeAt r.oldPath ≠ u.inodeAt r.newPath then none
      else t.inodeAt p := by
  by_cases hp : r.oldPath <+: p
  · obtain ⟨rest, rfl⟩ := hp
    rcases h.left with ⟨hne, hgone⟩ | ⟨-, rfl, heq⟩
    · rw [if_pos ⟨List.prefix_append _ _, hne⟩, hgone]
    · rw [if_neg fun hn => hn.2 heq]
  · rw [if_neg fun hn => hp hn.1]
    refine (h.outside p c hc hp ?_).2
    rintro rfl
    cases ho : r.overItem with
    | some o => exact hov o ho (hB.idle.unique hc (hB.victim o ho).cached)
    | none =>
      obtain ⟨it, hi, hpath, -⟩ := hB.item
      obtain rfl := hB.free ho c hc
      rw [← (hB.idle.cached_at hc hi).1, hpath] at hp
      exact hp List.prefix_rfl

/-- After the engine's rename an item in use still reaches its own file or nothing, unless
it is the victim and still has its old path. -/
theorem own (hB : Begun t b items byPath r) {c : ℕ} {it : Item} (hi : items[c]? = some it)
    (hg : it.gone = false) (hov : ∀ o, r.overItem = some o → c ≠ o.item) : it.Own u := by
  rcases hB.idle.kept c it hi hg with hc | hp
  · have hn := h.inodeAt_cached hB hc hov
    split_ifs at hn
    · exact .inl hn
    · exact .inr (hn.trans (hB.idle.cached_at hc hi).2.2)
  · exact hp.own h.wf

end Carried

end NtfsKit
