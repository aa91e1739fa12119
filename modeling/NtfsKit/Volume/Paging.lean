import NtfsKit.Volume.DirPaths

/-! Paged enumeration. A chain of `enumerateDirectory` calls reads one directory page by page,
each call from the cookie of the last entry packed and with the verifier of the call before.
A call samples the generation and lists the directory in two steps, and calls on names come
between any two steps. The pages are the parts of one list as long as no resumed call lists a
directory that has another generation than the one it sampled. -/

namespace NtfsKit

open PathTree

variable {t u : Tree} {P : Path} {d : ℕ} {n : Name}

/-! ### Listings -/

/-- The order of a directory's index is a linear one. -/
structure Collates (collate : Name → Name → Bool) : Prop where
  antisymm : ∀ a b, collate a b → collate b a → a = b
  trans : ∀ a b c, collate a b → collate b c → collate a c
  total : ∀ a b, collate a b ∨ collate b a

theorem mem_names : n ∈ t.names P ↔ (node t (P ++ [n])).isSome := by
  rw [Tree.names, List.mem_dedup, List.mem_filterMap, node_isSome]
  constructor
  · rintro ⟨e, he, hn⟩
    split_ifs at hn with hcond
    refine ⟨e, he, ?_⟩
    rw [← hcond.2]
    exact (List.dropLast_append_getLast? n hn).symm
  · rintro ⟨e, he, heq⟩
    refine ⟨e, he, ?_⟩
    rw [heq, if_pos ⟨by simp, List.dropLast_concat⟩, List.getLast?_concat]

variable {collate : Name → Name → Bool}

theorem sorted_names_congr (hc : Collates collate)
    (h : ∀ n, node t (P ++ [n]) = node u (P ++ [n])) :
    (t.names P).insertionSort (fun a b => collate a b) =
      (u.names P).insertionSort (fun a b => collate a b) := by
  have htrans : IsTrans Name fun a b => collate a b = true := ⟨hc.trans⟩
  have htotal : Std.Total fun a b : Name => collate a b = true := ⟨hc.total⟩
  have hperm : (t.names P).Perm (u.names P) := by
    refine (List.perm_ext_iff_of_nodup (List.nodup_dedup _) (List.nodup_dedup _)).mpr fun n => ?_
    rw [← Tree.names, ← Tree.names, mem_names, mem_names, h]
  refine List.Perm.eq_of_pairwise (fun a b _ _ => hc.antisymm a b)
    (List.pairwise_insertionSort _ _) (List.pairwise_insertionSort _ _) ?_
  exact ((List.perm_insertionSort _ _).trans hperm).trans (List.perm_insertionSort _ _).symm

/-- A directory with the same entries is listed the same. -/
theorem listing_congr (hc : Collates collate) (h : ∀ n, node t (P ++ [n]) = node u (P ++ [n])) :
    listing collate t P = listing collate u P := by
  rw [listing, listing, sorted_names_congr hc h]
  refine List.filterMap_congr fun n _ => ?_
  rw [nkFilldir, nkFilldir, h]

theorem nkFilldir_eq_some {e : Dirent} : nkFilldir t P n = some e ↔
    ∃ i, node t (P ++ [n]) = some i ∧ fileFirstUser ≤ i.number ∧ ¬ isDot n ∧
      e = ⟨n, i.kind = .directory, i.number⟩ := by
  rw [nkFilldir, Option.bind_eq_some_iff]
  refine exists_congr fun i => and_congr_right fun _ => ?_
  split_ifs with hhide
  · refine ⟨fun h => (by cases h), fun ⟨hi, hn, _⟩ => ?_⟩
    rcases hhide with hlt | hdot
    · exact absurd hlt (Nat.not_lt.mpr hi)
    · exact absurd hdot hn
  · rw [not_or, Nat.not_lt] at hhide
    refine ⟨fun h => ⟨hhide.1, hhide.2, (Option.some.inj h).symm⟩, fun ⟨_, _, he⟩ => he ▸ rfl⟩

theorem listing_names : (listing collate t P).map Dirent.name =
    ((t.names P).insertionSort fun a b => collate a b).filter
      fun n => (nkFilldir t P n).isSome := by
  rw [listing, List.map_filterMap, ← List.filterMap_eq_filter]
  refine List.filterMap_congr fun n _ => ?_
  cases hn : nkFilldir t P n with
  | none => simp [Option.guard, hn]
  | some e =>
    obtain ⟨i, -, -, -, rfl⟩ := nkFilldir_eq_some.mp hn
    simp [Option.guard, hn]

theorem mem_listing_names : n ∈ (listing collate t P).map Dirent.name ↔
    ∃ i, node t (P ++ [n]) = some i ∧ fileFirstUser ≤ i.number ∧ ¬ isDot n := by
  rw [listing_names, List.mem_filter, List.mem_insertionSort, mem_names]
  constructor
  · rintro ⟨-, hsome⟩
    obtain ⟨e, he⟩ := Option.isSome_iff_exists.mp hsome
    obtain ⟨i, hi, hlow, hdot, -⟩ := nkFilldir_eq_some.mp he
    exact ⟨i, hi, hlow, hdot⟩
  · rintro ⟨i, hi, hlow, hdot⟩
    have he := nkFilldir_eq_some.mpr ⟨i, hi, hlow, hdot, rfl⟩
    exact ⟨by rw [hi]; rfl, by rw [he]; rfl⟩

/-- The names of `entries`. -/
def entryNames (collate : Name → Name → Bool) (attributes : Bool) (t : Tree) (P : Path) :
    List Name :=
  (dirEntries attributes P (listing collate t P)).map DirEntry.name

theorem entryNames_eq (attributes : Bool) : entryNames collate attributes t P =
    (if attributes then [] else [.plain ".", .plain ".."]) ++
      (listing collate t P).map Dirent.name := by
  rw [entryNames, dirEntries, List.map_append, List.map_map]
  cases attributes <;> rfl

theorem entryNames_nodup (attributes : Bool) : (entryNames collate attributes t P).Nodup := by
  have hlist : ((listing collate t P).map Dirent.name).Nodup := by
    rw [listing_names]
    exact ((List.perm_insertionSort _ _).nodup_iff.mpr (List.nodup_dedup _)).filter _
  rw [entryNames_eq]
  refine List.Nodup.append ?_ hlist fun n hdots hn => ?_
  · cases attributes <;> decide
  · obtain ⟨i, -, -, hdot⟩ := mem_listing_names.mp hn
    cases attributes with
    | true => exact List.not_mem_nil hdots
    | false => exact hdot (by simpa [isDot] using hdots)

/-- The directory `d` has an entry `n` that listings show. -/
def Tree.Shows (t : Tree) (d : ℕ) (n : Name) : Prop :=
  ∃ P i, node t P = some ⟨d, .directory⟩ ∧ node t (P ++ [n]) = some i ∧
    fileFirstUser ≤ i.number ∧ ¬ isDot n

instance (t : Tree) (d : ℕ) (n : Name) : Decidable (t.Shows d n) :=
  decidable_of_iff (∃ e ∈ t, node t e.1 = some ⟨d, .directory⟩ ∧
      ∃ i ∈ node t (e.1 ++ [n]), fileFirstUser ≤ i.number ∧ ¬ isDot n) ⟨
    fun ⟨e, _, hd, i, hi, h⟩ => ⟨e.1, i, hd, hi, h⟩,
    fun ⟨P, i, hd, hi, h⟩ => by
      obtain ⟨e, he, rfl⟩ := node_isSome.mp (Option.isSome_iff_exists.mpr ⟨_, hd⟩)
      exact ⟨e, he, hd, i, hi, h⟩⟩

/-! ### Pages -/

variable {T : PathText}

/-- A page is as much of the list as the packer takes. -/
theorem packFrom_names (attributes : Bool) : ∀ (room index : ℕ) (es : List DirEntry)
    (s : Namespace), (packFrom T attributes room index es s).1.map PackedEntry.name =
      (es.map DirEntry.name).take room
  | 0, _, [], _ => rfl
  | _ + 1, _, [], _ => rfl
  | 0, _, _ :: _, _ => rfl
  | room + 1, index, e :: es, _ =>
    congrArg (e.name :: ·) (packFrom_names attributes room (index + 1) es _)

/-- The last cookie of a page counts the entries up to it. -/
theorem packFrom_cookie (attributes : Bool) : ∀ (room index : ℕ) (es : List DirEntry)
    (s : Namespace), (packFrom T attributes room index es s).1.getLast?.elim index
      PackedEntry.nextCookie = index + (packFrom T attributes room index es s).1.length
  | 0, _, [], _ => rfl
  | _ + 1, _, [], _ => rfl
  | 0, _, _ :: _, _ => rfl
  | room + 1, index, e :: es, s => by
    have ih := packFrom_cookie attributes room (index + 1) es (entryID T attributes e s).2
    rw [packFrom]
    dsimp only
    cases hrest : (packFrom T attributes room (index + 1) es
        (entryID T attributes e s).2).1 with
    | nil => rfl
    | cons p ps =>
      rw [hrest, List.getLast?_eq_some_getLast (List.cons_ne_nil p ps), Option.elim_some] at ih
      rw [List.getLast?_cons_cons, List.getLast?_eq_some_getLast (List.cons_ne_nil p ps),
        Option.elim_some, ih]
      simp only [List.length_cons]
      omega

/-- A call that throws nothing has listed a directory and packed the part of it from the cookie
on that the packer took. -/
theorem listAndPack_ok {c : EnumCall} {g : ℕ} {s : Namespace} {reply : EnumReply}
    (h : (listAndPack T collate c g s).1 = .ok reply) :
    reply.verifier = g ∧
    reply.packed.map PackedEntry.name =
      ((entryNames collate c.attributes s.tree (s.pathOf c.dir)).drop c.cookie).take c.room ∧
    reply.packed.getLast?.elim c.cookie PackedEntry.nextCookie =
      c.cookie + reply.packed.length := by
  unfold listAndPack at h
  extract_lets path at h
  have hlist : ∀ items, nkList collate c.listed path s.tree = some items →
      items = listing collate s.tree path := by
    intro items hitems
    unfold nkList at hitems
    split at hitems
    · split_ifs at hitems
      exact (Option.some.inj hitems).symm
    · cases hitems
  cases hl : nkList collate c.listed path s.tree with
  | none =>
    rw [hl] at h
    cases h
  | some items =>
    rw [hl] at h
    dsimp only at h
    split_ifs at h
    obtain rfl := Except.ok.inj h
    refine ⟨rfl, ?_, packFrom_cookie _ _ _ _ s⟩
    rw [packFrom_names, List.map_drop, hlist items hl]
    rfl

/-! ### Chains -/

/-- A chain of enumerations over the namespace. -/
structure Chain where
  ns : Namespace
  /-- The last `nextCookie`. -/
  cookie : ℕ
  /-- What the last call returned. -/
  verifier : ℕ
  /-- The generation sampled by a call that has not listed yet. -/
  sampled : Option ℕ
  packed : List PackedEntry
  /-- All entries of the last list are packed. -/
  done : Bool
  /-- A call threw. -/
  failed : Bool

/-- The chain before its first call. -/
def Chain.start (s : Namespace) : Chain where
  ns := s
  cookie := 0
  verifier := 0
  sampled := none
  packed := []
  done := false
  failed := false

inductive ChainEvent
  | names (e : NameCall)
  | sample
  | list (room : ℕ) (listed : Bool)

section

variable (T : PathText) (collate : Name → Name → Bool) (dir : ℕ) (attributes : Bool)

/-- A call begins. -/
def Chain.sample (c : Chain) : Chain :=
  if c.done ∨ c.failed ∨ c.sampled.isSome then c
  else
    let generation := generation T c.ns (c.ns.pathOf dir)
    if c.cookie ≠ 0 ∧ c.verifier ≠ generation then { c with failed := true }
    else { c with sampled := some generation }

/-- The call that the chain is making. -/
def Chain.call (room : ℕ) (listed : Bool) (c : Chain) : EnumCall :=
  ⟨dir, c.cookie, c.verifier, attributes, listed, room⟩

/-- The rest of the call. -/
def Chain.list (room : ℕ) (listed : Bool) (c : Chain) : Chain :=
  match c.sampled with
  | none => c
  | some generation =>
    let r := listAndPack T collate (c.call dir attributes room listed) generation c.ns
    match r.1 with
    | .error _ => { c with ns := r.2, sampled := none, failed := true }
    | .ok reply =>
      let cookie := reply.packed.getLast?.elim c.cookie PackedEntry.nextCookie
      { c with
        ns := r.2
        cookie := cookie
        verifier := reply.verifier
        sampled := none
        packed := c.packed ++ reply.packed
        done := (entryNames collate attributes c.ns.tree (c.ns.pathOf dir)).length ≤ cookie }

/-- Calls on names do engine work and bookkeeping in one step, under `stateLock`. -/
def chainStep (c : Chain) : ChainEvent → Unit × Chain
  | .names e => ((), { c with ns := (c.ns.nameStep T e).2 })
  | .sample => ((), c.sample T dir)
  | .list room listed => ((), c.list T collate dir attributes room listed)

end

/-- Without a step in between, the two halves of a call are `enumerateDirectory`. -/
theorem sample_list_eq {c : Chain} {dir : ℕ} {attributes : Bool} (room : ℕ) (listed : Bool)
    (hdone : c.done = false) (hfailed : c.failed = false) (hidle : c.sampled = none) :
    let c' := (c.sample T dir).list T collate dir attributes room listed
    let r := enumerateDirectory T collate (c.call dir attributes room listed) c.ns
    c'.ns = r.2 ∧ match r.1 with
      | .ok reply => c'.packed = c.packed ++ reply.packed ∧ c'.verifier = reply.verifier ∧
          c'.failed = false
      | .error _ => c'.packed = c.packed ∧ c'.failed = true := by
  intro c' r
  have hcall : ¬ (c.done = true ∨ c.failed = true ∨ c.sampled.isSome = true) := by
    simp [hdone, hfailed, hidle]
  by_cases hstale : c.cookie ≠ 0 ∧ c.verifier ≠ generation T c.ns (c.ns.pathOf dir)
  · have hr : r = (.error .invalidDirectoryCookie, c.ns) := if_pos hstale
    have hs : c.sample T dir = { c with failed := true } := by
      rw [Chain.sample, if_neg hcall]
      exact if_pos hstale
    simp only [c', hs, Chain.list, hidle, hr, and_self]
  · have hr : r = listAndPack T collate (c.call dir attributes room listed)
        (generation T c.ns (c.ns.pathOf dir)) c.ns := if_neg hstale
    have hs : c.sample T dir =
        { c with sampled := some (generation T c.ns (c.ns.pathOf dir)) } := by
      rw [Chain.sample, if_neg hcall]
      exact if_neg hstale
    simp only [c', hs, Chain.list, Chain.call] at hr ⊢
    rw [← hr]
    cases r.1 with
    | error e => exact ⟨rfl, rfl, rfl⟩
    | ok reply => exact ⟨rfl, rfl, rfl, hfailed⟩

/-- Calls on names are ones the kernel makes, leave no trace when they fail, and rename no
directory above `d`; a listing is of `d`, and where it resumes one, the directory's generation
is still the sampled one. -/
def Chain.InStep (T : PathText) (dir d : ℕ) (c : Chain) : ChainEvent → Prop
  | .names e => c.ns.Offered e ∧ e.Clean ∧ c.ns.Still d e
  | .sample => True
  | .list _ _ => node c.ns.tree (c.ns.pathOf dir) = some ⟨d, .directory⟩ ∧
      (c.cookie ≠ 0 → ∀ g ∈ c.sampled, generation T c.ns (c.ns.pathOf dir) = g)

/-- The pages so far are the first part of a list without repetitions in which `n` stands, and
which the directory has as long as its generation is the verifier. -/
structure Chain.Reads (T : PathText) (collate : Name → Name → Bool) (attributes : Bool)
    (d : ℕ) (n : Name) (c : Chain) (E : List Name) : Prop where
  packed : c.packed.map PackedEntry.name = E.take c.cookie
  nodup : E.Nodup
  mem : n ∈ E
  done : c.done = true → E.length ≤ c.cookie
  current : c.cookie ≠ 0 → ∀ P, node c.ns.tree P = some ⟨d, .directory⟩ →
    generation T c.ns P = c.verifier → entryNames collate attributes c.ns.tree P = E

/-- What every step of a chain keeps. -/
structure Chain.Paged (T : PathText) (collate : Name → Name → Bool) (attributes : Bool)
    (d : ℕ) (n : Name) (c : Chain) : Prop where
  housed : Canonical.Housed c.ns
  verifier : c.verifier ≤ c.ns.genCounter
  sampled : ∀ g ∈ c.sampled, g ≤ c.ns.genCounter ∧ (c.cookie ≠ 0 → g = c.verifier)
  reads : ∃ E, c.Reads T collate attributes d n E

section

variable {attributes : Bool} {dir : ℕ} {c : Chain} {E : List Name}

/-- A finished chain has packed the whole list. -/
theorem Chain.Reads.once (h : c.Reads T collate attributes d n E) (hdone : c.done = true) :
    (c.packed.map PackedEntry.name).count n = 1 := by
  rw [h.packed, List.take_of_length_le (h.done hdone)]
  exact List.count_eq_one_of_mem h.nodup h.mem

theorem Chain.Paged.start {s : Namespace} (h : Canonical.Housed s) (n : Name) :
    (Chain.start s).Paged T collate attributes d n where
  housed := h
  verifier := Nat.zero_le _
  sampled g hg := by cases hg
  reads := ⟨[n], rfl, List.nodup_singleton n, List.mem_singleton_self n,
    fun h => absurd h Bool.false_ne_true, fun h => absurd rfl h⟩

/-- While its generation is the verifier, the directory has not changed. -/
theorem Chain.Paged.names (hcol : Collates collate) (h : c.Paged T collate attributes d n)
    {e : NameCall} (hoffer : c.ns.Offered e) (hclean : e.Clean) (hstill : c.ns.Still d e) :
    Chain.Paged T collate attributes d n { c with ns := (c.ns.nameStep T e).2 } := by
  have hstays : Stays T d c.ns (c.ns.nameStep T e).2 :=
    Canonical.nameStep_stays h.housed.kempt.counted h.housed.kempt.idle h.housed.kempt.closed hoffer
      hclean hstill
  obtain ⟨E, hE⟩ := h.reads
  refine ⟨h.housed.step hoffer hclean, h.verifier.trans hstays.grows, fun g hg => ?_, E, hE.packed,
    hE.nodup, hE.mem, hE.done, fun hcookie P hP hgen => ?_⟩
  · exact ⟨(h.sampled g hg).1.trans hstays.grows, (h.sampled g hg).2⟩
  · obtain ⟨hP', hgen', hentries⟩ := hstays.same P hP (hgen ▸ h.verifier)
    rw [← hE.current hcookie P hP' (hgen'.trans hgen), entryNames, entryNames,
      listing_congr hcol hentries]

theorem Chain.Paged.sample (h : c.Paged T collate attributes d n) :
    (c.sample T dir).Paged T collate attributes d n := by
  obtain ⟨E, hE⟩ := h.reads
  unfold Chain.sample
  split_ifs with hidle
  · exact h
  · extract_lets g
    split_ifs with hstale
    · exact ⟨h.housed, h.verifier, h.sampled, E, hE.packed, hE.nodup, hE.mem, hE.done,
        hE.current⟩
    · refine ⟨h.housed, h.verifier, ?_, E, hE.packed, hE.nodup,
        hE.mem, hE.done, hE.current⟩
      intro g' hg'
      obtain rfl := Option.some.inj hg'
      refine ⟨h.housed.kempt.counted.le _, fun hcookie => ?_⟩
      by_contra hne
      exact hstale ⟨hcookie, Ne.symm hne⟩

theorem mem_entryNames (h : Canonical.Housed c.ns) (hP : node c.ns.tree P = some ⟨d, .directory⟩)
    (hshows : c.ns.tree.Shows d n) : n ∈ entryNames collate attributes c.ns.tree P := by
  obtain ⟨Q, i, hQ, hi⟩ := hshows
  obtain rfl := h.single _ _ _ _ hQ hP rfl rfl
  rw [entryNames_eq]
  exact List.mem_append_right _ (mem_listing_names.mpr ⟨i, hi⟩)

/-- A page that is added to the first part of a list. -/
theorem take_append_page {N X : List Name} {k room : ℕ} (hX : X = (N.drop k).take room) :
    N.take k ++ X = N.take (k + X.length) := by
  have hpage : X = (N.drop k).take X.length :=
    List.prefix_iff_eq_take.mp (hX ▸ List.take_prefix _ _)
  rw [List.take_add, ← hpage]

/-- The next page of the list. -/
theorem Chain.Paged.list (h : c.Paged T collate attributes d n) (room : ℕ) (listed : Bool)
    (hdir : node c.ns.tree (c.ns.pathOf dir) = some ⟨d, .directory⟩)
    (hsame : c.cookie ≠ 0 → ∀ g ∈ c.sampled, generation T c.ns (c.ns.pathOf dir) = g)
    (hshows : c.ns.tree.Shows d n) :
    (c.list T collate dir attributes room listed).Paged T collate attributes d n := by
  obtain ⟨E, hE⟩ := h.reads
  unfold Chain.list
  cases hg : c.sampled with
  | none => exact h
  | some g =>
    obtain ⟨hle, hver⟩ := h.sampled g hg
    dsimp only
    have hl : Listed c.ns (listAndPack T collate (c.call dir attributes room listed) g c.ns).2 :=
      listAndPack_listed _ g c.ns
    have hgen : ∀ P, generation T
        (listAndPack T collate (c.call dir attributes room listed) g c.ns).2 P =
        generation T c.ns P := by
      intro P
      rw [generation, generation, hl.dirGen]
    cases hr : (listAndPack T collate (c.call dir attributes room listed) g c.ns).1 with
    | error e =>
      refine ⟨h.housed.listed hl, hl.genCounter ▸ h.verifier, fun _ hn => (by cases hn),
        E, hE.packed, hE.nodup, hE.mem, hE.done, fun hcookie P hP hv => ?_⟩
      dsimp only at hP hv ⊢
      rw [hl.tree] at hP ⊢
      exact hE.current hcookie P hP (hgen P ▸ hv)
    | ok reply =>
      obtain ⟨hreply, hnames, hcookie⟩ := listAndPack_ok hr
      dsimp only [Chain.call] at hnames hcookie
      -- the pages so far are the first part of the list this call has read
      have hnow : c.packed.map PackedEntry.name =
          (entryNames collate attributes c.ns.tree (c.ns.pathOf dir)).take c.cookie := by
        rw [hE.packed]
        by_cases hzero : c.cookie = 0
        · rw [hzero, List.take_zero, List.take_zero]
        · rw [hE.current hzero _ hdir ((hsame hzero g hg).trans (hver hzero))]
      refine ⟨h.housed.listed hl, ?_, fun _ hn => (by cases hn),
        entryNames collate attributes c.ns.tree (c.ns.pathOf dir), ?_,
        entryNames_nodup attributes, mem_entryNames h.housed hdir hshows, of_decide_eq_true,
        fun _ P hP _ => ?_⟩
      · dsimp only
        rw [hreply, hl.genCounter]
        exact hle
      · dsimp only
        rw [List.map_append, hnow, take_append_page hnames, List.length_map, hcookie]
      · dsimp only at hP ⊢
        rw [hl.tree] at hP ⊢
        rw [h.housed.single _ _ _ _ hP hdir rfl rfl]

theorem Chain.Paged.step (hcol : Collates collate) (h : c.Paged T collate attributes d n)
    {e : ChainEvent} (hok : c.InStep T dir d e) (hshows : c.ns.tree.Shows d n) :
    (chainStep T collate dir attributes c e).2.Paged T collate attributes d n := by
  cases e with
  | names e => exact h.names hcol hok.1 hok.2.1 hok.2.2
  | sample => exact h.sample
  | list room listed => exact h.list room listed hok.1 hok.2 hshows

end

theorem byName_collates : Collates byName where
  antisymm
    | .plain a, .plain b, h, h' =>
      congrArg Name.plain (String.le_antisymm (of_decide_eq_true h) (of_decide_eq_true h'))
    | .plain _, .nkOver _ _, _, h' => absurd h' Bool.false_ne_true
    | .nkOver _ _, .plain _, h, _ => absurd h Bool.false_ne_true
    | .nkOver u i, .nkOver v j, h, h' => by
      simp only [byName, decide_eq_true_eq] at h h'
      rw [Name.nkOver.injEq]
      omega
  trans
    | .plain a, .plain b, .plain c, h, h' =>
      decide_eq_true (String.le_trans (of_decide_eq_true h) (of_decide_eq_true h'))
    | .plain _, _, .nkOver _ _, _, _ => rfl
    | .plain _, .nkOver _ _, .plain _, _, h' => absurd h' Bool.false_ne_true
    | .nkOver _ _, .plain _, _, h, _ => absurd h Bool.false_ne_true
    | .nkOver _ _, .nkOver _ _, .plain _, _, h' => absurd h' Bool.false_ne_true
    | .nkOver u i, .nkOver v j, .nkOver w k, h, h' => by
      simp only [byName, decide_eq_true_eq] at h h' ⊢
      omega
  total
    | .plain a, .plain b => (String.le_total a b).imp decide_eq_true decide_eq_true
    | .plain _, .nkOver _ _ => .inl rfl
    | .nkOver _ _, .plain _ => .inr rfl
    | .nkOver u i, .nkOver v j => by
      simp only [byName, decide_eq_true_eq]
      omega

instance (dir d : ℕ) (c : Chain) : ∀ e : ChainEvent, Decidable (c.InStep .accented dir d e)
  | .names e => inferInstanceAs (Decidable (c.ns.Offered e ∧ e.Clean ∧ c.ns.Still d e))
  | .sample => inferInstanceAs (Decidable True)
  | .list _ _ => inferInstanceAs (Decidable (
      node c.ns.tree (c.ns.pathOf dir) = some ⟨d, .directory⟩ ∧
      (c.cookie ≠ 0 → ∀ g ∈ c.sampled, generation .accented c.ns (c.ns.pathOf dir) = g)))

/-- A directory `/p/d` with three files. -/
def threeBelow : Namespace :=
  walked (twoBelow ++ [.names (.createItem 2 (.plain "c") .file true true)])

/-- The state after events of a chain that reads `/p/d`. -/
def paged (es : List ChainEvent) : Chain :=
  execAll (chainStep .accented byName 2 true) es (.start threeBelow)

/-- Two pages; a file is created elsewhere, and is removed between the steps of the second
call. -/
def removedElsewhere : List ChainEvent :=
  [.sample, .list 1 true, .names (.createItem 1 (.plain "a") .file true true), .sample,
    .names (.removeItem 6 true), .list 5 true]

/-- What a chain's calls and the calls on names between them meet without the rule on resumed
calls. -/
def Chain.Unguarded (dir d : ℕ) (c : Chain) : ChainEvent → Prop
  | .names e => c.ns.Offered e ∧ e.Clean ∧ c.ns.Still d e
  | .sample => True
  | .list _ _ => node c.ns.tree (c.ns.pathOf dir) = some ⟨d, .directory⟩

instance (dir d : ℕ) (c : Chain) : ∀ e : ChainEvent, Decidable (c.Unguarded dir d e)
  | .names e => inferInstanceAs (Decidable (c.ns.Offered e ∧ e.Clean ∧ c.ns.Still d e))
  | .sample => inferInstanceAs (Decidable True)
  | .list _ _ => inferInstanceAs (Decidable (
      node c.ns.tree (c.ns.pathOf dir) = some ⟨d, .directory⟩))

end NtfsKit
