import NtfsKit.System.Files
import NtfsKit.System.Writes

/-! The table of write marks is a finite map. A call on one file gives the same answer
under any two tables that hold the same entry for it, and leaves the entries of the other
files alone; so the array and the partial map stay in step over every sequence of calls. -/

namespace NtfsKit

variable {σ : Type}

open Files

theorem distinct_ownTable (m : ℕ) (mark : Option ℤ) : SwapTable.Distinct (ownTable m mark) := by
  cases mark <;> simp [ownTable, SwapTable.Distinct]

theorem find_ownTable (m : ℕ) (mark : Option ℤ) : SwapTable.find (ownTable m mark) m = mark := by
  cases mark <;> simp [ownTable, SwapTable.find]

/-- One volume under two tables with the same entry for the file `m`; the other entries of
the first are those of `base`. -/
structure Agrees (m : ℕ) (base : ℕ → Option ℤ) (s t : Files σ) : Prop where
  mount : s.toMount = t.toMount
  distinct : SwapTable.Distinct s.wr
  distinct' : SwapTable.Distinct t.wr
  own : SwapTable.find s.wr m = SwapTable.find t.wr m
  rest : ∀ k, k ≠ m → SwapTable.find s.wr k = base k

namespace Agrees

variable {m : ℕ} {base : ℕ → Option ℤ} {s t : Files σ}

/-- The file's own entry is enough. -/
theorem alone (hd : SwapTable.Distinct s.wr) (m : ℕ) : Agrees m (SwapTable.find s.wr) s
    ⟨s.toMount, ownTable m (SwapTable.find s.wr m)⟩ where
  mount := rfl
  distinct := hd
  distinct' := distinct_ownTable _ _
  own := (find_ownTable _ _).symm
  rest _ _ := rfl

theorem names (h : Agrees m base s t) : s.names = t.names := congrArg Mount.names h.mount

/-- What changes the volume and not the table. -/
theorem withMount (h : Agrees m base s t) {a b : Mount σ} (hab : a = b) :
    Agrees m base ⟨a, s.wr⟩ ⟨b, t.wr⟩ := { h with mount := hab }

theorem swapRemove (h : Agrees m base s t) : Agrees m base
    { s with wr := SwapTable.swapRemove s.wr m } { t with wr := SwapTable.swapRemove t.wr m } where
  mount := h.mount
  distinct := h.distinct.swapRemove m
  distinct' := h.distinct'.swapRemove m
  own := by
    simp only [SwapTable.find_swapRemove h.distinct, SwapTable.find_swapRemove h.distinct', if_true]
  rest k hk := by
    simp only [SwapTable.find_swapRemove h.distinct, if_neg hk]
    exact h.rest k hk

theorem file (h : Agrees m base s t) : Mirrors m base (s.file m) (t.file m) where
  ntfs := by
    have hm := h.mount
    simp only [Files.file]
    rw [hm]
  mref := rfl
  mref' := rfl
  distinct := h.distinct
  distinct' := h.distinct'
  own := h.own
  rest := h.rest

theorem put (h : Agrees m base s t) {f g : NkFile σ} (hfg : Mirrors m base f g) :
    Agrees m base (s.put m f) (t.put m g) where
  mount := by
    have hm := h.mount
    simp only [Files.put]
    rw [hm, hfg.ntfs]
  distinct := hfg.distinct
  distinct' := hfg.distinct'
  own := hfg.own
  rest := hfg.rest

end Agrees

section Calls

variable {m : ℕ} {base : ℕ → Option ℤ} {s t : Files σ}

theorem onPath_agrees {A : Type} (L : Libntfs σ) {path : Path}
    {c : Libntfs σ → NkFile σ → A × NkFile σ} (hc : ∀ L, Respects (Mirrors m base) (c L))
    (hm : (s.names.resolve path).getD s.names.root = m) (h : Agrees m base s t) :
    (s.onPath L path c).1 = (t.onPath L path c).1 ∧
      Agrees m base (s.onPath L path c).2 (t.onPath L path c).2 := by
  unfold Files.onPath
  rw [← h.names]
  cases hr : s.names.resolve path with
  | some x =>
    obtain rfl : x = m := by simpa [hr] using hm
    obtain ⟨h1, h2⟩ := hc L _ _ h.file
    exact ⟨h1, h.put h2⟩
  | none =>
    obtain rfl : s.names.root = m := by simpa [hr] using hm
    obtain ⟨h1, h2⟩ := hc L.lost _ _ h.file
    refine ⟨h1, h.withMount ?_⟩
    rw [h2.eng, h.mount]

theorem code_agrees {r q : ℤ × Files σ} (h : r.1 = q.1 ∧ Agrees m base r.2 q.2) :
    (code r).1 = (code q).1 ∧ Agrees m base (code r).2 (code q).2 :=
  ⟨by rw [code, code, h.1], h.2⟩

theorem createNode_agrees (h : Agrees m base s t) (dir : Path) (name : Name)
    (isDir made closed : Bool) (ref : ℕ) :
    (s.createNode dir name isDir made closed ref).1 =
        (t.createNode dir name isDir made closed ref).1 ∧
      Agrees m base (s.createNode dir name isDir made closed ref).2
        (t.createNode dir name isDir made closed ref).2 := by
  unfold Files.createNode
  rw [← h.names]
  cases s.names.resolve dir with
  | none => exact ⟨rfl, h⟩
  | some d =>
    dsimp only
    by_cases hc : d ∈ s.names.dirs ∧ s.names.lookup d name = none ∧ made
    · rw [if_pos hc, if_pos hc]
      exact ⟨rfl, h.withMount (by rw [h.mount])⟩
    · rw [if_neg hc, if_neg hc]
      exact ⟨rfl, h⟩

/-- The entry a path ends in names what the path resolves to. -/
theorem DirGraph.resolve_of_entryAt {g : DirGraph} {p : Path} {e : Entry}
    (h : g.entryAt p = some e) : g.resolve p = some e.inode := by
  rcases List.eq_nil_or_concat p with rfl | ⟨q, n, rfl⟩
  · simp [entryAt] at h
  · rw [List.concat_eq_append, entryAt_concat, Option.bind_eq_some_iff] at h
    obtain ⟨d, hd, he⟩ := h
    rw [List.concat_eq_append, resolve_concat, hd, Option.bind_some, he]
    rfl

theorem nkDelete_agrees (h : Agrees m base s t) (ok : Bool) {path : Path}
    (hm : ∀ x, s.names.resolve path = some x → x = m) :
    (s.nkDelete ok path).1 = (t.nkDelete ok path).1 ∧
      Agrees m base (s.nkDelete ok path).2 (t.nkDelete ok path).2 := by
  unfold Files.nkDelete
  rw [← h.names]
  cases he : s.names.entryAt path with
  | none => exact ⟨rfl, h⟩
  | some e =>
    have hx : e.inode = m := hm _ (DirGraph.resolve_of_entryAt he)
    have hnames : Agrees m base { s with names := (s.names.nkDelete ok path).2 }
        { t with names := (s.names.nkDelete ok path).2 } := h.withMount (by rw [h.mount])
    dsimp only
    rw [hx]
    split_ifs
    all_goals first | exact ⟨rfl, hnames⟩ | exact ⟨rfl, hnames.swapRemove⟩ | contradiction

theorem nkRename_agrees (h : Agrees m base s t) (ok : RenameSteps) {old : Path} (dir : Path)
    (name : Name) (hm : ∀ x, s.names.resolve old = some x → x = m) :
    (s.nkRename ok old dir name).1 = (t.nkRename ok old dir name).1 ∧
      Agrees m base (s.nkRename ok old dir name).2 (t.nkRename ok old dir name).2 := by
  unfold Files.nkRename
  rw [← h.names]
  cases hx : s.names.resolve old with
  | none => exact ⟨rfl, h⟩
  | some x =>
    cases s.names.resolve dir with
    | none => exact ⟨rfl, h⟩
    | some d =>
      dsimp only
      by_cases hd : d ∉ s.names.dirs
      · rw [if_pos hd, if_pos hd]
        exact ⟨rfl, h⟩
      · rw [if_neg hd, if_neg hd]
        cases s.names.lookup d name with
        | some e => exact ⟨rfl, h⟩
        | none =>
          have hlink : Agrees m base { s with names := s.names.link d name x }
              { t with names := s.names.link d name x } := h.withMount (by rw [h.mount])
          -- the old path still leads to the file
          have hold : ∀ y, (s.names.link d name x).resolve old = some y → y = m := fun y hy => by
            have hwalk : (s.names.link d name x).resolve old = some x := DirGraph.walk_link hx
            rw [hwalk] at hy
            exact Option.some.inj hy ▸ hm x hx
          obtain ⟨hr, hdel⟩ := nkDelete_agrees hlink ok.delete hold
          have hundo : Agrees m base
              { (({ s with names := s.names.link d name x } : Files σ).nkDelete ok.delete old).2 with
                names := s.names }
              { (({ t with names := s.names.link d name x } : Files σ).nkDelete ok.delete old).2 with
                names := s.names } := hdel.withMount (by rw [hdel.mount])
          dsimp only
          rw [hr]
          by_cases hl : ok.link = false
          · rw [if_pos hl, if_pos hl]
            exact ⟨rfl, h⟩
          · rw [if_neg hl, if_neg hl]
            split_ifs
            · exact ⟨hr, hdel⟩
            · exact ⟨rfl, hundo⟩
            · exact ⟨rfl, hdel⟩

theorem step_agrees (L : Libntfs σ) (v : NkVolume) (c : FileCall)
    (hm : (target s.names c).getD s.names.root = m) (h : Agrees m base s t) :
    (step L v s c).1 = (step L v t c).1 ∧ Agrees m base (step L v s c).2 (step L v t c).2 := by
  have hres : ∀ {path x}, (s.names.resolve path).getD s.names.root = m →
      s.names.resolve path = some x → x = m := fun hm hx => by simpa [hx] using hm
  cases c with
  | blockmap path offset length forWrite blocksize cb =>
    exact onPath_agrees L (fun L => nkBlockmap_respects L v offset length forWrite blocksize cb) hm h
  | completeWrite path offset length =>
    exact code_agrees (onPath_agrees L (fun L => nkCompleteWrite_respects L v offset length) hm h)
  | abortWrite path offset length =>
    exact code_agrees (onPath_agrees L (fun L => nkAbortWrite_respects L v offset length) hm h)
  | truncate path size =>
    exact code_agrees (onPath_agrees L (fun L => nkTruncate_respects L size) hm h)
  | create dir name isDir made closed ref =>
    exact code_agrees (createNode_agrees h dir name isDir made closed ref)
  | rename ok old dir name => exact code_agrees (nkRename_agrees h ok dir name fun _ => hres hm)
  | delete ok path => exact code_agrees (nkDelete_agrees h ok fun _ => hres hm)

end Calls

/-- A call that names no file leaves the table alone. -/
theorem step_wr_of_target_none (L : Libntfs σ) (v : NkVolume) {s : Files σ} {c : FileCall}
    (h : target s.names c = none) : (step L v s c).2.wr = s.wr := by
  cases c with
  | blockmap path => simp only [step, Files.onPath, show s.names.resolve path = none from h]
  | completeWrite path =>
    simp only [step, code, Files.onPath, show s.names.resolve path = none from h]
  | abortWrite path =>
    simp only [step, code, Files.onPath, show s.names.resolve path = none from h]
  | truncate path => simp only [step, code, Files.onPath, show s.names.resolve path = none from h]
  | create dir =>
    simp only [step, code, Files.createNode]
    cases s.names.resolve dir with
    | none => rfl
    | some d =>
      dsimp only
      split_ifs <;> rfl
  | rename ok old =>
    simp only [step, code, Files.nkRename, show s.names.resolve old = none from h]
  | delete ok path =>
    simp only [step, code, Files.nkDelete]
    cases he : s.names.entryAt path with
    | none => rfl
    | some e =>
      have hres := DirGraph.resolve_of_entryAt he
      rw [show s.names.resolve path = none from h] at hres
      cases hres

/-- The array and the partial map hold the same marks of the same volume. -/
structure Tabled (s : Files σ) (a : MarkMap σ) : Prop where
  mount : s.toMount = a.toMount
  distinct : SwapTable.Distinct s.wr
  marks : SwapTable.find s.wr = a.marks

/-- One call: the same answer, and the two hold the same marks afterwards. -/
theorem Tabled.step {s : Files σ} {a : MarkMap σ} (h : Tabled s a) (L : Libntfs σ) (v : NkVolume)
    (c : FileCall) : (Files.step L v s c).1 = (MarkMap.step L v a c).1 ∧
      Tabled (Files.step L v s c).2 (MarkMap.step L v a c).2 := by
  obtain ⟨hr, hs⟩ := step_agrees L v c rfl
    (Agrees.alone h.distinct ((target s.names c).getD s.names.root))
  unfold MarkMap.step
  rw [← h.marks, ← h.mount]
  refine ⟨hr, hs.mount, hs.distinct, ?_⟩
  funext k
  dsimp only
  by_cases hk : k = (target s.names c).getD s.names.root
  · rw [hk, Function.update_self]
    exact hs.own
  · rw [Function.update_of_ne hk]
    exact hs.rest k hk

theorem Tabled.execAll (L : Libntfs σ) (v : NkVolume) : ∀ (cs : List FileCall) {s : Files σ}
    {a : MarkMap σ}, Tabled s a →
      Tabled (NtfsKit.execAll (Files.step L v) cs s) (NtfsKit.execAll (MarkMap.step L v) cs a)
  | [], _, _, h => h
  | c :: cs, _, _, h => Tabled.execAll L v cs (h.step L v c).2

section Isolation

variable (L : Libntfs σ) (v : NkVolume) {s : Files σ} (hd : SwapTable.Distinct s.wr) (c : FileCall)
include hd

theorem step_distinct : SwapTable.Distinct (step L v s c).2.wr :=
  (step_agrees L v c rfl (Agrees.alone hd _)).2.distinct

/-- A call moves no other file's mark. -/
theorem step_isolated {k : ℕ} (hk : target s.names c ≠ some k) :
    SwapTable.find (step L v s c).2.wr k = SwapTable.find s.wr k := by
  cases hc : target s.names c with
  | none => rw [step_wr_of_target_none L v hc]
  | some m =>
    have hag := (step_agrees L v c (by rw [hc]; rfl) (Agrees.alone hd m)).2
    exact hag.rest k fun hkm => hk (hc.trans (congrArg some hkm.symm))

end Isolation

/-- The table of write marks is a finite map with one entry for a file at most: over every
sequence of calls it holds the marks of a partial map in which each call moves the mark of
its own file only, the answers are those of the volume with that map, and a call leaves the
entries of all files but its own as they were. -/
theorem table_is_map (L : Libntfs σ) (v : NkVolume) (s : Files σ) (hs : SwapTable.Distinct s.wr)
    (cs : List FileCall) :
    let t := execAll (step L v) cs s
    let a := execAll (MarkMap.step L v) cs ⟨s.toMount, SwapTable.find s.wr⟩
    Tabled t a ∧ ∀ c, (step L v t c).1 = (MarkMap.step L v a c).1 ∧
      ∀ k, target t.names c ≠ some k →
        SwapTable.find (step L v t c).2.wr k = SwapTable.find t.wr k := by
  intro t a
  have hrun : Tabled t a := Tabled.execAll L v cs ⟨rfl, hs, rfl⟩
  exact ⟨hrun, fun c => ⟨(hrun.step L v c).1, fun k hk => step_isolated L v hrun.distinct c hk⟩⟩

/-- Two files side by side; the first has a long name and its 8.3 alias, and the MFT record
after the second is free. -/
def pairedFiles : Files Unit where
  disk _ := 0xAA
  eng := ()
  attrs _ := ⟨true, false, false, 1024, 0, 0, [⟨0, 4, 2⟩], fun _ => 0⟩
  names := ⟨5, [5], [], [⟨5, .plain "long name.txt", some (.plain "LONGNA~1.TXT"), 7⟩,
    ⟨5, .plain "b", none, 8⟩]⟩
  wr := []

/-- Both files get a mark, and the first one's is dropped by moving the other over it. -/
theorem table_is_map_two :
    let cs : List FileCall :=
      [.blockmap [.plain "long name.txt"] 0 512 true 512 fun _ => false,
        .blockmap [.plain "b"] 0 1024 true 512 fun _ => false,
        .completeWrite [.plain "LONGNA~1.TXT"] 0 512]
    let t := execAll (step (fullDisk 512 0) smallVolume) cs pairedFiles
    Tabled t (execAll (MarkMap.step (fullDisk 512 0) smallVolume) cs
      ⟨pairedFiles.toMount, SwapTable.find pairedFiles.wr⟩) ∧ t.wr = [(8, 1024)] :=
  ⟨(table_is_map (fullDisk 512 0) smallVolume pairedFiles List.nodup_nil _).1, by decide +kernel⟩

end NtfsKit
