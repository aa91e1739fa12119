import NtfsKit.Bridge.Tiling

/-! The extents of a window as one list, and the extent loop as a run through it. A packer that
fills up takes a prefix of the list; the window that begins where the prefix ends has the rest
for its list. -/

namespace NtfsKit

/-- The extents of `[start, stop)` in a run that begins at `log` in the file and at `phys` on the
volume: none, two at `init_end`, or one. -/
def cutExtents (log phys ie start stop : ℤ) : List Extent :=
  if stop ≤ start then []
  else if 0 ≤ phys ∧ start < ie ∧ stop > ie then
    [⟨start, phys + (start - log), ie - start⟩, ⟨ie, -1, stop - ie⟩]
  else [⟨start, if phys < 0 ∨ start ≥ ie then -1 else phys + (start - log), stop - start⟩]

/-- The extents of one runlist element, for a packer that never fills up. -/
def runExtents (csize offset reqEnd ie : ℤ) (e : RunlistElement) : List Extent :=
  let log := e.vcn * csize
  let len := e.length * csize
  cutExtents log (if 0 ≤ e.lcn then e.lcn * csize else -1) ie
    (if log > offset then log else offset) (if log + len < reqEnd then log + len else reqEnd)

/-- Hand extents to the callback until it is full. -/
def packList (cb : List Extent → Bool) : Packed → List Extent → Packed
  | p, [] => p
  | p, e :: es => if p.full then p else packList cb (p.pack cb e) es

section Pack

variable {csize offset reqEnd ie : ℤ} {cb : List Extent → Bool}

theorem packList_full {p : Packed} (h : p.full = true) : ∀ es : List Extent, packList cb p es = p
  | [] => rfl
  | _ :: _ => if_pos h

theorem packList_append : ∀ (p : Packed) (es ds : List Extent),
    packList cb p (es ++ ds) = packList cb (packList cb p es) ds
  | _, [], _ => rfl
  | p, e :: es, ds => by
    rw [List.cons_append, packList, packList]
    split_ifs with h
    · exact (packList_full h ds).symm
    · exact packList_append _ es ds

theorem packRun_eq {p : Packed} (h : p.full = false) (e : RunlistElement) :
    packRun csize offset reqEnd ie cb p e = packList cb p (runExtents csize offset reqEnd ie e) := by
  have hnot : ¬ p.full = true := by simp [h]
  unfold packRun
  extract_lets log len phys start stop q
  have hrun : runExtents csize offset reqEnd ie e = cutExtents log phys ie start stop := rfl
  rw [hrun]
  unfold cutExtents
  split_ifs with h1 h2 h3
  · rfl
  · rw [packList, if_neg hnot]
    exact (packList_full h3 _).symm
  · rw [packList, if_neg hnot, packList, if_neg h3]
    rfl
  · rw [packList, if_neg hnot]
    rfl
  · rw [packList, if_neg hnot]
    rfl

/-- The extent loop runs through the extents of all elements. -/
theorem packRuns_eq : ∀ (rl : List RunlistElement) (p : Packed),
    packRuns csize offset reqEnd ie cb rl p =
      packList cb p (rl.flatMap (runExtents csize offset reqEnd ie))
  | [], _ => rfl
  | e :: rl, p => by
    rw [packRuns, List.flatMap_cons, packList_append]
    cases h : p.full with
    | true => rw [if_pos rfl, packList_full h, packList_full h]
    | false => rw [if_neg (by decide), packRun_eq h, packRuns_eq rl]

/-- The packer takes a prefix, all of it unless it is full. -/
theorem packList_stops : ∀ (es : List Extent) (p : Packed), ∃ pre post, es = pre ++ post ∧
    (packList cb p es).extents = p.extents ++ pre ∧
    ((packList cb p es).full = false → post = [])
  | [], p => ⟨[], [], rfl, (List.append_nil _).symm, fun _ => rfl⟩
  | e :: es, p => by
    cases hf : p.full with
    | true =>
      rw [packList_full hf]
      refine ⟨[], e :: es, rfl, (List.append_nil _).symm, fun h => ?_⟩
      rw [hf] at h
      cases h
    | false =>
      rw [packList, if_neg (by simp [hf])]
      obtain ⟨pre, post, heq, hext, hend⟩ := packList_stops es (p.pack cb e)
      refine ⟨e :: pre, post, by rw [heq]; rfl, ?_, hend⟩
      rw [hext]
      exact List.append_assoc _ _ _

/-- What a packer takes of a list of extents: the shortest part of it that the packer is full
on, or all of it. -/
structure Takes (cb : List Extent → Bool) (all es : List Extent) : Prop where
  of_prefix : es <+: all
  room : ∀ ds, ds <+: es → ds ≠ [] → cb ds = true → ds = es
  done : es = all ∨ es ≠ [] ∧ cb es = true

/-- The packer's answers say how much it takes. -/
theorem Takes.unique {all es ds : List Extent} (h : Takes cb all es) (h' : Takes cb all ds) :
    es = ds := by
  have hle : ∀ {es ds : List Extent}, Takes cb all es → Takes cb all ds → es <+: ds → es = ds := by
    intro es ds h h' hpre
    rcases h.done with rfl | ⟨hne, hfull⟩
    · exact hpre.eq_of_length_le h'.of_prefix.length_le
    · exact h'.room es hpre hne hfull
  rcases List.prefix_or_prefix_of_prefix h.of_prefix h'.of_prefix with hpre | hpre
  · exact hle h h' hpre
  · exact (hle h' h hpre).symm

theorem packList_takes : ∀ (es : List Extent) (p : Packed), p.full = false →
    ∃ ds, (packList cb p es).extents = p.extents ++ ds ∧
      Takes (fun ds => cb (p.extents ++ ds)) es ds ∧
      ((packList cb p es).full = true ↔ ds ≠ [] ∧ cb (p.extents ++ ds) = true)
  | [], p, hf => by
    refine ⟨[], (List.append_nil _).symm,
      ⟨List.prefix_rfl, fun ds hd _ _ => List.prefix_nil.mp hd, .inl rfl⟩, ?_⟩
    simp [packList, hf]
  | e :: es, p, hf => by
    have hnil : ∀ {ds : List Extent}, ds <+: [e] → ds ≠ [] → ds = [e] := fun hd hne =>
      hd.eq_of_length_le (List.length_pos_iff.mpr hne)
    rw [packList, if_neg (by simp [hf])]
    cases hfull : cb (p.extents ++ [e]) with
    | true =>
      rw [packList_full hfull]
      exact ⟨[e], rfl,
        ⟨⟨es, rfl⟩, fun ds hd hne _ => hnil hd hne, .inr ⟨List.cons_ne_nil _ _, hfull⟩⟩,
        by simp [Packed.pack, hfull]⟩
    | false =>
      obtain ⟨ds, hext, ht, hiff⟩ := packList_takes es (p.pack cb e) hfull
      have happ : ∀ ds, (p.pack cb e).extents ++ ds = p.extents ++ e :: ds := fun ds =>
        List.append_assoc _ _ _
      simp only [happ] at hext ht hiff
      refine ⟨e :: ds, hext, ⟨List.prefix_cons_inj e |>.mpr ht.of_prefix, ?_, ?_⟩, ?_⟩
      · rintro (_ | ⟨d, ds'⟩) hd hne hcb
        · exact absurd rfl hne
        obtain ⟨rfl, hd'⟩ := List.cons_prefix_cons.mp hd
        by_cases hne' : ds' = []
        · rw [hne', hfull] at hcb
          cases hcb
        · rw [ht.room ds' hd' hne' hcb]
      · exact ht.done.imp (fun h => by rw [h]) fun h => ⟨List.cons_ne_nil _ _, h.2⟩
      · rw [hiff]
        refine ⟨fun h => ⟨List.cons_ne_nil _ _, h.2⟩, fun h => ⟨?_, h.2⟩⟩
        rintro rfl
        rw [hfull] at h
        cases h.2

/-- The extents of a later part of a run: those that begin in it, if none lies across its
beginning. -/
theorem cutExtents_later {log phys start stop later : ℤ}
    (h : ∀ d ∈ cutExtents log phys ie start stop, d.logical + d.length ≤ later ∨
      later ≤ d.logical) :
    cutExtents log phys ie (max start later) stop =
      (cutExtents log phys ie start stop).filter (later ≤ ·.logical) := by
  unfold cutExtents at h ⊢
  by_cases h1 : stop ≤ start
  · rw [if_pos h1, if_pos (le_max_of_le_left h1)]
    rfl
  rw [if_neg h1] at h ⊢
  by_cases h2 : 0 ≤ phys ∧ start < ie ∧ stop > ie
  · rw [if_pos h2] at h ⊢
    have hl := h _ List.mem_cons_self
    have hr := h _ (List.mem_cons_of_mem _ List.mem_cons_self)
    dsimp only at hl hr
    -- the later part begins with the run's part, at `init_end`, or behind it
    rcases (by omega : later ≤ start ∨ later = ie ∨ stop ≤ later) with h3 | h3 | h3
    · have hie : later ≤ ie := by omega
      rw [max_eq_left h3, if_neg h1, if_pos h2]
      simp [h3, hie]
    · rw [h3, max_eq_right h2.2.1.le, if_neg (by omega), if_neg (by omega), if_pos (by omega)]
      simp [h2.2.1]
    · rw [if_pos (le_max_of_le_right h3)]
      simp
      omega
  · rw [if_neg h2] at h ⊢
    have hd := h _ List.mem_cons_self
    dsimp only at hd
    rcases (by omega : later ≤ start ∨ stop ≤ later) with h3 | h3
    · rw [max_eq_left h3, if_neg h1, if_neg h2]
      simp [h3]
    · rw [if_pos (le_max_of_le_right h3)]
      simp
      omega

theorem runExtents_later {later : ℤ} (hle : offset ≤ later) (e : RunlistElement)
    (h : ∀ d ∈ runExtents csize offset reqEnd ie e, d.logical + d.length ≤ later ∨
      later ≤ d.logical) :
    runExtents csize later reqEnd ie e =
      (runExtents csize offset reqEnd ie e).filter (later ≤ ·.logical) := by
  have hstart : (if e.vcn * csize > later then e.vcn * csize else later) =
      max (if e.vcn * csize > offset then e.vcn * csize else offset) later := by
    split_ifs <;> omega
  unfold runExtents at h ⊢
  simp only [hstart]
  exact cutExtents_later h

end Pack

/-! ### The window as a list -/

theorem Tiles.split : ∀ {a b : ℤ} {es ds : List Extent}, Tiles a b (es ++ ds) →
    ∃ m, Tiles a m es ∧ Tiles m b ds
  | a, _, [], _, h => ⟨a, rfl, h⟩
  | _, _, _ :: _, _, ⟨h1, h2, h3⟩ => by
    obtain ⟨m, hm, hd⟩ := h3.split
    exact ⟨m, ⟨h1, h2, hm⟩, hd⟩

theorem Tiles.lt : ∀ {a b : ℤ} {es : List Extent}, Tiles a b es → es ≠ [] → a < b
  | _, _, [], _, h => absurd rfl h
  | _, _, _ :: _, ⟨_, h2, h3⟩, _ => by
    have := h3.le
    omega

/-- The extents of the runs in a window. -/
def windowRuns (csize offset reqEnd ie : ℤ) (rl : Runlist) : List Extent :=
  rl.elements.flatMap (runExtents csize offset reqEnd ie)

/-- All extents of a window: those of the runs, then zeros. -/
def wholeExtents (csize offset reqEnd ie : ℤ) (rl : Runlist) : List Extent :=
  let es := windowRuns csize offset reqEnd ie rl
  let stop := extentsEnd offset es
  es ++ if stop < reqEnd then [⟨stop, -1, reqEnd - stop⟩] else []

section Window

variable {csize offset reqEnd ie : ℤ} {rl : Runlist}

/-- What a packer takes of the window's runs. -/
theorem packRuns_stops (cb : List Extent → Bool) : ∃ post,
    windowRuns csize offset reqEnd ie rl =
      (packRuns csize offset reqEnd ie cb rl.elements ⟨[], offset, false⟩).extents ++ post ∧
    ((packRuns csize offset reqEnd ie cb rl.elements ⟨[], offset, false⟩).full = false →
      post = []) := by
  rw [packRuns_eq, ← windowRuns]
  obtain ⟨pre, post, heq, hext, hend⟩ :=
    @packList_stops cb (windowRuns csize offset reqEnd ie rl) ⟨[], offset, false⟩
  exact ⟨post, by rw [hext]; exact heq, hend⟩

theorem packRuns_takes (cb : List Extent → Bool) :
    let p := packRuns csize offset reqEnd ie cb rl.elements ⟨[], offset, false⟩
    Takes cb (windowRuns csize offset reqEnd ie rl) p.extents ∧
      (p.full = true ↔ p.extents ≠ [] ∧ cb p.extents = true) := by
  intro p
  obtain ⟨ds, hext, ht, hfull⟩ :=
    @packList_takes cb (windowRuns csize offset reqEnd ie rl) ⟨[], offset, false⟩ rfl
  simp only [List.nil_append, windowRuns, ← packRuns_eq] at hext ht hfull
  rw [← hext] at ht hfull
  exact ⟨ht, hfull⟩

theorem windowRuns_tiles (hc : 0 < csize) (h0 : 0 ≤ offset) (hw : offset < reqEnd)
    (hrl : Contiguous 0 rl.elements) : ∃ stop,
    Tiles offset stop (windowRuns csize offset reqEnd ie rl) ∧ stop ≤ reqEnd := by
  obtain ⟨pos, hp, -⟩ := packRuns_contiguous (fun _ => false) hc hw h0 ie hrl
  obtain ⟨post, heq, hend⟩ := @packRuns_stops csize offset reqEnd ie rl fun _ => false
  rw [hend (packRuns_not_full (fun _ => rfl) _ _ rfl), List.append_nil] at heq
  exact ⟨_, heq ▸ hp.tiles, hp.le⟩

/-- The runs of a later window, for one that begins between two extents. -/
theorem windowRuns_later {later stop : ℤ} {pre post : List Extent}
    (heq : windowRuns csize offset reqEnd ie rl = pre ++ post) (hpre : Tiles offset later pre)
    (hpost : Tiles later stop post) : windowRuns csize later reqEnd ie rl = post := by
  have hmem : ∀ e ∈ rl.elements, runExtents csize later reqEnd ie e =
      (runExtents csize offset reqEnd ie e).filter (later ≤ ·.logical) := fun e he => by
    refine runExtents_later hpre.le e fun d hd => ?_
    have hin : d ∈ pre ++ post := heq ▸ List.mem_flatMap.mpr ⟨e, he, hd⟩
    exact (List.mem_append.mp hin).imp (fun h => (hpre.within d h).2) fun h => (hpost.within d h).1
  calc windowRuns csize later reqEnd ie rl
      = rl.elements.flatMap fun e =>
          (runExtents csize offset reqEnd ie e).filter (later ≤ ·.logical) := List.flatMap_congr hmem
    _ = (pre ++ post).filter (later ≤ ·.logical) := by rw [← heq, windowRuns, List.filter_flatMap]
    _ = post := by
      rw [List.filter_append, List.filter_eq_nil_iff.mpr, List.filter_eq_self.mpr, List.nil_append]
      · exact fun d hd => decide_eq_true (hpost.within d hd).1
      · intro d hd
        have h1 := (hpre.within d hd).2
        have h2 := hpre.pos d hd
        simp
        omega

/-- The runs reach the window's end. -/
def Reaching (csize offset reqEnd ie : ℤ) (rl : Runlist) : Prop :=
  extentsEnd offset (windowRuns csize offset reqEnd ie rl) = reqEnd

/-- A piece of a window, up to `stop`: the window's list is the piece and the list of the rest. -/
structure Piece (csize reqEnd ie : ℤ) (rl : Runlist) (offset : ℤ) (es : List Extent)
    (stop : ℤ) : Prop where
  tiles : Tiles offset stop es
  lt : offset < stop
  le : stop ≤ reqEnd
  rest : stop < reqEnd →
    wholeExtents csize offset reqEnd ie rl = es ++ wholeExtents csize stop reqEnd ie rl ∧
      (Reaching csize offset reqEnd ie rl → Reaching csize stop reqEnd ie rl)
  last : stop = reqEnd → wholeExtents csize offset reqEnd ie rl = es

/-- A packer that is full, or that has come to the end, has a piece of the window. -/
theorem Piece.of_prefix (hc : 0 < csize) (h0 : 0 ≤ offset) (hw : offset < reqEnd)
    (hrl : Contiguous 0 rl.elements) {pre post : List Extent} {stop : ℤ}
    (heq : windowRuns csize offset reqEnd ie rl = pre ++ post) (hpre : Tiles offset stop pre)
    (hlt : offset < stop) : Piece csize reqEnd ie rl offset pre stop := by
  obtain ⟨z, hz, hle⟩ := @windowRuns_tiles csize offset reqEnd ie rl hc h0 hw hrl
  have hend := hz.extentsEnd_eq
  rw [heq] at hz
  obtain ⟨m, hm, hpost⟩ := hz.split
  obtain rfl : m = stop := hm.extentsEnd_eq.symm.trans hpre.extentsEnd_eq
  have hmz := hpost.le
  have hlater := windowRuns_later heq hpre hpost
  have hend' : extentsEnd m (windowRuns csize m reqEnd ie rl) = z := by
    rw [hlater, hpost.extentsEnd_eq]
  refine ⟨hpre, hlt, by omega, fun _ => ⟨?_, fun h => ?_⟩, fun h => ?_⟩
  · simp only [wholeExtents, hend, hend']
    rw [heq, hlater, List.append_assoc]
  · exact hend'.trans (hend.symm.trans h)
  · have hnil : post = [] := by
      by_contra hne
      have := hpost.lt hne
      omega
    simp only [wholeExtents, hend]
    rw [heq, hnil, if_neg (by omega), List.append_nil, List.append_nil]

/-- The zeros behind the runs end the window. -/
theorem Piece.of_tail {es : List Extent} {stop : ℤ} (hw : offset < reqEnd)
    (heq : windowRuns csize offset reqEnd ie rl = es) (hes : Tiles offset stop es)
    (hlt : stop < reqEnd) :
    Piece csize reqEnd ie rl offset (es ++ [⟨stop, -1, reqEnd - stop⟩]) reqEnd := by
  have hend : extentsEnd offset (windowRuns csize offset reqEnd ie rl) = stop := by
    rw [heq, hes.extentsEnd_eq]
  have ht := hes.append_one (e := ⟨stop, -1, reqEnd - stop⟩) rfl (by dsimp only; omega)
  rw [show stop + (reqEnd - stop) = reqEnd by omega] at ht
  refine ⟨ht, hw, le_rfl, fun h => absurd h (lt_irrefl _), fun _ => ?_⟩
  simp only [wholeExtents, hend]
  rw [heq, if_pos hlt]

end Window

end NtfsKit
