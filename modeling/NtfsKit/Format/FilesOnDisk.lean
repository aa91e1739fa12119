import NtfsKit.Format.RlWrite

/-! The values on the disk. What does not fit into an MFT record is written to clusters of its own,
one attribute after the other: to the place that the layout has for it, or to clusters that are
taken for it then. No write touches the value of another attribute, so that at the end of the run
all of them can be read back. -/

namespace NtfsKit

open Finset

/-- A value that goes outside its MFT record, to a place it already has or to new clusters; that of
`$Bitmap` is made from the list of clusters as it is then. The memory for the runlist and for the
zeroes may be refused, and the record may have no room for the attribute. -/
structure NewAttr where
  positioned : Option Runlist
  value : List ClusterRun → WriteType
  valLen : ℕ
  grow : ℕ → Bool
  fits : Bool
  callocOk : Bool

/-- How many clusters the value takes. -/
def NewAttr.clusters (cs : ℕ) (a : NewAttr) : ℕ := (a.valLen + cs - 1) / cs

/-- The list of clusters and the device. -/
structure Disk (σ : Type) where
  alloc : Allocator
  writer : Writer σ

section Operations

variable {σ : Type} (memory : ℕ → Bool) (io : NkIo σ) (nr cs : ℕ)

/-- Where `insert_positioned_attr_in_mft_record` and `insert_non_resident_attr_in_mft_record` take
their runlist from. -/
def NewAttr.runlist (a : NewAttr) (g : Allocator) : Option Runlist × Allocator :=
  match a.positioned with
  | some rl => (some rl, g)
  | none => allocateScattered memory a.grow nr (a.clusters cs) g

/-- What the two do to the disk. The answer is the runlist of an attribute that is written. -/
def insertNonResident (s : Disk σ) (a : NewAttr) : Option Runlist × Disk σ :=
  match a.runlist memory nr cs s.alloc with
  | (none, g) => (none, { s with alloc := g })
  | (some rl, g) =>
    if a.fits then
      let r := ntfsRlwrite io a.callocOk (a.value g.list.runs) cs a.valLen rl s.writer
      (if r.1.1 = a.valLen then some rl else none, ⟨g, r.2⟩)
    else (none, { s with alloc := g })

end Operations

/-! ### One attribute -/

section Disk

variable {σ : Type} {memory : ℕ → Bool} {io : NkIo σ} {nr cs : ℕ} {s : Disk σ}

/-- What every call of the allocator finds. -/
structure Allocator.Ready (nr : ℕ) (g : Allocator) : Prop where
  ordered : AllocationOk g.list.runs
  boot : 0 ∈ clustersOf g.list.runs
  zone : g.mftZoneEnd ≤ nr

/-- What every attribute finds. -/
structure Disk.Ok (nr : ℕ) (s : Disk σ) : Prop where
  ready : s.alloc.Ready nr
  readOnly : s.writer.dev.readOnly = false
  buf : s.writer.buf ≠ []

/-- A byte of an allocated cluster. -/
def Disk.Taken (cs : ℕ) (s : Disk σ) (q : ℤ) : Prop :=
  (q / cs).toNat ∈ clustersOf s.alloc.list.runs

/-- A byte that the runlist places. -/
def Runlist.Covers (cs : ℕ) (rl : Runlist) (q : ℤ) : Prop := ∃ x, rl.phys cs x = some q

/-- A byte of a place that is given in advance. -/
def NewAttr.Positions (cs : ℕ) (a : NewAttr) (q : ℤ) : Prop :=
  ∃ rl, a.positioned = some rl ∧ rl.Covers cs q

/-- The places that are given in advance can be written to, lie in clusters that are taken, and do
not meet. -/
structure Disk.Positioned (io : NkIo σ) (cs : ℕ) (s : Disk σ) (attrs : List NewAttr) : Prop where
  target : ∀ a ∈ attrs, ∀ rl, a.positioned = some rl → Target io cs a.valLen 0 rl.elements
  taken : ∀ a ∈ attrs, ∀ q, a.Positions cs q → s.Taken cs q
  apart : attrs.Pairwise fun a b => ∀ q, a.Positions cs q → ¬ b.Positions cs q
  has : ∀ a ∈ attrs, ∀ runs, (a.value runs).Has a.valLen

/-- A byte of a runlist that was handed out lies in one of its clusters. -/
theorem HandedOut.cluster_of {n : ℕ} {A : Finset ℕ} {rl : Runlist} (h : HandedOut nr n A rl)
    (hcs : 0 < cs) {q : ℤ} (hq : rl.Covers cs q) :
    (q / cs).toNat ∈ Runlist.clusters rl.elements := by
  have hcs' : (0 : ℤ) < cs := by exact_mod_cast hcs
  obtain ⟨x, hx⟩ := hq
  have hx' : Runlist.phys cs rl.elements x = some q := by
    rw [Runlist.phys, h.contiguous.elements_eq]
    exact hx
  obtain ⟨k, hk, -, rfl⟩ := h.contiguous.phys_split hcs' h.backed hx'
  have hdiv : ((((Runlist.clusters rl.elements)[k] : ℕ) : ℤ) * cs + x % cs) / cs =
      (Runlist.clusters rl.elements)[k] := by
    rw [mul_comm, Int.mul_add_ediv_left _ _ hcs'.ne',
      Int.ediv_eq_zero_of_lt (Int.emod_nonneg x hcs'.ne') (Int.emod_lt_of_pos x hcs'), add_zero]
  rw [hdiv, Int.toNat_natCast]
  exact List.getElem_mem hk

/-- A value that was written to clusters of its own is complete. -/
theorem HandedOut.written (h : io.Spec) {t : WriteType} {valLen : ℕ} {A : Finset ℕ} {rl : Runlist}
    (hout : HandedOut nr ((valLen + cs - 1) / cs) A rl) (hcs : 0 < cs)
    (hsize : (nr * cs : ℕ) ≤ io.size) (ht : t.Has valLen) (callocOk : Bool) {w : Writer σ}
    (hrw : w.dev.readOnly = false) (hbuf : w.buf ≠ []) :
    ∃ ret inited w', ntfsRlwrite io callocOk t cs valLen rl w = ((ret, inited), w') ∧
      ((ret = -1 ∧ (io.MayFail ∨ callocOk = false)) ∨ ret = valLen) := by
  obtain ⟨ret, inited, w', hrun, -, hcases⟩ := ntfsRlwrite_spec h hcs ht (hout.target hcs hsize)
    callocOk hrw hbuf
  refine ⟨ret, inited, w', hrun, ?_⟩
  rcases hcases with hfail | ⟨hret | ⟨hret, hinside⟩, -⟩
  · exact .inl hfail
  · exact .inr hret
  · -- all bytes of the clusters are of the value, so that these are not more than it
    refine .inr ?_
    rw [hout.contiguous.sum_length, hout.length] at hret
    rw [hret]
    have hge : valLen ≤ (valLen + cs - 1) / cs * cs := by
      have := Nat.lt_div_mul_add (a := valLen + cs - 1) hcs
      omega
    have hle : (valLen + cs - 1) / cs * cs ≤ valLen := by
      by_contra hlt
      obtain ⟨p, hp⟩ := hout.place hcs (not_le.mp hlt)
      have := hinside _ p hp
      omega
    exact_mod_cast le_antisymm hle hge

/-- Where a runlist comes from: the layout, or clusters that were free. -/
def NewAttr.From (nr cs : ℕ) (a : NewAttr) (s : Disk σ) (rl : Runlist) : Prop :=
  a.positioned = some rl ∨
    (a.positioned = none ∧ HandedOut nr (a.clusters cs) (clustersOf s.alloc.list.runs) rl)

/-- The clusters that are taken for an attribute with this runlist. -/
def NewAttr.own (a : NewAttr) (rl : Runlist) : Finset ℕ :=
  match a.positioned with
  | some _ => ∅
  | none => (Runlist.clusters rl.elements).toFinset

/-- The allocator's part of an attribute. -/
theorem NewAttr.runlist_spec (hm : ∀ k, memory k = true) (hcs : 0 < cs) (hs : s.Ok nr)
    (a : NewAttr) (htaken : ∀ q, a.Positions cs q → s.Taken cs q) :
    ∃ out g, a.runlist memory nr cs s.alloc = (out, g) ∧ g.Ready nr ∧
      clustersOf s.alloc.list.runs ⊆ clustersOf g.list.runs ∧
      ∀ rl, out = some rl → a.From nr cs s rl ∧
        clustersOf g.list.runs = clustersOf s.alloc.list.runs ∪ a.own rl ∧
        ∀ q, rl.Covers cs q → (q / cs).toNat ∈ clustersOf g.list.runs := by
  rw [NewAttr.runlist]
  cases hpos : a.positioned with
  | some rl =>
    refine ⟨_, _, rfl, hs.ready, Subset.rfl, ?_⟩
    rintro _ ⟨⟩
    exact ⟨.inl hpos, by simp [NewAttr.own, hpos], fun q hq => htaken q ⟨rl, hpos, hq⟩⟩
  | none =>
    rcases Nat.eq_zero_or_pos (a.clusters cs) with h0 | hn
    · simp only [allocateScattered, h0, if_true]
      exact ⟨_, _, rfl, hs.ready, Subset.rfl, by rintro _ ⟨⟩⟩
    · obtain ⟨out, g, hrun, hok, hle, hsome, hnone⟩ :=
        allocateScattered_spec a.grow hm hn hs.ready.ordered hs.ready.boot hs.ready.zone
      have hsub : clustersOf s.alloc.list.runs ⊆ clustersOf g.list.runs := by
        cases out with
        | none =>
          obtain ⟨lost, hset, -⟩ := hnone rfl
          rw [hset]
          exact subset_union_left
        | some rl =>
          rw [(hsome rl rfl).2]
          exact subset_union_left
      refine ⟨out, g, hrun, ⟨hok, hsub hs.ready.boot, hle.trans hs.ready.zone⟩, hsub, ?_⟩
      intro rl hrl
      obtain ⟨hout, hset⟩ := hsome rl hrl
      refine ⟨.inr ⟨hpos, hout⟩, by rw [hset, NewAttr.own, hpos], fun q hq => ?_⟩
      rw [hset, mem_union, List.mem_toFinset]
      exact .inr (hout.cluster_of hcs hq)

theorem NewAttr.From.target (hcs : 0 < cs) (hsize : (nr * cs : ℕ) ≤ io.size) {a : NewAttr}
    {rl : Runlist} (h : a.From nr cs s rl)
    (htarget : ∀ rl, a.positioned = some rl → Target io cs a.valLen 0 rl.elements) :
    Target io cs a.valLen 0 rl.elements := by
  rcases h with hpos | ⟨-, hout⟩
  · exact htarget rl hpos
  · exact hout.target hcs hsize

/-- Clusters that were free have no byte of a cluster that was taken. -/
theorem NewAttr.From.apart (hcs : 0 < cs) {a : NewAttr} {rl : Runlist} (h : a.From nr cs s rl)
    {q : ℤ} (hq : s.Taken cs q) (hnot : ¬ a.Positions cs q) : ¬ rl.Covers cs q := by
  intro hc
  rcases h with hpos | ⟨-, hout⟩
  · exact hnot ⟨rl, hpos, hc⟩
  · exact (hout.fresh _ (hout.cluster_of hcs hc)).2 hq

/-- One attribute: its value lies where its runlist says then, and no byte of a cluster that was
taken has changed but where the attribute is positioned. -/
theorem insertNonResident_spec (h : io.Spec) (hm : ∀ k, memory k = true) (hcs : 0 < cs)
    (hsize : (nr * cs : ℕ) ≤ io.size) (hs : s.Ok nr) {a : NewAttr}
    (htarget : ∀ rl, a.positioned = some rl → Target io cs a.valLen 0 rl.elements)
    (htaken : ∀ q, a.Positions cs q → s.Taken cs q) (hhas : ∀ runs, (a.value runs).Has a.valLen) :
    ∃ out s', insertNonResident memory io nr cs s a = (out, s') ∧ s'.Ok nr ∧
      clustersOf s.alloc.list.runs ⊆ clustersOf s'.alloc.list.runs ∧
      (∀ q, s.Taken cs q → ¬ a.Positions cs q →
        io.view s'.writer.dev.ctx q = io.view s.writer.dev.ctx q) ∧
      ∀ rl, out = some rl → a.From nr cs s rl ∧ (∀ q, rl.Covers cs q → s'.Taken cs q) ∧
        clustersOf s'.alloc.list.runs = clustersOf s.alloc.list.runs ∪ a.own rl ∧
        rl.Has io (a.value s'.alloc.list.runs) cs a.valLen s'.writer.dev.ctx := by
  obtain ⟨out, g, hrun, hready, hsub, hsome⟩ := a.runlist_spec hm hcs hs htaken
  rw [insertNonResident, hrun]
  cases out with
  | none =>
    exact ⟨_, _, rfl, ⟨hready, hs.readOnly, hs.buf⟩, hsub, fun _ _ _ => rfl, by rintro _ ⟨⟩⟩
  | some rl =>
    obtain ⟨hfrom, hset, hcovers⟩ := hsome rl rfl
    by_cases hfits : a.fits = true
    · simp only [hfits, if_true]
      obtain ⟨ret, inited, w', hwrite, hplaced, hcases⟩ := ntfsRlwrite_spec h hcs
        (hhas g.list.runs) (hfrom.target hcs hsize htarget) a.callocOk hs.readOnly hs.buf
      rw [hwrite]
      refine ⟨_, _, rfl, ⟨hready, hplaced.readOnly, hplaced.buf⟩, hsub, fun q hq hnot => ?_,
        fun rl' hrl' => ?_⟩
      · exact hplaced.frame q fun x hx => hfrom.apart hcs hq hnot ⟨x, hx⟩
      · split_ifs at hrl' with hret
        · obtain rfl := Option.some.inj hrl'
          refine ⟨hfrom, hcovers, hset, ?_⟩
          have hret' : ret = a.valLen := hret
          rcases hcases with ⟨hfail, -⟩ | ⟨-, hdata⟩
          · omega
          · exact hdata
    · simp only [hfits]
      exact ⟨_, _, rfl, ⟨hready, hs.readOnly, hs.buf⟩, hsub, fun _ _ _ => rfl, by rintro _ ⟨⟩⟩

/-! ### All attributes -/

/-- What is known of the places stays so while attributes are written. -/
theorem Disk.Positioned.tail {s' : Disk σ} {a : NewAttr} {attrs : List NewAttr}
    (h : s.Positioned io cs (a :: attrs))
    (hsub : clustersOf s.alloc.list.runs ⊆ clustersOf s'.alloc.list.runs) :
    s'.Positioned io cs attrs where
  target b hb := h.target b (List.mem_cons_of_mem a hb)
  taken b hb q hq := hsub (h.taken b (List.mem_cons_of_mem a hb) q hq)
  apart := (List.pairwise_cons.mp h.apart).2
  has b hb := h.has b (List.mem_cons_of_mem a hb)

/-- No byte of a cluster that is taken is changed by the attributes to come, but where one of them
is positioned. -/
theorem insertAll_frame (h : io.Spec) (hm : ∀ k, memory k = true) (hcs : 0 < cs)
    (hsize : (nr * cs : ℕ) ≤ io.size) (attrs : List NewAttr) : ∀ s : Disk σ, s.Ok nr →
      s.Positioned io cs attrs →
      (execAll (insertNonResident memory io nr cs) attrs s).Ok nr ∧
      clustersOf s.alloc.list.runs ⊆
        clustersOf (execAll (insertNonResident memory io nr cs) attrs s).alloc.list.runs ∧
      ∀ q, s.Taken cs q → (∀ a ∈ attrs, ¬ a.Positions cs q) →
        io.view (execAll (insertNonResident memory io nr cs) attrs s).writer.dev.ctx q =
          io.view s.writer.dev.ctx q := by
  induction attrs with
  | nil => exact fun s hs _ => ⟨hs, Subset.rfl, fun _ _ _ => rfl⟩
  | cons a attrs ih =>
    intro s hs hp
    obtain ⟨out, s', hrun, hs', hsub, hframe, -⟩ := insertNonResident_spec h hm hcs hsize hs
      (hp.target a List.mem_cons_self) (hp.taken a List.mem_cons_self)
      (hp.has a List.mem_cons_self)
    obtain ⟨hok, hsub', hframe'⟩ := ih s' hs' (hp.tail hsub)
    rw [execAll, hrun]
    refine ⟨hok, hsub.trans hsub', fun q hq hnot => ?_⟩
    rw [hframe' q (hsub hq) fun b hb => hnot b (List.mem_cons_of_mem a hb),
      hframe q hq (hnot a List.mem_cons_self)]

/-- The runlists that the attributes get. -/
def runlistsOf (memory : ℕ → Bool) (io : NkIo σ) (nr cs : ℕ) (attrs : List NewAttr) (s : Disk σ) :
    List (Option Runlist) :=
  answers (insertNonResident memory io nr cs) attrs s

/-- `g_allocation` when the attribute at a place of the list has got its clusters: the list that a
bitmap at this place is made from. -/
def allocatedAfter (memory : ℕ → Bool) (io : NkIo σ) (nr cs : ℕ) (attrs : List NewAttr)
    (s : Disk σ) (i : ℕ) : List ClusterRun :=
  (execAll (insertNonResident memory io nr cs) (attrs.take (i + 1)) s).alloc.list.runs

@[simp] theorem allocatedAfter_zero (a : NewAttr) (attrs : List NewAttr) (s : Disk σ) :
    allocatedAfter memory io nr cs (a :: attrs) s 0 =
      (insertNonResident memory io nr cs s a).2.alloc.list.runs :=
  rfl

@[simp] theorem allocatedAfter_succ (a : NewAttr) (attrs : List NewAttr) (s : Disk σ) (i : ℕ) :
    allocatedAfter memory io nr cs (a :: attrs) s (i + 1) =
      allocatedAfter memory io nr cs attrs (insertNonResident memory io nr cs s a).2 i :=
  rfl

/-- A byte of an attribute that is written is none of the places of later ones. -/
theorem Disk.Positioned.later (hcs : 0 < cs) {a : NewAttr} {attrs : List NewAttr}
    (h : s.Positioned io cs (a :: attrs)) {rl : Runlist} (hfrom : a.From nr cs s rl) {q : ℤ}
    (hq : rl.Covers cs q) : ∀ b ∈ attrs, ¬ b.Positions cs q := by
  intro b hb hpos
  by_cases ha : a.Positions cs q
  · exact (List.pairwise_cons.mp h.apart).1 b hb q ha hpos
  · exact hfrom.apart hcs (h.taken b (List.mem_cons_of_mem a hb) q hpos) ha hq

/-- Every attribute that is written got its own clusters, free until then, or has its place; its
clusters are taken from then on. -/
theorem insertAll_runlists (h : io.Spec) (hm : ∀ k, memory k = true) (hcs : 0 < cs)
    (hsize : (nr * cs : ℕ) ≤ io.size) (attrs : List NewAttr) : ∀ s : Disk σ, s.Ok nr →
      s.Positioned io cs attrs → ∀ (i : ℕ) (a : NewAttr) (rl : Runlist), attrs[i]? = some a →
      (runlistsOf memory io nr cs attrs s)[i]? = some (some rl) →
      (a.positioned = some rl ∨ ∃ A, HandedOut nr (a.clusters cs) A rl) ∧
      (∀ q, rl.Covers cs q → ¬ a.Positions cs q → ¬ s.Taken cs q) ∧
      ∀ q, rl.Covers cs q →
        (execAll (insertNonResident memory io nr cs) attrs s).Taken cs q := by
  induction attrs with
  | nil =>
    intro s _ _ i a rl ha
    simp at ha
  | cons b attrs ih =>
    intro s hs hp i a rl ha hrl
    obtain ⟨out, s', hrun, hs', hsub, -, hout⟩ := insertNonResident_spec h hm hcs hsize hs
      (hp.target b List.mem_cons_self) (hp.taken b List.mem_cons_self)
      (hp.has b List.mem_cons_self)
    simp only [runlistsOf, answers, hrun] at hrl
    rw [execAll, hrun]
    have hsub' := (insertAll_frame h hm hcs hsize attrs s' hs' (hp.tail hsub)).2.1
    cases i with
    | zero =>
      obtain rfl : b = a := Option.some.inj ha
      obtain ⟨hfrom, htaken, -⟩ := hout rl (Option.some.inj hrl)
      exact ⟨hfrom.imp_right fun hout => ⟨_, hout.2⟩,
        fun q hq hnot ht => hfrom.apart hcs ht hnot hq, fun q hq => hsub' (htaken q hq)⟩
    | succ i =>
      obtain ⟨hfrom, hfresh, htaken⟩ := ih s' hs' (hp.tail hsub) i a rl ha hrl
      exact ⟨hfrom, fun q hq hnot ht => hfresh q hq hnot (hsub ht), htaken⟩

theorem length_runlistsOf (attrs : List NewAttr) : ∀ s : Disk σ,
    (runlistsOf memory io nr cs attrs s).length = attrs.length := by
  induction attrs with
  | nil => exact fun _ => rfl
  | cons a attrs ih => exact fun s => congrArg (· + 1) (ih _)

/-- No byte belongs to two of the attributes. -/
theorem insertAll_apart (h : io.Spec) (hm : ∀ k, memory k = true) (hcs : 0 < cs)
    (hsize : (nr * cs : ℕ) ≤ io.size) (attrs : List NewAttr) : ∀ s : Disk σ, s.Ok nr →
      s.Positioned io cs attrs → ∀ (i j : ℕ) (rl rl' : Runlist), i < j →
      (runlistsOf memory io nr cs attrs s)[i]? = some (some rl) →
      (runlistsOf memory io nr cs attrs s)[j]? = some (some rl') →
      ∀ q, rl.Covers cs q → ¬ rl'.Covers cs q := by
  induction attrs with
  | nil =>
    intro s _ _ i j rl rl' _ hrl
    simp [runlistsOf, answers] at hrl
  | cons b attrs ih =>
    intro s hs hp i j rl rl' hij hrl hrl'
    obtain ⟨out, s', hrun, hs', hsub, -, hout⟩ := insertNonResident_spec h hm hcs hsize hs
      (hp.target b List.mem_cons_self) (hp.taken b List.mem_cons_self)
      (hp.has b List.mem_cons_self)
    simp only [runlistsOf, answers, hrun] at hrl hrl'
    obtain ⟨j, rfl⟩ : ∃ k, j = k + 1 := ⟨j - 1, by omega⟩
    cases i with
    | zero =>
      intro q hq hq'
      obtain ⟨hfrom, htaken, -⟩ := hout rl (Option.some.inj hrl)
      have hrest : (runlistsOf memory io nr cs attrs s')[j]? = some (some rl') := hrl'
      have hj : j < attrs.length := by
        rw [← length_runlistsOf attrs s']
        exact (List.getElem?_eq_some_iff.mp hrest).1
      have hget : attrs[j]? = some attrs[j] := List.getElem?_eq_getElem hj
      obtain ⟨-, hfresh, -⟩ := insertAll_runlists h hm hcs hsize attrs s' hs' (hp.tail hsub) j _ rl'
        hget hrest
      exact hfresh q hq' (hp.later hcs hfrom hq _ (List.getElem_mem hj)) (htaken q hq)
    | succ i => exact ih s' hs' (hp.tail hsub) i j rl rl' (by omega) hrl hrl'

/-- The values at the end: that of an attribute was made when the clusters of this attribute, and
of those before it, were taken. -/
theorem insertAll_values (h : io.Spec) (hm : ∀ k, memory k = true) (hcs : 0 < cs)
    (hsize : (nr * cs : ℕ) ≤ io.size) (attrs : List NewAttr) : ∀ s : Disk σ, s.Ok nr →
      s.Positioned io cs attrs → ∀ (i : ℕ) (a : NewAttr) (rl : Runlist), attrs[i]? = some a →
      (runlistsOf memory io nr cs attrs s)[i]? = some (some rl) →
      rl.Has io (a.value (allocatedAfter memory io nr cs attrs s i)) cs a.valLen
        (execAll (insertNonResident memory io nr cs) attrs s).writer.dev.ctx := by
  induction attrs with
  | nil =>
    intro s _ _ i a rl ha
    simp at ha
  | cons b attrs ih =>
    intro s hs hp i a rl ha hrl
    obtain ⟨out, s', hrun, hs', hsub, -, hout⟩ := insertNonResident_spec h hm hcs hsize hs
      (hp.target b List.mem_cons_self) (hp.taken b List.mem_cons_self)
      (hp.has b List.mem_cons_self)
    simp only [runlistsOf, answers, hrun] at hrl
    rw [execAll, hrun]
    cases i with
    | zero =>
      obtain rfl : b = a := Option.some.inj ha
      obtain ⟨hfrom, htaken, -, hdata⟩ := hout rl (Option.some.inj hrl)
      obtain ⟨-, -, hframe⟩ := insertAll_frame h hm hcs hsize attrs s' hs' (hp.tail hsub)
      intro x p hx
      rw [allocatedAfter_zero, hrun]
      rw [hframe p (htaken p ⟨x, hx⟩) (hp.later hcs hfrom ⟨x, hx⟩)]
      exact hdata x p hx
    | succ i =>
      rw [allocatedAfter_succ, hrun]
      exact ih s' hs' (hp.tail hsub) i a rl ha hrl

/-- The list of clusters at the end of a run without a failure. -/
theorem insertAll_clusters (h : io.Spec) (hm : ∀ k, memory k = true) (hcs : 0 < cs)
    (hsize : (nr * cs : ℕ) ≤ io.size) (attrs : List NewAttr) : ∀ s : Disk σ, s.Ok nr →
      s.Positioned io cs attrs → none ∉ runlistsOf memory io nr cs attrs s → ∀ k : ℕ,
      k ∈ clustersOf (execAll (insertNonResident memory io nr cs) attrs s).alloc.list.runs ↔
        k ∈ clustersOf s.alloc.list.runs ∨ ∃ (i : ℕ) (a : NewAttr) (rl : Runlist),
          attrs[i]? = some a ∧ (runlistsOf memory io nr cs attrs s)[i]? = some (some rl) ∧
          k ∈ a.own rl := by
  induction attrs with
  | nil => intro s _ _ _ k; simp [execAll]
  | cons b attrs ih =>
    intro s hs hp hall k
    obtain ⟨out, s', hrun, hs', hsub, -, hout⟩ := insertNonResident_spec h hm hcs hsize hs
      (hp.target b List.mem_cons_self) (hp.taken b List.mem_cons_self)
      (hp.has b List.mem_cons_self)
    have hanswers : runlistsOf memory io nr cs (b :: attrs) s =
        out :: runlistsOf memory io nr cs attrs s' := by
      rw [runlistsOf, answers, hrun]
      rfl
    rw [hanswers, List.mem_cons, not_or] at hall
    rw [execAll, hrun, ih s' hs' (hp.tail hsub) hall.2, hanswers]
    cases out with
    | none => exact absurd rfl hall.1
    | some rl =>
      obtain ⟨-, -, hset, -⟩ := hout rl rfl
      rw [hset, mem_union, or_assoc]
      refine or_congr_right ⟨?_, ?_⟩
      · rintro (hk | ⟨i, a, rl', ha, hrl, hk⟩)
        · exact ⟨0, b, rl, rfl, rfl, hk⟩
        · exact ⟨i + 1, a, rl', ha, hrl, hk⟩
      · rintro ⟨i, a, rl', ha, hrl, hk⟩
        cases i with
        | zero =>
          obtain rfl : b = a := Option.some.inj ha
          obtain rfl : rl = rl' := Option.some.inj (Option.some.inj hrl)
          exact .inl hk
        | succ i => exact .inr ⟨i, a, rl', ha, hrl, hk⟩

/-- Attributes that are written one after the other, to places of their own or to new clusters,
whichever of them fail, where every list node gets its memory: at the end every value that was
written lies whole where its runlist says, a bitmap as of the moment its attribute got its
clusters; no byte belongs to two of them, and nothing else that was allocated before has
changed. -/
theorem files_on_disk (h : io.Spec) (hm : ∀ k, memory k = true) (hcs : 0 < cs)
    (hsize : (nr * cs : ℕ) ≤ io.size) {attrs : List NewAttr} (hs : s.Ok nr)
    (hp : s.Positioned io cs attrs) :
    (∀ (i : ℕ) (a : NewAttr) (rl : Runlist), attrs[i]? = some a →
      (runlistsOf memory io nr cs attrs s)[i]? = some (some rl) →
      rl.Has io (a.value (allocatedAfter memory io nr cs attrs s i)) cs a.valLen
        (execAll (insertNonResident memory io nr cs) attrs s).writer.dev.ctx) ∧
    (∀ (i j : ℕ) (rl rl' : Runlist), i < j →
      (runlistsOf memory io nr cs attrs s)[i]? = some (some rl) →
      (runlistsOf memory io nr cs attrs s)[j]? = some (some rl') →
      ∀ q, rl.Covers cs q → ¬ rl'.Covers cs q) ∧
    ∀ q, s.Taken cs q → (∀ a ∈ attrs, ¬ a.Positions cs q) →
      io.view (execAll (insertNonResident memory io nr cs) attrs s).writer.dev.ctx q =
        io.view s.writer.dev.ctx q :=
  ⟨insertAll_values h hm hcs hsize attrs s hs hp, insertAll_apart h hm hcs hsize attrs s hs hp,
    (insertAll_frame h hm hcs hsize attrs s hs hp).2.2⟩

/-- The allocator does not see what is written. -/
theorem insertNonResident_alloc (a : NewAttr) : (insertNonResident memory io nr cs s a).2.alloc =
    (a.runlist memory nr cs s.alloc).2 := by
  rw [insertNonResident]
  cases a.runlist memory nr cs s.alloc with
  | mk out g =>
    cases out with
    | none => rfl
    | some rl => cases a.fits <;> rfl

/-- On a device that never fails every attribute that gets its clusters, and has room for them in
its record, is written. -/
theorem runlistsOf_eq (h : io.Spec) (hm : ∀ k, memory k = true) (hcs : 0 < cs)
    (hsize : (nr * cs : ℕ) ≤ io.size) (hnever : ¬ io.MayFail) (attrs : List NewAttr) :
    ∀ s : Disk σ, s.Ok nr → s.Positioned io cs attrs →
      (∀ a ∈ attrs, (∀ rl, a.positioned = some rl → HandedOut nr (a.clusters cs) ∅ rl) ∧
        a.fits = true ∧ a.callocOk = true) →
      runlistsOf memory io nr cs attrs s =
        answers (fun g a => a.runlist memory nr cs g) attrs s.alloc := by
  induction attrs with
  | nil => exact fun _ _ _ _ => rfl
  | cons a attrs ih =>
    intro s hs hp hgood
    obtain ⟨hplace, hfits, hcalloc⟩ := hgood a List.mem_cons_self
    have hrest := insertNonResident_spec h hm hcs hsize hs (hp.target a List.mem_cons_self)
      (hp.taken a List.mem_cons_self) (hp.has a List.mem_cons_self)
    obtain ⟨out, s', hrun, hs', hsub, -, -⟩ := hrest
    have halloc : (insertNonResident memory io nr cs s a).2.alloc =
        (a.runlist memory nr cs s.alloc).2 := insertNonResident_alloc a
    have htail := ih s' hs' (hp.tail hsub) fun b hb => hgood b (List.mem_cons_of_mem a hb)
    rw [hrun] at halloc
    rw [runlistsOf, answers, answers, hrun, ← halloc, ← htail]
    refine congrArg (· :: _) ?_
    obtain ⟨rlOut, g, hlist, -, -, hsome⟩ := a.runlist_spec hm hcs hs
      (hp.taken a List.mem_cons_self)
    rw [insertNonResident, hlist] at hrun
    rw [hlist]
    cases rlOut with
    | none => exact (Prod.mk.inj hrun).1.symm
    | some rl =>
      obtain ⟨A, hout⟩ : ∃ A, HandedOut nr (a.clusters cs) A rl := by
        rcases (hsome rl rfl).1 with hpos | ⟨-, hout⟩
        · exact ⟨∅, hplace rl hpos⟩
        · exact ⟨_, hout⟩
      obtain ⟨ret, inited, w', hwrite, hcases⟩ := hout.written h hcs hsize
        (hp.has a List.mem_cons_self g.list.runs) a.callocOk hs.readOnly hs.buf
      rcases hcases with ⟨-, hfail | hfail⟩ | hret
      · exact absurd hfail hnever
      · rw [hcalloc] at hfail
        exact absurd hfail (by decide)
      · simp only [hfits, if_true, hwrite, hret] at hrun
        exact (Prod.mk.inj hrun).1.symm

end Disk

/-- A disk of twelve clusters of two bytes, which takes three bytes at a time. -/
def twelveDisk : Disk (ℤ → UInt8) := ⟨twelveClusters, ⟨⟨fun _ => 1, 0, false, false⟩, [0]⟩⟩

theorem twelveDisk_ok : twelveDisk.Ok 12 :=
  ⟨⟨twelveClusters_ok, by decide +kernel, by decide⟩, rfl, by decide⟩

/-- Values of nine and of three bytes. -/
def twoValues : List NewAttr :=
  [⟨none, fun _ => .standard [1, 2, 3, 4, 5, 6, 7, 8, 9], 9, fun _ => true, true, true⟩,
    ⟨none, fun _ => .standard [10, 11, 12], 3, fun _ => true, true, true⟩]

theorem twoValues_positioned :
    twelveDisk.Positioned (sipDisk 3 24) 2 twoValues where
  target a ha rl hrl := by
    simp only [twoValues, List.mem_cons, List.not_mem_nil, or_false] at ha
    rcases ha with rfl | rfl <;> simp at hrl
  taken a ha q hq := by
    obtain ⟨rl, hrl, -⟩ := hq
    simp only [twoValues, List.mem_cons, List.not_mem_nil, or_false] at ha
    rcases ha with rfl | rfl <;> simp at hrl
  apart := by
    simp only [twoValues, List.pairwise_cons, List.mem_singleton, forall_eq, List.not_mem_nil,
      false_imp_iff, implies_true, List.Pairwise.nil, and_true]
    rintro q ⟨rl, hrl, -⟩
    simp at hrl
  has a ha runs := by
    simp only [twoValues, List.mem_cons, List.not_mem_nil, or_false] at ha
    rcases ha with rfl | rfl <;> simp [WriteType.Has]

/-- The second value starts where the first one ends. -/
theorem files_on_disk_two : runlistsOf (fun _ => true) (sipDisk 3 24) 12 2 twoValues twelveDisk =
      [some [⟨0, 5, 1⟩, ⟨1, 7, 4⟩, ⟨5, 0, 0⟩], some [⟨0, 11, 1⟩, ⟨1, 3, 1⟩, ⟨2, 0, 0⟩]] ∧
    Runlist.Has (sipDisk 3 24) (.standard [10, 11, 12]) 2 3 [⟨0, 11, 1⟩, ⟨1, 3, 1⟩, ⟨2, 0, 0⟩]
      (execAll (insertNonResident (fun _ => true) (sipDisk 3 24) 12 2) twoValues
        twelveDisk).writer.dev.ctx := by
  have hrl : runlistsOf (fun _ => true) (sipDisk 3 24) 12 2 twoValues twelveDisk =
      [some [⟨0, 5, 1⟩, ⟨1, 7, 4⟩, ⟨5, 0, 0⟩], some [⟨0, 11, 1⟩, ⟨1, 3, 1⟩, ⟨2, 0, 0⟩]] := by
    decide +kernel
  have hvalue := (files_on_disk (sipDisk_spec (by decide) 24) (fun _ => rfl) (by decide)
    (by decide) twelveDisk_ok twoValues_positioned).1 1 _ _ rfl (by rw [hrl]; rfl)
  exact ⟨hrl, hvalue⟩

end NtfsKit
