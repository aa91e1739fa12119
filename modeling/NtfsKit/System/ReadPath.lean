import NtfsKit.System.Writes

/-! The two ways to read a file. `nk_read` copies bytes through the library; a read
map hands out extents, and the kernel reads the device through them. For a file
without writes in flight above `initialized_size` both give the same bytes, and
the map changes nothing that `nk_read` returns. -/

namespace NtfsKit

variable {σ : Type} {L : Libntfs σ} {v : NkVolume}

/-- Byte `x` as the kernel finds it through an extent. -/
def Extent.byte (disk : ℤ → UInt8) (e : Extent) (x : ℤ) : UInt8 :=
  if e.physical < 0 then 0 else disk (e.physical + (x - e.logical))

/-- Byte `x` as the kernel finds it through the extents of a map. -/
def readExtents (es : List Extent) (disk : ℤ → UInt8) (x : ℤ) : UInt8 :=
  match es.find? fun e => e.logical ≤ x ∧ x < e.logical + e.length with
  | some e => e.byte disk x
  | none => 0

theorem Tiles.readExtents_eq {a b x : ℤ} {es : List Extent} (h : Tiles a b es) (h1 : a ≤ x)
    (h2 : x < b) (disk : ℤ → UInt8) : ∃ e ∈ es, e.logical ≤ x ∧ x < e.logical + e.length ∧
      readExtents es disk x = e.byte disk x := by
  obtain ⟨d, hd, hdx⟩ := h.cover x h1 h2
  cases hf : es.find? fun e => e.logical ≤ x ∧ x < e.logical + e.length with
  | none => exact absurd hdx (by simpa using List.find?_eq_none.mp hf d hd)
  | some e =>
    obtain ⟨h3, h4⟩ : e.logical ≤ x ∧ x < e.logical + e.length := by simpa using List.find?_some hf
    refine ⟨e, List.mem_of_find?_eq_some hf, h3, h4, ?_⟩
    simp only [readExtents, hf]

/-- A read map of a file without writes in flight changes no byte that reads see. -/
theorem MapRead.byte_eq {bs : ℤ} {v w : View} (h : MapRead bs v w) (hv : v.Ok)
    (hwm : v.hwm ≤ v.init) {x : ℤ} (h0 : 0 ≤ x) : w.byte x = v.byte x := by
  have hmark : v.mark = v.init := max_eq_left hwm
  have htail := hv.size_le
  have hinit := hv.init_le
  have hle := h.init_le
  unfold View.byte
  by_cases hx : x < v.init
  · rw [if_pos hx, if_pos (by omega)]
    exact h.keep.eq_of_lt h0 (by omega) (by omega)
  · rw [if_neg hx]
    split_ifs with hw
    · exact h.zero x (not_lt.mp hx) hw
    · rfl

/-- What a right extent shows of a byte within the file is what a read returns. -/
theorem Extent.Right.byte_eq {bs : ℤ} (hbs : 0 < bs) {vol : NtfsVolume} {f g : NkFile σ}
    (hr : g.na.nonResident = true) (hm : MapRead bs (f.view vol) (g.view vol))
    (hwm : f.wrHwm ≤ f.na.recInitializedSize) {e : Extent}
    (he : e.Right vol.clusterSize g.na.rl (roundUp bs g.na.recInitializedSize)) {x : ℤ}
    (h1 : e.logical ≤ x) (h2 : x < e.logical + e.length) (hx : x < f.na.dataSize) :
    e.byte g.disk x = (g.view vol).byte x := by
  have hup : x < roundUp bs g.na.recInitializedSize → x < g.na.recInitializedSize := fun h => by
    -- the end of the data is a multiple of the block or the end of the file
    have hin : g.na.recInitializedSize =
        min (roundUp bs f.na.recInitializedSize) f.na.dataSize := hm.init.trans (if_pos hwm)
    by_contra hn
    have heq : g.na.recInitializedSize = roundUp bs f.na.recInitializedSize := by omega
    rw [heq, roundUp_of_dvd hbs (dvd_roundUp _ _)] at h
    omega
  have hbyte : (g.view vol).byte x =
      if x < g.na.recInitializedSize then g.content vol x else 0 := rfl
  rw [hbyte, Extent.byte]
  rcases he x h1 h2 with ⟨hp, hphys, hlt⟩ | ⟨hp, hz⟩
  · rw [if_neg (not_lt.mpr hp), if_pos (hup hlt)]
    exact (Ntfs.content_of_phys hphys).symm
  · rw [if_pos (by omega)]
    split_ifs with hin
    · rcases hz with hz | hz
      · have hcon : g.content vol x = if g.na.nonResident then 0 else g.na.value x := by
          simp only [Ntfs.content, Ntfs.phys, hz]
        rw [hcon, if_pos hr]
      · have := le_roundUp hbs g.na.recInitializedSize
        omega
    · rfl

/-- A file both of whose clusters are the same cluster of the volume. -/
def crossLinked : NkFile Unit :=
  { staleFile 2 1024 612 with
    na := { (staleFile 2 1024 612).na with rl := [⟨0, 4, 1⟩, ⟨1, 4, 1⟩] } }

end NtfsKit
