import NtfsKit.Engine.Runlist
import NtfsKit.Lib.RoundUp

/-! What the bridge uses of libntfs-3g, which is not part of the repository. The
calls are the fields of `Libntfs`; `Libntfs.Spec` collects the behaviour the
bridge relies on. Every call may fail, at the library's choice: the choice is
made from its hidden state `σ` (free clusters, the MFT, device errors).

A file is seen through its `content`: the bytes its clusters hold, zeros in
holes, and the resident value when it has no clusters. The content says nothing
about `initialized_size`: `attrByte` is what a read returns. -/

namespace NtfsKit

/-- The unnamed data attribute of an open inode. `initializedSize` is the copy in
memory, loaded when the attribute is opened; `recInitializedSize` is the one in
the attribute record, which outlives the call. -/
structure NtfsAttr where
  nonResident : Bool
  compressed : Bool
  encrypted : Bool
  dataSize : ℤ
  initializedSize : ℤ
  recInitializedSize : ℤ
  rl : Runlist
  /-- The bytes of a resident attribute. -/
  value : ℤ → UInt8

/-- The device, the attribute and the rest of the library's state. -/
structure Ntfs (σ : Type) where
  disk : ℤ → UInt8
  na : NtfsAttr
  eng : σ

variable {σ : Type}

namespace Ntfs

/-- Where byte `x` of the file lies on the device. -/
def phys (vol : NtfsVolume) (s : Ntfs σ) (x : ℤ) : Option ℤ := s.na.rl.phys vol.clusterSize x

/-- The byte stored for offset `x`, whether initialized or not. -/
def content (vol : NtfsVolume) (s : Ntfs σ) (x : ℤ) : UInt8 :=
  match s.phys vol x with
  | some p => s.disk p
  | none => if s.na.nonResident then 0 else s.na.value x

/-- One byte of `ntfs_attr_pread`: zero at or above `initialized_size` and in
holes, the stored byte otherwise. -/
def attrByte (vol : NtfsVolume) (s : Ntfs σ) (x : ℤ) : UInt8 :=
  if x < s.na.initializedSize then s.content vol x else 0

/-- The end of the bytes the last cluster holds for the file. -/
def tail (vol : NtfsVolume) (s : Ntfs σ) : ℤ :=
  if s.na.nonResident then roundUp vol.clusterSize s.na.dataSize else s.na.dataSize

/-- An intact file: a proper runlist, `initialized_size` within `data_size`, and no
clusters while it is resident. -/
structure Wf (vol : NtfsVolume) (s : Ntfs σ) : Prop where
  rl_ok : s.na.rl.Ok vol.clusterSize
  init_nonneg : 0 ≤ s.na.recInitializedSize
  init_le : s.na.recInitializedSize ≤ s.na.dataSize
  resident : s.na.nonResident = false → s.na.rl = [] ∧ s.na.recInitializedSize = s.na.dataSize

end Ntfs

/-- The calls out of the repository that the file paths of the bridge make. -/
structure Libntfs (σ : Type) where
  pathnameToInode : σ → Bool × σ
  attrOpen : σ → Bool × σ
  attrForceNonResident : Ntfs σ → ℤ × Ntfs σ
  attrTruncateSolid : Ntfs σ → ℤ → ℤ × Ntfs σ
  attrTruncate : Ntfs σ → ℤ → ℤ × Ntfs σ
  attrMapWholeRunlist : Ntfs σ → ℤ × Ntfs σ
  attrPwrite : Ntfs σ → ℤ → ℤ → (ℤ → UInt8) → ℤ × Ntfs σ
  /-- `ntfs_pwrite` on the device. -/
  pwrite : Ntfs σ → ℤ → ℤ → (ℤ → UInt8) → ℤ × Ntfs σ
  /-- `ntfs_attr_get_search_ctx` and `ntfs_attr_lookup`. -/
  attrLookup : σ → Bool × σ
  inodeSync : σ → ℤ × σ
  inodeClose : σ → ℤ × σ
  /-- The allocation in `wr_set`. -/
  realloc : σ → Bool × σ

section Effects

variable (vol : NtfsVolume)

/-- The parts of an attribute that no data call changes. -/
structure SameKind (s t : Ntfs σ) : Prop where
  nonResident : t.na.nonResident = s.na.nonResident
  compressed : t.na.compressed = s.na.compressed
  encrypted : t.na.encrypted = s.na.encrypted

/-- A full `ntfs_attr_pwrite` inside `data_size`: the clusters between
`initialized_size` and the start are zeroed, holes in the range get zeroed
clusters, and `initialized_size` ends at or above the range's end. -/
structure Written (s : Ntfs σ) (pos count : ℤ) (buf : ℤ → UInt8) (t : Ntfs σ) : Prop where
  wf : t.Wf vol
  kind : SameKind s t
  dataSize : t.na.dataSize = s.na.dataSize
  init : t.na.initializedSize = max s.na.initializedSize (pos + count)
  recInit : t.na.recInitializedSize =
    if s.na.initializedSize < pos + count then pos + count else s.na.recInitializedSize
  phys : ∀ x p, s.phys vol x = some p → t.phys vol x = some p
  backed : ∀ x, pos ≤ x → x < pos + count → ∃ p, t.phys vol x = some p
  content : ∀ x, t.content vol x =
    if pos ≤ x ∧ x < pos + count then buf (x - pos)
    else if s.na.initializedSize ≤ x ∧ x < pos then 0 else s.content vol x

/-- A short or failed `ntfs_attr_pwrite`: sizes as before, and every byte as
before, zeroed above `initialized_size`, or written. -/
structure PartlyWritten (s : Ntfs σ) (pos count : ℤ) (buf : ℤ → UInt8) (t : Ntfs σ) :
    Prop where
  wf : t.Wf vol
  kind : SameKind s t
  dataSize : t.na.dataSize = s.na.dataSize
  init : t.na.initializedSize = s.na.initializedSize
  recInit : t.na.recInitializedSize = s.na.recInitializedSize
  phys : ∀ x p, s.phys vol x = some p → t.phys vol x = some p
  content : ∀ x, t.content vol x = s.content vol x ∨
    (s.na.initializedSize ≤ x ∧ x < pos ∧ t.content vol x = 0) ∨
    (pos ≤ x ∧ x < pos + count ∧ t.content vol x = buf (x - pos))

/-- `ntfs_attr_truncate_solid` to `size`: clusters of arbitrary content from the end
of the last one on, `initialized_size` left where it was. -/
structure Grown (s : Ntfs σ) (size : ℤ) (t : Ntfs σ) : Prop where
  wf : t.Wf vol
  kind : SameKind s t
  dataSize : t.na.dataSize = size
  init : t.na.initializedSize = s.na.initializedSize
  recInit : t.na.recInitializedSize = s.na.recInitializedSize
  phys : ∀ x p, s.phys vol x = some p → t.phys vol x = some p
  content : ∀ x, 0 ≤ x → x < s.tail vol → t.content vol x = s.content vol x

/-- `ntfs_attr_force_non_resident`: the value moves into clusters. -/
structure Converted (s t : Ntfs σ) : Prop where
  wf : t.Wf vol
  nonResident : t.na.nonResident = true
  compressed : t.na.compressed = s.na.compressed
  encrypted : t.na.encrypted = s.na.encrypted
  dataSize : t.na.dataSize = s.na.dataSize
  init : t.na.initializedSize = s.na.initializedSize
  recInit : t.na.recInitializedSize = s.na.recInitializedSize
  content : ∀ x, 0 ≤ x → x < s.na.dataSize → t.content vol x = s.content vol x

/-- `ntfs_attr_truncate` to `size`: the clusters below the new end stay, the file
may become resident, and bytes that come to lie below `initialized_size` are
zeros. -/
structure Truncated (s : Ntfs σ) (size : ℤ) (t : Ntfs σ) : Prop where
  wf : t.Wf vol
  size_nonneg : 0 ≤ size
  dataSize : t.na.dataSize = size
  init_le : min s.na.recInitializedSize size ≤ t.na.recInitializedSize
  init_eq : s.na.nonResident = true →
    t.na.recInitializedSize = min s.na.recInitializedSize size
  zero : ∀ x, s.na.dataSize ≤ x → x < t.na.recInitializedSize → t.content vol x = 0
  keep : ∀ x, 0 ≤ x → x < s.na.dataSize → x < size → t.content vol x = s.content vol x
  keepTail : s.na.nonResident = true → ∀ x, 0 ≤ x → x < s.tail vol →
    x < roundUp vol.clusterSize size →
    t.phys vol x = s.phys vol x ∧ t.content vol x = s.content vol x

/-- A device write of `count` bytes. -/
def diskWrite (disk : ℤ → UInt8) (pos count : ℤ) (buf : ℤ → UInt8) : ℤ → UInt8 :=
  fun q => if pos ≤ q ∧ q < pos + count then buf (q - pos) else disk q

/-- `ntfs_pwrite` on the device: a full write stores the buffer, a short one stores some of its
bytes at most. -/
structure Libntfs.DeviceWrites (L : Libntfs σ) : Prop where
  pwrite_ok : ∀ s pos count buf, (L.pwrite s pos count buf).1 = count →
    (L.pwrite s pos count buf).2.na = s.na ∧
      (L.pwrite s pos count buf).2.disk = diskWrite s.disk pos count buf
  pwrite_short : ∀ s pos count buf, (L.pwrite s pos count buf).1 ≠ count →
    (L.pwrite s pos count buf).2.na = s.na ∧
      ∀ q, (L.pwrite s pos count buf).2.disk q = s.disk q ∨
        (L.pwrite s pos count buf).2.disk q = diskWrite s.disk pos count buf q

/-- The behaviour of libntfs-3g that the bridge relies on. -/
structure Libntfs.Spec (L : Libntfs σ) : Prop extends L.DeviceWrites where
  attrPwrite_ok : ∀ s pos count buf, s.Wf vol → s.na.nonResident = true → 0 ≤ pos →
    0 < count → pos + count ≤ s.na.dataSize → (L.attrPwrite s pos count buf).1 = count →
    Written vol s pos count buf (L.attrPwrite s pos count buf).2
  attrPwrite_short : ∀ s pos count buf, s.Wf vol → s.na.nonResident = true → 0 ≤ pos →
    0 < count → pos + count ≤ s.na.dataSize → (L.attrPwrite s pos count buf).1 ≠ count →
    PartlyWritten vol s pos count buf (L.attrPwrite s pos count buf).2
  attrMapWholeRunlist : ∀ s, (L.attrMapWholeRunlist s).2.na = s.na ∧
    (L.attrMapWholeRunlist s).2.disk = s.disk
  attrTruncateSolid_ok : ∀ s size, s.Wf vol → s.na.nonResident = true →
    s.na.dataSize ≤ size → (L.attrTruncateSolid s size).1 = 0 →
    Grown vol s size (L.attrTruncateSolid s size).2
  attrTruncateSolid_fail : ∀ s size, s.Wf vol → s.na.nonResident = true →
    s.na.dataSize ≤ size → (L.attrTruncateSolid s size).1 ≠ 0 →
    Grown vol s s.na.dataSize (L.attrTruncateSolid s size).2
  attrForceNonResident_ok : ∀ s, s.Wf vol → s.na.nonResident = false →
    (L.attrForceNonResident s).1 = 0 → Converted vol s (L.attrForceNonResident s).2
  attrForceNonResident_fail : ∀ s, s.Wf vol → s.na.nonResident = false →
    (L.attrForceNonResident s).1 ≠ 0 → (L.attrForceNonResident s).2.na = s.na
  attrTruncate_ok : ∀ s size, s.Wf vol → (L.attrTruncate s size).1 = 0 →
    Truncated vol s size (L.attrTruncate s size).2

/-- A runlist the library maps begins with the attribute's first cluster, and a device write
leaves the attribute alone. -/
structure Libntfs.Maps (L : Libntfs σ) : Prop where
  first : ∀ s, (L.attrMapWholeRunlist s).1 = 0 →
    ∀ e ∈ (L.attrMapWholeRunlist s).2.na.rl.elements.head?, e.vcn = 0
  pwrite : ∀ s pos count buf, (L.pwrite s pos count buf).2.na = s.na

/-- After a full `ntfs_attr_pwrite` no byte of the range is in a hole, and neither it nor
mapping the runlist takes a cluster away. -/
structure Libntfs.FillsHoles (L : Libntfs σ) : Prop where
  backed : ∀ s pos count buf, (L.attrPwrite s pos count buf).1 = count → ∀ x, pos ≤ x →
    x < pos + count → ((L.attrPwrite s pos count buf).2.phys vol x).isSome
  keeps : ∀ s pos count buf, (L.attrPwrite s pos count buf).1 = count → ∀ x,
    (s.phys vol x).isSome → ((L.attrPwrite s pos count buf).2.phys vol x).isSome
  maps : ∀ s x, (s.phys vol x).isSome → ((L.attrMapWholeRunlist s).2.phys vol x).isSome

end Effects

end NtfsKit
