import JwalkMeta.WalkDir.BufferEntries
import JwalkMeta.WalkDir.Callback

/-!
# Chains of records of `NtQueryDirectoryFileEx`

NT writes the entries of a directory into a buffer as a chain: each record has its fixed part, its
name, and the distance to the next record. Every record whose copy as a structure fits in the buffer
is reported with the fields and the name that were written. The structure is larger than the fixed
part, though, and a record with a short name at the very end of the buffer can be shorter than it:
such a record is dropped.

Source: `src/core/nt_dir_enum.rs`.

## Main definitions

* `DirRecord`: a record as NT writes it, with its bytes.
* `Chain`: records laid out in a buffer.
* `keptCalls`: the calls for the records that fit as structures.
* `enumerateDir`: the loop over the buffers that NT fills.

## Main results

* `entryAt_of_holds`: the fixed part of a record is read back.
* `reportsCalls_keptCalls`: what the parser reports of a chain.
* `chain_packed`: records that are written one after the other are a chain.
* `reportsCalls_chain_iff`: when the parser reports every entry.
* `enumerateDir_eq_windowsRecords`: the entries that a directory read starts from are those that the
  parser finds in the buffers.
-/

namespace JwalkMeta

open Interaction

/-! ### Chains of records -/

/-- A record as the kernel writes it. -/
structure DirRecord where
  info : FileIdBothDirInfo
  name : List UInt16
  /-- The byte between `ShortNameLength` and `ShortName`. -/
  shortNamePadding : UInt8
  /-- The bytes between `ShortName` and `FileId`. -/
  fileIdPadding : UInt8 × UInt8
  length_shortName : info.shortName.length = 12
  fileNameLength_eq : info.fileNameLength.toNat = 2 * name.length

namespace DirRecord

variable (endian : Endian) (r : DirRecord)

/-- The bytes before the name. -/
def fixedBytes : List UInt8 :=
  endian.toBytes 4 r.info.nextEntryOffset.toNat ++ (endian.toBytes 4 r.info.fileIndex.toNat ++
    (endian.toBytes 8 r.info.creationTime.toUInt64.toNat ++
    (endian.toBytes 8 r.info.lastAccessTime.toUInt64.toNat ++
    (endian.toBytes 8 r.info.lastWriteTime.toUInt64.toNat ++
    (endian.toBytes 8 r.info.changeTime.toUInt64.toNat ++
    (endian.toBytes 8 r.info.endOfFile.toUInt64.toNat ++
    (endian.toBytes 8 r.info.allocationSize.toUInt64.toNat ++
    (endian.toBytes 4 r.info.fileAttributes.toNat ++
    (endian.toBytes 4 r.info.fileNameLength.toNat ++ (endian.toBytes 4 r.info.eaSize.toNat ++
    (endian.toBytes 1 r.info.shortNameLength.toUInt8.toNat ++ ([r.shortNamePadding] ++
    (endian.unitBytes r.info.shortName ++ ([r.fileIdPadding.1, r.fileIdPadding.2] ++
      endian.toBytes 8 r.info.fileId.toUInt64.toNat))))))))))))))

/-- The bytes of a record. -/
def toBytes : List UInt8 := r.fixedBytes endian ++ endian.unitBytes r.name

/-- Whether a record is for `.` or for `..`. -/
def isDot : Bool := r.name == [46] || r.name == [46, 46]

/-- The call of `on_entry` that a record asks for. -/
def call : EntryCall := (r.info, r.name)

theorem length_fixedBytes :
    (r.fixedBytes endian).length = FileIdBothDirInfo.nameStartOffset := by
  simp [fixedBytes, r.length_shortName, FileIdBothDirInfo.nameStartOffset_eq]

theorem length_toBytes :
    (r.toBytes endian).length = FileIdBothDirInfo.nameStartOffset + 2 * r.name.length := by
  rw [toBytes, List.length_append, length_fixedBytes, Endian.length_unitBytes]

end DirRecord

section Fields

variable {endian : Endian} {ρ : ℕ → UInt8} {offset : ℕ}

open FileIdBothDirInfo

/-- A field of a copied record in the memory. -/
theorem fieldBytes_window {i n : ℕ} (hn : (fields.getD i .u8).size = n)
    (hi : ReprC.fieldOffset fields i + n ≤ size) :
    fieldBytes (window ρ offset size) i = window ρ (offset + ReprC.fieldOffset fields i) n := by
  rw [fieldBytes, hn, take_drop_window ρ hi]

theorem toNat_fieldBytes {i width n : ℕ} (hwidth : (fields.getD i .u8).size = width)
    (hi : ReprC.fieldOffset fields i + width ≤ size) (hn : n < 256 ^ width)
    (h : Holds ρ (offset + ReprC.fieldOffset fields i) (endian.toBytes width n)) :
    endian.toNat (fieldBytes (window ρ offset size) i) = n := by
  rw [Holds, Endian.length_toBytes] at h
  rw [fieldBytes_window hwidth hi, h, endian.toNat_toBytes hn]

theorem ofNat_u32_field {x : UInt32} {i : ℕ} (hwidth : (fields.getD i .u8).size = 4)
    (hi : ReprC.fieldOffset fields i + 4 ≤ size)
    (h : Holds ρ (offset + ReprC.fieldOffset fields i) (endian.toBytes 4 x.toNat)) :
    UInt32.ofNat (endian.toNat (fieldBytes (window ρ offset size) i)) = x := by
  rw [toNat_fieldBytes hwidth hi x.toNat_lt h, UInt32.ofNat_toNat]

theorem ofNat_i64_field {x : Int64} {i : ℕ} (hwidth : (fields.getD i .u8).size = 8)
    (hi : ReprC.fieldOffset fields i + 8 ≤ size)
    (h : Holds ρ (offset + ReprC.fieldOffset fields i) (endian.toBytes 8 x.toUInt64.toNat)) :
    (UInt64.ofNat (endian.toNat (fieldBytes (window ρ offset size) i))).toInt64 = x := by
  rw [toNat_fieldBytes hwidth hi x.toUInt64.toNat_lt h, UInt64.ofNat_toNat,
    Int64.toInt64_toUInt64]

/-- The fixed part of a record is read back. -/
theorem entryAt_of_holds {r : DirRecord} (h : Holds ρ offset (r.fixedBytes endian)) :
    entryAt endian ρ offset = r.info := by
  have hshort : (endian.unitBytes r.info.shortName).length = 24 := by
    rw [Endian.length_unitBytes, r.length_shortName]
  simp only [DirRecord.fixedBytes, holds_append, Endian.length_toBytes, hshort, List.length_cons,
    List.length_nil] at h
  obtain ⟨hnext, hindex, hcreation, haccess, hwrite, hchange, heof, hallocation, hattributes,
    hlength, hea, hshortLength, -, hshortName, -, hid⟩ := h
  have hshortNameLength : (UInt8.ofNat (endian.toNat
      (fieldBytes (window ρ offset size) 11))).toInt8 = r.info.shortNameLength := by
    rw [toNat_fieldBytes rfl (by decide) r.info.shortNameLength.toUInt8.toNat_lt hshortLength,
      UInt8.ofNat_toNat, Int8.toInt8_toUInt8]
  have hshortNameUnits : endian.units (fieldBytes (window ρ offset size) 12) =
      r.info.shortName := by
    rw [Holds, hshort] at hshortName
    rw [fieldBytes_window rfl (by decide)]
    exact (congrArg endian.units hshortName).trans (endian.units_unitBytes _)
  rw [entryAt, ofBytes, ofNat_u32_field rfl (by decide) hnext,
    ofNat_u32_field rfl (by decide) hindex, ofNat_i64_field rfl (by decide) hcreation,
    ofNat_i64_field rfl (by decide) haccess, ofNat_i64_field rfl (by decide) hwrite,
    ofNat_i64_field rfl (by decide) hchange, ofNat_i64_field rfl (by decide) heof,
    ofNat_i64_field rfl (by decide) hallocation, ofNat_u32_field rfl (by decide) hattributes,
    ofNat_u32_field rfl (by decide) hlength, ofNat_u32_field rfl (by decide) hea,
    hshortNameLength, hshortNameUnits, ofNat_i64_field rfl (by decide) hid]

/-- A unit of the name in the copy of a record. -/
theorem fileNameUnit_window {i : ℕ} {u : UInt16} (hi : i < 2)
    (h : Holds ρ (offset + nameStartOffset + 2 * i) (endian.toBytes 2 u.toNat)) :
    fileNameUnit endian (window ρ offset size) i = u := by
  have hin : nameStartOffset + 2 * i + 2 ≤ size := by
    rw [nameStartOffset_eq, size_eq]
    omega
  rw [Holds, Endian.length_toBytes, Nat.add_assoc] at h
  rw [fileNameUnit, take_drop_window ρ hin, h, endian.toNat_toBytes_unit, UInt16.ofNat_toNat]

/-- The test for `.` and `..` looks at the name. -/
theorem isDotOrDotdot_of_holds {r : DirRecord}
    (h : Holds ρ (offset + nameStartOffset) (endian.unitBytes r.name)) :
    isDotOrDotdot endian (window ρ offset size) (r.info.fileNameLength.toNat / 2) = r.isDot := by
  rw [r.fileNameLength_eq, Nat.mul_div_cancel_left _ Nat.two_pos, DirRecord.isDot]
  rcases hname : r.name with _ | ⟨first, _ | ⟨second, rest⟩⟩
  · simp [isDotOrDotdot]
  · rw [hname, Endian.unitBytes_cons] at h
    have hfirst : fileNameUnit endian (window ρ offset size) 0 = first :=
      fileNameUnit_window Nat.two_pos (holds_append.mp h).1
    simp [isDotOrDotdot, hfirst]
  · rw [hname, Endian.unitBytes_cons, Endian.unitBytes_cons, holds_append, holds_append,
      Endian.length_toBytes] at h
    have hfirst : fileNameUnit endian (window ρ offset size) 0 = first :=
      fileNameUnit_window Nat.two_pos h.1
    have hsecond : fileNameUnit endian (window ρ offset size) 1 = second :=
      fileNameUnit_window Nat.one_lt_two h.2.1
    cases rest with
    | nil => simp [isDotOrDotdot, hfirst, hsecond]
    | cons third rest => simp [isDotOrDotdot]

end Fields

/-- A record lies in a buffer, at an offset that NT gives to records. -/
structure DirRecord.LaidOut (endian : Endian) (buffer : ByteSlice) (offset : ℕ) (r : DirRecord) :
    Prop where
  aligned : 4 ∣ offset
  within : offset + (r.toBytes endian).length ≤ buffer.len
  bytes_eq : (buffer.bytes.drop offset).take (r.toBytes endian).length = r.toBytes endian

/-- A chain of records in a buffer: `NextEntryOffset` leads from each one to the next and is zero in
the last. -/
inductive Chain (endian : Endian) (buffer : ByteSlice) : ℕ → List DirRecord → Prop
  | last {offset : ℕ} {r : DirRecord} (hr : r.LaidOut endian buffer offset)
      (hnext : r.info.nextEntryOffset = 0) : Chain endian buffer offset [r]
  | next {offset : ℕ} {r : DirRecord} {rest : List DirRecord} (hr : r.LaidOut endian buffer offset)
      (hnext : r.info.nextEntryOffset ≠ 0)
      (hrest : Chain endian buffer (offset + r.info.nextEntryOffset.toNat) rest) :
      Chain endian buffer offset (r :: rest)

/-- The records of a chain with their offsets. -/
def placed : ℕ → List DirRecord → List (ℕ × DirRecord)
  | _, [] => []
  | offset, r :: rest => (offset, r) :: placed (offset + r.info.nextEntryOffset.toNat) rest

/-- A record that is not left out because of its name, at an offset where the buffer has room for a
whole structure. -/
def isKept (bufLen : ℕ) (p : ℕ × DirRecord) : Bool :=
  !p.2.isDot && decide (p.1 + FileIdBothDirInfo.size ≤ bufLen)

/-- The calls for the records of a chain that are kept. -/
def keptCalls (bufLen offset : ℕ) (records : List DirRecord) : List EntryCall :=
  ((placed offset records).filter (isKept bufLen)).map fun p => p.2.call

theorem keptCalls_cons (bufLen offset : ℕ) (r : DirRecord) (rest : List DirRecord) :
    keptCalls bufLen offset (r :: rest) =
      (if isKept bufLen (offset, r) then [r.call] else []) ++
        keptCalls bufLen (offset + r.info.nextEntryOffset.toNat) rest := by
  rw [keptCalls, placed, List.filter_cons]
  split
  · rfl
  · rfl

/-- Offsets do not decrease along a chain. -/
theorem keptCalls_of_lt {bufLen offset : ℕ} (h : bufLen < offset + FileIdBothDirInfo.size)
    (records : List DirRecord) : keptCalls bufLen offset records = [] := by
  induction records generalizing offset with
  | nil => rfl
  | cons r rest ih =>
    rw [keptCalls_cons, isKept, decide_eq_false (Nat.not_le_of_lt h), Bool.and_false,
      if_neg Bool.false_ne_true, ih (by omega), List.append_nil]

section Chains

variable {endian : Endian} {ρ : ℕ → UInt8} {buffer : ByteSlice} {offset : ℕ}

namespace DirRecord.LaidOut

variable {r : DirRecord}

theorem holds (hr : r.LaidOut endian buffer offset) (hρ : buffer.StoredIn ρ) :
    Holds ρ offset (r.toBytes endian) := by
  have hwindow := hρ.window_eq hr.within
  rwa [hr.bytes_eq, Nat.zero_add] at hwindow

/-- The parser finds the fixed part of the record. -/
theorem entryAt_eq (hr : r.LaidOut endian buffer offset) (hρ : buffer.StoredIn ρ) :
    entryAt endian ρ offset = r.info :=
  entryAt_of_holds (holds_append.mp (hr.holds hρ)).1

theorem holds_name (hr : r.LaidOut endian buffer offset) (hρ : buffer.StoredIn ρ) :
    Holds ρ (offset + FileIdBothDirInfo.nameStartOffset) (endian.unitBytes r.name) := by
  have hname := (holds_append.mp (hr.holds hρ)).2
  rwa [r.length_fixedBytes endian] at hname

/-- The second bounds test is passed wherever the first is. -/
theorem passesBounds (hr : r.LaidOut endian buffer offset) (hρ : buffer.StoredIn ρ)
    (hsize : offset + FileIdBothDirInfo.size ≤ buffer.len) :
    PassesBounds endian ρ buffer.len offset := by
  have hwithin := hr.within
  rw [r.length_toBytes endian, ← r.fileNameLength_eq, ← hr.entryAt_eq hρ,
    ← Nat.add_assoc] at hwithin
  exact ⟨hsize, hwithin⟩

/-- A record that passes the bounds tests is reported unless its name is `.` or `..`. -/
theorem callsAt_eq (hr : r.LaidOut endian buffer offset) (hρ : buffer.StoredIn ρ)
    (hsize : offset + FileIdBothDirInfo.size ≤ buffer.len) :
    callsAt endian ρ offset = if isKept buffer.len (offset, r) then [r.call] else [] := by
  have hname := hr.holds_name hρ
  have hunits : endian.units (window ρ (offset + FileIdBothDirInfo.nameStartOffset)
      (2 * r.name.length)) = r.name := by
    rw [Holds, Endian.length_unitBytes] at hname
    rw [hname, Endian.units_unitBytes]
  rw [callsAt, isDotAt, hr.entryAt_eq hρ, isDotOrDotdot_of_holds hname, r.fileNameLength_eq,
    Nat.mul_div_cancel_left _ Nat.two_pos, hunits, isKept, decide_eq_true hsize, Bool.and_true]
  cases r.isDot with
  | true => rfl
  | false => rfl

/-- Names are aligned in a buffer at an even address. -/
theorem nameAligned (hr : r.LaidOut endian buffer offset) {addr : ℕ} (haddr : 2 ∣ addr) :
    NameAligned endian ρ addr offset := by
  intro _
  have hoffset := hr.aligned
  rw [FileIdBothDirInfo.nameStartOffset_eq]
  omega

end DirRecord.LaidOut

variable {S : Type} {onEntry : S → FileIdBothDirInfo → List UInt16 → S}

/-- From the start of a record on, the records that are kept are reported. -/
theorem value_parseBufferEntries_chain {records : List DirRecord}
    (h : Chain endian buffer offset records) (hρ : buffer.StoredIn ρ) {addr : ℕ} (haddr : 2 ∣ addr)
    {fuel : ℕ} (hfuel : buffer.len - offset < fuel) (s : S) :
    value ρ (parseBufferEntries endian addr buffer.len onEntry fuel offset s) =
      .returned (afterCalls onEntry s (keptCalls buffer.len offset records)) := by
  have hstop {offset : ℕ} (hoffset : offset ≤ buffer.len) (records : List DirRecord)
      (hsize : ¬ offset + FileIdBothDirInfo.size ≤ buffer.len) (fuel : ℕ) (s : S) :
      value ρ (parseBufferEntries endian addr buffer.len onEntry (fuel + 1) offset s) =
        .returned (afterCalls onEntry s (keptCalls buffer.len offset records)) := by
    rw [value_parseBufferEntries_stop buffer.len_le (by omega) (fun hbounds => hsize hbounds.1),
      keptCalls_of_lt (Nat.lt_of_not_le hsize)]
    rfl
  induction h generalizing fuel s with
  | @last offset r hr hnext =>
    obtain ⟨fuel, rfl⟩ := Nat.exists_eq_add_one_of_ne_zero (Nat.ne_zero_of_lt hfuel)
    have hoffset : offset ≤ buffer.len := (Nat.le_add_right _ _).trans hr.within
    by_cases hsize : offset + FileIdBothDirInfo.size ≤ buffer.len
    · rw [value_parseBufferEntries_step buffer.len_le (by omega) (hr.passesBounds hρ hsize),
        if_pos (hr.nameAligned haddr), hr.entryAt_eq hρ, if_pos hnext, hr.callsAt_eq hρ hsize,
        keptCalls_cons, keptCalls, placed, List.filter_nil, List.map_nil, List.append_nil]
    · exact hstop hoffset _ hsize fuel s
  | @next offset r rest hr hnext _ ih =>
    obtain ⟨fuel, rfl⟩ := Nat.exists_eq_add_one_of_ne_zero (Nat.ne_zero_of_lt hfuel)
    have hoffset : offset ≤ buffer.len := (Nat.le_add_right _ _).trans hr.within
    by_cases hsize : offset + FileIdBothDirInfo.size ≤ buffer.len
    · have hpos : r.info.nextEntryOffset.toNat ≠ 0 := fun hzero => hnext (UInt32.toNat_inj.mp hzero)
      have hlt : offset < buffer.len := by
        rw [FileIdBothDirInfo.size_eq] at hsize
        omega
      rw [value_parseBufferEntries_step buffer.len_le (by omega) (hr.passesBounds hρ hsize),
        if_pos (hr.nameAligned haddr), hr.entryAt_eq hρ, if_neg hnext, hr.callsAt_eq hρ hsize,
        ih (by omega), keptCalls_cons, afterCalls, afterCalls, afterCalls, List.foldl_append]
    · exact hstop hoffset _ hsize fuel s

/-- What the parser reports of a chain. -/
theorem reportsCalls_keptCalls {records : List DirRecord} (h : Chain endian buffer 0 records)
    (hρ : buffer.StoredIn ρ) :
    ReportsCalls endian ρ buffer.len (keptCalls buffer.len 0 records) :=
  fun _ haddr _ _ s _ hfuel => value_parseBufferEntries_chain h hρ haddr (by omega) s

theorem map_call_filter (offset : ℕ) (records : List DirRecord) :
    (records.filter fun r => !r.isDot).map DirRecord.call =
      ((placed offset records).filter fun p => !p.2.isDot).map fun p => p.2.call := by
  induction records generalizing offset with
  | nil => rfl
  | cons r rest ih =>
    rw [placed, List.filter_cons, List.filter_cons]
    cases hdot : r.isDot with
    | true => simpa [hdot] using ih _
    | false => simpa [hdot] using ih _

/-- No call is missing if every record that has one fits as a structure, and only then. -/
theorem keptCalls_eq_iff {bufLen offset : ℕ} {records : List DirRecord} :
    keptCalls bufLen offset records = (records.filter fun r => !r.isDot).map DirRecord.call ↔
      ∀ p ∈ placed offset records, p.2.isDot = false →
        p.1 + FileIdBothDirInfo.size ≤ bufLen := by
  have hkept : (placed offset records).filter (isKept bufLen) =
      ((placed offset records).filter fun p => !p.2.isDot).filter
        fun p => decide (p.1 + FileIdBothDirInfo.size ≤ bufLen) := by
    rw [List.filter_filter]
    exact List.filter_congr fun p _ => Bool.and_comm _ _
  rw [map_call_filter offset, keptCalls, hkept]
  constructor
  · intro heq p hp hdot
    have hlength := congrArg List.length heq
    rw [List.length_map, List.length_map, List.length_filter_eq_length_iff] at hlength
    exact of_decide_eq_true (hlength p (List.mem_filter.mpr ⟨hp, by rw [hdot]; rfl⟩))
  · intro hfits
    refine congrArg _ (List.filter_eq_self.mpr fun p hp => ?_)
    obtain ⟨hp, hdot⟩ := List.mem_filter.mp hp
    exact decide_eq_true (hfits p hp (by simpa using hdot))

end Chains

/-! ### Writing a chain -/

/-- A record that leads to another one behind it, at the next multiple of 4 or later. -/
def DirRecord.Leads (r : DirRecord) : Prop :=
  FileIdBothDirInfo.nameStartOffset + 2 * r.name.length ≤ r.info.nextEntryOffset.toNat ∧
    4 ∣ r.info.nextEntryOffset.toNat

/-- Records that lead from each one to the next. -/
def Linked : List DirRecord → Prop
  | [] => False
  | [r] => r.info.nextEntryOffset = 0
  | r :: rest => r.Leads ∧ Linked rest

/-- Records written one after the other, with zero bytes before the next one. -/
def packed (endian : Endian) : List DirRecord → List UInt8
  | [] => []
  | r :: rest =>
    r.toBytes endian ++ (List.replicate
      (r.info.nextEntryOffset.toNat - (r.toBytes endian).length) 0 ++ packed endian rest)

theorem linked_append {front rest : List DirRecord} (hfront : ∀ r ∈ front, r.Leads)
    (hrest : Linked rest) : Linked (front ++ rest) := by
  induction front with
  | nil => exact hrest
  | cons r front ih =>
    obtain ⟨hr, hfront⟩ := List.forall_mem_cons.mp hfront
    have htail := ih hfront
    rw [List.cons_append]
    cases htail' : front ++ rest with
    | nil => simp [htail', Linked] at htail
    | cons next rest' => exact ⟨hr, htail' ▸ htail⟩

section Writing

variable {endian : Endian} {buffer : ByteSlice}

theorem length_packed_cons {r : DirRecord} (hr : r.Leads) (rest : List DirRecord) :
    (packed endian (r :: rest)).length =
      r.info.nextEntryOffset.toNat + (packed endian rest).length := by
  obtain ⟨hroom, -⟩ := hr
  rw [packed, List.length_append, List.length_append, List.length_replicate,
    r.length_toBytes endian]
  omega

theorem length_packed_last {r : DirRecord} (hr : r.info.nextEntryOffset = 0) :
    (packed endian [r]).length = FileIdBothDirInfo.nameStartOffset + 2 * r.name.length := by
  rw [packed, hr, packed, List.append_nil, List.length_append, List.length_replicate,
    UInt32.toNat_zero, Nat.zero_sub, Nat.add_zero, r.length_toBytes endian]

/-- The distance from the first of some records to what follows them. -/
def distance (front : List DirRecord) : ℕ :=
  (front.map fun r => r.info.nextEntryOffset.toNat).sum

theorem distance_cons (r : DirRecord) (front : List DirRecord) :
    distance (r :: front) = r.info.nextEntryOffset.toNat + distance front := by
  rw [distance, List.map_cons, List.sum_cons, distance]

theorem length_packed_append {front : List DirRecord} (hfront : ∀ r ∈ front, r.Leads)
    (rest : List DirRecord) :
    (packed endian (front ++ rest)).length = distance front + (packed endian rest).length := by
  induction front with
  | nil => exact (Nat.zero_add _).symm
  | cons r front ih =>
    obtain ⟨hr, hfront⟩ := List.forall_mem_cons.mp hfront
    rw [List.cons_append, length_packed_cons hr, ih hfront, distance_cons, Nat.add_assoc]

theorem placed_append (offset : ℕ) (front rest : List DirRecord) :
    placed offset (front ++ rest) =
      placed offset front ++ placed (offset + distance front) rest := by
  induction front generalizing offset with
  | nil => rfl
  | cons r front ih =>
    rw [List.cons_append, placed, ih, placed, distance_cons, Nat.add_assoc, List.cons_append]

/-- The record that stands behind some bytes of a buffer. -/
theorem laidOut_of_append {r : DirRecord} {before after : List UInt8} (hbefore : 4 ∣ before.length)
    (hbytes : buffer.bytes = before ++ (r.toBytes endian ++ after)) :
    r.LaidOut endian buffer before.length where
  aligned := hbefore
  within := by
    rw [ByteSlice.len, hbytes, List.length_append, List.length_append]
    omega
  bytes_eq := by
    rw [hbytes, List.drop_left, List.take_left]

/-- **Records that are written one after the other are a chain.** -/
theorem chain_packed {records : List DirRecord} (hlinked : Linked records)
    (before after : List UInt8) (hbefore : 4 ∣ before.length)
    (hbytes : buffer.bytes = before ++ (packed endian records ++ after)) :
    Chain endian buffer before.length records := by
  induction records generalizing before with
  | nil => exact hlinked.elim
  | cons r rest ih =>
    have hr : r.LaidOut endian buffer before.length := by
      rw [packed, List.append_assoc] at hbytes
      exact laidOut_of_append hbefore hbytes
    cases rest with
    | nil => exact .last hr hlinked
    | cons next rest =>
      obtain ⟨⟨hroom, hdvd⟩, hrest⟩ := hlinked
      let gap : List UInt8 :=
        List.replicate (r.info.nextEntryOffset.toNat - (r.toBytes endian).length) 0
      have hlength : (before ++ (r.toBytes endian ++ gap)).length =
          before.length + r.info.nextEntryOffset.toNat := by
        rw [List.length_append, List.length_append, List.length_replicate, r.length_toBytes endian]
        omega
      refine .next hr ?_ (hlength ▸ ih hrest _ (hlength ▸ Nat.dvd_add hbefore hdvd) ?_)
      · intro hzero
        rw [hzero, FileIdBothDirInfo.nameStartOffset_eq] at hroom
        exact absurd hroom (by simp)
      · rw [hbytes, packed]
        simp only [List.append_assoc, gap]

end Writing

/-! ### What is dropped -/

/-- **When no entry is dropped.** For a chain of records in a buffer, the parser calls `on_entry`
once for each entry other than `.` and `..`, in order and with the fields and the name of its
record, if and only if each of these entries lies at an offset where the buffer has room for a whole
structure of 112 bytes. A record with a name of at most three units can lie nearer to the end. -/
theorem reportsCalls_chain_iff (endian : Endian) (buffer : ByteSlice) (ρ : ℕ → UInt8)
    (hρ : buffer.StoredIn ρ) (records : List DirRecord) (h : Chain endian buffer 0 records) :
    ReportsCalls endian ρ buffer.len ((records.filter fun r => !r.isDot).map DirRecord.call) ↔
      ∀ p ∈ placed 0 records, p.2.isDot = false →
        p.1 + FileIdBothDirInfo.size ≤ buffer.len := by
  rw [← keptCalls_eq_iff]
  constructor
  · exact (reportsCalls_keptCalls h hρ).unique
  · intro heq
    exact heq ▸ reportsCalls_keptCalls h hρ

/-- A record whose fields other than the distance and the length of the name are zero. -/
def blankRecord (nextEntryOffset : UInt32) (name : List UInt16) (hname : 2 * name.length < 2 ^ 32) :
    DirRecord where
  info :=
    { nextEntryOffset
      fileIndex := 0
      creationTime := 0
      lastAccessTime := 0
      lastWriteTime := 0
      changeTime := 0
      endOfFile := 0
      allocationSize := 0
      fileAttributes := 0
      fileNameLength := UInt32.ofNat (2 * name.length)
      eaSize := 0
      shortNameLength := 0
      shortName := List.replicate 12 0
      fileId := 0 }
  name
  shortNamePadding := 0
  fileIdPadding := (0, 0)
  length_shortName := List.length_replicate
  fileNameLength_eq := by rw [UInt32.toNat_ofNat', Nat.mod_eq_of_lt hname]

theorem leads_blankRecord {nextEntryOffset : UInt32} {name : List UInt16}
    {hname : 2 * name.length < 2 ^ 32}
    (hroom : FileIdBothDirInfo.nameStartOffset + 2 * name.length ≤ nextEntryOffset.toNat)
    (hdvd : 4 ∣ nextEntryOffset.toNat) : (blankRecord nextEntryOffset name hname).Leads :=
  ⟨hroom, hdvd⟩

/-- The record of `.` and that of a file `ab`, with 4 bytes behind it. -/
theorem reportsCalls_dot_file :
    let records : List DirRecord :=
      [blankRecord 108 [46] (by decide), blankRecord 0 [97, 98] (by decide)]
    ReportsCalls .little (fun i => (packed .little records ++ List.replicate 4 0).getD i 0) 220
      [(blankRecord 0 [97, 98] (by decide)).call] := by
  intro records
  have hleads : (blankRecord 108 [46] (by decide)).Leads :=
    leads_blankRecord (by decide) (by decide)
  have hlen : (packed .little records ++ List.replicate 4 0).length = 220 := by
    rw [List.length_append, length_packed_cons hleads, length_packed_last rfl]
    rfl
  have hlinked : Linked records := ⟨hleads, rfl⟩
  let buffer : ByteSlice := ⟨packed .little records ++ List.replicate 4 0, by rw [hlen]; decide⟩
  have hchain : Chain .little buffer 0 records :=
    chain_packed hlinked [] (List.replicate 4 0) (Nat.dvd_zero 4) rfl
  have hreports := (reportsCalls_chain_iff .little buffer _ (holds_getD buffer.bytes 0) records
    hchain).mpr (by rw [show buffer.len = 220 from hlen]; decide)
  rwa [show buffer.len = 220 from hlen] at hreports

/-- A name of 255 units. -/
def longName (i : ℕ) : List UInt16 := List.replicate 254 97 ++ [UInt16.ofNat (i + 256)]

theorem length_longName (i : ℕ) : (longName i).length = 255 := by
  rw [longName, List.length_append, List.length_replicate, List.length_singleton]

/-- 106 files whose names have 255 units and one whose name has 14. -/
def longNames : List DirRecord :=
  (List.range 106).map (fun i => blankRecord 616 (longName i) (by rw [length_longName]; decide)) ++
    [blankRecord 132 (List.replicate 14 98) (by decide)]

theorem leads_longNames : ∀ r ∈ longNames, r.Leads := by
  intro r hr
  rcases List.mem_append.mp hr with hr | hr
  · obtain ⟨i, -, rfl⟩ := List.mem_map.mp hr
    exact leads_blankRecord (by rw [length_longName]; decide) (by decide)
  · obtain rfl := List.mem_singleton.mp hr
    exact leads_blankRecord (by decide) (by decide)

theorem distance_longNames : distance longNames = 65428 := by
  decide +kernel

/-- The records of these files and of one more, `a`, in a buffer of 64 KB. -/
def fullBuffer : ByteSlice where
  bytes := packed .little (longNames ++ [blankRecord 0 [97] (by decide)]) ++ [0, 0]
  length_le := by
    rw [List.length_append, length_packed_append leads_longNames, length_packed_last rfl,
      distance_longNames]
    decide

theorem len_fullBuffer : fullBuffer.len = 64 * 1024 := by
  rw [ByteSlice.len, fullBuffer, List.length_append, length_packed_append leads_longNames,
    length_packed_last rfl, distance_longNames]
  rfl

/-- The last file of a buffer that is full is not reported. -/
theorem fullBuffer_drops_last :
    let records := longNames ++ [blankRecord 0 [97] (by decide)]
    let ρ := fun i => fullBuffer.bytes.getD i 0
    fullBuffer.len = 64 * 1024 ∧ fullBuffer.StoredIn ρ ∧ Chain .little fullBuffer 0 records ∧
      ¬ ReportsCalls .little ρ fullBuffer.len
        ((records.filter fun r => !r.isDot).map DirRecord.call) := by
  intro records ρ
  have hstored : fullBuffer.StoredIn ρ := holds_getD fullBuffer.bytes 0
  have hlinked : Linked records := linked_append leads_longNames rfl
  have hchain : Chain .little fullBuffer 0 records :=
    chain_packed hlinked [] [0, 0] (Nat.dvd_zero 4) (by rw [fullBuffer, List.nil_append])
  refine ⟨len_fullBuffer, hstored, hchain, fun hreports => ?_⟩
  have hfits := keptCalls_eq_iff.mp ((reportsCalls_keptCalls hchain hstored).unique hreports)
  have hlast : (65428, blankRecord 0 [97] (by decide)) ∈ placed 0 records := by
    rw [placed_append, distance_longNames]
    exact List.mem_append_right _ (List.mem_singleton.mpr rfl)
  have hroom := hfits _ hlast rfl
  rw [len_fullBuffer, FileIdBothDirInfo.size_eq] at hroom
  omega

/-! ### The enumeration of a directory -/

/-- `BUFFER_SIZE`. -/
def ntBufferSize : ℕ := 64 * 1024

section Enumeration

variable (fromWide : List UInt16 → OsString)

/-- The `DirEntryInfo` that `enumerate_dir` makes of an entry. -/
def entryInfo (entry : FileIdBothDirInfo) (fileName : List UInt16) : DirEntryInfo where
  fileName := fromWide fileName
  fileAttributes := entry.fileAttributes
  fileSize := entry.endOfFile.toUInt64
  creationTime := entry.creationTime.toInt
  lastWriteTime := entry.lastWriteTime.toInt
  lastAccessTime := entry.lastAccessTime.toInt
  fileId := entry.fileId.toUInt64
  numberOfLinks := none
  volumeSerialNumber := none

/-- The closure of `enumerate_dir`. -/
def pushInfo (entries : List DirEntryInfo) (entry : FileIdBothDirInfo) (fileName : List UInt16) :
    List DirEntryInfo :=
  entries ++ [entryInfo fromWide entry fileName]

/-- The loop of `enumerate_dir_core_inner` over the contents that `NtQueryDirectoryFileEx` gives the
buffer at the address `addr` before it reports the end of the directory or an error. -/
def enumerateDir (endian : Endian) (addr fuel : ℕ) :
    List (ℕ → UInt8) → List DirEntryInfo → Option (List DirEntryInfo)
  | [], entries => some entries
  | ρ :: rest, entries =>
    match value ρ (parseBufferEntries endian addr ntBufferSize (pushInfo fromWide) fuel 0 entries)
      with
    | .returned entries => enumerateDir endian addr fuel rest entries
    | .misaligned | .unfinished => none

/-- A buffer that `NtQueryDirectoryFileEx` has filled with a chain, in which every record has room
for a structure. -/
structure Fills (endian : Endian) (ρ : ℕ → UInt8) (records : List DirRecord) : Prop where
  chain : ∃ buffer : ByteSlice,
    buffer.len = ntBufferSize ∧ buffer.StoredIn ρ ∧ Chain endian buffer 0 records
  room : ∀ p ∈ placed 0 records, p.2.isDot = false → p.1 + FileIdBothDirInfo.size ≤ ntBufferSize

theorem Fills.reportsCalls {endian : Endian} {ρ : ℕ → UInt8} {records : List DirRecord}
    (h : Fills endian ρ records) :
    ReportsCalls endian ρ ntBufferSize
      ((records.filter fun r => !r.isDot).map DirRecord.call) := by
  obtain ⟨buffer, hlen, hstored, hchain⟩ := h.chain
  have hreports := reportsCalls_keptCalls hchain hstored
  rwa [hlen, keptCalls_eq_iff.mpr h.room] at hreports

theorem afterCalls_pushInfo (calls : List EntryCall) (entries : List DirEntryInfo) :
    afterCalls (pushInfo fromWide) entries calls =
      entries ++ calls.map fun call => entryInfo fromWide call.1 call.2 := by
  induction calls generalizing entries with
  | nil => simp [afterCalls]
  | cons call rest ih =>
    have hrest := ih (pushInfo fromWide entries call.1 call.2)
    rw [afterCalls] at hrest
    rw [afterCalls, List.foldl_cons, hrest, pushInfo, List.map_cons, List.append_assoc,
      List.singleton_append]

/-- **The enumeration of a directory reads the records of NT.** If every record has room for a
structure in its buffer, the loop over the buffers yields the entries that a directory read starts
from. Of the conversion of names only the names `.` and `..` matter. -/
theorem enumerateDir_eq_windowsRecords (endian : Endian) {addr : ℕ} (haddr : 2 ∣ addr)
    (os : WindowsCalls) (path : Path) (attempt : ℕ)
    (hdot : ∀ name, isDot (fromWide name) = (name == [46] || name == [46, 46]))
    {answers : List (ℕ → UInt8)} {chains : List (List DirRecord)}
    (hanswers : List.Forall₂ (Fills endian) answers chains)
    (hrecords : (os.enumerate path attempt).records =
      chains.flatten.map fun r => entryInfo fromWide r.info r.name) :
    enumerateDir fromWide endian addr (ntBufferSize + 1) answers [] =
      some (windowsRecords os path attempt).records := by
  have hloop (entries : List DirEntryInfo) :
      enumerateDir fromWide endian addr (ntBufferSize + 1) answers entries =
        some (entries ++ (chains.flatten.filter fun r => !r.isDot).map
          fun r => entryInfo fromWide r.info r.name) := by
    clear hrecords
    induction hanswers generalizing entries with
    | nil => simp [enumerateDir]
    | cons hfills _ ih =>
      rw [enumerateDir, hfills.reportsCalls _ haddr _ _ entries _ (Nat.lt_succ_self _),
        afterCalls_pushInfo]
      simp only [ih, List.flatten_cons, List.filter_append, List.map_append, List.map_map,
        List.append_assoc]
      rfl
  have hfilter (r : DirRecord) : (!isDot (entryInfo fromWide r.info r.name).fileName) = !r.isDot :=
    congrArg not (hdot r.name)
  rw [hloop, List.nil_append, windowsRecords, hrecords, List.filter_map]
  simp only [Function.comp_def, hfilter]

end Enumeration

end JwalkMeta
