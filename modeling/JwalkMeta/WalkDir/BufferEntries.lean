import JwalkMeta.Core.ByteSlice

/-!
# The records of `NtQueryDirectoryFileEx`

`parse_buffer_entries` follows a chain of `FILE_ID_BOTH_DIR_INFO` records through a buffer. A record
has a fixed part of 104 bytes, then its name as 16-bit units; the fixed part gives the length of the
name and the distance to the next record. The parser copies each record as a structure, whose size
is 112 because of the name's first unit and the padding behind it, and it stops where the buffer has
fewer bytes than that. The copy may come from any address, but the name is then taken as a slice of
16-bit units where it stands, and that needs an even address.

Source: `src/core/nt_dir_enum.rs`.

## Main definitions

* `FileIdBothDirInfo`: the fixed part of a record.
* `ParseEnd`: how the parser ends.
* `parseBufferEntries`: the parser.
* `ReportsCalls`: the calls of its closure.
* `recordOffsets`: where the distances between the records lead to.

## Main results

* `parseBufferEntries_succ`: no addition wraps around.
* `value_parseBufferEntries_stop`, `value_parseBufferEntries_step`, `asked_parseBufferEntries`: one
  turn of the loop.
* `value_parseBufferEntries`: how the parser ends on any bytes.
* `parseBufferEntries_safe_iff`: whatever the buffer holds, the parser stays inside it; it returns
  if and only if every name stands at an even address.
-/

namespace JwalkMeta

open Interaction

/-! ### The layout of a record -/

/-- `FILE_ID_BOTH_DIR_INFO` up to `FileName`. What stands from `FileName` on is the name, which does
not have a fixed length. -/
structure FileIdBothDirInfo where
  nextEntryOffset : UInt32
  fileIndex : UInt32
  creationTime : Int64
  lastAccessTime : Int64
  lastWriteTime : Int64
  changeTime : Int64
  endOfFile : Int64
  allocationSize : Int64
  fileAttributes : UInt32
  fileNameLength : UInt32
  eaSize : UInt32
  shortNameLength : Int8
  shortName : List UInt16
  fileId : Int64
  deriving DecidableEq, Repr

namespace FileIdBothDirInfo

/-- The types of the fields, in the order of the declaration and with `FileName` as the last. -/
def fields : List CType :=
  [.u32, .u32, .u64, .u64, .u64, .u64, .u64, .u64, .u32, .u32, .u32, .u8, .array .u16 12, .u64,
    .array .u16 1]

/-- `size_of::<FILE_ID_BOTH_DIR_INFO>()`. -/
def size : ℕ := ReprC.size fields

/-- `name_start_offset`, the offset of `FileName`. -/
def nameStartOffset : ℕ := ReprC.fieldOffset fields 14

theorem size_eq : size = 112 := rfl

theorem nameStartOffset_eq : nameStartOffset = 104 := rfl

/-- The bytes of one field in the copy of a record. -/
def fieldBytes (copy : List UInt8) (i : ℕ) : List UInt8 :=
  (copy.drop (ReprC.fieldOffset fields i)).take (fields.getD i .u8).size

/-- The fields in the copy of a record. -/
def ofBytes (endian : Endian) (copy : List UInt8) : FileIdBothDirInfo where
  nextEntryOffset := UInt32.ofNat (endian.toNat (fieldBytes copy 0))
  fileIndex := UInt32.ofNat (endian.toNat (fieldBytes copy 1))
  creationTime := (UInt64.ofNat (endian.toNat (fieldBytes copy 2))).toInt64
  lastAccessTime := (UInt64.ofNat (endian.toNat (fieldBytes copy 3))).toInt64
  lastWriteTime := (UInt64.ofNat (endian.toNat (fieldBytes copy 4))).toInt64
  changeTime := (UInt64.ofNat (endian.toNat (fieldBytes copy 5))).toInt64
  endOfFile := (UInt64.ofNat (endian.toNat (fieldBytes copy 6))).toInt64
  allocationSize := (UInt64.ofNat (endian.toNat (fieldBytes copy 7))).toInt64
  fileAttributes := UInt32.ofNat (endian.toNat (fieldBytes copy 8))
  fileNameLength := UInt32.ofNat (endian.toNat (fieldBytes copy 9))
  eaSize := UInt32.ofNat (endian.toNat (fieldBytes copy 10))
  shortNameLength := (UInt8.ofNat (endian.toNat (fieldBytes copy 11))).toInt8
  shortName := endian.units (fieldBytes copy 12)
  fileId := (UInt64.ofNat (endian.toNat (fieldBytes copy 13))).toInt64

/-- The `i`-th unit from `FileName` on in the copy of a record. The second one stands in the padding
of the structure, which is copied with it. -/
def fileNameUnit (endian : Endian) (copy : List UInt8) (i : ℕ) : UInt16 :=
  UInt16.ofNat (endian.toNat ((copy.drop (nameStartOffset + 2 * i)).take 2))

/-- `is_dot || is_dotdot`, for a name of `nameChars` units. -/
def isDotOrDotdot (endian : Endian) (copy : List UInt8) (nameChars : ℕ) : Bool :=
  let firstChar := fileNameUnit endian copy 0
  (nameChars == 1 && firstChar == 46) ||
    (nameChars == 2 && firstChar == 46 && fileNameUnit endian copy 1 == 46)

end FileIdBothDirInfo

/-! ### The parser -/

section Parser

variable {S : Type}

/-- How `parse_buffer_entries` ends. -/
inductive ParseEnd (S : Type)
  | returned (s : S)
  /-- `slice::from_raw_parts` got a pointer that is not aligned. -/
  | misaligned
  /-- The loop has not ended after the turns that it was given. -/
  | unfinished
  deriving DecidableEq, Repr

/-- The call of `on_entry` for the record at an offset, unless it is `.` or `..`. `none` if its name
is not aligned. -/
def reportEntry (endian : Endian) (addr : ℕ) (onEntry : S → FileIdBothDirInfo → List UInt16 → S)
    (offset : ℕ) (copy : List UInt8) (nameChars : ℕ) (s : S) : Reader (Option S) :=
  if FileIdBothDirInfo.isDotOrDotdot endian copy nameChars then done (some s)
  else do
    let nameSlice ←
      sliceFromRawParts endian addr (offset + FileIdBothDirInfo.nameStartOffset) nameChars
    done (nameSlice.map fun fileName => onEntry s (.ofBytes endian copy) fileName)

/-- `parse_buffer_entries` on a buffer of `bufLen` bytes at the address `addr`, with the closure
`on_entry` as a function of the variables `s` that it changes. A name is given as its units. -/
def parseBufferEntries (endian : Endian) (addr bufLen : ℕ)
    (onEntry : S → FileIdBothDirInfo → List UInt16 → S) : ℕ → ℕ → S → Reader (ParseEnd S)
  | 0, _, _ => done .unfinished
  | fuel + 1, offset, s =>
    if bufLen < usizeAdd offset FileIdBothDirInfo.size then done (.returned s)
    else do
      let copy ← readBytes offset FileIdBothDirInfo.size
      let entry := FileIdBothDirInfo.ofBytes endian copy
      let nameLen := entry.fileNameLength.toNat
      let nameChars := nameLen / 2
      if bufLen < usizeAdd (usizeAdd offset FileIdBothDirInfo.nameStartOffset) nameLen then
        done (.returned s)
      else do
        let reported ← reportEntry endian addr onEntry offset copy nameChars s
        match reported with
        | none => done .misaligned
        | some s =>
          if entry.nextEntryOffset = 0 then done (.returned s)
          else
            parseBufferEntries endian addr bufLen onEntry fuel
              (usizeAdd offset entry.nextEntryOffset.toNat) s

/-- A call of `on_entry`. -/
abbrev EntryCall : Type := FileIdBothDirInfo × List UInt16

/-- The variables of the closure after some calls. -/
def afterCalls (onEntry : S → FileIdBothDirInfo → List UInt16 → S) (s : S)
    (calls : List EntryCall) : S :=
  calls.foldl (fun s call => onEntry s call.1 call.2) s

/-- On a buffer at this address the parser returns, and calls `on_entry` on these entries in this
order. -/
def ReportsCallsAt (endian : Endian) (ρ : ℕ → UInt8) (addr bufLen : ℕ) (calls : List EntryCall) :
    Prop :=
  ∀ (S : Type) (onEntry : S → FileIdBothDirInfo → List UInt16 → S) (s : S) (fuel : ℕ),
    bufLen < fuel → value ρ (parseBufferEntries endian addr bufLen onEntry fuel 0 s) =
      .returned (afterCalls onEntry s calls)

/-- The parser returns, and calls `on_entry` on these entries in this order, at any even address,
as the allocator gives them to buffers. -/
def ReportsCalls (endian : Endian) (ρ : ℕ → UInt8) (bufLen : ℕ) (calls : List EntryCall) : Prop :=
  ∀ addr, 2 ∣ addr → ReportsCallsAt endian ρ addr bufLen calls

/-- A closure that keeps a list of its calls. -/
theorem afterCalls_log (log calls : List EntryCall) :
    afterCalls (fun log entry name => log ++ [(entry, name)]) log calls = log ++ calls := by
  induction calls generalizing log with
  | nil => exact (List.append_nil log).symm
  | cons call calls ih =>
    have hrest := ih (log ++ [call])
    rwa [List.append_assoc] at hrest

/-- The calls of the parser are determined. -/
theorem ReportsCallsAt.unique {endian : Endian} {ρ : ℕ → UInt8} {addr bufLen : ℕ}
    {calls calls' : List EntryCall} (h : ReportsCallsAt endian ρ addr bufLen calls)
    (h' : ReportsCallsAt endian ρ addr bufLen calls') : calls = calls' := by
  have hlog := h _ (fun log entry name => log ++ [(entry, name)]) [] _ (Nat.lt_succ_self bufLen)
  have hlog' := h' _ (fun log entry name => log ++ [(entry, name)]) [] _ (Nat.lt_succ_self bufLen)
  rw [afterCalls_log] at hlog hlog'
  exact ParseEnd.returned.inj (hlog.symm.trans hlog')

theorem ReportsCalls.unique {endian : Endian} {ρ : ℕ → UInt8} {bufLen : ℕ}
    {calls calls' : List EntryCall} (h : ReportsCalls endian ρ bufLen calls)
    (h' : ReportsCalls endian ρ bufLen calls') : calls = calls' :=
  (h 0 (Nat.dvd_zero 2)).unique (h' 0 (Nat.dvd_zero 2))

end Parser

/-! ### One turn of the loop -/

section Turns

variable (endian : Endian) (ρ : ℕ → UInt8)

/-- The fixed part of the record at an offset. -/
def entryAt (offset : ℕ) : FileIdBothDirInfo :=
  .ofBytes endian (window ρ offset FileIdBothDirInfo.size)

theorem ofBytes_window (offset : ℕ) :
    FileIdBothDirInfo.ofBytes endian (window ρ offset FileIdBothDirInfo.size) =
      entryAt endian ρ offset := by
  rw [entryAt]

/-- The record at an offset passes both bounds tests. -/
def PassesBounds (bufLen offset : ℕ) : Prop :=
  offset + FileIdBothDirInfo.size ≤ bufLen ∧
    offset + FileIdBothDirInfo.nameStartOffset + (entryAt endian ρ offset).fileNameLength.toNat ≤
      bufLen

instance (bufLen offset : ℕ) : Decidable (PassesBounds endian ρ bufLen offset) :=
  inferInstanceAs (Decidable (_ ∧ _))

/-- Whether the record at an offset is for `.` or for `..`. -/
def isDotAt (offset : ℕ) : Bool :=
  FileIdBothDirInfo.isDotOrDotdot endian (window ρ offset FileIdBothDirInfo.size)
    ((entryAt endian ρ offset).fileNameLength.toNat / 2)

/-- The call that the record at an offset brings about, unless it is `.` or `..`. -/
def callsAt (offset : ℕ) : List EntryCall :=
  let nameChars := (entryAt endian ρ offset).fileNameLength.toNat / 2
  if isDotAt endian ρ offset then []
  else [(entryAt endian ρ offset,
    endian.units (window ρ (offset + FileIdBothDirInfo.nameStartOffset) (2 * nameChars)))]

/-- The name of the record at an offset stands at an even address, unless it is `.` or `..`. -/
def NameAligned (addr offset : ℕ) : Prop :=
  isDotAt endian ρ offset = false → 2 ∣ addr + (offset + FileIdBothDirInfo.nameStartOffset)

instance (addr offset : ℕ) : Decidable (NameAligned endian ρ addr offset) :=
  inferInstanceAs (Decidable (_ → _))

variable {endian ρ} {S : Type} {onEntry : S → FileIdBothDirInfo → List UInt16 → S}
  {addr bufLen offset : ℕ}

/-- An offset that the loop can reach leaves room for the size of a structure and the length of a
name. -/
theorem usizeAdd_of_le (hlen : bufLen ≤ isizeMax) (hoffset : offset ≤ bufLen + 2 ^ 33) {n : ℕ}
    (hn : n < 2 ^ 32) : usizeAdd offset n = offset + n := by
  refine usizeAdd_eq ?_
  simp only [isizeMax, usizeMax] at hlen ⊢
  omega

/-- No addition wraps around in a turn. -/
theorem parseBufferEntries_succ (hlen : bufLen ≤ isizeMax) (hoffset : offset ≤ bufLen + 2 ^ 32)
    (fuel : ℕ) (s : S) :
    parseBufferEntries endian addr bufLen onEntry (fuel + 1) offset s =
      if bufLen < offset + FileIdBothDirInfo.size then done (.returned s)
      else readBytes offset FileIdBothDirInfo.size >>= fun copy =>
        let entry := FileIdBothDirInfo.ofBytes endian copy
        if bufLen < offset + FileIdBothDirInfo.nameStartOffset + entry.fileNameLength.toNat then
          done (.returned s)
        else reportEntry endian addr onEntry offset copy (entry.fileNameLength.toNat / 2) s >>=
          fun reported => match reported with
          | none => done .misaligned
          | some s =>
            if entry.nextEntryOffset = 0 then done (.returned s)
            else parseBufferEntries endian addr bufLen onEntry fuel
              (offset + entry.nextEntryOffset.toNat) s := by
  have hnext (n : UInt32) : usizeAdd offset n.toNat = offset + n.toNat :=
    usizeAdd_of_le hlen (by omega) n.toNat_lt
  have hname (n : UInt32) : usizeAdd (offset + FileIdBothDirInfo.nameStartOffset) n.toNat =
      offset + FileIdBothDirInfo.nameStartOffset + n.toNat := by
    refine usizeAdd_of_le hlen ?_ n.toNat_lt
    rw [FileIdBothDirInfo.nameStartOffset_eq]
    omega
  rw [parseBufferEntries, usizeAdd_of_le hlen (by omega) (by decide),
    usizeAdd_of_le hlen (by omega) (by decide)]
  simp only [hnext, hname]

/-- A record that does not pass the bounds tests ends the loop. -/
theorem value_parseBufferEntries_stop (hlen : bufLen ≤ isizeMax)
    (hoffset : offset ≤ bufLen + 2 ^ 32) (hbounds : ¬ PassesBounds endian ρ bufLen offset)
    (fuel : ℕ) (s : S) :
    value ρ (parseBufferEntries endian addr bufLen onEntry (fuel + 1) offset s) = .returned s := by
  rw [parseBufferEntries_succ hlen hoffset]
  split
  · rfl
  · rename_i hsize
    have hname : bufLen < offset + FileIdBothDirInfo.nameStartOffset +
        (entryAt endian ρ offset).fileNameLength.toNat := by
      by_contra hfits
      exact hbounds ⟨by omega, by omega⟩
    simp only [value_bind, value_readBytes, ofBytes_window, hname, ↓reduceIte, value_done]

theorem value_reportEntry (s : S) :
    value ρ (reportEntry endian addr onEntry offset (window ρ offset FileIdBothDirInfo.size)
      ((entryAt endian ρ offset).fileNameLength.toNat / 2) s) =
        if NameAligned endian ρ addr offset then
          some (afterCalls onEntry s (callsAt endian ρ offset))
        else none := by
  rw [reportEntry, ← isDotAt, callsAt]
  cases hdot : isDotAt endian ρ offset with
  | true => simp [NameAligned, hdot, afterCalls]
  | false =>
    have haligned : NameAligned endian ρ addr offset ↔
        CType.u16.align ∣ addr + (offset + FileIdBothDirInfo.nameStartOffset) :=
      forall_prop_of_true hdot
    simp only [haligned, Bool.false_eq_true, ↓reduceIte, value_bind, value_sliceFromRawParts,
      value_done, ofBytes_window]
    split
    · rfl
    · rfl

/-- To report an entry only its name is read. -/
theorem asked_reportEntry {copy : List UInt8} {nameLen q : ℕ} {s : S}
    (hq : q ∈ asked ρ (reportEntry endian addr onEntry offset copy (nameLen / 2) s)) :
    q < offset + FileIdBothDirInfo.nameStartOffset + nameLen := by
  rw [reportEntry] at hq
  split at hq
  · simp at hq
  · rw [asked_bind, asked_done, List.append_nil] at hq
    have hunits := mem_asked_sliceFromRawParts ρ endian addr _ _ hq
    omega

/-- A record that passes the bounds tests is reported, and the loop goes on with the next one; but
if its name is not aligned, nothing more is done. -/
theorem value_parseBufferEntries_step (hlen : bufLen ≤ isizeMax)
    (hoffset : offset ≤ bufLen + 2 ^ 32) (hbounds : PassesBounds endian ρ bufLen offset) (fuel : ℕ)
    (s : S) :
    value ρ (parseBufferEntries endian addr bufLen onEntry (fuel + 1) offset s) =
      if NameAligned endian ρ addr offset then
        if (entryAt endian ρ offset).nextEntryOffset = 0 then
          .returned (afterCalls onEntry s (callsAt endian ρ offset))
        else
          value ρ (parseBufferEntries endian addr bufLen onEntry fuel
            (offset + (entryAt endian ρ offset).nextEntryOffset.toNat)
            (afterCalls onEntry s (callsAt endian ρ offset)))
      else .misaligned := by
  obtain ⟨hsize, hname⟩ := hbounds
  rw [parseBufferEntries_succ hlen hoffset, if_neg (Nat.not_lt_of_le hsize)]
  simp only [value_bind, value_readBytes, ofBytes_window, Nat.not_lt_of_le hname, ↓reduceIte,
    value_reportEntry]
  by_cases haligned : NameAligned endian ρ addr offset
  · rw [if_pos haligned, if_pos haligned]
    exact apply_ite (value ρ) _ _ _
  · rw [if_neg haligned, if_neg haligned]
    rfl

/-- In one turn nothing outside the buffer is read. -/
theorem asked_parseBufferEntries (hlen : bufLen ≤ isizeMax) (hoffset : offset ≤ bufLen + 2 ^ 32)
    {fuel q : ℕ} {s : S}
    (hq : q ∈ asked ρ (parseBufferEntries endian addr bufLen onEntry (fuel + 1) offset s)) :
    q < bufLen ∨ PassesBounds endian ρ bufLen offset ∧
      q ∈ asked ρ (parseBufferEntries endian addr bufLen onEntry fuel
        (offset + (entryAt endian ρ offset).nextEntryOffset.toNat)
        (afterCalls onEntry s (callsAt endian ρ offset))) := by
  rw [parseBufferEntries_succ hlen hoffset] at hq
  split at hq
  · simp at hq
  · rename_i hsize
    rw [asked_bind, List.mem_append, asked_readBytes, value_readBytes] at hq
    simp only [ofBytes_window] at hq
    rcases hq with hcopy | hq
    · rw [List.mem_range'_1] at hcopy
      exact Or.inl (by omega)
    · split at hq
      · simp at hq
      · rename_i hname
        rw [asked_bind, List.mem_append, value_reportEntry] at hq
        rcases hq with hreport | hq
        · have hslice := asked_reportEntry hreport
          exact Or.inl (by omega)
        · by_cases haligned : NameAligned endian ρ addr offset
          · rw [if_pos haligned] at hq
            simp only at hq
            split at hq
            · simp at hq
            · exact Or.inr ⟨⟨by omega, by omega⟩, hq⟩
          · rw [if_neg haligned] at hq
            simp at hq

/-! ### Any buffer -/

variable (endian ρ bufLen) in
/-- The offsets of the records, from the one at an offset on, up to the first that does not pass the
bounds tests or leads to no other; at most `fuel` of them. -/
def offsetsFrom : ℕ → ℕ → List ℕ
  | 0, _ => []
  | fuel + 1, offset =>
    if PassesBounds endian ρ bufLen offset then
      offset :: if (entryAt endian ρ offset).nextEntryOffset = 0 then []
        else offsetsFrom fuel (offset + (entryAt endian ρ offset).nextEntryOffset.toNat)
    else []

variable (endian ρ bufLen) in
/-- The offsets of the records that the distances lead to within the buffer. -/
def recordOffsets : List ℕ := offsetsFrom endian ρ bufLen (bufLen + 1) 0

/-- Every record but the last leaves less of the buffer. -/
theorem lt_of_passesBounds (hbounds : PassesBounds endian ρ bufLen offset)
    (hnext : (entryAt endian ρ offset).nextEntryOffset ≠ 0) :
    bufLen - (offset + (entryAt endian ρ offset).nextEntryOffset.toNat) < bufLen - offset := by
  have hpos : (entryAt endian ρ offset).nextEntryOffset.toNat ≠ 0 :=
    fun hzero => hnext (UInt32.toNat_inj.mp hzero)
  have hsize : offset + 112 ≤ bufLen := hbounds.1
  omega

/-- As many turns as the buffer has bytes and one more are enough. -/
theorem offsetsFrom_eq {fuel fuel' : ℕ} (hfuel : bufLen - offset < fuel)
    (hfuel' : bufLen - offset < fuel') :
    offsetsFrom endian ρ bufLen fuel offset = offsetsFrom endian ρ bufLen fuel' offset := by
  induction fuel generalizing fuel' offset with
  | zero => omega
  | succ fuel ih =>
    obtain ⟨fuel', rfl⟩ := Nat.exists_eq_add_one_of_ne_zero (Nat.ne_zero_of_lt hfuel')
    rw [offsetsFrom, offsetsFrom]
    split
    · rename_i hbounds
      split
      · rfl
      · rename_i hnext
        have hlt := lt_of_passesBounds hbounds hnext
        rw [@ih _ fuel' (by omega) (by omega)]
    · rfl

theorem passesBounds_of_mem_offsetsFrom {fuel o : ℕ}
    (h : o ∈ offsetsFrom endian ρ bufLen fuel offset) : PassesBounds endian ρ bufLen o := by
  induction fuel generalizing offset with
  | zero => simp [offsetsFrom] at h
  | succ fuel ih =>
    rw [offsetsFrom] at h
    split at h
    · rename_i hbounds
      rcases List.mem_cons.mp h with rfl | hlater
      · exact hbounds
      · split at hlater
        · simp at hlater
        · exact ih hlater
    · simp at h

/-- From any offset that it can reach the loop ends: it returns after the calls for all records, or
it comes to the first of them whose name is not aligned. -/
theorem value_parseBufferEntries (hlen : bufLen ≤ isizeMax) (hoffset : offset ≤ bufLen + 2 ^ 32)
    {fuel : ℕ} (hfuel : bufLen - offset < fuel) (s : S) :
    value ρ (parseBufferEntries endian addr bufLen onEntry fuel offset s) =
      if ∀ o ∈ offsetsFrom endian ρ bufLen fuel offset, NameAligned endian ρ addr o then
        .returned (afterCalls onEntry s
          ((offsetsFrom endian ρ bufLen fuel offset).flatMap (callsAt endian ρ)))
      else .misaligned := by
  induction fuel generalizing offset s with
  | zero => omega
  | succ fuel ih =>
    by_cases hbounds : PassesBounds endian ρ bufLen offset
    · rw [value_parseBufferEntries_step hlen hoffset hbounds, offsetsFrom, if_pos hbounds]
      by_cases hnext : (entryAt endian ρ offset).nextEntryOffset = 0
      · simp [if_pos hnext]
      · have hlt := lt_of_passesBounds hbounds hnext
        have hreach :
            offset + (entryAt endian ρ offset).nextEntryOffset.toNat ≤ bufLen + 2 ^ 32 := by
          have hdistance := (entryAt endian ρ offset).nextEntryOffset.toNat_lt
          have hsize := hbounds.1
          omega
        simp only [if_neg hnext, ih hreach (by omega), List.forall_mem_cons, List.flatMap_cons,
          afterCalls, List.foldl_append, ite_and]
    · rw [value_parseBufferEntries_stop hlen hoffset hbounds, offsetsFrom, if_neg hbounds]
      simp [afterCalls]

/-- The name of a call is a slice of the buffer. -/
def NameWithin (endian : Endian) (ρ : ℕ → UInt8) (bufLen : ℕ) (call : EntryCall) : Prop :=
  ∃ start, start + 2 * call.2.length ≤ bufLen ∧
    endian.unitBytes call.2 = window ρ start (2 * call.2.length)

theorem nameWithin_of_mem_callsAt (hbounds : PassesBounds endian ρ bufLen offset) {call : EntryCall}
    (hcall : call ∈ callsAt endian ρ offset) : NameWithin endian ρ bufLen call := by
  obtain ⟨-, hname⟩ := hbounds
  rw [callsAt] at hcall
  split at hcall
  · simp at hcall
  · obtain rfl := List.mem_singleton.mp hcall
    obtain ⟨hbytes, hlength⟩ := endian.unitBytes_units (length_window ρ
      (offset + FileIdBothDirInfo.nameStartOffset)
      (2 * ((entryAt endian ρ offset).fileNameLength.toNat / 2)))
    refine ⟨offset + FileIdBothDirInfo.nameStartOffset, ?_, ?_⟩
    · rw [hlength]
      omega
    · rw [hbytes, hlength]

/-- From any offset that it can reach the loop reads only the buffer. -/
theorem asked_parseBufferEntries_lt (hlen : bufLen ≤ isizeMax) (hoffset : offset ≤ bufLen + 2 ^ 32)
    {fuel q : ℕ} {s : S}
    (hq : q ∈ asked ρ (parseBufferEntries endian addr bufLen onEntry fuel offset s)) :
    q < bufLen := by
  induction fuel generalizing offset s with
  | zero => simp [parseBufferEntries] at hq
  | succ fuel ih =>
    rcases asked_parseBufferEntries hlen hoffset hq with hlt | ⟨⟨hsize, -⟩, hlater⟩
    · exact hlt
    · have hnext := (entryAt endian ρ offset).nextEntryOffset.toNat_lt
      exact ih (by omega) hlater

/-- The parser on a whole buffer. -/
theorem value_parseBufferEntries_zero (hlen : bufLen ≤ isizeMax) {fuel : ℕ} (hfuel : bufLen < fuel)
    (s : S) :
    value ρ (parseBufferEntries endian addr bufLen onEntry fuel 0 s) =
      if ∀ o ∈ recordOffsets endian ρ bufLen, NameAligned endian ρ addr o then
        .returned (afterCalls onEntry s
          ((recordOffsets endian ρ bufLen).flatMap (callsAt endian ρ)))
      else .misaligned := by
  rw [value_parseBufferEntries hlen (Nat.zero_le _) (by omega), recordOffsets,
    @offsetsFrom_eq endian ρ bufLen 0 fuel (bufLen + 1) (by omega) (by omega)]

/-- The parser does not return if a name is not aligned. -/
theorem not_reportsCallsAt (hlen : bufLen ≤ isizeMax)
    (hodd : ¬ ∀ o ∈ recordOffsets endian ρ bufLen, NameAligned endian ρ addr o)
    (calls : List EntryCall) : ¬ ReportsCallsAt endian ρ addr bufLen calls := by
  intro hreports
  have hreturned := hreports Unit (fun s _ _ => s) () (bufLen + 1) (Nat.lt_succ_self bufLen)
  rw [value_parseBufferEntries_zero hlen (Nat.lt_succ_self bufLen), if_neg hodd] at hreturned
  exact absurd hreturned (by simp)

end Turns

/-- **When the parser is safe.** On a buffer of any length and content, at any address, the parser
returns, reads only bytes of the buffer, and reports names whose bytes are slices of the buffer, if
and only if each record that the distances lead to within the buffer, other than `.` and `..`, has
its name at an even address. At the first other name it makes a slice that is not aligned. -/
theorem parseBufferEntries_safe_iff (endian : Endian) (addr : ℕ) (buffer : ByteSlice)
    (ρ : ℕ → UInt8) (hρ : buffer.StoredIn ρ) :
    (∃ calls : List EntryCall, ReportsCallsAt endian ρ addr buffer.len calls ∧
      (∀ (S : Type) (onEntry : S → FileIdBothDirInfo → List UInt16 → S) (s : S) (fuel : ℕ),
        ∀ q ∈ asked ρ (parseBufferEntries endian addr buffer.len onEntry fuel 0 s),
          q < buffer.len) ∧
      ∀ call ∈ calls, ∃ start, start + 2 * call.2.length ≤ buffer.len ∧
        endian.unitBytes call.2 = (buffer.bytes.drop start).take (2 * call.2.length)) ↔
      ∀ offset ∈ recordOffsets endian ρ buffer.len, NameAligned endian ρ addr offset := by
  constructor
  · rintro ⟨calls, hcalls, -⟩
    by_contra hodd
    exact not_reportsCallsAt buffer.len_le hodd calls hcalls
  · intro haligned
    refine ⟨(recordOffsets endian ρ buffer.len).flatMap (callsAt endian ρ),
      fun S onEntry s fuel hfuel => ?_, fun S onEntry s fuel q hq => ?_, fun call hcall => ?_⟩
    · rw [value_parseBufferEntries_zero buffer.len_le hfuel, if_pos haligned]
    · exact asked_parseBufferEntries_lt buffer.len_le (Nat.zero_le _) hq
    · obtain ⟨offset, hoffset, hmem⟩ := List.mem_flatMap.mp hcall
      obtain ⟨start, hstart, hbytes⟩ :=
        nameWithin_of_mem_callsAt (passesBounds_of_mem_offsetsFrom hoffset) hmem
      have hslice := hρ.window_eq hstart
      rw [Nat.zero_add] at hslice
      exact ⟨start, hstart, hbytes.trans hslice⟩

/-- A buffer of zero bytes but for those that are given with their offsets. -/
def sparseBytes (length : ℕ) (bytes : List (ℕ × UInt8)) : List UInt8 :=
  (List.range length).map fun i => (bytes.lookup i).getD 0

theorem length_sparseBytes (length : ℕ) (bytes : List (ℕ × UInt8)) :
    (sparseBytes length bytes).length = length := by
  rw [sparseBytes, List.length_map, List.length_range]

/-- The record of `ab` and, at offset 108, that of `c`, whose distance leads out of the buffer. -/
def evenBuffer : ByteSlice where
  bytes := sparseBytes 220
    [(0, 108), (60, 4), (104, 97), (106, 98), (108 + 3, 238), (108 + 60, 2), (108 + 104, 99)]
  length_le := by
    rw [length_sparseBytes]
    decide

/-- Both names of this buffer stand at even addresses, and its parse is safe. -/
theorem parseBufferEntries_safe_even :
    let ρ := fun i => evenBuffer.bytes.getD i 7
    recordOffsets .little ρ evenBuffer.len = [0, 108] ∧
    (entryAt .little ρ 108).nextEntryOffset = 3992977408 ∧
    ∃ calls : List EntryCall, ReportsCallsAt .little ρ 4096 evenBuffer.len calls ∧
      (∀ (S : Type) (onEntry : S → FileIdBothDirInfo → List UInt16 → S) (s : S) (fuel : ℕ),
        ∀ q ∈ asked ρ (parseBufferEntries .little 4096 evenBuffer.len onEntry fuel 0 s),
          q < evenBuffer.len) ∧
      ∀ call ∈ calls, ∃ start, start + 2 * call.2.length ≤ evenBuffer.len ∧
        Endian.little.unitBytes call.2 =
          (evenBuffer.bytes.drop start).take (2 * call.2.length) := by
  intro ρ
  have hoffsets : recordOffsets .little ρ evenBuffer.len = [0, 108] := by decide +kernel
  refine ⟨hoffsets, by decide +kernel,
    (parseBufferEntries_safe_iff .little 4096 evenBuffer ρ (holds_getD _ 7)).mpr ?_⟩
  rw [hoffsets]
  decide +kernel

/-- The record of `a`, and that of `b` at offset 113. -/
def oddBuffer : ByteSlice where
  bytes := sparseBytes 225 [(0, 113), (60, 2), (104, 97), (113 + 60, 2), (113 + 104, 98)]
  length_le := by
    rw [length_sparseBytes]
    decide

/-- The name `b` of this buffer stands at an odd address, and the parser does not return. -/
theorem not_parseBufferEntries_safe_odd :
    let ρ := fun i => oddBuffer.bytes.getD i 7
    oddBuffer.StoredIn ρ ∧
    value ρ (parseBufferEntries .little 4096 oddBuffer.len
      (fun (log : List EntryCall) entry name => log ++ [(entry, name)]) 226 0 []) = .misaligned ∧
    ¬ ∃ calls : List EntryCall, ReportsCallsAt .little ρ 4096 oddBuffer.len calls ∧
      (∀ (S : Type) (onEntry : S → FileIdBothDirInfo → List UInt16 → S) (s : S) (fuel : ℕ),
        ∀ q ∈ asked ρ (parseBufferEntries .little 4096 oddBuffer.len onEntry fuel 0 s),
          q < oddBuffer.len) ∧
      ∀ call ∈ calls, ∃ start, start + 2 * call.2.length ≤ oddBuffer.len ∧
        Endian.little.unitBytes call.2 =
          (oddBuffer.bytes.drop start).take (2 * call.2.length) := by
  intro ρ
  have hodd : ¬ ∀ offset ∈ recordOffsets .little ρ oddBuffer.len,
      NameAligned .little ρ 4096 offset := by decide +kernel
  have hlength : oddBuffer.len = 225 := length_sparseBytes _ _
  refine ⟨holds_getD _ 7, ?_, ?_⟩
  · rw [value_parseBufferEntries_zero oddBuffer.len_le (by rw [hlength]; decide), if_neg hodd]
  · rintro ⟨calls, hcalls, -⟩
    exact not_reportsCallsAt oddBuffer.len_le hodd calls hcalls

end JwalkMeta
