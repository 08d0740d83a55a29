import JwalkMeta.WalkDir.Alignment
import JwalkMeta.WalkDir.DirInfoChain
import JwalkMeta.WalkDir.Dirents

/-!
# Directory reads from the bytes of the kernel

A streaming enumeration parses the answers of the kernel one after the other, and its closure
schedules a subdirectory as soon as its record has been parsed: before the next record is looked at,
and before the kernel is called again. A walk only sees which requests the enumeration makes, which
entries it collects, and how it ends. For these it makes no difference whether the records are
parsed one by one or are all there from the start.

So the directory reads of a walk are those that go through the bytes, whether the enumeration
succeeds or fails midway, and whatever the answers to the requests are.

Source: `src/core/unix_dir_enum.rs`, `src/core/nt_dir_enum.rs`, `src/lib.rs`.

## Main definitions

* `Streamed`, `Streamed.push`: what a streaming enumeration has done so far.
* `enumerateDirUnixStreaming`, `enumerateDirStreaming`: the streaming enumerations.
* `readDirLinuxBytes`, `readDirWindowsBytes`: directory reads over the answers of the kernel.

## Main results

* `Streamed.foldl_push`: pushing records one by one is an enumeration of all of them.
* `readDirLinuxBytes_eq`, `readDirWindowsBytes_eq`: the directory reads of the two platforms.
-/

namespace JwalkMeta

open Interaction

variable {B E α : Type}

/-! ### Enumerations that stream -/

/-- What a streaming enumeration has done so far: the entries that it has collected, and the
requests of its closure, which end with the count of scheduled children. -/
structure Streamed (α B : Type) where
  entries : List α
  program : Interaction (StreamOp (ReadDirSpec B)) Bool ℕ

namespace Streamed

/-- Before the first call of the kernel. -/
def start : Streamed α B := ⟨[], pure 0⟩

/-- The closure is called on a subdirectory, and every entry is collected. -/
def push (isSubdir : α → Bool)
    (onSubdir : ℕ → α → Interaction (StreamOp (ReadDirSpec B)) Bool ℕ) (s : Streamed α B)
    (info : α) : Streamed α B where
  entries := s.entries ++ [info]
  program := s.program >>= fun streamedCount =>
    if isSubdir info then onSubdir streamedCount info else pure streamedCount

variable {isSubdir : α → Bool}
  {onSubdir : ℕ → α → Interaction (StreamOp (ReadDirSpec B)) Bool ℕ}

/-- **Pushing records one by one is an enumeration of all of them.** -/
theorem foldl_push (records : List α) (s : Streamed α B) :
    records.foldl (push isSubdir onSubdir) s =
      ⟨s.entries ++ records, s.program >>= fun streamedCount =>
        enumerateStreaming isSubdir onSubdir streamedCount records⟩ := by
  induction records generalizing s with
  | nil =>
    have hprogram : (s.program >>= fun streamedCount =>
        enumerateStreaming isSubdir onSubdir streamedCount []) = s.program := bind_done s.program
    rw [List.foldl_nil, List.append_nil, hprogram]
  | cons info rest ih =>
    have hprogram : ((s.push isSubdir onSubdir info).program >>= fun streamedCount =>
        enumerateStreaming isSubdir onSubdir streamedCount rest) =
          s.program >>= fun streamedCount =>
            enumerateStreaming isSubdir onSubdir streamedCount (info :: rest) := by
      rw [push, Interaction.bind_assoc]
      refine congrArg _ (funext fun streamedCount => ?_)
      rw [enumerateStreaming]
      split_ifs with hsub
      · rfl
      · rfl
    rw [List.foldl_cons, ih, hprogram, push, List.append_assoc, List.singleton_append]

end Streamed

/-! ### Linux -/

/-- The entries that `enumerate_dir_unix` makes of the records: all but `.` and `..`. -/
def ownedEntries (records : List LinuxDirent) : List LinuxDirEntryOwned :=
  ((records.map LinuxDirent.entry).filter fun record => !isDot record.2).map fun record =>
    ⟨record.1, record.2, none⟩

theorem ownedEntries_cons (r : LinuxDirent) (rest : List LinuxDirent) :
    ownedEntries (r :: rest) =
      if isDot r.name then ownedEntries rest else ⟨r.dType, r.name, none⟩ :: ownedEntries rest := by
  simp only [ownedEntries, List.map_cons, List.filter_cons, LinuxDirent.entry]
  cases isDot r.name with
  | true => rfl
  | false => rfl

/-- The calls of one enumeration: the answers of `getdents64` that have records, and the error of
`open` or of a later `getdents64`, if it is not the end of the directory that comes last. -/
structure GetdentsCalls where
  answers : List GetdentsAnswer
  error : Option IoError

/-- The answers consist of whole records, which are those of an enumeration. -/
structure GetdentsCalls.Write (endian : Endian) (calls : GetdentsCalls)
    (enumeration : Enumeration (UInt8 × OsString)) : Prop where
  exists_batches : ∃ batches : List (List LinuxDirent),
    List.Forall₂ (GetdentsAnswer.Writes endian) calls.answers batches ∧
      enumeration.records = batches.flatten.map LinuxDirent.entry
  error_eq : enumeration.error = calls.error

section Linux

/-- The closure of `enumerate_dir_unix_streaming`. -/
def pushStreamedEntry
    (onSubdir : ℕ → LinuxDirEntryOwned → Interaction (StreamOp (ReadDirSpec B)) Bool ℕ)
    (s : Streamed LinuxDirEntryOwned B) (dType : UInt8) (name : OsString) :
    Streamed LinuxDirEntryOwned B :=
  if isDot name then s
  else s.push (fun info => info.dType == DT_DIR) onSubdir ⟨dType, name, none⟩

/-- The loop of `enumerate_dir_unix_streaming` over the answers of `getdents64` that come before the
end of the directory or an error. -/
def enumerateDirUnixStreaming (endian : Endian) (fuel : ℕ)
    (onSubdir : ℕ → LinuxDirEntryOwned → Interaction (StreamOp (ReadDirSpec B)) Bool ℕ) :
    List GetdentsAnswer → Streamed LinuxDirEntryOwned B → Option (Streamed LinuxDirEntryOwned B)
  | [], s => some s
  | answer :: rest, s =>
    (value answer.memory
      (parseDirents endian answer.written (pushStreamedEntry onSubdir) fuel 0 s)).bind
        (enumerateDirUnixStreaming endian fuel onSubdir rest)

/-- `read_dir_linux_via_getdents`, with the loops over the answers of the kernel. -/
def readDirLinuxBytes [Inhabited E] (endian : Endian) (calls : GetdentsCalls) (os : LinuxCalls)
    (opts : WalkDirOptions B E) (req : ReadRequest B) :
    Option (Interaction (StreamOp (ReadDirSpec B)) Bool (ReadDirResult B E)) :=
  let outcome (entries : List LinuxDirEntryOwned) (streamedChildCount : ℕ) : ReadDirResult B E :=
    readDirOutcome opts req ⟨entries, calls.error⟩
      (fun entries => (batchStatx os opts req.path entries).filterMap (linuxResult os opts req))
      streamedChildCount
  match opts.streaming req with
  | some ctx => do
    let s ← enumerateDirUnixStreaming endian (dentsBufSize + 1)
      (onSubdir (skipLinux opts) LinuxDirEntryOwned.name req ctx) calls.answers .start
    return do
      let streamedChildCount ← s.program
      return outcome s.entries streamedChildCount
  | none => do
    let entries ← enumerateDirUnix endian (dentsBufSize + 1) calls.answers []
    return .done (outcome entries 0)

variable {endian : Endian}
  {onSubdir : ℕ → LinuxDirEntryOwned → Interaction (StreamOp (ReadDirSpec B)) Bool ℕ}

theorem foldl_pushStreamedEntry (records : List LinuxDirent) (s : Streamed LinuxDirEntryOwned B) :
    records.foldl (fun s r => pushStreamedEntry onSubdir s r.dType r.name) s =
      (ownedEntries records).foldl (Streamed.push (fun info => info.dType == DT_DIR) onSubdir)
        s := by
  induction records generalizing s with
  | nil => rfl
  | cons r rest ih =>
    rw [List.foldl_cons, ih, ownedEntries_cons, pushStreamedEntry]
    cases isDot r.name with
    | true => rfl
    | false => rfl

/-- The loop pushes the entries of all answers, one after the other. -/
theorem enumerateDirUnixStreaming_eq {answers : List GetdentsAnswer}
    {batches : List (List LinuxDirent)}
    (hanswers : List.Forall₂ (GetdentsAnswer.Writes endian) answers batches)
    (s : Streamed LinuxDirEntryOwned B) :
    enumerateDirUnixStreaming endian (dentsBufSize + 1) onSubdir answers s =
      some ((ownedEntries batches.flatten).foldl
        (Streamed.push (fun info => info.dType == DT_DIR) onSubdir) s) := by
  rw [← foldl_pushStreamedEntry]
  induction hanswers generalizing s with
  | nil => rfl
  | cons hanswer _ ih =>
    rw [enumerateDirUnixStreaming, hanswer.value_parseDirents, Option.bind_some, ih,
      List.flatten_cons, List.foldl_append]

/-- **The directory reads of Linux go through the bytes of the kernel.** If the calls of `open` and
`getdents64` write the records of an enumeration, in answers of at most 64 KB, and then end it as
it ends, then the read whose closure is called from within the parser is the directory read of a
walk: with the same requests for subdirectories, which depend in the same way on their answers, and
with the same result. This holds with and without streaming, and after an error as well. -/
theorem readDirLinuxBytes_eq [Inhabited E] (endian : Endian) (calls : GetdentsCalls)
    (os : LinuxCalls) (opts : WalkDirOptions B E) (attempt : ℕ) (req : ReadRequest B)
    (hcalls : calls.Write endian (os.enumerate req.path attempt)) :
    readDirLinuxBytes endian calls os opts req =
      some (readDirOn (E := E) (.linux os) opts attempt req) := by
  obtain ⟨⟨batches, hanswers, hrecords⟩, herror⟩ := hcalls
  have hentries : linuxRecords os req.path attempt =
      ⟨ownedEntries batches.flatten, calls.error⟩ := by
    rw [linuxRecords, hrecords, herror, ownedEntries]
  rw [readDirOn, readDirLinuxViaGetdents, readDirWith, streamSubdirs, hentries, readDirLinuxBytes]
  cases opts.streaming req with
  | some ctx =>
    simp only [enumerateDirUnixStreaming_eq hanswers, Streamed.foldl_push]
    rfl
  | none =>
    simp only [enumerateDirUnix_eq_linuxRecords endian os req.path attempt hanswers hrecords,
      hentries]
    rfl

/-- Records of a directory `bc` and of a file `a`. -/
def twoRecords : List LinuxDirent :=
  [⟨1, 24, DT_DIR, [98, 99], [0, 0], by decide, by decide, by decide⟩,
    ⟨2, 48, 8, [97], [0, 0, 0], by decide, by decide, by decide⟩]

/-- One answer with these records, before an error. -/
def failingCalls : GetdentsCalls :=
  let bytes : List UInt8 := twoRecords.flatMap fun r => r.toBytes .little
  ⟨[⟨fun i => bytes.getD i 1, bytes.length⟩], some (.os 5)⟩

theorem write_failingCalls :
    failingCalls.Write .little ⟨twoRecords.map LinuxDirent.entry, some (.os 5)⟩ where
  exists_batches :=
    ⟨[twoRecords], .cons ⟨holds_getD _ 1, rfl, by decide⟩ .nil, rfl⟩
  error_eq := rfl

/-- The read of a directory whose second call of `getdents64` fails. -/
theorem readDirLinuxBytes_failing :
    let os := LinuxCalls.listing fun _ => ⟨twoRecords.map LinuxDirent.entry, some (.os 5)⟩
    let req : ReadRequest Unit := ⟨⟨[.normal [114]]⟩, 0, 1, none, (), some ⟨⟨[0]⟩, 0⟩⟩
    readDirLinuxBytes (E := Unit) .little failingCalls os .new req =
      some (readDirOn (.linux os) .new 0 req) :=
  readDirLinuxBytes_eq .little failingCalls _ .new 0 _ write_failingCalls

end Linux

/-! ### Windows -/

/-- The loop of `enumerate_dir_core_inner` over the contents that `NtQueryDirectoryFileEx` gives the
buffer at the address `addr` before it reports the end of the directory or an error. -/
def enumerateDirCore {S : Type} (endian : Endian) (addr fuel : ℕ)
    (onEntry : S → FileIdBothDirInfo → List UInt16 → S) : List (ℕ → UInt8) → S → Option S
  | [], s => some s
  | ρ :: rest, s =>
    match value ρ (parseBufferEntries endian addr ntBufferSize onEntry fuel 0 s) with
    | .returned s => enumerateDirCore endian addr fuel onEntry rest s
    | .misaligned | .unfinished => none

/-- A buffer that `NtQueryDirectoryFileEx` has filled with a chain. -/
def HoldsChain (endian : Endian) (ρ : ℕ → UInt8) (records : List DirRecord) : Prop :=
  ∃ buffer : ByteSlice,
    buffer.len = ntBufferSize ∧ buffer.StoredIn ρ ∧ Chain endian buffer 0 records

/-- The calls of one enumeration: the contents that they give the buffer, and the error of the
handle or of a later call, if it is not the end of the directory that comes last. -/
structure NtCalls where
  /-- The address of the buffer, which the allocator has aligned. -/
  addr : ℕ
  addr_even : 2 ∣ addr
  answers : List (ℕ → UInt8)
  error : Option IoError

/-- The buffers are filled with chains, and of their records those that are kept are the records of
an enumeration. -/
structure NtCalls.Fill (endian : Endian) (fromWide : List UInt16 → OsString) (calls : NtCalls)
    (enumeration : Enumeration DirEntryInfo) : Prop where
  exists_chains : ∃ chains : List (List DirRecord),
    List.Forall₂ (HoldsChain endian) calls.answers chains ∧
      enumeration.records = (chains.flatMap (keptCalls ntBufferSize 0)).map
        fun call => entryInfo fromWide call.1 call.2
  error_eq : enumeration.error = calls.error

section Windows

variable (fromWide : List UInt16 → OsString)

/-- The closure of `enumerate_dir_streaming`. -/
def pushStreamedInfo
    (onSubdir : ℕ → DirEntryInfo → Interaction (StreamOp (ReadDirSpec B)) Bool ℕ)
    (s : Streamed DirEntryInfo B) (entry : FileIdBothDirInfo) (fileName : List UInt16) :
    Streamed DirEntryInfo B :=
  s.push (fun info => hasDirectoryBit info.fileAttributes) onSubdir
    (entryInfo fromWide entry fileName)

/-- `enumerate_dir_streaming`, over the buffers that are filled. -/
def enumerateDirStreaming (endian : Endian) (addr fuel : ℕ)
    (onSubdir : ℕ → DirEntryInfo → Interaction (StreamOp (ReadDirSpec B)) Bool ℕ)
    (answers : List (ℕ → UInt8)) : Option (Streamed DirEntryInfo B) :=
  enumerateDirCore endian addr fuel (pushStreamedInfo fromWide onSubdir) answers .start

/-- `read_dir_windows`, with the loops over the buffers of NT. -/
def readDirWindowsBytes [Inhabited E] (endian : Endian) (calls : NtCalls) (os : WindowsCalls)
    (opts : WalkDirOptions B E) (req : ReadRequest B) :
    Option (Interaction (StreamOp (ReadDirSpec B)) Bool (ReadDirResult B E)) :=
  let outcome (entries : List DirEntryInfo) (streamedChildCount : ℕ) : ReadDirResult B E :=
    readDirOutcome opts req ⟨entries, calls.error⟩
      (fun entries =>
        (if opts.readMetadataExt && opts.readHardlinkInfo then fillLinkInfo os req.path entries
          else entries).filterMap (windowsResult os opts req))
      streamedChildCount
  match opts.streaming req with
  | some ctx => do
    let s ← enumerateDirStreaming fromWide endian calls.addr (ntBufferSize + 1)
      (onSubdir (skipWindows opts) DirEntryInfo.fileName req ctx) calls.answers
    return do
      let streamedChildCount ← s.program
      return outcome s.entries streamedChildCount
  | none => do
    let entries ← enumerateDir fromWide endian calls.addr (ntBufferSize + 1) calls.answers []
    return .done (outcome entries 0)

variable {endian : Endian} {fromWide}

/-- `enumerate_dir` is the loop with a closure that collects the entries. -/
theorem enumerateDir_eq_core (addr fuel : ℕ) (answers : List (ℕ → UInt8))
    (entries : List DirEntryInfo) :
    enumerateDir fromWide endian addr fuel answers entries =
      enumerateDirCore endian addr fuel (pushInfo fromWide) answers entries := by
  induction answers generalizing entries with
  | nil => rfl
  | cons ρ rest ih =>
    rw [enumerateDir, enumerateDirCore]
    cases value ρ (parseBufferEntries endian addr ntBufferSize (pushInfo fromWide) fuel 0 entries)
      with
    | returned entries => exact ih entries
    | misaligned => rfl
    | unfinished => rfl

/-- The closure is called for the records that are kept, chain by chain. -/
theorem enumerateDirCore_eq {S : Type} {onEntry : S → FileIdBothDirInfo → List UInt16 → S}
    {answers : List (ℕ → UInt8)} {chains : List (List DirRecord)}
    (hanswers : List.Forall₂ (HoldsChain endian) answers chains) {addr : ℕ} (haddr : 2 ∣ addr)
    (s : S) :
    enumerateDirCore endian addr (ntBufferSize + 1) onEntry answers s =
      some (afterCalls onEntry s (chains.flatMap (keptCalls ntBufferSize 0))) := by
  induction hanswers generalizing s with
  | nil => rfl
  | @cons ρ records answers chains hanswer _ ih =>
    obtain ⟨buffer, hlen, hstored, hchain⟩ := hanswer
    have hreports := reportsCalls_keptCalls hchain hstored
    rw [hlen] at hreports
    rw [enumerateDirCore, hreports _ haddr S onEntry s _ (Nat.lt_succ_self _)]
    simp only [ih, List.flatMap_cons, afterCalls, List.foldl_append]

/-- The closure of the streaming enumeration pushes entries. -/
theorem afterCalls_pushStreamedInfo
    (onSubdir : ℕ → DirEntryInfo → Interaction (StreamOp (ReadDirSpec B)) Bool ℕ)
    (s : Streamed DirEntryInfo B) (calls : List EntryCall) :
    afterCalls (pushStreamedInfo fromWide onSubdir) s calls =
      (calls.map fun call => entryInfo fromWide call.1 call.2).foldl
        (Streamed.push (fun info => hasDirectoryBit info.fileAttributes) onSubdir) s := by
  rw [List.foldl_map]
  rfl

/-- Records that are kept are neither `.` nor `..`. -/
theorem isDot_of_mem_keptCalls
    (hdot : ∀ name, isDot (fromWide name) = (name == [46] || name == [46, 46])) {bufLen offset : ℕ}
    {records : List DirRecord} {call : EntryCall} (h : call ∈ keptCalls bufLen offset records) :
    isDot (entryInfo fromWide call.1 call.2).fileName = false := by
  obtain ⟨p, hp, rfl⟩ := List.mem_map.mp h
  have hkept : p.2.isDot = false := by
    have hboth := (List.mem_filter.mp hp).2
    rw [isKept, Bool.and_eq_true] at hboth
    simpa using hboth.1
  exact (hdot p.2.name).trans hkept

/-- **The directory reads of Windows go through the buffers of NT.** If the calls of
`NtQueryDirectoryFileEx` fill buffers of 64 KB with chains of records, of which an enumeration has
those that fit as structures, and then end it as it ends, then the read whose closure is called
from within the parser is the directory read of a walk: with the same requests for subdirectories,
which depend in the same way on their answers, and with the same result. Of the conversion of names
only the names `.` and `..` matter. -/
theorem readDirWindowsBytes_eq [Inhabited E] (endian : Endian) (calls : NtCalls)
    (os : WindowsCalls) (opts : WalkDirOptions B E) (attempt : ℕ) (req : ReadRequest B)
    (fromWide : List UInt16 → OsString)
    (hdot : ∀ name, isDot (fromWide name) = (name == [46] || name == [46, 46]))
    (hcalls : calls.Fill endian fromWide (os.enumerate req.path attempt)) :
    readDirWindowsBytes fromWide endian calls os opts req =
      some (readDirOn (E := E) (.windows os) opts attempt req) := by
  obtain ⟨⟨chains, hanswers, hrecords⟩, herror⟩ := hcalls
  have hentries : windowsRecords os req.path attempt =
      ⟨(chains.flatMap (keptCalls ntBufferSize 0)).map
        fun call => entryInfo fromWide call.1 call.2, calls.error⟩ := by
    rw [windowsRecords, hrecords, herror, List.filter_eq_self.mpr]
    intro info hinfo
    obtain ⟨call, hcall, rfl⟩ := List.mem_map.mp hinfo
    obtain ⟨records, -, hkept⟩ := List.mem_flatMap.mp hcall
    rw [isDot_of_mem_keptCalls hdot hkept, Bool.not_false]
  rw [readDirOn, readDirWindows, readDirWith, streamSubdirs, hentries, readDirWindowsBytes]
  cases opts.streaming req with
  | some ctx =>
    simp only [enumerateDirStreaming, enumerateDirCore_eq hanswers calls.addr_even,
      afterCalls_pushStreamedInfo, Streamed.foldl_push]
    rfl
  | none =>
    simp only [enumerateDir_eq_core, enumerateDirCore_eq hanswers calls.addr_even,
      afterCalls_pushInfo]
    rfl

/-- The conversion of names of ASCII units. -/
def fromAscii (name : List UInt16) : OsString :=
  name.map fun u => if u < 128 then u.toUInt8 else 255

theorem isDot_fromAscii (name : List UInt16) :
    isDot (fromAscii name) = (name == [46] || name == [46, 46]) := by
  have hunit (u : UInt16) : ((if u < 128 then u.toUInt8 else 255) == 46) = (u == 46) := by
    refine Bool.eq_iff_iff.mpr ?_
    rw [beq_iff_eq, beq_iff_eq]
    split_ifs with hlt
    · have hu : u.toNat < 128 := UInt16.lt_iff_toNat_lt.mp hlt
      rw [← UInt8.toNat_inj, ← UInt16.toNat_inj, UInt16.toNat_toUInt8, Nat.mod_eq_of_lt (by omega)]
      rfl
    · constructor
      · exact fun h => absurd h (by decide)
      · rintro rfl
        exact absurd (by decide) hlt
  rcases name with _ | ⟨u, _ | ⟨v, _ | ⟨w, rest⟩⟩⟩
  · rfl
  · simp [isDot, fromAscii, hunit]
  · simp [isDot, fromAscii, hunit]
  · simp [isDot, fromAscii]

/-- The record with other attributes. -/
def DirRecord.withAttributes (r : DirRecord) (fileAttributes : UInt32) : DirRecord :=
  { r with
    info := { r.info with fileAttributes }
    length_shortName := r.length_shortName
    fileNameLength_eq := r.fileNameLength_eq }

/-- The record of a directory `bc`. -/
def bcRecord : DirRecord :=
  (blankRecord 108 [98, 99] (by decide)).withAttributes FILE_ATTRIBUTE_DIRECTORY

theorem length_name_a : 2 * ([97] : List UInt16).length < 2 ^ 32 := by decide

/-- The records of this directory and of a file `a`. -/
def bcRecords : List DirRecord := [bcRecord, blankRecord 0 [97] length_name_a]

theorem leads_bcRecord : bcRecord.Leads := ⟨by decide, by decide⟩

theorem length_packed_bcRecords :
    (packed .little bcRecords ++ List.replicate 65322 0).length = ntBufferSize := by
  rw [List.length_append, bcRecords, length_packed_cons leads_bcRecord, length_packed_last rfl,
    List.length_replicate]
  rfl

/-- These records in a buffer of 64 KB. -/
def bcBuffer : ByteSlice where
  bytes := packed .little bcRecords ++ List.replicate 65322 0
  length_le := by
    rw [length_packed_bcRecords]
    decide

/-- One such buffer, before an error. -/
def bcCalls : NtCalls := ⟨4096, by decide, [fun i => bcBuffer.bytes.getD i 0], some (.os 5)⟩

theorem fill_bcCalls : bcCalls.Fill .little fromAscii
    ⟨[entryInfo fromAscii bcRecord.info [98, 99],
      entryInfo fromAscii (blankRecord 0 [97] length_name_a).info [97]], some (.os 5)⟩ where
  exists_chains := by
    have hlinked : Linked bcRecords := ⟨leads_bcRecord, rfl⟩
    have hchain : Chain .little bcBuffer 0 bcRecords :=
      chain_packed hlinked [] (List.replicate 65322 0) (Nat.dvd_zero 4) rfl
    exact ⟨[bcRecords], .cons ⟨bcBuffer, length_packed_bcRecords, holds_getD bcBuffer.bytes 0,
      hchain⟩ .nil, rfl⟩
  error_eq := rfl

/-- The read of a directory whose second call of `NtQueryDirectoryFileEx` fails. -/
theorem readDirWindowsBytes_failing :
    let os := listingWindows [([98, 99], FILE_ATTRIBUTE_DIRECTORY), ([97], 0)] (some (.os 5))
    let req : ReadRequest Unit := ⟨⟨[.normal [114]]⟩, 0, 1, none, (), some ⟨⟨[0]⟩, 0⟩⟩
    readDirWindowsBytes (E := Unit) fromAscii .little bcCalls os .new req =
      some (readDirOn (.windows os) .new 0 req) :=
  readDirWindowsBytes_eq .little bcCalls _ .new 0 _ fromAscii isDot_fromAscii fill_bcCalls

end Windows

end JwalkMeta
