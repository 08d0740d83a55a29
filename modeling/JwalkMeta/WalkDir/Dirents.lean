import JwalkMeta.Core.ByteSlice
import JwalkMeta.WalkDir.Callback

/-!
# The records of `getdents64`

`parse_dirents` goes through a buffer that `getdents64` has filled. A record has a header, its name
from byte 19 on with a zero byte after it, and padding up to a multiple of 8 bytes; the header says
how long the record is. The loop asks for the 24 bytes that the header has as a structure, although
the fields end at byte 19. No record is shorter than that: with its zero byte it has more than 19
bytes, and its length is a multiple of 8.

Source: `src/core/unix_dir_enum.rs`.

## Main definitions

* `LinuxDirent`: a record as the kernel writes it, with its bytes.
* `parseDirents`: the parser.
* `completeRecords`: the records that lie within the first bytes of a buffer.
* `enumerateDirUnix`: the loop over the answers of `getdents64`.

## Main results

* `value_parseDirents_complete`, `value_parseDirents_cut`: one turn of the loop.
* `parseDirents_reports_complete`: exactly the complete records are reported.
* `enumerateDirUnix_eq_linuxRecords`: the entries that a directory read starts from are those that
  the parser finds in the answers of the kernel.
-/

namespace JwalkMeta

open Interaction

/-! ### The layout of a record -/

namespace LinuxDirent64

/-- The types of `d_ino`, `d_off`, `d_reclen` and `d_type`. -/
def fields : List CType := [.u64, .u64, .u16, .u8]

/-- `size_of::<LinuxDirent64>()`. -/
def size : ℕ := ReprC.size fields

/-- The offset of `d_reclen`. -/
def reclenOffset : ℕ := ReprC.fieldOffset fields 2

/-- The offset of `d_type`. -/
def typeOffset : ℕ := ReprC.fieldOffset fields 3

theorem size_eq : size = 24 := rfl

theorem reclenOffset_eq : reclenOffset = 16 := rfl

theorem typeOffset_eq : typeOffset = 18 := rfl

end LinuxDirent64

/-- `DIRENT_NAME_OFFSET`. -/
def direntNameOffset : ℕ := 19

/-- A record as the kernel writes it. -/
structure LinuxDirent where
  dIno : UInt64
  dOff : UInt64
  dType : UInt8
  name : OsString
  /-- What stands between the zero byte after the name and the end of the record. -/
  padding : List UInt8
  nul_not_mem : 0 ∉ name
  dvd_length : 8 ∣ direntNameOffset + (name.length + 1) + padding.length
  length_lt : direntNameOffset + (name.length + 1) + padding.length < 2 ^ 16

namespace LinuxDirent

/-- The length of a record, `d_reclen`. -/
def reclen (r : LinuxDirent) : ℕ := direntNameOffset + (r.name.length + 1) + r.padding.length

/-- The bytes of a record. -/
def toBytes (endian : Endian) (r : LinuxDirent) : List UInt8 :=
  endian.toBytes 8 r.dIno.toNat ++ (endian.toBytes 8 r.dOff.toNat ++
    (endian.toBytes 2 r.reclen ++ (r.dType :: ((r.name ++ [0]) ++ r.padding))))

theorem length_toBytes (endian : Endian) (r : LinuxDirent) :
    (r.toBytes endian).length = r.reclen := by
  simp only [toBytes, List.length_append, Endian.length_toBytes, List.length_cons,
    List.length_nil, reclen, direntNameOffset]
  omega

/-- A record is at least as long as the structure of its header. -/
theorem size_le_reclen (r : LinuxDirent) : LinuxDirent64.size ≤ r.reclen := by
  have hdvd := r.dvd_length
  rw [LinuxDirent64.size_eq, reclen]
  simp only [direntNameOffset] at hdvd ⊢
  omega

end LinuxDirent

/-! ### The parser -/

section Parser

variable {S : Type}

/-- `parse_dirents`, with the closure `on_entry` as a function of the variables `s` that it
changes. `none` if the loop, or `strlen` in it, has not ended after `fuel` turns. -/
def parseDirents (endian : Endian) (len : ℕ) (onEntry : S → UInt8 → OsString → S) :
    ℕ → ℕ → S → Reader (Option S)
  | 0, _, _ => done none
  | fuel + 1, offset, s =>
    if usizeAdd offset LinuxDirent64.size ≤ len then do
      let reclen ← readNat endian (offset + LinuxDirent64.reclenOffset) 2
      if reclen = 0 ∨ len < usizeAdd offset reclen then done (some s)
      else do
        let nameLen ← strlen fuel (offset + direntNameOffset)
        match nameLen with
        | none => done none
        | some nameLen => do
          let dType ← request (offset + LinuxDirent64.typeOffset)
          let name ← readBytes (offset + direntNameOffset) nameLen
          parseDirents endian len onEntry fuel (usizeAdd offset reclen) (onEntry s dType name)
    else done (some s)

/-- The records that lie wholly within the first `len` bytes, if the first record starts at
`offset`. -/
def completeRecords (len : ℕ) : ℕ → List LinuxDirent → List LinuxDirent
  | _, [] => []
  | offset, r :: rest =>
    if offset + r.reclen ≤ len then r :: completeRecords len (offset + r.reclen) rest
    else completeRecords len (offset + r.reclen) rest

end Parser

/-! ### One turn of the loop -/

section Turns

variable {S : Type} {endian : Endian} {ρ : ℕ → UInt8} {len offset : ℕ} {r : LinuxDirent}
  {onEntry : S → UInt8 → OsString → S}

/-- What the parser looks at in a record. -/
theorem holds_of_record (h : Holds ρ offset (r.toBytes endian)) :
    endian.toNat (window ρ (offset + LinuxDirent64.reclenOffset) 2) = r.reclen ∧
      ρ (offset + LinuxDirent64.typeOffset) = r.dType ∧
      Holds ρ (offset + direntNameOffset) (r.name ++ [0]) := by
  simp only [LinuxDirent.toBytes, holds_append,
    Endian.length_toBytes] at h
  obtain ⟨-, -, hreclen, hrest⟩ := h
  obtain ⟨htype, hname⟩ := holds_cons.mp hrest
  refine ⟨?_, htype, (holds_append.mp hname).1⟩
  have hwindow : window ρ (offset + 8 + 8) 2 = endian.toBytes 2 r.reclen := by
    simpa only [Holds, Endian.length_toBytes] using hreclen
  rw [show offset + LinuxDirent64.reclenOffset = offset + 8 + 8 from rfl, hwindow,
    endian.toNat_toBytes r.length_lt]

theorem usizeAdd_size (hlen : len ≤ isizeMax) (hoffset : offset ≤ len) :
    usizeAdd offset LinuxDirent64.size = offset + LinuxDirent64.size := by
  refine usizeAdd_eq ?_
  rw [LinuxDirent64.size_eq]
  simp only [isizeMax, usizeMax] at hlen ⊢
  omega

theorem usizeAdd_reclen (hlen : len ≤ isizeMax) (hoffset : offset ≤ len) :
    usizeAdd offset r.reclen = offset + r.reclen := by
  have hreclen : r.reclen < 2 ^ 16 := r.length_lt
  refine usizeAdd_eq ?_
  simp only [isizeMax, usizeMax] at hlen ⊢
  omega

/-- A complete record is reported, and the next turn starts behind it. -/
theorem value_parseDirents_complete (h : Holds ρ offset (r.toBytes endian))
    (hlen : len ≤ isizeMax) (hfit : offset + r.reclen ≤ len) {fuel : ℕ}
    (hfuel : r.name.length < fuel) (s : S) :
    value ρ (parseDirents endian len onEntry (fuel + 1) offset s) =
      value ρ (parseDirents endian len onEntry fuel (offset + r.reclen)
        (onEntry s r.dType r.name)) := by
  obtain ⟨hreclen, htype, hname⟩ := holds_of_record h
  have hsize := r.size_le_reclen
  have hhead : offset + LinuxDirent64.size ≤ len := by omega
  have hne : ¬ (r.reclen = 0 ∨ len < offset + r.reclen) := by
    rw [LinuxDirent64.size_eq] at hsize
    omega
  have hbytes : window ρ (offset + direntNameOffset) r.name.length = r.name :=
    (holds_append.mp hname).1
  rw [parseDirents, usizeAdd_size hlen (by omega), if_pos hhead]
  simp only [value_bind, value_readNat, hreclen, usizeAdd_reclen hlen (by omega : offset ≤ len),
    if_neg hne, value_strlen r.nul_not_mem hname, if_pos hfuel, request_bind, value_ask, htype,
    value_readBytes, hbytes]

/-- A record that is cut off ends the loop. -/
theorem value_parseDirents_cut (h : Holds ρ offset (r.toBytes endian)) (hlen : len ≤ isizeMax)
    (hoffset : offset ≤ len) (hcut : len < offset + r.reclen) (fuel : ℕ) (s : S) :
    value ρ (parseDirents endian len onEntry (fuel + 1) offset s) = some s := by
  obtain ⟨hreclen, -, -⟩ := holds_of_record h
  rw [parseDirents, usizeAdd_size hlen hoffset]
  split
  · simp only [value_bind, value_readNat, hreclen, usizeAdd_reclen hlen hoffset,
      if_pos (Or.inr hcut), value_done]
  · rfl

/-- In one turn nothing behind the first `len` bytes is read. -/
theorem asked_parseDirents (h : Holds ρ offset (r.toBytes endian)) (hlen : len ≤ isizeMax)
    (hoffset : offset ≤ len) {fuel q : ℕ} {s : S}
    (hq : q ∈ asked ρ (parseDirents endian len onEntry (fuel + 1) offset s)) :
    q < len ∨ offset + r.reclen ≤ len ∧
      q ∈ asked ρ (parseDirents endian len onEntry fuel (offset + r.reclen)
        (onEntry s r.dType r.name)) := by
  obtain ⟨hreclen, htype, hname⟩ := holds_of_record h
  have hsize := r.size_le_reclen
  have hbytes : window ρ (offset + direntNameOffset) r.name.length = r.name :=
    (holds_append.mp hname).1
  have hnameEnd : direntNameOffset + r.name.length < r.reclen := by
    rw [LinuxDirent.reclen]
    omega
  rw [parseDirents, usizeAdd_size hlen hoffset] at hq
  split at hq
  · rename_i hhead
    rw [asked_bind, List.mem_append, asked_readNat, value_readNat, hreclen,
      usizeAdd_reclen hlen hoffset] at hq
    rcases hq with hq | hq
    · have hheader : q < offset + LinuxDirent64.size := by
        simp only [LinuxDirent64.reclenOffset_eq, LinuxDirent64.size_eq, List.mem_range'_1] at hq ⊢
        omega
      exact Or.inl (by omega)
    · split at hq
      · simp at hq
      · rename_i hcomplete
        have hfit : offset + r.reclen ≤ len := by omega
        rw [asked_bind, List.mem_append, value_strlen r.nul_not_mem hname] at hq
        rcases hq with hq | hq
        · have hlast := asked_strlen hname hq
          exact Or.inl (by omega)
        · by_cases hfuel : r.name.length < fuel
          · simp only [if_pos hfuel, request_bind, asked_ask, htype, asked_bind, asked_readBytes,
              value_readBytes, hbytes, List.mem_cons, List.mem_append,
              List.mem_range'_1] at hq
            rcases hq with rfl | hq | hq
            · exact Or.inl (by rw [LinuxDirent64.size_eq, LinuxDirent64.typeOffset_eq] at *; omega)
            · exact Or.inl (by omega)
            · exact Or.inr ⟨hfit, hq⟩
          · simp [if_neg hfuel] at hq
  · simp at hq

end Turns

/-! ### The records of a buffer -/

theorem completeRecords_of_lt {len offset : ℕ} (h : len < offset) (records : List LinuxDirent) :
    completeRecords len offset records = [] := by
  induction records generalizing offset with
  | nil => rfl
  | cons r rest ih =>
    rw [completeRecords, if_neg (by omega), ih (by omega)]

/-- If the first bytes are all bytes, every record is complete. -/
theorem completeRecords_of_le (endian : Endian) {len offset : ℕ} {records : List LinuxDirent}
    (h : offset + (records.flatMap fun r => r.toBytes endian).length ≤ len) :
    completeRecords len offset records = records := by
  induction records generalizing offset with
  | nil => rfl
  | cons r rest ih =>
    rw [List.flatMap_cons, List.length_append, LinuxDirent.length_toBytes] at h
    rw [completeRecords, if_pos (by omega), ih (by omega)]

section Buffer

variable {S : Type} {endian : Endian} {ρ : ℕ → UInt8} {len : ℕ} {onEntry : S → UInt8 → OsString → S}

/-- The parser behind the last record. -/
theorem parseDirents_end (hlen : len ≤ isizeMax) (fuel : ℕ) (s : S) :
    parseDirents endian len onEntry (fuel + 1) len s = done (some s) := by
  rw [parseDirents, usizeAdd_size hlen le_rfl, LinuxDirent64.size_eq, if_neg (by omega)]

/-- From the start of a record on, exactly the complete records are reported. -/
theorem value_parseDirents {records : List LinuxDirent} {offset fuel : ℕ}
    (h : Holds ρ offset (records.flatMap fun r => r.toBytes endian)) (hlen : len ≤ isizeMax)
    (hoffset : offset ≤ len)
    (htotal : len ≤ offset + (records.flatMap fun r => r.toBytes endian).length)
    (hfuel : len - offset < fuel) (s : S) :
    value ρ (parseDirents endian len onEntry fuel offset s) =
      some ((completeRecords len offset records).foldl
        (fun s r => onEntry s r.dType r.name) s) := by
  induction records generalizing offset fuel s with
  | nil =>
    obtain ⟨fuel, rfl⟩ := Nat.exists_eq_add_one_of_ne_zero (Nat.ne_zero_of_lt hfuel)
    obtain rfl : offset = len := by simpa using le_antisymm hoffset (by simpa using htotal)
    rw [parseDirents_end hlen, value_done, completeRecords, List.foldl_nil]
  | cons r rest ih =>
    obtain ⟨fuel, rfl⟩ := Nat.exists_eq_add_one_of_ne_zero (Nat.ne_zero_of_lt hfuel)
    rw [List.flatMap_cons] at h htotal
    obtain ⟨hrecord, hrest⟩ := holds_append.mp h
    rw [LinuxDirent.length_toBytes] at hrest
    rw [List.length_append, LinuxDirent.length_toBytes] at htotal
    rcases Nat.lt_or_ge len (offset + r.reclen) with hcut | hfit
    · rw [value_parseDirents_cut hrecord hlen hoffset hcut, completeRecords,
        if_neg (Nat.not_le_of_lt hcut), completeRecords_of_lt hcut, List.foldl_nil]
    · have hname : r.name.length < r.reclen := by
        rw [LinuxDirent.reclen]
        omega
      rw [value_parseDirents_complete hrecord hlen hfit (by omega),
        ih hrest hfit (by omega) (by omega), completeRecords, if_pos hfit, List.foldl_cons]

/-- From the start of a record on, nothing behind the first `len` bytes is read. -/
theorem asked_parseDirents_lt {records : List LinuxDirent} {offset fuel : ℕ}
    (h : Holds ρ offset (records.flatMap fun r => r.toBytes endian)) (hlen : len ≤ isizeMax)
    (hoffset : offset ≤ len)
    (htotal : len ≤ offset + (records.flatMap fun r => r.toBytes endian).length) (s : S) :
    ∀ q ∈ asked ρ (parseDirents endian len onEntry fuel offset s), q < len := by
  induction records generalizing offset fuel s with
  | nil =>
    obtain rfl : offset = len := by simpa using le_antisymm hoffset (by simpa using htotal)
    cases fuel with
    | zero => simp [parseDirents]
    | succ fuel => simp [parseDirents_end hlen]
  | cons r rest ih =>
    rw [List.flatMap_cons] at h htotal
    obtain ⟨hrecord, hrest⟩ := holds_append.mp h
    rw [LinuxDirent.length_toBytes] at hrest
    rw [List.length_append, LinuxDirent.length_toBytes] at htotal
    cases fuel with
    | zero => simp [parseDirents]
    | succ fuel =>
      intro q hq
      rcases asked_parseDirents hrecord hlen hoffset hq with hlt | ⟨hfit, hlater⟩
      · exact hlt
      · exact ih hrest hfit (by omega) _ q hlater

/-- **Exactly the complete records are reported.** A buffer holds records one after the other, and
the first `len` of its bytes are parsed. The closure is called on the records that lie wholly
within these bytes, in their order and with their types and names, and no byte behind them is read.
If they are all bytes of the buffer, every record is reported. -/
theorem parseDirents_reports_complete (endian : Endian) (records : List LinuxDirent)
    (buf : ByteSlice) (hbuf : buf.bytes = records.flatMap fun r => r.toBytes endian)
    (ρ : ℕ → UInt8) (hρ : buf.StoredIn ρ) (len : ℕ) (hlen : len ≤ buf.len)
    (onEntry : S → UInt8 → OsString → S) (s : S) :
    (∀ fuel, len < fuel → value ρ (parseDirents endian len onEntry fuel 0 s) =
      some ((completeRecords len 0 records).foldl (fun s r => onEntry s r.dType r.name) s)) ∧
    (∀ fuel, ∀ q ∈ asked ρ (parseDirents endian len onEntry fuel 0 s), q < len) ∧
    (len = buf.len → ∀ fuel, len < fuel → value ρ (parseDirents endian len onEntry fuel 0 s) =
      some (records.foldl (fun s r => onEntry s r.dType r.name) s)) := by
  have hmax : len ≤ isizeMax := hlen.trans buf.len_le
  rw [ByteSlice.StoredIn, hbuf] at hρ
  rw [ByteSlice.len, hbuf] at hlen
  have hvalue (fuel : ℕ) (hfuel : len < fuel) :
      value ρ (parseDirents endian len onEntry fuel 0 s) =
        some ((completeRecords len 0 records).foldl (fun s r => onEntry s r.dType r.name) s) :=
    value_parseDirents hρ hmax (Nat.zero_le len) (by omega) (by omega) s
  refine ⟨hvalue, fun fuel => asked_parseDirents_lt hρ hmax (Nat.zero_le len) (by omega) s, ?_⟩
  intro hall fuel hfuel
  rw [ByteSlice.len, hbuf] at hall
  rw [hvalue fuel hfuel, completeRecords_of_le endian (by omega)]

/-- Of a file `a` and a directory `bc` in records of 24 bytes, the first 30 bytes have the file. -/
theorem parseDirents_reports_first :
    let records : List LinuxDirent :=
      [⟨1, 24, 8, [97], [0, 0, 0], by decide, by decide, by decide⟩,
        ⟨2, 48, DT_DIR, [98, 99], [0, 0], by decide, by decide, by decide⟩]
    let bytes : List UInt8 := records.flatMap fun r => r.toBytes .little
    value (fun i => bytes.getD i 1)
      (parseDirents .little 30 (fun s dType name => s ++ [(dType, name)]) 31 0 []) =
        some [(8, [97])] := by
  intro records bytes
  have hlength : bytes.length ≤ isizeMax := by decide
  have hlen : 30 ≤ bytes.length := by decide
  exact (parseDirents_reports_complete .little records ⟨bytes, hlength⟩ rfl _ (holds_getD bytes 1)
    30 hlen _ []).1 31 (by decide)

end Buffer

/-! ### The enumeration of a directory -/

/-- `DENTS_BUF_SIZE`. -/
def dentsBufSize : ℕ := 64 * 1024

/-- A successful call of `getdents64`: the buffer after it, and how many bytes it has written. -/
structure GetdentsAnswer where
  memory : ℕ → UInt8
  written : ℕ

/-- The closure of `enumerate_dir_unix`. -/
def pushEntry (entries : List LinuxDirEntryOwned) (dType : UInt8) (name : OsString) :
    List LinuxDirEntryOwned :=
  if isDot name then entries else entries ++ [⟨dType, name, none⟩]

/-- The loop of `enumerate_dir_unix` over the answers of `getdents64` that come before the end of
the directory or an error. -/
def enumerateDirUnix (endian : Endian) (fuel : ℕ) :
    List GetdentsAnswer → List LinuxDirEntryOwned → Option (List LinuxDirEntryOwned)
  | [], entries => some entries
  | answer :: rest, entries =>
    (value answer.memory (parseDirents endian answer.written pushEntry fuel 0 entries)).bind
      (enumerateDirUnix endian fuel rest)

/-- An answer of `getdents64` that consists of whole records. -/
structure GetdentsAnswer.Writes (endian : Endian) (answer : GetdentsAnswer)
    (records : List LinuxDirent) : Prop where
  holds : Holds answer.memory 0 (records.flatMap fun r => r.toBytes endian)
  written_eq : answer.written = (records.flatMap fun r => r.toBytes endian).length
  written_le : answer.written ≤ dentsBufSize

/-- The type byte and the name of a record. -/
def LinuxDirent.entry (r : LinuxDirent) : UInt8 × OsString := (r.dType, r.name)

theorem foldl_pushEntry (records : List LinuxDirent) (entries : List LinuxDirEntryOwned) :
    records.foldl (fun entries r => pushEntry entries r.dType r.name) entries =
      entries ++ ((records.map LinuxDirent.entry).filter fun record => !isDot record.2).map
        fun record => ⟨record.1, record.2, none⟩ := by
  induction records generalizing entries with
  | nil => simp
  | cons r rest ih =>
    rw [List.foldl_cons, ih, pushEntry, List.map_cons, List.filter_cons, LinuxDirent.entry]
    cases hdot : isDot r.name with
    | true => simp
    | false => simp

/-- The closure is called on the records of an answer of whole records, one after the other. -/
theorem GetdentsAnswer.Writes.value_parseDirents {S : Type} {endian : Endian}
    {answer : GetdentsAnswer} {records : List LinuxDirent} (h : answer.Writes endian records)
    (onEntry : S → UInt8 → OsString → S) (s : S) :
    value answer.memory
        (parseDirents endian answer.written onEntry (dentsBufSize + 1) 0 s) =
      some (records.foldl (fun s r => onEntry s r.dType r.name) s) := by
  have hwritten := h.written_le
  have hmax : answer.written ≤ isizeMax := hwritten.trans (by decide)
  rw [JwalkMeta.value_parseDirents h.holds hmax (Nat.zero_le _)
    (by rw [Nat.zero_add, h.written_eq]) (by omega),
    completeRecords_of_le endian (by rw [Nat.zero_add, h.written_eq])]

/-- **The enumeration of a directory reads the records of the kernel.** If the calls of
`getdents64` write the records of a directory, in one or more answers of at most 64 KB, then the
loop over these answers yields the entries that a directory read starts from. -/
theorem enumerateDirUnix_eq_linuxRecords (endian : Endian) (os : LinuxCalls) (path : Path)
    (attempt : ℕ) {answers : List GetdentsAnswer} {batches : List (List LinuxDirent)}
    (hanswers : List.Forall₂ (GetdentsAnswer.Writes endian) answers batches)
    (hrecords : (os.enumerate path attempt).records = batches.flatten.map LinuxDirent.entry) :
    enumerateDirUnix endian (dentsBufSize + 1) answers [] =
      some (linuxRecords os path attempt).records := by
  have hloop (entries : List LinuxDirEntryOwned) :
      enumerateDirUnix endian (dentsBufSize + 1) answers entries =
        some (batches.flatten.foldl
          (fun entries r => pushEntry entries r.dType r.name) entries) := by
    clear hrecords
    induction hanswers generalizing entries with
    | nil => rfl
    | cons hanswer _ ih =>
      rw [enumerateDirUnix, hanswer.value_parseDirents, Option.bind_some, ih, List.flatten_cons,
        List.foldl_append]
  rw [hloop, foldl_pushEntry, List.nil_append, ← hrecords, linuxRecords]

end JwalkMeta
