import JwalkMeta.Lib.Interaction
import Mathlib.Data.List.Basic
import Mathlib.Data.Nat.Digits.Defs

/-!
# Programs that read raw memory

A parser of raw records computes, from the bytes it has read, the offsets of the bytes it reads
next. It is a program whose requests are offsets and whose answers are bytes: `value` gives what it
finds in a given memory and `asked` the offsets it touches.

Records are written with the layout that `repr(C)` gives to a structure and with the byte order of
the machine. A memory holds a list of bytes at an offset if its window there is that list; windows
split where lists are appended, so what a memory holds can be taken apart field by field.

## Main definitions

* `CType`, `ReprC.offsets`, `ReprC.size`: where `repr(C)` puts the fields of a structure.
* `Endian.toNat`, `Endian.toBytes`, `Endian.units`, `Endian.unitBytes`: integers and 16-bit units
  as bytes.
* `window`, `Holds`: the bytes of a memory at an offset.
* `readBytes`, `readNat`, `readUnits`, `strlen`: the programs that parsers are made of.

## Main results

* `Endian.toNat_toBytes`, `Endian.units_unitBytes`: what is written is read back.
* `holds_append`: a memory that holds two lists one after the other.
* `value_strlen`, `asked_strlen`: the length of a string that ends with a zero byte, and the bytes
  that are read to find it.
-/

/-! ### Layout of structures -/

/-- The size and the alignment of a type. -/
structure CType where
  size : ℕ
  align : ℕ
  deriving DecidableEq, Repr

namespace CType

def u8 : CType := ⟨1, 1⟩

def u16 : CType := ⟨2, 2⟩

def u32 : CType := ⟨4, 4⟩

def u64 : CType := ⟨8, 8⟩

/-- An array of `n` elements. -/
def array (t : CType) (n : ℕ) : CType := ⟨t.size * n, t.align⟩

end CType

namespace ReprC

/-- The least multiple of `align` that is at least `n`. -/
def roundUp (n align : ℕ) : ℕ := (n + (align - 1)) / align * align

/-- The offsets of fields that are put one after the other, each at a multiple of its alignment. -/
def offsets : ℕ → List CType → List ℕ
  | _, [] => []
  | start, field :: rest =>
    roundUp start field.align :: offsets (roundUp start field.align + field.size) rest

/-- The end of the last field. -/
def extent : ℕ → List CType → ℕ
  | start, [] => start
  | start, field :: rest => extent (roundUp start field.align + field.size) rest

/-- The size of a structure: the end of its last field, padded to the greatest alignment. -/
def size (fields : List CType) : ℕ :=
  roundUp (extent 0 fields) (fields.foldl (fun align field => max align field.align) 1)

/-- The offset of one field. -/
def fieldOffset (fields : List CType) (i : ℕ) : ℕ := (offsets 0 fields).getD i 0

end ReprC

/-! ### Integers as bytes -/

/-- The order of the bytes of an integer. -/
inductive Endian
  | little
  | big
  deriving DecidableEq, Repr

/-- The number with the given bytes, the least significant first. -/
def natOfLittle (bytes : List UInt8) : ℕ := Nat.ofDigits 256 (bytes.map UInt8.toNat)

/-- The bytes of a number in a given width, the least significant first. -/
def littleBytes : ℕ → ℕ → List UInt8
  | 0, _ => []
  | width + 1, n => UInt8.ofNat n :: littleBytes width (n / 256)

@[simp] theorem length_littleBytes (width n : ℕ) : (littleBytes width n).length = width := by
  induction width generalizing n with
  | zero => rfl
  | succ width ih => rw [littleBytes, List.length_cons, ih]

theorem natOfLittle_littleBytes (width n : ℕ) :
    natOfLittle (littleBytes width n) = n % 256 ^ width := by
  induction width generalizing n with
  | zero => simp [littleBytes, natOfLittle, Nat.mod_one]
  | succ width ih =>
    have htail : Nat.ofDigits 256 ((littleBytes width (n / 256)).map UInt8.toNat) =
        n / 256 % 256 ^ width := ih (n / 256)
    have hhead : (UInt8.ofNat n).toNat = n % 256 := UInt8.toNat_ofNat'
    rw [natOfLittle, littleBytes, List.map_cons, Nat.ofDigits_cons, htail, hhead, pow_succ',
      Nat.mod_mul]

theorem littleBytes_natOfLittle (bytes : List UInt8) :
    littleBytes bytes.length (natOfLittle bytes) = bytes := by
  induction bytes with
  | nil => rfl
  | cons byte bytes ih =>
    have hbyte : byte.toNat < 256 := byte.toNat_lt
    have hcons : natOfLittle (byte :: bytes) = byte.toNat + 256 * natOfLittle bytes :=
      Nat.ofDigits_cons
    have hhead : UInt8.ofNat (byte.toNat + 256 * natOfLittle bytes) = byte := by
      refine UInt8.toNat_inj.mp ?_
      rw [UInt8.toNat_ofNat']
      omega
    have htail : (byte.toNat + 256 * natOfLittle bytes) / 256 = natOfLittle bytes := by omega
    rw [List.length_cons, hcons, littleBytes, hhead, htail, ih]

namespace Endian

variable (endian : Endian)

/-- The bytes of an integer, put in the order of the machine or back. -/
def order : Endian → List UInt8 → List UInt8
  | little, bytes => bytes
  | big, bytes => bytes.reverse

/-- The number that bytes stand for. -/
def toNat (bytes : List UInt8) : ℕ := natOfLittle (endian.order bytes)

/-- The bytes of a number in a given width (`to_ne_bytes`). -/
def toBytes (width n : ℕ) : List UInt8 := endian.order (littleBytes width n)

@[simp] theorem order_order (bytes : List UInt8) : endian.order (endian.order bytes) = bytes := by
  cases endian with
  | little => rfl
  | big => exact List.reverse_reverse bytes

@[simp] theorem length_order (bytes : List UInt8) :
    (endian.order bytes).length = bytes.length := by
  cases endian with
  | little => rfl
  | big => exact List.length_reverse

@[simp] theorem length_toBytes (width n : ℕ) : (endian.toBytes width n).length = width := by
  rw [toBytes, length_order, length_littleBytes]

theorem toNat_toBytes {width n : ℕ} (h : n < 256 ^ width) :
    endian.toNat (endian.toBytes width n) = n := by
  rw [toNat, toBytes, order_order, natOfLittle_littleBytes, Nat.mod_eq_of_lt h]

theorem toBytes_toNat (bytes : List UInt8) :
    endian.toBytes bytes.length (endian.toNat bytes) = bytes := by
  rw [toBytes, toNat, ← length_order endian bytes, littleBytes_natOfLittle, order_order]

theorem toNat_lt (bytes : List UInt8) : endian.toNat bytes < 256 ^ bytes.length := by
  have hdigits : ∀ digit ∈ (endian.order bytes).map UInt8.toNat, digit < 256 := by
    intro digit hdigit
    obtain ⟨byte, -, rfl⟩ := List.mem_map.mp hdigit
    exact byte.toNat_lt
  have hlt := Nat.ofDigits_lt_base_pow_length (by decide : 1 < 256) hdigits
  rwa [List.length_map, length_order] at hlt

/-! ### Sequences of 16-bit units -/

/-- The 16-bit units that bytes stand for, two by two. -/
def units : List UInt8 → List UInt16
  | first :: second :: rest => UInt16.ofNat (endian.toNat [first, second]) :: units rest
  | _ => []

/-- The bytes of 16-bit units. -/
def unitBytes (name : List UInt16) : List UInt8 := name.flatMap fun u => endian.toBytes 2 u.toNat

@[simp] theorem unitBytes_cons (u : UInt16) (name : List UInt16) :
    endian.unitBytes (u :: name) = endian.toBytes 2 u.toNat ++ endian.unitBytes name := rfl

@[simp] theorem length_unitBytes (name : List UInt16) :
    (endian.unitBytes name).length = 2 * name.length := by
  induction name with
  | nil => rfl
  | cons u name ih =>
    rw [unitBytes_cons, List.length_append, length_toBytes, ih, List.length_cons]
    omega

theorem toNat_toBytes_unit (u : UInt16) : endian.toNat (endian.toBytes 2 u.toNat) = u.toNat :=
  endian.toNat_toBytes u.toNat_lt

theorem units_toBytes_append (u : UInt16) (bytes : List UInt8) :
    endian.units (endian.toBytes 2 u.toNat ++ bytes) = u :: endian.units bytes := by
  obtain ⟨first, second, hbytes⟩ := List.length_eq_two.mp (endian.length_toBytes 2 u.toNat)
  have hu := endian.toNat_toBytes_unit u
  rw [hbytes] at hu ⊢
  simp [units, hu]

theorem units_unitBytes (name : List UInt16) : endian.units (endian.unitBytes name) = name := by
  induction name with
  | nil => rfl
  | cons u name ih => rw [unitBytes_cons, units_toBytes_append, ih]

/-- An even number of bytes is the bytes of its units. -/
theorem unitBytes_units {n : ℕ} {bytes : List UInt8} (h : bytes.length = 2 * n) :
    endian.unitBytes (endian.units bytes) = bytes ∧ (endian.units bytes).length = n := by
  induction n generalizing bytes with
  | zero =>
    obtain rfl := List.length_eq_zero_iff.mp h
    exact ⟨rfl, rfl⟩
  | succ n ih =>
    obtain _ | ⟨first, _ | ⟨second, rest⟩⟩ := bytes
    · simp at h
    · simp only [List.length_cons, List.length_nil] at h
      omega
    · simp only [List.length_cons] at h
      obtain ⟨hrest, hlength⟩ := ih (by omega : rest.length = 2 * n)
      have hlt : endian.toNat [first, second] < 2 ^ 16 := by
        simpa using endian.toNat_lt [first, second]
      have hunit : (UInt16.ofNat (endian.toNat [first, second])).toNat =
          endian.toNat [first, second] := by
        rw [UInt16.toNat_ofNat', Nat.mod_eq_of_lt hlt]
      have hpair := endian.toBytes_toNat [first, second]
      rw [units, unitBytes_cons, hunit, hrest, List.length_cons, hlength]
      exact ⟨congrArg (· ++ rest) hpair, rfl⟩

end Endian

/-! ### Windows of a memory -/

section Windows

variable (ρ : ℕ → UInt8)

/-- The bytes of a memory from an offset on. -/
def window (offset length : ℕ) : List UInt8 := (List.range' offset length).map ρ

@[simp] theorem length_window (offset length : ℕ) : (window ρ offset length).length = length := by
  simp [window]

@[simp] theorem window_succ (offset length : ℕ) :
    window ρ offset (length + 1) = ρ offset :: window ρ (offset + 1) length := rfl

theorem window_add (offset m n : ℕ) :
    window ρ offset (m + n) = window ρ offset m ++ window ρ (offset + m) n := by
  rw [window, ← List.range'_append_1, List.map_append, window, window]

/-- A part of a window is a window. -/
theorem take_drop_window {offset length skip n : ℕ} (h : skip + n ≤ length) :
    ((window ρ offset length).drop skip).take n = window ρ (offset + skip) n := by
  obtain ⟨rest, rfl⟩ := Nat.exists_eq_add_of_le h
  rw [window_add, window_add, List.append_assoc, List.drop_left' (length_window ρ offset skip),
    List.take_left' (length_window ρ (offset + skip) n)]

/-- The memory holds the given bytes at an offset. -/
def Holds (offset : ℕ) (bytes : List UInt8) : Prop := window ρ offset bytes.length = bytes

instance (offset : ℕ) (bytes : List UInt8) : Decidable (Holds ρ offset bytes) :=
  inferInstanceAs (Decidable (window ρ offset bytes.length = bytes))

variable {ρ}

@[simp] theorem holds_cons {offset : ℕ} {byte : UInt8} {bytes : List UInt8} :
    Holds ρ offset (byte :: bytes) ↔ ρ offset = byte ∧ Holds ρ (offset + 1) bytes := by
  rw [Holds, List.length_cons, window_succ, List.cons.injEq, Holds]

theorem holds_append {offset : ℕ} {bytes bytes' : List UInt8} :
    Holds ρ offset (bytes ++ bytes') ↔
      Holds ρ offset bytes ∧ Holds ρ (offset + bytes.length) bytes' := by
  rw [Holds, List.length_append, window_add, Holds, Holds]
  constructor
  · exact fun h => List.append_inj h (length_window ρ offset bytes.length)
  · exact fun ⟨hfirst, hsecond⟩ => congrArg₂ (· ++ ·) hfirst hsecond

/-- The bytes that a memory holds, at one place of the list. -/
theorem Holds.window_eq {offset skip n : ℕ} {bytes : List UInt8} (h : Holds ρ offset bytes)
    (hn : skip + n ≤ bytes.length) : window ρ (offset + skip) n = (bytes.drop skip).take n := by
  rw [← take_drop_window ρ hn, h]

/-- A list as a memory, with one byte all over the space behind it. -/
theorem holds_getD (bytes : List UInt8) (behind : UInt8) :
    Holds (fun i => bytes.getD i behind) 0 bytes := by
  refine List.ext_getElem (length_window _ 0 bytes.length) fun i hi hi' => ?_
  simp [window, hi']

end Windows

/-! ### Programs that read -/

/-- Programs that read the bytes of a memory by their offsets. -/
abbrev Reader : Type → Type := Interaction ℕ UInt8

open Interaction

/-- Read a number of bytes. -/
def readBytes : ℕ → ℕ → Reader (List UInt8)
  | _, 0 => done []
  | offset, n + 1 => do
    let byte ← request offset
    let rest ← readBytes (offset + 1) n
    done (byte :: rest)

/-- Read an integer. -/
def readNat (endian : Endian) (offset width : ℕ) : Reader ℕ := do
  let bytes ← readBytes offset width
  done (endian.toNat bytes)

/-- Read 16-bit units. -/
def readUnits (endian : Endian) (offset n : ℕ) : Reader (List UInt16) := do
  let bytes ← readBytes offset (2 * n)
  done (endian.units bytes)

/-- `strlen`: the number of bytes before the first zero byte. `none` if there is none among the
first `fuel` bytes. -/
def strlen : ℕ → ℕ → Reader (Option ℕ)
  | 0, _ => done none
  | fuel + 1, offset => do
    let byte ← request offset
    if byte = 0 then done (some 0)
    else do
      let rest ← strlen fuel (offset + 1)
      done (rest.map (· + 1))

section Reading

variable (ρ : ℕ → UInt8)

@[simp] theorem value_readBytes (offset n : ℕ) :
    value ρ (readBytes offset n) = window ρ offset n := by
  induction n generalizing offset with
  | zero => rfl
  | succ n ih => simp [readBytes, ih]

@[simp] theorem asked_readBytes (offset n : ℕ) :
    asked ρ (readBytes offset n) = List.range' offset n := by
  induction n generalizing offset with
  | zero => rfl
  | succ n ih => simp [readBytes, ih, List.range'_succ]

@[simp] theorem value_readNat (endian : Endian) (offset width : ℕ) :
    value ρ (readNat endian offset width) = endian.toNat (window ρ offset width) := by
  simp [readNat]

@[simp] theorem asked_readNat (endian : Endian) (offset width : ℕ) :
    asked ρ (readNat endian offset width) = List.range' offset width := by
  simp [readNat]

@[simp] theorem value_readUnits (endian : Endian) (offset n : ℕ) :
    value ρ (readUnits endian offset n) = endian.units (window ρ offset (2 * n)) := by
  simp [readUnits]

@[simp] theorem asked_readUnits (endian : Endian) (offset n : ℕ) :
    asked ρ (readUnits endian offset n) = List.range' offset (2 * n) := by
  simp [readUnits]

variable {ρ}

/-- The length of a string without zero bytes that a zero byte follows is found in as many turns as
it has bytes and one more. -/
theorem value_strlen {offset : ℕ} {name : List UInt8} (hnul : 0 ∉ name)
    (h : Holds ρ offset (name ++ [0])) (fuel : ℕ) :
    value ρ (strlen fuel offset) = if name.length < fuel then some name.length else none := by
  induction name generalizing fuel offset with
  | nil =>
    obtain ⟨hbyte, -⟩ := holds_cons.mp h
    cases fuel with
    | zero => rfl
    | succ fuel => simp [strlen, hbyte]
  | cons byte name ih =>
    obtain ⟨hbyte, hrest⟩ := holds_cons.mp h
    obtain ⟨hne, hnul'⟩ := List.ne_and_not_mem_of_not_mem_cons hnul
    cases fuel with
    | zero => rfl
    | succ fuel =>
      have hlength := ih hnul' hrest fuel
      by_cases hfuel : name.length < fuel <;> simp [strlen, hbyte, Ne.symm hne, hlength, hfuel]

/-- To find the end of a string, only the string and its zero byte are read. -/
theorem asked_strlen {fuel offset q : ℕ} {name : List UInt8} (h : Holds ρ offset (name ++ [0]))
    (hq : q ∈ asked ρ (strlen fuel offset)) : q ≤ offset + name.length := by
  induction name generalizing fuel offset with
  | nil =>
    cases fuel with
    | zero => simp [strlen] at hq
    | succ fuel =>
      obtain ⟨hbyte, -⟩ := holds_cons.mp h
      simp [strlen, hbyte] at hq
      omega
  | cons byte name ih =>
    cases fuel with
    | zero => simp [strlen] at hq
    | succ fuel =>
      obtain ⟨hbyte, hrest⟩ := holds_cons.mp h
      rw [List.length_cons]
      by_cases hzero : ρ offset = 0
      · simp [strlen, hzero] at hq
        omega
      · simp only [strlen, request_bind, asked_ask, hzero, if_false, asked_bind, asked_done,
          List.append_nil, List.mem_cons] at hq
        rcases hq with rfl | hq
        · omega
        · have hrec := ih hrest hq
          omega

end Reading
