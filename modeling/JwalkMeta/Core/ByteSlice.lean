import JwalkMeta.Core.ReadDir
import JwalkMeta.Lib.RawMemory

/-!
# Slices of bytes

The parsers of raw records compute offsets as `usize` values, whose addition wraps around. A slice
never has more than `isize::MAX` bytes, and this leaves enough room above its end for the offsets
and lengths that a record can name. Bytes may stand at any address, 16-bit units only at even ones.

## Main definitions

* `usizeAdd`: the addition of `usize`.
* `ByteSlice`: a slice `&[u8]`, and the memory that it is stored in.
* `sliceFromRawParts`: a slice of 16-bit units at an offset from an address.

## Main results

* `usizeAdd_eq`: an addition below the greatest value does not wrap around.
* `value_sliceFromRawParts`: the units, if their address is even.
-/

namespace JwalkMeta

/-- Addition of `usize` values. -/
def usizeAdd (a b : ℕ) : ℕ := (a + b) % (usizeMax + 1)

/-- `isize::MAX`. -/
def isizeMax : ℕ := 2 ^ 63 - 1

theorem usizeAdd_eq {a b : ℕ} (h : a + b ≤ usizeMax) : usizeAdd a b = a + b :=
  Nat.mod_eq_of_lt (Nat.lt_succ_of_le h)

/-- A slice `&[u8]`. -/
structure ByteSlice where
  bytes : List UInt8
  length_le : bytes.length ≤ isizeMax

namespace ByteSlice

/-- `len`. -/
def len (buf : ByteSlice) : ℕ := buf.bytes.length

theorem len_le (buf : ByteSlice) : buf.len ≤ isizeMax := buf.length_le

/-- The memory from the pointer of the slice on, with anything behind the slice. -/
def StoredIn (buf : ByteSlice) (ρ : ℕ → UInt8) : Prop := Holds ρ 0 buf.bytes

end ByteSlice

open Interaction

/-- `slice::from_raw_parts` on a `*const u16` that stands at an offset from an address. `none` if
the pointer is not aligned: a debug build aborts, and what any other build does is undefined. -/
def sliceFromRawParts (endian : Endian) (addr offset n : ℕ) : Reader (Option (List UInt16)) :=
  if CType.u16.align ∣ addr + offset then do
    let units ← readUnits endian offset n
    done (some units)
  else done none

section

variable (ρ : ℕ → UInt8) (endian : Endian) (addr offset n : ℕ)

theorem value_sliceFromRawParts :
    value ρ (sliceFromRawParts endian addr offset n) =
      if CType.u16.align ∣ addr + offset then
        some (endian.units (window ρ offset (2 * n)))
      else none := by
  rw [sliceFromRawParts]
  split
  · rw [value_bind, value_readUnits, value_done]
  · rw [value_done]

/-- Only the units are read. -/
theorem mem_asked_sliceFromRawParts {q : ℕ}
    (hq : q ∈ asked ρ (sliceFromRawParts endian addr offset n)) : q < offset + 2 * n := by
  rw [sliceFromRawParts] at hq
  split at hq
  · rw [asked_bind, asked_readUnits, asked_done, List.append_nil, List.mem_range'_1] at hq
    exact hq.2
  · simp at hq

end

end JwalkMeta
