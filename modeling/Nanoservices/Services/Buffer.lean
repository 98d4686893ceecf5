import Nanoservices.Db.HashTable
import Nanoservices.Library.Utf16

/-!
# Buffers and strings in the services

The services keep strings in the store as the bytes of their UTF-16 code units, on a
little-endian machine. `DBGet` puts the 4-byte token in front, which `ab2str` drops
and `abversion` reads. A function returns `none` where the JavaScript throws.
-/

namespace Nanoservices

open Utf16

/-- The most code units a string can have (`v8::String::kMaxLength` on a 64-bit
machine). -/
def kMaxLength : ℕ := 536870888

/-- `str2ab`: the code units as a `Uint16Array` lays them out, the low byte first. -/
def str2ab (s : Str) : List UInt8 :=
  s.flatMap fun c => [UInt8.ofNat c.toNat, UInt8.ofNat (c.toNat / 256)]

/-- `new Uint16Array(buf)`, which throws on an odd number of bytes. The elements are the
pairs of bytes, the low one first. -/
def uint16Array : List UInt8 → Option Str
  | [] => some []
  | [_] => none
  | lo :: hi :: rest =>
    (uint16Array rest).map fun s => UInt16.ofNat (lo.toNat + 256 * hi.toNat) :: s

/-- `ab2str`: the text behind the token. It drops two code units, which is the token's 4
bytes. -/
def ab2str (buf : List UInt8) : Option Str := (uint16Array buf).map (List.drop 2)

/-- `abversion`: `getUint32(0, true)`, which throws on a buffer of less than 4 bytes. -/
def abversion (buf : List UInt8) : Option UInt32 :=
  if 4 ≤ buf.length then some (readInt buf) else none

/-- Two bytes a code unit. -/
@[simp] theorem length_str2ab (s : Str) : (str2ab s).length = 2 * s.length := by
  induction s with
  | nil => rfl
  | cons c s ih =>
    rw [str2ab, List.flatMap_cons, List.length_append, List.length_cons, ← str2ab, ih]
    simp
    omega

/-- The code units are read back. By induction on the string. -/
@[simp] theorem uint16Array_str2ab (s : Str) : uint16Array (str2ab s) = some s := by
  induction s with
  | nil => rfl
  | cons c s ih =>
    have hc : c.toNat < 65536 := c.toNat_lt
    have hunit : UInt16.ofNat ((UInt8.ofNat c.toNat).toNat +
        256 * (UInt8.ofNat (c.toNat / 256)).toNat) = c := by
      apply UInt16.toNat.inj
      simp only [UInt16.toNat_ofNat', UInt8.toNat_ofNat']
      omega
    rw [str2ab, List.flatMap_cons, ← str2ab]
    simp only [List.cons_append, List.nil_append, uint16Array, ih, Option.map_some, hunit]

/-- The string a service stored is the string it reads, behind any token. -/
@[simp] theorem ab2str_writeInt_append (token : UInt32) (s : Str) :
    ab2str (writeInt token ++ str2ab s) = some s := by
  rw [ab2str, writeInt]
  simp [uint16Array]

/-- The version a service reads is the token in front. -/
@[simp] theorem abversion_writeInt_append (token : UInt32) (content : List UInt8) :
    abversion (writeInt token ++ content) = some token := by
  rw [abversion, if_pos (by simp), readInt_writeInt]

end Nanoservices
