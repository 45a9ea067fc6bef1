import Squirrel.Util.Coding

/-!
# Hashing

`Hash`, which filters probe by and caches find their entries by. It is made of 32-bit additions and
multiplications.
-/

namespace Squirrel

open Coding

/-- The constant `m` of `Hash`. -/
def hashM : BitVec 32 := 0xc6a4a793#32

/-- The `i`-th remaining byte, shifted into place. -/
def hashByte (b : UInt8) (i : ℕ) : BitVec 32 := BitVec.ofNat 32 (b.toNat <<< (8 * i))

/-- The loop over four bytes at a time and the `switch` over what remains. -/
def hashLoop (h : BitVec 32) : Bytes → BitVec 32
  | a :: b :: c :: d :: data =>
    let h := (h + BitVec.ofNat 32 (decodeFixed32 [a, b, c, d])) * hashM
    hashLoop (h ^^^ (h >>> 16)) data
  | [a, b, c] =>
    let h := (h + hashByte c 2 + hashByte b 1 + hashByte a 0) * hashM
    h ^^^ (h >>> 24)
  | [a, b] =>
    let h := (h + hashByte b 1 + hashByte a 0) * hashM
    h ^^^ (h >>> 24)
  | [a] =>
    let h := (h + hashByte a 0) * hashM
    h ^^^ (h >>> 24)
  | [] => h

/-- `Hash`. -/
def hash (data : Bytes) (seed : BitVec 32) : BitVec 32 :=
  hashLoop (seed ^^^ (BitVec.ofNat 32 data.length * hashM)) data

end Squirrel
