/-!
Bytes, words and sizes. A word is a bit vector of 64 bits; a size, an index or an offset is a
natural number below `sizeLimit`.
-/

namespace Packed

abbrev Byte := BitVec 8

abbrev Word := BitVec 64

/-- Sizes, indices and offsets lie below this number. -/
def sizeLimit : Nat := Nat.pow 2 64

theorem sizeLimit_eq : sizeLimit = 18446744073709551616 := by decide

/-- The largest size where a size would go past the limit. -/
def saturate (n : Nat) : Nat := min n (sizeLimit - 1)

def isPowerOfTwo (n : Nat) : Bool := n != 0 && n &&& (n - 1) == 0

namespace Word

def lowMask (n : Nat) : Word := if 64 ≤ n then BitVec.allOnes 64 else (1 <<< n) - 1

def mask (w : Word) (n : Nat) : Word := w &&& lowMask n

def byte (w : Word) (i : Nat) : Byte := (w >>> (8 * i)).setWidth 8

def digits : Nat → Word → List Byte
  | 0, _ => []
  | n + 1, w => w.setWidth 8 :: digits n (w >>> 8)

/-- The number written by bytes, least significant first; what does not fit in a word is lost. -/
def ofDigits : List Byte → Word
  | [] => 0
  | b :: bs => b.setWidth 64 ||| ofDigits bs <<< 8

def byteSwap (n : Nat) (w : Word) : Word := ofDigits (digits n w).reverse

end Word

end Packed
