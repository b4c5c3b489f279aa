import Packed.Word

namespace Packed.Bcd

def nibble (raw : Word) (i : Nat) : Word := raw >>> (4 * i) &&& 0xf

def groups (bits : Nat) : Nat := min ((bits + 3) / 4) 16

/-- Whether every group that the field touches holds a decimal digit. The highest group is looked
at whole, also where the field covers a part of it. -/
def isBcd (raw : Word) (bits : Nat) : Bool :=
  (List.range (groups bits)).all fun i => nibble raw i ≤ 9

def decodeGroups (raw : Word) : Nat → Word
  | 0 => 0
  | n + 1 => nibble raw 0 + 10 * decodeGroups (raw >>> 4) n

def decode (raw : Word) (bits : Nat) : Word := decodeGroups raw (groups bits)

/-- The lowest `n` decimal digits of a number, one to a group. -/
def pack : Nat → Nat → Word
  | 0, _ => 0
  | n + 1, v => BitVec.ofNat 64 (v % 10) ||| pack n (v / 10) <<< 4

def encodeLow (v bits : Nat) : Word := (pack 16 v).mask bits

def encode? (v bits : Nat) : Option Word :=
  if v < Nat.pow 10 16 ∧ pack 16 v ≤ Word.lowMask bits then some (pack 16 v) else none

end Packed.Bcd
