import Packed.Array.Basic
import Packed.Known

namespace Packed

def byteField (b : Buffer) (offset : Nat) : Field .unsigned :=
  ⟨8, Kind.unsigned_admits_byte, fun _ => true, .block ⟨.byte, b.part offset 1⟩⟩

def Field.known? (f : Field .unsigned) (m : Memory) : Option Int :=
  if f.ok m then some (f.uncheckedRead m) else none

def Buffer.holds (b : Buffer) (size : Option Int) : Bool :=
  b.ok && size.any fun n : Int => n ≤ b.size

def sizeType : IntType := ⟨false, 64⟩

def wordType : ScalarType Buffer where
  kind := .unsigned
  width := 16
  admits := Kind.unsigned_admits_pair
  check _ := true
  bits b := .block ⟨.bigPair, b⟩

/-- A byte of count and as many words of two bytes, big endian. The size is unknown where the count
cannot be read. -/
structure WordList where
  buffer : Buffer
  deriving DecidableEq, Repr

namespace WordList

variable (l : WordList)

def count : Field .unsigned := byteField l.buffer 0

def wordsSize (m : Memory) : Option Int :=
  Known.arithmetic .product sizeType sizeType (l.count.known? m) (some 2)

def words (m : Memory) : ArrayView Buffer :=
  ⟨.scalar wordType, 2, Nat.two_pos,
    match l.wordsSize m with
    | some n => l.buffer.part 1 n.toNat
    | none => .null .any⟩

def size (m : Memory) : Option Int :=
  Known.arithmetic .sum sizeType sizeType (some 1) (l.wordsSize m)

def isComplete (m : Memory) : Bool := l.buffer.holds (l.size m)

def ok (m : Memory) : Bool := l.isComplete m && l.count.ok m && (l.words m).ok m

def members (m : Memory) : List Member :=
  [⟨"count", some true, l.count.view⟩, ⟨"values", some (l.count.ok m), (l.words m).view⟩]

def view : View := .ofMembers l.isComplete l.ok l.members

end WordList

end Packed
