import Packed.IntType
import Packed.Text.Options
import Packed.Text.Stream

namespace Packed

/-- The number of an integer literal, which tells zero from minus zero. -/
structure Numeral where
  negative : Bool
  magnitude : Nat
  deriving DecidableEq, Repr

namespace Numeral

def ofInt (n : Int) : Numeral := ⟨n < 0, n.natAbs⟩

def toNat? (n : Numeral) : Option Nat :=
  if n.negative ∧ n.magnitude ≠ 0 then none else some n.magnitude

def toInt? (n : Numeral) : Option Int :=
  let value : Int := if n.negative then -n.magnitude else n.magnitude
  if (IntType.mk true 64).contains value then some value else none

def digitValue (c : Char) : Option Nat :=
  if '0' ≤ c ∧ c ≤ '9' then some (c.toNat - '0'.toNat)
  else if 'a' ≤ c ∧ c ≤ 'f' then some (c.toNat - 'a'.toNat + 10)
  else if 'A' ≤ c ∧ c ≤ 'F' then some (c.toNat - 'A'.toNat + 10)
  else none

def digit? (radix : Nat) (c : Char) : Option Nat := (digitValue c).filter (· < radix)

def magnitudeFrom (radix : Nat) : Option Nat → List Char → Option Nat
  | sofar, [] => sofar
  | sofar, c :: cs =>
      if c = '_' then magnitudeFrom radix sofar cs
      else
        match digit? radix c with
        | none => none
        | some d =>
            let n := sofar.getD 0 * radix + d
            if n < sizeLimit then magnitudeFrom radix (some n) cs else none

def splitSign : List Char → Bool × List Char
  | '-' :: cs => (true, cs)
  | cs => (false, cs)

def splitBase : List Char → Base × List Char
  | '0' :: 'x' :: cs => (.hexadecimal, cs)
  | '0' :: 'X' :: cs => (.hexadecimal, cs)
  | '0' :: 'b' :: cs => (.binary, cs)
  | '0' :: 'B' :: cs => (.binary, cs)
  | cs => (.decimal, cs)

def parseChars? (cs : List Char) : Option Numeral :=
  let (negative, body) := splitSign cs
  let (base, digits) := splitBase body
  (magnitudeFrom base.radix none digits).map fun n => ⟨negative, n⟩

def parse? (text : String) : Option Numeral := parseChars? text.toList

/-- Puts an underscore after every `size` digits. The digits come least significant first, `k` of
them already written. -/
def separate (size : Nat) : Nat → List Char → List Char
  | _, [] => []
  | k, d :: ds =>
      if 0 < k ∧ k % size = 0 then '_' :: d :: separate size (k + 1) ds
      else d :: separate size (k + 1) ds

def digitChars (base : Base) (grouping : Bool) (n : Nat) : List Char :=
  let ds := Nat.toDigits base.radix n
  if grouping then (separate base.groupSize 0 ds.reverse).reverse else ds

def renderChars (n : Numeral) (base : Base) (grouping : Bool) : List Char :=
  (if n.negative then ['-'] else []) ++ base.marker ++ digitChars base grouping n.magnitude

def render (n : Numeral) (base : Base) (grouping : Bool) : String :=
  String.ofList (n.renderChars base grouping)

end Numeral

namespace TextOptions

def plainNumber (o : TextOptions) (n : Int) : String := (Numeral.ofInt n).render o.base o.grouping

def number (o : TextOptions) (n : Int) : String :=
  if o.showsComments then
    o.plainNumber n ++ "  # " ++ (Numeral.ofInt n).render o.base.alternate o.grouping
  else o.plainNumber n

end TextOptions

namespace Parser

def numeral {α : Type} (accept : Numeral → Option α) : Parser α := do
  let found ← token
  match (Numeral.parse? found.text).bind accept with
  | some n => pure n
  | none => throw (.invalidNumber found.position)

def unsigned : Parser Nat := numeral Numeral.toNat?

def signed : Parser Int := numeral Numeral.toInt?

def flag : Parser Bool := do
  let found ← token
  if found.text = "true" then pure true
  else if found.text = "false" then pure false
  else throw (.unknownName found.position)

end Parser

end Packed
