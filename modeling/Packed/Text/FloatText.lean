import Packed.FloatFormat
import Packed.IntType
import Packed.Text.Numeral

namespace Packed

/-- A number rounded to some count of significant digits: the digits as one number, and the power
of ten that the first of them stands for. -/
structure Significant where
  digits : Nat
  exponent : Int
  deriving DecidableEq, Repr

namespace Significant

def scaled (num den : Nat) : Int → Nat
  | .ofNat k => roundHalfEven (num * Nat.pow 10 k) den
  | .negSucc k => roundHalfEven num (den * Nat.pow 10 (k + 1))

/-- The power of ten of the first digit of `num / den`. Shifted left by the length of `den` the
quotient has a whole part, and the length of that tells. -/
def leading (num den : Nat) : Int :=
  let shift := (Nat.toDigits 10 den).length
  (Nat.toDigits 10 (num * Nat.pow 10 shift / den)).length - 1 - shift

def ofRatio (count num den : Nat) : Significant :=
  if num = 0 then ⟨0, 0⟩
  else
    let e := leading num den
    let digits := scaled num den (count - 1 - e)
    if digits = Nat.pow 10 count then ⟨Nat.pow 10 (count - 1), e + 1⟩ else ⟨digits, e⟩

end Significant

/-- A mantissa of 64 bits and the power of two that its lowest bit stands for. Once sixteen digits
are there, a further digit only sets the lowest bit if it is not zero. -/
structure HexMantissa where
  mantissa : Nat
  exponent : Int
  deriving DecidableEq, Repr

namespace HexMantissa

/-- Takes in one digit, from before the point or from the fraction after it. -/
def push (fraction : Bool) (a : HexMantissa) (digit : Nat) : HexMantissa :=
  if a.mantissa < Nat.pow 2 60 then
    ⟨16 * a.mantissa + digit, if fraction then a.exponent - 4 else a.exponent⟩
  else
    ⟨a.mantissa ||| (if digit = 0 then 0 else 1),
      if fraction then a.exponent else a.exponent + 4⟩

def digits? (fraction : Bool) (a : HexMantissa) (cs : List Char) : Option HexMantissa :=
  cs.foldlM (fun a c => (Numeral.digit? 16 c).map (a.push fraction)) a

end HexMantissa

namespace FloatFormat

def fixed (num den places : Nat) : List Char × List Char :=
  let ds := Nat.toDigits 10 (roundHalfEven (num * Nat.pow 10 places) den)
  let ds := List.replicate (places + 1 - ds.length) '0' ++ ds
  ds.splitAt (ds.length - places)

def pointed (whole fraction : List Char) : List Char :=
  match (fraction.reverse.dropWhile (· == '0')).reverse with
  | [] => whole
  | kept => whole ++ '.' :: kept

def exponentChars (e : Int) : List Char :=
  let ds := Nat.toDigits 10 e.natAbs
  'e' :: (if e < 0 then '-' else '+') :: (if ds.length < 2 then '0' :: ds else ds)

variable (f : FloatFormat)

/-- The first digit, then a point, then the other digits and an exponent where the first digit lies
far from the point of the value; else the value with as many places as its digits need. -/
def finiteChars (m : Nat) : List Char :=
  let num := f.significand m * Nat.pow 2 (f.quantum m)
  let den := Nat.pow 2 f.scale
  let s := Significant.ofRatio f.decimalDigits num den
  if s.exponent < -4 ∨ f.decimalDigits ≤ s.exponent then
    let (first, others) := (Nat.toDigits 10 s.digits).splitAt 1
    pointed first others ++ exponentChars s.exponent
  else
    let (whole, fraction) := fixed num den (f.decimalDigits - 1 - s.exponent).toNat
    pointed whole fraction

def renderChars (raw : Word) : List Char :=
  let m := f.magnitude raw
  let body :=
    if m < f.infinity then f.finiteChars m
    else if m = f.infinity then ['I', 'n', 'f']
    else "NaN(0x".toList ++ Nat.toDigits 16 (m - f.infinity) ++ [')']
  if f.isNegative raw then '-' :: body else body

def render (raw : Word) : String := String.ofList (f.renderChars raw)

def wholeNumber? (radix : Nat) (cs : List Char) : Option Nat :=
  cs.foldlM (fun n c => (Numeral.digit? radix c).map (n * radix + ·)) 0

def splitSign : List Char → Bool × List Char
  | '-' :: cs => (true, cs)
  | '+' :: cs => (false, cs)
  | cs => (false, cs)

def shortExponent? (cs : List Char) : Option Int :=
  let (negative, ds) := splitSign cs
  if ds.isEmpty then none
  else
    (wholeNumber? 10 ds).bind fun n =>
      let e : Int := if negative then -n else n
      if (IntType.mk true 32).contains e then some e else none

def splitAt? (p : Char → Bool) (cs : List Char) : List Char × Option (List Char) :=
  match cs.dropWhile (!p ·) with
  | [] => (cs, none)
  | _ :: rest => (cs.takeWhile (!p ·), some rest)

def isDigit (c : Char) : Bool := '0' ≤ c && c ≤ '9'

/-- A decimal exponent with an optional sign. Past 65535 it is out of reach of every format, and
further digits are not counted. -/
def longExponent? (cs : List Char) : Option Int :=
  let (negative, ds) := splitSign cs
  if ds.isEmpty || !ds.all isDigit then none
  else
    let n := ds.foldl (fun n c => if n < 65536 then 10 * n + (c.toNat - '0'.toNat) else n) 0
    some (if negative then -n else n)

/-- Takes a literal apart into the digits before and after its point and its exponent, which is
zero where there is none. A literal has at least one digit. -/
def positional? (isMark : Char → Bool) (exponent? : List Char → Option Int) (cs : List Char) :
    Option (List Char × List Char × Int) := do
  let (digits, power) := splitAt? isMark cs
  let e ← power.elim (some 0) exponent?
  let (whole, fraction) := splitAt? (· == '.') digits
  let fraction := fraction.getD []
  if whole.isEmpty && fraction.isEmpty then none else some (whole, fraction, e)

def hexadecimal? (cs : List Char) : Option Nat := do
  let (whole, fraction, e) ← positional? (fun c => c == 'p' || c == 'P') shortExponent? cs
  let a ← HexMantissa.digits? false ⟨0, e⟩ whole
  let a ← HexMantissa.digits? true a fraction
  some (f.compose a.mantissa a.exponent)

def decimal? (cs : List Char) : Option Nat := do
  let (whole, fraction, e) ← positional? (fun c => c == 'e' || c == 'E') longExponent? cs
  let n ← wholeNumber? 10 (whole ++ fraction)
  some (f.roundScaled n 10 (e - fraction.length))

def spells (word : String) (cs : List Char) : Bool := cs.map Char.toLower == word.toList

def number? (cs : List Char) : Option (Bool × Nat) :=
  let (negative, body) := splitSign cs
  if spells "inf" body || spells "infinity" body then some (negative, f.infinity)
  else if spells "nan" body then
    some (negative, f.infinity + Nat.pow 2 (f.fractionBits - 1))
  else (f.decimal? body).map (negative, ·)

def payload? (cs : List Char) : Option Nat :=
  match cs with
  | [] => some (Nat.pow 2 (f.fractionBits - 1))
  | '(' :: inner =>
      if inner.getLast? = some ')' then
        (Numeral.parseChars? inner.dropLast).bind Numeral.toNat?
      else none
  | _ => none

def isDecimalChar (c : Char) : Bool :=
  isDigit c || c == '.' || c == 'e' || c == 'E' || c == '+' || c == '-'

/-- The magnitude of a body without a sign. A number made of the characters of decimal literals may
yet have a sign of its own. -/
def body? (cs : List Char) : Option (Bool × Nat) :=
  if spells "inf" cs || spells "infinity" cs then some (false, f.infinity)
  else
    match cs with
    | 'N' :: 'a' :: 'N' :: rest =>
        (f.payload? rest).bind fun n =>
          if n = 0 ∨ f.fractions ≤ n then none else some (false, f.infinity + n)
    | '0' :: 'x' :: rest => (f.hexadecimal? rest).map (false, ·)
    | '0' :: 'X' :: rest => (f.hexadecimal? rest).map (false, ·)
    | _ => if !cs.isEmpty && cs.all isDecimalChar then f.number? cs else none

def parseChars? (cs : List Char) : Option Word :=
  let (negative, body) := splitSign cs
  (f.body? body).map fun (inner, m) =>
    BitVec.ofNat 64 (if negative || inner then f.signBit + m else m)

def parse? (text : String) : Option Word := f.parseChars? text.toList

end FloatFormat

def Parser.float (f : FloatFormat) : Parser Word := do
  let found ← token
  match f.parse? found.text with
  | some raw => pure raw
  | none => throw (.invalidNumber found.position)

end Packed
