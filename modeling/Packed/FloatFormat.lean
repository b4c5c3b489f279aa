import Packed.Word

namespace Packed

/-- The binary interchange formats. The magnitude of a pattern is a whole number of quanta, and
rounding to a format is one division. -/
inductive FloatFormat where
  | single
  | double
  deriving DecidableEq, Repr

def roundHalfEven (num den : Nat) : Nat :=
  let q := num / den
  let r := num % den
  if den < 2 * r ∨ (2 * r = den ∧ q % 2 = 1) then q + 1 else q

namespace FloatFormat

def width : FloatFormat → Nat
  | single => 32
  | double => 64

def fractionBits : FloatFormat → Nat
  | single => 23
  | double => 52

def decimalDigits : FloatFormat → Nat
  | single => 9
  | double => 17

variable (f : FloatFormat)

def fractions : Nat := Nat.pow 2 f.fractionBits

def bias : Nat := Nat.pow 2 (f.width - 2 - f.fractionBits) - 1

def infinity : Nat := (2 * f.bias + 1) * f.fractions

def signBit : Nat := Nat.pow 2 (f.width - 1)

def magnitude (raw : Word) : Nat := raw.toNat % f.signBit

def isNegative (raw : Word) : Bool := raw.getLsbD (f.width - 1)

def isFinite (raw : Word) : Bool := f.magnitude raw < f.infinity

def isNaN (raw : Word) : Bool := f.infinity < f.magnitude raw

def same (a b : Word) : Bool :=
  !f.isNaN a && !f.isNaN b && (a == b || (f.magnitude a == 0 && f.magnitude b == 0))

def scale : Nat := f.bias + f.fractionBits - 1

/-- A finite magnitude is this many times two to `quantum` of the smallest quantum. -/
def significand (m : Nat) : Nat :=
  if m < f.fractions then m else m % f.fractions + f.fractions

def quantum (m : Nat) : Nat := m / f.fractions - 1

/-- The magnitude nearest to `num / den`, ties to even; past the largest finite value it is an
infinity. Counted in smallest quanta the value has some number of binary digits, and each digit
beyond the significand doubles the quantum. -/
def round (num den : Nat) : Nat :=
  let units := num * Nat.pow 2 f.scale
  let q := (units / den).log2 - f.fractionBits
  min (q * f.fractions + roundHalfEven units (den * Nat.pow 2 q)) f.infinity

/-- The magnitude nearest to `m` times `base` to the power of the exponent, for a base of two or
more. Exponents beyond the format's range are answered without forming the power. -/
def roundScaled (m base : Nat) : Int → Nat
  | .ofNat n =>
      if m = 0 then 0 else if f.bias < n then f.infinity else f.round (m * Nat.pow base n) 1
  | .negSucc n =>
      if m.log2 + f.scale + 1 < n then 0 else f.round m (Nat.pow base (n + 1))

def dropBits (mantissa : Nat) : Int → Nat
  | .ofNat drop => if 128 ≤ drop then 0 else roundHalfEven mantissa (Nat.pow 2 drop)
  | .negSucc spare => mantissa * Nat.pow 2 (spare + 1)

/-- The magnitude nearest to a mantissa of at most 64 bits times two to the exponent, ties to even.
Below the normal magnitudes fewer bits of the mantissa are kept. -/
def compose (mantissa : Nat) (exponent : Int) : Nat :=
  if mantissa = 0 then 0
  else
    let topBit : Int := mantissa.log2
    let top := exponent + topBit
    let least : Int := 1 - f.bias
    if f.bias < top then f.infinity
    else
      let kept :=
        dropBits mantissa (max (topBit - f.fractionBits) (least - f.fractionBits - exponent))
      min (if least ≤ top then (top + f.bias - 1).toNat * f.fractions + kept else kept) f.infinity

end FloatFormat

end Packed
