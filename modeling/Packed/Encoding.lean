import Packed.Bcd
import Packed.Kind
import Packed.TwosComplement

namespace Packed.Kind

def range (signed : Bool) (w : Nat) : IntType := ⟨signed, min w 64⟩

def decode : (k : Kind) → Nat → Word → k.Value
  | .unsigned, w, raw => (raw.mask w).toNat
  | .signed, w, raw => raw.signExtend w
  | .decimal, w, raw => (Bcd.decode (raw.mask w) w).toNat % Nat.pow 2 (IntType.leastBits w)
  | .flag, _, raw => raw.getLsbD 0
  | .float f, _, raw => raw.mask f.width
  | .named e, w, raw =>
      e.host.wrap (if e.host.signed then raw.signExtend w else (raw.mask w).toNat)

def encode : (k : Kind) → Nat → k.Value → Word
  | .unsigned, w, v => Word.mask (BitVec.ofNat 64 v) w
  | .signed, w, v => Word.mask (BitVec.ofInt 64 v) w
  | .decimal, w, v => Bcd.encodeLow v w
  | .flag, _, v => if v then 1 else 0
  | .float _, _, v => v
  | .named _, w, v => Word.mask (BitVec.ofInt 64 v) w

/-- The bits that a checked write stores for a value that fits. A number without a sign and decimal
digits are not cut to the width. -/
def pattern : (k : Kind) → Nat → k.Value → Word
  | .unsigned, _, v => BitVec.ofNat 64 v
  | .signed, w, v => Word.mask (BitVec.ofInt 64 v) w
  | .decimal, _, v => Bcd.pack 16 v
  | .flag, _, v => if v then 1 else 0
  | .float _, _, v => v
  | .named _, w, v => Word.mask (BitVec.ofInt 64 v) w

def fits : (k : Kind) → Nat → k.Value → Bool
  | .unsigned, w, v => (range false w).contains v
  | .signed, w, v => (range true w).contains v
  | .decimal, w, v => (Bcd.encode? v w).isSome
  | .flag, _, _ => true
  | .float _, _, _ => true
  | .named e, w, v => e.host.contains v && (range e.host.signed w).contains v

def wellFormed : Kind → Nat → Word → Bool
  | .decimal, w, raw => Bcd.isBcd (raw.mask w) w
  | _, _, _ => true

/-- The bits for a field of `w` bits that copies a field of `v` bits without a check. Decimal
digits are moved as they are; any other kind goes through the value. -/
def recode : (k : Kind) → (w v : Nat) → Word → Word
  | .decimal, w, v, raw => (raw.mask v).mask w
  | k, w, v, raw => k.encode w (k.decode v raw)

def same : (k : Kind) → k.Value → k.Value → Bool
  | .unsigned, a, b => a == b
  | .signed, a, b => a == b
  | .decimal, a, b => a == b
  | .flag, a, b => a == b
  | .float f, a, b => f.same a b
  | .named _, a, b => a == b

end Packed.Kind
