import Packed.EnumType
import Packed.FloatFormat

namespace Packed

inductive Kind where
  | unsigned
  | signed
  | decimal
  | flag
  | float (format : FloatFormat)
  | named (enum : EnumType)
  deriving DecidableEq, Repr

namespace Kind

/-- A float is held as its bit pattern and an enumeration as its number. -/
abbrev Value : Kind → Type
  | unsigned => Nat
  | signed => Int
  | decimal => Nat
  | flag => Bool
  | float _ => Word
  | named _ => Int

def Admits : Kind → Nat → Prop
  | flag, w => w = 1
  | float f, w => w = f.width
  | _, w => 1 ≤ w ∧ w ≤ 64

instance (k : Kind) (w : Nat) : Decidable (k.Admits w) := by
  cases k <;> unfold Admits <;> infer_instance

theorem admits_flag : flag.Admits 1 := rfl

theorem unsigned_admits_byte : unsigned.Admits 8 := by decide

theorem unsigned_admits_pair : unsigned.Admits 16 := by decide

def host : Kind → Nat → IntType
  | signed, w => ⟨true, IntType.leastBits w⟩
  | named e, _ => e.host
  | _, w => ⟨false, IntType.leastBits w⟩

def phrase : Kind → Nat → String
  | unsigned, w => s!"a {w}-bit unsigned field"
  | signed, w => s!"a {w}-bit signed field"
  | decimal, w => s!"a {w}-bit BCD field"
  | flag, _ => "a flag"
  | float _, w => s!"a {w}-bit float"
  | named _, w => s!"a {w}-bit enum field"

end Kind

end Packed
