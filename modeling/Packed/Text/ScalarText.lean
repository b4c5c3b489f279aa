import Packed.Kind
import Packed.Text.FloatText

namespace Packed.Kind

def render (o : TextOptions) : (k : Kind) → k.Value → String
  | .unsigned, v => o.number v
  | .signed, v => o.number v
  | .decimal, v => o.number v
  | .flag, v => if v then "true" else "false"
  | .float f, v => f.render v
  | .named e, v =>
      match e.nameOf? v with
      | some name => if o.showsComments then name ++ "  # " ++ o.plainNumber v else name
      | none => o.number v

def isNumeric (text : String) : Bool :=
  match text.toList with
  | c :: _ => FloatFormat.isDigit c || c == '-'
  | [] => false

def integer? (signed : Bool) (n : Numeral) : Option Int :=
  if signed then n.toInt? else n.toNat?.map Int.ofNat

def enumValue (e : EnumType) : Parser Int := do
  let found ← Parser.token
  if isNumeric found.text then
    match (Numeral.parse? found.text).bind (integer? e.host.signed) with
    | some v => pure v
    | none => throw (.invalidNumber found.position)
  else
    match e.valueOf? found.text with
    | some v => pure v
    | none => throw (.unknownName found.position)

def parser : (k : Kind) → Parser k.Value
  | .unsigned => Parser.unsigned
  | .signed => Parser.signed
  | .decimal => Parser.unsigned
  | .flag => Parser.flag
  | .float f => Parser.float f
  | .named e => enumValue e

end Packed.Kind
