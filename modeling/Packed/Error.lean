namespace Packed

/-- What an operation may answer about the data. -/
inductive Error where
  | incomplete
  | notRepresentable
  | sizeMismatch (requested available : Nat)
  | endOfText
  | unexpectedToken (position : Nat)
  | invalidNumber (position : Nat)
  | unknownName (position : Nat)
  | unknownField (position : Nat)
  | unsupportedBase (radix : Nat)
  | indexOutOfRange (index count : Nat)
  deriving DecidableEq, Repr

def Error.message : Error → String
  | incomplete => "Storage is incomplete"
  | notRepresentable => "Value cannot be stored in field"
  | sizeMismatch requested available =>
      s!"Cannot copy {requested} bytes, only {available} available"
  | endOfText => "Unexpected end of text"
  | unexpectedToken position => s!"Unexpected token at position {position}"
  | invalidNumber position => s!"Invalid number at position {position}"
  | unknownName position => s!"Unknown name at position {position}"
  | unknownField position => s!"Unknown field at position {position}"
  | unsupportedBase radix => s!"Unsupported numeric base {radix}"
  | indexOutOfRange index count => s!"Index {index} out of range for array of {count} elements"

end Packed
