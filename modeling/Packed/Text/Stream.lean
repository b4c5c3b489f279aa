import Packed.Error

namespace Packed

/-- What is left of a text, and how many bytes of its UTF-8 form come before. -/
structure TextStream where
  rest : List Char
  position : Nat
  deriving DecidableEq, Repr

/-- A token and the stream as it stood before it. -/
structure Token where
  text : String
  start : TextStream
  deriving DecidableEq, Repr

abbrev Parser (α : Type) := EStateM Error TextStream α

def Token.position (t : Token) : Nat := t.start.position

namespace TextStream

def ofString (text : String) : TextStream := ⟨text.toList, 0⟩

def isBlank (c : Char) : Bool :=
  c == ' ' || c == '\t' || c == '\n' || c == '\x0c' || c == '\r'

def isPunctuation (c : Char) : Bool :=
  c == '{' || c == '}' || c == '[' || c == ']' || c == ',' || c == ':'

def isWordChar (c : Char) : Bool := !isBlank c && c != '#' && !isPunctuation c

def byteLength : List Char → Nat
  | [] => 0
  | c :: cs => c.utf8Size + byteLength cs

/-- Skips blanks and comments. The flag tells whether a comment has begun. -/
def skip : Bool → List Char → Nat → TextStream
  | _, [], p => ⟨[], p⟩
  | true, c :: cs, p => skip (c != '\n') cs (p + c.utf8Size)
  | false, c :: cs, p =>
      if c = '#' then skip true cs (p + c.utf8Size)
      else if isBlank c then skip false cs (p + c.utf8Size)
      else ⟨c :: cs, p⟩

def skipBlanks (s : TextStream) : TextStream := skip false s.rest s.position

def splitToken (s : TextStream) : Option (Token × TextStream) :=
  match s.rest with
  | [] => none
  | c :: cs =>
      if isPunctuation c then some (⟨String.singleton c, s⟩, ⟨cs, s.position + c.utf8Size⟩)
      else
        let word := (c :: cs).takeWhile isWordChar
        some (⟨String.ofList word, s⟩,
          ⟨(c :: cs).dropWhile isWordChar, s.position + byteLength word⟩)

def splitTokens : Nat → TextStream → List Token × TextStream
  | 0, s => ([], s.skipBlanks)
  | fuel + 1, s =>
      match s.skipBlanks.splitToken with
      | none => ([], s.skipBlanks)
      | some (token, rest) =>
          let (tokens, s) := splitTokens fuel rest
          (token :: tokens, s)

def readAll (s : TextStream) : List Token × TextStream := splitTokens s.rest.length s

end TextStream

namespace Parser

open TextStream

def next : Parser (Option Token) := fun s =>
  let s := s.skipBlanks
  match s.splitToken with
  | some (token, rest) => .ok (some token) rest
  | none => .ok none s

def unread (token : Token) : Parser Unit := set token.start

def token : Parser Token := do
  match ← next with
  | some token => pure token
  | none => throw .endOfText

def expect (text : String) : Parser Unit := do
  let found ← token
  if found.text = text then pure () else throw (.unexpectedToken found.position)

def consumeIf (text : String) : Parser Bool := do
  match ← next with
  | some found =>
      if found.text = text then pure true
      else
        unread found
        pure false
  | none => pure false

def atEnd : Parser Bool := do
  modify skipBlanks
  return (← get).rest.isEmpty

end Parser

end Packed
