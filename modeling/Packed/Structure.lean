import Packed.View

namespace Packed

/-- A member is written as its name and its value where it is present, which may depend on memory.
-/
structure Member where
  name : String
  presence : Option Bool
  view : View

def Member.isPresent (x : Member) : Bool := x.presence.getD false

namespace View

def lead (o : TextOptions) (indentation : Nat) (first : Bool) : String :=
  if o.multiline then spaces indentation else if first then " " else ", "

def closing (o : TextOptions) (isEmpty : Bool) : String :=
  if o.multiline then spaces o.current ++ "\x7d" else if isEmpty then "\x7d" else " \x7d"

def membersText (o : TextOptions) (m : Memory) (first : Bool) :
    List Member → Except Fault (String × Bool)
  | [] => .ok ("", first)
  | x :: rest =>
      if !x.isPresent then membersText o m first rest
      else do
        let inner ← o.deeper
        if x.view.isHidden x.view.isAggregate o m then
          let note :=
            if o.multiline then spaces inner.current ++ "# " ++ x.name ++ ": UNREADABLE\n" else ""
          let (text, isEmpty) ← membersText o m first rest
          return (note ++ text, isEmpty)
        else
          let value ← x.view.text inner m
          let line := lead o inner.current first ++ x.name ++ ": " ++ value ++
            (if o.multiline then "\n" else "")
          let (text, isEmpty) ← membersText o m false rest
          return (line ++ text, isEmpty)

def structText (members : Memory → List Member) (o : TextOptions) (m : Memory) :
    Except Fault String := do
  let (text, isEmpty) ← membersText o m true (members m)
  return "\x7b" ++ (if o.multiline then "\n" else "") ++ text ++ closing o isEmpty

def labelStride : Nat := 8

/-- The text of the values from `index` on. On one line the first value, the one after a gap and every
eighth have their index in brackets before them, on many lines all have. -/
def valuesText (o inner : TextOptions) (aggregate : Bool) (m : Memory) :
    (first needLabel : Bool) → (index : Nat) → List View → Except Fault (String × Bool)
  | first, _, _, [] => .ok ("", first)
  | first, needLabel, index, v :: rest => do
      let newline := if o.multiline then "\n" else ""
      if v.isHidden aggregate o m then
        let note :=
          if o.multiline then newline ++ spaces inner.current ++ s!"# [{index}]: UNREADABLE" else ""
        let (text, isEmpty) ← valuesText o inner aggregate m first true (index + 1) rest
        return (note ++ text, isEmpty)
      else
        let label :=
          if o.multiline || needLabel || index % labelStride == 0 then s!"[{index}]: " else ""
        let value ← v.text inner m
        let (text, isEmpty) ← valuesText o inner aggregate m false false (index + 1) rest
        return (newline ++ lead o inner.current first ++ label ++ value ++ text, isEmpty)

def sequenceText (aggregate : Bool) (values : List View) (o : TextOptions) (m : Memory) :
    Except Fault String := do
  let inner ← o.deeper
  if values.isEmpty then return "\x7b\x7d"
  else
    let (text, isEmpty) ← valuesText o inner aggregate m true true 0 values
    return "\x7b" ++ text ++ (if o.multiline then "\n" else "") ++ closing o isEmpty

def isMark (text : String) : Bool :=
  text == "\x7b" || text == "[" || text == "]" || text == "," || text == ":"

/-- Reads members up to the closing brace. Every member takes some of the text, whose length is
fuel enough. -/
def readMembers (members : Memory → List Member) : Nat → Update Unit
  | 0 => throw .endOfText
  | fuel + 1 => do
      let name ← (Parser.token : Parser Token)
      if name.text = "\x7d" then pure ()
      else if isMark name.text then throw (.unexpectedToken name.position)
      else
        (Parser.expect ":" : Parser Unit)
        match (members (← get).memory).find? (·.name == name.text) with
        | none => throw (.unknownField name.position)
        | some x =>
            x.view.update
            let _ ← (Parser.consumeIf "," : Parser Bool)
            readMembers members fuel

def readStruct (members : Memory → List Member) : Update Unit := do
  (Parser.expect "\x7b" : Parser Unit)
  readMembers members ((← get).input.rest.length + 1)

def readLabel : Parser Nat := do
  let index ← Parser.unsigned
  Parser.expect "]"
  Parser.expect ":"
  pure index

/-- Reads values up to the closing brace, the next one into the view at `index` unless a label
says otherwise. -/
def readValues (values : List View) : Nat → Nat → Update Unit
  | 0, _ => throw .endOfText
  | fuel + 1, index => do
      let found ← (Parser.token : Parser Token)
      if found.text = "\x7d" then pure ()
      else
        let index ←
          if found.text = "[" then (readLabel : Parser Nat)
          else do
            (Parser.unread found : Parser Unit)
            pure index
        match values[index]? with
        | none => throw (.indexOutOfRange index values.length)
        | some v =>
            v.update
            let _ ← (Parser.consumeIf "," : Parser Bool)
            readValues values fuel (index + 1)

def readSequence (values : List View) : Update Unit := do
  (Parser.expect "\x7b" : Parser Unit)
  readValues values ((← get).input.rest.length + 1) 0

def ofMembers (isComplete ok : Memory → Bool) (members : Memory → List Member) : View where
  isAggregate := true
  isComplete := isComplete
  ok := ok
  text := structText members
  update := readStruct members

def record (members : List Member) : View :=
  ofMembers (fun m => members.all fun x => !x.isPresent || x.view.isComplete m)
    (fun m => members.all fun x => !x.isPresent || x.view.ok m) fun _ => members

/-- A sequence of views, written as the first of them is: all scalars or all aggregates. -/
def sequence (values : List View) : View where
  isAggregate := true
  isComplete m := values.all (·.isComplete m)
  ok m := values.all (·.ok m)
  text := sequenceText (values.head?.elim false (·.isAggregate)) values
  update := readSequence values

end View

end Packed
