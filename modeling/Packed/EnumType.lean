import Packed.IntType

namespace Packed

inductive NamePolicy where
  | first
  | last
  deriving DecidableEq, Repr

/-- Every integer of the host type is a value of the enumeration, named or not. -/
structure EnumType where
  name : String
  host : IntType
  policy : NamePolicy
  entries : List (String × Int)
  deriving DecidableEq, Repr

namespace EnumType

/-- A name without a number continues from the name before it, whatever number that has. -/
def numberFrom (next : Int) : List (String × Option Int) → List (String × Int)
  | [] => []
  | (name, given) :: rest =>
      let value := given.getD next
      (name, value) :: numberFrom (value + 1) rest

def declare (name : String) (host : IntType) (policy : NamePolicy)
    (names : List (String × Option Int)) : EnumType :=
  ⟨name, host, policy, numberFrom 0 names⟩

variable (e : EnumType)

def nameOf? (value : Int) : Option String :=
  match e.policy with
  | .first => (e.entries.find? (·.2 == value)).map (·.1)
  | .last => (e.entries.reverse.find? (·.2 == value)).map (·.1)

def valueOf? (name : String) : Option Int := (e.entries.find? (·.1 == name)).map (·.2)

def isKnown (value : Int) : Bool := (e.nameOf? value).isSome

def describe (value : Int) : String := (e.nameOf? value).getD s!"{e.name}({value})"

end EnumType

end Packed
