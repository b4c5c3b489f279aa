import Packed.Known

namespace Packed

open Known

inductive Formula where
  | leaf (type : IntType) (value : Option Int)
  | arithmetic (op : Operation) (r i : IntType) (a b : Formula)
  | maximum (r i : IntType) (values : List Formula)
  | compare (op : Comparison) (i : IntType) (a b : Formula)
  | both (a b : Formula)
  | either (a b : Formula)
  | choice (r : IntType) (condition a b : Formula)

namespace Formula

def type : Formula → IntType
  | leaf t _ => t
  | arithmetic _ r _ _ _ => r
  | maximum r _ _ => r
  | compare _ _ _ _ => .truth
  | both _ _ => .truth
  | either _ _ => .truth
  | choice r _ _ _ => r

def truth (value : Option Int) : Option Bool := value.map (· != 0)

def ofTruth (value : Option Bool) : Option Int := value.map fun b => if b then 1 else 0

mutual

def eval : Formula → Option Int
  | leaf _ value => value
  | arithmetic op r i a b => Known.arithmetic op r i (eval a) (eval b)
  | maximum r i values => Known.maximum r i (evalAll values)
  | compare op i a b => ofTruth (Known.compare op i (eval a) (eval b))
  | both a b => ofTruth (Known.both (truth (eval a)) (truth (eval b)))
  | either a b => ofTruth (Known.either (truth (eval a)) (truth (eval b)))
  | choice r condition a b => Known.choice r (truth (eval condition)) (eval a) (eval b)

def evalAll : List Formula → List (Option Int)
  | [] => []
  | a :: rest => eval a :: evalAll rest

end

end Formula

end Packed
