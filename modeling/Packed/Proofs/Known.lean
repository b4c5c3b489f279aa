import Packed.Known
import Packed.Proofs.Encoding

namespace Packed.Known

theorem contains_arithmetic {op : Operation} {r i : IntType} {x y : Option Int} {n : Int}
    (hr : 0 < r.bits) (h : arithmetic op r i x y = some n) : r.contains n = true := by
  cases x with
  | none => cases h
  | some x =>
      cases y with
      | none => cases h
      | some y =>
          cases h
          exact IntType.contains_wrap r hr _

theorem arithmetic_eq (op : Operation) {t : IntType} {x y : Int} (ht : 0 < t.bits)
    (hx : t.contains x = true) (hy : t.contains y = true) (h : t.contains (op.apply x y) = true) :
    arithmetic op t t (some x) (some y) = some (op.apply x y) := by
  rw [arithmetic, IntType.wrap_of_contains ht hx, IntType.wrap_of_contains ht hy,
    IntType.wrap_of_contains ht h, IntType.wrap_of_contains ht h]

end Packed.Known
