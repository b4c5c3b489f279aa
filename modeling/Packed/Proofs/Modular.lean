import Packed.Proofs.Known

namespace Packed

namespace IntType

variable (t u : IntType)

def number (x : BitVec t.bits) : Int := if t.signed then x.toInt else x.toNat

/-- The pattern in another type: cut from above, or continued by the sign where the old type has one
and by zeros where it has none. -/
def cast (x : BitVec t.bits) : BitVec u.bits :=
  if t.signed then x.signExtend u.bits else x.setWidth u.bits

theorem number_ofInt (n : Int) : t.number (BitVec.ofInt t.bits n) = t.wrap n := by
  rw [number, wrap, Nat.pow_eq]
  split
  · exact BitVec.toInt_ofInt n
  · have hpos : (0 : Int) < (2 ^ t.bits : Nat) := by exact_mod_cast Nat.two_pow_pos t.bits
    rw [BitVec.toNat_ofInt, Int.toNat_of_nonneg (Int.emod_nonneg n (by omega))]

theorem ofInt_number (x : BitVec t.bits) : BitVec.ofInt t.bits (t.number x) = x := by
  rw [number]
  split
  · exact BitVec.ofInt_toInt
  · rw [BitVec.ofInt_natCast, BitVec.ofNat_toNat, BitVec.setWidth_eq]

theorem cast_eq (x : BitVec t.bits) : t.cast u x = BitVec.ofInt u.bits (t.number x) := by
  rw [cast, number]
  split
  · rfl
  · rw [BitVec.ofInt_natCast, BitVec.ofNat_toNat]

theorem number_cast (x : BitVec t.bits) : u.number (t.cast u x) = u.wrap (t.number x) := by
  rw [cast_eq, number_ofInt]

variable {t u}

theorem eq_wrap_iff (ht : 0 < t.bits) {n v : Int} : v = t.wrap n ↔
    t.contains v = true ∧ v % (2 ^ t.bits : Nat) = n % (2 ^ t.bits : Nat) := by
  constructor
  · rintro rfl
    exact ⟨t.contains_wrap ht n, t.wrap_emod n⟩
  · rintro ⟨hv, hn⟩
    rw [← wrap_of_contains ht hv]
    exact t.wrap_congr hn

theorem wrap_wrap_of_le (h : u.bits ≤ t.bits) (n : Int) : u.wrap (t.wrap n) = u.wrap n := by
  have hdvd : ((2 ^ u.bits : Nat) : Int) ∣ (2 ^ t.bits : Nat) := by
    exact_mod_cast Nat.pow_dvd_pow 2 h
  apply u.wrap_congr
  rw [← Int.emod_emod_of_dvd _ hdvd, t.wrap_emod, Int.emod_emod_of_dvd _ hdvd]

end IntType

namespace Known

def Operation.onBits {n : Nat} : Operation → BitVec n → BitVec n → BitVec n
  | sum, x, y => x + y
  | difference, x, y => x - y
  | product, x, y => x * y

theorem Operation.ofInt_apply (op : Operation) (n : Nat) (a b : Int) :
    BitVec.ofInt n (op.apply a b) = op.onBits (BitVec.ofInt n a) (BitVec.ofInt n b) := by
  cases op with
  | sum => exact BitVec.ofInt_add a b
  | difference =>
      change BitVec.ofInt n (a - b) = _
      rw [Int.sub_eq_add_neg, BitVec.ofInt_add, BitVec.ofInt_neg, ← BitVec.sub_eq_add_neg]
      rfl
  | product => exact BitVec.ofInt_mul a b

variable {op : Operation} {r i : IntType}

theorem wrap_apply_wrap (op : Operation) (i : IntType) (a b : Int) :
    i.wrap (op.apply (i.wrap a) (i.wrap b)) = i.wrap (op.apply a b) := by
  have hbits : ∀ n, BitVec.ofInt i.bits (i.wrap n) = BitVec.ofInt i.bits n := by
    intro n
    rw [← i.number_ofInt, i.ofInt_number]
  rw [← i.number_ofInt, op.ofInt_apply, hbits, hbits, ← op.ofInt_apply, i.number_ofInt]

theorem arithmetic_some (a b : Int) :
    arithmetic op r i (some a) (some b) = some (r.wrap (i.wrap (op.apply a b))) := by
  rw [arithmetic, wrap_apply_wrap]

theorem arithmetic_number (l q : IntType) (x : BitVec l.bits) (y : BitVec q.bits) :
    arithmetic op r i (some (l.number x)) (some (q.number y)) =
      some (r.number (i.cast r (op.onBits (l.cast i x) (q.cast i y)))) := by
  rw [arithmetic_some, IntType.number_cast, IntType.cast_eq, IntType.cast_eq, ← op.ofInt_apply,
    IntType.number_ofInt]

theorem arithmetic_eq_none_iff {x y : Option Int} :
    arithmetic op r i x y = none ↔ x = none ∨ y = none := by
  cases x <;> cases y <;> simp [arithmetic]

/-- The sum, the difference and the product of known numbers is known: it is the result over the
integers, brought into the intermediate type and then into that of the result. This is what the
machine computes on patterns of bits, whatever the types of the operands, and casting these before to
a type of as many bits changes nothing. A result that fits both types is exact, and what depends on
an unknown number is unknown. -/
theorem arithmetic_modular (op : Operation) {r i : IntType} (hr : 0 < r.bits) (hi : 0 < i.bits) :
    (∀ a b, arithmetic op r i (some a) (some b) = some (r.wrap (i.wrap (op.apply a b)))) ∧
    (∀ t : IntType, 0 < t.bits → ∀ n v : Int, v = t.wrap n ↔
      t.contains v = true ∧ v % (2 ^ t.bits : Nat) = n % (2 ^ t.bits : Nat)) ∧
    (∀ (l q : IntType) (x : BitVec l.bits) (y : BitVec q.bits),
      arithmetic op r i (some (l.number x)) (some (q.number y)) =
        some (r.number (i.cast r (op.onBits (l.cast i x) (q.cast i y))))) ∧
    (∀ l q : IntType, i.bits ≤ l.bits → i.bits ≤ q.bits → ∀ a b,
      arithmetic op r i (some (l.wrap a)) (some (q.wrap b)) =
        arithmetic op r i (some a) (some b)) ∧
    (∀ a b, i.contains (op.apply a b) = true → r.contains (op.apply a b) = true →
      arithmetic op r i (some a) (some b) = some (op.apply a b)) ∧
    (∀ x y, arithmetic op r i x y = none ↔ x = none ∨ y = none) := by
  refine ⟨arithmetic_some, fun t ht n v => IntType.eq_wrap_iff ht, arithmetic_number, ?_, ?_,
    fun x y => arithmetic_eq_none_iff⟩
  · intro l q hl hq a b
    rw [arithmetic, arithmetic, IntType.wrap_wrap_of_le hl, IntType.wrap_wrap_of_le hq]
  · intro a b hai har
    rw [arithmetic_some, IntType.wrap_of_contains hi hai, IntType.wrap_of_contains hr har]

/-- A signed and an unsigned number multiplied in sixteen bits without a sign, for a signed byte. -/
theorem arithmetic_modular_in_signed_byte :
    let byte : IntType := ⟨true, 8⟩
    let pair : IntType := ⟨false, 16⟩
    arithmetic .product byte pair (some (-7)) (some 300) = some (-52) ∧
      arithmetic .product byte pair (some (-7)) (some (pair.wrap (-65236))) = some (-52) ∧
      arithmetic .product byte pair (some 9) (some 14) = some 126 ∧
      arithmetic .product byte pair (some 9) none = none := by
  intro byte pair
  obtain ⟨hsome, hwrap, -, hcast, hexact, hnone⟩ :=
    arithmetic_modular .product (r := byte) (i := pair) (by decide) (by decide)
  have hmod : pair.wrap (-2100) = 63436 := ((hwrap pair (by decide) _ _).2 (by decide)).symm
  have hlow : byte.wrap 63436 = -52 := ((hwrap byte (by decide) _ _).2 (by decide)).symm
  have hproduct : arithmetic .product byte pair (some (-7)) (some 300) = some (-52) := by
    rw [hsome, show Operation.apply .product (-7) 300 = -2100 from rfl, hmod, hlow]
  refine ⟨hproduct, ?_, hexact 9 14 (by decide) (by decide), (hnone _ _).2 (.inr rfl)⟩
  have hwide := hcast ⟨true, 64⟩ pair (by decide) (Nat.le_refl _) (-7) 300
  have hcopy : pair.wrap (-65236) = pair.wrap 300 := pair.wrap_congr (by decide)
  rw [hcopy]
  exact hwide.trans hproduct

end Known

end Packed
