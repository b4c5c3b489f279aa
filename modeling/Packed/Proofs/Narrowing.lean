import Packed.Proofs.FieldWrite

namespace Packed

namespace IntType

theorem ofInt_wrap_eq_iff {t : IntType} (ht : 0 < t.bits) {n : Int}
    (hn : (IntType.mk t.signed 64).contains n = true) :
    BitVec.ofInt 64 (t.wrap n) = BitVec.ofInt 64 n ↔ t.contains n = true := by
  refine ⟨fun h => ?_, fun h => by rw [wrap_of_contains ht h]⟩
  obtain hle | hle := Nat.le_total t.bits 64
  · have hback : (IntType.mk t.signed 64).contains (t.wrap n) = true :=
      contains_mono hle (contains_wrap t ht n)
    have hmod : t.wrap n % (2 ^ 64 : Nat) = n % (2 ^ 64 : Nat) := by
      rw [← BitVec.toNat_inj, BitVec.toNat_ofInt, BitVec.toNat_ofInt] at h
      have hpos : (0 : Int) < (2 ^ 64 : Nat) := by decide
      rw [← Int.toNat_of_nonneg (Int.emod_nonneg (t.wrap n) hpos.ne'), h,
        Int.toNat_of_nonneg (Int.emod_nonneg n hpos.ne')]
    have h64 : 0 < (IntType.mk t.signed 64).bits := Nat.succ_pos 63
    have hkept : t.wrap n = n := calc
      t.wrap n = (IntType.mk t.signed 64).wrap (t.wrap n) := (wrap_of_contains h64 hback).symm
      _ = (IntType.mk t.signed 64).wrap n := wrap_congr _ hmod
      _ = n := wrap_of_contains h64 hn
    rw [← hkept]
    exact contains_wrap t ht n
  · exact contains_mono hle hn

end IntType

namespace Kind

variable {k : Kind} {w : Nat} {v : k.Value}

def narrow : (k : Kind) → Nat → k.Value → k.Value
  | .unsigned, w, v => v % 2 ^ (unsigned.host w).bits
  | .signed, w, v => (signed.host w).wrap v
  | .decimal, w, v => v % 2 ^ (decimal.host w).bits
  | .flag, _, v => v
  | .float _, _, v => v
  | .named e, w, v => ((named e).host w).wrap v

/-- The test of a number of the word before it goes into the number type of a field. The largest
number of decimal digits is what the type makes of the largest word, and what goes into the type of
an enumeration is compared with what comes out. -/
def passes : (k : Kind) → Nat → k.Value → Bool
  | .unsigned, w, v => decide (v ≤ (Word.lowMask w).toNat)
  | .signed, w, v => (range true w).contains v
  | .decimal, w, v => decide (v ≤ decimal.narrow w (2 ^ 64 - 1 : Nat))
  | .flag, _, _ => true
  | .float _, _, _ => true
  | .named e, w, v => BitVec.ofInt 64 ((named e).narrow w v) == BitVec.ofInt 64 v

def InWord : (k : Kind) → k.Value → Prop
  | .named e, v => (IntType.mk e.host.signed 64).contains v = true
  | .unsigned, _ | .signed, _ | .decimal, _ | .flag, _ | .float _, _ => True

theorem narrow_eq (hw : k.Admits w) (hk : k.Hosted) (h : k.Representable w v) :
    k.narrow w v = v := by
  cases k with
  | unsigned => exact Nat.mod_eq_of_lt (Nat.lt_of_lt_of_le h (IntType.two_pow_le_leastBits hw.2))
  | signed =>
      have hle := IntType.le_leastBits hw.2
      have hpos : 0 < (signed.host w).bits := Nat.lt_of_lt_of_le hw.1 hle
      apply IntType.wrap_of_contains hpos
      exact IntType.contains_mono hle ((IntType.contains_signed_iff w v).2 h)
  | decimal =>
      have hlt : v < 2 ^ w := Nat.lt_of_le_of_lt (Bcd.le_packed h.1) h.2
      exact Nat.mod_eq_of_lt (Nat.lt_of_lt_of_le hlt (IntType.two_pow_le_leastBits hw.2))
  | flag | float => rfl
  | named e => exact IntType.wrap_of_contains (hk e rfl) h.1

theorem narrow_decimal_allOnes (w : Nat) :
    decimal.narrow w (2 ^ 64 - 1 : Nat) = (2 ^ (decimal.host w).bits - 1 : Nat) := by
  obtain ⟨c, hc⟩ := Nat.exists_eq_add_of_le (IntType.leastBits_le w)
  have hp := Nat.two_pow_pos (IntType.leastBits w)
  have hq := Nat.two_pow_pos c
  change (2 ^ 64 - 1) % 2 ^ IntType.leastBits w = 2 ^ IntType.leastBits w - 1
  have hsplit : 2 ^ 64 - 1 =
      2 ^ IntType.leastBits w * (2 ^ c - 1) + (2 ^ IntType.leastBits w - 1) := by
    rw [hc, Nat.pow_add, Nat.mul_sub_one]
    have hle := Nat.le_mul_of_pos_right (2 ^ IntType.leastBits w) hq
    omega
  rw [hsplit, Nat.mul_add_mod, Nat.mod_eq_of_lt (Nat.sub_lt hp Nat.one_pos)]

theorem narrow_of_passes (hw : k.Admits w) (hk : k.Hosted) (hv : k.InWord v)
    (h : k.passes w v = true) : k.narrow w v = v := by
  cases k with
  | unsigned =>
      have hlt : v < 2 ^ w := (Word.le_toNat_lowMask_iff hw.2).1 (of_decide_eq_true h)
      exact narrow_eq hw hk hlt
  | signed =>
      rw [passes, range_of_le true hw.2, IntType.contains_signed_iff] at h
      exact narrow_eq hw hk h
  | decimal =>
      rw [passes, narrow_decimal_allOnes, decide_eq_true_eq] at h
      exact Nat.mod_eq_of_lt (Nat.lt_of_le_sub_one (Nat.two_pow_pos _) h)
  | flag | float => rfl
  | named e =>
      rw [passes, beq_iff_eq] at h
      exact IntType.wrap_of_contains (hk e rfl) ((IntType.ofInt_wrap_eq_iff (hk e rfl) hv).1 h)

theorem passes_of_representable (hw : k.Admits w) (hk : k.Hosted) (h : k.Representable w v) :
    k.passes w v = true := by
  cases k with
  | unsigned => exact decide_eq_true ((Word.le_toNat_lowMask_iff hw.2).2 h)
  | signed =>
      rw [passes, range_of_le true hw.2, IntType.contains_signed_iff]
      exact h
  | decimal =>
      have hkept := narrow_eq hw hk h
      have hlt : v < 2 ^ (decimal.host w).bits := by
        rw [← hkept]
        exact Nat.mod_lt _ (Nat.two_pow_pos _)
      rw [passes, narrow_decimal_allOnes, decide_eq_true_eq]
      exact Nat.le_sub_one_of_lt hlt
  | flag | float => rfl
  | named e => rw [passes, narrow_eq hw hk h, beq_self_eq_true]

end Kind

namespace Field

variable {k : Kind} {v : k.Value}

/-- A write of a number of the word, which goes into the number type of the field before the field
looks at it. -/
def tryWriteNarrowed (f : Field k) (v : k.Value) (m : Memory) : Except Error Memory :=
  if k.passes f.width v then f.tryWrite (k.narrow f.width v) m else .error .notRepresentable

/-- No number of the word becomes another one on its way through the number type. -/
theorem tryWriteNarrowed_eq (hk : k.Hosted) (hv : k.InWord v) (f : Field k) (m : Memory) :
    f.tryWriteNarrowed v m = f.tryWrite v m := by
  rw [tryWriteNarrowed]
  split
  · rename_i hp
    rw [Kind.narrow_of_passes f.admits hk hv hp]
  · rename_i hp
    have hrefused : f.couldWrite v = false := by
      rw [← Bool.not_eq_true, couldWrite_iff]
      exact fun h => hp (Kind.passes_of_representable f.admits hk h.1)
    exact (tryWrite_eq_notRepresentable_iff.2 hrefused).symm

end Field

end Packed
