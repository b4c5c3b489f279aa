import Mathlib.Data.Nat.Digits.Lemmas
import Packed.Proofs.BcdField

namespace Packed.Bcd

variable {raw : Word} {r i n w : Nat}

def scan (raw : Word) (w shift : Nat) : Bool :=
  if shift < w ∧ shift < 64 then
    if 9 < raw >>> shift &&& 0xf then false else scan raw w (shift + 4)
  else true
termination_by 64 - shift

/-- The bits that the check looks at: those of the field and of what is left of its last group. -/
def reach (w : Nat) : Nat := min (4 * ((w + 3) / 4)) 64

def wholeGroups (w : Nat) : Nat := min (w / 4) 16

theorem scan_of_le (h : groups w ≤ i) : scan raw w (4 * i) = true := by
  rw [groups] at h
  rw [scan, if_neg (by omega)]

theorem scan_of_lt (h : i < groups w) :
    scan raw w (4 * i) = (decide (nibble raw i ≤ 9) && scan raw w (4 * (i + 1))) := by
  rw [groups] at h
  rw [scan, if_pos (by omega)]
  change (if 9 < nibble raw i then _ else _) = _
  by_cases hi : nibble raw i ≤ 9
  · rw [if_neg (BitVec.not_lt.2 hi), decide_eq_true hi, Bool.true_and, Nat.mul_succ]
  · rw [if_pos (BitVec.not_le.1 hi), decide_eq_false hi, Bool.false_and]

theorem scan_eq_true_iff :
    scan raw w (4 * i) = true ↔ ∀ j, i ≤ j → j < groups w → nibble raw j ≤ 9 := by
  -- on the groups that are left
  induction hk : groups w - i generalizing i with
  | zero =>
      rw [scan_of_le (by omega)]
      exact iff_of_true rfl fun j hij hj => by omega
  | succ k ih =>
      rw [scan_of_lt (by omega), Bool.and_eq_true, decide_eq_true_iff, ih (by omega)]
      constructor
      · rintro ⟨hi, hrest⟩ j hij hj
        obtain rfl | hlt := Nat.eq_or_lt_of_le hij
        · exact hi
        · exact hrest j hlt hj
      · intro h
        exact ⟨h i (Nat.le_refl i) (by omega), fun j hij => h j (Nat.le_of_succ_le hij)⟩

theorem scan_eq_isBcd (raw : Word) (w : Nat) : scan raw w 0 = isBcd raw w := by
  rw [Bool.eq_iff_iff, isBcd, List.all_eq_true]
  refine (scan_eq_true_iff (i := 0)).trans ?_
  simp only [Nat.zero_le, true_implies, List.mem_range, decide_eq_true_iff]

theorem decimal_iff_forall_mem_digits : Decimal r ↔ ∀ d ∈ Nat.digits 16 r, d ≤ 9 := by
  have hdigit : ∀ i, r / 16 ^ i % 16 = (Nat.digits 16 r)[i]?.getD 0 := by
    intro i
    rw [← List.getD_eq_getElem?_getD, Nat.getD_digits r i (by decide)]
  constructor
  · intro h d hd
    obtain ⟨i, hi⟩ := List.mem_iff_getElem?.1 hd
    have hle := h i
    rwa [hdigit, hi] at hle
  · intro h i
    rw [hdigit]
    cases hi : (Nat.digits 16 r)[i]? with
    | none => exact Nat.zero_le 9
    | some d => exact h d (List.mem_of_getElem? hi)

theorem digit_mod_two_pow (h : 4 * (i + 1) ≤ w) : r % 2 ^ w / 16 ^ i % 16 = r / 16 ^ i % 16 := by
  have hsplit : 2 ^ w = 16 ^ i * (16 * 2 ^ (w - 4 * (i + 1))) := by
    rw [show 16 = 2 ^ 4 from rfl, ← Nat.pow_mul, ← Nat.pow_add, ← Nat.pow_add]
    congr 1
    omega
  rw [hsplit, Nat.mod_mul_right_div_self, Nat.mod_mod_of_dvd _ (Nat.dvd_mul_right 16 _)]

/-- What a field has of a group that it does not have whole is a decimal digit in any case. -/
theorem digit_mod_two_pow_le (h : w < 4 * (i + 1)) : r % 2 ^ w / 16 ^ i % 16 ≤ 9 := by
  have hpow : 2 ^ w ≤ 16 ^ i * 8 := by
    rw [show 16 ^ i * 8 = 2 ^ (4 * i + 3) by rw [Nat.pow_add, Nat.pow_mul]]
    exact Nat.pow_le_pow_right (by decide) (by omega)
  have hlt : r % 2 ^ w < 16 ^ i * 8 := Nat.lt_of_lt_of_le (Nat.mod_lt r (Nat.two_pow_pos w)) hpow
  have hdigit : r % 2 ^ w / 16 ^ i < 8 := Nat.div_lt_of_lt_mul hlt
  exact (Nat.mod_le _ 16).trans (Nat.le_trans (Nat.le_of_lt hdigit) (by decide))

theorem digits_mod_two_pow_iff : Digits (r % 2 ^ w) (groups w) ↔ Digits r (wholeGroups w) := by
  constructor
  · intro h i hi
    rw [wholeGroups] at hi
    rw [← digit_mod_two_pow (w := w) (by omega)]
    exact h i (by rw [groups]; omega)
  · intro h i hi
    rw [groups] at hi
    by_cases hin : 4 * (i + 1) ≤ w
    · rw [digit_mod_two_pow hin]
      exact h i (by rw [wholeGroups]; omega)
    · exact digit_mod_two_pow_le (Nat.not_le.1 hin)

theorem digits_succ_iff : Digits r (n + 1) ↔ Digits r n ∧ r / 16 ^ n % 16 ≤ 9 :=
  Nat.forall_lt_succ_right

theorem digits_groups_iff : Digits r (groups w) ↔
    Digits r (wholeGroups w) ∧ (w % 4 ≠ 0 → w < 64 → r / 16 ^ (w / 4) % 16 ≤ 9) := by
  by_cases h : w % 4 ≠ 0 ∧ w < 64
  · -- the field touches one group more than it has whole
    have hwhole : wholeGroups w = w / 4 := by rw [wholeGroups]; omega
    have hgroups : groups w = w / 4 + 1 := by rw [groups]; omega
    rw [hwhole, hgroups, digits_succ_iff]
    exact and_congr_right fun _ => ⟨fun hd _ _ => hd, fun hd => hd h.1 h.2⟩
  · have hgroups : groups w = wholeGroups w := by rw [wholeGroups, groups]; omega
    rw [hgroups]
    exact ⟨fun hd => ⟨hd, fun h4 h64 => absurd ⟨h4, h64⟩ h⟩, fun hd => hd.1⟩

theorem isBcd_mask_iff_digits :
    isBcd (raw.mask w) w = true ↔ Digits raw.toNat (wholeGroups w) := by
  rw [isBcd_iff_digits, Word.toNat_mask, digits_mod_two_pow_iff]

theorem isBcd_iff_isBcd_mask_and : isBcd raw w = true ↔
    isBcd (raw.mask w) w = true ∧ (w % 4 ≠ 0 → w < 64 → nibble raw (w / 4) ≤ 9) := by
  rw [isBcd_iff_digits, isBcd_mask_iff_digits, digits_groups_iff, BitVec.le_def, toNat_nibble]
  rfl

theorem isBcd_iff_decimal_mod : isBcd raw w = true ↔ Decimal (raw.toNat % 2 ^ reach w) := by
  have hreach : 2 ^ reach w = 16 ^ groups w := by
    rw [show 16 = 2 ^ 4 from rfl, ← Nat.pow_mul]
    congr 1
    rw [reach, groups]
    omega
  have hlt : raw.toNat % 2 ^ reach w < 16 ^ groups w := by
    rw [hreach]
    exact Nat.mod_lt _ (Nat.pow_pos (by decide))
  rw [isBcd_iff_digits, ← digits_iff_decimal hlt]
  refine forall₂_congr fun i hi => ?_
  rw [digit_mod_two_pow]
  rw [groups] at hi
  rw [reach]
  omega

theorem isBcd_mask_iff_decimal_mod :
    isBcd (raw.mask w) w = true ↔ Decimal (raw.toNat % 2 ^ min w 64) := by
  by_cases hw : w ≤ 64
  · rw [isBcd_iff_decimal hw (raw.toNat_mask_lt w), Word.toNat_mask, Nat.min_eq_left hw]
  · have hreach : reach w = 64 := by rw [reach]; omega
    have hmask : raw.mask w = raw := by
      rw [Word.mask_eq_self_iff]
      exact Nat.lt_of_lt_of_le raw.isLt (Nat.pow_le_pow_right (by decide) (by omega))
    rw [hmask, isBcd_iff_decimal_mod, hreach, Nat.min_eq_right (by omega)]

def tenAtEnd (w : Nat) : Word := BitVec.ofNat 64 (10 * 16 ^ (w / 4))

theorem toNat_tenAtEnd (h : w < 64) : (tenAtEnd w).toNat = 10 * 16 ^ (w / 4) := by
  have hpow : 16 ^ (w / 4) ≤ 16 ^ 15 := Nat.pow_le_pow_right (by decide) (by omega)
  rw [tenAtEnd, BitVec.toNat_ofNat]
  exact Nat.mod_eq_of_lt (by omega)

theorem isBcd_tenAtEnd (h4 : w % 4 ≠ 0) (h64 : w < 64) :
    isBcd (tenAtEnd w) w = false ∧ isBcd ((tenAtEnd w).mask w) w = true := by
  constructor
  · rw [Bool.eq_false_iff, Ne, isBcd_iff_digits, digits_groups_iff, toNat_tenAtEnd h64]
    intro h
    have htop := h.2 h4 h64
    rw [Nat.mul_div_cancel _ (Nat.pow_pos (by decide))] at htop
    exact absurd htop (by decide)
  · rw [isBcd_mask_iff_digits, toNat_tenAtEnd h64]
    intro i hi
    rw [wholeGroups] at hi
    obtain ⟨k, hk⟩ : ∃ k, w / 4 = i + (k + 1) := ⟨w / 4 - (i + 1), by omega⟩
    have hsplit : 10 * 16 ^ (w / 4) = 16 ^ i * (10 * 16 ^ k * 16) := by
      rw [hk]
      ring
    rw [hsplit, Nat.mul_div_cancel_left _ (Nat.pow_pos (by decide)), Nat.mul_mod_left]
    exact Nat.zero_le 9

theorem forall_isBcd_eq_isBcd_mask_iff :
    (∀ v : Word, isBcd v w = isBcd (v.mask w) w) ↔ w % 4 = 0 ∨ 64 ≤ w := by
  constructor
  · intro h
    by_contra hw
    push Not at hw
    obtain ⟨hno, hyes⟩ := isBcd_tenAtEnd hw.1 hw.2
    exact absurd (hno.symm.trans ((h _).trans hyes)) (by decide)
  · intro hw v
    rw [Bool.eq_iff_iff, isBcd_iff_isBcd_mask_and]
    exact and_iff_left fun h4 h64 => by omega

/-- The check goes through the groups that a field touches and judges a word by all digits below the
end of the last of them. The digits of the field itself are judged if the word is cut to the field
before. What the check demands besides is a decimal digit where the field ends within a group, so
that bits above the field make no difference just for the widths of whole groups. -/
theorem isBcd_judges_whole_groups (raw : Word) (w : Nat) :
    scan raw w 0 = isBcd raw w ∧
    (isBcd raw w = true ↔ ∀ d ∈ Nat.digits 16 (raw.toNat % 2 ^ reach w), d ≤ 9) ∧
    (isBcd (raw.mask w) w = true ↔ ∀ d ∈ Nat.digits 16 (raw.toNat % 2 ^ min w 64), d ≤ 9) ∧
    (isBcd raw w = true ↔
      isBcd (raw.mask w) w = true ∧ (w % 4 ≠ 0 → w < 64 → nibble raw (w / 4) ≤ 9)) ∧
    ((∀ v : Word, isBcd v w = isBcd (v.mask w) w) ↔ w % 4 = 0 ∨ 64 ≤ w) := by
  refine ⟨scan_eq_isBcd raw w, ?_, ?_, isBcd_iff_isBcd_mask_and, forall_isBcd_eq_isBcd_mask_iff⟩
  · rw [isBcd_iff_decimal_mod, decimal_iff_forall_mem_digits]
  · rw [isBcd_mask_iff_decimal_mod, decimal_iff_forall_mem_digits]

/-- Five bits that are all zero, with bits above them that make their second group a ten. -/
theorem isBcd_sees_past_five_bits :
    isBcd 0xa0 5 ≠ isBcd (Word.mask 0xa0 5) 5 ∧
      ¬ (isBcd 0xa0 5 = true ↔ ∀ d ∈ Nat.digits 16 ((0xa0 : Word).toNat % 2 ^ min 5 64), d ≤ 9) := by
  have hzero : (0xa0 : Word).toNat % 2 ^ min 5 64 = 0 := by decide
  refine ⟨by decide, fun h => ?_⟩
  rw [hzero, Nat.digits_zero] at h
  exact absurd (h.2 nofun) (by decide)

end Packed.Bcd
