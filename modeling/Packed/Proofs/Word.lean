import Mathlib.Tactic.Ring
import Packed.Word

namespace Packed

theorem saturate_of_lt {n : Nat} (h : n < sizeLimit) : saturate n = n :=
  Nat.min_eq_left (Nat.le_sub_one_of_lt h)

namespace Word

theorem toNat_lowMask {n : Nat} (h : n < 64) : (lowMask n).toNat = 2 ^ n - 1 := by
  have hp : 2 ^ n < 2 ^ 64 := Nat.pow_lt_pow_right (by omega) h
  have hq : 0 < 2 ^ n := Nat.two_pow_pos n
  have hs : (((1 <<< n : Nat) : Word)).toNat = 2 ^ n := by
    rw [BitVec.natCast_eq_ofNat, BitVec.toNat_ofNat, Nat.shiftLeft_eq, Nat.one_mul,
      Nat.mod_eq_of_lt hp]
  rw [lowMask, if_neg (by omega), BitVec.toNat_sub, hs, BitVec.ofNat_eq_ofNat,
    BitVec.toNat_one (by omega)]
  omega

theorem le_toNat_lowMask_iff {n k : Nat} (h : n ≤ 64) : k ≤ (lowMask n).toNat ↔ k < 2 ^ n := by
  by_cases hn : n < 64
  · rw [toNat_lowMask hn, Nat.le_sub_one_iff_lt (Nat.two_pow_pos n)]
  · obtain rfl : n = 64 := by omega
    rw [lowMask, if_pos (Nat.le_refl 64), BitVec.toNat_allOnes]
    omega

theorem getLsbD_lowMask (n i : Nat) : (lowMask n).getLsbD i = (decide (i < n) && decide (i < 64)) := by
  by_cases h : n < 64
  · rw [BitVec.getLsbD, toNat_lowMask h, Nat.testBit_two_pow_sub_one]
    by_cases hi : i < n
    · simp [hi, hi.trans h]
    · simp [hi]
  · have hn : 64 ≤ n := by omega
    rw [lowMask, if_pos hn, BitVec.getLsbD_allOnes]
    by_cases hi : i < 64
    · simp [hi, hi.trans_le hn]
    · simp [hi]

@[simp] theorem getLsbD_mask (w : Word) (n i : Nat) :
    (w.mask n).getLsbD i = (decide (i < n) && w.getLsbD i) := by
  rw [mask, BitVec.getLsbD_and, getLsbD_lowMask]
  by_cases hi : i < 64
  · simp [hi, Bool.and_comm]
  · simp [BitVec.getLsbD_of_ge w i (by omega)]

theorem toNat_mask (w : Word) (n : Nat) : (w.mask n).toNat = w.toNat % 2 ^ n := by
  apply Nat.eq_of_testBit_eq
  intro i
  rw [Nat.testBit_mod_two_pow]
  exact getLsbD_mask w n i

theorem toNat_mask_lt (w : Word) (n : Nat) : (w.mask n).toNat < 2 ^ n := by
  rw [toNat_mask]
  exact Nat.mod_lt _ (Nat.two_pow_pos n)

theorem mask_eq_self_iff (w : Word) (n : Nat) : w.mask n = w ↔ w.toNat < 2 ^ n := by
  constructor
  · intro h
    rw [← h]
    exact toNat_mask_lt w n
  · intro h
    apply BitVec.eq_of_toNat_eq
    rw [toNat_mask, Nat.mod_eq_of_lt h]

theorem mask_mask (w : Word) (n k : Nat) : (w.mask n).mask k = w.mask (min n k) := by
  apply BitVec.eq_of_getLsbD_eq
  intro i _
  simp only [getLsbD_mask, ← Bool.and_assoc, Nat.lt_min, Bool.decide_and]
  rw [Bool.and_comm (decide (i < k))]

theorem mask_of_le {w : Word} {n k : Nat} (h : w.mask n = w) (hk : n ≤ k) : w.mask k = w := by
  rw [← h, mask_mask, Nat.min_eq_left hk]

@[simp] theorem getLsbD_byte (w : Word) (i k : Nat) :
    (w.byte i).getLsbD k = (decide (k < 8) && w.getLsbD (8 * i + k)) := by
  simp [byte, BitVec.getLsbD_setWidth, BitVec.getLsbD_ushiftRight]

theorem byte_shift (w : Word) (i : Nat) : byte (w >>> 8) i = w.byte (i + 1) := by
  apply BitVec.eq_of_getLsbD_eq
  intro k _
  rw [getLsbD_byte, getLsbD_byte, BitVec.getLsbD_ushiftRight,
    show 8 + (8 * i + k) = 8 * (i + 1) + k by omega]

theorem byte_zero (w : Word) : w.byte 0 = w.setWidth 8 := by
  simp [byte]

@[simp] theorem length_digits (n : Nat) (w : Word) : (digits n w).length = n := by
  induction n generalizing w with
  | zero => rfl
  | succ n ih => simp [digits, ih]

theorem digits_eq_map (n : Nat) (w : Word) : digits n w = (List.range n).map w.byte := by
  induction n generalizing w with
  | zero => rfl
  | succ n ih =>
      rw [digits, ih, List.range_succ_eq_map, List.map_cons, List.map_map, byte_zero]
      congr 1
      apply List.map_congr_left
      intro i _
      exact byte_shift w i

theorem getLsbD_ofDigits (bs : List Byte) (i : Nat) :
    (ofDigits bs).getLsbD i = (decide (i < 64) && (bs.getD (i / 8) 0).getLsbD (i % 8)) := by
  induction bs generalizing i with
  | nil => simp [ofDigits]
  | cons b bs ih =>
      rw [ofDigits, BitVec.getLsbD_or, BitVec.getLsbD_setWidth, BitVec.getLsbD_shiftLeft, ih]
      by_cases hi : i < 8
      · have hd : i / 8 = 0 := by omega
        have hm : i % 8 = i := by omega
        simp [hd, hm, hi]
      · have hd : i / 8 = (i - 8) / 8 + 1 := by omega
        have hm : (i - 8) % 8 = i % 8 := by omega
        have hz : b.getLsbD i = false := BitVec.getLsbD_of_ge b i (by omega)
        have hl : i < 64 → i - 8 < 64 := by omega
        by_cases h : i < 64
        · simp [hd, hm, hz, hi, h, hl h]
        · simp [h]

theorem ofDigits_digits (n : Nat) (w : Word) : ofDigits (digits n w) = w.mask (8 * n) := by
  apply BitVec.eq_of_getLsbD_eq
  intro i hi
  rw [getLsbD_ofDigits, getLsbD_mask, digits_eq_map]
  by_cases hn : i / 8 < n
  · have hlt : i < 8 * n := by omega
    have hdm : 8 * (i / 8) + i % 8 = i := by omega
    have hmod : i % 8 < 8 := by omega
    rw [List.getD_eq_getElem?_getD, List.getElem?_map, List.getElem?_range hn, Option.map_some,
      Option.getD_some, getLsbD_byte, hdm]
    simp only [hi, hlt, hmod, decide_true, Bool.true_and]
  · have hge : ¬ i < 8 * n := by omega
    simp [hn, hge]

theorem digits_ofDigits (bs : List Byte) (h : bs.length ≤ 8) : digits bs.length (ofDigits bs) = bs := by
  rw [digits_eq_map]
  apply List.ext_getElem
  · simp
  · intro i hi hb
    rw [List.getElem_map, List.getElem_range]
    apply BitVec.eq_of_getLsbD_eq
    intro k hk
    have hlt : 8 * i + k < 64 := by omega
    have hd : (8 * i + k) / 8 = i := by omega
    have hm : (8 * i + k) % 8 = k := by omega
    rw [getLsbD_byte, getLsbD_ofDigits, hd, hm, List.getD_eq_getElem?_getD,
      List.getElem?_eq_getElem hb, Option.getD_some]
    simp only [hk, hlt, decide_true, Bool.true_and]

theorem byte_mask {n i : Nat} (h : i < n) (w : Word) : (w.mask (8 * n)).byte i = w.byte i := by
  apply BitVec.eq_of_getLsbD_eq
  intro k hk
  have hlt : 8 * i + k < 8 * n := by omega
  simp only [getLsbD_byte, getLsbD_mask, hlt, decide_true, Bool.true_and]

/-- Reading bytes from the most significant on, each pushing up those before it. -/
theorem foldl_reverse_eq_ofDigits (bs : List Byte) :
    bs.reverse.foldl (fun (w : Word) b => w <<< 8 ||| b.setWidth 64) 0 = ofDigits bs := by
  induction bs with
  | nil => rfl
  | cons b bs ih =>
      rw [List.reverse_cons, List.foldl_append, ih, List.foldl_cons, List.foldl_nil, ofDigits,
        BitVec.or_comm]

end Word

end Packed
