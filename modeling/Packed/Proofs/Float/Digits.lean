import Mathlib.Algebra.Order.Ring.Int
import Packed.Proofs.Float.Nearest
import Packed.Proofs.Text.Numeral
import Packed.Proofs.Text.Positional

namespace Packed

theorem HalfEven.unique {y : ℚ} {n k : Nat} (hn : HalfEven y n) (hk : HalfEven y k) : n = k := by
  obtain hlt | heq := lt_or_eq_of_le hk.near
  · exact hn.eq_of_near hlt
  · obtain hlt | heq' := lt_or_eq_of_le hn.near
    · exact (hk.eq_of_near hlt).symm
    · have hneven := hn.even heq'
      have hkeven := hk.even heq
      have hnk : |(n : ℚ) - k| ≤ 1 := by
        have h := abs_sub_le (n : ℚ) y k
        rw [abs_sub_comm (n : ℚ) y] at h
        linarith
      have hnk' : |(n : ℤ) - k| ≤ 1 := by exact_mod_cast hnk
      rw [abs_le] at hnk'
      omega

namespace Positional

theorem isDigits_toDigits (n : Nat) : IsDigits 10 (Nat.toDigits 10 n) := by
  intro c hc
  obtain ⟨d, hd, rfl⟩ := Numeral.mem_toDigits (by decide) hc
  rw [Numeral.digit?_digitChar (by decide) hd]
  rfl

theorem number_toDigits (n : Nat) : number 10 (Nat.toDigits 10 n) = n := by
  induction n using Nat.strongRecOn with
  | ind n ih =>
      by_cases hn : n < 10
      · rw [Nat.toDigits_of_lt_base hn, number_singleton, Numeral.digit?_digitChar (by decide) hn]
        rfl
      · have hlast : n % 10 < 10 := Nat.mod_lt _ (by decide)
        rw [Nat.toDigits_of_base_le (by decide) (by omega), number_append, number_singleton,
          ih (n / 10) (by omega), Numeral.digit?_digitChar (by decide) hlast]
        exact Nat.div_add_mod' n 10

theorem number_replicate_zero (k : Nat) : number 10 (List.replicate k '0') = 0 := by
  induction k with
  | zero => rfl
  | succ k ih =>
      rw [List.replicate_succ, ← List.singleton_append, number_append, ih, number_singleton]
      have hzero : Numeral.digit? 10 '0' = some 0 := by decide
      simp [hzero]

theorem isDigits_replicate (k : Nat) : IsDigits 10 (List.replicate k '0') := by
  intro c hc
  obtain rfl := List.eq_of_mem_replicate hc
  decide

theorem pow_le_of_length_toDigits {n : Nat} (h : 0 < n) :
    10 ^ ((Nat.toDigits 10 n).length - 1) ≤ n := by
  by_contra hlt
  have hpos : 0 < (Nat.toDigits 10 n).length := Nat.length_toDigits_pos
  by_cases hone : (Nat.toDigits 10 n).length - 1 = 0
  · rw [hone] at hlt
    omega
  · have hle := (Nat.length_toDigits_le_iff (b := 10) (by decide)
      (Nat.pos_of_ne_zero hone)).2 (Nat.lt_of_not_le hlt)
    omega

theorem lt_pow_length_toDigits (n : Nat) : n < 10 ^ (Nat.toDigits 10 n).length :=
  (Nat.length_toDigits_le_iff (by decide) Nat.length_toDigits_pos).1 le_rfl

end Positional

namespace Significant

open Positional

variable {num den count : Nat}

theorem scaled_halfEven (num : Nat) (h : 0 < den) (k : ℤ) :
    HalfEven (num / den * 10 ^ k) (scaled num den k) := by
  cases k with
  | ofNat k =>
      have hround := roundHalfEven_halfEven (num * 10 ^ k) h
      rw [scaled, Nat.pow_eq, Int.ofNat_eq_natCast, zpow_natCast, div_mul_eq_mul_div]
      exact_mod_cast hround
  | negSucc k =>
      have hround := roundHalfEven_halfEven num (by positivity : 0 < den * 10 ^ (k + 1))
      rw [scaled, Nat.pow_eq, zpow_negSucc, ← div_eq_mul_inv, div_div]
      exact_mod_cast hround

/-- The first digit stands where its power of ten is the last that is not beyond the number. -/
theorem leading_spec (hn : 0 < num) (h : 0 < den) :
    (10 : ℚ) ^ leading num den ≤ num / den ∧ (num / den : ℚ) < 10 ^ (leading num den + 1) := by
  have hden : (0 : ℚ) < den := by exact_mod_cast h
  have hshift := lt_pow_length_toDigits den
  rw [leading, Nat.pow_eq]
  generalize (Nat.toDigits 10 den).length = shift at *
  have hpow : (0 : ℚ) < 10 ^ shift := by positivity
  have hq : 0 < num * 10 ^ shift / den :=
    Nat.div_pos (hshift.le.trans (Nat.le_mul_of_pos_left _ hn)) h
  have hlow := pow_le_of_length_toDigits hq
  have hhigh := lt_pow_length_toDigits (num * 10 ^ shift / den)
  rw [Nat.le_div_iff_mul_le h] at hlow
  rw [Nat.div_lt_iff_lt_mul h] at hhigh
  obtain ⟨k, hk⟩ := Nat.exists_eq_succ_of_ne_zero
    (Nat.length_toDigits_pos (b := 10) (n := num * 10 ^ shift / den)).ne'
  rw [hk] at hlow hhigh ⊢
  have hlow' : (10 ^ k * den : ℚ) ≤ num * 10 ^ shift := by exact_mod_cast hlow
  have hhigh' : (num * 10 ^ shift : ℚ) < 10 ^ (k + 1) * den := by exact_mod_cast hhigh
  have he : ((k + 1 : Nat) : ℤ) - 1 - shift = k - shift := by omega
  have he' : (k - shift + 1 : ℤ) = (k + 1 : Nat) - shift := by omega
  rw [he, he', zpow_sub₀ (by norm_num), zpow_sub₀ (by norm_num), zpow_natCast, zpow_natCast,
    zpow_natCast, div_le_div_iff₀ hpow hden, div_lt_div_iff₀ hden hpow]
  exact ⟨hlow', hhigh'⟩

structure Rounded (s : Significant) (count : Nat) (x : ℚ) : Prop where
  halfEven : HalfEven (x * 10 ^ (count - 1 - s.exponent : ℤ)) s.digits
  near : |x - s.digits * 10 ^ (s.exponent - (count - 1) : ℤ)| ≤ x / (2 * 10 ^ (count - 1))
  lt : s.digits < 10 ^ count
  full : 0 < x → 10 ^ (count - 1) ≤ s.digits
  exponent_le : 0 < x → (10 : ℚ) ^ (s.exponent - 1) ≤ x
  lt_exponent : 0 < x → x < 10 ^ (s.exponent + 1)

theorem ofRatio_zero (count den : Nat) : (ofRatio count 0 den).Rounded count 0 := by
  have hs : ofRatio count 0 den = ⟨0, 0⟩ := rfl
  rw [hs]
  exact ⟨⟨by simp, fun _ => rfl⟩, by simp, by simp, fun h => absurd h (lt_irrefl _),
    fun h => absurd h (lt_irrefl _), fun h => absurd h (lt_irrefl _)⟩

theorem near_of_halfEven {x : ℚ} {e : ℤ} {n : Nat} (hc : 0 < count)
    (hy : HalfEven (x * 10 ^ (count - 1 - e : ℤ)) n) (hlow : (10 : ℚ) ^ e ≤ x) :
    |x - n * 10 ^ (e - (count - 1) : ℤ)| ≤ x / (2 * 10 ^ (count - 1)) := by
  have hunit : (0 : ℚ) < 10 ^ (e - (count - 1) : ℤ) := zpow_pos (by norm_num) _
  have hinv : (10 : ℚ) ^ (count - 1 - e : ℤ) = (10 ^ (e - (count - 1) : ℤ))⁻¹ := by
    rw [← zpow_neg, neg_sub]
  have hleast : (10 : ℚ) ^ (e - (count - 1) : ℤ) * 10 ^ (count - 1) = 10 ^ e := by
    rw [← zpow_natCast, ← zpow_add₀ (by norm_num)]
    congr 1
    omega
  have hnear := hy.near
  rw [hinv] at hnear
  generalize (10 : ℚ) ^ (e - (count - 1) : ℤ) = u at *
  have hscaled : |x - n * u| = |x * u⁻¹ - n| * u := by
    rw [← abs_of_pos hunit, ← abs_mul, abs_of_pos hunit, sub_mul, inv_mul_cancel_right₀ hunit.ne']
  rw [hscaled, le_div_iff₀ (by positivity)]
  calc |x * u⁻¹ - n| * u * (2 * 10 ^ (count - 1)) ≤ 1 / 2 * u * (2 * 10 ^ (count - 1)) := by gcongr
    _ = u * 10 ^ (count - 1) := by ring
    _ ≤ x := hleast.trans_le hlow

theorem Rounded.carry {x : ℚ} {e : ℤ} (hc : 0 < count)
    (hy : HalfEven (x * 10 ^ (count - 1 - e : ℤ)) (10 ^ count)) (hlow : (10 : ℚ) ^ e ≤ x)
    (hhigh : x < 10 ^ (e + 1)) : Rounded ⟨10 ^ (count - 1), e + 1⟩ count x := by
  have hnear := near_of_halfEven hc hy hlow
  have hcount : ((10 ^ count : Nat) : ℚ) = (10 ^ (count - 1) : Nat) * 10 := by
    rw [← Nat.sub_add_cancel hc, pow_succ]
    push_cast
    rfl
  refine ⟨?_, ?_, Nat.pow_lt_pow_right (by decide) (by omega), fun _ => le_rfl, fun _ => ?_,
    fun _ => ?_⟩
  · have hstep : x * (10 : ℚ) ^ (count - 1 - (e + 1) : ℤ) = x * 10 ^ (count - 1 - e : ℤ) / 10 := by
      rw [← sub_sub, zpow_sub_one₀ (by norm_num)]
      ring
    have hlast := abs_le.1 hy.near
    rw [hcount] at hlast
    refine .of_near ?_
    rw [hstep, abs_lt]
    constructor <;> linarith
  · have hstep : (10 : ℚ) ^ (e + 1 - (count - 1) : ℤ) = 10 * 10 ^ (e - (count - 1) : ℤ) := by
      rw [add_sub_right_comm, zpow_add_one₀ (by norm_num), mul_comm]
    rw [hstep, ← mul_assoc, ← hcount]
    exact hnear
  · rwa [add_sub_cancel_right]
  · exact hhigh.trans (zpow_lt_zpow_right₀ (by norm_num) (lt_add_one _))

theorem ofRatio_rounded (num : Nat) (hc : 0 < count) (h : 0 < den) :
    (ofRatio count num den).Rounded count (num / den) := by
  obtain rfl | hn := Nat.eq_zero_or_pos num
  · simpa using ofRatio_zero count den
  obtain ⟨hlow, hhigh⟩ := leading_spec hn h
  rw [ofRatio, if_neg hn.ne']
  generalize leading num den = e at *
  have hy := scaled_halfEven num h (count - 1 - e)
  dsimp only
  generalize scaled num den (count - 1 - e) = n at *
  generalize (num / den : ℚ) = x at *
  split
  · rename_i hcarry
    rw [hcarry] at hy
    exact Rounded.carry hc hy hlow hhigh
  · rename_i hne
    have hpow : (0 : ℚ) < 10 ^ (count - 1 - e : ℤ) := zpow_pos (by norm_num) _
    have hleast : (10 : ℚ) ^ (count - 1) ≤ x * 10 ^ (count - 1 - e : ℤ) := by
      refine le_trans (le_of_eq ?_) (mul_le_mul_of_nonneg_right hlow hpow.le)
      rw [← zpow_natCast, ← zpow_add₀ (by norm_num)]
      congr 1
      omega
    have hmost : x * 10 ^ (count - 1 - e : ℤ) ≤ (10 : ℚ) ^ count := by
      refine le_trans (mul_le_mul_of_nonneg_right hhigh.le hpow.le) (le_of_eq ?_)
      rw [← zpow_natCast, ← zpow_add₀ (by norm_num)]
      congr 1
      omega
    have hfull : 10 ^ (count - 1) ≤ n := hy.ge_of_ge (by exact_mod_cast hleast)
    have hle : n ≤ 10 ^ count := hy.le_of_le (by exact_mod_cast hmost)
    refine ⟨hy, near_of_halfEven hc hy hlow, Nat.lt_of_le_of_ne hle hne, fun _ => hfull, fun _ => ?_,
      fun _ => hhigh⟩
    exact (zpow_le_zpow_right₀ (by norm_num) (sub_le_self e zero_le_one)).trans hlow

end Significant

end Packed
