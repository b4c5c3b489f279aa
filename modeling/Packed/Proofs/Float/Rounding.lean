import Mathlib.Algebra.Order.Ring.Int
import Packed.Proofs.Float.Nearest

namespace Packed.FloatFormat

variable {f : FloatFormat} {x y : ℚ}

theorem bias_pos (f : FloatFormat) : 0 < f.bias := by cases f <;> decide

theorem scale_eq (f : FloatFormat) : (f.scale : ℤ) = f.bias + f.fractionBits - 1 := by
  have h := f.bias_pos
  rw [scale]
  omega

theorem units_infinity (f : FloatFormat) : f.units f.infinity = 2 ^ (f.bias + 1 + f.scale) := by
  have hpos := f.bias_pos
  have hinf : f.infinity = 2 * f.bias * f.fractions + f.fractions := by rw [infinity]; ring
  have hexp : f.bias + 1 + f.scale = f.fractionBits + 2 * f.bias := by rw [scale]; omega
  rw [hinf, f.units_mul_add (.inr le_rfl) (by omega), hexp, pow_add, fractions_eq]

theorem nearest_zero (hx : 2 * (x * 2 ^ f.scale) ≤ 1) : f.Nearest x 0 := by
  refine nearest_of_halves (Nat.zero_le _) nofun fun k _ hk => ⟨?_, fun _ => rfl⟩
  have hunits : f.units 0 < f.units k := f.units_strictMono hk
  have hone : (1 : ℚ) ≤ f.units 0 + f.units k := by
    exact_mod_cast (by omega : 1 ≤ f.units 0 + f.units k)
  exact hx.trans hone

theorem nearest_infinity (hx : 2 ^ (f.bias + 1) ≤ x) : f.Nearest x f.infinity := by
  have hX : (f.units f.infinity : ℚ) ≤ x * 2 ^ f.scale := by
    rw [units_infinity, pow_add]
    push_cast
    exact mul_le_mul_of_nonneg_right hx (by positivity)
  refine nearest_of_halves le_rfl (fun k hk => ?_) (fun k hk hlt => by omega)
  have hunits : (f.units k : ℚ) < f.units f.infinity := by exact_mod_cast f.units_strictMono hk
  exact ⟨by linarith, fun he => absurd he (by linarith)⟩

theorem round_nearest (f : FloatFormat) (num : Nat) {den : Nat} (h : 0 < den) :
    f.Nearest (num / den) (f.round num den) := by
  rw [round, Nat.pow_eq, Nat.pow_eq]
  have hden : (0 : ℚ) < den := by exact_mod_cast h
  have hX : (num / den * 2 ^ f.scale : ℚ) = (num * 2 ^ f.scale : Nat) / den := by
    push_cast
    ring
  refine Rounds.nearest ?_
  rw [hX]
  generalize num * 2 ^ f.scale = u
  have hle : ((u / den : Nat) : ℚ) ≤ u / den := by
    rw [le_div_iff₀ hden]
    exact_mod_cast Nat.div_mul_le_self u den
  have hlt : (u / den : ℚ) < (u / den : Nat) + 1 := by
    rw [div_lt_iff₀ hden]
    exact_mod_cast Nat.lt_mul_of_div_lt (Nat.lt_succ_self _) h
  generalize hw : u / den = w at *
  generalize hq : w.log2 - f.fractionBits = q
  refine rounds_of_halfEven ?_ ?_ ?_
  · by_cases hlog : w.log2 ≤ f.fractionBits
    · exact .inl (by omega)
    · refine .inr (le_trans ?_ hle)
      have hne : w ≠ 0 := by
        rintro rfl
        simp at hlog
      have hexp : f.fractions * 2 ^ q = 2 ^ w.log2 := by
        rw [fractions_eq, ← pow_add]
        congr 1
        omega
      exact_mod_cast hexp.le.trans (Nat.log2_self_le hne)
  · have hexp : 2 ^ (w.log2 + 1) ≤ 2 * f.fractions * 2 ^ q := by
      rw [fractions_eq, ← pow_succ', ← pow_add]
      exact Nat.pow_le_pow_right two_pos (by omega)
    have hbound : w + 1 ≤ 2 * f.fractions * 2 ^ q := Nat.lt_of_lt_of_le Nat.lt_log2_self hexp
    have hbound' : (w + 1 : ℚ) ≤ 2 * f.fractions * 2 ^ q := by exact_mod_cast hbound
    linarith
  · have hhalf := roundHalfEven_halfEven u (by positivity : 0 < den * 2 ^ q)
    rw [div_div]
    exact_mod_cast hhalf

/-- A whole number times a power of a base rounds to the nearest magnitude, also where the power is
too far out of range to be formed. -/
theorem roundScaled_nearest (f : FloatFormat) (m : Nat) {base : Nat} (hb : 2 ≤ base) (e : ℤ) :
    f.Nearest (m * (base : ℚ) ^ e) (f.roundScaled m base e) := by
  have hbase : (2 : ℚ) ≤ base := by exact_mod_cast hb
  cases e with
  | ofNat n =>
      rw [roundScaled, Int.ofNat_eq_natCast, zpow_natCast]
      split
      · rename_i hm
        exact nearest_zero (by simp [hm])
      · rename_i hm
        split
        · rename_i hn
          refine nearest_infinity ?_
          calc (2 : ℚ) ^ (f.bias + 1) ≤ 2 ^ n := pow_le_pow_right₀ one_le_two hn
            _ ≤ base ^ n := pow_le_pow_left₀ zero_le_two hbase n
            _ ≤ m * base ^ n := le_mul_of_one_le_left (by positivity)
                (by exact_mod_cast Nat.one_le_iff_ne_zero.2 hm)
        · have h := f.round_nearest (m * base ^ n) one_pos
          simpa using h
  | negSucc n =>
      rw [roundScaled, zpow_negSucc, ← div_eq_mul_inv]
      split
      · rename_i hn
        refine nearest_zero ?_
        have hm : (m : ℚ) ≤ 2 ^ (m.log2 + 1) := by exact_mod_cast Nat.lt_log2_self.le
        have hpow : (2 : ℚ) ^ (n + 1) ≤ base ^ (n + 1) := pow_le_pow_left₀ zero_le_two hbase _
        have hpos : (0 : ℚ) < base ^ (n + 1) := by positivity
        rw [div_mul_eq_mul_div, mul_div_assoc', div_le_one hpos]
        calc (2 : ℚ) * (m * 2 ^ f.scale) ≤ 2 * (2 ^ (m.log2 + 1) * 2 ^ f.scale) := by gcongr
          _ = 2 ^ (m.log2 + f.scale + 2) := by ring
          _ ≤ 2 ^ (n + 1) := pow_le_pow_right₀ one_le_two (by omega)
          _ ≤ base ^ (n + 1) := hpow
      · have h := f.round_nearest m (by positivity : 0 < base ^ (n + 1))
        exact_mod_cast h

def Tells (M : Nat) (y : ℚ) : Prop := y = M ∨ (M % 2 = 1 ∧ 2 ^ 60 ≤ M ∧ |y - M| < 1)

section

variable {M : Nat} {d e : ℤ}

theorem Tells.le (h : Tells M y) (hM : M ≠ 0) : (2 ^ M.log2 : ℚ) ≤ y := by
  have hle := Nat.log2_self_le hM
  obtain rfl | ⟨hodd, hbig, hnear⟩ := h
  · exact_mod_cast hle
  · -- an odd mantissa is no power of two
    have hlog : 60 ≤ M.log2 := (Nat.le_log2 hM).2 hbig
    have heven : 2 ^ M.log2 % 2 = 0 := by
      rw [← Nat.sub_add_cancel (by omega : 1 ≤ M.log2), pow_succ]
      omega
    have hlt : (2 ^ M.log2 + 1 : ℚ) ≤ M := by exact_mod_cast (by omega : 2 ^ M.log2 + 1 ≤ M)
    linarith [(abs_lt.1 hnear).1]

theorem Tells.lt (h : Tells M y) : y < 2 ^ (M.log2 + 1) := by
  have hlt : (M + 1 : ℚ) ≤ 2 ^ (M.log2 + 1) := by exact_mod_cast Nat.lt_log2_self (n := M)
  obtain rfl | ⟨-, -, hnear⟩ := h
  · linarith
  · linarith [(abs_lt.1 hnear).2]

theorem Tells.small (h : Tells M y) (hM : M < 2 ^ 64) : |y| < 2 ^ 65 := by
  have hM' : (M : ℚ) < 2 ^ 64 := by exact_mod_cast hM
  have hM0 : (0 : ℚ) ≤ M := by positivity
  obtain rfl | ⟨-, -, hnear⟩ := h
  · rw [abs_of_nonneg hM0]
    linarith
  · have hnear := abs_lt.1 hnear
    rw [abs_lt]
    constructor <;> linarith

/-- Where at least two bits are dropped, the lowest bit stands for all that is below it. -/
theorem dropBits_halfEven (h : Tells M y) (hM : M < 2 ^ 64) (hd : y = M ∨ 2 ≤ d) :
    HalfEven (y / 2 ^ d) (dropBits M d) := by
  cases d with
  | negSucc s =>
      obtain rfl := hd.resolve_right (by omega)
      have heq : (M / 2 ^ Int.negSucc s : ℚ) = (M * 2 ^ (s + 1) : Nat) := by
        rw [zpow_negSucc, div_inv_eq_mul]
        push_cast
        rfl
      rw [dropBits, heq, Nat.pow_eq]
      exact .of_near (by simp)
  | ofNat n =>
      rw [dropBits, Int.ofNat_eq_natCast, zpow_natCast]
      split
      · rename_i hn
        have hpow : (2 : ℚ) ^ 128 ≤ 2 ^ n := pow_le_pow_right₀ one_le_two hn
        refine .of_near ?_
        rw [Nat.cast_zero, sub_zero, abs_div, abs_of_pos (by positivity : (0 : ℚ) < 2 ^ n),
          div_lt_iff₀ (by positivity)]
        linarith [h.small hM]
      · have hround := roundHalfEven_halfEven M (by positivity : 0 < 2 ^ n)
        push_cast at hround
        rw [Nat.pow_eq]
        obtain rfl | hn := hd
        · exact hround
        obtain rfl | ⟨hodd, -, hnear⟩ := h
        · exact hround
        obtain ⟨c, rfl⟩ : ∃ c, n = c + 2 := Nat.exists_eq_add_of_le' (Int.ofNat_le.1 hn)
        exact hround.of_odd hodd hnear

theorem rounds_of_powers {L k : ℤ} {q t : Nat} (hle : 2 ^ L ≤ y) (hlt : y < 2 ^ (L + 1))
    (hlow : q = 0 ∨ f.fractionBits + q ≤ L + k) (hhigh : L + k ≤ f.fractionBits + q)
    (h : HalfEven (y / 2 ^ (q - k : ℤ)) t) : f.Rounds (y * 2 ^ k) (q * f.fractions + t) := by
  have hpow : ∀ i j : ℤ, (2 : ℚ) ^ i * 2 ^ j = 2 ^ (i + j) := fun i j =>
    (zpow_add₀ two_ne_zero i j).symm
  have hpos : (0 : ℚ) < 2 ^ k := zpow_pos two_pos k
  have hfractions : (f.fractions * 2 ^ q : ℚ) = 2 ^ (f.fractionBits + q : ℤ) := by
    rw [fractions_eq, ← hpow, zpow_natCast, zpow_natCast, Nat.cast_pow, Nat.cast_two]
  refine rounds_of_halfEven (hlow.imp_right fun hl => ?_) ?_ ?_
  · calc (f.fractions * 2 ^ q : ℚ) = 2 ^ (f.fractionBits + q : ℤ) := hfractions
      _ ≤ 2 ^ (L + k) := zpow_le_zpow_right₀ one_le_two hl
      _ = 2 ^ L * 2 ^ k := (hpow L k).symm
      _ ≤ y * 2 ^ k := mul_le_mul_of_nonneg_right hle hpos.le
  · calc y * 2 ^ k ≤ 2 ^ (L + 1) * 2 ^ k := mul_le_mul_of_nonneg_right hlt.le hpos.le
      _ = 2 ^ (L + 1 + k) := hpow _ _
      _ ≤ 2 ^ (1 + (f.fractionBits + q) : ℤ) := zpow_le_zpow_right₀ one_le_two (by omega)
      _ = 2 * f.fractions * 2 ^ q := by rw [zpow_one_add₀ two_ne_zero, mul_assoc, hfractions]
  · rwa [zpow_sub₀ two_ne_zero, zpow_natCast, div_div_eq_mul_div] at h

theorem compose_nearest (f : FloatFormat) (h : Tells M y) (hM : M < 2 ^ 64) (e : ℤ) :
    f.Nearest (y * 2 ^ e) (f.compose M e) := by
  have hscale := f.scale_eq
  have hbits : f.fractionBits ≤ 52 := by cases f <;> decide
  rw [compose]
  split
  · rename_i hzero
    subst hzero
    obtain rfl | ⟨hodd, -⟩ := h
    · exact nearest_zero (by simp)
    · omega
  rename_i hM0
  have hle : (2 ^ (M.log2 : ℤ) : ℚ) ≤ y := by exact_mod_cast h.le hM0
  have hlt : y < (2 ^ (M.log2 + 1 : ℤ) : ℚ) := by exact_mod_cast h.lt
  dsimp only
  split
  · rename_i htop
    refine nearest_infinity ?_
    calc (2 : ℚ) ^ (f.bias + 1) = 2 ^ (f.bias + 1 : ℤ) := by exact_mod_cast rfl
      _ ≤ 2 ^ (M.log2 + e : ℤ) := zpow_le_zpow_right₀ one_le_two (by omega)
      _ = 2 ^ (M.log2 : ℤ) * 2 ^ e := zpow_add₀ two_ne_zero _ _
      _ ≤ y * 2 ^ e := mul_le_mul_of_nonneg_right hle (zpow_pos two_pos e).le
  rename_i htop
  have hdrop : y = M ∨ 2 ≤ max ((M.log2 : ℤ) - f.fractionBits)
      (1 - f.bias - f.fractionBits - e) := by
    refine h.imp_right ?_
    rintro ⟨-, hbig, -⟩
    have hlog : 60 ≤ M.log2 := (Nat.le_log2 hM0).2 hbig
    exact le_max_of_le_left (by omega)
  have hkept := dropBits_halfEven h hM hdrop
  have hX : y * 2 ^ e * 2 ^ f.scale = y * 2 ^ (e + f.scale) := by
    rw [mul_assoc, ← zpow_natCast, zpow_add₀ two_ne_zero]
  refine Rounds.nearest ?_
  rw [hX]
  split
  · rename_i hnormal
    -- the leading bit is kept, and the exponent field counts from the least normal one
    obtain ⟨q, hq⟩ : ∃ q : ℕ, e + M.log2 + f.bias - 1 = q :=
      Int.eq_ofNat_of_zero_le (by omega)
    have hd : (M.log2 - f.fractionBits : ℤ) = q - (e + f.scale) := by omega
    rw [max_eq_left (by omega)] at hkept ⊢
    rw [hq, Int.toNat_natCast]
    refine rounds_of_powers hle hlt (.inr (by omega)) (by omega) ?_
    rwa [← hd]
  · rename_i hsmall
    have hd : (1 - f.bias - f.fractionBits - e : ℤ) = (0 : Nat) - (e + f.scale) := by omega
    rw [max_eq_right (by omega)] at hkept ⊢
    rw [hd] at hkept ⊢
    simpa using rounds_of_powers hle hlt (.inl rfl) (by omega) hkept

end

end Packed.FloatFormat
