import Mathlib.Algebra.Order.Field.Rat
import Mathlib.Algebra.Order.Ring.Abs
import Mathlib.Order.Monotone.Basic
import Mathlib.Tactic.FieldSimp
import Mathlib.Tactic.Linarith
import Mathlib.Tactic.Positivity
import Mathlib.Tactic.Ring
import Packed.FloatFormat

namespace Packed

theorem abs_sub_le_abs_sub_iff {x a b : ℚ} (h : a < b) : |x - b| ≤ |x - a| ↔ a + b ≤ 2 * x := by
  rw [← sq_le_sq]
  constructor <;> intro hx <;> nlinarith

theorem abs_sub_le_abs_sub_iff' {x a b : ℚ} (h : a < b) : |x - a| ≤ |x - b| ↔ 2 * x ≤ a + b := by
  rw [← sq_le_sq]
  constructor <;> intro hx <;> nlinarith

structure HalfEven (y : ℚ) (n : Nat) : Prop where
  near : |y - n| ≤ 1 / 2
  even : |y - n| = 1 / 2 → n % 2 = 0

namespace HalfEven

variable {y c : ℚ} {n k : Nat}

theorem of_near (h : |y - n| < 1 / 2) : HalfEven y n := ⟨h.le, fun he => absurd he h.ne⟩

theorem eq_of_near (h : HalfEven y n) (hk : |y - k| < 1 / 2) : n = k := by
  have hn := abs_le.1 h.near
  have hy := abs_lt.1 hk
  have hlt : (n : ℚ) < k + 1 := by linarith
  have hgt : (k : ℚ) < n + 1 := by linarith
  have hlt' : n < k + 1 := by exact_mod_cast hlt
  have hgt' : k < n + 1 := by exact_mod_cast hgt
  omega

theorem le_of_le (h : HalfEven y n) (hy : y ≤ k) : n ≤ k := by
  have hn := abs_le.1 h.near
  have hlt : (n : ℚ) < k + 1 := by linarith
  have hlt' : n < k + 1 := by exact_mod_cast hlt
  omega

theorem ge_of_ge (h : HalfEven y n) (hy : k ≤ y) : k ≤ n := by
  have hn := abs_le.1 h.near
  have hlt : (k : ℚ) < n + 1 := by linarith
  have hlt' : k < n + 1 := by exact_mod_cast hlt
  omega

theorem below (h : HalfEven y (n + 1)) (hc : 0 < c) : n * c + (n + 1) * c ≤ 2 * (y * c) ∧
    (n * c + (n + 1) * c = 2 * (y * c) → (n + 1) % 2 = 0) := by
  have hnear := abs_le.1 h.near
  have heven := h.even
  push_cast at hnear heven
  refine ⟨by nlinarith, fun he => heven ?_⟩
  have hzero : (y - (n + 1) + 1 / 2) * c = 0 := by linarith
  have hy : y - (n + 1) = -(1 / 2) := by linarith [(mul_eq_zero.1 hzero).resolve_right hc.ne']
  rw [hy]
  norm_num

theorem above (h : HalfEven y n) (hc : 0 < c) : 2 * (y * c) ≤ n * c + (n + 1) * c ∧
    (2 * (y * c) = n * c + (n + 1) * c → n % 2 = 0) := by
  have hnear := abs_le.1 h.near
  refine ⟨by nlinarith, fun he => h.even ?_⟩
  have hzero : (y - n - 1 / 2) * c = 0 := by linarith
  have hy : y - n = 1 / 2 := by linarith [(mul_eq_zero.1 hzero).resolve_right hc.ne']
  rw [hy]
  norm_num

theorem of_odd {M p : Nat} (h : HalfEven (M / 2 ^ (p + 2)) n) (hodd : M % 2 = 1)
    (hnear : |y - M| < 1) : HalfEven (y / 2 ^ (p + 2)) n := by
  have hp : (0 : ℚ) < 2 ^ (p + 2) := by positivity
  have hhalf : (1 / 2 * 2 ^ (p + 2) : ℚ) = 2 * 2 ^ p := by ring
  have hscaled : ∀ z : ℚ, |z / 2 ^ (p + 2) - n| * 2 ^ (p + 2) = |z - n * 2 ^ (p + 2)| := fun z => by
    rw [← abs_of_pos hp, ← abs_mul, abs_of_pos hp, sub_mul, div_mul_cancel₀ _ hp.ne']
  have hle : |(M : ℚ) - n * 2 ^ (p + 2)| ≤ 2 * 2 ^ p := by
    rw [← hscaled, ← hhalf]
    exact mul_le_mul_of_nonneg_right h.near hp.le
  -- the number lies at no halfway point, nor within one of it
  have hlt : |(M : ℤ) - n * 2 ^ (p + 2)| ≤ 2 * 2 ^ p - 1 := by
    have hle : |(M : ℤ) - n * 2 ^ (p + 2)| ≤ 2 * 2 ^ p := by exact_mod_cast hle
    have hparity : (n * 2 ^ (p + 2) : ℤ) = 4 * (n * 2 ^ p) := by ring
    rw [hparity] at hle ⊢
    generalize (n * 2 ^ p : ℤ) = s at *
    generalize (2 ^ p : ℤ) = r at *
    rw [abs_le] at hle ⊢
    omega
  have hlt' : |(M : ℚ) - n * 2 ^ (p + 2)| ≤ 2 * 2 ^ p - 1 := by exact_mod_cast hlt
  have hsum := abs_add_le (y - M) (M - n * 2 ^ (p + 2))
  rw [sub_add_sub_cancel] at hsum
  refine .of_near ?_
  rw [← mul_lt_mul_iff_left₀ hp, hscaled, hhalf]
  linarith

end HalfEven

theorem cast_div_eq (num : Nat) {den : Nat} (h : 0 < den) :
    (num / den : ℚ) = (num / den : Nat) + (num % den : Nat) / den := by
  have hden : (den : ℚ) ≠ 0 := by exact_mod_cast h.ne'
  have hsplit : (num : ℚ) = den * (num / den : Nat) + (num % den : Nat) := by
    exact_mod_cast (Nat.div_add_mod num den).symm
  rw [hsplit]
  field_simp

theorem roundHalfEven_halfEven (num : Nat) {den : Nat} (h : 0 < den) :
    HalfEven (num / den : ℚ) (roundHalfEven num den) := by
  have hden : (0 : ℚ) < den := by exact_mod_cast h
  have hmod : num % den < den := Nat.mod_lt _ h
  rw [roundHalfEven, cast_div_eq num h]
  generalize num / den = q at *
  generalize num % den = r at *
  split
  · -- rounded up, since the rest is more than half, or half of it and the quotient odd
    rename_i hup
    have hle : den ≤ 2 * r := by omega
    have hr : (1 / 2 : ℚ) ≤ r / den := by
      rw [div_le_div_iff₀ two_pos hden]
      exact_mod_cast (by omega : 1 * den ≤ r * 2)
    have hr' : (r / den : ℚ) < 1 := by
      rw [div_lt_one hden]
      exact_mod_cast hmod
    have habs : |(q : ℚ) + r / den - ((q + 1 : Nat) : ℚ)| = 1 - r / den := by
      push_cast
      rw [abs_of_nonpos (by linarith)]
      ring
    refine ⟨by rw [habs]; linarith, fun he => ?_⟩
    have hhalf : (r / den : ℚ) = 1 / 2 := by rw [habs] at he; linarith
    rw [div_eq_div_iff hden.ne' two_ne_zero] at hhalf
    have hhalf' : r * 2 = 1 * den := by exact_mod_cast hhalf
    omega
  · rename_i hdown
    have hle : 2 * r ≤ den := by omega
    have hr : (r / den : ℚ) ≤ 1 / 2 := by
      rw [div_le_div_iff₀ hden two_pos]
      exact_mod_cast (by omega : r * 2 ≤ 1 * den)
    have hr' : (0 : ℚ) ≤ r / den := by positivity
    have habs : |(q : ℚ) + r / den - q| = r / den := by
      rw [add_sub_cancel_left, abs_of_nonneg hr']
    refine ⟨by rw [habs]; exact hr, fun he => ?_⟩
    rw [habs, div_eq_div_iff hden.ne' two_ne_zero] at he
    have hhalf : r * 2 = 1 * den := by exact_mod_cast he
    omega

namespace FloatFormat

def units (f : FloatFormat) (m : Nat) : Nat := f.significand m * 2 ^ f.quantum m

/-- The number that a magnitude stands for. An infinity stands for the number that would come after
the greatest finite one. -/
def value (f : FloatFormat) (m : Nat) : ℚ := f.units m / 2 ^ f.scale

/-- `m` is the magnitude nearest to `x`, and the even one of two that are equally near. -/
structure Nearest (f : FloatFormat) (x : ℚ) (m : Nat) : Prop where
  le : m ≤ f.infinity
  nearest : ∀ k ≤ f.infinity, |x - f.value m| ≤ |x - f.value k|
  even : ∀ k ≤ f.infinity, k ≠ m → |x - f.value k| = |x - f.value m| → m % 2 = 0

variable (f : FloatFormat)

theorem fractions_eq : f.fractions = 2 ^ f.fractionBits := rfl

theorem fractions_pos : 0 < f.fractions := Nat.two_pow_pos _

theorem fractions_even : f.fractions % 2 = 0 := by cases f <;> decide

theorem mul_add_mod_two (q t : Nat) : (q * f.fractions + t) % 2 = t % 2 := by
  rw [Nat.add_mod, Nat.mul_mod, f.fractions_even]
  simp

theorem significand_lt (m : Nat) : f.significand m < 2 * f.fractions := by
  have hpos := f.fractions_pos
  have hmod := Nat.mod_lt m hpos
  rw [significand]
  split <;> omega

theorem quantum_eq_zero_or (m : Nat) : f.quantum m = 0 ∨ f.fractions ≤ f.significand m := by
  rw [quantum, significand]
  split
  · rename_i h
    exact .inl (by rw [Nat.div_eq_of_lt h])
  · exact .inr (Nat.le_add_left _ _)

theorem quantum_mul_add (m : Nat) : f.quantum m * f.fractions + f.significand m = m := by
  rw [quantum, significand]
  split
  · rename_i h
    simp [Nat.div_eq_of_lt h]
  · rename_i h
    have hone : 1 ≤ m / f.fractions := (Nat.le_div_iff_mul_le f.fractions_pos).2 (by omega)
    have hle : f.fractions ≤ m / f.fractions * f.fractions := Nat.le_mul_of_pos_left _ hone
    have hdiv := Nat.div_add_mod' m f.fractions
    rw [Nat.sub_mul]
    omega

theorem units_mul_add {q t : Nat} (hq : q = 0 ∨ f.fractions ≤ t) (ht : t ≤ 2 * f.fractions) :
    f.units (q * f.fractions + t) = t * 2 ^ q := by
  have hpos := f.fractions_pos
  obtain hlt | rfl := Nat.lt_or_eq_of_le ht
  · by_cases hsmall : t < f.fractions
    · obtain rfl : q = 0 := by omega
      rw [units, significand, quantum, Nat.zero_mul, Nat.zero_add, if_pos hsmall,
        Nat.div_eq_of_lt hsmall]
    · obtain ⟨s, rfl⟩ := Nat.exists_eq_add_of_le (Nat.le_of_not_lt hsmall)
      have hm : q * f.fractions + (f.fractions + s) = s + (q + 1) * f.fractions := by ring
      have hs : s < f.fractions := by omega
      rw [units, significand, quantum, hm, if_neg (by nlinarith), Nat.add_mul_mod_self_right,
        Nat.add_mul_div_right _ _ hpos, Nat.mod_eq_of_lt hs, Nat.div_eq_of_lt hs, Nat.zero_add,
        Nat.add_sub_cancel, Nat.add_comm]
  · have hm : q * f.fractions + 2 * f.fractions = (q + 2) * f.fractions := by ring
    rw [units, significand, quantum, hm, if_neg (by nlinarith), Nat.mul_mod_left,
      Nat.mul_div_cancel _ hpos, Nat.zero_add]
    change f.fractions * 2 ^ (q + 1) = _
    ring

theorem units_succ (m : Nat) : f.units (m + 1) = f.units m + 2 ^ f.quantum m := by
  have hlt := f.significand_lt m
  have hm : m + 1 = f.quantum m * f.fractions + (f.significand m + 1) := by
    have h := f.quantum_mul_add m
    omega
  rw [hm, f.units_mul_add ((f.quantum_eq_zero_or m).imp_right Nat.le_succ_of_le) hlt,
    Nat.succ_mul, units]

theorem le_quantum {q t : Nat} (hq : q = 0 ∨ f.fractions ≤ t) :
    q ≤ f.quantum (q * f.fractions + t) := by
  obtain rfl | ht := hq
  · exact Nat.zero_le _
  · have hle : q + 1 ≤ (q * f.fractions + t) / f.fractions := by
      rw [Nat.le_div_iff_mul_le f.fractions_pos, Nat.succ_mul]
      exact Nat.add_le_add_left ht _
    exact Nat.le_sub_one_of_lt hle

theorem units_strictMono : StrictMono f.units := by
  refine strictMono_nat_of_lt_succ fun m => ?_
  rw [units_succ]
  exact Nat.lt_add_of_pos_right (Nat.two_pow_pos _)

variable {f} {x : ℚ} {m n : Nat}

theorem abs_sub_value (f : FloatFormat) (x : ℚ) (k : Nat) :
    |x - f.value k| = |x * 2 ^ f.scale - f.units k| / 2 ^ f.scale := by
  have hscale : (0 : ℚ) < 2 ^ f.scale := by positivity
  rw [eq_div_iff hscale.ne', ← abs_of_pos hscale, ← abs_mul, abs_of_pos hscale, sub_mul, value,
    div_mul_cancel₀ _ hscale.ne']

/-- A magnitude is nearest if no halfway point lies between it and the number. -/
theorem nearest_of_halves (hm : m ≤ f.infinity)
    (hbelow : ∀ k < m, (f.units k + f.units m : ℚ) ≤ 2 * (x * 2 ^ f.scale) ∧
      ((f.units k + f.units m : ℚ) = 2 * (x * 2 ^ f.scale) → m % 2 = 0))
    (habove : ∀ k ≤ f.infinity, m < k → 2 * (x * 2 ^ f.scale) ≤ (f.units m + f.units k : ℚ) ∧
      (2 * (x * 2 ^ f.scale) = (f.units m + f.units k : ℚ) → m % 2 = 0)) : f.Nearest x m := by
  have hscale : (0 : ℚ) < 2 ^ f.scale := by positivity
  have hlt : ∀ {j k : Nat}, j < k → (f.units j : ℚ) < f.units k := fun hjk => by
    exact_mod_cast f.units_strictMono hjk
  refine ⟨hm, fun k hk => ?_, fun k hk hne he => ?_⟩
  · rw [abs_sub_value, abs_sub_value, div_le_div_iff_of_pos_right hscale]
    obtain h | rfl | h := Nat.lt_trichotomy k m
    · exact (abs_sub_le_abs_sub_iff (hlt h)).2 (hbelow k h).1
    · exact le_rfl
    · exact (abs_sub_le_abs_sub_iff' (hlt h)).2 (habove k hk h).1
  · rw [abs_sub_value, abs_sub_value, div_left_inj' hscale.ne'] at he
    obtain h | h := Nat.lt_or_gt_of_ne hne
    · exact (hbelow k h).2 (le_antisymm (hbelow k h).1
        ((abs_sub_le_abs_sub_iff' (hlt h)).1 he.le))
    · exact (habove k hk h).2 (le_antisymm (habove k hk h).1
        ((abs_sub_le_abs_sub_iff (hlt h)).1 he.le))

theorem Nearest.unique (hm : f.Nearest x m) (hn : f.Nearest x n) : m = n := by
  by_contra hne
  wlog hlt : m < n generalizing m n
  · exact this hn hm (Ne.symm hne) (by omega)
  have hscale : (0 : ℚ) < 2 ^ f.scale := by positivity
  have hsame := le_antisymm (hm.nearest n hn.le) (hn.nearest m hm.le)
  have hmeven := hm.even n hn.le (Ne.symm hne) hsame.symm
  have hneven := hn.even m hm.le hne hsame
  -- between two even magnitudes there is an odd one, which would be nearer than both
  have hmid : m + 1 < n := by omega
  have hnear := hm.nearest (m + 1) (by have := hn.le; omega)
  have hfar := hn.nearest (m + 1) (by have := hn.le; omega)
  have h1 : (f.units m : ℚ) < f.units (m + 1) := by
    exact_mod_cast f.units_strictMono (Nat.lt_succ_self m)
  have h2 : (f.units (m + 1) : ℚ) < f.units n := by exact_mod_cast f.units_strictMono hmid
  rw [abs_sub_value, abs_sub_value, div_le_div_iff_of_pos_right hscale] at hnear hfar
  rw [abs_sub_le_abs_sub_iff' h1] at hnear
  rw [abs_sub_le_abs_sub_iff h2] at hfar
  linarith

structure Rounds (f : FloatFormat) (X : ℚ) (n : Nat) : Prop where
  below : ∀ k, n = k + 1 → (f.units k + f.units n : ℚ) ≤ 2 * X ∧
    ((f.units k + f.units n : ℚ) = 2 * X → n % 2 = 0)
  above : 2 * X ≤ (f.units n + f.units (n + 1) : ℚ) ∧
    (2 * X = (f.units n + f.units (n + 1) : ℚ) → n % 2 = 0)

theorem Rounds.nearest (h : f.Rounds (x * 2 ^ f.scale) n) : f.Nearest x (min n f.infinity) := by
  have hmono := f.units_strictMono
  refine nearest_of_halves (Nat.min_le_right _ _) (fun k hk => ?_) (fun k hk hlt => ?_)
  · obtain ⟨j, rfl⟩ : ∃ j, n = j + 1 := Nat.exists_eq_succ_of_ne_zero (by omega)
    obtain ⟨hle, heven⟩ := h.below j rfl
    have hkj : f.units k ≤ f.units j := hmono.monotone (by omega)
    have hmn : f.units (min (j + 1) f.infinity) ≤ f.units (j + 1) := hmono.monotone (by omega)
    have hsum : (f.units k + f.units (min (j + 1) f.infinity) : ℚ) ≤ f.units j + f.units (j + 1) := by
      exact_mod_cast Nat.add_le_add hkj hmn
    refine ⟨hsum.trans hle, fun he => ?_⟩
    have hsame : f.units k + f.units (min (j + 1) f.infinity) = f.units j + f.units (j + 1) := by
      exact_mod_cast le_antisymm hsum (by rw [he]; exact hle)
    have hmin : min (j + 1) f.infinity = j + 1 := hmono.injective (by omega)
    rw [hmin]
    refine heven (le_antisymm hle ?_)
    rw [← he]
    exact_mod_cast hsame.le
  · have hmin : min n f.infinity = n := by omega
    rw [hmin] at hlt ⊢
    have hk : (f.units (n + 1) : ℚ) ≤ f.units k := by exact_mod_cast hmono.monotone hlt
    refine ⟨by linarith [h.above.1], fun he => h.above.2 (le_antisymm h.above.1 ?_)⟩
    rw [he]
    linarith

theorem count_of_halfEven {X : ℚ} {q t : Nat} (hlow : q = 0 ∨ (f.fractions * 2 ^ q : ℚ) ≤ X)
    (hhigh : X ≤ 2 * f.fractions * 2 ^ q) (h : HalfEven (X / 2 ^ q) t) :
    (q = 0 ∨ f.fractions ≤ t) ∧ t ≤ 2 * f.fractions := by
  have hq : (0 : ℚ) < 2 ^ q := by positivity
  constructor
  · refine hlow.imp_right fun hl => h.ge_of_ge ?_
    rwa [le_div_iff₀ hq]
  · refine h.le_of_le ?_
    rw [div_le_iff₀ hq]
    exact_mod_cast hhigh

theorem rounds_of_halfEven {X : ℚ} {q t : Nat} (hlow : q = 0 ∨ (f.fractions * 2 ^ q : ℚ) ≤ X)
    (hhigh : X ≤ 2 * f.fractions * 2 ^ q) (h : HalfEven (X / 2 ^ q) t) :
    f.Rounds X (q * f.fractions + t) := by
  have hq : (0 : ℚ) < 2 ^ q := by positivity
  have hX : X = X / 2 ^ q * 2 ^ q := (div_mul_cancel₀ X hq.ne').symm
  obtain ⟨hleast, htop⟩ := count_of_halfEven hlow hhigh h
  have hunits := f.units_mul_add hleast htop
  constructor
  · intro k hk
    by_cases hedge : q = 0 ∨ f.fractions < t
    · -- the magnitude below lies one quantum away
      obtain ⟨s, rfl⟩ : ∃ s, t = s + 1 := Nat.exists_eq_succ_of_ne_zero (by
        rintro rfl
        obtain rfl | hlt := hedge
        · simp at hk
        · exact absurd hlt (Nat.not_lt_zero _))
      obtain rfl : k = q * f.fractions + s := by omega
      have hprev := f.units_mul_add (hedge.imp_right Nat.le_of_lt_succ) (Nat.le_of_succ_le htop)
      rw [hunits, hprev, mul_add_mod_two, hX]
      exact_mod_cast h.below hq
    · -- the magnitude below belongs to a smaller quantum, and the number is not below this one
      have hpos := f.fractions_pos
      have hl := hlow.resolve_left fun h0 => hedge (.inl h0)
      obtain rfl : t = f.fractions := by omega
      have hlt : (f.units k : ℚ) < f.units (q * f.fractions + f.fractions) := by
        exact_mod_cast f.units_strictMono (by omega)
      rw [hunits] at hlt ⊢
      push_cast at hlt ⊢
      exact ⟨by linarith, fun he => absurd he (by linarith)⟩
  · have hnext : (t * 2 ^ q + 2 ^ q : ℚ) ≤ f.units (q * f.fractions + t + 1) := by
      rw [units_succ, hunits]
      exact_mod_cast Nat.add_le_add_left (Nat.pow_le_pow_right two_pos (f.le_quantum hleast)) _
    have habove := h.above hq
    rw [← hX] at habove
    rw [hunits, mul_add_mod_two]
    push_cast
    exact ⟨by linarith, fun he => habove.2 (by linarith)⟩

end FloatFormat

end Packed
