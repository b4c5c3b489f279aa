import Packed.Proofs.Float.Rounding
import Packed.Proofs.Text.Positional

namespace Packed

open Positional

namespace HexMantissa

/-- What is left of the number `n` of quanta `2 ^ e` when its last `late` digits found no room: the
digits before them, the lowest bit also set if not all of the late ones are zero. -/
structure Holds (a : HexMantissa) (n late : Nat) (e : ℤ) : Prop where
  mantissa : a.mantissa = n / 16 ^ late ||| if n % 16 ^ late = 0 then 0 else 1
  exponent : a.exponent = e + 4 * late
  full : 0 < late → 2 ^ 60 ≤ n / 16 ^ late
  fits : n / 16 ^ late < 2 ^ 64

variable {a b : HexMantissa} {n late d : Nat} {e : ℤ} {fraction : Bool} {cs : List Char}

theorem holds_zero (e : ℤ) : Holds ⟨0, e⟩ 0 0 e := ⟨rfl, by simp, nofun, by decide⟩

theorem or_one_eq (q : Nat) : q ||| 1 = 2 * (q / 2) + 1 := by
  have hdiv : (q ||| 1) / 2 = q / 2 := by simp [Nat.or_div_two]
  have hmod : (q ||| 1) % 2 = 1 := by simp [Nat.or_mod_two_eq_one]
  omega

def shifted (fraction : Bool) (k : Nat) (e : ℤ) : ℤ := if fraction then e - 4 * k else e

theorem Holds.between (h : a.Holds n late e) :
    n / 16 ^ late ≤ a.mantissa ∧ a.mantissa ≤ 2 * (n / 16 ^ late / 2) + 1 := by
  refine ⟨h.mantissa ▸ Nat.left_le_or, ?_⟩
  rw [h.mantissa]
  split
  · rw [Nat.or_zero]
    omega
  · rw [or_one_eq]

theorem Holds.late_eq_zero (h : a.Holds n late e) (hroom : a.mantissa < 2 ^ 60) :
    late = 0 ∧ a.mantissa = n := by
  have hlate : late = 0 := by
    by_contra hne
    have hfull := h.full (Nat.pos_of_ne_zero hne)
    have hle := h.between.1
    omega
  subst hlate
  exact ⟨rfl, by simpa [Nat.mod_one] using h.mantissa⟩

theorem Holds.push (h : a.Holds n late e) (hd : d < 16) (fraction : Bool) :
    ∃ later, (a.push fraction d).Holds (n * 16 + d) later (shifted fraction 1 e) := by
  have hexp := h.exponent
  rw [HexMantissa.push, Nat.pow_eq]
  split
  · rename_i hroom
    obtain ⟨rfl, hmantissa⟩ := h.late_eq_zero hroom
    refine ⟨0, ?_, ?_, nofun, ?_⟩
    · simp [hmantissa, Nat.mod_one, Nat.mul_comm]
    · cases fraction <;> simp [shifted, hexp]
    · rw [pow_zero, Nat.div_one]
      omega
  · rename_i hroom
    have hdiv : (n * 16 + d) / 16 ^ (late + 1) = n / 16 ^ late := by
      rw [pow_succ', ← Nat.div_div_eq_div_mul]
      congr 1
      omega
    have hmod : (n * 16 + d) % 16 ^ (late + 1) = 16 * (n % 16 ^ late) + d := by
      rw [pow_succ', Nat.mod_mul]
      have h1 : (n * 16 + d) % 16 = d := by omega
      have h2 : (n * 16 + d) / 16 = n := by omega
      rw [h1, h2, Nat.add_comm]
    refine ⟨late + 1, ?_, ?_, fun _ => ?_, hdiv ▸ h.fits⟩
    · rw [hdiv, hmod, h.mantissa, Nat.or_assoc]
      by_cases hrest : n % 16 ^ late = 0 <;> by_cases hzero : d = 0 <;> simp [hrest, hzero]
    · cases fraction <;> simp [shifted, hexp] <;> ring
    · rw [hdiv]
      have hle := h.between.2
      omega

theorem digits?_append_singleton (fraction : Bool) (a : HexMantissa) (cs : List Char) (c : Char) :
    digits? fraction a (cs ++ [c]) =
      (digits? fraction a cs).bind fun b => (Numeral.digit? 16 c).map (b.push fraction) := by
  rw [digits?, List.foldlM_append]
  exact congrArg _ (funext fun b => by simp)

theorem isDigits_of_digits? (h : digits? fraction a cs = some b) : IsDigits 16 cs := by
  induction cs using List.reverseRecOn generalizing b with
  | nil => exact isDigits_nil
  | append_singleton cs c ih =>
      rw [digits?_append_singleton, Option.bind_eq_some_iff] at h
      obtain ⟨b, hb, h⟩ := h
      obtain ⟨d, hd, -⟩ := Option.map_eq_some_iff.1 h
      exact isDigits_append.2 ⟨ih hb, isDigits_singleton.2 (by rw [hd]; rfl)⟩

theorem Holds.digits? (h : a.Holds n late e) (hcs : IsDigits 16 cs) (fraction : Bool) :
    ∃ b later, digits? fraction a cs = some b ∧
      b.Holds (n * 16 ^ cs.length + number 16 cs) later (shifted fraction cs.length e) := by
  induction cs using List.reverseRecOn with
  | nil =>
      refine ⟨a, late, rfl, ?_⟩
      simpa [shifted, number] using h
  | append_singleton cs c ih =>
      obtain ⟨hcs, hc⟩ := isDigits_append.1 hcs
      obtain ⟨b, later, hb, hholds⟩ := ih hcs
      obtain ⟨d, hd⟩ := Option.isSome_iff_exists.1 (isDigits_singleton.1 hc)
      have hlt : d < 16 := by simpa using (Option.filter_eq_some_iff.1 hd).2
      obtain ⟨last, hlast⟩ := hholds.push hlt fraction
      refine ⟨b.push fraction d, last, by rw [digits?_append_singleton, hb, Option.bind_some, hd]; rfl,
        ?_⟩
      have hnumber : n * 16 ^ (cs ++ [c]).length + number 16 (cs ++ [c]) =
          (n * 16 ^ cs.length + number 16 cs) * 16 + d := by
        rw [number_append, number_singleton, hd, Option.getD_some, List.length_append,
          List.length_singleton]
        ring
      have hshift : shifted fraction (cs ++ [c]).length e =
          shifted fraction 1 (shifted fraction cs.length e) := by
        cases fraction <;> simp [shifted]
        ring
      rwa [hnumber, hshift]

theorem Holds.tells (h : a.Holds n late e) : FloatFormat.Tells a.mantissa (n / 16 ^ late) := by
  have hpow : (0 : ℚ) < 16 ^ late := by positivity
  have hsplit := cast_div_eq n (by positivity : 0 < 16 ^ late)
  push_cast at hsplit
  rw [hsplit]
  by_cases hzero : n % 16 ^ late = 0
  · exact .inl (by simp [h.mantissa, hzero])
  · have hlate : 0 < late := by
      by_contra hnot
      obtain rfl : late = 0 := by omega
      exact hzero (Nat.mod_one n)
    have hfull := h.full hlate
    have hmantissa := h.mantissa
    rw [if_neg hzero, or_one_eq] at hmantissa
    generalize n / 16 ^ late = q at *
    have hrest : (0 : ℚ) < (n % 16 ^ late : Nat) := by exact_mod_cast Nat.pos_of_ne_zero hzero
    have hr : (0 : ℚ) < (n % 16 ^ late : Nat) / 16 ^ late := div_pos hrest hpow
    have hr' : ((n % 16 ^ late : Nat) / 16 ^ late : ℚ) < 1 := by
      rw [div_lt_one hpow]
      exact_mod_cast Nat.mod_lt n (by positivity : 0 < 16 ^ late)
    have hlow : (q : ℚ) ≤ a.mantissa := by exact_mod_cast (by omega : q ≤ a.mantissa)
    have hhigh : (a.mantissa : ℚ) ≤ q + 1 := by exact_mod_cast (by omega : a.mantissa ≤ q + 1)
    refine .inr ⟨by omega, by omega, ?_⟩
    rw [abs_lt]
    constructor <;> linarith

theorem Holds.mantissa_lt (h : a.Holds n late e) : a.mantissa < 2 ^ 64 := by
  have hle := h.between.2
  have hfits := h.fits
  omega

theorem Holds.mul_zpow (h : a.Holds n late e) :
    (n : ℚ) * 2 ^ e = n / 16 ^ late * 2 ^ a.exponent := by
  rw [h.exponent, zpow_add₀ two_ne_zero, zpow_mul, zpow_natCast]
  norm_num
  field_simp

end HexMantissa

namespace FloatFormat

variable (f : FloatFormat)

theorem compose_le (M : Nat) (e : ℤ) : f.compose M e ≤ f.infinity := by
  rw [compose]
  split
  · exact Nat.zero_le _
  · dsimp only
    split
    · exact le_rfl
    · exact Nat.min_le_right _ _

theorem hexadecimal?_chars (l : Literal hexadecimal) : ∃ (a : HexMantissa) (late : Nat),
    f.hexadecimal? l.chars = some (f.compose a.mantissa a.exponent) ∧
      a.Holds (number 16 l.digits) late (l.exponent - 4 * l.places) := by
  have hexponent : (l.power.map (·.2.chars)).elim (some 0) shortExponent? = some l.exponent := by
    rw [Literal.exponent]
    cases hp : l.power with
    | none => rfl
    | some m => exact Exponent.shortExponent?_eq_some_iff.2 ⟨m.2, rfl, rfl, l.admits m hp⟩
  have hpositional := l.positional?_chars hexponent
  obtain ⟨a, before, ha, hwhole⟩ :=
    (HexMantissa.holds_zero l.exponent).digits? l.isDigits_whole false
  obtain ⟨b, after, hb, hholds⟩ := hwhole.digits? l.isDigits_fraction true
  refine ⟨b, after, ?_, ?_⟩
  · simp only [hexadecimal?, Option.bind_eq_bind]
    change (positional? hexadecimal.isMark shortExponent? l.chars).bind _ = _
    rw [hpositional, Option.bind_some, ha, Option.bind_some, hb, Option.bind_some]
  · simpa [HexMantissa.shifted, Literal.digits, Literal.places, number_append] using hholds

/-- A hexadecimal literal of any length is read as the magnitude nearest to its number, ties to
even. -/
theorem hexadecimal?_nearest (l : Literal hexadecimal) :
    ∃ m, f.hexadecimal? l.chars = some m ∧ f.Nearest l.value m := by
  obtain ⟨a, late, ha, hholds⟩ := f.hexadecimal?_chars l
  have hvalue : l.value = number 16 l.digits / 16 ^ late * 2 ^ a.exponent := by
    rw [← hholds.mul_zpow, Literal.value, zpow_sub₀ two_ne_zero, zpow_mul, zpow_natCast]
    norm_num [hexadecimal]
    ring
  rw [hvalue]
  exact ⟨_, ha, compose_nearest f hholds.tells hholds.mantissa_lt a.exponent⟩

variable {f} {cs : List Char} {m : Nat}

theorem exists_literal_of_hexadecimal? (h : f.hexadecimal? cs = some m) :
    ∃ l : Literal hexadecimal, l.chars = cs := by
  simp only [hexadecimal?, Option.bind_eq_bind, Option.bind_eq_some_iff] at h
  obtain ⟨⟨whole, fraction, e⟩, hparts, a, ha, b, hb, -⟩ := h
  refine exists_literal (s := hexadecimal) hparts (fun cs e he => ?_)
    (HexMantissa.isDigits_of_digits? ha) (HexMantissa.isDigits_of_digits? hb)
  obtain ⟨p, hp, rfl, hrange⟩ := Exponent.shortExponent?_eq_some_iff.1 he
  exact ⟨p, hp, hrange⟩

end FloatFormat

end Packed
