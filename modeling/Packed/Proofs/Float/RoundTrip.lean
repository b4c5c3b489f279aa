import Packed.Proofs.Float.Digits
import Packed.Proofs.Float.Grammar
import Packed.Proofs.Text.Tokens

namespace Packed

open Positional

namespace FloatFormat

variable {f : FloatFormat} {y : ℚ} {m : Nat}

theorem two_fractions_lt (f : FloatFormat) : 2 * f.fractions < 10 ^ (f.decimalDigits - 1) := by
  cases f <;> decide

theorem units_succ_lt (f : FloatFormat) (k : Nat) :
    f.units (k + 1) < 10 ^ (f.decimalDigits - 1) * 2 ^ f.quantum k :=
  calc f.units (k + 1) = (f.significand k + 1) * 2 ^ f.quantum k := by
        rw [units_succ, units, Nat.succ_mul]
    _ ≤ 2 * f.fractions * 2 ^ f.quantum k := Nat.mul_le_mul_right _ (f.significand_lt k)
    _ < 10 ^ (f.decimalDigits - 1) * 2 ^ f.quantum k :=
        Nat.mul_lt_mul_of_pos_right f.two_fractions_lt (by positivity)

/-- Even below the least magnitude of a quantum, where neighbours are closer than above. -/
theorem nearest_of_near (hm : m ≤ f.infinity)
    (h : |f.value m - y| ≤ f.value m / (2 * 10 ^ (f.decimalDigits - 1))) : f.Nearest y m := by
  have hscale : (0 : ℚ) < 2 ^ f.scale := by positivity
  have hX : |(f.units m : ℚ) - y * 2 ^ f.scale| ≤ f.units m / (2 * 10 ^ (f.decimalDigits - 1)) := by
    rw [abs_sub_comm, abs_sub_value, abs_sub_comm, value, div_right_comm,
      div_le_div_iff_of_pos_right hscale] at h
    exact h
  cases m with
  | zero =>
      have hzero : f.units 0 = 0 := by simp [units, significand, f.fractions_pos]
      rw [hzero, Nat.cast_zero, zero_div, zero_sub, abs_neg, abs_nonpos_iff] at hX
      exact nearest_zero (by rw [hX]; norm_num)
  | succ k =>
      have hsucc : (f.units (k + 1) : ℚ) = f.units k + 2 ^ f.quantum k := by
        exact_mod_cast f.units_succ k
      have hnext : (f.units (k + 1 + 1) : ℚ) = f.units (k + 1) + 2 ^ f.quantum (k + 1) := by
        exact_mod_cast f.units_succ (k + 1)
      have hquantum : (2 : ℚ) ^ f.quantum k ≤ 2 ^ f.quantum (k + 1) :=
        pow_le_pow_right₀ one_le_two (Nat.sub_le_sub_right (Nat.div_le_div_right (Nat.le_succ k)) 1)
      have herror : |(f.units (k + 1) : ℚ) - y * 2 ^ f.scale| < 2 ^ f.quantum k / 2 := by
        have hunits : (f.units (k + 1) : ℚ) < 10 ^ (f.decimalDigits - 1) * 2 ^ f.quantum k := by
          exact_mod_cast f.units_succ_lt k
        refine hX.trans_lt ?_
        rw [div_lt_iff₀ (by positivity)]
        linarith
      obtain ⟨hlow, hhigh⟩ := abs_lt.1 herror
      have hrounds : f.Rounds (y * 2 ^ f.scale) (k + 1) := by
        refine ⟨fun j hj => ?_, ?_⟩
        · obtain rfl : k = j := Nat.succ.inj hj
          exact ⟨by linarith, fun he => absurd he (by linarith)⟩
        · rw [hnext]
          exact ⟨by linarith, fun he => absurd he (by linarith)⟩
      exact Nat.min_eq_left hm ▸ hrounds.nearest

theorem value_lt (hm : m < f.infinity) : f.value m < 2 ^ (f.bias + 1) := by
  have hunits : (f.units m : ℚ) < 2 ^ (f.bias + 1 + f.scale) := by
    have h := f.units_strictMono hm
    rw [f.units_infinity] at h
    exact_mod_cast h
  rw [value, div_lt_iff₀ (by positivity), ← pow_add]
  exact hunits

theorem le_value (hm : 0 < m) : 1 / 2 ^ f.scale ≤ f.value m := by
  have hunits : (1 : ℚ) ≤ f.units m := by
    have h := f.units_strictMono hm
    exact_mod_cast (by omega : 1 ≤ f.units m)
  rw [value]
  gcongr

theorem eq_append_zeros (fraction : List Char) : ∃ k, fraction =
    (fraction.reverse.dropWhile (· == '0')).reverse ++ List.replicate k '0' := by
  have hzeros : fraction.reverse.takeWhile (· == '0') =
      List.replicate (fraction.reverse.takeWhile (· == '0')).length '0' :=
    List.eq_replicate_of_mem fun c hc => by simpa using List.mem_takeWhile_imp hc
  refine ⟨(fraction.reverse.takeWhile (· == '0')).length, ?_⟩
  rw [← List.reverse_replicate, ← hzeros, ← List.reverse_append, List.takeWhile_append_dropWhile,
    List.reverse_reverse]

theorem exists_pointed {whole fraction : List Char} (hw : IsDigits 10 whole) (hne : whole ≠ [])
    (hf : IsDigits 10 fraction) (power : Option (Char × Exponent))
    (hmark : ∀ m ∈ power, Positional.decimal.isMark m.1 = true) : ∃ l : Literal Positional.decimal,
      l.chars = pointed whole fraction ++ power.elim [] (fun m => m.1 :: m.2.chars) ∧
      l.power = power ∧ l.value = number 10 (whole ++ fraction) / 10 ^ fraction.length *
        10 ^ (power.elim 0 (·.2.value) : ℤ) := by
  obtain ⟨k, hk⟩ := eq_append_zeros fraction
  generalize hkept : (fraction.reverse.dropWhile (· == '0')).reverse = kept at hk
  subst hk
  obtain ⟨tail, rfl, htail⟩ : ∃ tail : Option (List Char), tail.getD [] = kept ∧
      pointed whole (kept ++ List.replicate k '0') = whole ++ tail.elim [] ('.' :: ·) := by
    rw [pointed, hkept]
    cases kept with
    | nil => exact ⟨none, rfl, (List.append_nil _).symm⟩
    | cons c cs => exact ⟨some (c :: cs), rfl, rfl⟩
  have hnumber : number 10 (whole ++ (tail.getD [] ++ List.replicate k '0')) =
      number 10 (whole ++ tail.getD []) * 10 ^ k := by
    rw [← List.append_assoc, number_append, number_replicate_zero, List.length_replicate,
      Nat.add_zero]
  refine ⟨⟨whole, tail, power, hw, (isDigits_append.1 hf).1, by simp [hne], hmark,
    fun _ _ => trivial⟩, ?_, rfl, ?_⟩
  · rw [htail]
    rfl
  · change (number 10 (whole ++ tail.getD []) : ℚ) / (10 : Nat) ^ (tail.getD []).length *
      (10 : Nat) ^ (power.elim 0 (·.2.value) : ℤ) = _
    rw [hnumber, List.length_append, List.length_replicate, pow_add]
    push_cast
    field_simp

theorem exponentChars_eq (e : ℤ) : ∃ p : Exponent, exponentChars e = 'e' :: p.chars ∧ p.value = e ∧
    number 10 p.digits = e.natAbs := by
  have hpad : number 10 ('0' :: Nat.toDigits 10 e.natAbs) = e.natAbs := by
    have hzero : number 10 ['0'] = 0 := number_replicate_zero 1
    rw [← List.singleton_append, number_append, hzero, number_toDigits, Nat.zero_mul, Nat.zero_add]
  obtain ⟨ds, hds, hne, hdigits, hnumber⟩ : ∃ ds : List Char,
      (if (Nat.toDigits 10 e.natAbs).length < 2 then '0' :: Nat.toDigits 10 e.natAbs
        else Nat.toDigits 10 e.natAbs) = ds ∧
      ds ≠ [] ∧ IsDigits 10 ds ∧ number 10 ds = e.natAbs := by
    split
    · exact ⟨_, rfl, List.cons_ne_nil _ _,
        isDigits_append.2 ⟨isDigits_replicate 1, isDigits_toDigits _⟩, hpad⟩
    · exact ⟨_, rfl, Nat.toDigits_ne_nil, isDigits_toDigits _, number_toDigits _⟩
  refine ⟨⟨[if e < 0 then '-' else '+'], ds, by split <;> simp, hne, hdigits⟩, ?_, ?_, hnumber⟩
  · simp only [exponentChars, hds]
    rfl
  · rw [Exponent.value, hnumber]
    by_cases he : e < 0
    · simp only [if_pos he, if_true]
      omega
    · simp only [if_neg he]
      rw [if_neg (by simp)]
      omega

theorem fixed_eq (num den places : Nat) : ∃ whole fraction, fixed num den places = (whole, fraction) ∧
    IsDigits 10 whole ∧ whole ≠ [] ∧ IsDigits 10 fraction ∧ fraction.length = places ∧
    number 10 (whole ++ fraction) = roundHalfEven (num * 10 ^ places) den := by
  have hdigits := isDigits_toDigits (roundHalfEven (num * 10 ^ places) den)
  have hnumber := number_toDigits (roundHalfEven (num * 10 ^ places) den)
  rw [fixed, Nat.pow_eq]
  generalize roundHalfEven (num * 10 ^ places) den = n at *
  have hall : IsDigits 10 (List.replicate (places + 1 - (Nat.toDigits 10 n).length) '0' ++
      Nat.toDigits 10 n) :=
    isDigits_append.2 ⟨isDigits_replicate _, hdigits⟩
  have hlength : places + 1 ≤ (List.replicate (places + 1 - (Nat.toDigits 10 n).length) '0' ++
      Nat.toDigits 10 n).length := by
    rw [List.length_append, List.length_replicate]
    omega
  have hpadded : number 10 (List.replicate (places + 1 - (Nat.toDigits 10 n).length) '0' ++
      Nat.toDigits 10 n) = n := by
    rw [number_append, number_replicate_zero, hnumber, Nat.zero_mul, Nat.zero_add]
  generalize List.replicate (places + 1 - (Nat.toDigits 10 n).length) '0' ++
    Nat.toDigits 10 n = ds at *
  rw [List.splitAt_eq]
  refine ⟨_, _, rfl, ?_, ?_, ?_, ?_, ?_⟩
  · exact fun c hc => hall c (List.mem_of_mem_take hc)
  · exact List.ne_nil_of_length_pos (by rw [List.length_take]; omega)
  · exact fun c hc => hall c (List.mem_of_mem_drop hc)
  · rw [List.length_drop]
    omega
  · rw [List.take_append_drop, hpadded]

theorem exists_scientific {s : Significant} {count : Nat} (hfull : 10 ^ (count - 1) ≤ s.digits)
    (hlt : s.digits < 10 ^ count) : ∃ l : Literal Positional.decimal,
      l.chars = pointed ((Nat.toDigits 10 s.digits).take 1) ((Nat.toDigits 10 s.digits).drop 1) ++
        exponentChars s.exponent ∧
      (∀ p ∈ l.power, number 10 p.2.digits = s.exponent.natAbs) ∧
      l.value = s.digits * 10 ^ (s.exponent - (count - 1) : ℤ) := by
  have hcount : 0 < count := by
    by_contra hzero
    obtain rfl : count = 0 := by omega
    omega
  have hpos : 0 < s.digits := Nat.lt_of_lt_of_le (by positivity) hfull
  have hlength : (Nat.toDigits 10 s.digits).length = count := by
    refine le_antisymm ((Nat.length_toDigits_le_iff (by decide) hcount).2 hlt) ?_
    have h := hfull.trans_lt (lt_pow_length_toDigits s.digits)
    have := (Nat.pow_lt_pow_iff_right (by decide)).1 h
    omega
  have hdigits := isDigits_toDigits s.digits
  obtain ⟨p, hp, hvalue, hsize⟩ := exponentChars_eq s.exponent
  have hfirst : IsDigits 10 ((Nat.toDigits 10 s.digits).take 1) :=
    fun c hc => hdigits c (List.mem_of_mem_take hc)
  have hrest : IsDigits 10 ((Nat.toDigits 10 s.digits).drop 1) :=
    fun c hc => hdigits c (List.mem_of_mem_drop hc)
  obtain ⟨l, hchars, hpower, hl⟩ := exists_pointed hfirst
    (List.ne_nil_of_length_pos (by rw [List.length_take]; omega)) hrest (some ('e', p))
    (by simp [Positional.decimal])
  refine ⟨l, by rw [hchars, hp]; rfl, by simp [hpower, hsize], ?_⟩
  rw [hl, List.take_append_drop, number_toDigits, List.length_drop, hlength, Option.elim_some, hvalue,
    zpow_sub₀ (by norm_num)]
  have hsub : (10 : ℚ) ^ (count - 1 : ℤ) = 10 ^ (count - 1) := by
    rw [← zpow_natCast]
    congr 1
    omega
  rw [hsub]
  ring

theorem exists_fixed {num den count : Nat} {s : Significant} (hden : 0 < den)
    (hs : s.Rounded count (num / den)) (hexp : s.exponent < count) :
    ∃ l : Literal Positional.decimal,
      l.chars = pointed (fixed num den (count - 1 - s.exponent).toNat).1
        (fixed num den (count - 1 - s.exponent).toNat).2 ∧
      l.power = none ∧ l.value = s.digits * 10 ^ (s.exponent - (count - 1) : ℤ) := by
  obtain ⟨places, hplaces⟩ : ∃ places : ℕ, count - 1 - s.exponent = places :=
    Int.eq_ofNat_of_zero_le (by omega)
  have hneg : s.exponent - (count - 1) = -(places : ℤ) := by omega
  have hdigits : roundHalfEven (num * 10 ^ places) den = s.digits := by
    have hround := roundHalfEven_halfEven (num * 10 ^ places) hden
    have hsame := hs.halfEven
    rw [hplaces, zpow_natCast, div_mul_eq_mul_div] at hsame
    exact HalfEven.unique (by exact_mod_cast hround) hsame
  rw [hplaces, Int.toNat_natCast, hneg]
  obtain ⟨whole, fraction, hfixed, hw, hne, hf, hlength, hnumber⟩ := fixed_eq num den places
  obtain ⟨l, hchars, hpower, hl⟩ := exists_pointed hw hne hf none (by simp)
  refine ⟨l, by rw [hchars, hfixed]; simp, hpower, ?_⟩
  rw [hl, hnumber, hdigits, hlength, Option.elim_none, zpow_zero, mul_one, zpow_neg, zpow_natCast,
    div_eq_mul_inv]

theorem natAbs_exponent_lt {s : Significant} (hm : m < f.infinity) (hpos : 0 < m)
    (hs : s.Rounded f.decimalDigits (f.value m)) : s.exponent.natAbs < 65536 := by
  have hbias : f.bias < 2000 := by cases f <;> decide
  have hscale : f.scale < 2000 := by cases f <;> decide
  have hleast := le_value (f := f) hpos
  have hx : 0 < f.value m := lt_of_lt_of_le (by positivity) hleast
  have hhigh : (10 : ℚ) ^ (s.exponent - 1) < 10 ^ (f.bias + 1 : ℤ) :=
    calc (10 : ℚ) ^ (s.exponent - 1) ≤ f.value m := hs.exponent_le hx
      _ < 2 ^ (f.bias + 1) := value_lt hm
      _ ≤ 10 ^ (f.bias + 1) := pow_le_pow_left₀ (by norm_num) (by norm_num) _
      _ = 10 ^ (f.bias + 1 : ℤ) := by exact_mod_cast rfl
  have hlow : (10 : ℚ) ^ (-f.scale : ℤ) < 10 ^ (s.exponent + 1) :=
    calc (10 : ℚ) ^ (-f.scale : ℤ) = 1 / 10 ^ f.scale := by rw [zpow_neg, zpow_natCast, one_div]
      _ ≤ 1 / 2 ^ f.scale := by gcongr; norm_num
      _ ≤ f.value m := hleast
      _ < 10 ^ (s.exponent + 1) := hs.lt_exponent hx
  have h1 := (zpow_lt_zpow_iff_right₀ (by norm_num)).1 hhigh
  have h2 := (zpow_lt_zpow_iff_right₀ (by norm_num)).1 hlow
  omega

/-- The text of a finite value is a decimal literal that is near to it. -/
theorem finiteChars_eq (hm : m < f.infinity) : ∃ l : Literal Positional.decimal,
    l.chars = f.finiteChars m ∧ (∀ p ∈ l.power, number 10 p.2.digits < 65536) ∧
      |f.value m - l.value| ≤ f.value m / (2 * 10 ^ (f.decimalDigits - 1)) := by
  have hden : 0 < 2 ^ f.scale := by positivity
  have hD : 0 < f.decimalDigits := by cases f <;> decide
  have hvalue : f.value m = (f.units m : ℚ) / (2 ^ f.scale : Nat) := by
    rw [value]
    push_cast
    rfl
  have hround := Significant.ofRatio_rounded (f.units m) hD hden
  have hchars : f.finiteChars m =
      let s := Significant.ofRatio f.decimalDigits (f.units m) (2 ^ f.scale)
      if s.exponent < -4 ∨ f.decimalDigits ≤ s.exponent then
        pointed ((Nat.toDigits 10 s.digits).take 1) ((Nat.toDigits 10 s.digits).drop 1) ++
          exponentChars s.exponent
      else pointed (fixed (f.units m) (2 ^ f.scale) (f.decimalDigits - 1 - s.exponent).toNat).1
        (fixed (f.units m) (2 ^ f.scale) (f.decimalDigits - 1 - s.exponent).toNat).2 := by
    simp only [finiteChars, List.splitAt_eq]
    rfl
  have hzero : f.units m = 0 → (Significant.ofRatio f.decimalDigits (f.units m)
      (2 ^ f.scale)).exponent = 0 := fun h => by rw [h]; rfl
  rw [hchars]
  generalize Significant.ofRatio f.decimalDigits (f.units m) (2 ^ f.scale) = s at *
  dsimp only
  split
  · rename_i hfar
    have hpos : 0 < m := by
      by_contra hm0
      have h := hzero (by
        obtain rfl : m = 0 := by omega
        simp [units, significand, f.fractions_pos])
      omega
    have hx : 0 < f.value m := lt_of_lt_of_le (by positivity) (le_value hpos)
    rw [← hvalue] at hround
    obtain ⟨l, hl, hpower, hlvalue⟩ := exists_scientific (hround.full hx) hround.lt
    exact ⟨l, hl, fun p hp => (hpower p hp).trans_lt (natAbs_exponent_lt hm hpos hround),
      hlvalue ▸ hround.near⟩
  · rename_i hnear
    obtain ⟨l, hl, hpower, hlvalue⟩ := exists_fixed hden hround (by omega)
    exact ⟨l, hl, by simp [hpower], by rw [hlvalue, hvalue]; exact hround.near⟩

theorem body?_finiteChars (hm : m < f.infinity) :
    f.Body (f.finiteChars m) ∧ f.body? (f.finiteChars m) = some (false, m) := by
  obtain ⟨l, hl, hpower, hnear⟩ := finiteChars_eq hm
  obtain ⟨n, hn, hnearest⟩ := f.decimal?_nearest l hpower
  obtain rfl := (nearest_of_near hm.le hnear).unique hnearest
  rw [← hl, body?_of_all l.chars_ne_nil l.all_isDecimalChar, splitSign_of_head l.head_chars, hn]
  exact ⟨.decimal l, rfl⟩

theorem isWordChar_of_isDecimalChar {c : Char} (h : isDecimalChar c = true) :
    TextStream.isWordChar c = true :=
  of_isDecimalChar TextStream.isWordChar rfl h

theorem isWordChar_of_mem_toDigits {c : Char} {n : Nat} (h : c ∈ Nat.toDigits 16 n) :
    TextStream.isWordChar c = true := by
  obtain ⟨d, hd, rfl⟩ := Numeral.mem_toDigits (by decide) h
  exact Numeral.isWordChar_digitChar hd

theorem magnitude_lt (f : FloatFormat) (raw : Word) : f.magnitude raw < f.signBit :=
  Nat.mod_lt _ (by cases f <;> decide)

theorem body?_nanChars {n : Nat} (hpos : 0 < n) (hlt : n < f.fractions) :
    f.Body ("NaN(0x".toList ++ Nat.toDigits 16 n ++ [')']) ∧
      f.body? ("NaN(0x".toList ++ Nat.toDigits 16 n ++ [')']) = some (false, f.infinity + n) := by
  have hsize : n < sizeLimit := hlt.trans (by cases f <;> decide)
  have hv : Numeral.parseChars? ('0' :: 'x' :: Nat.toDigits 16 n) = some ⟨false, n⟩ := by
    have h := Numeral.parse?_render ⟨false, n⟩ .hexadecimal false hsize
    rwa [Numeral.parse?, Numeral.render, String.toList_ofList] at h
  have hn : (⟨false, n⟩ : Numeral).toNat? = some n := rfl
  refine ⟨.payload hv hn hpos hlt, ?_⟩
  change f.body? ('N' :: 'a' :: 'N' :: '(' :: ('0' :: 'x' :: Nat.toDigits 16 n ++ [')'])) = _
  rw [body?_nan, payload?_brackets, hv, Option.bind_some, hn, Option.bind_some, if_neg (by omega)]

theorem exists_body (f : FloatFormat) (raw : Word) : ∃ body,
    f.renderChars raw = (if f.isNegative raw then ['-'] else []) ++ body ∧
      f.Body body ∧ f.body? body = some (false, f.magnitude raw) ∧
      body.all TextStream.isWordChar = true := by
  have hlt := f.magnitude_lt raw
  rw [signBit_eq] at hlt
  rw [renderChars]
  generalize f.magnitude raw = m at *
  refine ⟨if m < f.infinity then f.finiteChars m else if m = f.infinity then ['I', 'n', 'f']
    else "NaN(0x".toList ++ Nat.toDigits 16 (m - f.infinity) ++ [')'], by split <;> rfl, ?_⟩
  split
  · rename_i hfinite
    obtain ⟨hbody, hread⟩ := body?_finiteChars hfinite
    obtain ⟨l, hl, -⟩ := finiteChars_eq hfinite
    refine ⟨hbody, hread, List.all_eq_true.2 fun c hc => ?_⟩
    rw [← hl] at hc
    exact isWordChar_of_isDecimalChar (l.isDecimalChar_of_mem hc)
  · split
    · rename_i hinfinity
      subst hinfinity
      exact ⟨.infinity (.inl (by decide)), by simp [body?, spells], by decide⟩
    · obtain ⟨n, rfl⟩ := Nat.exists_eq_add_of_le (show f.infinity ≤ m by omega)
      rw [Nat.add_sub_cancel_left]
      obtain ⟨hbody, hread⟩ := body?_nanChars (f := f) (n := n) (by omega) (by omega)
      refine ⟨hbody, hread, List.all_eq_true.2 fun c hc => ?_⟩
      simp only [List.mem_append] at hc
      obtain (hc | hc) | hc := hc
      · have hall : "NaN(0x".toList.all TextStream.isWordChar = true := rfl
        exact List.all_eq_true.1 hall c hc
      · exact isWordChar_of_mem_toDigits hc
      · rw [List.mem_singleton.1 hc]
        rfl

theorem ofNat_magnitude (x : BitVec f.width) :
    BitVec.ofNat 64 (if f.isNegative (x.setWidth 64) then f.signBit + f.magnitude (x.setWidth 64)
      else f.magnitude (x.setWidth 64)) = x.setWidth 64 := by
  have hwidth : f.width ≤ 64 := by cases f <;> decide
  have hlt : x.toNat < 2 * f.signBit := by
    have h : 2 * f.signBit = 2 ^ f.width := by cases f <;> decide
    exact h ▸ x.isLt
  have hx : (x.setWidth 64).toNat = x.toNat := by
    rw [BitVec.toNat_setWidth]
    exact Nat.mod_eq_of_lt (x.isLt.trans_le (Nat.pow_le_pow_right two_pos hwidth))
  have hneg : f.isNegative (x.setWidth 64) = decide (x.toNat / f.signBit % 2 = 1) := by
    rw [isNegative, ← BitVec.testBit_toNat, hx, Nat.testBit_eq_decide_div_mod_eq]
    rfl
  have hdiv : x.toNat / f.signBit < 2 := Nat.div_lt_of_lt_mul (by rwa [Nat.mul_comm])
  have hsplit := Nat.div_add_mod x.toNat f.signBit
  have hsum : (if f.isNegative (x.setWidth 64) then f.signBit + f.magnitude (x.setWidth 64)
      else f.magnitude (x.setWidth 64)) = (x.setWidth 64).toNat := by
    rw [hneg, magnitude, hx]
    obtain hq | hq : x.toNat / f.signBit = 0 ∨ x.toNat / f.signBit = 1 :=
      Nat.le_one_iff_eq_zero_or_eq_one.1 (Nat.le_of_lt_succ hdiv)
    all_goals
      rw [hq] at hsplit ⊢
      simpa using hsplit
  rw [hsum, BitVec.ofNat_toNat, BitVec.setWidth_eq]

/-- Every pattern of the format, of whatever kind of value and with either sign, is read back from
its text, which is one token. -/
theorem render_bit_exact (f : FloatFormat) (x : BitVec f.width) :
    f.parse? (f.render (x.setWidth 64)) = some (x.setWidth 64) ∧
      (TextStream.ofString (f.render (x.setWidth 64))).tokens =
        [⟨f.render (x.setWidth 64), TextStream.ofString (f.render (x.setWidth 64))⟩] := by
  obtain ⟨body, hchars, hbody, hread, hword⟩ := f.exists_body (x.setWidth 64)
  constructor
  · rw [parse?, render, String.toList_ofList, hchars,
      parseChars?_append hbody.head hread (by split <;> simp)]
    conv_rhs => rw [← ofNat_magnitude x]
    congr 2
    split <;> simp
  · refine TextStream.IsWord.tokens_ofString ⟨?_, ?_⟩
    · rw [render, String.toList_ofList, hchars]
      exact List.append_ne_nil_of_right_ne_nil _ hbody.ne_nil
    · rw [render, String.toList_ofList, hchars, List.all_append, hword, Bool.and_true]
      split <;> rfl

end FloatFormat

end Packed
