import Mathlib.Algebra.Order.Field.Rat
import Mathlib.Data.List.Induction
import Mathlib.Data.List.TakeWhile
import Mathlib.Data.Nat.Digits.Defs
import Packed.Proofs.Encoding
import Packed.Text.FloatText

namespace Packed.Positional

open FloatFormat

def IsDigits (radix : Nat) (cs : List Char) : Prop :=
  ∀ c ∈ cs, (Numeral.digit? radix c).isSome = true

def number (radix : Nat) (cs : List Char) : Nat :=
  Nat.ofDigits radix (cs.map fun c => (Numeral.digit? radix c).getD 0).reverse

section

variable {radix n : Nat} {xs ys cs : List Char} {c : Char}

theorem isDigits_nil : IsDigits radix [] := fun _ h => absurd h List.not_mem_nil

theorem isDigits_singleton : IsDigits radix [c] ↔ (Numeral.digit? radix c).isSome = true :=
  List.forall_mem_singleton

theorem isDigits_append : IsDigits radix (xs ++ ys) ↔ IsDigits radix xs ∧ IsDigits radix ys :=
  List.forall_mem_append

theorem isDigits_cons :
    IsDigits radix (c :: cs) ↔ (Numeral.digit? radix c).isSome = true ∧ IsDigits radix cs :=
  List.forall_mem_cons

theorem number_nil : number radix [] = 0 := rfl

theorem number_append : number radix (xs ++ ys) =
    number radix xs * radix ^ ys.length + number radix ys := by
  rw [number, List.map_append, List.reverse_append, Nat.ofDigits_append, List.length_reverse,
    List.length_map, Nat.mul_comm, Nat.add_comm]
  rfl

theorem number_singleton : number radix [c] = (Numeral.digit? radix c).getD 0 := by
  simp [number]

theorem number_cons : number radix (c :: cs) =
    (Numeral.digit? radix c).getD 0 * radix ^ cs.length + number radix cs := by
  rw [← List.singleton_append, number_append, number_singleton]

theorem wholeNumber?_append_singleton : wholeNumber? radix (xs ++ [c]) =
    (wholeNumber? radix xs).bind fun n => (Numeral.digit? radix c).map (n * radix + ·) := by
  rw [wholeNumber?, List.foldlM_append]
  exact congrArg _ (funext fun n => by simp)

theorem wholeNumber?_eq_some_iff : wholeNumber? radix cs = some n ↔
    IsDigits radix cs ∧ n = number radix cs := by
  induction cs using List.reverseRecOn generalizing n with
  | nil => exact Option.some_inj.trans (by simp [isDigits_nil, number, eq_comm])
  | append_singleton xs c ih =>
      rw [wholeNumber?_append_singleton, isDigits_append, number_append, number_singleton]
      cases hd : Numeral.digit? radix c with
      | none => simp [isDigits_singleton, hd]
      | some d =>
          simp only [Option.map_some, Option.bind_eq_some_iff, ih, Option.some_inj,
            isDigits_singleton, hd, Option.isSome_some, and_true, List.length_singleton, pow_one,
            Option.getD_some]
          constructor
          · rintro ⟨_, ⟨hxs, rfl⟩, rfl⟩
            exact ⟨hxs, rfl⟩
          · rintro ⟨hxs, rfl⟩
            exact ⟨_, ⟨hxs, rfl⟩, rfl⟩

theorem digit?_ten (c : Char) :
    Numeral.digit? 10 c = if isDigit c then some (c.toNat - '0'.toNat) else none := by
  have hle : ∀ d : Char, d ≤ c ↔ d.toNat ≤ c.toNat := fun d => UInt32.le_iff_toNat_le
  have hge : ∀ d : Char, c ≤ d ↔ c.toNat ≤ d.toNat := fun d => UInt32.le_iff_toNat_le
  have h0 : '0'.toNat = 48 := rfl
  have h9 : '9'.toNat = 57 := rfl
  have ha : 'a'.toNat = 97 := rfl
  have hA : 'A'.toNat = 65 := rfl
  simp only [Numeral.digit?, Numeral.digitValue, isDigit, Bool.and_eq_true, decide_eq_true_eq, hle,
    hge]
  split
  · rename_i h
    rw [Option.filter_some, if_pos (by simp; omega)]
  · split
    · rw [Option.filter_some, if_neg (by simp)]
    · split
      · rw [Option.filter_some, if_neg (by simp)]
      · rfl

theorem isDigits_ten : IsDigits 10 cs ↔ cs.all isDigit = true := by
  rw [List.all_eq_true, IsDigits]
  refine forall₂_congr fun c _ => ?_
  rw [digit?_ten]
  cases isDigit c <;> simp

theorem digit?_of_mem (h : c ∈ ['.', '+', '-']) :
    Numeral.digit? radix c = none := by
  obtain rfl | rfl | rfl : c = '.' ∨ c = '+' ∨ c = '-' := by simpa using h
  all_goals rfl

theorem splitAt?_of_forall {p : Char → Bool} (h : ∀ c ∈ cs, p c = false) :
    splitAt? p cs = (cs, none) := by
  have hd : cs.dropWhile (!p ·) = [] := List.dropWhile_eq_nil_iff.2 fun c hc => by simp [h c hc]
  rw [splitAt?, hd]

theorem splitAt?_append_cons {p : Char → Bool} (h : ∀ c ∈ xs, p c = false) (hc : p c = true) :
    splitAt? p (xs ++ c :: ys) = (xs, some ys) := by
  have hn : ∀ c ∈ xs, (!p c) = true := fun c hc => by simp [h c hc]
  have hd : (xs ++ c :: ys).dropWhile (!p ·) = c :: ys := by
    rw [List.dropWhile_append_of_pos hn, List.dropWhile_cons_of_neg (by simp [hc])]
  have ht : (xs ++ c :: ys).takeWhile (!p ·) = xs := by
    rw [List.takeWhile_append_of_pos hn, List.takeWhile_cons_of_neg (by simp [hc]), List.append_nil]
  rw [splitAt?, hd, ht]

theorem splitAt?_cases (p : Char → Bool) (cs : List Char) :
    splitAt? p cs = (cs, none) ∨
      ∃ xs c ys, splitAt? p cs = (xs, some ys) ∧ p c = true ∧ cs = xs ++ c :: ys := by
  cases hd : cs.dropWhile (!p ·) with
  | nil => exact .inl (by rw [splitAt?, hd])
  | cons c ys =>
      refine .inr ⟨cs.takeWhile (!p ·), c, ys, by rw [splitAt?, hd], ?_, ?_⟩
      · have hc := List.head?_dropWhile_not (p := (!p ·)) (l := cs)
        rw [hd] at hc
        simpa using hc
      · rw [← hd, List.takeWhile_append_dropWhile]

theorem splitSign_of_head (h : ∀ c ∈ cs.head?, c ≠ '-' ∧ c ≠ '+') : splitSign cs = (false, cs) := by
  rw [splitSign.eq_def]
  split
  · exact absurd rfl (h '-' rfl).1
  · exact absurd rfl (h '+' rfl).2
  · rfl

theorem splitSign_cases (cs : List Char) : ∃ sign ∈ [[], ['+'], ['-']],
    cs = sign ++ (splitSign cs).2 ∧ (splitSign cs).1 = decide (sign = ['-']) := by
  rw [splitSign.eq_def]
  split
  · exact ⟨['-'], by simp, rfl, rfl⟩
  · exact ⟨['+'], by simp, rfl, rfl⟩
  · exact ⟨[], by simp, rfl, rfl⟩

end

structure Exponent where
  sign : List Char
  digits : List Char
  sign_mem : sign ∈ [[], ['+'], ['-']]
  digits_ne : digits ≠ []
  isDigits : IsDigits 10 digits

namespace Exponent

def chars (p : Exponent) : List Char := p.sign ++ p.digits

def value (p : Exponent) : ℤ :=
  if p.sign = ['-'] then -(number 10 p.digits : ℤ) else number 10 p.digits

variable {cs : List Char} {e : ℤ}

theorem splitSign_chars (p : Exponent) :
    splitSign p.chars = (decide (p.sign = ['-']), p.digits) := by
  obtain ⟨sign, ds, hsign, hne, hdigits⟩ := p
  simp only [List.mem_cons, List.not_mem_nil, or_false] at hsign
  obtain rfl | rfl | rfl := hsign
  · refine splitSign_of_head fun c hc => ?_
    have hd := hdigits c (List.mem_of_head? hc)
    constructor <;> rintro rfl <;> simp [digit?_of_mem] at hd
  · rfl
  · rfl

theorem shortExponent?_eq_some_iff : shortExponent? cs = some e ↔
    ∃ p : Exponent, p.chars = cs ∧ p.value = e ∧ (IntType.mk true 32).contains e = true := by
  constructor
  · intro h
    obtain ⟨sign, hsign, hcs, hneg⟩ := splitSign_cases cs
    rw [shortExponent?] at h
    generalize splitSign cs = split at *
    obtain ⟨negative, ds⟩ := split
    obtain rfl : negative = decide (sign = ['-']) := hneg
    dsimp only at h hcs
    split at h
    · cases h
    rename_i hne
    obtain ⟨n, hn, he⟩ := Option.bind_eq_some_iff.1 h
    obtain ⟨hdigits, rfl⟩ := wholeNumber?_eq_some_iff.1 hn
    simp only [decide_eq_true_eq, Option.ite_none_right_eq_some] at he
    obtain ⟨hrange, he⟩ := he
    obtain rfl := Option.some.inj he
    exact ⟨⟨sign, ds, hsign, by simpa using hne, hdigits⟩, hcs.symm, rfl, hrange⟩
  · rintro ⟨p, rfl, rfl, hrange⟩
    have hne : p.digits.isEmpty = false := by simpa using p.digits_ne
    have hn := wholeNumber?_eq_some_iff.2 ⟨p.isDigits, rfl⟩
    rw [shortExponent?, p.splitSign_chars]
    simp only [hne, hn, Option.bind_some, decide_eq_true_eq]
    rw [value] at hrange ⊢
    simp only [hrange, if_true, Bool.false_eq_true, if_false]

theorem longExponent?_isSome_iff :
    (longExponent? cs).isSome = true ↔ ∃ p : Exponent, p.chars = cs := by
  constructor
  · intro h
    obtain ⟨sign, hsign, hcs, -⟩ := splitSign_cases cs
    rw [longExponent?] at h
    generalize splitSign cs = split at *
    obtain ⟨negative, ds⟩ := split
    simp only [Option.isSome_ite', Bool.or_eq_true, List.isEmpty_iff, Bool.not_eq_true', not_or,
      Bool.not_eq_false] at h
    exact ⟨⟨sign, ds, hsign, h.1, isDigits_ten.2 h.2⟩, hcs.symm⟩
  · rintro ⟨p, rfl⟩
    rw [longExponent?, p.splitSign_chars]
    simp [p.digits_ne, isDigits_ten.1 p.isDigits]

theorem foldl_capped (cs : List Char) (hd : IsDigits 10 cs) (h : number 10 cs < 65536) :
    cs.foldl (fun n c => if n < 65536 then 10 * n + (c.toNat - '0'.toNat) else n) 0 =
      number 10 cs := by
  induction cs using List.reverseRecOn with
  | nil => rfl
  | append_singleton xs c ih =>
      obtain ⟨hxs, hc⟩ := isDigits_append.1 hd
      rw [number_append, number_singleton, List.length_singleton, pow_one] at h ⊢
      rw [isDigits_singleton, digit?_ten] at hc
      have hdigit : isDigit c = true := by
        by_contra hn
        simp [hn] at hc
      rw [List.foldl_append, ih hxs (by omega), List.foldl_cons, List.foldl_nil,
        if_pos (by omega), digit?_ten, if_pos hdigit, Option.getD_some, Nat.mul_comm]

theorem longExponent?_chars (p : Exponent) (h : number 10 p.digits < 65536) :
    longExponent? p.chars = some p.value := by
  rw [longExponent?, p.splitSign_chars]
  simp only [foldl_capped p.digits p.isDigits h, isDigits_ten.1 p.isDigits, value]
  simp [p.digits_ne]

end Exponent

/-- A way of writing numbers: the base of the digits, the base of the exponent, what stands before
the exponent, and which exponents there are. -/
structure Style where
  radix : ℕ
  base : ℕ
  isMark : Char → Bool
  admits : ℤ → Prop
  digit?_of_isMark : ∀ c, isMark c = true → Numeral.digit? radix c = none
  isMark_point : isMark '.' = false

def hexadecimal : Style where
  radix := 16
  base := 2
  isMark c := c == 'p' || c == 'P'
  admits e := (IntType.mk true 32).contains e = true
  digit?_of_isMark c h := by
    obtain rfl | rfl : c = 'p' ∨ c = 'P' := by simpa using h
    all_goals decide
  isMark_point := by decide

def decimal : Style where
  radix := 10
  base := 10
  isMark c := c == 'e' || c == 'E'
  admits _ := True
  digit?_of_isMark c h := by
    obtain rfl | rfl : c = 'e' ∨ c = 'E' := by simpa using h
    all_goals decide
  isMark_point := by decide

/-- A literal without a sign: digits, at most one point before, among or after them, and at most one
exponent. -/
structure Literal (s : Style) where
  whole : List Char
  fraction : Option (List Char)
  power : Option (Char × Exponent)
  isDigits_whole : IsDigits s.radix whole
  isDigits_fraction : IsDigits s.radix (fraction.getD [])
  digits_ne : whole ++ fraction.getD [] ≠ []
  isMark : ∀ m ∈ power, s.isMark m.1 = true
  admits : ∀ m ∈ power, s.admits m.2.value

namespace Literal

variable {s : Style} (l : Literal s)

def mantissaChars : List Char := l.whole ++ l.fraction.elim [] ('.' :: ·)

def chars : List Char := l.mantissaChars ++ l.power.elim [] fun m => m.1 :: m.2.chars

def digits : List Char := l.whole ++ l.fraction.getD []

def exponent : ℤ := l.power.elim 0 (·.2.value)

def places : ℕ := (l.fraction.getD []).length

def value : ℚ :=
  (number s.radix l.digits : ℚ) / (s.radix : ℚ) ^ l.places * (s.base : ℚ) ^ l.exponent

theorem isDigits_digits : IsDigits s.radix l.digits :=
  isDigits_append.2 ⟨l.isDigits_whole, l.isDigits_fraction⟩

theorem isMark_of_mem_mantissaChars {c : Char} (h : c ∈ l.mantissaChars) : s.isMark c = false := by
  have hdigits : ∀ cs, IsDigits s.radix cs → c ∈ cs → s.isMark c = false := by
    intro cs hcs hc
    by_contra hm
    have hd := hcs c hc
    rw [s.digit?_of_isMark c (by simpa using hm)] at hd
    cases hd
  obtain hc | hc := List.mem_append.1 h
  · exact hdigits l.whole l.isDigits_whole hc
  · have hf := l.isDigits_fraction
    cases hl : l.fraction with
    | none => simp [hl] at hc
    | some ds =>
        rw [hl] at hc hf
        obtain rfl | hc := List.mem_cons.1 hc
        · exact s.isMark_point
        · exact hdigits ds hf hc

theorem splitAt?_chars : splitAt? s.isMark l.chars = (l.mantissaChars, l.power.map (·.2.chars)) := by
  have hm : ∀ c ∈ l.mantissaChars, s.isMark c = false := fun _ => l.isMark_of_mem_mantissaChars
  cases hp : l.power with
  | none => rw [chars, hp, Option.elim_none, List.append_nil, splitAt?_of_forall hm]; rfl
  | some m =>
      rw [chars, hp, Option.elim_some, splitAt?_append_cons hm (l.isMark m hp)]
      rfl

theorem splitAt?_mantissaChars :
    splitAt? (· == '.') l.mantissaChars = (l.whole, l.fraction) := by
  have hpoint : ∀ c ∈ l.whole, (c == '.') = false := by
    intro c hc
    rw [beq_eq_false_iff_ne]
    rintro rfl
    have hd := l.isDigits_whole _ hc
    simp [digit?_of_mem] at hd
  cases hf : l.fraction with
  | none => rw [mantissaChars, hf, Option.elim_none, List.append_nil, splitAt?_of_forall hpoint]
  | some ds => rw [mantissaChars, hf, Option.elim_some, splitAt?_append_cons hpoint (by simp)]

theorem positional?_chars {exponent? : List Char → Option ℤ} {e : ℤ}
    (he : (l.power.map (·.2.chars)).elim (some 0) exponent? = some e) :
    positional? s.isMark exponent? l.chars = some (l.whole, l.fraction.getD [], e) := by
  have hne : ¬((l.whole.isEmpty && (l.fraction.getD []).isEmpty) = true) := by
    simpa [List.isEmpty_iff] using l.digits_ne
  simp only [positional?, splitAt?_chars, splitAt?_mantissaChars, he, Option.bind_eq_bind,
    Option.bind_some, if_neg hne]

end Literal

theorem exists_literal {s : Style} {exponent? : List Char → Option ℤ} {cs ws fs : List Char} {e : ℤ}
    (h : positional? s.isMark exponent? cs = some (ws, fs, e))
    (hexp : ∀ cs e, exponent? cs = some e → ∃ p : Exponent, p.chars = cs ∧ s.admits p.value)
    (hw : IsDigits s.radix ws) (hf : IsDigits s.radix fs) :
    ∃ l : Literal s, l.chars = cs := by
  simp only [positional?, Option.bind_eq_bind, Option.bind_eq_some_iff] at h
  obtain ⟨e, he, h⟩ := h
  simp only [Option.ite_none_left_eq_some, Option.some_inj, Prod.mk.injEq] at h
  obtain ⟨hne, rfl, rfl, -⟩ := h
  have hne : (splitAt? (· == '.') (splitAt? s.isMark cs).1).1 ++
      (splitAt? (· == '.') (splitAt? s.isMark cs).1).2.getD [] ≠ [] := by
    simpa [List.isEmpty_iff] using hne
  obtain ⟨power, hmark, hadmits, hcs⟩ : ∃ power : Option (Char × Exponent),
      (∀ m ∈ power, s.isMark m.1 = true) ∧ (∀ m ∈ power, s.admits m.2.value) ∧
        (splitAt? s.isMark cs).1 ++ power.elim [] (fun m => m.1 :: m.2.chars) = cs := by
    obtain hs | ⟨xs, c, ys, hs, hc, rfl⟩ := splitAt?_cases s.isMark cs
    · exact ⟨none, by simp, by simp, by simp [hs]⟩
    · rw [hs] at he
      obtain ⟨p, rfl, hp⟩ := hexp ys e he
      exact ⟨some (c, p), by simpa using hc, by simpa using hp, by rw [hs]; rfl⟩
  refine ⟨⟨_, _, power, hw, hf, hne, hmark, hadmits⟩, ?_⟩
  obtain hs | ⟨xs, c, ys, hs, hc, hd⟩ := splitAt?_cases (· == '.') (splitAt? s.isMark cs).1
  · simpa [Literal.chars, Literal.mantissaChars, hs] using hcs
  · obtain rfl : c = '.' := by simpa using hc
    rw [hd] at hcs
    simpa [Literal.chars, Literal.mantissaChars, hs] using hcs

end Packed.Positional
