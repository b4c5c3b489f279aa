import Packed.Proofs.Float.Decimal
import Packed.Proofs.Float.Hexadecimal

namespace Packed.FloatFormat

open Positional

inductive Body (f : FloatFormat) : List Char → Prop where
  | infinity {cs : List Char} (h : spells "inf" cs = true ∨ spells "infinity" cs = true) : Body f cs
  | nan : Body f ['N', 'a', 'N']
  | payload {literal : List Char} {v : Numeral} {n : Nat} (hv : Numeral.parseChars? literal = some v)
      (hn : v.toNat? = some n) (hpos : 0 < n) (hlt : n < f.fractions) :
      Body f (['N', 'a', 'N', '('] ++ literal ++ [')'])
  | hexadecimal {marker : Char} (h : marker ∈ ['x', 'X']) (l : Literal Positional.hexadecimal) :
      Body f ('0' :: marker :: l.chars)
  | decimal (l : Literal Positional.decimal) : Body f l.chars

variable {f : FloatFormat} {cs : List Char} {m : Nat} {inner : Bool}

theorem signBit_eq (f : FloatFormat) : f.signBit = f.infinity + f.fractions := by
  cases f <;> decide

/-- A text of the characters of decimal literals goes to the decimal reader, with a sign of its own. -/
theorem body?_of_all (hne : cs ≠ []) (h : cs.all isDecimalChar = true) :
    f.body? cs = (f.decimal? (splitSign cs).2).map ((splitSign cs).1, ·) := by
  have hinner : (splitSign cs).2.all isDecimalChar = true := by
    obtain ⟨sign, -, hcs, -⟩ := splitSign_cases cs
    rw [hcs, List.all_append, Bool.and_eq_true] at h
    exact h.2
  have hnumber : f.number? cs = (f.decimal? (splitSign cs).2).map ((splitSign cs).1, ·) := by
    rw [number?]
    simp [spells_eq_false "inf" (by decide) hinner,
      spells_eq_false "infinity" (by decide) hinner,
      spells_eq_false "nan" (by decide) hinner]
  have hword : ¬((spells "inf" cs || spells "infinity" cs) = true) := by
    simp [spells_eq_false "inf" (by decide) h,
      spells_eq_false "infinity" (by decide) h]
  rw [← hnumber, body?.eq_def, if_neg hword]
  split
  · simp [isDecimalChar, isDigit] at h
  · simp [isDecimalChar, isDigit] at h
  · simp [isDecimalChar, isDigit] at h
  · rw [if_pos (by simp [hne, h])]

theorem body?_nan (f : FloatFormat) (rest : List Char) : f.body? ('N' :: 'a' :: 'N' :: rest) =
    (f.payload? rest).bind fun n =>
      if n = 0 ∨ f.fractions ≤ n then none else some (false, f.infinity + n) := by
  rw [body?.eq_def, if_neg (by simp [spells])]
  rfl

theorem payload?_brackets (f : FloatFormat) (literal : List Char) :
    f.payload? ('(' :: (literal ++ [')'])) =
      (Numeral.parseChars? literal).bind Numeral.toNat? := by
  simp [payload?]

theorem payload?_cases {n : Nat} (h : f.payload? cs = some n) : cs = [] ∨
    ∃ literal v, cs = '(' :: (literal ++ [')']) ∧ Numeral.parseChars? literal = some v ∧
      v.toNat? = some n := by
  rw [payload?.eq_def] at h
  split at h
  · exact .inl rfl
  · split at h
    · rename_i inner hlast
      obtain ⟨literal, rfl⟩ := List.getLast?_eq_some_iff.1 hlast
      obtain ⟨v, hv, hn⟩ := Option.bind_eq_some_iff.1 h
      rw [List.dropLast_concat] at hv
      exact .inr ⟨literal, v, rfl, hv, hn⟩
    · cases h
  · cases h

theorem Body.head (h : f.Body cs) : ∀ c ∈ cs.head?, c ≠ '-' ∧ c ≠ '+' := by
  cases h with
  | infinity h =>
      intro c hc
      cases cs with
      | nil => cases hc
      | cons d ds =>
          obtain rfl : d = c := by simpa using hc
          have hd : d.toLower = 'i' := by
            simp only [spells, beq_iff_eq, List.map_cons] at h
            obtain h | h := h <;> exact (List.cons.inj h).1
          constructor <;> rintro rfl <;> revert hd <;> decide
  | nan => simp
  | payload => simp
  | hexadecimal => simp
  | decimal l => exact l.head_chars

theorem Body.ne_nil (h : f.Body cs) : cs ≠ [] := by
  cases h with
  | infinity h =>
      rintro rfl
      revert h
      decide
  | nan => simp
  | payload => simp
  | hexadecimal => simp
  | decimal l => exact l.chars_ne_nil

theorem Body.body?_eq (h : f.Body cs) : ∃ m < f.signBit, f.body? cs = some (false, m) := by
  have hsign := f.signBit_eq
  have hpos := f.fractions_pos
  cases h with
  | infinity h => exact ⟨f.infinity, by omega, by simp [body?, h]⟩
  | nan =>
      have hquiet : Nat.pow 2 (f.fractionBits - 1) < f.fractions := by cases f <;> decide
      have hne : Nat.pow 2 (f.fractionBits - 1) ≠ 0 := by cases f <;> decide
      refine ⟨f.infinity + Nat.pow 2 (f.fractionBits - 1), by omega, ?_⟩
      rw [body?_nan, payload?, Option.bind_some, if_neg (by omega)]
  | @payload literal v n hv hn hne hlt =>
      refine ⟨f.infinity + n, by omega, ?_⟩
      change f.body? ('N' :: 'a' :: 'N' :: '(' :: (literal ++ [')'])) = _
      rw [body?_nan, payload?_brackets, hv, Option.bind_some, hn, Option.bind_some,
        if_neg (by omega)]
  | @hexadecimal marker h l =>
      obtain ⟨a, late, ha, -⟩ := f.hexadecimal?_chars l
      have hle := f.compose_le a.mantissa a.exponent
      refine ⟨f.compose a.mantissa a.exponent, by omega, ?_⟩
      obtain rfl | rfl : marker = 'x' ∨ marker = 'X' := by simpa using h
      all_goals
        rw [body?.eq_def, if_neg (by simp [spells])]
        simp only [ha]
        rfl
  | decimal l =>
      obtain ⟨m, hm⟩ := Option.isSome_iff_exists.1 (f.decimal?_isSome_iff.2 ⟨l, rfl⟩)
      have hle := f.decimal?_le hm
      refine ⟨m, by omega, ?_⟩
      rw [body?_of_all l.chars_ne_nil l.all_isDecimalChar, splitSign_of_head l.head_chars, hm]
      rfl

theorem splitSign_cons {sign : Char} (h : sign ∈ ['+', '-']) (cs : List Char) :
    splitSign (sign :: cs) = (decide (sign = '-'), cs) := by
  obtain rfl | rfl : sign = '+' ∨ sign = '-' := by simpa using h
  all_goals rfl

theorem body?_cases (h : f.body? cs = some (inner, m)) :
    f.Body cs ∨ ∃ sign ∈ ['+', '-'], ∃ l : Literal Positional.decimal, cs = sign :: l.chars := by
  have hbody := h
  rw [body?.eq_def] at h
  split at h
  · rename_i hword
    exact .inl (.infinity (by simpa using hword))
  · split at h
    · obtain ⟨n, hn, h⟩ := Option.bind_eq_some_iff.1 h
      have hrange : 0 < n ∧ n < f.fractions := by
        by_contra hout
        rw [if_pos (by omega)] at h
        cases h
      obtain rfl | ⟨literal, v, rfl, hv, hvn⟩ := payload?_cases hn
      · exact .inl .nan
      · exact .inl (.payload hv hvn hrange.1 hrange.2)
    · obtain ⟨n, hn, -⟩ := Option.map_eq_some_iff.1 h
      obtain ⟨l, rfl⟩ := exists_literal_of_hexadecimal? hn
      exact .inl (.hexadecimal (by simp) l)
    · obtain ⟨n, hn, -⟩ := Option.map_eq_some_iff.1 h
      obtain ⟨l, rfl⟩ := exists_literal_of_hexadecimal? hn
      exact .inl (.hexadecimal (by simp) l)
    · rw [Option.ite_none_right_eq_some, Bool.and_eq_true] at h
      have hne : cs ≠ [] := by simpa using h.1.1
      rw [body?_of_all hne h.1.2] at hbody
      obtain ⟨n, hn, -⟩ := Option.map_eq_some_iff.1 hbody
      obtain ⟨l, hl⟩ := f.decimal?_isSome_iff.1 (Option.isSome_iff_exists.2 ⟨n, hn⟩)
      obtain ⟨sign, hsign, hcs, -⟩ := splitSign_cases cs
      rw [← hl] at hcs
      obtain rfl | rfl | rfl : sign = [] ∨ sign = ['+'] ∨ sign = ['-'] := by simpa using hsign
      · exact .inl (hcs ▸ .decimal l)
      · exact .inr ⟨'+', by simp, l, hcs⟩
      · exact .inr ⟨'-', by simp, l, hcs⟩

theorem parseChars?_append (hhead : ∀ c ∈ cs.head?, c ≠ '-' ∧ c ≠ '+')
    (hbody : f.body? cs = some (false, m)) {sign : List Char} (hsign : sign ∈ [[], ['+'], ['-']]) :
    f.parseChars? (sign ++ cs) =
      some (BitVec.ofNat 64 (if sign = ['-'] then f.signBit + m else m)) := by
  obtain rfl | rfl | rfl : sign = [] ∨ sign = ['+'] ∨ sign = ['-'] := by simpa using hsign
  · rw [parseChars?, List.nil_append, splitSign_of_head hhead]
    simp [hbody]
  · change (f.body? cs).map _ = _
    rw [hbody]
    rfl
  · change (f.body? cs).map _ = _
    rw [hbody]
    rfl

theorem Body.parseChars?_eq (h : f.Body cs) : ∃ m < f.signBit, ∀ sign ∈ [[], ['+'], ['-']],
    f.parseChars? (sign ++ cs) =
      some (BitVec.ofNat 64 (if sign = ['-'] then f.signBit + m else m)) := by
  obtain ⟨m, hm, hbody⟩ := h.body?_eq
  exact ⟨m, hm, fun _ hsign => parseChars?_append h.head hbody hsign⟩

theorem parseChars?_two_signs (l : Literal Positional.decimal) : ∃ m < f.signBit,
    ∀ s ∈ ['+', '-'], ∀ t ∈ ['+', '-'], f.parseChars? (s :: t :: l.chars) =
      some (BitVec.ofNat 64 (if s = '-' ∨ t = '-' then f.signBit + m else m)) := by
  obtain ⟨m, hm⟩ := Option.isSome_iff_exists.1 (f.decimal?_isSome_iff.2 ⟨l, rfl⟩)
  have hle := f.decimal?_le hm
  have hsign := f.signBit_eq
  have hpos := f.fractions_pos
  refine ⟨m, by omega, fun s hs t ht => ?_⟩
  have htc : isDecimalChar t = true := by
    obtain rfl | rfl : t = '+' ∨ t = '-' := by simpa using ht
    all_goals rfl
  have hall : (t :: l.chars).all isDecimalChar = true := by simp [htc, l.all_isDecimalChar]
  rw [parseChars?, splitSign_cons hs]
  simp only [body?_of_all (List.cons_ne_nil _ _) hall, splitSign_cons ht, hm]
  simp

theorem signed_of_parseChars? (h : (f.parseChars? cs).isSome = true) :
    (∃ sign ∈ [[], ['+'], ['-']], ∃ body, f.Body body ∧ cs = sign ++ body) ∨
      ∃ s ∈ ['+', '-'], ∃ t ∈ ['+', '-'], ∃ l : Literal Positional.decimal,
        cs = s :: t :: l.chars := by
  obtain ⟨sign, hsign, hcs, -⟩ := splitSign_cases cs
  rw [parseChars?, Option.isSome_map, Option.isSome_iff_exists] at h
  obtain ⟨⟨inner, m⟩, hbody⟩ := h
  obtain hbody | ⟨t, ht, l, hl⟩ := body?_cases hbody
  · exact .inl ⟨sign, hsign, _, hbody, hcs⟩
  · rw [hl] at hcs
    obtain rfl | rfl | rfl : sign = [] ∨ sign = ['+'] ∨ sign = ['-'] := by simpa using hsign
    · -- the sign would have been taken from the text before
      rw [hcs, List.nil_append, splitSign_cons ht] at hl
      exact absurd hl.symm (List.cons_ne_self _ _)
    · exact .inr ⟨'+', by simp, t, ht, l, hcs⟩
    · exact .inr ⟨'-', by simp, t, ht, l, hcs⟩

theorem mask_of_parseChars? {v : Word} (h : f.parseChars? cs = some v) :
    v.mask f.width = v := by
  have hpow : 2 * f.signBit = 2 ^ f.width := by cases f <;> decide
  have hle : ∀ {n}, n < 2 ^ f.width → (BitVec.ofNat 64 n).toNat < 2 ^ f.width := fun {n} hn =>
    Nat.lt_of_le_of_lt (by rw [BitVec.toNat_ofNat]; exact Nat.mod_le n _) hn
  rw [Word.mask_eq_self_iff]
  rcases signed_of_parseChars? (Option.isSome_iff_exists.2 ⟨v, h⟩) with
    ⟨sign, hsign, body, hbody, rfl⟩ | ⟨s, hs, t, ht, l, rfl⟩
  · obtain ⟨m, hm, he⟩ := hbody.parseChars?_eq
    obtain rfl := Option.some.inj ((he sign hsign).symm.trans h)
    exact hle (by split <;> omega)
  · obtain ⟨m, hm, he⟩ := parseChars?_two_signs (f := f) l
    obtain rfl := Option.some.inj ((he s hs t ht).symm.trans h)
    exact hle (by split <;> omega)

/-- All that is accepted, and the patterns that it is read as: the sign bit is set where there is a
minus sign and nowhere else. -/
theorem parse?_grammar (f : FloatFormat) :
    (∀ text : String, (f.parse? text).isSome = true ↔
      (∃ sign ∈ [[], ['+'], ['-']], ∃ body, f.Body body ∧ text.toList = sign ++ body) ∨
      ∃ s ∈ ['+', '-'], ∃ t ∈ ['+', '-'], ∃ l : Literal Positional.decimal,
        text.toList = s :: t :: l.chars) ∧
    (∀ body, f.Body body → ∃ m < f.signBit, ∀ sign ∈ [[], ['+'], ['-']],
      f.parse? (String.ofList (sign ++ body)) =
        some (BitVec.ofNat 64 (if sign = ['-'] then f.signBit + m else m))) ∧
    ∀ l : Literal Positional.decimal, ∃ m < f.signBit, ∀ s ∈ ['+', '-'], ∀ t ∈ ['+', '-'],
      f.parse? (String.ofList (s :: t :: l.chars)) =
        some (BitVec.ofNat 64 (if s = '-' ∨ t = '-' then f.signBit + m else m)) := by
  refine ⟨fun text => ⟨signed_of_parseChars?, ?_⟩, fun body h => ?_, fun l => ?_⟩
  · rintro (⟨sign, hsign, body, hbody, htext⟩ | ⟨s, hs, t, ht, l, htext⟩)
    · obtain ⟨m, -, hm⟩ := hbody.parseChars?_eq
      rw [parse?, htext, hm sign hsign]
      rfl
    · obtain ⟨m, -, hm⟩ := parseChars?_two_signs (f := f) l
      rw [parse?, htext, hm s hs t ht]
      rfl
  · simpa only [parse?, String.toList_ofList] using h.parseChars?_eq
  · simpa only [parse?, String.toList_ofList] using parseChars?_two_signs l

/-- A NaN with a minus sign and a payload. -/
theorem parse?_grammar_of_payload :
    single.Body "NaN(0x2A)".toList ∧ ∃ m < single.signBit,
      single.parse? "-NaN(0x2A)" = some (BitVec.ofNat 64 (single.signBit + m)) := by
  have hv : Numeral.parseChars? "0x2A".toList = some ⟨false, 42⟩ := by decide
  have hbody : single.Body "NaN(0x2A)".toList := .payload hv rfl (by decide) (by decide)
  obtain ⟨m, hm, h⟩ := (parse?_grammar single).2.1 _ hbody
  exact ⟨hbody, m, hm, h ['-'] (by simp)⟩

/-- A second sign is accepted before a decimal number. -/
theorem two_signs_accepted :
    ¬((single.parse? "--1").isSome = true ↔
      ∃ sign ∈ [[], ['+'], ['-']], ∃ body, single.Body body ∧ "--1".toList = sign ++ body) := by
  intro h
  obtain ⟨sign, hsign, body, hbody, htext⟩ := h.1 (by decide +kernel)
  have hhead := hbody.head
  obtain rfl | rfl | rfl : sign = [] ∨ sign = ['+'] ∨ sign = ['-'] := by simpa using hsign
  · exact (hhead '-' (by rw [← List.nil_append body, ← htext]; rfl)).1 rfl
  · simp at htext
  · obtain rfl : ['-', '1'] = body := (List.cons.inj htext).2
    exact (hhead '-' rfl).1 rfl

end Packed.FloatFormat
