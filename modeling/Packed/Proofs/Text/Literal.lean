import Packed.Proofs.Text.Numeral
import Packed.Proofs.Text.Positional

namespace Packed

def Base.markers : Base → List (List Char)
  | .binary => [['0', 'b'], ['0', 'B']]
  | .decimal => [[]]
  | .hexadecimal => [['0', 'x'], ['0', 'X']]

namespace Numeral

open Positional (IsDigits number)

def bare (cs : List Char) : List Char := cs.filter (· ≠ '_')

/-- An integer literal: perhaps a minus sign, perhaps the marker of a base, and at least one digit
of the base, with underscores before, among and after the digits. -/
structure Literal where
  negative : Bool
  base : Base
  marker : List Char
  body : List Char
  marker_mem : marker ∈ base.markers
  isDigits : IsDigits base.radix (bare body)
  digits_ne : bare body ≠ []

namespace Literal

variable (l : Literal)

def chars : List Char := (if l.negative then ['-'] else []) ++ (l.marker ++ l.body)

def numeral : Numeral := ⟨l.negative, number l.base.radix (bare l.body)⟩

end Literal

def value (n : Numeral) : Int := if n.negative then -n.magnitude else n.magnitude

def Denotes (text : String) (v : Int) : Prop :=
  ∃ l : Literal, l.chars = text.toList ∧ l.numeral.value = v

section

variable {r n k : Nat} {c : Char} {cs : List Char}

theorem bare_nil : bare [] = [] := rfl

theorem bare_underscore : bare ('_' :: cs) = bare cs := List.filter_cons_of_neg (by simp)

theorem bare_cons (h : c ≠ '_') : bare (c :: cs) = c :: bare cs :=
  List.filter_cons_of_pos (by simpa using h)

theorem mem_of_bare (h : c ∈ cs) : c = '_' ∨ c ∈ bare cs := by
  by_cases hc : c = '_'
  · exact .inl hc
  · exact .inr (List.mem_filter.2 ⟨h, by simpa using hc⟩)

theorem toNat_lt_of_digitValue {d : Nat} (h : digitValue c = some d) : c.toNat < 103 := by
  have hle : ∀ a : Char, c ≤ a ↔ c.toNat ≤ a.toNat := fun a => UInt32.le_iff_toNat_le
  have h9 : '9'.toNat = 57 := rfl
  have hf : 'f'.toNat = 102 := rfl
  have hF : 'F'.toNat = 70 := rfl
  simp only [digitValue, hle] at h
  split at h
  · omega
  · split at h
    · omega
    · split at h
      · omega
      · cases h

theorem digit?_eq_some_iff (hr : r ≤ 16) {d : Nat} :
    digit? r c = some d ↔ d < r ∧ (c = Nat.digitChar d ∨ c = (Nat.digitChar d).toUpper) := by
  have hwritten : ∀ d : Fin 16, digitValue (Nat.digitChar d) = some d.val ∧
      digitValue (Nat.digitChar d).toUpper = some d.val := by decide
  have hread : ∀ n : Fin 103, ∀ d ∈ digitValue (Char.ofNat n),
      Char.ofNat n = Nat.digitChar d ∨ Char.ofNat n = (Nat.digitChar d).toUpper := by decide +kernel
  rw [digit?, Option.filter_eq_some_iff, decide_eq_true_eq]
  constructor
  · rintro ⟨h, hd⟩
    have hc := hread ⟨c.toNat, toNat_lt_of_digitValue h⟩ d
    rw [Char.ofNat_toNat] at hc
    exact ⟨hd, hc h⟩
  · rintro ⟨hd, rfl | rfl⟩
    · exact ⟨(hwritten ⟨d, by omega⟩).1, hd⟩
    · exact ⟨(hwritten ⟨d, by omega⟩).2, hd⟩

theorem magnitudeFrom_some_iff (hr : 0 < r) (hn : n < sizeLimit) :
    magnitudeFrom r (some n) cs = some k ↔ IsDigits r (bare cs) ∧
      k = n * r ^ (bare cs).length + number r (bare cs) ∧ k < sizeLimit := by
  induction cs generalizing n with
  | nil =>
      rw [magnitudeFrom, bare_nil, Option.some_inj]
      simp only [Positional.isDigits_nil, true_and, List.length_nil, pow_zero, mul_one,
        Positional.number_nil, Nat.add_zero]
      constructor
      · rintro rfl
        exact ⟨rfl, hn⟩
      · rintro ⟨rfl, -⟩
        rfl
  | cons c cs ih =>
      by_cases hc : c = '_'
      · subst hc
        rw [magnitudeFrom, if_pos rfl, bare_underscore]
        exact ih hn
      · rw [magnitudeFrom, if_neg hc, bare_cons hc, Positional.isDigits_cons,
          Positional.number_cons, List.length_cons]
        cases hd : digit? r c with
        | none => simp
        | some d =>
            have hnumber : n * r ^ ((bare cs).length + 1) +
                (d * r ^ (bare cs).length + number r (bare cs)) =
                  (n * r + d) * r ^ (bare cs).length + number r (bare cs) := by ring
            simp only [Option.getD_some, Option.isSome_some, true_and, hnumber]
            split
            · rename_i hlt
              exact ih hlt
            · rename_i hlt
              -- what is past the limit stays there whatever digits come
              have hle : n * r + d ≤ (n * r + d) * r ^ (bare cs).length :=
                Nat.le_mul_of_pos_right _ (Nat.pow_pos hr)
              constructor
              · rintro ⟨⟩
              · rintro ⟨-, rfl, hlt'⟩
                omega

theorem magnitudeFrom_none (r : Nat) (cs : List Char) : magnitudeFrom r none cs =
    if bare cs = [] then none else magnitudeFrom r (some 0) cs := by
  induction cs with
  | nil => rfl
  | cons c cs ih =>
      by_cases hc : c = '_'
      · subst hc
        rw [magnitudeFrom, if_pos rfl, bare_underscore, ih]
        rw [magnitudeFrom, if_pos rfl]
      · rw [bare_cons hc, if_neg (List.cons_ne_nil _ _), magnitudeFrom, magnitudeFrom, if_neg hc,
          if_neg hc]
        rfl

theorem magnitudeFrom_none_iff (hr : 0 < r) : magnitudeFrom r none cs = some k ↔
    bare cs ≠ [] ∧ IsDigits r (bare cs) ∧ k = number r (bare cs) ∧ k < sizeLimit := by
  rw [magnitudeFrom_none, Option.ite_none_left_eq_some,
    magnitudeFrom_some_iff hr (by decide), Nat.zero_mul, Nat.zero_add]

theorem splitSign_append (cs : List Char) :
    (if (splitSign cs).1 then ['-'] else []) ++ (splitSign cs).2 = cs := by
  rw [splitSign.eq_def]
  split <;> rfl

theorem splitBase_append (cs : List Char) :
    ∃ marker ∈ (splitBase cs).1.markers, marker ++ (splitBase cs).2 = cs := by
  rw [splitBase.eq_def]
  split
  · exact ⟨['0', 'x'], by simp [Base.markers], rfl⟩
  · exact ⟨['0', 'X'], by simp [Base.markers], rfl⟩
  · exact ⟨['0', 'b'], by simp [Base.markers], rfl⟩
  · exact ⟨['0', 'B'], by simp [Base.markers], rfl⟩
  · exact ⟨[], by simp [Base.markers], rfl⟩

end

namespace Literal

variable (l : Literal)

theorem mem_body {c : Char} (h : c ∈ l.body) : c = '_' ∨ (digit? l.base.radix c).isSome = true := by
  obtain rfl | hc := mem_of_bare h
  · exact .inl rfl
  · exact .inr (l.isDigits c hc)

theorem splitBase_chars : splitBase (l.marker ++ l.body) = (l.base, l.body) := by
  obtain ⟨negative, base, marker, body, hmarker, hdigits, hne⟩ := l
  cases base with
  | binary =>
      obtain rfl | rfl : marker = ['0', 'b'] ∨ marker = ['0', 'B'] := by
        simpa [Base.markers] using hmarker
      · rfl
      · rfl
  | hexadecimal =>
      obtain rfl | rfl : marker = ['0', 'x'] ∨ marker = ['0', 'X'] := by
        simpa [Base.markers] using hmarker
      · rfl
      · rfl
  | decimal =>
      obtain rfl : marker = [] := by simpa [Base.markers] using hmarker
      refine splitBase_decimal fun c hc hm => ?_
      have hletters : ['x', 'X', 'b', 'B'].all fun c => (digit? 10 c).isNone && c != '_' := by
        decide
      have hletter := List.all_eq_true.1 hletters c hm
      simp only [Bool.and_eq_true, Option.isNone_iff_eq_none, bne_iff_ne] at hletter
      obtain h | h := mem_of_bare hc
      · exact hletter.2 h
      · have hd := hdigits c h
        rw [show Base.decimal.radix = 10 from rfl, hletter.1] at hd
        cases hd

theorem minus_notMem : '-' ∉ l.marker ++ l.body := by
  intro h
  obtain h | h := List.mem_append.1 h
  · have hmarkers : ∀ b : Base, b.markers.all fun marker => !marker.contains '-' := by
      intro b
      cases b <;> decide
    have hm := List.all_eq_true.1 (hmarkers l.base) l.marker l.marker_mem
    simp [h] at hm
  · obtain h | h := l.mem_body h
    · cases h
    · rw [Positional.digit?_of_mem (by simp)] at h
      cases h

theorem splitSign_chars : splitSign l.chars = (l.negative, l.marker ++ l.body) := by
  rw [chars]
  cases l.negative with
  | true => rfl
  | false => exact splitSign_of_notMem l.minus_notMem

end Literal

theorem parseChars?_eq (cs : List Char) : parseChars? cs =
    (magnitudeFrom (splitBase (splitSign cs).2).1.radix none (splitBase (splitSign cs).2).2).map
      fun n => ⟨(splitSign cs).1, n⟩ := rfl

theorem parseChars?_eq_some_iff {cs : List Char} {n : Numeral} : parseChars? cs = some n ↔
    ∃ l : Literal, l.chars = cs ∧ l.numeral = n ∧ n.magnitude < sizeLimit := by
  have hpos : ∀ b : Base, 0 < b.radix := fun b => Nat.zero_lt_of_lt b.one_lt_radix
  rw [parseChars?_eq]
  constructor
  · intro h
    obtain ⟨k, hk, rfl⟩ := Option.map_eq_some_iff.1 h
    obtain ⟨hne, hdigits, rfl, hlt⟩ := (magnitudeFrom_none_iff (hpos _)).1 hk
    obtain ⟨marker, hmarker, hbody⟩ := splitBase_append (splitSign cs).2
    have hsign := splitSign_append cs
    rw [← hbody] at hsign
    exact ⟨⟨_, _, marker, _, hmarker, hdigits, hne⟩, hsign, rfl, hlt⟩
  · rintro ⟨l, rfl, rfl, hlt⟩
    have hread := (magnitudeFrom_none_iff (hpos l.base)).2 ⟨l.digits_ne, l.isDigits, rfl, hlt⟩
    rw [l.splitSign_chars, l.splitBase_chars, hread]
    rfl

section

variable {n : Numeral} {text : String} {k : Nat} {v : Int}

theorem toNat?_eq_some_iff : n.toNat? = some k ↔ n.value = k := by
  obtain ⟨negative, magnitude⟩ := n
  rw [toNat?, value]
  cases negative with
  | false => simp
  | true =>
      simp only [true_and, if_true]
      split
      · rename_i hne
        constructor
        · rintro ⟨⟩
        · intro h
          omega
      · rw [Option.some_inj]
        omega

theorem toInt?_eq_some_iff :
    n.toInt? = some v ↔ n.value = v ∧ (IntType.mk true 64).contains v = true := by
  rw [toInt?, ← value, Option.ite_none_right_eq_some, Option.some_inj]
  constructor
  · rintro ⟨h, rfl⟩
    exact ⟨rfl, h⟩
  · rintro ⟨rfl, h⟩
    exact ⟨h, rfl⟩

theorem toInt_neg_ofNat {m : Nat} (h : m ≤ 2 ^ 63) : (-BitVec.ofNat 64 m).toInt = -(m : Int) := by
  rw [BitVec.toInt_eq_toNat_cond, BitVec.toNat_neg, BitVec.toNat_ofNat]
  split <;> omega

theorem toInt_ofNat {m : Nat} (h : m < 2 ^ 63) : (BitVec.ofNat 64 m).toInt = (m : Int) := by
  rw [BitVec.toInt_eq_toNat_cond, BitVec.toNat_ofNat]
  split <;> omega

/-- The sign may as well be put on the word of the magnitude, which also yields the least number
that has a sign. -/
theorem toInt?_eq_word (n : Numeral) : n.toInt? =
    if n.negative then
      if n.magnitude ≤ 2 ^ 63 then some (-BitVec.ofNat 64 n.magnitude).toInt else none
    else if n.magnitude < 2 ^ 63 then some (BitVec.ofNat 64 n.magnitude).toInt else none := by
  obtain ⟨negative, m⟩ := n
  cases negative with
  | true =>
      have hrange : (IntType.mk true 64).contains (-m) = true ↔ m ≤ 2 ^ 63 := by
        rw [IntType.contains_signed_iff]
        omega
      simp only [toInt?, if_true, hrange]
      split
      · rename_i h
        rw [toInt_neg_ofNat h]
      · rfl
  | false =>
      have hrange : (IntType.mk true 64).contains m = true ↔ m < 2 ^ 63 := by
        rw [IntType.contains_signed_iff]
        omega
      simp only [toInt?, Bool.false_eq_true, if_false, hrange]
      split
      · rename_i h
        rw [toInt_ofNat h]
      · rfl

theorem magnitude_eq : n.magnitude = n.value.natAbs := by
  rw [value]
  split <;> omega

theorem parse?_bind_iff {α : Type} {accept : Numeral → Option α} {a : α} {t : IntType}
    (haccept : ∀ n, n.magnitude < sizeLimit →
      (accept n = some a ↔ n.value = v ∧ t.contains v = true))
    (hfits : t.contains v = true → v.natAbs < sizeLimit) :
    (parse? text).bind accept = some a ↔ Denotes text v ∧ t.contains v = true := by
  rw [Option.bind_eq_some_iff]
  constructor
  · rintro ⟨n, hn, ha⟩
    obtain ⟨l, hl, rfl, hlt⟩ := parseChars?_eq_some_iff.1 hn
    obtain ⟨hv, hc⟩ := (haccept _ hlt).1 ha
    exact ⟨⟨l, hl, hv⟩, hc⟩
  · rintro ⟨⟨l, hl, hv⟩, hc⟩
    have hlt : l.numeral.magnitude < sizeLimit := by
      rw [magnitude_eq, hv]
      exact hfits hc
    exact ⟨_, parseChars?_eq_some_iff.2 ⟨l, hl, rfl, hlt⟩, (haccept _ hlt).2 ⟨hv, hc⟩⟩

theorem parse?_toNat?_iff : (parse? text).bind toNat? = some k ↔
    Denotes text k ∧ (IntType.mk false 64).contains k = true := by
  have hword : (IntType.mk false 64).contains k = true ↔ k < sizeLimit := by
    rw [IntType.contains_unsigned_iff, sizeLimit, Nat.pow_eq]
    omega
  refine parse?_bind_iff (fun n hn => ?_) fun h => by simpa using hword.1 h
  rw [toNat?_eq_some_iff, hword, iff_self_and]
  intro hv
  rwa [magnitude_eq, hv, Int.natAbs_natCast] at hn

theorem parse?_toInt?_iff : (parse? text).bind toInt? = some v ↔
    Denotes text v ∧ (IntType.mk true 64).contains v = true :=
  parse?_bind_iff (fun _ _ => toInt?_eq_some_iff) fun h => magnitude_ofInt_lt h

end

/-- The reader of integers accepts exactly the literals of numbers that fit in a word, and yields
their sign and magnitude. A number is one without a sign unless it is negative, and one of 64 bits
with a sign if it lies in their range. -/
theorem parse?_accepts_literals (text : String) (n : Numeral) :
    (parse? text = some n ↔
      ∃ l : Literal, l.chars = text.toList ∧ l.numeral = n ∧ n.magnitude < 2 ^ 64) ∧
      (∀ (b : Base) (c : Char) (d : Nat), digit? b.radix c = some d ↔
        d < b.radix ∧ (c = Nat.digitChar d ∨ c = (Nat.digitChar d).toUpper)) ∧
      (∀ k : Nat, n.toNat? = some k ↔ n.value = k) ∧
      (∀ v : Int, n.toInt? = some v ↔ n.value = v ∧ -2 ^ 63 ≤ v ∧ v < 2 ^ 63) ∧
      n.toInt? = if n.negative then
          if n.magnitude ≤ 2 ^ 63 then some (-BitVec.ofNat 64 n.magnitude).toInt else none
        else if n.magnitude < 2 ^ 63 then some (BitVec.ofNat 64 n.magnitude).toInt else none := by
  refine ⟨parseChars?_eq_some_iff, fun b c d => digit?_eq_some_iff b.radix_le,
    fun k => toNat?_eq_some_iff, fun v => ?_, toInt?_eq_word n⟩
  rw [toInt?_eq_some_iff, IntType.contains_signed_iff]
  norm_num

end Numeral

end Packed
