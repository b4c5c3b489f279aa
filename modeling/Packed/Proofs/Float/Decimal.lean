import Mathlib.Tactic.IntervalCases
import Packed.Proofs.Float.Rounding
import Packed.Proofs.Text.Positional

namespace Packed.FloatFormat

open Positional

variable {c : Char} {cs : List Char}

theorem isDigit_iff : isDigit c = true ↔ c ∈ ['0', '1', '2', '3', '4', '5', '6', '7', '8', '9'] := by
  constructor
  · intro h
    simp only [isDigit, Bool.and_eq_true, decide_eq_true_eq, Char.le_def, UInt32.le_iff_toNat_le] at h
    have hc : c = Char.ofNat c.toNat := c.ofNat_toNat.symm
    obtain ⟨hlow, hhigh⟩ : 48 ≤ c.toNat ∧ c.toNat ≤ 57 := h
    generalize c.toNat = n at *
    subst hc
    interval_cases n <;> decide
  · have hall : ['0', '1', '2', '3', '4', '5', '6', '7', '8', '9'].all isDigit = true := rfl
    exact List.all_eq_true.1 hall c

theorem isDecimalChar_iff : isDecimalChar c = true ↔
    c ∈ ['0', '1', '2', '3', '4', '5', '6', '7', '8', '9', '.', 'e', 'E', '+', '-'] := by
  simp [isDecimalChar, isDigit_iff, or_assoc]

theorem of_isDecimalChar (p : Char → Bool)
    (hp : ['0', '1', '2', '3', '4', '5', '6', '7', '8', '9', '.', 'e', 'E', '+', '-'].all p = true)
    (h : isDecimalChar c = true) : p c = true :=
  List.all_eq_true.1 hp c (isDecimalChar_iff.1 h)

theorem spells_eq_false (word : String) (hword : 'n' ∈ word.toList)
    (h : cs.all isDecimalChar = true) : spells word cs = false := by
  rw [spells, beq_eq_false_iff_ne]
  intro heq
  rw [← heq, List.mem_map] at hword
  obtain ⟨c, hc, hn⟩ := hword
  have hlower := of_isDecimalChar (·.toLower != 'n') rfl (List.all_eq_true.1 h c hc)
  exact bne_iff_ne.1 hlower hn

end Packed.FloatFormat

namespace Packed.Positional

open FloatFormat

namespace Exponent

theorem isDecimalChar_of_mem (p : Exponent) {c : Char} (h : c ∈ p.chars) : isDecimalChar c = true := by
  obtain h | h := List.mem_append.1 h
  · have hsign := p.sign_mem
    simp only [List.mem_cons, List.not_mem_nil, or_false] at hsign
    obtain hs | hs | hs := hsign <;> rw [hs] at h <;> simp at h <;> subst h <;> decide
  · have hd := List.all_eq_true.1 (isDigits_ten.1 p.isDigits) c h
    simp [isDecimalChar, hd]

end Exponent

namespace Literal

variable (l : Literal decimal)

theorem isDecimalChar_of_mem {c : Char} (h : c ∈ l.chars) : isDecimalChar c = true := by
  have hdigits : ∀ {cs}, IsDigits 10 cs → c ∈ cs → isDecimalChar c = true := fun hcs hc => by
    simp [isDecimalChar, List.all_eq_true.1 (isDigits_ten.1 hcs) c hc]
  have hfraction := l.isDigits_fraction
  have hmark := l.isMark
  simp only [chars, mantissaChars, List.mem_append] at h
  obtain (h | h) | h := h
  · exact hdigits l.isDigits_whole h
  · cases hf : l.fraction with
    | none => simp [hf] at h
    | some ds =>
        rw [hf] at h hfraction
        obtain rfl | h := List.mem_cons.1 h
        · rfl
        · exact hdigits hfraction h
  · cases hp : l.power with
    | none => simp [hp] at h
    | some m =>
        rw [hp] at h
        obtain rfl | h := List.mem_cons.1 h
        · have hm : m.1 = 'e' ∨ m.1 = 'E' := by simpa [decimal] using hmark m hp
          obtain hm | hm := hm <;> rw [hm] <;> rfl
        · exact m.2.isDecimalChar_of_mem h

theorem all_isDecimalChar : l.chars.all isDecimalChar = true :=
  List.all_eq_true.2 fun _ => l.isDecimalChar_of_mem

theorem chars_ne_nil {s : Style} (l : Literal s) : l.chars ≠ [] := by
  intro h
  have hne := l.digits_ne
  cases hf : l.fraction <;> simp_all [chars, mantissaChars]

theorem head_chars {s : Style} (l : Literal s) : ∀ c ∈ l.chars.head?, c ≠ '-' ∧ c ≠ '+' := by
  intro c hc
  have hne := l.digits_ne
  cases hw : l.whole with
  | cons d ds =>
      have hd := l.isDigits_whole d (by simp [hw])
      obtain rfl : d = c := by simpa [chars, mantissaChars, hw] using hc
      constructor <;> rintro rfl <;> simp [digit?_of_mem] at hd
  | nil =>
      cases hf : l.fraction with
      | none => simp [hw, hf] at hne
      | some ds =>
          obtain rfl : '.' = c := by simpa [chars, mantissaChars, hw, hf] using hc
          decide

end Literal

end Packed.Positional

namespace Packed.FloatFormat

open Positional

variable (f : FloatFormat) {cs : List Char}

theorem decimal?_chars (l : Literal decimal) {e : ℤ}
    (he : (l.power.map (·.2.chars)).elim (some 0) longExponent? = some e) :
    f.decimal? l.chars = some (f.roundScaled (number 10 l.digits) 10 (e - l.places)) := by
  have hn : wholeNumber? 10 l.digits = some (number 10 l.digits) :=
    wholeNumber?_eq_some_iff.2 ⟨l.isDigits_digits, rfl⟩
  simp only [decimal?, Option.bind_eq_bind]
  change (positional? decimal.isMark longExponent? l.chars).bind _ = _
  rw [l.positional?_chars he, Option.bind_some]
  change (wholeNumber? 10 l.digits).bind _ = _
  rw [hn]
  rfl

theorem decimal?_isSome_iff : (f.decimal? cs).isSome = true ↔ ∃ l : Literal decimal, l.chars = cs := by
  constructor
  · intro h
    obtain ⟨m, hm⟩ := Option.isSome_iff_exists.1 h
    simp only [decimal?, Option.bind_eq_bind, Option.bind_eq_some_iff] at hm
    obtain ⟨⟨whole, fraction, e⟩, hparts, n, hn, -⟩ := hm
    obtain ⟨hwhole, hfraction⟩ := isDigits_append.1 (wholeNumber?_eq_some_iff.1 hn).1
    refine exists_literal (s := decimal) hparts (fun cs e he => ?_) hwhole hfraction
    obtain ⟨p, hp⟩ := Exponent.longExponent?_isSome_iff.1 (Option.isSome_iff_exists.2 ⟨e, he⟩)
    exact ⟨p, hp, trivial⟩
  · rintro ⟨l, rfl⟩
    obtain ⟨e, he⟩ : ∃ e, (l.power.map (·.2.chars)).elim (some 0) longExponent? = some e := by
      cases l.power with
      | none => exact ⟨0, rfl⟩
      | some m => exact Option.isSome_iff_exists.1 (Exponent.longExponent?_isSome_iff.2 ⟨m.2, rfl⟩)
    rw [f.decimal?_chars l he]
    rfl

theorem decimal?_nearest (l : Literal decimal) (h : ∀ m ∈ l.power, number 10 m.2.digits < 65536) :
    ∃ m, f.decimal? l.chars = some m ∧ f.Nearest l.value m := by
  have he : (l.power.map (·.2.chars)).elim (some 0) longExponent? = some l.exponent := by
    rw [Literal.exponent]
    cases hp : l.power with
    | none => rfl
    | some m => exact m.2.longExponent?_chars (h m hp)
  have hvalue : l.value = number 10 l.digits * (10 : ℚ) ^ (l.exponent - l.places) := by
    rw [Literal.value, zpow_sub₀ (by norm_num), zpow_natCast]
    norm_num [decimal]
    ring
  rw [hvalue]
  exact ⟨_, f.decimal?_chars l he, by exact_mod_cast f.roundScaled_nearest _ (by decide) _⟩

theorem decimal?_le {m : Nat} (h : f.decimal? cs = some m) : m ≤ f.infinity := by
  simp only [decimal?, Option.bind_eq_bind, Option.bind_eq_some_iff] at h
  obtain ⟨⟨whole, fraction, e⟩, -, n, -, hm⟩ := h
  exact Option.some.inj hm ▸ (f.roundScaled_nearest n (by decide) _).le

end Packed.FloatFormat
