import Packed.Text.Numeral
import Packed.Proofs.Text.Words

namespace Packed

namespace Base

theorem one_lt_radix (b : Base) : 1 < b.radix := by cases b <;> decide

theorem radix_le (b : Base) : b.radix ≤ 16 := by cases b <;> decide

end Base

namespace Numeral

open TextStream

theorem digitValue_digitChar {d : Nat} (h : d < 16) : digitValue (Nat.digitChar d) = some d := by
  have hall : ∀ d : Fin 16, digitValue (Nat.digitChar d) = some d.val := by decide
  exact hall ⟨d, h⟩

theorem isWordChar_digitChar {d : Nat} (h : d < 16) : isWordChar (Nat.digitChar d) = true := by
  have hall : ∀ d : Fin 16, isWordChar (Nat.digitChar d) = true := by decide
  exact hall ⟨d, h⟩

theorem digitChar_ne_underscore {d : Nat} (h : d < 16) : Nat.digitChar d ≠ '_' := by
  have hall : ∀ d : Fin 16, Nat.digitChar d ≠ '_' := by decide
  exact hall ⟨d, h⟩

theorem digit?_digitChar {r d : Nat} (hr : r ≤ 16) (h : d < r) :
    digit? r (Nat.digitChar d) = some d := by
  rw [digit?, digitValue_digitChar (by omega)]
  simp [Option.filter, h]

theorem mem_toDigits {r n : Nat} (hr : 1 < r) {c : Char} (h : c ∈ Nat.toDigits r n) :
    ∃ d, d < r ∧ c = Nat.digitChar d := by
  induction n using Nat.strongRecOn with
  | ind n ih =>
      by_cases hn : n < r
      · rw [Nat.toDigits_of_lt_base hn, List.mem_singleton] at h
        exact ⟨n, hn, h⟩
      · rw [Nat.toDigits_of_base_le hr (by omega), List.mem_append, List.mem_singleton] at h
        obtain h | h := h
        · exact ih (n / r) (Nat.div_lt_self (by omega) hr) h
        · exact ⟨n % r, Nat.mod_lt _ (by omega), h⟩

theorem magnitudeFrom_append {r k : Nat} {sofar : Option Nat} {xs : List Char}
    (h : magnitudeFrom r sofar xs = some k) (ys : List Char) :
    magnitudeFrom r sofar (xs ++ ys) = magnitudeFrom r (some k) ys := by
  induction xs generalizing sofar with
  | nil =>
      rw [magnitudeFrom] at h
      rw [h]
      rfl
  | cons c cs ih =>
      rw [magnitudeFrom] at h
      rw [List.cons_append, magnitudeFrom]
      split
      · rename_i hc
        rw [if_pos hc] at h
        exact ih h
      · rename_i hc
        rw [if_neg hc] at h
        cases hd : digit? r c with
        | none => simp [hd] at h
        | some d =>
            simp only [hd] at h ⊢
            split
            · rename_i hlt
              rw [if_pos hlt] at h
              exact ih h
            · rename_i hlt
              rw [if_neg hlt] at h
              cases h

theorem magnitudeFrom_digit {r d : Nat} (hr : r ≤ 16) (hd : d < r) (sofar : Option Nat)
    (h : sofar.getD 0 * r + d < sizeLimit) :
    magnitudeFrom r sofar [Nat.digitChar d] = some (sofar.getD 0 * r + d) := by
  rw [magnitudeFrom, if_neg (digitChar_ne_underscore (by omega)), digit?_digitChar hr hd]
  simp only [if_pos h, magnitudeFrom]

theorem magnitudeFrom_toDigits {r n : Nat} (h1 : 1 < r) (hr : r ≤ 16) (hn : n < sizeLimit) :
    magnitudeFrom r none (Nat.toDigits r n) = some n := by
  induction n using Nat.strongRecOn with
  | ind n ih =>
      by_cases hlt : n < r
      · rw [Nat.toDigits_of_lt_base hlt, magnitudeFrom_digit hr hlt none (by simpa using hn)]
        simp
      · have hdiv : n / r < n := Nat.div_lt_self (by omega) h1
        have hsum : n / r * r + n % r = n := by
          rw [Nat.mul_comm]
          exact Nat.div_add_mod n r
        rw [Nat.toDigits_of_base_le h1 (by omega),
          magnitudeFrom_append (ih (n / r) hdiv (by omega)),
          magnitudeFrom_digit hr (Nat.mod_lt _ (by omega)) _ (by simpa [hsum] using hn)]
        exact congrArg some hsum

theorem magnitudeFrom_filter (r : Nat) (sofar : Option Nat) (cs : List Char) :
    magnitudeFrom r sofar (cs.filter (· ≠ '_')) = magnitudeFrom r sofar cs := by
  induction cs generalizing sofar with
  | nil => rfl
  | cons c cs ih =>
      by_cases hc : c = '_'
      · rw [List.filter_cons_of_neg (by simp [hc]), magnitudeFrom, if_pos hc, ih]
      · rw [List.filter_cons_of_pos (by simp [hc]), magnitudeFrom, magnitudeFrom, if_neg hc,
          if_neg hc]
        cases digit? r c with
        | none => rfl
        | some d =>
            dsimp only
            split
            · exact ih _
            · rfl

theorem filter_separate (size k : Nat) (ds : List Char) :
    (separate size k ds).filter (· ≠ '_') = ds.filter (· ≠ '_') := by
  induction ds generalizing k with
  | nil => rfl
  | cons d ds ih =>
      rw [separate]
      split
      · rw [List.filter_cons_of_neg (by simp), List.filter_cons, List.filter_cons, ih]
      · rw [List.filter_cons, List.filter_cons, ih]

theorem filter_digitChars (b : Base) (grouping : Bool) (n : Nat) :
    (digitChars b grouping n).filter (· ≠ '_') = Nat.toDigits b.radix n := by
  have hplain : (Nat.toDigits b.radix n).filter (· ≠ '_') = Nat.toDigits b.radix n := by
    rw [List.filter_eq_self]
    intro c hc
    obtain ⟨d, hd, rfl⟩ := mem_toDigits b.one_lt_radix hc
    have h16 := b.radix_le
    exact decide_eq_true (digitChar_ne_underscore (by omega))
  cases grouping with
  | false => exact hplain
  | true =>
      change ((separate b.groupSize 0 (Nat.toDigits b.radix n).reverse).reverse).filter _ = _
      rw [List.filter_reverse, filter_separate, List.filter_reverse, List.reverse_reverse, hplain]

theorem magnitudeFrom_digitChars (b : Base) (grouping : Bool) {n : Nat} (hn : n < sizeLimit) :
    magnitudeFrom b.radix none (digitChars b grouping n) = some n := by
  rw [← magnitudeFrom_filter, filter_digitChars]
  exact magnitudeFrom_toDigits b.one_lt_radix b.radix_le hn

theorem mem_digitChars {b : Base} {grouping : Bool} {n : Nat} {c : Char}
    (h : c ∈ digitChars b grouping n) : c = '_' ∨ ∃ d, d < b.radix ∧ c = Nat.digitChar d := by
  by_cases hc : c = '_'
  · exact .inl hc
  · refine .inr (mem_toDigits b.one_lt_radix (n := n) ?_)
    rw [← filter_digitChars b grouping n, List.mem_filter]
    exact ⟨h, by simpa using hc⟩

theorem digitChars_ne_nil (b : Base) (grouping : Bool) (n : Nat) :
    digitChars b grouping n ≠ [] := by
  intro h
  have hf := filter_digitChars b grouping n
  rw [h] at hf
  exact Nat.toDigits_ne_nil hf.symm

theorem splitBase_decimal {cs : List Char} (h : ∀ c ∈ cs, c ∉ ['x', 'X', 'b', 'B']) :
    splitBase cs = (.decimal, cs) := by
  rw [splitBase.eq_def]
  split
  · exact absurd (h 'x' (by simp)) (by decide)
  · exact absurd (h 'X' (by simp)) (by decide)
  · exact absurd (h 'b' (by simp)) (by decide)
  · exact absurd (h 'B' (by simp)) (by decide)
  · rfl

theorem splitBase_marker (b : Base) (grouping : Bool) (n : Nat) :
    splitBase (b.marker ++ digitChars b grouping n) = (b, digitChars b grouping n) := by
  cases b with
  | binary => rfl
  | hexadecimal => rfl
  | decimal =>
      refine splitBase_decimal fun c hc => ?_
      obtain rfl | ⟨d, hd, rfl⟩ := mem_digitChars hc
      · decide
      · have hall : ∀ d : Fin 10, Nat.digitChar d ∉ ['x', 'X', 'b', 'B'] := by decide
        exact hall ⟨d, hd⟩

theorem isWordChar_of_mem {b : Base} {grouping : Bool} {n : Nat} {c : Char}
    (h : c ∈ b.marker ++ digitChars b grouping n) : isWordChar c = true := by
  obtain h | h := List.mem_append.1 h
  · have hm : b.marker.all isWordChar = true := by cases b <;> decide
    exact List.all_eq_true.1 hm c h
  · obtain rfl | ⟨d, hd, rfl⟩ := mem_digitChars h
    · rfl
    · have h16 := b.radix_le
      exact isWordChar_digitChar (by omega)

theorem ne_minus_of_mem {b : Base} {grouping : Bool} {n : Nat} :
    '-' ∉ b.marker ++ digitChars b grouping n := by
  intro h
  obtain h | h := List.mem_append.1 h
  · have hm : '-' ∉ b.marker := by cases b <;> decide
    exact hm h
  · obtain h | ⟨d, hd, h⟩ := mem_digitChars h
    · cases h
    · have hall : ∀ d : Fin 16, '-' ≠ Nat.digitChar d := by decide
      have h16 := b.radix_le
      exact hall ⟨d, by omega⟩ h

theorem splitSign_of_notMem {cs : List Char} (h : '-' ∉ cs) : splitSign cs = (false, cs) := by
  rw [splitSign.eq_def]
  split
  · simp at h
  · rfl

theorem splitSign_renderChars (n : Numeral) (b : Base) (grouping : Bool) :
    splitSign (n.renderChars b grouping) =
      (n.negative, b.marker ++ digitChars b grouping n.magnitude) := by
  rw [renderChars]
  cases n.negative with
  | true => rfl
  | false => exact splitSign_of_notMem ne_minus_of_mem

theorem parse?_render (n : Numeral) (b : Base) (grouping : Bool) (h : n.magnitude < sizeLimit) :
    parse? (n.render b grouping) = some n := by
  rw [parse?, render, String.toList_ofList, parseChars?, splitSign_renderChars]
  dsimp only
  rw [splitBase_marker]
  dsimp only
  rw [magnitudeFrom_digitChars b grouping h]
  rfl

theorem isWord_render (n : Numeral) (b : Base) (grouping : Bool) :
    IsWord (n.render b grouping) := by
  rw [IsWord, render, String.toList_ofList, renderChars]
  refine ⟨?_, ?_⟩
  · simp [digitChars_ne_nil]
  · refine List.all_eq_true.2 fun c hc => ?_
    rw [List.append_assoc] at hc
    obtain hc | hc := List.mem_append.1 hc
    · split at hc
      · obtain rfl := List.mem_singleton.1 hc
        rfl
      · cases hc
    · exact isWordChar_of_mem hc

theorem ofInt_natCast (n : Nat) : ofInt n = ⟨false, n⟩ := by
  have h : ¬ (n : Int) < 0 := by omega
  simp [ofInt, h]

theorem toNat?_ofInt (n : Nat) : (ofInt n).toNat? = some n := by
  rw [ofInt_natCast]
  rfl

theorem toInt?_ofInt {n : Int} (h : (IntType.mk true 64).contains n = true) :
    (ofInt n).toInt? = some n := by
  have hv : (if (ofInt n).negative then -((ofInt n).magnitude : Int) else (ofInt n).magnitude) =
      n := by
    simp only [ofInt, decide_eq_true_eq]
    split <;> omega
  rw [toInt?]
  simp only [hv, h, if_true]

theorem magnitude_ofInt_lt {n : Int} (h : (IntType.mk true 64).contains n = true) :
    (ofInt n).magnitude < sizeLimit := by
  have hlow : (IntType.mk true 64).low = -9223372036854775808 := by decide
  have hhigh : (IntType.mk true 64).high = 9223372036854775807 := by decide
  have hlim := sizeLimit_eq
  simp only [IntType.contains, Bool.and_eq_true, decide_eq_true_eq, hlow, hhigh] at h
  simp only [ofInt]
  omega

theorem toString_eq_render (n : Nat) : toString n = (ofInt n).render .decimal false := by
  rw [Nat.toString_eq_ofList_toDigits, ofInt_natCast]
  rfl

end Numeral

namespace TextOptions

open TextStream

theorem number_spells (o : TextOptions) (n : Int) :
    Spells o.multiline (o.number n) [o.plainNumber n] := by
  have hw : IsWord (o.plainNumber n) := Numeral.isWord_render _ _ _
  rw [number]
  split
  · rename_i hc
    obtain ⟨-, hm⟩ := Bool.and_eq_true_iff.1 hc
    rw [hm]
    exact hw.spells_comment (Numeral.isWord_render _ _ _).newline_notMem
  · exact hw.spells _

end TextOptions

namespace Parser

open TextStream

theorem numeral_yields {α : Type} {accept : Numeral → Option α} {w : String} {a : α}
    (h : (Numeral.parse? w).bind accept = some a) : (numeral accept).Yields [w] a := by
  intro s us hs
  obtain ⟨t, s', hn, ht, -, hw⟩ := token_of_cons hs
  refine ⟨s', ?_, hw⟩
  rw [numeral, bind_ok hn, ht, h]
  rfl

theorem unsigned_yields (n : Nat) (b : Base) (grouping : Bool) (h : n < sizeLimit) :
    unsigned.Yields [(Numeral.ofInt n).render b grouping] n := by
  apply numeral_yields
  rw [Numeral.parse?_render _ _ _ (by simpa [Numeral.ofInt] using h), Option.bind_some,
    Numeral.toNat?_ofInt]

theorem signed_yields {n : Int} (b : Base) (grouping : Bool)
    (h : (IntType.mk true 64).contains n = true) :
    signed.Yields [(Numeral.ofInt n).render b grouping] n := by
  apply numeral_yields
  rw [Numeral.parse?_render _ _ _ (Numeral.magnitude_ofInt_lt h), Option.bind_some,
    Numeral.toInt?_ofInt h]

end Parser

end Packed
