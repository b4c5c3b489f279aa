import Packed.Proofs.Text.Literal
import Packed.Proofs.Text.ScalarText
import Packed.Proofs.Text.Tokens

namespace Packed

namespace Numeral

open TextStream

/-- Underscores stand one at a time and between other characters, and what follows one of them is a
number of whole groups. -/
structure Spaced (size : Nat) (cs : List Char) : Prop where
  first : cs.head? ≠ some '_'
  last : cs.getLast? ≠ some '_'
  single : ¬['_', '_'] <:+: cs
  whole : ∀ xs ys, cs = xs ++ '_' :: ys → size ∣ (bare ys).length

section

variable {size k : Nat} {ds : List Char}

theorem head?_separate (size : Nat) (ds : List Char) : (separate size 0 ds).head? = ds.head? := by
  cases ds <;> simp [separate]

theorem separate_single (h : '_' ∉ ds) : ¬['_', '_'] <:+: separate size k ds := by
  induction ds generalizing k with
  | nil => simp [separate]
  | cons d ds ih =>
      rw [List.mem_cons, not_or] at h
      have hdigit : ¬['_', '_'] <:+: d :: separate size (k + 1) ds := by
        rw [List.infix_cons_iff, List.cons_prefix_cons]
        rintro (⟨hd, -⟩ | hs)
        · exact h.1 hd
        · exact ih h.2 hs
      rw [separate]
      split
      · rw [List.infix_cons_iff, List.cons_prefix_cons, List.cons_prefix_cons]
        rintro (⟨-, hd, -⟩ | hs)
        · exact h.1 hd
        · exact hdigit hs
      · exact hdigit

theorem separate_whole (h : '_' ∉ ds) {xs ys : List Char}
    (hs : separate size k ds = xs ++ '_' :: ys) : size ∣ k + (bare xs).length := by
  induction ds generalizing k xs with
  | nil => simp [separate] at hs
  | cons d ds ih =>
      rw [List.mem_cons, not_or] at h
      have hdigit : ∀ xs, d :: separate size (k + 1) ds = xs ++ '_' :: ys →
          size ∣ k + (bare xs).length := by
        intro xs hs
        cases xs with
        | nil => exact absurd (List.cons.inj hs).1.symm h.1
        | cons x xs =>
            obtain ⟨rfl, htail⟩ := List.cons.inj hs
            have hwhole := ih h.2 htail
            rwa [Nat.add_right_comm, Nat.add_assoc, ← List.length_cons (a := d),
              ← bare_cons fun hd => h.1 hd.symm] at hwhole
      rw [separate] at hs
      split at hs
      · rename_i hk
        cases xs with
        | nil => exact Nat.dvd_of_mod_eq_zero hk.2
        | cons x xs =>
            obtain ⟨rfl, htail⟩ := List.cons.inj hs
            rw [bare_underscore]
            exact hdigit xs htail
      · exact hdigit xs hs

theorem count_separate (size : Nat) (h : '_' ∉ ds) :
    (separate size (k + 1) ds).count '_' + k / size = (k + ds.length) / size := by
  induction ds generalizing k with
  | nil => simp [separate]
  | cons d ds ih =>
      rw [List.mem_cons, not_or] at h
      have hcount := ih (k := k + 1) h.2
      have hlength : k + (ds.length + 1) = k + 1 + ds.length := by omega
      rw [Nat.succ_div] at hcount
      rw [separate, List.length_cons, hlength, ← hcount]
      split
      · rename_i hk
        rw [List.count_cons_self, List.count_cons_of_ne fun hd => h.1 hd.symm,
          if_pos (Nat.dvd_of_mod_eq_zero hk.2)]
        omega
      · rename_i hk
        have hdvd : ¬size ∣ k + 1 := fun hd => hk ⟨Nat.succ_pos k, Nat.mod_eq_zero_of_dvd hd⟩
        rw [List.count_cons_of_ne fun hd => h.1 hd.symm, if_neg hdvd]
        rfl

theorem spaced_of_notMem (size : Nat) (h : '_' ∉ ds) : Spaced size ds where
  first hf := h (List.mem_of_head? hf)
  last hl := h (List.mem_of_getLast? hl)
  single hs := h (hs.subset List.mem_cons_self)
  whole xs _ hs := absurd (hs ▸ List.mem_append_right xs List.mem_cons_self) h

theorem spaced_separate (size : Nat) (h : '_' ∉ ds) : Spaced size (separate size 0 ds).reverse where
  first hf := by
    rw [List.head?_reverse, getLast?_separate] at hf
    exact h (List.mem_of_getLast? hf)
  last hl := by
    rw [List.getLast?_reverse, head?_separate] at hl
    exact h (List.mem_of_head? hl)
  single hs := separate_single h (by simpa using List.reverse_infix.2 hs)
  whole xs ys hs := by
    have hrev : separate size 0 ds = ys.reverse ++ '_' :: xs.reverse := by
      rw [← List.reverse_reverse (separate size 0 ds), hs]
      simp
    have hwhole := separate_whole h hrev
    rwa [Nat.zero_add, bare, List.filter_reverse, List.length_reverse] at hwhole

end

theorem underscore_notMem_toDigits (b : Base) (n : Nat) : '_' ∉ Nat.toDigits b.radix n := by
  intro h
  obtain ⟨d, hd, he⟩ := mem_toDigits b.one_lt_radix h
  have h16 := b.radix_le
  exact digitChar_ne_underscore (by omega) he.symm

theorem spaced_digitChars (b : Base) (grouping : Bool) (n : Nat) :
    Spaced b.groupSize (digitChars b grouping n) := by
  have hplain := underscore_notMem_toDigits b n
  cases grouping with
  | false => exact spaced_of_notMem _ hplain
  | true => exact spaced_separate _ (by simpa using hplain)

theorem count_digitChars (b : Base) (n : Nat) : (digitChars b true n).count '_' =
    ((Nat.toDigits b.radix n).length - 1) / b.groupSize := by
  have hplain : '_' ∉ (Nat.toDigits b.radix n).reverse := by
    simpa using underscore_notMem_toDigits b n
  change (separate b.groupSize 0 (Nat.toDigits b.radix n).reverse).reverse.count '_' = _
  have hlength : (Nat.toDigits b.radix n).length = (Nat.toDigits b.radix n).reverse.length :=
    List.length_reverse.symm
  rw [List.count_reverse, hlength]
  cases hds : (Nat.toDigits b.radix n).reverse with
  | nil => simp [separate]
  | cons d ds =>
      rw [hds, List.mem_cons, not_or] at hplain
      have hcount := count_separate b.groupSize (k := 0) hplain.2
      rw [Nat.zero_div, Nat.add_zero, Nat.zero_add] at hcount
      rw [separate, if_neg (by omega), List.count_cons_of_ne fun hd => hplain.1 hd.symm, hcount,
        Nat.zero_add, List.length_cons, Nat.add_sub_cancel]

/-- The text of a literal is one token that reads as the number, and it differs from the text
without groups in underscores only. -/
structure Faithful (n : Numeral) (b : Base) (grouping : Bool) : Prop where
  parse : parse? (n.render b grouping) = some n
  token : (ofString (n.render b grouping)).tokens =
    [⟨n.render b grouping, ofString (n.render b grouping)⟩]
  plain : bare (n.render b true).toList = (n.render b false).toList
  /-- The text is the sign, the marker of the base and the digits that the next two are about. -/
  layout : (n.render b grouping).toList =
    (if n.negative then ['-'] else []) ++ b.marker ++ digitChars b grouping n.magnitude
  spaced : Spaced b.groupSize (digitChars b grouping n.magnitude)
  grouped : (digitChars b true n.magnitude).count '_' =
    ((digitChars b false n.magnitude).length - 1) / b.groupSize

theorem bare_renderChars (n : Numeral) (b : Base) :
    bare (n.renderChars b true) = n.renderChars b false := by
  have hsign : bare (if n.negative then ['-'] else []) = if n.negative then ['-'] else [] := by
    cases n.negative <;> rfl
  have hmarker : bare b.marker = b.marker := by cases b <;> decide
  have hdigits : bare (digitChars b true n.magnitude) = digitChars b false n.magnitude :=
    filter_digitChars b true n.magnitude
  rw [renderChars, renderChars, ← hdigits]
  simp only [bare, List.filter_append] at hsign hmarker ⊢
  rw [hsign, hmarker]

theorem faithful_render {n : Numeral} (h : n.magnitude < sizeLimit) (b : Base) (grouping : Bool) :
    n.Faithful b grouping where
  parse := parse?_render n b grouping h
  token := (isWord_render n b grouping).tokens_ofString
  plain := by
    rw [render, render, String.toList_ofList, String.toList_ofList]
    exact bare_renderChars n b
  layout := String.toList_ofList
  spaced := spaced_digitChars b grouping n.magnitude
  grouped := count_digitChars b n.magnitude

end Numeral

namespace TextOptions

open TextStream

theorem read_number {α : Type} {p : Parser α} {a : α} (o : TextOptions) (v : Int)
    (hp : p.Yields [o.plainNumber v] a) :
    ∃ t, p (ofString (o.number v)) = .ok a t ∧ t.tokens = [] := by
  obtain ⟨t, ht, hw⟩ := hp (ofString (o.number v)) [] (o.number_spells v).words_eq
  exact ⟨t, ht, List.eq_nil_of_length_eq_zero (by rw [length_tokens, hw, List.length_nil])⟩

end TextOptions

open TextStream in
/-- Writing a number and reading it back is the identity, for literals in each base, grouped or not,
and for numbers with any options, also where a comment follows. -/
theorem Numeral.render_read_back :
    (∀ (n : Numeral) (b : Base) (grouping : Bool), n.magnitude < 2 ^ 64 → n.Faithful b grouping) ∧
      (∀ (o : TextOptions) (v : Nat), v < 2 ^ 64 →
        ∃ t, Parser.unsigned (ofString (o.number v)) = .ok v t ∧ t.tokens = []) ∧
      ∀ (o : TextOptions) (v : Int), -2 ^ 63 ≤ v → v < 2 ^ 63 →
        ∃ t, Parser.signed (ofString (o.number v)) = .ok v t ∧ t.tokens = [] := by
  refine ⟨fun n b grouping h => faithful_render h b grouping, fun o v h => ?_, fun o v hl hh => ?_⟩
  · exact o.read_number v (Parser.unsigned_yields v _ _ h)
  · have hrange : (IntType.mk true 64).contains v = true := by
      rw [IntType.contains_signed_iff]
      norm_num
      exact ⟨hl, hh⟩
    exact o.read_number v (Parser.signed_yields _ _ hrange)

open TextStream in
/-- The largest magnitude in grouped bits, and the least number that has a sign with a comment. -/
theorem Numeral.render_read_back_of_extremes :
    (Numeral.mk true (2 ^ 64 - 1)).Faithful .binary true ∧
      ∃ t, Parser.signed (ofString (TextOptions.multilineText.number (-2 ^ 63))) =
        .ok (-2 ^ 63) t ∧ t.tokens = [] :=
  ⟨render_read_back.1 ⟨true, 2 ^ 64 - 1⟩ .binary true (by norm_num),
    render_read_back.2.2 .multilineText (-2 ^ 63) (by norm_num) (by norm_num)⟩

end Packed
