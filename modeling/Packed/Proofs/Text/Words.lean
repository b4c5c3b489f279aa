import Packed.Proofs.Action
import Packed.Text.Stream

namespace Packed

namespace TextStream

def words (cs : List Char) : List String := (readAll ⟨cs, 0⟩).1.map (·.text)

theorem rest_skip (comment : Bool) (cs : List Char) (p q : Nat) :
    (skip comment cs p).rest = (skip comment cs q).rest := by
  induction cs generalizing comment p q with
  | nil => cases comment <;> rfl
  | cons c cs ih =>
      cases comment with
      | true =>
          rw [skip, skip]
          exact ih _ _ _
      | false =>
          rw [skip, skip]
          split
          · exact ih _ _ _
          · split
            · exact ih _ _ _
            · rfl

theorem length_rest_skip_le (comment : Bool) (cs : List Char) (p : Nat) :
    (skip comment cs p).rest.length ≤ cs.length := by
  induction cs generalizing comment p with
  | nil => cases comment <;> simp [skip]
  | cons c cs ih =>
      cases comment with
      | true =>
          rw [skip]
          exact Nat.le_succ_of_le (ih _ _)
      | false =>
          rw [skip]
          split
          · exact Nat.le_succ_of_le (ih _ _)
          · split
            · exact Nat.le_succ_of_le (ih _ _)
            · exact Nat.le_refl _

theorem head_skip {cs : List Char} {p : Nat} {c : Char} {rest : List Char}
    (h : (skip false cs p).rest = c :: rest) : c ≠ '#' ∧ isBlank c = false := by
  suffices hs : ∀ comment, (skip comment cs p).rest = c :: rest → c ≠ '#' ∧ isBlank c = false from
    hs false h
  clear h
  induction cs generalizing p with
  | nil =>
      intro comment h
      cases comment <;> simp [skip] at h
  | cons d cs ih =>
      intro comment h
      cases comment with
      | true => exact ih _ (by rwa [skip] at h)
      | false =>
          rw [skip] at h
          split at h
          · exact ih _ h
          · rename_i hd
            split at h
            · exact ih _ h
            · rename_i hb
              obtain ⟨rfl, -⟩ := List.cons.inj h
              exact ⟨hd, by simpa using hb⟩

theorem skip_skip (cs : List Char) (p : Nat) :
    skip false (skip false cs p).rest (skip false cs p).position = skip false cs p := by
  suffices hs : ∀ comment, skip false (skip comment cs p).rest (skip comment cs p).position =
      skip comment cs p from hs false
  induction cs generalizing p with
  | nil => intro comment; cases comment <;> rfl
  | cons c cs ih =>
      intro comment
      cases comment with
      | true => rw [skip]; exact ih _ _
      | false =>
          rw [skip]
          split
          · exact ih _ _
          · split
            · exact ih _ _
            · rename_i hc hb
              rw [skip, if_neg hc, if_neg hb]

theorem skipBlanks_skipBlanks (s : TextStream) : s.skipBlanks.skipBlanks = s.skipBlanks :=
  skip_skip s.rest s.position

theorem start_splitToken {s t : TextStream} {a : Token} (h : s.splitToken = some (a, t)) :
    a.start = s := by
  rw [splitToken] at h
  split at h
  · cases h
  · split at h <;> cases h <;> rfl

theorem length_splitToken_lt {s t : TextStream} {a : Token}
    (h : s.skipBlanks.splitToken = some (a, t)) : t.rest.length < s.rest.length := by
  have hle := length_rest_skip_le false s.rest s.position
  rw [splitToken] at h
  split at h
  · cases h
  · rename_i c cs hc
    obtain ⟨hn, hb⟩ := head_skip hc
    have hlen : cs.length < s.rest.length := by
      change (skip false s.rest s.position).rest = c :: cs at hc
      rw [hc] at hle
      exact hle
    split at h
    · cases h
      exact hlen
    · rename_i hp
      have hw : isWordChar c = true := by simp [isWordChar, hn, hb, hp]
      cases h
      rw [List.dropWhile_cons_of_pos hw]
      exact Nat.lt_of_le_of_lt (List.dropWhile_sublist _).length_le hlen

theorem splitToken_congr {s t : TextStream} (h : s.rest = t.rest) :
    s.splitToken.map (fun x => (x.1.text, x.2.rest)) =
      t.splitToken.map (fun x => (x.1.text, x.2.rest)) := by
  rw [splitToken, splitToken, h]
  cases t.rest with
  | nil => rfl
  | cons c cs =>
      dsimp only
      split <;> rfl

theorem map_text_splitTokens (s t : TextStream) (n k : Nat) (h : s.rest = t.rest)
    (hn : s.rest.length ≤ n) (hk : s.rest.length ≤ k) :
    (splitTokens n s).1.map (·.text) = (splitTokens k t).1.map (·.text) := by
  induction n generalizing s t k with
  | zero =>
      have hs : s.rest = [] := List.eq_nil_of_length_eq_zero (Nat.le_zero.1 hn)
      have ht : t.skipBlanks.splitToken = none := by
        simp [splitToken, skipBlanks, ← h, hs, skip]
      cases k with
      | zero => rfl
      | succ k => simp [splitTokens, ht]
  | succ n ih =>
      have hskip : s.skipBlanks.rest = t.skipBlanks.rest := by
        rw [skipBlanks, skipBlanks, h]
        exact rest_skip _ _ _ _
      have hsplit := splitToken_congr hskip
      cases k with
      | zero =>
          have hs : s.rest = [] := List.eq_nil_of_length_eq_zero (Nat.le_zero.1 hk)
          have hs' : s.skipBlanks.splitToken = none := by
            simp [splitToken, skipBlanks, hs, skip]
          simp [splitTokens, hs']
      | succ k =>
          rw [splitTokens, splitTokens]
          cases hs : s.skipBlanks.splitToken with
          | none =>
              rw [hs, Option.map_none] at hsplit
              rw [Option.map_eq_none_iff.1 hsplit.symm]
          | some x =>
              obtain ⟨a, s'⟩ := x
              rw [hs, Option.map_some] at hsplit
              obtain ⟨⟨b, t'⟩, ht, he⟩ := Option.map_eq_some_iff.1 hsplit.symm
              obtain ⟨ha, hr⟩ := Prod.mk.inj he
              have hlt := length_splitToken_lt hs
              rw [ht]
              change a.text :: (splitTokens n s').1.map (·.text) =
                b.text :: (splitTokens k t').1.map (·.text)
              rw [ih s' t' k hr.symm (by omega) (by omega), ha]

theorem words_eq (s : TextStream) : words s.rest =
    match s.skipBlanks.splitToken with
    | none => []
    | some (a, t) => a.text :: words t.rest := by
  have h := map_text_splitTokens ⟨s.rest, 0⟩ s s.rest.length (s.rest.length + 1) rfl
    (Nat.le_refl _) (Nat.le_succ _)
  rw [words, readAll, h, splitTokens]
  cases hs : s.skipBlanks.splitToken with
  | none => rfl
  | some x =>
      obtain ⟨a, t⟩ := x
      have hlt := length_splitToken_lt hs
      exact congrArg (a.text :: ·) (map_text_splitTokens t ⟨t.rest, 0⟩ _ _ rfl (by omega)
        (Nat.le_refl _))

theorem length_words_le (cs : List Char) : (words cs).length ≤ cs.length := by
  induction hn : cs.length using Nat.strongRecOn generalizing cs with
  | ind n ih =>
      have hw := words_eq ⟨cs, 0⟩
      cases hs : (TextStream.mk cs 0).skipBlanks.splitToken with
      | none =>
          rw [hs] at hw
          rw [hw]
          exact Nat.zero_le _
      | some x =>
          obtain ⟨a, t⟩ := x
          have hlt : t.rest.length < cs.length := length_splitToken_lt hs
          have ht := ih t.rest.length (by omega) t.rest rfl
          rw [hs] at hw
          rw [hw, List.length_cons]
          omega

theorem words_skipBlanks (s : TextStream) : words s.skipBlanks.rest = words s.rest := by
  rw [words_eq s.skipBlanks, skipBlanks_skipBlanks, words_eq s]

theorem words_nil : words [] = [] := rfl

theorem words_blank {c : Char} (h : isBlank c = true) (cs : List Char) :
    words (c :: cs) = words cs := by
  have hc : c ≠ '#' := by rintro rfl; cases h
  have hr : (skipBlanks ⟨c :: cs, 0⟩).rest = (skipBlanks ⟨cs, 0⟩).rest := by
    simp only [skipBlanks, skip, if_neg hc, if_pos h]
    exact rest_skip _ _ _ _
  rw [← words_skipBlanks ⟨c :: cs, 0⟩, hr, words_skipBlanks]

theorem words_blanks {bs : List Char} (h : ∀ c ∈ bs, isBlank c = true) (cs : List Char) :
    words (bs ++ cs) = words cs := by
  induction bs with
  | nil => rfl
  | cons b bs ih =>
      rw [List.cons_append, words_blank (h b (by simp))]
      exact ih fun c hc => h c (by simp [hc])

theorem words_comment {body : List Char} (h : '\n' ∉ body) {rest : List Char}
    (hr : rest = [] ∨ ∃ cs, rest = '\n' :: cs) : words ('#' :: body ++ rest) = words rest := by
  have hskip : ∀ p, (skip true (body ++ rest) p).rest = (skip true rest p).rest := by
    induction body with
    | nil => intro p; rfl
    | cons b bs ih =>
        intro p
        have hb : b ≠ '\n' := by rintro rfl; simp at h
        rw [List.cons_append, skip, bne_iff_ne.2 hb, ih (by simp_all)]
        exact rest_skip _ _ _ _
  have hend : ∀ p, (skip true rest p).rest = (skip false rest 0).rest := by
    intro p
    obtain rfl | ⟨cs, rfl⟩ := hr
    · rfl
    · simp only [skip, bne_self_eq_false]
      exact rest_skip _ _ _ _
  have hw : (skipBlanks ⟨'#' :: body ++ rest, 0⟩).rest = (skipBlanks ⟨rest, 0⟩).rest := by
    simp only [skipBlanks, List.cons_append, skip, if_true]
    rw [hskip, hend]
  rw [← words_skipBlanks ⟨'#' :: body ++ rest, 0⟩, hw, words_skipBlanks]

theorem words_punctuation {c : Char} (h : isPunctuation c = true) (cs : List Char) :
    words (c :: cs) = String.singleton c :: words cs := by
  have hc : c ≠ '#' := by rintro rfl; cases h
  have hb : isBlank c = false := by
    simp only [isPunctuation, Bool.or_eq_true, beq_iff_eq] at h
    obtain ((((rfl | rfl) | rfl) | rfl) | rfl) | rfl := h <;> rfl
  rw [words_eq ⟨c :: cs, 0⟩]
  simp [skipBlanks, skip, hc, hb, splitToken, h]

def Separated (rest : List Char) : Prop := ∀ c ∈ rest.head?, isWordChar c = false

section

variable {w rest : List Char}

theorem skip_word (hne : w ≠ []) (hw : ∀ c ∈ w, isWordChar c = true) (rest : List Char) (p : Nat) :
    skip false (w ++ rest) p = ⟨w ++ rest, p⟩ := by
  obtain ⟨c, cs, rfl⟩ := List.exists_cons_of_ne_nil hne
  have hc := hw c List.mem_cons_self
  simp only [isWordChar, Bool.and_eq_true, Bool.not_eq_true', bne_iff_ne] at hc
  simp only [List.cons_append, skip, if_neg hc.1.2, hc.1.1, Bool.false_eq_true, if_false]

theorem splitToken_word (hne : w ≠ []) (hw : ∀ c ∈ w, isWordChar c = true)
    (hr : Separated rest) (p : Nat) : splitToken ⟨w ++ rest, p⟩ =
      some (⟨String.ofList w, ⟨w ++ rest, p⟩⟩, ⟨rest, p + byteLength w⟩) := by
  obtain ⟨c, cs, rfl⟩ := List.exists_cons_of_ne_nil hne
  have hc := hw c List.mem_cons_self
  simp only [isWordChar, Bool.and_eq_true, Bool.not_eq_true'] at hc
  have hstop : rest.takeWhile isWordChar = [] ∧ rest.dropWhile isWordChar = rest := by
    cases rest with
    | nil => exact ⟨rfl, rfl⟩
    | cons d ds =>
        have hd : isWordChar d = false := hr d rfl
        simp [hd]
  have ht : (c :: (cs ++ rest)).takeWhile isWordChar = c :: cs := by
    rw [← List.cons_append, List.takeWhile_append_of_pos hw, hstop.1, List.append_nil]
  have hd : (c :: (cs ++ rest)).dropWhile isWordChar = rest := by
    rw [← List.cons_append, List.dropWhile_append_of_pos hw, hstop.2]
  simp only [List.cons_append, splitToken, hc.2, Bool.false_eq_true, if_false, ht, hd]

theorem words_word (hne : w ≠ []) (hw : ∀ c ∈ w, isWordChar c = true) (hr : Separated rest) :
    words (w ++ rest) = String.ofList w :: words rest := by
  rw [words_eq ⟨w ++ rest, 0⟩, skipBlanks, skip_word hne hw, splitToken_word hne hw hr]

end

/-- What may follow a value. Where each value has a line of its own, a comment may end that line. -/
def Ends (multiline : Bool) (rest : List Char) : Prop :=
  if multiline then rest = [] ∨ ∃ cs, rest = '\n' :: cs else Separated rest

theorem separated_nil : Separated [] := by simp [Separated]

theorem separated_cons {c : Char} (h : isWordChar c = false) (cs : List Char) :
    Separated (c :: cs) := by simpa [Separated] using h

theorem separated_dropWhile (cs : List Char) : Separated (cs.dropWhile isWordChar) := by
  intro c hc
  have hn := List.head?_dropWhile_not isWordChar cs
  rw [Option.mem_def.1 hc] at hn
  simpa using hn

theorem ends_nil (multiline : Bool) : Ends multiline [] := by
  cases multiline with
  | false => exact separated_nil
  | true => exact .inl rfl

theorem ends_newline (multiline : Bool) (cs : List Char) : Ends multiline ('\n' :: cs) := by
  cases multiline with
  | false => exact separated_cons rfl cs
  | true => exact .inr ⟨cs, rfl⟩

theorem Ends.separated {multiline : Bool} {rest : List Char} (h : Ends multiline rest) :
    Separated rest := by
  cases multiline with
  | false => exact h
  | true =>
      obtain rfl | ⟨cs, rfl⟩ := h
      · exact separated_nil
      · exact separated_cons rfl cs

/-- Where a value may stand, the text is read as these words. -/
def Spells (multiline : Bool) (text : String) (ws : List String) : Prop :=
  ∀ rest, Ends multiline rest → words (text.toList ++ rest) = ws ++ words rest

theorem Spells.words_eq {multiline : Bool} {text : String} {ws : List String}
    (h : Spells multiline text ws) : words text.toList = ws := by
  simpa [words_nil] using h [] (ends_nil multiline)

def IsWord (text : String) : Prop := text.toList ≠ [] ∧ text.toList.all isWordChar = true

instance (text : String) : Decidable (IsWord text) := inferInstanceAs (Decidable (_ ∧ _))

theorem IsWord.words_append {text : String} (h : IsWord text) {rest : List Char}
    (hr : Separated rest) : words (text.toList ++ rest) = text :: words rest := by
  rw [words_word h.1 (List.all_eq_true.1 h.2) hr, String.ofList_toList]

theorem IsWord.spells {text : String} (h : IsWord text) (multiline : Bool) :
    Spells multiline text [text] :=
  fun _ hr => h.words_append hr.separated

theorem IsWord.spells_comment {text note : String} (h : IsWord text) (hn : '\n' ∉ note.toList) :
    Spells true (text ++ "  # " ++ note) [text] := by
  intro rest hr
  have hs : Separated (' ' :: ' ' :: ('#' :: (' ' :: note.toList) ++ rest)) :=
    separated_cons rfl _
  have hw : words (' ' :: ' ' :: ('#' :: (' ' :: note.toList) ++ rest)) = words rest := by
    rw [words_blank rfl, words_blank rfl]
    exact words_comment (by simpa using hn) hr
  have ht : (text ++ "  # " ++ note).toList ++ rest =
      text.toList ++ (' ' :: ' ' :: ('#' :: (' ' :: note.toList) ++ rest)) := by
    simp [String.toList_append]
  rw [ht, h.words_append hs, hw]
  rfl

theorem IsWord.newline_notMem {text : String} (h : IsWord text) : '\n' ∉ text.toList := by
  intro hm
  cases List.all_eq_true.1 h.2 _ hm

end TextStream

namespace Parser

open TextStream

variable {α β : Type} {s : TextStream} {w : String} {ws us : List String}

/-- From any text that begins with these words the parser takes them and yields the value. -/
def Yields (p : Parser α) (ws : List String) (a : α) : Prop :=
  ∀ (s : TextStream) (us : List String), words s.rest = ws ++ us →
    ∃ t, p s = .ok a t ∧ words t.rest = us

theorem Yields.bind {p : Parser α} {f : α → Parser β} {a : α} {b : β} (hp : p.Yields ws a)
    (hf : (f a).Yields us b) : (p >>= f).Yields (ws ++ us) b := by
  intro s vs hs
  obtain ⟨t, ht, hw⟩ := hp s (us ++ vs) (by rw [hs, List.append_assoc])
  obtain ⟨t', ht', hw'⟩ := hf t vs hw
  exact ⟨t', by rw [bind_ok ht, ht'], hw'⟩

theorem yields_pure (a : α) : (pure a : Parser α).Yields [] a :=
  fun s _ hs => ⟨s, rfl, hs⟩

theorem next_of_nil (h : words s.rest = []) : next s = .ok none s.skipBlanks := by
  rw [words_eq] at h
  cases hs : s.skipBlanks.splitToken with
  | none => simp [next, hs]
  | some x => simp [hs] at h

theorem next_of_cons (h : words s.rest = w :: us) : ∃ a t, next s = .ok (some a) t ∧ a.text = w ∧
    words a.start.rest = w :: us ∧ words t.rest = us := by
  have hw := h
  rw [words_eq] at h
  cases hs : s.skipBlanks.splitToken with
  | none => simp [hs] at h
  | some x =>
      obtain ⟨a, t⟩ := x
      rw [hs] at h
      obtain ⟨ha, ht⟩ := List.cons.inj h
      refine ⟨a, t, by simp [next, hs], ha, ?_, ht⟩
      rw [start_splitToken hs, words_skipBlanks, hw]

theorem token_of_cons (h : words s.rest = w :: us) : ∃ a t, token s = .ok a t ∧ a.text = w ∧
    words a.start.rest = w :: us ∧ words t.rest = us := by
  obtain ⟨a, t, hn, ha, hs, ht⟩ := next_of_cons h
  exact ⟨a, t, by rw [token, bind_ok hn]; rfl, ha, hs, ht⟩

theorem expect_yields (w : String) : (expect w).Yields [w] () := by
  intro s us hs
  obtain ⟨a, t, hn, ha, -, ht⟩ := token_of_cons hs
  exact ⟨t, by rw [expect, bind_ok hn, if_pos ha]; rfl, ht⟩

theorem consumeIf_of_cons (h : words s.rest = w :: us) :
    ∃ t, consumeIf w s = .ok true t ∧ words t.rest = us := by
  obtain ⟨a, t, hn, ha, -, ht⟩ := next_of_cons h
  refine ⟨t, ?_, ht⟩
  rw [consumeIf, bind_ok hn]
  simp only [ha, if_true]
  rfl

theorem consumeIf_of_ne (h : (words s.rest).head? ≠ some w) :
    ∃ t, consumeIf w s = .ok false t ∧ words t.rest = words s.rest := by
  cases hs : words s.rest with
  | nil =>
      refine ⟨s.skipBlanks, ?_, by rw [words_skipBlanks, hs]⟩
      rw [consumeIf, bind_ok (next_of_nil hs)]
      rfl
  | cons v us =>
      obtain ⟨a, t, hn, ha, hw, -⟩ := next_of_cons hs
      refine ⟨a.start, ?_, hw⟩
      have hv : a.text ≠ w := by
        rintro rfl
        exact h (by rw [hs, ha]; rfl)
      rw [consumeIf, bind_ok hn]
      simp only [hv, if_false]
      rfl

end Parser

end Packed
