import Packed.Proofs.Text.Words

namespace Packed

namespace TextStream

def tokens (s : TextStream) : List Token := s.readAll.1

theorem splitTokens_eq {s : TextStream} {n k : Nat} (hn : s.rest.length ≤ n)
    (hk : s.rest.length ≤ k) : splitTokens n s = splitTokens k s := by
  have hempty : s.rest = [] → s.skipBlanks.splitToken = none := fun h => by
    simp [splitToken, skipBlanks, h, skip]
  induction n generalizing s k with
  | zero =>
      have hs := hempty (List.eq_nil_of_length_eq_zero (Nat.le_zero.1 hn))
      cases k with
      | zero => rfl
      | succ k => rw [splitTokens, splitTokens, hs]
  | succ n ih =>
      cases k with
      | zero =>
          have hs := hempty (List.eq_nil_of_length_eq_zero (Nat.le_zero.1 hk))
          rw [splitTokens, splitTokens, hs]
      | succ k =>
          rw [splitTokens, splitTokens]
          cases hs : s.skipBlanks.splitToken with
          | none => rfl
          | some x =>
              have hlt := length_splitToken_lt hs
              have he : splitTokens n x.2 = splitTokens k x.2 := by
                refine ih (by omega) (by omega) fun h => ?_
                simp [splitToken, skipBlanks, h, skip]
              simp only [he]

theorem tokens_eq (s : TextStream) : s.tokens =
    match s.skipBlanks.splitToken with
    | none => []
    | some (a, t) => a :: t.tokens := by
  rw [tokens, readAll, splitTokens_eq (Nat.le_refl _) (Nat.le_succ _), splitTokens]
  cases hs : s.skipBlanks.splitToken with
  | none => rfl
  | some x =>
      have hlt := length_splitToken_lt hs
      have he : splitTokens s.rest.length x.2 = splitTokens x.2.rest.length x.2 :=
        splitTokens_eq (by omega) (Nat.le_refl _)
      simp only [he]
      rfl

theorem map_text_tokens (s : TextStream) : s.tokens.map (·.text) = words s.rest :=
  map_text_splitTokens s ⟨s.rest, 0⟩ _ _ rfl (Nat.le_refl _) (Nat.le_refl _)

theorem length_tokens (s : TextStream) : s.tokens.length = (words s.rest).length := by
  rw [← map_text_tokens, List.length_map]

theorem length_tokens_le (s : TextStream) : s.tokens.length ≤ s.rest.length := by
  rw [length_tokens]
  exact length_words_le s.rest

theorem IsWord.tokens_ofString {text : String} (h : IsWord text) :
    (ofString text).tokens = [⟨text, ofString text⟩] := by
  have hall := List.all_eq_true.1 h.2
  have hskip := skip_word h.1 hall [] 0
  have hsplit := splitToken_word h.1 hall separated_nil 0
  rw [List.append_nil] at hskip hsplit
  rw [tokens_eq, skipBlanks, ofString, hskip, hsplit, String.ofList_toList]
  rfl

theorem tokens_skipBlanks (s : TextStream) : s.skipBlanks.tokens = s.tokens := by
  rw [tokens_eq s.skipBlanks, skipBlanks_skipBlanks, tokens_eq s]

/-- One stream is the other after it has given its first `n` tokens. -/
def Past (s : TextStream) (n : Nat) (t : TextStream) : Prop :=
  n ≤ s.tokens.length ∧ t.tokens = s.tokens.drop n

def Agree (s t : TextStream) (n : Nat) : Prop := (words s.rest).take n = (words t.rest).take n

section

variable {s t u : TextStream} {i j n : Nat} {a : Token}

theorem past_zero (s : TextStream) : s.Past 0 s := ⟨Nat.zero_le _, rfl⟩

theorem Past.trans (h : s.Past i t) (ht : t.Past n u) : s.Past (i + n) u := by
  obtain ⟨hi, hs⟩ := h
  obtain ⟨hn, hu⟩ := ht
  rw [hs, List.length_drop] at hn
  exact ⟨by omega, by rw [hu, hs, List.drop_drop]⟩

theorem Past.length_add (h : s.Past i t) : t.tokens.length + i = s.tokens.length := by
  rw [h.2, List.length_drop]
  exact Nat.sub_add_cancel h.1

theorem Past.inj (hi : s.Past i t) (hj : s.Past j t) : i = j := by
  have hli := hi.length_add
  have hlj := hj.length_add
  omega

theorem Past.skipBlanks (h : s.Past i t) : s.Past i t.skipBlanks :=
  ⟨h.1, (tokens_skipBlanks t).trans h.2⟩

theorem Agree.mono (h : Agree s t j) (hi : i ≤ j) : Agree s t i := by
  have ht := congrArg (List.take i) h
  rwa [List.take_take, List.take_take, Nat.min_eq_left hi] at ht

theorem agree_of_words_eq (h : words s.rest = words t.rest) (n : Nat) : Agree s t n :=
  congrArg (List.take n) h

theorem Agree.token (h : Agree s t n) (hi : i < n) (ha : s.tokens[i]? = some a) :
    ∃ b, t.tokens[i]? = some b ∧ b.text = a.text := by
  have he : (words t.rest)[i]? = some a.text := by
    have hw := congrArg (·[i]?) h
    simp only [List.getElem?_take, if_pos hi] at hw
    rw [← hw, ← map_text_tokens, List.getElem?_map, ha, Option.map_some]
  rw [← map_text_tokens, List.getElem?_map] at he
  exact Option.map_eq_some_iff.1 he

theorem Agree.none (h : Agree s t n) (hi : i < n) (ha : s.tokens[i]? = none) :
    t.tokens[i]? = none := by
  have he := congrArg (·[i]?) h
  simp only [List.getElem?_take, if_pos hi] at he
  rw [← map_text_tokens, ← map_text_tokens, List.getElem?_map, List.getElem?_map, ha,
    Option.map_none] at he
  exact Option.map_eq_none_iff.1 he.symm

theorem Past.next (h : s.Past i t) :
    (s.tokens[i]? = none ∧ Parser.next t = .ok none t.skipBlanks) ∨
      ∃ a u, s.tokens[i]? = some a ∧ Parser.next t = .ok (some a) u ∧ s.Past (i + 1) u ∧
        s.Past i a.start := by
  have hhead : s.tokens[i]? = t.tokens.head? := by rw [h.2, List.head?_drop]
  have hsplit := tokens_eq t
  cases hs : t.skipBlanks.splitToken with
  | none =>
      rw [hs] at hsplit
      exact .inl ⟨by rw [hhead, hsplit]; rfl, by simp [Parser.next, hs]⟩
  | some x =>
      obtain ⟨a, u⟩ := x
      rw [hs] at hsplit
      have hu : t.Past 1 u := ⟨by rw [hsplit]; exact Nat.le_add_left 1 _, by rw [hsplit]; rfl⟩
      refine .inr ⟨a, u, by rw [hhead, hsplit]; rfl, by simp [Parser.next, hs], h.trans hu, ?_⟩
      rw [start_splitToken hs]
      exact h.skipBlanks

theorem Past.token_of_none (h : s.Past i t) (ha : s.tokens[i]? = none) :
    Parser.token t = .error .endOfText t.skipBlanks := by
  obtain ⟨-, hn⟩ | ⟨a, u, ha', -⟩ := h.next
  · rw [Parser.token, bind_ok hn]
    rfl
  · rw [ha] at ha'
    cases ha'

theorem Past.token_of_some (h : s.Past i t) (ha : s.tokens[i]? = some a) :
    ∃ u, Parser.token t = .ok a u ∧ s.Past (i + 1) u ∧ s.Past i a.start := by
  obtain ⟨hn, -⟩ | ⟨b, u, hb, hn, hu, hstart⟩ := h.next
  · rw [ha] at hn
    cases hn
  · obtain rfl := Option.some.inj (ha.symm.trans hb)
    exact ⟨u, by rw [Parser.token, bind_ok hn]; rfl, hu, hstart⟩

theorem Past.consumeIf (h : s.Past i t) (text : String) :
    (∃ u, Parser.consumeIf text t = .ok false u ∧ s.Past i u ∧
      ∀ a, s.tokens[i]? = some a → a.text ≠ text) ∨
    ∃ a u, Parser.consumeIf text t = .ok true u ∧ s.Past (i + 1) u ∧ s.tokens[i]? = some a ∧
      a.text = text := by
  obtain ⟨ha, hn⟩ | ⟨a, u, ha, hn, hu, hstart⟩ := h.next
  · refine .inl ⟨t.skipBlanks, ?_, h.skipBlanks, fun a hs => ?_⟩
    · rw [Parser.consumeIf, bind_ok hn]
      rfl
    · rw [ha] at hs
      cases hs
  · by_cases ht : a.text = text
    · refine .inr ⟨a, u, ?_, hu, ha, ht⟩
      rw [Parser.consumeIf, bind_ok hn]
      simp only [ht, if_true]
      rfl
    · refine .inl ⟨a.start, ?_, hstart, fun b hb => ?_⟩
      · rw [Parser.consumeIf, bind_ok hn]
        simp only [ht, if_false]
        rfl
      · obtain rfl := Option.some.inj (ha.symm.trans hb)
        exact ht

end

end TextStream

end Packed
