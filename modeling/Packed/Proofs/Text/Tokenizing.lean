import Mathlib.Data.List.Chain
import Packed.Proofs.Text.ByteReader

namespace Packed

namespace TextStream

inductive Gap : List Char → Prop
  | nil : Gap []
  | blank {c : Char} {cs : List Char} : isBlank c = true → Gap cs → Gap (c :: cs)
  | comment {body cs : List Char} : '\n' ∉ body → Gap cs → Gap ('#' :: (body ++ '\n' :: cs))

/-- At the end of the text the last comment may go without the end of its line. -/
def FinalGap (cs : List Char) : Prop :=
  Gap cs ∨ ∃ gap body, Gap gap ∧ '\n' ∉ body ∧ cs = gap ++ '#' :: body

def IsMark (text : String) : Prop := ∃ c, isPunctuation c = true ∧ text = String.singleton c

def IsToken (text : String) : Prop := IsMark text ∨ IsWord text

/-- These tokens make up a text that starts at a position, with gaps around them. A word goes on as
far as it can. -/
inductive Laid : Nat → List Char → List Token → Prop
  | nil {p : Nat} {cs : List Char} : FinalGap cs → Laid p cs []
  | cons {p : Nat} {gap rest : List Char} {w : String} {as : List Token} :
      Gap gap → IsToken w → (IsWord w → Separated rest) →
      Laid (p + byteLength gap + byteLength w.toList) rest as →
      Laid p (gap ++ (w.toList ++ rest)) (⟨w, ⟨w.toList ++ rest, p + byteLength gap⟩⟩ :: as)

/-- The token is the bytes at its position, and these are a punctuation mark or as long a run of
bytes of words as there is. -/
def StandsIn (text : String) (a : Token) : Prop :=
  ∃ before after, bytes text = before ++ (bytes a.text ++ after) ∧ before.length = a.position ∧
    (IsMark a.text ∨ bytes a.text ≠ [] ∧ (∀ b ∈ bytes a.text, isWordByte b = true) ∧
      (∀ b ∈ before.getLast?, isWordByte b = false) ∧ ∀ b ∈ after.head?, isWordByte b = false)

inductive Reads : TextStream → List Token → Prop
  | done {s t : TextStream} : Parser.next s = .ok none t → Reads s []
  | more {s t : TextStream} {a : Token} {as : List Token} :
      Parser.next s = .ok (some a) t → Reads t as → Reads s (a :: as)

/-- What it means that nothing of a text is lost and nothing is made up. -/
structure Accounts (text : String) (as : List Token) : Prop where
  reads : ∀ bs, Reads (ofString text) bs ↔ bs = as
  bytewise : ∀ xs, ReadsBytes (bytes text) 0 xs ↔ xs = as.map Token.inBytes
  increasing : as.Pairwise fun a b => a.position < b.position
  stands : ∀ a ∈ as, StandsIn text a
  laid : Laid 0 text.toList as

def join : List (List Char × String) → List Char → List Char
  | [], last => last
  | (gap, w) :: pieces, last => gap ++ (w.toList ++ join pieces last)

section

variable {s t : TextStream} {cs gap rest body : List Char} {w : String} {a : Token}
  {as : List Token} {p : Nat}

theorem reads_tokens (s : TextStream) : Reads s s.tokens := by
  induction hn : s.rest.length using Nat.strongRecOn generalizing s with
  | ind n ih =>
      rw [tokens_eq]
      cases hs : s.skipBlanks.splitToken with
      | none => exact .done (t := s.skipBlanks) (by simp [Parser.next, hs])
      | some x =>
          obtain ⟨a, t⟩ := x
          have hlt := length_splitToken_lt hs
          exact .more (t := t) (by simp [Parser.next, hs]) (ih t.rest.length (hn ▸ hlt) t rfl)

theorem Reads.unique {bs : List Token} (h : Reads s as) (h' : Reads s bs) : as = bs := by
  induction h generalizing bs with
  | done hn =>
      cases h' with
      | done => rfl
      | more hm => cases hn.symm.trans hm
  | more hn _ ih =>
      cases h' with
      | done hd => cases hn.symm.trans hd
      | more hm hr =>
          cases hn.symm.trans hm
          rw [ih hr]

theorem reads_iff : Reads s as ↔ as = s.tokens :=
  ⟨fun h => h.unique (reads_tokens s), fun h => h ▸ reads_tokens s⟩

theorem Reads.readsBytes {text : String} (h : Reads s as) (hs : At text s) :
    ReadsBytes (bytes text) s.position (as.map Token.inBytes) := by
  induction h with
  | done hn =>
      obtain ⟨x, t, hx, hread, -⟩ := hs.next
      cases hn.symm.trans hx
      exact .done hread
  | more hn _ ih =>
      obtain ⟨x, t, hx, hread, ht, -⟩ := hs.next
      cases hn.symm.trans hx
      exact .more hread (ih ht)

theorem ReadsBytes.unique {bs : List UInt8} {xs ys : List (List UInt8 × Nat)}
    (h : ReadsBytes bs p xs) (h' : ReadsBytes bs p ys) : xs = ys := by
  induction h generalizing ys with
  | done hn =>
      cases h' with
      | done => rfl
      | more hm => cases hn.symm.trans hm
  | more hn _ ih =>
      cases h' with
      | done hd => cases hn.symm.trans hd
      | more hm hr =>
          cases hn.symm.trans hm
          rw [ih hr]

theorem readsBytes_iff {text : String} {xs : List (List UInt8 × Nat)} :
    ReadsBytes (bytes text) 0 xs ↔ xs = (ofString text).tokens.map Token.inBytes := by
  have h := (reads_tokens (ofString text)).readsBytes (at_ofString text)
  exact ⟨fun hx => hx.unique h, fun hx => hx ▸ h⟩

theorem Gap.append {ds : List Char} (h : Gap cs) (hd : Gap ds) : Gap (cs ++ ds) := by
  induction h with
  | nil => exact hd
  | blank hc _ ih => exact .blank hc ih
  | comment hb _ ih =>
      rw [List.cons_append, List.append_assoc]
      exact .comment hb ih

theorem Gap.finalGap (h : Gap gap) (hc : FinalGap cs) : FinalGap (gap ++ cs) := by
  rcases hc with hc | ⟨g, body, hg, hb, rfl⟩
  · exact .inl (h.append hc)
  · exact .inr ⟨gap ++ g, body, h.append hg, hb, (List.append_assoc _ _ _).symm⟩

theorem Gap.not_wordChar_getLast? (h : Gap gap) : ∀ c ∈ gap.getLast?, isWordChar c = false := by
  intro c hc
  induction h with
  | nil => cases hc
  | @blank d ds hd _ ih =>
      cases ds with
      | nil =>
          obtain rfl := Option.some.inj hc
          simp [isWordChar, hd]
      | cons => exact ih (by rwa [List.getLast?_cons_cons] at hc)
  | @comment body ds _ _ ih =>
      cases ds with
      | nil =>
          rw [← List.cons_append, List.getLast?_concat] at hc
          obtain rfl := Option.some.inj hc
          rfl
      | cons => exact ih (by simpa [List.getLast?_cons, List.getLast?_append] using hc)

theorem skip_comment (h : '\n' ∉ body) (cs : List Char) (p : Nat) :
    skip true (body ++ cs) p = skip true cs (p + byteLength body) := by
  induction body generalizing p with
  | nil => rfl
  | cons b bs ih =>
      have hb : b ≠ '\n' := fun he => h (he ▸ List.mem_cons_self)
      rw [List.cons_append, skip, bne_iff_ne.2 hb, ih (fun hm => h (List.mem_cons_of_mem _ hm)),
        byteLength, Nat.add_assoc]

theorem skip_gap (h : Gap gap) (cs : List Char) (p : Nat) :
    skip false (gap ++ cs) p = skip false cs (p + byteLength gap) := by
  induction h generalizing p with
  | nil => rfl
  | @blank c ds hc _ ih =>
      have hn : c ≠ '#' := by rintro rfl; cases hc
      rw [List.cons_append, skip, if_neg hn, if_pos hc, ih, byteLength, Nat.add_assoc]
  | @comment body ds hb _ ih =>
      rw [List.cons_append, skip, if_pos rfl, List.append_assoc, skip_comment hb, List.cons_append,
        skip, show ('\n' != '\n') = false from rfl, ih, byteLength, byteLength_append, byteLength]
      simp only [Nat.add_assoc]

theorem skip_finalGap (h : FinalGap cs) (p : Nat) : (skip false cs p).rest = [] := by
  rcases h with h | ⟨gap, body, hg, hb, rfl⟩
  · have hs := skip_gap h [] p
    rw [List.append_nil] at hs
    rw [hs]
    rfl
  · have hs := skip_comment hb [] (p + byteLength gap + ('#' : Char).utf8Size)
    rw [List.append_nil] at hs
    rw [skip_gap hg, skip, if_pos rfl, hs]
    rfl

theorem skip_cases (cs : List Char) : FinalGap cs ∨ ∃ gap c rest, Gap gap ∧
    cs = gap ++ c :: rest ∧ c ≠ '#' ∧ isBlank c = false := by
  induction hn : cs.length using Nat.strongRecOn generalizing cs with
  | ind n ih =>
      -- what is left behind a gap is shorter, and the gap goes in front of the one found there
      have hstep : ∀ gap ds, Gap gap → cs = gap ++ ds → ds.length < n → FinalGap cs ∨
          ∃ gap c rest, Gap gap ∧ cs = gap ++ c :: rest ∧ c ≠ '#' ∧ isBlank c = false := by
        rintro gap ds hg rfl hlt
        rcases ih _ hlt ds rfl with hf | ⟨g, c, rest, hg', rfl, hc⟩
        · exact .inl (hg.finalGap hf)
        · exact .inr ⟨gap ++ g, c, rest, hg.append hg', (List.append_assoc _ _ _).symm, hc⟩
      cases cs with
      | nil => exact .inl (.inl .nil)
      | cons c cs =>
          by_cases hc : c = '#'
          · subst hc
            by_cases hm : '\n' ∈ cs
            · obtain ⟨body, ds, rfl, hb⟩ := List.eq_append_cons_of_mem hm
              refine hstep ('#' :: (body ++ ['\n'])) ds (.comment hb .nil) (by simp) ?_
              rw [← hn, List.length_cons, List.length_append, List.length_cons]
              omega
            · exact .inl (.inr ⟨[], cs, .nil, hm, rfl⟩)
          · cases hb : isBlank c with
            | true => exact hstep [c] cs (.blank hb .nil) rfl (hn ▸ Nat.lt_succ_self _)
            | false => exact .inr ⟨[], c, cs, .nil, rfl, hc, hb⟩

theorem IsToken.exists_cons (h : IsToken w) : ∃ c cs, w.toList = c :: cs ∧ c ≠ '#' ∧
    isBlank c = false := by
  rcases h with ⟨c, hc, rfl⟩ | h
  · refine ⟨c, [], String.toList_singleton c, ?_, ?_⟩
    · rintro rfl
      cases hc
    · simp only [isPunctuation, Bool.or_eq_true, beq_iff_eq] at hc
      obtain ((((rfl | rfl) | rfl) | rfl) | rfl) | rfl := hc <;> rfl
  · obtain ⟨c, cs, hcs⟩ := List.exists_cons_of_ne_nil h.1
    have hc := List.all_eq_true.1 h.2 c (hcs ▸ List.mem_cons_self)
    simp only [isWordChar, Bool.and_eq_true, Bool.not_eq_true', bne_iff_ne] at hc
    exact ⟨c, cs, hcs, hc.1.2, hc.1.1⟩

theorem IsToken.toList_ne_nil (h : IsToken w) : w.toList ≠ [] := by
  obtain ⟨c, cs, hw, -⟩ := h.exists_cons
  exact hw ▸ List.cons_ne_nil c cs

theorem skip_token (h : IsToken w) (rest : List Char) (p : Nat) :
    skip false (w.toList ++ rest) p = ⟨w.toList ++ rest, p⟩ := by
  obtain ⟨c, cs, hw, hc, hb⟩ := h.exists_cons
  rw [hw, List.cons_append, skip, if_neg hc, hb]
  rfl

theorem splitToken_of_isToken (h : IsToken w) (hr : IsWord w → Separated rest) (p : Nat) :
    splitToken ⟨w.toList ++ rest, p⟩ = some (⟨w, ⟨w.toList ++ rest, p⟩⟩,
      ⟨rest, p + byteLength w.toList⟩) := by
  rcases h with ⟨c, hc, rfl⟩ | h
  · rw [String.toList_singleton, splitToken]
    simp only [List.singleton_append, hc, if_true]
    rfl
  · rw [splitToken_word h.1 (List.all_eq_true.1 h.2) (hr h), String.ofList_toList]

theorem exists_isToken {c : Char} (hc : c ≠ '#') (hb : isBlank c = false) (cs : List Char) :
    ∃ w rest, IsToken w ∧ c :: cs = w.toList ++ rest ∧ (IsWord w → Separated rest) := by
  cases hp : isPunctuation c with
  | true =>
      refine ⟨String.singleton c, cs, .inl ⟨c, hp, rfl⟩, by simp, fun hw => ?_⟩
      have hn := List.all_eq_true.1 hw.2 c (by simp)
      simp [isWordChar, hp] at hn
  | false =>
      have hw : isWordChar c = true := by simp [isWordChar, hc, hb, hp]
      have ht : (c :: cs).takeWhile isWordChar = c :: cs.takeWhile isWordChar :=
        List.takeWhile_cons_of_pos hw
      refine ⟨String.ofList ((c :: cs).takeWhile isWordChar), (c :: cs).dropWhile isWordChar,
        .inr ⟨?_, ?_⟩, ?_, fun _ => separated_dropWhile (c :: cs)⟩
      · rw [String.toList_ofList, ht]
        exact List.cons_ne_nil _ _
      · rw [String.toList_ofList]
        exact List.all_takeWhile
      · rw [String.toList_ofList, List.takeWhile_append_dropWhile]

theorem Laid.tokens_eq (h : Laid p cs as) : (TextStream.mk cs p).tokens = as := by
  induction h with
  | @nil p cs hf =>
      have hs : (TextStream.mk cs p).skipBlanks.splitToken = none := by
        rw [splitToken, skipBlanks, skip_finalGap hf]
      rw [TextStream.tokens_eq, hs]
  | @cons p gap rest w as hg hw hr _ ih =>
      rw [TextStream.tokens_eq, skipBlanks, skip_gap hg, skip_token hw,
        splitToken_of_isToken hw hr]
      exact congrArg _ ih

theorem laid_tokens (cs : List Char) (p : Nat) : Laid p cs (TextStream.mk cs p).tokens := by
  suffices h : ∃ as, Laid p cs as by
    obtain ⟨as, h⟩ := h
    rwa [h.tokens_eq]
  induction hn : cs.length using Nat.strongRecOn generalizing cs p with
  | ind n ih =>
      rcases skip_cases cs with hf | ⟨gap, c, ds, hg, rfl, hc, hb⟩
      · exact ⟨[], .nil hf⟩
      · obtain ⟨w, rest, hw, he, hr⟩ := exists_isToken hc hb ds
        have hlt : rest.length < n := by
          have hpos := List.length_pos_iff.2 hw.toList_ne_nil
          rw [← hn, he, List.length_append, List.length_append]
          omega
        obtain ⟨as, has⟩ := ih _ hlt rest (p + byteLength gap + byteLength w.toList) rfl
        rw [he]
        exact ⟨_, .cons hg hw hr has⟩

theorem Laid.le_position (h : Laid p cs as) : ∀ a ∈ as, p ≤ a.position := by
  induction h with
  | nil => exact fun a ha => absurd ha List.not_mem_nil
  | cons _ _ _ _ ih =>
      intro a ha
      rcases List.mem_cons.1 ha with rfl | ha
      · exact Nat.le_add_right _ _
      · exact ((Nat.le_add_right _ _).trans (Nat.le_add_right _ _)).trans (ih a ha)

theorem Laid.pairwise_position (h : Laid p cs as) :
    as.Pairwise fun a b => a.position < b.position := by
  induction h with
  | nil => exact .nil
  | @cons p gap rest w as _ hw _ hr ih =>
      refine .cons (fun b hb => ?_) ih
      have hpos := byteLength_pos hw.toList_ne_nil
      exact Nat.lt_of_lt_of_le (Nat.lt_add_of_pos_right hpos) (hr.le_position b hb)

/-- Each token is the text at its place, and a word ends there on both sides. What comes before is
known by where it ends: in no word, or in one that ends there. -/
theorem Laid.exists_around (h : Laid p cs as) (before : List Char) (hp : byteLength before = p)
    (hseam : (∀ c ∈ before.getLast?, isWordChar c = false) ∨ Separated cs) :
    ∀ a ∈ as, ∃ pre post, before ++ cs = pre ++ (a.text.toList ++ post) ∧
      byteLength pre = a.position ∧ IsToken a.text ∧
      (IsWord a.text → (∀ c ∈ pre.getLast?, isWordChar c = false) ∧ Separated post) := by
  induction h generalizing before with
  | nil => exact fun a ha => absurd ha List.not_mem_nil
  | @cons p gap rest w as hg hw hr _ ih =>
      intro a ha
      rcases List.mem_cons.1 ha with rfl | ha
      · refine ⟨before ++ gap, rest, (List.append_assoc _ _ _).symm, ?_, hw, fun h => ⟨?_, hr h⟩⟩
        · rw [byteLength_append, hp]
          rfl
        · intro c hc
          rcases List.eq_nil_or_concat gap with rfl | ⟨g, d, rfl⟩
          · -- without a gap the word would go on from what comes before
            rw [List.append_nil] at hc
            rcases hseam with hs | hs
            · exact hs c hc
            · obtain ⟨d, ds, hd⟩ := List.exists_cons_of_ne_nil h.1
              have hn := hs d (by rw [List.nil_append, hd]; rfl)
              rw [List.all_eq_true.1 h.2 d (hd ▸ List.mem_cons_self)] at hn
              cases hn
          · refine hg.not_wordChar_getLast? c ?_
            rw [List.concat_eq_append, ← List.append_assoc, List.getLast?_concat] at hc
            rwa [List.concat_eq_append, List.getLast?_concat]
      · have hseam' : (∀ c ∈ (before ++ (gap ++ w.toList)).getLast?, isWordChar c = false) ∨
            Separated rest := by
          rcases hw with ⟨d, hd, rfl⟩ | hw
          · refine .inl fun c hc => ?_
            rw [String.toList_singleton, ← List.append_assoc, List.getLast?_concat] at hc
            obtain rfl := Option.some.inj hc
            simp [isWordChar, hd]
          · exact .inr (hr hw)
        obtain ⟨pre, post, he, hpost⟩ := ih _
          (by rw [byteLength_append, byteLength_append, hp, Nat.add_assoc]) hseam' a ha
        exact ⟨pre, post, by rw [← he]; simp only [List.append_assoc], hpost⟩

theorem Laid.standsIn {text : String} (h : Laid 0 text.toList as) :
    ∀ a ∈ as, StandsIn text a := by
  intro a ha
  obtain ⟨pre, post, he, hp, ht, hw⟩ := h.exists_around [] rfl
    (.inl fun c hc => by cases hc) a ha
  refine ⟨encoded pre, encoded post, ?_, (length_encoded pre).trans hp,
    ht.imp_right fun hword => ?_⟩
  · rw [bytes_eq, bytes_eq, ← encoded_append, ← encoded_append, ← he]
    rfl
  · obtain ⟨hpre, hpost⟩ := hw hword
    rw [bytes_eq]
    refine ⟨List.ne_nil_of_length_pos ?_, fun b hb => ?_, not_wordByte_of_getLast? hpre,
      not_wordByte_of_head? hpost⟩
    · rw [length_encoded]
      exact byteLength_pos hword.1
    · exact isWordByte_of_mem (List.all_eq_true.1 hword.2) hb

theorem accounts_tokens (text : String) : Accounts text (ofString text).tokens where
  reads _ := reads_iff
  bytewise _ := readsBytes_iff
  increasing := (laid_tokens text.toList 0).pairwise_position
  stands := (laid_tokens text.toList 0).standsIn
  laid := laid_tokens text.toList 0

theorem finalGap_of_next_eq_none (h : Parser.next s = .ok none t) : FinalGap s.rest := by
  have hl := laid_tokens s.rest s.position
  rw [← reads_iff.1 (Reads.done h)] at hl
  generalize s.rest = cs at hl
  cases hl with
  | nil hf => exact hf

theorem next_unread (h : Parser.next s = .ok (some a) t) (u : TextStream) :
    (Parser.unread a >>= fun _ => Parser.next) u = .ok (some a) t := by
  have hs : s.skipBlanks.splitToken = some (a, t) := by
    rw [Parser.next] at h
    cases hs : s.skipBlanks.splitToken with
    | none => simp [hs] at h
    | some x =>
        simp only [hs, EStateM.Result.ok.injEq, Option.some.injEq] at h
        obtain ⟨rfl, rfl⟩ := h
        rfl
  have hu : Parser.unread a u = .ok () s.skipBlanks := by
    rw [← start_splitToken hs]
    rfl
  rw [bind_ok hu, Parser.next, skipBlanks_skipBlanks]
  simp only [hs]

theorem Gap.separated (h : Gap gap) : Separated gap := by
  cases h with
  | nil => exact separated_nil
  | blank hc => exact separated_cons (by simp [isWordChar, hc]) _
  | comment => exact separated_cons rfl _

theorem FinalGap.separated (h : FinalGap cs) : Separated cs := by
  rcases h with h | ⟨gap, body, hg, -, rfl⟩
  · exact h.separated
  · cases gap with
    | nil => exact separated_cons rfl _
    | cons c gap => exact separated_cons (hg.separated c rfl) _

theorem separated_join {pieces : List (List Char × String)} {last : List Char}
    (hp : ∀ x ∈ pieces, Gap x.1 ∧ IsToken x.2) (hlast : FinalGap last)
    (hhead : ∀ x ∈ pieces.head?, IsWord x.2 → x.1 ≠ []) : Separated (join pieces last) := by
  cases pieces with
  | nil => exact hlast.separated
  | cons x pieces =>
      obtain ⟨gap, w⟩ := x
      obtain ⟨hg, hw⟩ := hp _ List.mem_cons_self
      cases gap with
      | cons c gap => exact separated_cons (hg.separated c rfl) _
      | nil =>
          rcases hw with ⟨c, hc, rfl⟩ | hw
          · rw [join, List.nil_append, String.toList_singleton]
            exact separated_cons (by simp [isWordChar, hc]) _
          · exact absurd rfl (hhead _ rfl hw)

theorem exists_laid_join {pieces : List (List Char × String)} {last : List Char}
    (hp : ∀ x ∈ pieces, Gap x.1 ∧ IsToken x.2)
    (hc : pieces.IsChain fun x y => IsWord x.2 → IsWord y.2 → y.1 ≠ []) (hlast : FinalGap last)
    (p : Nat) : ∃ as, Laid p (join pieces last) as ∧ as.map (·.text) = pieces.map (·.2) := by
  induction pieces generalizing p with
  | nil => exact ⟨[], .nil hlast, rfl⟩
  | cons x pieces ih =>
      obtain ⟨gap, w⟩ := x
      obtain ⟨hg, hw⟩ := hp _ List.mem_cons_self
      have hrest := fun y hy => hp y (List.mem_cons_of_mem _ hy)
      obtain ⟨as, has, htext⟩ := ih hrest hc.tail (p + byteLength gap + byteLength w.toList)
      refine ⟨_, .cons hg hw (fun hword => separated_join hrest hlast fun y hy => ?_) has,
        congrArg (w :: ·) htext⟩
      exact List.IsChain.rel_head? hc hy hword

/-- A text is accounted for by its tokens, which reading on finds one by one until only a gap is
left, and which can be put back. The other way, the tokens that a text was put together from are
the ones read. Reading byte by byte from a place where a character begins comes to the same token
and to another such place. -/
theorem tokens_account_for_text :
    (∀ text, ∃ as, Accounts text as) ∧
    (∀ s t, Parser.next s = .ok none t → FinalGap s.rest) ∧
    (∀ s t u a, Parser.next s = .ok (some a) t →
      (Parser.unread a >>= fun _ => Parser.next) u = .ok (some a) t) ∧
    (∀ pieces last, (∀ x ∈ pieces, Gap x.1 ∧ IsToken x.2) →
      (pieces.IsChain fun x y => IsWord x.2 → IsWord y.2 → y.1 ≠ []) → FinalGap last →
      ∃ as, Reads (ofString (String.ofList (join pieces last))) as ∧
        as.map (·.text) = pieces.map (·.2)) ∧
    ∀ text s, At text s → ∃ x t, Parser.next s = .ok x t ∧
      readBytes (bytes text) s.position = (x.map Token.inBytes, t.position) ∧
      At text t ∧ ∀ a ∈ x, At text a.start := by
  refine ⟨fun text => ⟨_, accounts_tokens text⟩, fun s t => finalGap_of_next_eq_none,
    fun s t u a h => next_unread h u, fun pieces last hp hc hlast => ?_, fun text s => At.next⟩
  obtain ⟨as, has, htext⟩ := exists_laid_join hp hc hlast 0
  refine ⟨as, reads_iff.2 ?_, htext⟩
  rw [ofString, String.toList_ofList, has.tokens_eq]

/-- Two words with a comment between them, a comment that the end of the text cuts short, and a word
behind a character of two bytes. -/
theorem commented_words_account_for_text :
    Accounts "a" [⟨"a", ofString "a"⟩] ∧
    (∃ as, Reads (ofString "é #x\nb:#") as ∧ as.map (·.text) = ["é", "b", ":"]) ∧
    FinalGap (ofString " #x").rest ∧
    (Parser.unread ⟨"b", ofString "b"⟩ >>= fun _ => Parser.next) ⟨[], 7⟩ =
      .ok (some ⟨"b", ofString "b"⟩) ⟨[], 1⟩ ∧
    At "é b" ⟨[' ', 'b'], 2⟩ ∧ readBytes (bytes "é b") 2 = (some (bytes "b", 3), 4) := by
  have hat : At "é b" ⟨[' ', 'b'], 2⟩ := ⟨['é'], rfl, rfl⟩
  refine ⟨?_, ?_, tokens_account_for_text.2.1 _ ⟨[], 3⟩ rfl,
    tokens_account_for_text.2.2.1 (ofString "b") _ _ _ rfl, hat, ?_⟩
  · obtain ⟨as, h⟩ := tokens_account_for_text.1 "a"
    rwa [← (h.reads _).1 (reads_iff.2 rfl)] at h
  · refine tokens_account_for_text.2.2.2.1
      [([], "é"), ([' ', '#', 'x', '\n'], "b"), ([], ":")] ['#'] ?_
      (by simp [show ¬IsWord ":" by decide]) (.inr ⟨[], [], .nil, by simp, rfl⟩)
    intro x hx
    simp only [List.mem_cons, List.not_mem_nil, or_false] at hx
    rcases hx with rfl | rfl | rfl
    · exact ⟨.nil, .inr (by decide)⟩
    · exact ⟨.blank rfl (.comment (show '\n' ∉ ['x'] by decide) .nil), .inr (by decide)⟩
    · exact ⟨.nil, .inl ⟨':', rfl, rfl⟩⟩
  · obtain ⟨x, t, hnext, hread, -⟩ := tokens_account_for_text.2.2.2.2 _ _ hat
    have hb : Parser.next ⟨[' ', 'b'], 2⟩ = .ok (some ⟨"b", ⟨['b'], 3⟩⟩) ⟨[], 4⟩ := rfl
    cases hb.symm.trans hnext
    exact hread

end

end TextStream

end Packed
