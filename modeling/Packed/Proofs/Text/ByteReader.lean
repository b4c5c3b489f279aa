import Packed.Proofs.Text.Utf8

namespace Packed

def Token.inBytes (a : Token) : List UInt8 × Nat := (bytes a.text, a.position)

namespace TextStream

/-- The number of bytes of blanks and comments at the head of some bytes. The flag tells whether a
comment has begun. -/
def blankBytes : Bool → List UInt8 → Nat
  | _, [] => 0
  | true, b :: bs => blankBytes (Char.ofUInt8 b != '\n') bs + 1
  | false, b :: bs =>
      if Char.ofUInt8 b = '#' then blankBytes true bs + 1
      else if isBlank (Char.ofUInt8 b) then blankBytes false bs + 1
      else 0

def isBoundary (bs : List UInt8) (p : Nat) : Bool :=
  match bs[p]? with
  | none => p == bs.length
  | some b => p == 0 || b.toNat < 128 || 192 ≤ b.toNat

/-- The bytes between two positions, unless one of them is within a character. -/
def slice? (bs : List UInt8) (start stop : Nat) : Option (List UInt8) :=
  if start ≤ stop && isBoundary bs start && isBoundary bs stop then
    some ((bs.drop start).take (stop - start))
  else none

def readBytes (bs : List UInt8) (p : Nat) : Option (List UInt8 × Nat) × Nat :=
  let start := p + blankBytes false (bs.drop p)
  match bs[start]? with
  | none => (none, start)
  | some b =>
      let stop := start + if isPunctuation (Char.ofUInt8 b) then 1
        else ((bs.drop start).takeWhile isWordByte).length
      ((slice? bs start stop).map fun text => (text, start), stop)

inductive ReadsBytes (bs : List UInt8) : Nat → List (List UInt8 × Nat) → Prop
  | done {p q : Nat} : readBytes bs p = (none, q) → ReadsBytes bs p []
  | more {p q : Nat} {x : List UInt8 × Nat} {xs : List (List UInt8 × Nat)} :
      readBytes bs p = (some x, q) → ReadsBytes bs q xs → ReadsBytes bs p (x :: xs)

/-- The stream is what is left of the text from its position on. -/
def At (text : String) (s : TextStream) : Prop :=
  ∃ before, text.toList = before ++ s.rest ∧ byteLength before = s.position

section

variable {text : String} {s t : TextStream} {a : Token} {cs rest : List Char} {p : Nat}

theorem at_ofString (text : String) : At text (ofString text) := ⟨[], rfl, rfl⟩

theorem At.append (h : At text ⟨cs ++ rest, p⟩) : At text ⟨rest, p + byteLength cs⟩ := by
  obtain ⟨before, htext, hp⟩ := h
  exact ⟨before ++ cs, by rw [htext, List.append_assoc], by rw [byteLength_append, hp]⟩

theorem At.drop (h : At text s) : (bytes text).drop s.position = encoded s.rest := by
  obtain ⟨before, htext, hp⟩ := h
  rw [bytes_eq, htext, encoded_append, ← hp, ← length_encoded, List.drop_left]

theorem At.getElem? (h : At text s) : (bytes text)[s.position]? = (encoded s.rest).head? := by
  rw [← h.drop, List.head?_drop]

/-- A character is the one byte of its value, or it is part of a word and its first byte is one that
no character goes on with. -/
theorem exists_lead (c : Char) : ∃ b bs, String.utf8EncodeChar c = b :: bs ∧
    (b.toNat < 128 ∧ bs = [] ∧ Char.ofUInt8 b = c ∨
      192 ≤ b.toNat ∧ (∀ d ∈ bs, 128 ≤ d.toNat) ∧ isWordChar c = true) := by
  rcases Nat.lt_or_ge c.toNat 128 with hlt | hge
  · obtain ⟨b, hb, hc⟩ := exists_byte hlt
    have hnat : (Char.ofUInt8 b).toNat = b.toNat := UInt8.toNat_toUInt32 b
    exact ⟨b, [], hb, .inl ⟨by rwa [← hnat, hc], rfl, hc⟩⟩
  · obtain ⟨b, bs, he, hb, hbs⟩ := exists_bytes hge
    refine ⟨b, bs, he, .inr ⟨hb, hbs, ?_⟩⟩
    cases hw : isWordChar c with
    | true => rfl
    | false => exact absurd (toNat_lt_of_not_wordChar hw) (Nat.not_lt.2 hge)

theorem At.isBoundary (h : At text s) : isBoundary (bytes text) s.position = true := by
  have hlength : s.position + (encoded s.rest).length = (bytes text).length := by
    obtain ⟨before, htext, hp⟩ := h
    rw [bytes_eq, htext, encoded_append, List.length_append, length_encoded before, hp]
  rw [TextStream.isBoundary, h.getElem?]
  cases hr : s.rest with
  | nil =>
      rw [hr] at hlength
      exact beq_iff_eq.2 hlength
  | cons c cs =>
      obtain ⟨b, bs, he, hb⟩ := exists_lead c
      rw [encoded_cons, he, List.cons_append, List.head?_cons]
      rcases hb with ⟨hb, -⟩ | ⟨hb, -⟩ <;> simp [hb]

theorem At.slice? (h : At text ⟨cs ++ rest, p⟩) :
    slice? (bytes text) p (p + byteLength cs) = some (encoded cs) := by
  have hstart := h.isBoundary
  have hstop := h.append.isBoundary
  have hdrop := h.drop
  rw [TextStream.slice?, hstart, hstop, hdrop, decide_eq_true (Nat.le_add_right _ _),
    Nat.add_sub_cancel_left, encoded_append, ← length_encoded, List.take_left]
  rfl

theorem takeWhile_encoded (cs : List Char) :
    (encoded cs).takeWhile isWordByte = encoded (cs.takeWhile isWordChar) := by
  have hsplit : encoded cs =
      encoded (cs.takeWhile isWordChar) ++ encoded (cs.dropWhile isWordChar) := by
    rw [← encoded_append, List.takeWhile_append_dropWhile]
  have hword : ∀ b ∈ encoded (cs.takeWhile isWordChar), isWordByte b = true :=
    fun b hb => isWordByte_of_mem (fun c hc => List.all_eq_true.1 List.all_takeWhile c hc) hb
  have hstop := not_wordByte_of_head? (separated_dropWhile cs)
  rw [hsplit, List.takeWhile_append_of_pos hword]
  cases hd : encoded (cs.dropWhile isWordChar) with
  | nil => rw [List.takeWhile_nil, List.append_nil]
  | cons b bs =>
      rw [hd] at hstop
      rw [List.takeWhile_cons_of_neg (by simp [hstop b rfl]), List.append_nil]

theorem not_mark_of_wordChar {c : Char} (h : isWordChar c = true) :
    c ≠ '#' ∧ c ≠ '\n' ∧ isBlank c = false ∧ isPunctuation c = false := by
  simp only [isWordChar, Bool.and_eq_true, Bool.not_eq_true', bne_iff_ne] at h
  refine ⟨h.1.2, ?_, h.1.1, h.2⟩
  rintro rfl
  exact absurd h.1.1 (by decide)

theorem not_mark_of_le {b : UInt8} (h : 128 ≤ b.toNat) :
    Char.ofUInt8 b ≠ '#' ∧ Char.ofUInt8 b ≠ '\n' ∧ isBlank (Char.ofUInt8 b) = false ∧
      isPunctuation (Char.ofUInt8 b) = false :=
  not_mark_of_wordChar (isWordByte_of_le h)

theorem blankBytes_comment {bs : List UInt8} (h : ∀ b ∈ bs, 128 ≤ b.toNat) (ds : List UInt8) :
    blankBytes true (bs ++ ds) = bs.length + blankBytes true ds := by
  induction bs with
  | nil => rw [List.nil_append, List.length_nil, Nat.zero_add]
  | cons b bs ih =>
      obtain ⟨hb, hbs⟩ := List.forall_mem_cons.1 h
      have hline := (not_mark_of_le hb).2.1
      rw [List.cons_append, blankBytes, bne_iff_ne.2 hline, ih hbs, List.length_cons,
        Nat.add_right_comm]

theorem blankBytes_char_comment (c : Char) (ds : List UInt8) :
    blankBytes true (String.utf8EncodeChar c ++ ds) =
      c.utf8Size + blankBytes (c != '\n') ds := by
  obtain ⟨b, bs, he, ⟨-, rfl, hc⟩ | ⟨hb, hbs, hw⟩⟩ := exists_lead c
  · rw [← String.length_utf8EncodeChar, he, List.singleton_append, blankBytes, hc, Nat.add_comm,
      List.length_singleton]
  · have hline := (not_mark_of_wordChar hw).2.1
    have hall : ∀ d ∈ b :: bs, 128 ≤ d.toNat :=
      List.forall_mem_cons.2 ⟨Nat.le_trans (by decide) hb, hbs⟩
    rw [← String.length_utf8EncodeChar, he, bne_iff_ne.2 hline, blankBytes_comment hall]

theorem blankBytes_char (c : Char) (ds : List UInt8) :
    blankBytes false (String.utf8EncodeChar c ++ ds) =
      if c = '#' then c.utf8Size + blankBytes true ds
      else if isBlank c then c.utf8Size + blankBytes false ds
      else 0 := by
  obtain ⟨b, bs, he, ⟨-, rfl, hc⟩ | ⟨hb, hbs, hw⟩⟩ := exists_lead c
  · rw [← String.length_utf8EncodeChar, he, List.singleton_append, blankBytes, hc,
      List.length_singleton, Nat.add_comm 1, Nat.add_comm 1]
  · obtain ⟨hmark, -, hblank, -⟩ := not_mark_of_wordChar hw
    obtain ⟨hmark', -, hblank', -⟩ := not_mark_of_le (Nat.le_trans (by decide) hb)
    rw [he, List.cons_append, blankBytes, if_neg hmark, if_neg hmark', hblank, hblank']
    rfl

theorem exists_skip (comment : Bool) (cs : List Char) (p : Nat) : ∃ gap rest, cs = gap ++ rest ∧
    skip comment cs p = ⟨rest, p + byteLength gap⟩ ∧
    blankBytes comment (encoded cs) = byteLength gap := by
  induction cs generalizing comment p with
  | nil => exact ⟨[], [], rfl, by cases comment <;> rfl, by cases comment <;> rfl⟩
  | cons c cs ih =>
      -- a character that both take off goes in front of what both take off after it
      have hstep : ∀ next, ∃ gap rest, c :: cs = gap ++ rest ∧
          skip next cs (p + c.utf8Size) = ⟨rest, p + byteLength gap⟩ ∧
          c.utf8Size + blankBytes next (encoded cs) = byteLength gap := by
        intro next
        obtain ⟨gap, rest, rfl, hs, hb⟩ := ih next (p + c.utf8Size)
        exact ⟨c :: gap, rest, rfl, by rw [hs, byteLength, Nat.add_assoc], by rw [hb, byteLength]⟩
      rw [encoded_cons]
      cases comment with
      | true =>
          rw [skip, blankBytes_char_comment]
          exact hstep _
      | false =>
          rw [skip, blankBytes_char]
          split
          · exact hstep true
          · split
            · exact hstep false
            · exact ⟨[], c :: cs, rfl, rfl, rfl⟩

theorem exists_word (c : Char) (cs : List Char) (p : Nat) : ∃ w rest b, c :: cs = w ++ rest ∧
    splitToken ⟨c :: cs, p⟩ = some (⟨String.ofList w, ⟨c :: cs, p⟩⟩, ⟨rest, p + byteLength w⟩) ∧
    (encoded (c :: cs)).head? = some b ∧
    (if isPunctuation (Char.ofUInt8 b) then 1
      else ((encoded (c :: cs)).takeWhile isWordByte).length) = byteLength w := by
  obtain ⟨b, bs, he, hb⟩ := exists_lead c
  have hhead : (encoded (c :: cs)).head? = some b := by rw [encoded_cons, he]; rfl
  cases hp : isPunctuation c with
  | true =>
      obtain ⟨-, rfl, hc⟩ | ⟨-, -, hw⟩ := hb
      · refine ⟨[c], cs, b, rfl, ?_, hhead, ?_⟩
        · rw [splitToken]
          simp only [hp, if_true]
          rfl
        · rw [hc, hp, if_pos rfl, ← length_encoded, encoded_cons, he]
          rfl
      · rw [(not_mark_of_wordChar hw).2.2.2] at hp
        cases hp
  | false =>
      have hpb : isPunctuation (Char.ofUInt8 b) = false := by
        obtain ⟨-, -, hc⟩ | ⟨hb, -, -⟩ := hb
        · rw [hc, hp]
        · exact (not_mark_of_le (Nat.le_trans (by decide) hb)).2.2.2
      refine ⟨(c :: cs).takeWhile isWordChar, (c :: cs).dropWhile isWordChar, b,
        List.takeWhile_append_dropWhile.symm, ?_, hhead, ?_⟩
      · rw [splitToken]
        simp only [hp]
        rfl
      · rw [hpb, takeWhile_encoded, length_encoded]
        rfl

/-- Reading byte by byte finds the token that reading character by character finds, ends where that
ends, and never cuts a character. -/
theorem At.next (h : At text s) : ∃ x t, Parser.next s = .ok x t ∧
    readBytes (bytes text) s.position = (x.map Token.inBytes, t.position) ∧
    At text t ∧ ∀ a ∈ x, At text a.start := by
  obtain ⟨gap, rest, hgap, hskip, hblank⟩ := exists_skip false s.rest s.position
  have hrest : At text ⟨rest, s.position + byteLength gap⟩ := by
    obtain ⟨cs, p⟩ := s
    obtain rfl : cs = gap ++ rest := hgap
    exact h.append
  rw [Parser.next, skipBlanks, hskip, readBytes, h.drop, hblank]
  simp only [hrest.getElem?, hrest.drop]
  cases rest with
  | nil => exact ⟨none, _, rfl, rfl, hrest, fun a ha => absurd ha (Option.not_mem_none a)⟩
  | cons c cs =>
      obtain ⟨w, after, b, hw, hsplit, hhead, hlength⟩ :=
        exists_word c cs (s.position + byteLength gap)
      rw [hsplit, hhead]
      simp only [hlength]
      refine ⟨_, _, rfl, ?_, ?_, ?_⟩
      · rw [hw] at hrest
        rw [hrest.slice?, Option.map_some, Option.map_some, Token.inBytes, bytes_eq,
          String.toList_ofList]
        rfl
      · rw [hw] at hrest
        exact hrest.append
      · rintro a ⟨⟩
        exact hrest

end

end TextStream

end Packed
