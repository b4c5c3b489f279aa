import Packed.Proofs.Text.Tokens

namespace Packed

def bytes (text : String) : List UInt8 := text.toByteArray.data.toList

namespace TextStream

def isWordByte (b : UInt8) : Bool := isWordChar (Char.ofUInt8 b)

def encoded (cs : List Char) : List UInt8 := cs.flatMap String.utf8EncodeChar

theorem bytes_eq (text : String) : bytes text = encoded text.toList := by
  rw [bytes, ← String.utf8Encode_toList, List.utf8Encode, List.toList_data_toByteArray]
  rfl

theorem encoded_cons (c : Char) (cs : List Char) :
    encoded (c :: cs) = String.utf8EncodeChar c ++ encoded cs :=
  List.flatMap_cons

theorem encoded_append (cs ds : List Char) : encoded (cs ++ ds) = encoded cs ++ encoded ds :=
  List.flatMap_append

theorem length_encoded (cs : List Char) : (encoded cs).length = byteLength cs := by
  induction cs with
  | nil => rfl
  | cons c cs ih =>
      rw [encoded_cons, List.length_append, String.length_utf8EncodeChar, byteLength, ih]

theorem byteLength_append (cs ds : List Char) :
    byteLength (cs ++ ds) = byteLength cs + byteLength ds := by
  rw [← length_encoded, encoded_append, List.length_append, length_encoded, length_encoded]

theorem byteLength_pos {cs : List Char} (h : cs ≠ []) : 0 < byteLength cs := by
  obtain ⟨c, ds, rfl⟩ := List.exists_cons_of_ne_nil h
  exact Nat.add_pos_left c.utf8Size_pos _

theorem toNat_lt_of_not_wordChar {c : Char} (h : isWordChar c = false) : c.toNat < 128 := by
  simp only [isWordChar, isBlank, isPunctuation, Bool.and_eq_false_iff, Bool.not_eq_false',
    Bool.or_eq_true, beq_iff_eq, bne_eq_false_iff_eq] at h
  obtain (((((rfl | rfl) | rfl) | rfl) | rfl) | rfl) |
    ((((rfl | rfl) | rfl) | rfl) | rfl) | rfl := h <;> decide

theorem exists_byte {c : Char} (h : c.toNat < 128) :
    ∃ b, String.utf8EncodeChar c = [b] ∧ Char.ofUInt8 b = c := by
  have hle : c.val ≤ 0x7f := UInt32.le_iff_toNat_le.2 (Nat.le_of_lt_succ h)
  refine ⟨c.val.toUInt8, String.utf8EncodeChar_eq_singleton (Char.utf8Size_eq_one_iff.2 hle), ?_⟩
  apply Char.ext
  apply UInt32.toNat.inj
  change c.val.toUInt8.toUInt32.toNat = c.val.toNat
  rw [UInt8.toNat_toUInt32, UInt32.toNat_toUInt8]
  exact Nat.mod_eq_of_lt (Nat.lt_trans h (by decide))

/-- Any other character begins with a byte whose two highest bits are set, and goes on with bytes
whose highest bit is set. -/
theorem exists_bytes {c : Char} (h : 128 ≤ c.toNat) : ∃ b bs, String.utf8EncodeChar c = b :: bs ∧
    192 ≤ b.toNat ∧ ∀ d ∈ bs, 128 ≤ d.toNat := by
  have hbyte : ∀ n k m, 0 < k → k + m ≤ 256 → m ≤ (UInt8.ofNat (n % k + m)).toNat := by
    intro n k m hk hm
    have hlt := Nat.mod_lt n hk
    rw [UInt8.toNat_ofNat', Nat.mod_eq_of_lt (by omega)]
    exact Nat.le_add_left m _
  have hlead : ∀ n k m, 0 < k → k + m ≤ 256 → 192 ≤ m →
      192 ≤ (UInt8.ofNat (n % k + m)).toNat :=
    fun n k m hk hm hle => Nat.le_trans hle (hbyte n k m hk hm)
  have hnext : ∀ n, 128 ≤ (UInt8.ofNat (n % 64 + 128)).toNat :=
    fun n => hbyte n 64 128 (by decide) (by decide)
  have hlow : ¬c.val.toNat ≤ 127 := Nat.not_le.2 h
  rw [String.utf8EncodeChar]
  simp only [hlow, if_false]
  split
  · exact ⟨_, _, rfl, hlead _ _ _ (by decide) (by decide) (by decide),
      List.forall_mem_singleton.2 (hnext _)⟩
  · split
    · exact ⟨_, _, rfl, hlead _ _ _ (by decide) (by decide) (by decide),
        List.forall_mem_cons.2 ⟨hnext _, List.forall_mem_singleton.2 (hnext _)⟩⟩
    · exact ⟨_, _, rfl, hlead _ _ _ (by decide) (by decide) (by decide),
        List.forall_mem_cons.2 ⟨hnext _, List.forall_mem_cons.2 ⟨hnext _,
          List.forall_mem_singleton.2 (hnext _)⟩⟩⟩

theorem le_toNat_of_mem_encode {c : Char} {b : UInt8} (h : 128 ≤ c.toNat)
    (hb : b ∈ String.utf8EncodeChar c) : 128 ≤ b.toNat := by
  obtain ⟨d, ds, he, hd, hds⟩ := exists_bytes h
  rw [he, List.mem_cons] at hb
  rcases hb with rfl | hb
  · exact Nat.le_trans (by decide) hd
  · exact hds b hb

theorem isWordByte_of_le {b : UInt8} (h : 128 ≤ b.toNat) : isWordByte b = true := by
  cases hb : isWordByte b with
  | true => rfl
  | false => exact absurd (toNat_lt_of_not_wordChar hb) (Nat.not_lt.2 h)

theorem isWordByte_of_mem {cs : List Char} (h : ∀ c ∈ cs, isWordChar c = true) {b : UInt8}
    (hb : b ∈ encoded cs) : isWordByte b = true := by
  obtain ⟨c, hc, hb⟩ := List.mem_flatMap.1 hb
  rcases Nat.lt_or_ge c.toNat 128 with hlt | hge
  · obtain ⟨d, hd, hdc⟩ := exists_byte hlt
    rw [hd, List.mem_singleton] at hb
    rw [hb, isWordByte, hdc]
    exact h c hc
  · exact isWordByte_of_le (le_toNat_of_mem_encode hge hb)

theorem exists_byte_of_not_wordChar {c : Char} (h : isWordChar c = false) :
    ∃ b, String.utf8EncodeChar c = [b] ∧ isWordByte b = false := by
  obtain ⟨b, hb, hc⟩ := exists_byte (toNat_lt_of_not_wordChar h)
  exact ⟨b, hb, by rw [isWordByte, hc, h]⟩

theorem not_wordByte_of_head? {cs : List Char} (h : ∀ c ∈ cs.head?, isWordChar c = false) :
    ∀ b ∈ (encoded cs).head?, isWordByte b = false := by
  intro b hb
  cases cs with
  | nil => cases hb
  | cons c cs =>
      obtain ⟨d, hd, hw⟩ := exists_byte_of_not_wordChar (h c rfl)
      rw [encoded_cons, hd] at hb
      obtain rfl := Option.some.inj hb
      exact hw

theorem not_wordByte_of_getLast? {cs : List Char} (h : ∀ c ∈ cs.getLast?, isWordChar c = false) :
    ∀ b ∈ (encoded cs).getLast?, isWordByte b = false := by
  intro b hb
  rcases List.eq_nil_or_concat cs with rfl | ⟨ds, c, rfl⟩
  · cases hb
  · obtain ⟨d, hd, hw⟩ := exists_byte_of_not_wordChar (h c (by simp))
    have hlast : encoded [c] = [d] := by rw [encoded, List.flatMap_singleton, hd]
    rw [List.concat_eq_append, encoded_append, hlast, List.getLast?_concat] at hb
    obtain rfl := Option.some.inj hb
    exact hw

end TextStream

end Packed
