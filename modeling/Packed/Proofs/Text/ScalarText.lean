import Packed.Text.ScalarText
import Packed.Proofs.Encoding
import Packed.Proofs.EnumNames
import Packed.Proofs.Text.Numeral

namespace Packed

open TextStream

namespace Numeral

theorem getLast?_separate (size k : Nat) (ds : List Char) :
    (separate size k ds).getLast? = ds.getLast? := by
  induction ds generalizing k with
  | nil => rfl
  | cons d ds ih =>
      rw [separate]
      split
      · rw [List.getLast?_cons_cons, List.getLast?_cons, List.getLast?_cons, ih]
      · rw [List.getLast?_cons, List.getLast?_cons, ih]

theorem head?_digitChars (b : Base) (grouping : Bool) (n : Nat) :
    (digitChars b grouping n).head? = (Nat.toDigits b.radix n).head? := by
  cases grouping with
  | false => rfl
  | true =>
      change (separate b.groupSize 0 (Nat.toDigits b.radix n).reverse).reverse.head? = _
      rw [List.head?_reverse, getLast?_separate, List.getLast?_reverse]

theorem isNumeric_render (n : Numeral) (b : Base) (grouping : Bool) :
    Kind.isNumeric (n.render b grouping) = true := by
  suffices h : ∃ c cs, n.renderChars b grouping = c :: cs ∧
      (FloatFormat.isDigit c || c == '-') = true by
    obtain ⟨c, cs, hcs, hc⟩ := h
    rw [Kind.isNumeric, render, String.toList_ofList, hcs]
    exact hc
  rw [renderChars]
  cases n.negative with
  | true => exact ⟨'-', _, rfl, rfl⟩
  | false =>
      cases b with
      | binary => exact ⟨'0', _, rfl, rfl⟩
      | hexadecimal => exact ⟨'0', _, rfl, rfl⟩
      | decimal =>
          obtain ⟨c, cs, hcs⟩ := List.exists_cons_of_ne_nil
            (digitChars_ne_nil .decimal grouping n.magnitude)
          have hc : c ∈ Nat.toDigits 10 n.magnitude := by
            have hh := head?_digitChars .decimal grouping n.magnitude
            rw [hcs] at hh
            exact List.mem_of_head? hh.symm
          obtain ⟨d, hd, rfl⟩ := mem_toDigits (by decide) hc
          have hall : ∀ d : Fin 10,
              (FloatFormat.isDigit (Nat.digitChar d) || Nat.digitChar d == '-') = true := by
            decide
          exact ⟨_, cs, hcs, hall ⟨d, hd⟩⟩

end Numeral

namespace EnumType

structure Readable (e : EnumType) : Prop where
  nodup : (e.entries.map (·.1)).Nodup
  word : ∀ p ∈ e.entries, IsWord p.1
  name : ∀ p ∈ e.entries, Kind.isNumeric p.1 = false
  bits_pos : 0 < e.host.bits
  bits_le : e.host.bits ≤ 64

end EnumType

namespace Kind

def Legible (k : Kind) (v : k.Value) : Prop :=
  ∀ o : TextOptions, ∃ word, IsWord word ∧ Spells o.multiline (k.render o v) [word] ∧
    k.parser.Yields [word] v

def Readable : Kind → Prop
  | float _ => False
  | named e => e.Readable
  | _ => True

/-- Kinds and widths of fields whose bits can be told from the text of their value. -/
structure Textual (k : Kind) (w : Nat) : Prop where
  readable : k.Readable
  holds : k.HoldsWidth w

theorem textual_of_mem {k : Kind} (h : k ∈ [.unsigned, .signed, .decimal, .flag]) (w : Nat) :
    k.Textual w := by
  simp only [List.mem_cons, List.not_mem_nil, or_false] at h
  obtain rfl | rfl | rfl | rfl := h <;> exact ⟨trivial, fun e he => by cases he⟩

theorem legible_natural {v : Nat} (h : v < sizeLimit) :
    ∀ o : TextOptions, ∃ word, IsWord word ∧ Spells o.multiline (o.number v) [word] ∧
      Parser.unsigned.Yields [word] v := by
  intro o
  exact ⟨o.plainNumber v, Numeral.isWord_render _ _ _, o.number_spells v,
    Parser.unsigned_yields v _ _ h⟩

theorem legible_signed {v : Int} (h : (IntType.mk true 64).contains v = true) :
    signed.Legible v := by
  intro o
  exact ⟨o.plainNumber v, Numeral.isWord_render _ _ _, o.number_spells v,
    Parser.signed_yields _ _ h⟩

theorem legible_flag (v : Bool) : flag.Legible v := by
  intro o
  have hw : ∀ v : Bool, IsWord (if v then "true" else "false") := by decide
  refine ⟨flag.render o v, hw v, (hw v).spells _, ?_⟩
  intro s us hs
  obtain ⟨t, s', hn, ht, -, hs'⟩ := Parser.token_of_cons hs
  refine ⟨s', ?_, hs'⟩
  rw [Kind.parser, Parser.flag, bind_ok hn, ht]
  cases v <;> rfl

theorem integer?_ofInt (signed : Bool) {v : Int} (h : (IntType.mk signed 64).contains v = true) :
    ((Numeral.ofInt v).magnitude < sizeLimit) ∧ integer? signed (Numeral.ofInt v) = some v := by
  cases signed with
  | true => exact ⟨Numeral.magnitude_ofInt_lt h, Numeral.toInt?_ofInt h⟩
  | false =>
      rw [IntType.contains_unsigned_iff] at h
      obtain ⟨n, rfl⟩ := Int.eq_ofNat_of_zero_le h.1
      have hn : n < 2 ^ 64 := by omega
      refine ⟨?_, ?_⟩
      · rw [Numeral.ofInt_natCast]
        exact hn
      · simp [integer?, Numeral.toNat?_ofInt]

theorem enumValue_yields_number {e : EnumType} {v : Int} (b : Base) (grouping : Bool)
    (h : (IntType.mk e.host.signed 64).contains v = true) :
    (enumValue e).Yields [(Numeral.ofInt v).render b grouping] v := by
  intro s us hs
  obtain ⟨t, s', hn, ht, -, hs'⟩ := Parser.token_of_cons hs
  obtain ⟨hm, hv⟩ := integer?_ofInt e.host.signed h
  refine ⟨s', ?_, hs'⟩
  rw [enumValue, bind_ok hn, ht, if_pos (Numeral.isNumeric_render _ _ _),
    Numeral.parse?_render _ _ _ hm, Option.bind_some, hv]
  rfl

theorem enumValue_yields_name {e : EnumType} (he : e.Readable) {v : Int} {name : String}
    (h : e.nameOf? v = some name) : (enumValue e).Yields [name] v := by
  intro s us hs
  obtain ⟨t, s', hn, ht, -, hs'⟩ := Parser.token_of_cons hs
  refine ⟨s', ?_, hs'⟩
  have hnum : isNumeric name = false := he.name _ (EnumType.mem_of_nameOf? h)
  rw [enumValue, bind_ok hn, ht, hnum, EnumType.valueOf?_nameOf? he.nodup h]
  rfl

theorem legible_named {e : EnumType} (he : e.Readable) {v : Int}
    (h : (IntType.mk e.host.signed 64).contains v = true) : (named e).Legible v := by
  intro o
  cases hn : e.nameOf? v with
  | none =>
      refine ⟨o.plainNumber v, Numeral.isWord_render _ _ _, ?_, enumValue_yields_number _ _ h⟩
      simpa only [render, hn] using o.number_spells v
  | some name =>
      have hw : IsWord name := he.word _ (EnumType.mem_of_nameOf? hn)
      refine ⟨name, hw, ?_, enumValue_yields_name he hn⟩
      simp only [render, hn]
      split
      · rename_i hc
        obtain ⟨-, hm⟩ := Bool.and_eq_true_iff.1 hc
        rw [hm]
        exact hw.spells_comment (Numeral.isWord_render _ _ _).newline_notMem
      · exact hw.spells _

theorem legible_decode {k : Kind} {w : Nat} (hw : k.Admits w) (hk : k.Readable) (raw : Word) :
    k.Legible (k.decode w raw) := by
  cases k with
  | unsigned => exact legible_natural (raw.mask w).isLt
  | signed =>
      have hc := IntType.contains_signExtend raw hw.1 hw.2
      exact legible_signed (IntType.contains_mono hw.2 hc)
  | decimal =>
      have hle := Bcd.toNat_decode_le (raw.mask w) w
      rw [toNat_decode_decimal raw hw.2]
      exact legible_natural (Nat.lt_of_le_of_lt hle (raw.mask w).isLt)
  | flag => exact legible_flag _
  | float f => cases hk
  | named e =>
      have hc := IntType.contains_wrap e.host hk.bits_pos (numberOf e.host.signed w raw)
      exact legible_named hk (IntType.contains_mono hk.bits_le hc)

end Kind

end Packed
