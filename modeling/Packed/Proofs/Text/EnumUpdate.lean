import Packed.Proofs.EnumNames
import Packed.Proofs.Text.FieldUpdate

namespace Packed

open TextStream
open Numeral (Denotes)

namespace Kind

variable {text : String} {e : EnumType}

def LikeNumber (text : String) : Prop := ∃ c ∈ text.toList.head?, c.isDigit = true ∨ c = '-'

theorem isNumeric_iff : isNumeric text = true ↔ LikeNumber text := by
  rw [isNumeric, LikeNumber]
  cases text.toList with
  | nil => simp
  | cons c cs =>
      have hdigit : FloatFormat.isDigit c = c.isDigit := rfl
      simp [hdigit]

theorem parse?_integer?_iff (signed : Bool) {v : Int} :
    (Numeral.parse? text).bind (integer? signed) = some v ↔
      Denotes text v ∧ (IntType.mk signed 64).contains v = true := by
  cases signed with
  | true => exact Numeral.parse?_toInt?_iff
  | false =>
      have hmap : (Numeral.parse? text).bind (integer? false) =
          ((Numeral.parse? text).bind Numeral.toNat?).map Int.ofNat := by
        cases Numeral.parse? text <;> rfl
      rw [hmap, Option.map_eq_some_iff]
      constructor
      · rintro ⟨n, hn, rfl⟩
        exact Numeral.parse?_toNat?_iff.1 hn
      · intro h
        obtain ⟨n, rfl⟩ := exists_natural h.2
        exact ⟨n, Numeral.parse?_toNat?_iff.2 h, rfl⟩

theorem value?_number_iff (h : LikeNumber text) {i : Int} : (named e).value? text = some i ↔
    Denotes text i ∧ (IntType.mk e.host.signed 64).contains i = true := by
  rw [← parse?_integer?_iff, value?, if_pos (isNumeric_iff.2 h)]

theorem value?_name (h : ¬LikeNumber text) : (named e).value? text = e.valueOf? text :=
  if_neg (mt isNumeric_iff.1 h)

theorem mistake_number (h : LikeNumber text) : (named e).mistake text = .invalidNumber :=
  if_pos (isNumeric_iff.2 h)

theorem mistake_name (h : ¬LikeNumber text) : (named e).mistake text = .unknownName :=
  if_neg (mt isNumeric_iff.1 h)

end Kind

namespace Field

variable {e : EnumType} {f : Field (.named e)} {text : String} {m : Memory} {a : Token}

structure TakesNamed (f : Field (.named e)) (a : Token) (m : Memory)
    (result : EStateM.Result Error Memory Unit) : Prop where
  invalid : Kind.LikeNumber a.text →
    (result = .error (.invalidNumber a.position) m ↔
      ¬∃ i, Denotes a.text i ∧ (IntType.mk e.host.signed 64).contains i = true)
  number : Kind.LikeNumber a.text → ∀ i, Denotes a.text i →
    (IntType.mk e.host.signed 64).contains i = true →
      f.Stores i (e.host.contains i = true ∧ (IntType.mk e.host.signed f.width).contains i = true)
        m result
  /-- The way through the number type of the enumeration changes nothing in that. -/
  narrowed : Kind.LikeNumber a.text → ∀ i, Denotes a.text i →
    (IntType.mk e.host.signed 64).contains i = true →
      result = Action.attempt (f.tryWriteNarrowed i) m
  unknown : ¬Kind.LikeNumber a.text →
    (result = .error (.unknownName a.position) m ↔ ∀ p ∈ e.entries, p.1 ≠ a.text)
  /-- Of the entries of a name the first one counts. -/
  name : ¬Kind.LikeNumber a.text → ∀ before p after, e.entries = before ++ p :: after →
    p.1 = a.text → (∀ q ∈ before, q.1 ≠ a.text) →
      f.Stores p.2
        (e.host.contains p.2 = true ∧ (IntType.mk e.host.signed f.width).contains p.2 = true)
        m result
  atomic : ∀ err n, result = .error err n → n = m

/-- Taking an enumeration from text is exact and changes nothing when it fails. No number becomes
another one on the way from the literal through the type of the enumeration to the bits. -/
theorem enum_from_text (he : 0 < e.host.bits) (hs : f.storage.Sound)
    (hm : f.storage.base.buffer.LiesIn m) (ha : (ofString text).tokens.head? = some a) :
    f.TakesNamed a m (f.view.readText text m) := by
  have hmistake := readText_eq_mistake_iff (f := f) (m := m) ha
  have hstores : ∀ i, (Kind.named e).value? a.text = some i →
      f.Stores i ((Kind.named e).Representable f.width i) m (f.view.readText text m) := by
    intro i hi
    rw [readText_of_value? ha hi]
    exact stores_attempt (Kind.hosted_named he) trivial hs hm
  refine ⟨fun hl => ?_, fun hl i hd hi => ?_, fun hl i hd hi => ?_, fun hl => ?_,
    fun hl before p after hentries hp hb => ?_, fun _ _ h => readText_eq_error h⟩
  · rw [← Kind.mistake_number (e := e) hl, hmistake, Option.eq_none_iff_forall_ne_some, not_exists]
    exact forall_congr' fun i => not_congr (Kind.value?_number_iff hl)
  · exact hstores i ((Kind.value?_number_iff hl).2 ⟨hd, hi⟩)
  · rw [readText_of_value? ha ((Kind.value?_number_iff hl).2 ⟨hd, hi⟩)]
    exact attempt_tryWriteNarrowed (Kind.hosted_named he) hi
  · rw [← Kind.mistake_name (e := e) hl, hmistake, Kind.value?_name hl]
    exact EnumType.valueOf?_eq_none_iff
  · refine hstores p.2 ?_
    rw [Kind.value?_name hl]
    exact EnumType.valueOf?_of_append hentries hp hb

/-- Five bits of an enumeration of signed bytes. The first of two entries of a name counts, a
literal that a byte would hold only after wrapping is refused, and so is a name that is not there. -/
theorem enum_from_text_in_five_bits :
    let e : EnumType := .declare "Delta" ⟨true, 8⟩ .first [("DOWN", some (-1)), ("DOWN", some 2)]
    let w : Window := (Window.ofBlock ⟨.bigPair, .ofRegion ⟨1, 2⟩⟩ 2 13).part 3 7
    let f : Field (.named e) := ⟨5, by decide, fun _ => true, .window w⟩
    let m : Memory := [0xff, 0x00, 0x00, 0xff]
    (∃ n, f.view.readText " DOWN # first" m = .ok () n ∧ f.read n = .ok (-1 : Int)) ∧
      f.view.readText "0x101" m = .error .notRepresentable m ∧
      f.view.readText "UP" m = .error (.unknownName 0) m := by
  intro e w f m
  have hs : f.storage.Sound := BitStorage.sound_of_cutFrom (.part (.ofBlock 2 13) 3 7)
  have hm : f.storage.base.buffer.LiesIn m := by
    rintro r ⟨⟩
    decide
  have hname := enum_from_text (by decide) hs hm
    (by decide +kernel : (ofString " DOWN # first").tokens.head? =
      some ⟨"DOWN", ⟨"DOWN # first".toList, 1⟩⟩)
  have hwide := enum_from_text (by decide) hs hm
    (by decide +kernel : (ofString "0x101").tokens.head? = some ⟨"0x101", ofString "0x101"⟩)
  have hunknown := enum_from_text (by decide) hs hm
    (by decide +kernel : (ofString "UP").tokens.head? = some ⟨"UP", ofString "UP"⟩)
  obtain ⟨n, hn, hw⟩ := (hname.name (mt Kind.isNumeric_iff.2 (by decide)) [] ("DOWN", -1)
    [("DOWN", 2)] rfl rfl (by decide)).stored (by decide) rfl (by decide)
  obtain ⟨hd, hi⟩ : Denotes "0x101" 257 ∧ (IntType.mk true 64).contains 257 = true :=
    (Kind.parse?_integer?_iff true).1 (by decide)
  exact ⟨⟨n, hn, hw.read⟩,
    (hwide.number (Kind.isNumeric_iff.1 (by decide)) _ hd hi).refused.2 (by decide),
    (hunknown.unknown (mt Kind.isNumeric_iff.2 (by decide))).2 (by decide)⟩

end Field

end Packed
