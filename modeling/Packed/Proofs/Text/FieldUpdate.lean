import Packed.Proofs.Lockstep
import Packed.Proofs.Narrowing
import Packed.Proofs.Text.Literal

namespace Packed

open TextStream

def Action.attempt {ε : Type} (change : Memory → Except ε Memory) : Action ε Unit := fun m =>
  match change m with
  | .ok n => .ok () n
  | .error e => .error e m

namespace TextStream

variable {α : Type} {s : TextStream} {a : Token}

theorem token_bind_of_nil (h : s.tokens = []) (g : Token → Parser α) :
    ∃ t, (Parser.token >>= g) s = .error .endOfText t := by
  have hnone := (past_zero s).token_of_none (by rw [h]; rfl)
  change ∃ t, EStateM.bind Parser.token g s = _
  rw [EStateM.bind, hnone]
  exact ⟨_, rfl⟩

theorem token_bind_of_head? (h : s.tokens.head? = some a) (g : Token → Parser α) :
    ∃ t, (Parser.token >>= g) s = g a t := by
  rw [List.head?_eq_getElem?] at h
  obtain ⟨t, ht, -⟩ := (past_zero s).token_of_some h
  exact ⟨t, bind_ok ht g⟩

end TextStream

namespace Kind

open Numeral (Denotes)

structure Counts (k : Kind) (number : k.Value → Int) (wide : IntType) : Prop where
  hosted : k.Hosted
  exact : ∀ v, k.Exact v
  inWord : ∀ v, k.InWord v
  mistake_eq : ∀ text, k.mistake text = .invalidNumber
  value?_iff : ∀ text v, k.value? text = some v ↔
    Denotes text (number v) ∧ wide.contains (number v) = true
  surjective : ∀ i, wide.contains i = true → ∃ v, number v = i

theorem exists_natural {i : Int} (h : (IntType.mk false 64).contains i = true) :
    ∃ v : Nat, (v : Int) = i :=
  ⟨i.toNat, Int.toNat_of_nonneg ((IntType.contains_unsigned_iff 64 i).1 h).1⟩

theorem counts_unsigned : unsigned.Counts (fun v : Nat => (v : Int)) ⟨false, 64⟩ where
  hosted := nofun
  exact _ := trivial
  inWord _ := trivial
  mistake_eq _ := rfl
  value?_iff _ _ := Numeral.parse?_toNat?_iff
  surjective _ := exists_natural

theorem counts_decimal : decimal.Counts (fun v : Nat => (v : Int)) ⟨false, 64⟩ where
  hosted := nofun
  exact _ := trivial
  inWord _ := trivial
  mistake_eq _ := rfl
  value?_iff _ _ := Numeral.parse?_toNat?_iff
  surjective _ := exists_natural

theorem counts_signed : signed.Counts (fun v : Int => v) ⟨true, 64⟩ where
  hosted := nofun
  exact _ := trivial
  inWord _ := trivial
  mistake_eq _ := rfl
  value?_iff _ _ := Numeral.parse?_toInt?_iff
  surjective i _ := ⟨i, rfl⟩

end Kind

namespace Field

open Numeral (Denotes)

variable {k : Kind} {f : Field k} {text : String} {v : k.Value} {m n : Memory} {a : Token}
  {e : Error}

theorem readText_of_error {t : TextStream} (h : k.parser (ofString text) = .error e t) :
    f.view.readText text m = .error e m := by
  have hupdate : f.view.update ⟨ofString text, m⟩ = .error e ⟨t, m⟩ :=
    bind_error (Update.lift_of_error h)
  rw [View.readText, hupdate]

theorem readText_of_ok {t : TextStream} (h : k.parser (ofString text) = .ok v t) :
    f.view.readText text m = Action.attempt (f.tryWrite v) m := by
  have hupdate : f.view.update ⟨ofString text, m⟩ = Update.store (f.tryWrite v) ⟨t, m⟩ :=
    bind_ok (Update.lift_of_ok h) fun v => Update.store (f.tryWrite v)
  rw [View.readText, hupdate, Update.store, Action.attempt]
  cases f.tryWrite v m <;> rfl

theorem readText_eq (f : Field k) (text : String) (m : Memory) : f.view.readText text m =
    match (ofString text).tokens.head? with
    | none => .error .endOfText m
    | some a =>
        match k.value? a.text with
        | none => .error (k.mistake a.text a.position) m
        | some v => Action.attempt (f.tryWrite v) m := by
  have hp := k.parser_eq
  cases ha : (ofString text).tokens.head? with
  | none =>
      obtain ⟨t, ht⟩ := token_bind_of_nil (List.head?_eq_none_iff.1 ha) _
      rw [← hp] at ht
      exact readText_of_error ht
  | some a =>
      obtain ⟨t, ht⟩ := token_bind_of_head? ha _
      rw [← hp] at ht
      cases hv : k.value? a.text with
      | none =>
          rw [hv] at ht
          simp only [hv]
          exact readText_of_error ht
      | some v =>
          rw [hv] at ht
          simp only [hv]
          exact readText_of_ok ht

theorem readText_of_value? (ha : (ofString text).tokens.head? = some a)
    (hv : k.value? a.text = some v) :
    f.view.readText text m = Action.attempt (f.tryWrite v) m := by
  rw [readText_eq, ha]
  simp only [hv]

theorem attempt_eq_error_iff :
    Action.attempt (f.tryWrite v) m = .error e n ↔ f.tryWrite v m = .error e ∧ n = m := by
  rw [Action.attempt]
  cases f.tryWrite v m <;> simp [eq_comm]

theorem attempt_tryWriteNarrowed (hk : k.Hosted) (hv : k.InWord v) :
    Action.attempt (f.tryWrite v) m = Action.attempt (f.tryWriteNarrowed v) m := by
  rw [Action.attempt, Action.attempt, tryWriteNarrowed_eq hk hv]

theorem attempt_ne_error (hr : e ≠ .notRepresentable) (hc : e ≠ .incomplete) :
    Action.attempt (f.tryWrite v) m ≠ .error e n := by
  intro h
  obtain he | he := tryWrite_eq_error (attempt_eq_error_iff.1 h).1
  · exact hr he
  · exact hc he

theorem readText_eq_error (h : f.view.readText text m = .error e n) : n = m := by
  rw [readText_eq] at h
  split at h
  · cases h
    rfl
  · split at h
    · cases h
      rfl
    · exact (attempt_eq_error_iff.1 h).2

theorem readText_eq_endOfText_iff :
    f.view.readText text m = .error .endOfText m ↔ (ofString text).tokens = [] := by
  rw [readText_eq, ← List.head?_eq_none_iff]
  constructor
  · intro h
    split at h
    · assumption
    · rename_i a _
      split at h
      · obtain hm | hm := k.mistake_eq a.text <;> simp [hm] at h
      · exact absurd h (attempt_ne_error nofun nofun)
  · intro h
    rw [h]

theorem readText_eq_mistake_iff (ha : (ofString text).tokens.head? = some a) :
    f.view.readText text m = .error (k.mistake a.text a.position) m ↔ k.value? a.text = none := by
  rw [readText_eq, ha]
  dsimp only
  constructor
  · intro h
    split at h
    · assumption
    · obtain hm | hm := k.mistake_eq a.text
      · rw [hm] at h
        exact absurd h (attempt_ne_error nofun nofun)
      · rw [hm] at h
        exact absurd h (attempt_ne_error nofun nofun)
  · intro h
    rw [h]

/-- What comes of storing `v` in the field, whose width has a place for it exactly when it
`fits`. -/
structure Stores (f : Field k) (v : k.Value) (fits : Prop) (m : Memory)
    (result : EStateM.Result Error Memory Unit) : Prop where
  refused : result = .error .notRepresentable m ↔ ¬(fits ∧ f.check v = true)
  incomplete : result = .error .incomplete m ↔ (fits ∧ f.check v = true) ∧ f.isComplete = false
  stored : fits → f.check v = true → f.isComplete = true →
    ∃ n, result = .ok () n ∧ f.Written v m n

theorem stores_attempt (hk : k.Hosted) (hv : k.Exact v) (hs : f.storage.Sound)
    (hm : f.storage.base.buffer.LiesIn m) :
    f.Stores v (k.Representable f.width v) m (Action.attempt (f.tryWrite v) m) where
  refused := by
    rw [attempt_eq_error_iff, tryWrite_eq_notRepresentable_iff, ← couldWrite_iff]
    simp
  incomplete := by
    rw [attempt_eq_error_iff, tryWrite_eq_incomplete_iff, couldWrite_iff]
    simp
  stored hfits hcheck hc := by
    have hw := couldWrite_iff.2 ⟨hfits, hcheck⟩
    obtain ⟨r, hr⟩ := BitStorage.spans_of_ok (storage_ok hc) hs hm
    have ht : f.tryWrite v m = .ok (f.uncheckedWrite v m) := tryWrite_eq_ok_iff.2 ⟨hw, hc, rfl⟩
    refine ⟨f.uncheckedWrite v m, ?_, written_uncheckedWrite hk hv hr hc hw⟩
    rw [Action.attempt, ht]

theorem Stores.congr {p q : Prop} {r : EStateM.Result Error Memory Unit} (h : f.Stores v p m r)
    (hpq : p ↔ q) : f.Stores v q m r :=
  propext hpq ▸ h

/-- How a field of numbers takes a text. The number of the first token is looked for among those of
the type `wide`, and the field has a place for it from `low` up to `high`. -/
structure TakesNumber (f : Field k) (number : k.Value → Int) (wide : IntType) (low high : Int)
    (text : String) (m : Memory) : Prop where
  absent : f.view.readText text m = .error .endOfText m ↔ (ofString text).tokens = []
  invalid : ∀ a, (ofString text).tokens.head? = some a →
    (f.view.readText text m = .error (.invalidNumber a.position) m ↔
      ¬∃ i, Denotes a.text i ∧ wide.contains i = true)
  stored : ∀ a i, (ofString text).tokens.head? = some a → Denotes a.text i →
    wide.contains i = true →
      ∃ v, number v = i ∧ f.Stores v (low ≤ i ∧ i < high) m (f.view.readText text m)
  /-- The way through the number type of the field changes nothing in that. -/
  narrowed : ∀ a v, (ofString text).tokens.head? = some a → Denotes a.text (number v) →
    wide.contains (number v) = true →
      f.view.readText text m = Action.attempt (f.tryWriteNarrowed v) m
  atomic : ∀ e n, f.view.readText text m = .error e n → n = m

theorem takesNumber {number : k.Value → Int} {wide : IntType} {low high : Int}
    (hk : k.Counts number wide) (hs : f.storage.Sound)
    (hm : f.storage.base.buffer.LiesIn m)
    (hplace : ∀ v, k.Representable f.width v ↔ low ≤ number v ∧ number v < high) :
    f.TakesNumber number wide low high text m where
  absent := readText_eq_endOfText_iff
  invalid a ha := by
    rw [← hk.mistake_eq, readText_eq_mistake_iff ha, Option.eq_none_iff_forall_ne_some, not_exists]
    constructor
    · rintro h i ⟨hd, hi⟩
      obtain ⟨v, rfl⟩ := hk.surjective i hi
      exact h v ((hk.value?_iff _ v).2 ⟨hd, hi⟩)
    · intro h v hv
      exact h _ ((hk.value?_iff _ v).1 hv)
  stored a i ha hd hi := by
    obtain ⟨v, rfl⟩ := hk.surjective i hi
    have hv := (hk.value?_iff _ v).2 ⟨hd, hi⟩
    rw [readText_of_value? ha hv]
    exact ⟨v, rfl, (stores_attempt hk.hosted (hk.exact v) hs hm).congr (hplace v)⟩
  narrowed a v ha hd hi := by
    rw [readText_of_value? ha ((hk.value?_iff _ v).2 ⟨hd, hi⟩)]
    exact attempt_tryWriteNarrowed hk.hosted (hk.inWord v)
  atomic _ _ h := readText_eq_error h

/-- Taking a number from text is exact and changes nothing when it fails. A field without a sign, a
field with a sign and a field of decimal digits differ in the numbers that are looked for and in
those that the width has a place for. -/
theorem number_from_text (text : String) (m : Memory) :
    (∀ f : Field .unsigned, f.storage.Sound → f.storage.base.buffer.LiesIn m →
      f.TakesNumber (fun v : Nat => v) ⟨false, 64⟩ 0 (2 ^ f.width) text m) ∧
      (∀ f : Field .signed, f.storage.Sound → f.storage.base.buffer.LiesIn m →
        f.TakesNumber (fun v : Int => v) ⟨true, 64⟩ (-2 ^ (f.width - 1)) (2 ^ (f.width - 1))
          text m) ∧
      ∀ f : Field .decimal, f.storage.Sound → f.storage.base.buffer.LiesIn m →
        f.TakesNumber (fun v : Nat => v) ⟨false, 64⟩ 0 (2 ^ (f.width % 4) * 10 ^ (f.width / 4))
          text m := by
  refine ⟨fun f hs hm => ?_, fun f hs hm => ?_, fun f hs hm => ?_⟩
  · refine takesNumber Kind.counts_unsigned hs hm fun v => ?_
    rw [Kind.Representable]
    exact_mod_cast (and_iff_right (Nat.zero_le v)).symm
  · refine takesNumber Kind.counts_signed hs hm fun v => ?_
    rw [Kind.Representable]
    push_cast
    rfl
  · refine takesNumber Kind.counts_decimal hs hm fun v => ?_
    rw [Kind.Representable, ← Bcd.isSome_encode?_iff f.admits.2,
      Bcd.isSome_encode?_iff_lt f.admits.2]
    exact_mod_cast (and_iff_right (Nat.zero_le v)).symm

/-- Five bits with a sign, in a window in the middle of memory, take a number from between a blank
and a comment, do not take one that is too large, and do not see one that no word holds. -/
theorem number_from_text_in_five_bits :
    let w : Window := (Window.ofBlock ⟨.bigPair, .ofRegion ⟨1, 2⟩⟩ 2 13).part 3 7
    let f : Field .signed := ⟨5, by decide, fun v => v != (3 : Int), .window w⟩
    let m : Memory := [0xff, 0xff, 0xff, 0xff]
    (∃ n, f.view.readText " -0x_9 # low" m = .ok () n ∧ f.read n = .ok (-9 : Int)) ∧
      f.view.readText "1_6" m = .error .notRepresentable m ∧
      f.view.readText "9223372036854775808" m = .error (.invalidNumber 0) m := by
  intro w f m
  have hs : f.storage.Sound := BitStorage.sound_of_cutFrom (.part (.ofBlock 2 13) 3 7)
  have hm : f.storage.base.buffer.LiesIn m := by
    rintro r ⟨⟩
    decide
  have takes := fun text => (number_from_text text m).2.1 f hs hm
  have hlow : Denotes "-0x_9" (-9) ∧ (IntType.mk true 64).contains (-9) = true :=
    Numeral.parse?_toInt?_iff.1 (by decide)
  have hhigh : Denotes "1_6" 16 ∧ (IntType.mk true 64).contains 16 = true :=
    Numeral.parse?_toInt?_iff.1 (by decide)
  have hnone : (Numeral.parse? "9223372036854775808").bind Numeral.toInt? = none := by decide
  obtain ⟨_, rfl, hlow⟩ := (takes _).stored ⟨"-0x_9", ⟨"-0x_9 # low".toList, 1⟩⟩ _
    (by decide +kernel : (ofString " -0x_9 # low").tokens.head? = _) hlow.1 hlow.2
  obtain ⟨_, rfl, hhigh⟩ := (takes _).stored ⟨"1_6", ofString "1_6"⟩ _
    (by decide +kernel : (ofString "1_6").tokens.head? = _) hhigh.1 hhigh.2
  have hinvalid := (takes _).invalid ⟨"9223372036854775808", ofString "9223372036854775808"⟩
    (by decide +kernel : (ofString "9223372036854775808").tokens.head? = _)
  obtain ⟨n, hn, hw⟩ := hlow.stored (by decide) (by decide) (by decide)
  refine ⟨⟨n, hn, hw.read⟩, hhigh.refused.2 (by decide), hinvalid.2 ?_⟩
  rintro ⟨i, hi⟩
  rw [Numeral.parse?_toInt?_iff.2 hi] at hnone
  cases hnone

end Field

end Packed
