import Packed.Proofs.ByteCopy
import Packed.Proofs.Tiling
import Packed.Proofs.Text.Entries

namespace Packed

open TextStream

inductive Label : List Token → Nat → List Token → Prop
  | intro {b c d : Token} {ts : List Token} {n : Nat} :
      (Numeral.parse? b.text).bind Numeral.toNat? = some n → c.text = "]" → d.text = ":" →
      Label (b :: c :: d :: ts) n ts

inductive LabelFault : List Token → Error → Prop
  | ended : LabelFault [] .endOfText
  | number {b : Token} {ts : List Token} : (Numeral.parse? b.text).bind Numeral.toNat? = none →
      LabelFault (b :: ts) (.invalidNumber b.position)
  | bracket {b : Token} {ts : List Token} {n : Nat} {e : Error} :
      (Numeral.parse? b.text).bind Numeral.toNat? = some n → Lacks "]" ts e →
      LabelFault (b :: ts) e
  | colon {b c : Token} {ts : List Token} {n : Nat} {e : Error} :
      (Numeral.parse? b.text).bind Numeral.toNat? = some n → c.text = "]" → Lacks ":" ts e →
      LabelFault (b :: c :: ts) e

/-- How an entry of an array begins, where `next` is the index after the entry before it. -/
inductive IndexHead (next : Nat) : List Token → Nat → List Token → Prop
  | unlabelled {a : Token} {ts : List Token} : a.text ≠ "\x7d" → a.text ≠ "[" →
      IndexHead next (a :: ts) next (a :: ts)
  | labelled {a : Token} {ts us : List Token} {n : Nat} : a.text = "[" → Label ts n us →
      IndexHead next (a :: ts) n us

inductive IndexFault : List Token → Error → Prop
  | ended : IndexFault [] .endOfText
  | label {a : Token} {ts : List Token} {e : Error} : a.text = "[" → LabelFault ts e →
      IndexFault (a :: ts) e

def EntryForm.indexed (count : Nat) : EntryForm (Fin count) Nat Nat where
  Head := IndexHead
  Fault _ := IndexFault
  field? n := if h : n < count then some ⟨n, h⟩ else none
  missing n := .indexOutOfRange n count
  next n := n + 1

theorem label_cases (ts : List Token) : (∃ n us, Label ts n us) ∨ ∃ e, LabelFault ts e := by
  cases ts with
  | nil => exact .inr ⟨_, .ended⟩
  | cons b ts =>
      cases hb : (Numeral.parse? b.text).bind Numeral.toNat? with
      | none => exact .inr ⟨_, .number hb⟩
      | some n =>
          cases ts with
          | nil => exact .inr ⟨_, .bracket hb .ended⟩
          | cons c ts =>
              by_cases hc : c.text = "]"
              · cases ts with
                | nil => exact .inr ⟨_, .colon hb hc .ended⟩
                | cons d ts =>
                    by_cases hd : d.text = ":"
                    · exact .inl ⟨n, ts, .intro hb hc hd⟩
                    · exact .inr ⟨_, .colon hb hc (.other hd)⟩
              · exact .inr ⟨_, .bracket hb (.other hc)⟩

theorem index_cases (next : Nat) (ts : List Token) :
    (∃ a us, ts = a :: us ∧ a.text = "\x7d") ∨ (∃ n us, IndexHead next ts n us) ∨
      ∃ e, IndexFault ts e := by
  cases ts with
  | nil => exact .inr (.inr ⟨_, .ended⟩)
  | cons a ts =>
      by_cases hclose : a.text = "\x7d"
      · exact .inl ⟨a, ts, rfl, hclose⟩
      · by_cases hopen : a.text = "["
        · rcases label_cases ts with ⟨n, us, hl⟩ | ⟨e, hf⟩
          · exact .inr (.inl ⟨n, us, .labelled hopen hl⟩)
          · exact .inr (.inr ⟨e, .label hopen hf⟩)
        · exact .inr (.inl ⟨next, _, .unlabelled hclose hopen⟩)

theorem IndexHead.length_le {next n : Nat} {ts us : List Token} (h : IndexHead next ts n us) :
    us.length ≤ ts.length := by
  cases h with
  | unlabelled => exact Nat.le_refl _
  | labelled _ hl =>
      cases hl with
      | intro =>
          simp only [List.length_cons]
          omega

namespace View

variable {s : TextStream} {m : Memory} {ts us : List Token} {n next : Nat} {e : Error}
  {a : Token}

theorem unsigned_of_cons (h : s.tokens = a :: ts)
    (ha : (Numeral.parse? a.text).bind Numeral.toNat? = some n) :
    ∃ t, Parser.unsigned s = .ok n t ∧ t.tokens = ts := by
  obtain ⟨t, ht, hts, -⟩ := token_of_cons h
  refine ⟨t, ?_, hts⟩
  rw [Parser.unsigned, Parser.numeral, bind_ok ht]
  simp only [ha]
  rfl

theorem readLabel_of_label (h : Label s.tokens n us) :
    ∃ t, readLabel s = .ok n t ∧ t.tokens = us := by
  generalize hts : s.tokens = ts at h
  cases h with
  | intro hb hc hd =>
      obtain ⟨s₁, h₁, hs₁⟩ := unsigned_of_cons hts hb
      obtain ⟨s₂, h₂, hs₂⟩ := expect_of_cons hs₁ hc
      obtain ⟨s₃, h₃, hs₃⟩ := expect_of_cons hs₂ hd
      exact ⟨s₃, by rw [readLabel, bind_ok h₁, bind_ok h₂, bind_ok h₃]; rfl, hs₃⟩

theorem readLabel_of_fault (h : LabelFault s.tokens e) : ∃ t, readLabel s = .error e t := by
  generalize hts : s.tokens = ts at h
  cases h with
  | ended =>
      obtain ⟨t, ht⟩ := token_of_nil hts
      exact ⟨t, bind_error (bind_error ht)⟩
  | @number b ts hb =>
      obtain ⟨t, ht, -⟩ := token_of_cons hts
      have hnumber : Parser.unsigned s = .error (.invalidNumber b.position) t := by
        rw [Parser.unsigned, Parser.numeral, bind_ok ht]
        simp only [hb]
        rfl
      exact ⟨t, bind_error hnumber⟩
  | bracket hb hl =>
      obtain ⟨s₁, h₁, rfl⟩ := unsigned_of_cons hts hb
      obtain ⟨t, ht⟩ := expect_of_lacks hl
      exact ⟨t, by rw [readLabel, bind_ok h₁, bind_error ht]⟩
  | colon hb hc hl =>
      obtain ⟨s₁, h₁, hs₁⟩ := unsigned_of_cons hts hb
      obtain ⟨s₂, h₂, rfl⟩ := expect_of_cons hs₁ hc
      obtain ⟨t, ht⟩ := expect_of_lacks hl
      exact ⟨t, by rw [readLabel, bind_ok h₁, bind_ok h₂, bind_error ht]⟩

theorem readValues_of_head (values : List View) (fuel : Nat) (h : IndexHead next s.tokens n us) :
    ∃ t, t.tokens = us ∧
      readValues values (fuel + 1) next ⟨s, m⟩ = valueAt values fuel n ⟨t, m⟩ := by
  generalize hts : s.tokens = ts at h
  cases h with
  | @unlabelled a ts hclose hopen =>
      obtain ⟨t, ht, -, hstart⟩ := token_of_cons hts
      refine ⟨a.start, hstart, ?_⟩
      have hunread : Parser.unread a t = .ok () a.start := rfl
      rw [readValues_succ, bind_ok (Update.lift_of_ok ht), if_neg hclose, if_neg hopen,
        bind_ok (Update.lift_of_ok hunread)]
  | @labelled a ts us n hopen hl =>
      obtain ⟨t, ht, rfl, -⟩ := token_of_cons hts
      obtain ⟨u, hu, hus⟩ := readLabel_of_label hl
      refine ⟨u, hus, ?_⟩
      have hclose : a.text ≠ "\x7d" := by rw [hopen]; decide
      rw [readValues_succ, bind_ok (Update.lift_of_ok ht), if_neg hclose, if_pos hopen,
        bind_ok (Update.lift_of_ok hu)]

theorem readValues_of_fault (values : List View) (fuel next : Nat) (h : IndexFault s.tokens e) :
    ∃ t, readValues values (fuel + 1) next ⟨s, m⟩ = .error e ⟨t, m⟩ := by
  generalize hts : s.tokens = ts at h
  rw [readValues_succ]
  cases h with
  | ended =>
      obtain ⟨t, ht⟩ := token_of_nil hts
      exact ⟨t, bind_error (Update.lift_of_error ht)⟩
  | @label a ts e hopen hf =>
      obtain ⟨t, ht, rfl, -⟩ := token_of_cons hts
      obtain ⟨u, hu⟩ := readLabel_of_fault hf
      refine ⟨u, ?_⟩
      have hclose : a.text ≠ "\x7d" := by rw [hopen]; decide
      rw [bind_ok (Update.lift_of_ok ht), if_neg hclose, if_pos hopen,
        bind_error (Update.lift_of_error hu)]

theorem readValues_of_close (values : List View) (fuel next : Nat) (h : s.tokens = a :: ts)
    (ha : a.text = "\x7d") : ∃ t, readValues values (fuel + 1) next ⟨s, m⟩ = .ok () ⟨t, m⟩ := by
  obtain ⟨t, ht, -⟩ := token_of_cons h
  exact ⟨t, by rw [readValues_succ, bind_ok (Update.lift_of_ok ht), if_pos ha]; rfl⟩

theorem runs_readValues {k : Kind} {count : Nat} (F : Fin count → Field k) (values : List View)
    (hlength : values.length = count)
    (hget : ∀ n (h : n < count), values[n]? = some (F ⟨n, h⟩).view) :
    (EntryForm.indexed count).Runs F (readValues values) where
  cases := index_cases
  length_le := IndexHead.length_le
  close fuel c s m {a us} h ha := readValues_of_close values fuel c h ha
  enter fuel c s m {n us i} hhead hi := by
    obtain ⟨t, ht, hread⟩ := readValues_of_head (m := m) values fuel hhead
    refine ⟨t, ht, ?_⟩
    by_cases h : n < count
    · obtain rfl : ⟨n, h⟩ = i := by simpa [EntryForm.indexed, h] using hi
      rw [hread, valueAt, hget n h]
      rfl
    · simp [EntryForm.indexed, h] at hi
  missing fuel c s m {n us} hhead hi := by
    obtain ⟨t, ht, hread⟩ := readValues_of_head (m := m) values fuel hhead
    have h : count ≤ n := by simpa [EntryForm.indexed] using hi
    refine ⟨t, ?_⟩
    rw [hread, valueAt, List.getElem?_eq_none (hlength.trans_le h), hlength]
    rfl
  fault fuel c s m {e} hf := readValues_of_fault values fuel c hf

end View

namespace ArrayView

section

variable {S : Type} [Tiled S] {a : ArrayView S} {t : ScalarType S} {m : Memory}

def elements (a : ArrayView S) (t : ScalarType S) (i : Fin a.count) : Field t.kind :=
  t.field (a.slot i)

theorem applies_of_separate (he : a.element = .scalar t) (hs : Separate (a.elements t) m)
    (text : String) : (EntryForm.indexed a.count).Applies (a.elements t) 0 text m
      (a.view.readText text m) := by
  have hvalues := views_of_scalar he
  have hruns := View.runs_readValues (a.elements t)
    ((tiles a.storage a.stride).map a.element.view)
    (by rw [hvalues, List.length_map, List.length_range])
    (fun n h => by rw [hvalues]; simp [h, elements])
  exact hruns.applies rfl hs text

theorem separate_bytes {a : ArrayView Buffer} {t : ScalarType Buffer} {format : BlockFormat}
    (hk : t.kind.Hosted) (ht : t.bits = fun b => .block ⟨format, b⟩) (ha : a.storage.LiesIn m)
    (hm : m.length < sizeLimit) : Separate (a.elements t) m := by
  have hstorage : ∀ i, (a.elements t i).storage = .block ⟨format, a.slot i⟩ := by
    intro i
    simp only [elements, ScalarType.field, ht]
  have hblock : ∀ i : Fin a.count, (a.elements t i).isComplete = true →
      (Block.mk format (a.slot i)).ok = true := by
    intro i hc
    have hok := Field.storage_ok hc
    rwa [hstorage] at hok
  refine ⟨fun _ => hk, fun i hc => ?_, fun i j hij hci hcj => ?_⟩
  · rw [hstorage]
    exact BitStorage.spans_of_ok (hblock i hc) trivial (ha.part _ _)
  · obtain ⟨r, hr⟩ := Block.spans_of_ok (hblock i hci) (ha.part _ _)
    obtain ⟨q, hq⟩ := Block.spans_of_ok (hblock j hcj) (ha.part _ _)
    obtain ⟨whole, hwhole⟩ := Buffer.exists_region i.isLt
    have hlies := ha whole hwhole
    have hri := Buffer.tile_region hwhole (by omega) i.isLt
    have hqj := Buffer.tile_region hwhole (by omega) j.isLt
    obtain rfl := Option.some.inj (hri.symm.trans hr.region)
    obtain rfl := Option.some.inj (hqj.symm.trans hq.region)
    rw [hstorage, hstorage, BitStorage.disjoint_block_iff hr hq]
    have hd := tiles_disjoint a.stride (Fin.val_ne_of_ne hij)
    dsimp only
    omega

theorem separate_bits {a : ArrayView BitStorage} {t : ScalarType BitStorage}
    (hk : t.kind.Hosted) (ht : t.bits = id) (hs : a.storage.Sound)
    (ha : a.storage.base.buffer.LiesIn m) : Separate (a.elements t) m := by
  have hstorage : ∀ i, (a.elements t i).storage = a.slot i := by
    intro i
    simp only [elements, ScalarType.field, ht, id]
  have hspans : ∀ i, (a.elements t i).isComplete = true →
      ∃ r, (a.slot i).Spans r m ∧ a.storage.Spans r m := by
    intro i hc
    have hok := Field.storage_ok hc
    rw [hstorage] at hok
    have hbase : (a.slot i).base = a.storage.base := BitStorage.base_tile _ _ _
    obtain ⟨r, hr⟩ := BitStorage.spans_of_ok hok (BitStorage.sound_part _ _ _) (hbase ▸ ha)
    exact ⟨r, hr, hbase ▸ hr.base, BitStorage.within_of_tile hs hok⟩
  refine ⟨fun _ => hk, fun i hc => ?_, fun i j hij hci _ => ?_⟩
  · obtain ⟨r, hr, -⟩ := hspans i hc
    exact ⟨r, by rwa [hstorage]⟩
  · obtain ⟨r, -, hr⟩ := hspans i hci
    rw [hstorage, hstorage]
    exact BitStorage.disjoint_tiles hr i.isLt j.isLt (Fin.val_ne_of_ne hij)

theorem isComplete_bytes {a : ArrayView Buffer} {t : ScalarType Buffer} {format : BlockFormat}
    (ht : t.bits = fun b => .block ⟨format, b⟩) (ha : a.storage.LiesIn m)
    (hm : m.length < sizeLimit) (hw : t.width = format.bits) (hz : a.stride * 8 = format.bits)
    (i : Fin a.count) : (a.elements t i).isComplete = true := by
  obtain ⟨whole, hwhole⟩ := Buffer.exists_region i.isLt
  have hok : a.storage.ok = true := Option.isSome_of_eq_some hwhole
  have hl : a.size < sizeLimit := Nat.lt_of_le_of_lt (Buffer.size_le_length ha) hm
  exact (isComplete_slot_bytes ht hw hz hok hl i).2 i.isLt

theorem isComplete_bits {a : ArrayView BitStorage} {t : ScalarType BitStorage} (ht : t.bits = id)
    (hs : a.storage.Sound) (ha : a.storage.base.buffer.LiesIn m) (hok : a.storage.ok = true)
    (hw : t.width = a.stride) (i : Fin a.count) : (a.elements t i).isComplete = true := by
  obtain ⟨r, hr⟩ := BitStorage.spans_of_ok hok hs ha
  exact (isComplete_slot_bits ht hw hok hr.within i).2 i.isLt

/-- Text is applied to an array entry by entry, over bytes and over bits, and elements that fill
their part of storage that is there are complete. -/
theorem text_applied_by_index {m : Memory} (hm : m.length < sizeLimit) (text : String) :
    (∀ (a : ArrayView Buffer) (t : ScalarType Buffer) (format : BlockFormat),
      a.element = .scalar t → t.kind.Hosted → (t.bits = fun b => .block ⟨format, b⟩) →
      a.storage.LiesIn m →
      (EntryForm.indexed a.count).Applies (a.elements t) 0 text m (a.view.readText text m) ∧
      (t.width = format.bits → a.stride * 8 = format.bits →
        ∀ i, (a.elements t i).isComplete = true)) ∧
    (∀ (a : ArrayView BitStorage) (t : ScalarType BitStorage),
      a.element = .scalar t → t.kind.Hosted → t.bits = id → a.storage.Sound →
      a.storage.base.buffer.LiesIn m →
      (EntryForm.indexed a.count).Applies (a.elements t) 0 text m (a.view.readText text m) ∧
      (t.width = a.stride → a.storage.ok = true →
        ∀ i, (a.elements t i).isComplete = true)) := by
  refine ⟨fun a t format he hk ht ha => ⟨?_, fun hw hz => ?_⟩,
    fun a t he hk ht hs ha => ⟨?_, fun hw hok => ?_⟩⟩
  · exact applies_of_separate he (separate_bytes hk ht ha hm) text
  · exact isComplete_bytes ht ha hm hw hz
  · exact applies_of_separate he (separate_bits hk ht hs ha) text
  · exact isComplete_bits ht hs ha hok hw

end

/-- Bytes written up to an index past the end, and pairs of bits written from the middle on. -/
theorem text_applied_by_index_to_three_elements :
    let m : Memory := [1, 1, 1]
    let t : ScalarType Buffer :=
      ⟨.unsigned, 8, ⟨by decide, by decide⟩, fun v => v != (7 : Nat), fun b => .block ⟨.byte, b⟩⟩
    let a : ArrayView Buffer := ⟨.scalar t, 1, Nat.one_pos, .ofRegion ⟨0, 3⟩⟩
    let u : ScalarType BitStorage :=
      ⟨.signed, 2, ⟨by decide, by decide⟩, fun v => v != (0 : Int), id⟩
    let b : ArrayView BitStorage :=
      ⟨.scalar u, 2, Nat.two_pos, .window (.ofBlock ⟨.byte, .ofRegion ⟨1, 1⟩⟩ 0 6)⟩
    (a.view.readText "\x7b[2]:5,[0]:6 8 9 ?\x7d" m = .error (.indexOutOfRange 3 3) [6, 8, 9] ∧
      (∃ log, Stored (a.elements t) log m [6, 8, 9]) ∧ ∀ i, (a.elements t i).isComplete = true) ∧
    b.view.readText "\x7b[1]:-1 1 # last\n\x7d" m = .ok () [1, 0x1d, 1] ∧
      (∃ log, Stored (b.elements u) log m [1, 0x1d, 1]) ∧
        ∀ i, (b.elements u i).isComplete = true := by
  intro m t a u b
  have ha := (text_applied_by_index (m := m) (by decide) "\x7b[2]:5,[0]:6 8 9 ?\x7d").1 a t
    .byte rfl nofun rfl (by rintro r ⟨⟩; decide)
  have hb := (text_applied_by_index (m := m) (by decide) "\x7b[1]:-1 1 # last\n\x7d").2 b u rfl
    nofun rfl (BitStorage.sound_part (.block _) 0 6) (by rintro r ⟨⟩; decide)
  have haread : a.view.readText "\x7b[2]:5,[0]:6 8 9 ?\x7d" m =
      .error (.indexOutOfRange 3 3) [6, 8, 9] := Action.eq_error (by decide +kernel)
  have hbread : b.view.readText "\x7b[1]:-1 1 # last\n\x7d" m = .ok () [1, 0x1d, 1] :=
    Action.eq_ok (by decide +kernel)
  refine ⟨⟨haread, ?_, ha.2 rfl rfl⟩, hbread, ?_, hb.2 rfl (by decide)⟩
  · rcases (ha.1.error_iff _ _).1 haread with ⟨-, hm⟩ | ⟨es, d, log, us, -, -, -, hstored⟩
    · exact absurd hm (by decide)
    · exact ⟨log, hstored⟩
  · obtain ⟨es, log, -, -, hstored⟩ := (hb.1.ok_iff _).1 hbread
    exact ⟨log, hstored⟩

end ArrayView

end Packed
