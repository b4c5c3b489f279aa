import Packed.Proofs.Tiled
import Packed.Proofs.Sequence

namespace Packed

open View

section

variable {k : Kind} {γ : Type} {F : Nat → Field k} {content : Nat → Memory → γ} {count : Nat}
  {o inner : TextOptions} {m n : Memory} {i : Nat}

/-- Fields that do not share storage. What is in the storage of each of them determines its bits,
and does not change when another is written. -/
structure Apart (F : Nat → Field k) (content : Nat → Memory → γ) (count : Nat) (m : Memory) :
    Prop where
  spans : ∀ i, i < count → (F i).isComplete = true → ∃ r, (F i).storage.Spans r m
  apart : ∀ i j, i < count → j < count → i ≠ j → (F i).isComplete = true →
    ∀ (n : Memory) (w : Word), n.length = m.length →
      content j ((F i).storage.store w n) = content j n
  load : ∀ i n n', content i n = content i n' → (F i).storage.load n = (F i).storage.load n'

structure WrittenBack (F : Nat → Field k) (content : Nat → Memory → γ) (count : Nat) (m : Memory)
    (i : Nat) (n : Memory) : Prop where
  length : n.length = m.length
  kept : ∀ j, j < count → (i ≤ j ∨ (F j).ok m = false) → content j n = content j m
  bits : ∀ j, j < count → ((F j).storage.load n).mask (F j).width =
    ((F j).storage.load m).mask (F j).width

theorem WrittenBack.start (F : Nat → Field k) (content : Nat → Memory → γ) (count : Nat)
    (m : Memory) : WrittenBack F content count m 0 m :=
  ⟨rfl, fun _ _ _ => rfl, fun _ _ => rfl⟩

theorem WrittenBack.skip (h : WrittenBack F content count m i n) :
    WrittenBack F content count m (i + 1) n := by
  refine ⟨h.length, fun j hj hij => h.kept j hj ?_, h.bits⟩
  obtain hij | hij := hij
  · exact .inl (Nat.le_of_succ_le hij)
  · exact .inr hij

theorem WrittenBack.store (ha : Apart F content count m) (h : WrittenBack F content count m i n)
    (hi : i < count) (hok : (F i).ok m = true) :
    WrittenBack F content count m (i + 1)
      ((F i).storage.store (((F i).storage.load m).mask (F i).width) n) := by
  have hc : (F i).isComplete = true := (Field.ok_iff.1 hok).1
  obtain ⟨r, hs⟩ := ha.spans i hi hc
  have hsn := hs.of_length h.length
  have hkeep : ∀ j, j < count → i ≠ j →
      content j ((F i).storage.store (((F i).storage.load m).mask (F i).width) n) = content j n :=
    fun j hj hij => ha.apart i j hi hj hij hc n _ h.length
  refine ⟨?_, fun j hj hij => ?_, fun j hj => ?_⟩
  · rw [BitStorage.length_store hsn, h.length]
  · have hne : i ≠ j := by
      rintro rfl
      obtain hij | hij := hij
      · exact Nat.not_succ_le_self i hij
      · rw [hok] at hij
        cases hij
    rw [hkeep j hj hne]
    exact h.kept j hj (hij.imp_left Nat.le_of_succ_le)
  · by_cases hij : i = j
    · subst hij
      exact Field.load_store_self hsn hc _
    · rw [ha.load j _ n (hkeep j hj hij)]
      exact h.bits j hj

theorem WrittenBack.carried (ha : Apart F content count m) (hk : ∀ i, k.Textual (F i).width)
    (hp : o.partialOutput = true) (hlim : count ≤ sizeLimit)
    (d : Nat) (h : WrittenBack F content count m i n) (hd : i + d = count) :
    ∃ n', ValuesCarried o inner false m ((List.range count).map fun i => (F i).view)
        ((List.range' i d).map fun i => (F i).view) i n n' ∧
      WrittenBack F content count m count n' := by
  induction d generalizing i n with
  | zero =>
      obtain rfl : i = count := hd
      exact ⟨n, .nil i n, h⟩
  | succ d ih =>
      have hi : i < count := by omega
      rw [List.range'_succ, List.map_cons]
      cases hok : (F i).ok m with
      | false =>
          obtain ⟨n', hn', hw⟩ := ih h.skip (by omega)
          have hh : (F i).view.isHidden false o m = true := isHidden_eq_true hp rfl hok
          exact ⟨n', .hidden hh hn', hw⟩
      | true =>
          obtain ⟨hc, -, hcheck⟩ := Field.ok_iff.1 hok
          obtain ⟨n', hn', hw⟩ := ih (h.store ha hi hok) (by omega)
          have hh : (F i).view.isHidden false o m = false := isHidden_eq_false (v := (F i).view) hok
          have hget : ((List.range count).map fun i => (F i).view)[i]? = some (F i).view := by
            simp [hi]
          exact ⟨n', .written hh (by omega) hget (Field.carries (hk i) hok rfl hcheck hc inner n)
            hn', hw⟩

end

theorem apart_bytes {t : ScalarType Buffer} {format : BlockFormat} {b : Buffer} {m : Memory}
    (ht : t.bits = fun b => .block ⟨format, b⟩) (hm : b.LiesIn m) (hl : m.length < sizeLimit)
    (size : Nat) : Apart (fun i => t.field (tile b size i)) (fun i => (tile b size i).bytes)
      (tileCount b size) m := by
  have hblock : ∀ i, (t.field (tile b size i)).storage = .block ⟨format, tile b size i⟩ := by
    intro i
    simp only [ScalarType.field, ht]
  refine ⟨fun i hi hc => ?_, fun i j hi hj hij hc n w hn => ?_, fun i n n' h => ?_⟩
  · have hok := Field.storage_ok hc
    rw [hblock] at hok ⊢
    exact BitStorage.spans_of_ok hok trivial (hm.part _ _)
  · have hok := Field.storage_ok hc
    rw [hblock] at hok ⊢
    obtain ⟨r, hr⟩ := Block.spans_of_ok hok ((hm.of_length hn).part _ _)
    obtain ⟨q, hq⟩ := Buffer.exists_region hi
    have hql := hm q hq
    have hri := Buffer.tile_region hq (by omega) hi
    have hrj := Buffer.tile_region hq (by omega) hj
    obtain rfl := Option.some.inj (hri.symm.trans hr.region)
    change (tile b size j).bytes (Block.store _ w n) = (tile b size j).bytes n
    rw [Buffer.bytes, Buffer.bytes, hrj]
    have hd := tiles_disjoint size hij
    exact Block.read_store_of_disjoint hr w (by dsimp only; omega)
  · rw [hblock]
    exact Buffer.load_congr h _ _

theorem apart_bits {t : ScalarType BitStorage} {s : BitStorage} {m : Memory} (ht : t.bits = id)
    (hs : s.Sound) (hm : s.base.buffer.LiesIn m) (size : Nat) :
    Apart (fun i => t.field (tile s size i)) (fun i => (tile s size i).load)
      (tileCount s size) m := by
  have hfield : ∀ i, (t.field (tile s size i)).storage = tile s size i := by
    intro i
    simp only [ScalarType.field, ht, id]
  refine ⟨fun i hi hc => ?_, fun i j hi hj hij hc n w hn => ?_, fun i n n' h => ?_⟩
  · have hok := Field.storage_ok hc
    rw [hfield] at hok ⊢
    exact BitStorage.spans_of_ok hok (BitStorage.sound_part _ _ _)
      (by rwa [BitStorage.base_tile])
  · have hok := Field.storage_ok hc
    rw [hfield] at hok ⊢
    have hw := BitStorage.within_of_tile hs hok
    obtain ⟨v, hv, hvb, hvo, hvs, hvw⟩ := BitStorage.tile_window hw hi
    obtain ⟨u, hu, hub, huo, hus, huw⟩ := BitStorage.tile_window hw hj
    have hd : v.Disjoint u := by
      intro b hcv hcu
      have ht := tiles_disjoint size hij
      simp only [Window.Covers, hvo, hvs, huo, hus] at hcv hcu
      omega
    rw [hv] at hok ⊢
    rw [hu]
    simp only [BitStorage.ok, Window.ok, Bool.and_eq_true] at hok
    have hvm : v.block.buffer.LiesIn n := by
      rw [hvb]
      exact hm.of_length hn
    obtain ⟨r, hr⟩ := Block.spans_of_ok hok.2 hvm
    exact Window.load_store_of_disjoint hr (hub.trans hvb.symm) huw hd w
  · rw [hfield]
    exact h

namespace ArrayView

section

variable {S γ : Type} [Tiled S]

/-- The array can be written as text, and reading that text back into it keeps the value of each
element that is ok and the storage of each that is not. -/
def SurvivesText (a : ArrayView S) (t : ScalarType S) (content : S → Memory → γ)
    (o : TextOptions) (m : Memory) : Prop :=
  ∃ text n, a.view.text o m = .ok text ∧ a.view.readText text m = .ok () n ∧
    ∀ i, i < a.count →
      ((t.field (a.slot i)).ok m = true →
        ∃ v, (t.field (a.slot i)).read m = .ok v ∧ (t.field (a.slot i)).read n = .ok v) ∧
      ((t.field (a.slot i)).ok m = false → content (a.slot i) n = content (a.slot i) m)

variable {a : ArrayView S} {t : ScalarType S} {content : S → Memory → γ} {o : TextOptions}
  {m : Memory}

theorem views_of_scalar (he : a.element = .scalar t) :
    (tiles a.storage a.stride).map a.element.view =
      (List.range a.count).map fun i => (t.field (a.slot i)).view := by
  rw [he, tiles, List.map_map]
  rfl

theorem isAggregate_of_scalar (he : a.element = .scalar t) :
    (((tiles a.storage a.stride).map a.element.view).head?.elim false (·.isAggregate)) = false := by
  rw [views_of_scalar he, List.head?_map]
  cases (List.range a.count).head? <;> rfl

theorem carries_of_scalar {T : Type} [Tiled T] {b : ArrayView T} {u : ScalarType T}
    {inner : TextOptions} {n n' : Memory} (ha : a.element = .scalar t) (hb : b.element = .scalar u)
    (h : ValuesCarried o inner false m ((List.range b.count).map fun i => (u.field (b.slot i)).view)
      ((List.range a.count).map fun i => (t.field (a.slot i)).view) 0 n n')
    (hd : o.deeper = .ok inner) : a.view.Carries o m b.view n n' := by
  rw [← views_of_scalar ha, ← views_of_scalar hb] at h
  exact h.carries hd (by rw [← isAggregate_of_scalar ha]; rfl) rfl

theorem survivesText_of_apart (he : a.element = .scalar t) (hk : t.kind.Textual t.width)
    (hlim : a.count ≤ sizeLimit)
    (ha : Apart (fun i => t.field (a.slot i)) (fun i => content (a.slot i)) a.count m)
    (hp : o.partialOutput = true) (ho : o.current + o.indent < sizeLimit) :
    a.SurvivesText t content o m := by
  obtain ⟨n, hc, hw⟩ := (WrittenBack.start _ _ _ m).carried ha (fun _ => hk) hp hlim a.count
    (Nat.zero_add _)
  rw [← List.range_eq_range'] at hc
  obtain ⟨text, ht, hu⟩ := (carries_of_scalar he he hc (TextOptions.deeper_eq ho)).readText
  refine ⟨text, n, ht, hu, fun i hi => ⟨fun hok => ?_, fun hok => ?_⟩⟩
  · have hread := Field.read_congr (hw.bits i hi)
    exact ⟨_, Field.read_eq hok, hread.trans (Field.read_eq hok)⟩
  · exact hw.kept i hi (.inr hok)

theorem text_overflow (ho : ¬ o.current + o.indent < sizeLimit) :
    a.view.text o m = .error .overflow := by
  have hd : o.deeper = .error .overflow := by rw [TextOptions.deeper, if_pos (Nat.not_lt.1 ho)]
  change sequenceText _ ((tiles a.storage a.stride).map a.element.view) o m = _
  rw [sequenceText, hd]
  rfl

end

/-- Text of an array keeps values at their indices, whichever elements are left out: what is read
back leaves the value of each element that is ok and the storage of each that is not. Only where the
indentation cannot be counted is there no text. -/
theorem partial_text_keeps_elements {o : TextOptions} (hp : o.partialOutput = true) {m : Memory}
    (hm : m.length < sizeLimit) :
    (∀ (a : ArrayView Buffer) (t : ScalarType Buffer) (format : BlockFormat),
      a.element = .scalar t → t.kind ∈ [.unsigned, .signed, .decimal, .flag] →
      (t.bits = fun b => .block ⟨format, b⟩) → a.storage.LiesIn m →
      if o.current + o.indent < sizeLimit then a.SurvivesText t Buffer.bytes o m
      else a.view.text o m = .error .overflow) ∧
    (∀ (a : ArrayView BitStorage) (t : ScalarType BitStorage),
      a.element = .scalar t → t.kind ∈ [.unsigned, .signed, .decimal, .flag] →
      t.bits = id → a.storage.Sound → a.storage.base.buffer.LiesIn m →
      if o.current + o.indent < sizeLimit then a.SurvivesText t (fun s => s.load) o m
      else a.view.text o m = .error .overflow) := by
  refine ⟨fun a t format he hk ht hs => ?_, fun a t he hk ht hsound hs => ?_⟩
  · split
    · rename_i ho
      have hcount : a.count ≤ m.length :=
        Nat.le_trans (Nat.div_le_self _ _) (Buffer.size_le_length hs)
      exact survivesText_of_apart he (Kind.textual_of_mem hk _) (by omega)
        (apart_bytes ht hs hm a.stride) hp ho
    · rename_i ho
      exact text_overflow ho
  · split
    · rename_i ho
      have hcount : a.count ≤ 255 := Nat.le_trans (Nat.div_le_self _ _) a.storage.size_le
      have hlim : 255 < sizeLimit := by decide
      exact survivesText_of_apart he (Kind.textual_of_mem hk _) (by omega)
        (apart_bits ht hsound hs a.stride) hp ho
    · rename_i ho
      exact text_overflow ho

/-- A byte between two others that is no pair of decimal digits, and a pair of bits between two
others that alone passes a check. -/
theorem partial_text_keeps_elements_around_gaps :
    let o : TextOptions := { TextOptions.default with partialOutput := true }
    let m : Memory := [0x12, 0x0c, 0x45]
    let t : ScalarType Buffer :=
      ⟨.decimal, 8, ⟨by decide, by decide⟩, fun _ => true, fun b => .block ⟨.byte, b⟩⟩
    let a : ArrayView Buffer := ⟨.scalar t, 1, Nat.one_pos, .ofRegion ⟨0, 3⟩⟩
    let u : ScalarType BitStorage := ⟨.signed, 2, ⟨by decide, by decide⟩, fun v => v == -1, id⟩
    let b : ArrayView BitStorage :=
      ⟨.scalar u, 2, Nat.two_pos, .window (.ofBlock ⟨.byte, .ofRegion ⟨1, 1⟩⟩ 0 6)⟩
    (t.field (a.slot 1)).ok m = false ∧ (u.field (b.slot 0)).ok m = false ∧
      (u.field (b.slot 1)).ok m = true ∧ (u.field (b.slot 2)).ok m = false ∧
      a.SurvivesText t Buffer.bytes o m ∧ b.SurvivesText u (fun s => s.load) o m := by
  intro o m t a u b
  have h := partial_text_keeps_elements (o := o) rfl (m := m) (by decide)
  refine ⟨by decide, by decide, by decide, by decide, ?_, ?_⟩
  · exact h.1 a t .byte rfl (by decide) rfl (by intro r hr; cases hr; decide)
  · exact h.2 b u rfl (by decide) rfl (BitStorage.sound_part (.block _) 0 6)
      (by intro r hr; cases hr; decide)

/-- With an indentation past the largest size there is no text to read. -/
theorem no_text_past_largest_indentation :
    let o : TextOptions :=
      { TextOptions.default with indent := 1, current := sizeLimit - 1, partialOutput := true }
    let m : Memory := [5]
    let t : ScalarType Buffer :=
      ⟨.unsigned, 8, ⟨by decide, by decide⟩, fun _ => true, fun b => .block ⟨.byte, b⟩⟩
    let a : ArrayView Buffer := ⟨.scalar t, 1, Nat.one_pos, .ofRegion ⟨0, 1⟩⟩
    o.partialOutput = true ∧
      ¬ ∃ text n, a.view.text o m = .ok text ∧ a.view.readText text m = .ok () n := by
  intro o m t a
  refine ⟨rfl, ?_⟩
  rintro ⟨text, n, ht, -⟩
  have ho : a.view.text o m = .error .overflow := text_overflow (by decide)
  rw [ho] at ht
  cases ht

end ArrayView

end Packed
