import Packed.Proofs.Array
import Packed.Proofs.BitCopy
import Packed.Proofs.FieldWrite
import Packed.Proofs.PastEnd

namespace Packed

namespace Field

variable {k : Kind} {f : Field k} {v : k.Value} {m n : Memory}

theorem after_tryWrite : m.after (f.tryWrite v m) = m ∨
    m.after (f.tryWrite v m) = f.uncheckedWrite v m := by
  cases h : f.tryWrite v m with
  | error e => exact .inl rfl
  | ok n => exact .inr (tryWrite_eq_ok_iff.1 h).2.2

theorem after_write : m.after (f.write v m) = m.after (f.tryWrite v m) := by
  rw [write]
  cases f.tryWrite v m <;> rfl

def outcomes (f : Field k) (v : k.Value) (m : Memory) : List Memory :=
  [f.uncheckedWrite v m, m.after (f.tryWrite v m), m.after (f.write v m)]

theorem of_mem_outcomes (h : n ∈ f.outcomes v m) : n = m ∨ n = f.uncheckedWrite v m := by
  simp only [outcomes, after_write, List.mem_cons, List.not_mem_nil, or_false, or_self] at h
  obtain rfl | rfl := h
  · exact .inr rfl
  · exact after_tryWrite

theorem read_of_not_complete (h : f.isComplete = false) (m : Memory) :
    f.ok m = false ∧ f.read m = .error (.unreadable k f.width) := by
  have hok : f.ok m = false := by rw [ok, h, Bool.false_and, Bool.false_and]
  exact ⟨hok, by rw [read, hok]; rfl⟩

end Field

def Buffer.unit (b : Buffer) (m : Memory) (k : Nat) : Byte := (b.bytes m).getD k 0

def BitStorage.unit (s : BitStorage) (m : Memory) (k : Nat) : Bool := (s.load m).getLsbD k

theorem Buffer.unit_eq {b : Buffer} {r : Region} {k : Nat} (hr : b.region = some r)
    (hk : k < b.size) (m : Memory) : b.unit m k = m.get (r.start + k) := by
  rw [size_of_region hr] at hk
  rw [unit, bytes, hr, Option.elim_some, Memory.getD_read m r hk]

theorem BitStorage.unit_eq {s : BitStorage} {r : Region} {m : Memory} {k : Nat} (hs : s.Spans r m)
    (hk : k < s.size) : s.unit m k = m.bit (s.place k) :=
  getLsbD_load hs hk

namespace ArrayView

section

variable {S γ δ : Type} [Tiled S] {a : ArrayView S} {t : ScalarType S}
  {unit : S → Memory → Nat → γ} {content : S → Memory → δ} {m n : Memory} {i : Nat}

structure Spares (a : ArrayView S) (t : ScalarType S) (unit : S → Memory → Nat → γ) (i : Nat)
    (m n : Memory) : Prop where
  length : n.length = m.length
  ok : ∀ j, j ≠ i → (t.field (a.slot j)).ok n = (t.field (a.slot j)).ok m
  read : ∀ j, j ≠ i → (t.field (a.slot j)).read n = (t.field (a.slot j)).read m
  uncheckedRead : ∀ j, j < a.count → j ≠ i →
    (t.field (a.slot j)).uncheckedRead n = (t.field (a.slot j)).uncheckedRead m
  units : ∀ k, k < a.size → k < i * a.stride ∨ i * a.stride + a.stride ≤ k →
    unit a.storage n k = unit a.storage m k
  outside : ∀ p, (∀ k, k < (t.field (a.slot i)).storage.size →
    (t.field (a.slot i)).storage.place k ≠ p) → n.bit p = m.bit p

theorem Spares.refl (a : ArrayView S) (t : ScalarType S) (unit : S → Memory → Nat → γ) (i : Nat)
    (m : Memory) : a.Spares t unit i m m :=
  ⟨rfl, fun _ _ => rfl, fun _ _ => rfl, fun _ _ _ => rfl, fun _ _ _ => rfl, fun _ _ => rfl⟩

/-- The elements of the array are the indices below its count, of which each has its own units. -/
structure Tiling (a : ArrayView S) (t : ScalarType S) (unit : S → Memory → Nat → γ) (m : Memory) :
    Prop where
  count : a.count = a.size / a.stride
  slot? : ∀ i s, a.slot? i = some s ↔ i < a.count ∧ s = a.slot i
  isComplete_field : ∀ i, (t.field (a.slot i)).isComplete = true ↔ i < a.count
  isComplete : a.isComplete = true ↔ a.stride ∣ a.size
  ok : a.ok m = true ↔ a.stride ∣ a.size ∧ ∀ i, i < a.count → (t.field (a.slot i)).ok m = true
  write : ∀ i, i < a.count → ∀ v, ∀ n ∈ (t.field (a.slot i)).outcomes v m, a.Spares t unit i m n

theorem ok_iff_of_scalar (he : a.element = .scalar t) : a.ok m = true ↔
    a.isComplete = true ∧ ∀ i, i < a.count → (t.field (a.slot i)).ok m = true := by
  change (a.isComplete && (tiles a.storage a.stride).all fun s => a.element.ok s m) = true ↔ _
  rw [Bool.and_eq_true, he, tiles, List.all_map, List.all_eq_true]
  exact and_congr_right fun _ => forall_congr' fun i => by rw [List.mem_range]; rfl

theorem spares_store (ha : Apart (fun i => t.field (a.slot i)) (fun i => content (a.slot i))
      a.count m)
    (hc : ∀ j, (t.field (a.slot j)).isComplete = true ↔ j < a.count) (hi : i < a.count) (w : Word)
    (hunits : ∀ k, k < a.size → k < i * a.stride ∨ i * a.stride + a.stride ≤ k →
      unit a.storage ((t.field (a.slot i)).storage.store w m) k = unit a.storage m k) :
    a.Spares t unit i m ((t.field (a.slot i)).storage.store w m) := by
  obtain ⟨r, hr⟩ := ha.spans i hi ((hc i).2 hi)
  have hkeep : ∀ j, j < a.count → j ≠ i →
      (t.field (a.slot j)).storage.load ((t.field (a.slot i)).storage.store w m) =
        (t.field (a.slot j)).storage.load m :=
    fun j hj hji => ha.load j _ _ (ha.apart i j hi hj hji.symm ((hc i).2 hi) m w rfl)
  have hothers : ∀ j, j ≠ i →
      (t.field (a.slot j)).ok ((t.field (a.slot i)).storage.store w m) = (t.field (a.slot j)).ok m ∧
      (t.field (a.slot j)).read ((t.field (a.slot i)).storage.store w m) =
        (t.field (a.slot j)).read m := by
    intro j hji
    by_cases hj : j < a.count
    · have hload := hkeep j hj hji
      exact ⟨(Field.ok_congr (by rw [hload])).1, Field.read_congr (by rw [hload])⟩
    · -- Past the end there is the same fault in any memory.
      have hgone : (t.field (a.slot j)).isComplete = false :=
        Bool.eq_false_iff.2 fun h => hj ((hc j).1 h)
      have hfault := Field.read_of_not_complete hgone
      exact ⟨(hfault _).1.trans (hfault m).1.symm, (hfault _).2.trans (hfault m).2.symm⟩
  refine ⟨BitStorage.length_store hr w, fun j hji => (hothers j hji).1,
    fun j hji => (hothers j hji).2, fun j hj hji => ?_, hunits,
    fun p => BitStorage.bit_store_of_ne hr w⟩
  exact (Field.ok_congr (by rw [hkeep j hj hji])).2

theorem tiling_of_spares (he : a.element = .scalar t) (hok : Tiled.ok a.storage = true)
    (hc : ∀ j, (t.field (a.slot j)).isComplete = true ↔ j < a.count)
    (hw : ∀ i, i < a.count → ∀ w, a.Spares t unit i m ((t.field (a.slot i)).storage.store w m)) :
    a.Tiling t unit m := by
  have hdvd : a.isComplete = true ↔ a.stride ∣ a.size :=
    ElementType.isComplete_array_iff.trans (and_iff_right hok)
  refine ⟨rfl, fun i s => ?_, hc, hdvd, ?_, fun i hi v n hn => ?_⟩
  · rw [slot?, Option.ite_none_right_eq_some, Option.some_inj, eq_comm (a := s)]
  · rw [ok_iff_of_scalar he, hdvd]
  · obtain rfl | rfl := Field.of_mem_outcomes hn
    · exact Spares.refl a t unit i n
    · exact hw i hi _

end

theorem isComplete_slot_bytes {a : ArrayView Buffer} {t : ScalarType Buffer} {format : BlockFormat}
    (ht : t.bits = fun b => .block ⟨format, b⟩) (hw : t.width = format.bits)
    (hz : a.stride * 8 = format.bits) (hok : a.storage.ok = true) (hl : a.size < sizeLimit)
    (i : Nat) : (t.field (a.slot i)).isComplete = true ↔ i < a.count := by
  have hslot : (a.slot i).ok = true := by rw [ok_slot, hok]
  have hsize : (a.slot i).size = a.stride ↔ i < a.count :=
    Buffer.size_tile_eq_iff a.stride_pos hl
  rw [ElementType.isComplete_scalar_iff ht hslot, ← hsize]
  omega

theorem isComplete_slot_bits {a : ArrayView BitStorage} {t : ScalarType BitStorage}
    (ht : t.bits = id) (hw : t.width = a.stride) (hok : a.storage.ok = true)
    (hs : a.storage.Within) (i : Nat) :
    (t.field (a.slot i)).isComplete = true ↔ i < a.count := by
  have hslot : (a.slot i).ok = true ↔ i < a.count := BitStorage.ok_tile_iff hok hs a.stride_pos
  rw [ElementType.isComplete_scalar_bits_iff ht, hslot]
  refine and_iff_left_of_imp fun hi => ?_
  have hsize : (a.slot i).size = a.stride := BitStorage.size_tile hs hi
  change t.width ≤ (a.slot i).size
  rw [hw, hsize]

theorem unit_store_bytes {a : ArrayView Buffer} {format : BlockFormat} {m : Memory} {i k : Nat}
    (ha : a.storage.LiesIn m) (hl : a.size < sizeLimit)
    (hz : a.stride * 8 = format.bits) (hi : i < a.count) (w : Word) (hk : k < a.size)
    (hki : k < i * a.stride ∨ i * a.stride + a.stride ≤ k) :
    a.storage.unit ((BitStorage.block ⟨format, a.slot i⟩).store w m) k = a.storage.unit m k := by
  obtain ⟨r, hr⟩ := Buffer.exists_region hi
  have hsize : a.size = r.size := Buffer.size_of_region hr
  have hspans : (Block.mk format (a.slot i)).Spans ⟨r.start + i * a.stride, a.stride⟩ m :=
    Buffer.spans_tile hr (ha r hr) (by omega) hz hi
  rw [Buffer.unit_eq hr hk, Buffer.unit_eq hr hk]
  exact Block.get_store_of_outside hspans w (by dsimp only; omega)

theorem unit_store_bits {a : ArrayView BitStorage} {r : Region} {m : Memory} {i k : Nat}
    (ha : a.storage.Spans r m) (hi : i < a.count) (w : Word) (hk : k < a.size)
    (hki : k < i * a.stride ∨ i * a.stride + a.stride ≤ k) :
    a.storage.unit ((a.slot i).store w m) k = a.storage.unit m k := by
  have hspans : (a.slot i).Spans r m := (BitStorage.part_tile ha.within hi).spans ha
  have hn := ha.of_length (BitStorage.length_store hspans w)
  rw [BitStorage.unit_eq hn hk, BitStorage.unit_eq ha hk]
  refine BitStorage.bit_store_of_ne hspans w fun l hl he => ?_
  have hb := tile_bound hi
  have hz : (a.slot i).size = a.stride := BitStorage.size_tile ha.within hi
  have hp : (a.slot i).place l = a.storage.place (i * a.stride + l) :=
    BitStorage.place_tile ha.within hi l
  change i * a.stride + a.stride ≤ a.storage.size at hb
  have hkl := BitStorage.place_inj ha (by omega) hk (hp.symm.trans he)
  omega

/-- Fields over bytes or over bits that fill their elements tile storage that is ok: its elements are
the indices below their count, where alone they are complete, and writing any value to one of them
changes no other element and no unit after the last. -/
theorem elements_tile_storage {m : Memory} (hm : m.length < sizeLimit) :
    (∀ (a : ArrayView Buffer) (t : ScalarType Buffer) (format : BlockFormat),
      a.element = .scalar t → (t.bits = fun b => .block ⟨format, b⟩) → t.width = format.bits →
      a.stride * 8 = format.bits → a.storage.ok = true → a.storage.LiesIn m →
      a.Tiling t Buffer.unit m) ∧
    (∀ (a : ArrayView BitStorage) (t : ScalarType BitStorage),
      a.element = .scalar t → t.bits = id → t.width = a.stride → a.storage.ok = true →
      a.storage.Sound → a.storage.base.buffer.LiesIn m →
      a.Tiling t BitStorage.unit m) := by
  refine ⟨fun a t format he ht hw hz hok hs => ?_, fun a t he ht hw hok hsound hs => ?_⟩
  · have hl : a.size < sizeLimit := Nat.lt_of_le_of_lt (Buffer.size_le_length hs) hm
    have hc := isComplete_slot_bytes ht hw hz hok hl
    refine tiling_of_spares he hok hc fun i hi w => ?_
    have hstorage : (t.field (a.slot i)).storage = .block ⟨format, a.slot i⟩ := congrFun ht _
    refine spares_store (apart_bytes ht hs hm a.stride) hc hi w ?_
    rw [hstorage]
    exact fun _ => unit_store_bytes hs hl hz hi w
  · obtain ⟨r, hr⟩ := BitStorage.spans_of_ok hok hsound hs
    have hc := isComplete_slot_bits ht hw hok hr.within
    refine tiling_of_spares he hok hc fun i hi w => ?_
    have hstorage : (t.field (a.slot i)).storage = a.slot i := congrFun ht _
    refine spares_store (apart_bits ht hsound hs a.stride) hc hi w ?_
    rw [hstorage]
    exact fun _ => unit_store_bits hr hi w

/-- Five bytes in pairs, of which one is left over, and the upper seven bits of one of them in threes.
The index at which the product with the size of a pair is too large has no element either. -/
theorem elements_tile_storage_of_five_bytes :
    let m : Memory := [1, 2, 3, 4, 5]
    let t : ScalarType Buffer :=
      ⟨.unsigned, 16, ⟨by decide, by decide⟩, fun v => v != (7 : Nat), fun b => .block ⟨.bigPair, b⟩⟩
    let a : ArrayView Buffer := ⟨.scalar t, 2, Nat.two_pos, .ofRegion ⟨0, 5⟩⟩
    let u : ScalarType BitStorage := ⟨.signed, 3, ⟨by decide, by decide⟩, fun _ => true, id⟩
    let b : ArrayView BitStorage :=
      ⟨.scalar u, 3, by decide, .window (.ofBlock ⟨.byte, .ofRegion ⟨2, 1⟩⟩ 1 7)⟩
    (a.count = 2 ∧ a.isComplete = false ∧ (t.field (a.slot (2 ^ 63))).isComplete = false ∧
      ∀ v : Nat, ∀ n ∈ (t.field (a.slot 1)).outcomes v m,
        (t.field (a.slot 0)).uncheckedRead n = (258 : Nat) ∧ n.get 4 = 5) ∧
      b.count = 2 ∧ ∀ v : Int, ∀ n ∈ (u.field (b.slot 0)).outcomes v m,
        (u.field (b.slot 1)).uncheckedRead n = (0 : Int) ∧ b.storage.unit n 6 = false := by
  intro m t a u b
  have h := elements_tile_storage (m := m) (by decide)
  have ha := h.1 a t .bigPair rfl rfl rfl rfl rfl (by rintro r ⟨⟩; decide)
  have hb := h.2 b u rfl rfl rfl rfl (BitStorage.sound_part (.block _) 1 7)
    (by rintro r ⟨⟩; decide)
  refine ⟨⟨ha.count.trans (by decide), ?_, ?_, fun v n hn => ⟨?_, ?_⟩⟩,
    hb.count.trans (by decide), fun v n hn => ⟨?_, ?_⟩⟩
  · rw [Bool.eq_false_iff, Ne, ha.isComplete]
    decide
  · rw [Bool.eq_false_iff, Ne, ha.isComplete_field]
    decide
  · have hkept := (ha.write 1 (by decide) v n hn).uncheckedRead 0 (by decide) (by decide)
    exact hkept.trans (by decide +kernel)
  · have hkept := (ha.write 1 (by decide) v n hn).units 4 (by decide) (by decide)
    have hunit : a.storage.unit n 4 = n.get 4 := Buffer.unit_eq (r := ⟨0, 5⟩) rfl (by decide) n
    have hbefore : a.storage.unit m 4 = 5 := by decide +kernel
    rw [← hunit, hkept, hbefore]
  · have hkept := (hb.write 0 (by decide) v n hn).uncheckedRead 1 (by decide) (by decide)
    exact hkept.trans (by decide +kernel)
  · have hkept := (hb.write 0 (by decide) v n hn).units 6 (by decide) (by decide)
    exact hkept.trans (by decide +kernel)

end ArrayView

end Packed
