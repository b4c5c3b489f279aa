import Packed.Proofs.Tiled

namespace Packed

namespace ElementType

def OverBytes : ElementType Buffer → Prop
  | scalar t => ∃ format, t.bits = fun b => .block ⟨format, b⟩
  | array e _ _ => e.OverBytes

def OverBits : ElementType BitStorage → Prop
  | scalar t => t.bits = id
  | array e _ _ => e.OverBits

/-- This many bytes make a complete element. -/
inductive Fits : ElementType Buffer → Nat → Prop
  | scalar {t : ScalarType Buffer} {format : BlockFormat} {size : Nat}
      (bits : t.bits = fun b => .block ⟨format, b⟩) (exact : size * 8 = format.bits)
      (width : t.width ≤ format.bits) : Fits (scalar t) size
  | array {e : ElementType Buffer} {n size : Nat} {pos : 0 < n} (dvd : n ∣ size) :
      Fits (array e n pos) size

variable {S : Type} [Tiled S]

theorem isComplete_of_ok {e : ElementType S} {s : S} {m : Memory} (h : e.ok s m = true) :
    e.isComplete s = true := by
  cases e with
  | scalar t => exact (Field.ok_iff.1 h).1
  | array e n pos => exact (Bool.and_eq_true_iff.1 h).1

theorem isComplete_array_iff {e : ElementType S} {n : Nat} {pos : 0 < n} {s : S} :
    (array e n pos).isComplete s = true ↔ Tiled.ok s = true ∧ n ∣ Tiled.size s := by
  rw [isComplete, Bool.and_eq_true, beq_iff_eq, Nat.dvd_iff_mod_eq_zero]

theorem isComplete_scalar_iff {t : ScalarType Buffer} {format : BlockFormat} {b : Buffer}
    (ht : t.bits = fun b => .block ⟨format, b⟩) (hb : b.ok = true) :
    (t.field b).isComplete = true ↔ b.size * 8 = format.bits ∧ t.width ≤ format.bits := by
  simp [Field.isComplete, ScalarType.field, ht, BitStorage.ok, BitStorage.size, Block.ok,
    Block.bits, hb]

theorem isComplete_scalar_bits_iff {t : ScalarType BitStorage} (ht : t.bits = id) {s : BitStorage} :
    (t.field s).isComplete = true ↔ s.ok = true ∧ t.width ≤ s.size := by
  simp [Field.isComplete, ScalarType.field, ht]

theorem isComplete_iff_fits {e : ElementType Buffer} (he : e.OverBytes) {b : Buffer}
    (hb : b.ok = true) : e.isComplete b = true ↔ e.Fits b.size := by
  cases e with
  | scalar t =>
      obtain ⟨format, ht⟩ := he
      rw [isComplete, isComplete_scalar_iff ht hb]
      constructor
      · rintro ⟨hexact, hwidth⟩
        exact .scalar ht hexact hwidth
      · rintro (⟨ht', hexact, hwidth⟩ | -)
        have hformat := congrFun (ht.symm.trans ht') b
        cases hformat
        exact ⟨hexact, hwidth⟩
  | array e n pos =>
      rw [isComplete_array_iff]
      constructor
      · rintro ⟨-, hdvd⟩
        exact .array hdvd
      · rintro (- | hdvd)
        exact ⟨hb, hdvd⟩

theorem Fits.unique {t : ScalarType Buffer} {n k : Nat} (hn : Fits (ElementType.scalar t) n)
    (hk : Fits (ElementType.scalar t) k) : n = k := by
  obtain ⟨hbits, hexact, -⟩ | - := hn
  obtain ⟨hbits', hexact', -⟩ | - := hk
  have hformat := congrFun (hbits.symm.trans hbits') (.null .any)
  cases hformat
  omega

theorem isComplete_of_not_ok {e : ElementType BitStorage} (he : e.OverBits) {s : BitStorage}
    (hs : s.ok = false) : e.isComplete s = false := by
  cases e with
  | scalar t =>
      have hbits : t.bits = id := he
      simp [isComplete, Field.isComplete, ScalarType.field, hbits, hs]
  | array e n pos =>
      change (s.ok && _) = false
      rw [hs, Bool.false_and]

theorem over_nothing {e : ElementType Buffer} (he : e.OverBytes) {b : Buffer} (hb : b.ok = true)
    (hz : b.size = 0) (m : Memory) :
    e.isComplete b = e.isAggregate ∧ e.ok b m = e.isAggregate := by
  cases e with
  | scalar t =>
      obtain ⟨format, ht⟩ := he
      have hc : (t.field b).isComplete = false := by
        rw [Bool.eq_false_iff, Ne, isComplete_scalar_iff ht hb, hz]
        have hpos := format.bits_pos
        omega
      have hok : (t.field b).ok m = false :=
        Bool.eq_false_iff.2 fun h => Bool.eq_false_iff.1 hc (Field.ok_iff.1 h).1
      exact ⟨hc, hok⟩
  | array e n pos =>
      have hc : (array e n pos).isComplete b = true := by
        rw [isComplete_array_iff, show Tiled.size b = 0 from hz]
        exact ⟨hb, Nat.dvd_zero n⟩
      have hcount : tileCount b n = 0 := by
        change b.size / n = 0
        rw [hz, Nat.zero_div]
      have hok : (array e n pos).ok b m = true := by
        rw [ok, hc, tiles, hcount]
        rfl
      exact ⟨hc, hok⟩

end ElementType

namespace ArrayView

def leftover (a : ArrayView Buffer) (i : Nat) : Nat :=
  if i = a.count then a.size % a.stride else 0

theorem ok_slot (a : ArrayView Buffer) (i : Nat) : (a.slot i).ok = a.storage.ok :=
  Option.isSome_map

/-- Elements past the end are complete only by what is left. Over bits they never are. Over bytes
the first of them gets what is left after the whole elements and is complete if that fits, which for
fields of the size of an element it never does; the others get nothing, of which every array is
complete, and ok, and no field. -/
theorem completeness_past_end (m : Memory) :
    (∀ (a : ArrayView Buffer) (i : Nat), a.storage.ok = true → a.size < sizeLimit →
      a.element.OverBytes → a.count ≤ i →
      (a.element.isComplete (a.slot i) = true ↔ a.element.Fits (a.leftover i)) ∧
      (a.element.ok (a.slot i) m = true → a.element.isComplete (a.slot i) = true) ∧
      (a.element.isAggregate = false → a.element.Fits a.stride →
        a.element.isComplete (a.slot i) = false) ∧
      (a.count < i → a.element.isComplete (a.slot i) = a.element.isAggregate ∧
        a.element.ok (a.slot i) m = a.element.isAggregate)) ∧
    (∀ (a : ArrayView BitStorage) (i : Nat), a.element.OverBits → a.count ≤ i →
      a.element.isComplete (a.slot i) = false ∧ a.element.ok (a.slot i) m = false) := by
  refine ⟨fun a i hok hlim he hi => ?_, fun a i he hi => ?_⟩
  · have hsize : (a.slot i).size = a.leftover i :=
      Buffer.size_tile_past_end a.stride_pos hlim hi
    have hslot : (a.slot i).ok = true := by rw [ok_slot, hok]
    have hfits := ElementType.isComplete_iff_fits he hslot
    rw [hsize] at hfits
    refine ⟨hfits, ElementType.isComplete_of_ok, fun hscalar hstride => ?_, fun hlt => ?_⟩
    · cases he' : a.element with
      | array e n pos =>
          rw [he'] at hscalar
          cases hscalar
      | scalar t =>
          rw [he'] at hfits hstride
          refine Bool.eq_false_iff.2 fun hc => ?_
          have hfull : (a.slot i).size = a.stride := hsize.trans ((hfits.1 hc).unique hstride)
          exact Nat.not_lt.2 hi ((Buffer.size_tile_eq_iff a.stride_pos hlim).1 hfull)
    · have hz : (a.slot i).size = 0 := by rw [hsize, leftover, if_neg (Nat.ne_of_gt hlt)]
      exact ElementType.over_nothing he hslot hz m
  · have hc := ElementType.isComplete_of_not_ok he (BitStorage.ok_tile_past_end a.stride_pos hi)
    exact ⟨hc, Bool.eq_false_iff.2 fun h =>
      Bool.eq_false_iff.1 hc (ElementType.isComplete_of_ok h)⟩

/-- Six bytes in fours of two pairs each, five bytes in pairs, and a byte in fours of bits. -/
theorem completeness_past_end_of_a_pair :
    let t : ScalarType Buffer :=
      ⟨.unsigned, 16, ⟨by decide, by decide⟩, fun _ => true, fun b => .block ⟨.bigPair, b⟩⟩
    let u : ScalarType BitStorage := ⟨.unsigned, 2, ⟨by decide, by decide⟩, fun _ => true, id⟩
    let a : ArrayView Buffer :=
      ⟨.array (.scalar t) 2 Nat.two_pos, 4, by decide, .ofRegion ⟨0, 6⟩⟩
    let b : ArrayView Buffer := ⟨.scalar t, 2, Nat.two_pos, .ofRegion ⟨0, 5⟩⟩
    let c : ArrayView BitStorage :=
      ⟨.array (.scalar u) 2 Nat.two_pos, 4, by decide, .block ⟨.byte, .ofRegion ⟨0, 1⟩⟩⟩
    let m : Memory := [1, 2, 3, 4, 5, 6]
    (a.count = 1 ∧ a.element.isComplete (a.slot 1) = true ∧ a.element.ok (a.slot 2) m = true) ∧
      (b.count = 2 ∧ b.element.isComplete (b.slot 2) = false) ∧
      c.count = 2 ∧ c.element.isComplete (c.slot 2) = false := by
  intro t u a b c m
  obtain ⟨hbytes, hbits⟩ := completeness_past_end m
  have ha := fun i => hbytes a i (by decide) (by decide) ⟨_, rfl⟩
  obtain ⟨-, -, hfields, -⟩ := hbytes b 2 (by decide) (by decide) ⟨_, rfl⟩ (by decide)
  exact ⟨⟨by decide, (ha 1 (by decide)).1.2 (.array (by decide)),
      ((ha 2 (by decide)).2.2.2 (by decide)).2⟩,
    ⟨by decide, hfields rfl (.scalar rfl rfl (by decide))⟩,
    by decide, (hbits c 2 rfl (by decide)).1⟩

/-- An array of arrays over exactly its four bytes: the element after the last is laid over no
bytes, of which it is an array with no elements, complete and ok. -/
theorem element_past_end_complete :
    let t : ScalarType Buffer :=
      ⟨.unsigned, 16, ⟨by decide, by decide⟩, fun _ => true, fun b => .block ⟨.bigPair, b⟩⟩
    let a : ArrayView Buffer :=
      ⟨.array (.scalar t) 2 Nat.two_pos, 4, by decide, .ofRegion ⟨0, 4⟩⟩
    a.storage.ok = true ∧ a.count ≤ 1 ∧
      ¬ (a.element.isComplete (a.slot 1) = false ∧
        a.element.ok (a.slot 1) [1, 2, 3, 4] = false) := by
  decide

end ArrayView

end Packed
