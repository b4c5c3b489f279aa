import Packed.Block
import Packed.Proofs.AccessPath

namespace Packed

def Buffer.LiesIn (b : Buffer) (m : Memory) : Prop :=
  ∀ r, b.region = some r → r.start + r.size ≤ m.length

namespace Buffer

theorem liesIn_ofRegion {r : Region} {m : Memory} (h : r.start + r.size ≤ m.length) :
    (ofRegion r).LiesIn m := by
  rintro _ ⟨⟩
  exact h

theorem LiesIn.of_length {b : Buffer} {m n : Memory} (h : b.LiesIn m) (hl : n.length = m.length) :
    b.LiesIn n := by
  intro r hr
  rw [hl]
  exact h r hr

theorem LiesIn.part {b : Buffer} {m : Memory} (h : b.LiesIn m) (offset size : Nat) :
    (b.part offset size).LiesIn m := by
  intro r hr
  obtain ⟨r', hr', rfl⟩ := Option.map_eq_some_iff.1 hr
  have hb := h r' hr'
  simp only [Region.part]
  omega

theorem region_part {b : Buffer} {r : Region} {offset size : Nat} (hr : b.region = some r)
    (h : offset + size ≤ r.size) : (b.part offset size).region = some ⟨r.start + offset, size⟩ := by
  have ho : min offset r.size = offset := Nat.min_eq_left (by omega)
  have hs : min size (r.size - offset) = size := Nat.min_eq_left (by omega)
  simp only [part, hr, Option.map_some, Region.part, ho, hs]

theorem size_of_region {b : Buffer} {r : Region} (hr : b.region = some r) : b.size = r.size := by
  rw [size, hr, Option.elim_some]

theorem size_of_null {b : Buffer} (hr : b.region = none) : b.size = 0 := by
  rw [size, hr, Option.elim_none]

theorem size_part_le (b : Buffer) (offset size : Nat) : (b.part offset size).size ≤ size := by
  rw [Buffer.size, part]
  cases b.region with
  | none => exact Nat.zero_le _
  | some r => exact Nat.min_le_left _ _

theorem size_le_length {b : Buffer} {m : Memory} (h : b.LiesIn m) : b.size ≤ m.length := by
  rw [size]
  cases hr : b.region with
  | none => exact Nat.zero_le _
  | some r => exact Nat.le_trans (Nat.le_add_left _ _) (h r hr)

theorem length_bytes {b : Buffer} {m : Memory} (h : b.LiesIn m) : (b.bytes m).length = b.size := by
  rw [bytes, size]
  cases hr : b.region with
  | none => rfl
  | some r => exact Memory.length_read_of_le (h r hr)

theorem load_congr {b : Buffer} {m n : Memory} (h : b.bytes m = b.bytes n) (e : Endian)
    (bits : Nat) : b.load e bits m = b.load e bits n := by
  rw [load, load]
  split
  · rename_i r hr
    have hm : m.read r = n.read r := by simpa [bytes, (exact_eq_ok hr).1] using h
    rw [hm]
  · rw [loadPadded, loadPadded, h]

end Buffer

theorem BlockFormat.arrange_stores (f : BlockFormat) {bs : List Byte} (h : bs.length * 8 = f.bits) :
    f.order.stores.arrange bs = f.order.loads.arrange bs := by
  cases ho : f.order with
  | little | big => rfl
  | single =>
      have hb := f.bits_single ho
      exact Endian.arrange_of_length_le_one _ _ (by omega)

namespace Block

/-- The block is exactly the region, and memory holds all of it. -/
structure Spans (b : Block) (r : Region) (m : Memory) : Prop where
  region : b.buffer.region = some r
  size : r.size * 8 = b.bits
  lies : r.start + r.size ≤ m.length

variable {b c : Block} {r s : Region} {m n : Memory}

theorem spans_of_ok (h : b.ok = true) (hm : b.buffer.LiesIn m) : ∃ r, b.Spans r m := by
  simp only [ok, Buffer.ok, Buffer.size, Bool.and_eq_true, beq_iff_eq] at h
  obtain ⟨r, hr⟩ := Option.isSome_iff_exists.1 h.1
  exact ⟨r, hr, by simpa [hr] using h.2, hm r hr⟩

theorem Spans.ok (h : b.Spans r m) : b.ok = true := by
  simp [Block.ok, Buffer.ok, Buffer.size, h.region, h.size]

theorem Spans.of_length (h : b.Spans r m) (hl : n.length = m.length) : b.Spans r n :=
  ⟨h.region, h.size, by rw [hl]; exact h.lies⟩

theorem Spans.exact (h : b.Spans r m) : b.buffer.exact b.bits = .ok r := by
  simp [Buffer.exact, h.region, h.size]

theorem Spans.size_le (h : b.Spans r m) : r.size ≤ 8 := by
  have hb := b.format.bits_le
  have hs := h.size
  rw [bits] at hs
  omega

theorem load_eq (h : b.Spans r m) :
    b.load m = Word.ofDigits (b.format.order.loads.arrange (m.read r)) := by
  rw [load, Buffer.load, h.exact]
  exact AccessPath.load_eq _ _ _

theorem store_eq (h : b.Spans r m) (w : Word) : b.store w m =
    m.write r.start (b.format.order.loads.arrange (w.digits r.size)) := by
  have hl : (w.digits r.size).length * 8 = b.format.bits := by
    rw [Word.length_digits]
    exact h.size
  have ha := b.format.arrange_stores hl
  rw [store, Buffer.put, h.exact, ← ha]
  exact AccessPath.store_eq _ m r.start h.size_le _ w

theorem read_eq (h : b.Spans r m) : b.read m = .ok (b.load m) := by
  simp [read, load, Buffer.read, Buffer.load, h.exact, Except.map]

theorem length_store (h : b.Spans r m) (w : Word) : (b.store w m).length = m.length := by
  rw [store_eq h, Memory.length_write]

theorem Spans.store (h : b.Spans r m) (hc : c.Spans s m) (w : Word) : b.Spans r (c.store w m) :=
  h.of_length (length_store hc w)

theorem get_store_of_outside (h : b.Spans r m) (w : Word) {a : Nat}
    (ha : a < r.start ∨ r.start + r.size ≤ a) : (b.store w m).get a = m.get a := by
  rw [store_eq h]
  exact Memory.get_write_of_outside m (by simpa using ha)

theorem read_store_of_disjoint (h : b.Spans r m) (w : Word)
    (hd : s.start + s.size ≤ r.start ∨ r.start + r.size ≤ s.start) :
    (b.store w m).read s = m.read s := by
  rw [store_eq h]
  exact Memory.read_write_of_disjoint m (by simpa using hd)

theorem load_store (h : b.Spans r m) (w : Word) : b.load (b.store w m) = w.mask b.bits := by
  have hl : (b.format.order.loads.arrange (w.digits r.size)).length = r.size := by simp
  rw [load_eq (h.store h w), store_eq h, Memory.read_write h.lies hl, Endian.arrange_arrange,
    Word.ofDigits_digits, ← h.size, Nat.mul_comm]

theorem store_load_eq_write (h : b.Spans r m) (hc : c.Spans s n) (hf : c.format = b.format) :
    c.store (b.load m) n = n.write s.start (m.read r) := by
  have hrs : s.size = r.size := by
    have h1 := hc.size
    have h2 := h.size
    rw [bits, hf] at h1
    rw [bits] at h2
    omega
  have hl : (b.format.order.loads.arrange (m.read r)).length = r.size := by
    rw [Endian.length_arrange, Memory.length_read_of_le h.lies]
  have hd := Word.digits_ofDigits (b.format.order.loads.arrange (m.read r))
    (by rw [hl]; exact h.size_le)
  rw [hl] at hd
  rw [store_eq hc, load_eq h, hrs, hd, hf, Endian.arrange_arrange]

theorem store_load (h : b.Spans r m) : b.store (b.load m) m = m := by
  rw [store_load_eq_write h h rfl, Memory.write_read]

theorem read_eq_read (h : b.Spans r m) (hc : c.Spans s n) (hf : c.format = b.format)
    (hl : c.load n = b.load m) : n.read s = m.read r := by
  have hsize : (m.read r).length = s.size := by
    have h1 := hc.size
    have h2 := h.size
    rw [bits, hf] at h1
    rw [bits] at h2
    rw [Memory.length_read_of_le h.lies]
    omega
  have hn : n = n.write s.start (m.read r) := by
    rw [← store_load_eq_write h hc hf, ← hl, store_load hc]
  rw [hn, Memory.read_write hc.lies hsize]

theorem mask_load (h : b.Spans r m) : (b.load m).mask b.bits = b.load m := by
  rw [← load_store h, store_load h]

theorem eq_store_load (h : b.Spans r m) (hl : n.length = m.length)
    (hg : ∀ a, a < r.start ∨ r.start + r.size ≤ a → n.get a = m.get a) :
    n = b.store (b.load n) m := by
  have hn := h.of_length hl
  rw [store_load_eq_write hn h rfl]
  apply Memory.ext_get
  · rw [Memory.length_write, hl]
  · intro a
    rw [Memory.get_write, Memory.length_read_of_le hn.lies]
    split
    · rename_i ha
      rw [Memory.getD_read _ _ (by omega), Nat.add_sub_cancel' ha.1]
    · rename_i ha
      by_cases hb : a < m.length
      · exact hg a (by omega)
      · simp only [Memory.get, List.getD_eq_getElem?_getD]
        rw [List.getElem?_eq_none (by omega), List.getElem?_eq_none (by omega)]

end Block

end Packed
