import Mathlib.Algebra.BigOperators.Intervals
import Mathlib.Algebra.BigOperators.Ring.Finset
import Packed.Proofs.Alignment
import Packed.Proofs.UncheckedAccess

namespace Packed

open Finset

namespace Word

theorem toNat_byte (w : Word) (i : Nat) : (w.byte i).toNat = w.toNat / 256 ^ i % 256 := by
  rw [byte, BitVec.toNat_setWidth, BitVec.toNat_ushiftRight, Nat.shiftRight_eq_div_pow, Nat.pow_mul]

theorem ofDigits_lt {bs : List Byte} (h : bs.length ≤ 8) :
    (ofDigits bs).toNat < 2 ^ (8 * bs.length) := by
  rw [← mask_eq_self_iff, ← ofDigits_digits, digits_ofDigits bs h]

theorem toNat_ofDigits {bs : List Byte} (h : bs.length ≤ 8) :
    (ofDigits bs).toNat = ∑ i ∈ range bs.length, (bs.getD i 0).toNat * 256 ^ i := by
  induction bs with
  | nil => rfl
  | cons b bs ih =>
      have hlen : bs.length ≤ 7 := Nat.le_of_succ_le_succ h
      have hlt : (ofDigits bs).toNat < 2 ^ (8 * bs.length) := ofDigits_lt (by omega)
      have hpow : 2 ^ (8 * bs.length) ≤ 2 ^ 56 := Nat.pow_le_pow_right (by decide) (by omega)
      have hb : (b.setWidth 64).toNat = b.toNat := by
        rw [BitVec.toNat_setWidth]
        have hb := b.isLt
        omega
      have hs : (ofDigits bs <<< 8).toNat = (ofDigits bs).toNat <<< 8 := by
        rw [BitVec.toNat_shiftLeft, Nat.shiftLeft_eq]
        exact Nat.mod_eq_of_lt (by omega)
      rw [ofDigits, BitVec.toNat_or, hb, hs, Nat.or_comm, ← Nat.shiftLeft_add_eq_or_of_lt b.isLt,
        Nat.shiftLeft_eq, ih (by omega), List.length_cons, sum_range_succ', sum_mul]
      congr 1
      · apply sum_congr rfl
        intro i _
        rw [List.getD_cons_succ, Nat.pow_succ]
        ring
      · simp

end Word

namespace Endian

theorem sum_place (e : Endian) (n : Nat) (f : Nat → Nat → Nat) :
    ∑ i ∈ range n, f (e.place n i) i = ∑ i ∈ range n, f i (e.place n i) := by
  cases e with
  | little => rfl
  | big =>
      rw [← sum_range_reflect]
      apply sum_congr rfl
      intro i hi
      have hlt := mem_range.1 hi
      rw [place, place, show n - 1 - (n - 1 - i) = i by omega]

end Endian

def Memory.number (m : Memory) (e : Endian) (r : Region) : Nat :=
  ∑ i ∈ range r.size, (m.get (r.start + i)).toNat * 256 ^ e.place r.size i

structure Memory.Holds (e : Endian) (value : Nat) (r : Region) (m n : Memory) : Prop where
  length : n.length = m.length
  digit : ∀ i, i < r.size →
    (n.get (r.start + i)).toNat = value / 256 ^ e.place r.size i % 256
  outside : ∀ a, a < r.start ∨ r.start + r.size ≤ a → n.get a = m.get a

theorem AccessPath.toNat_load_read (path : AccessPath) (e : Endian) {m : Memory} {r : Region}
    (hl : r.start + r.size ≤ m.length) (h8 : r.size ≤ 8) :
    (path.load e (m.read r)).toNat = m.number e r := by
  have hlen : (m.read r).length = r.size := Memory.length_read_of_le hl
  rw [load_eq, Word.toNat_ofDigits (by rw [Endian.length_arrange, hlen]; exact h8),
    Endian.length_arrange, hlen, Memory.number,
    ← e.sum_place r.size fun j i => (m.get (r.start + j)).toNat * 256 ^ i]
  apply sum_congr rfl
  intro i hi
  have hlt := mem_range.1 hi
  rw [Endian.getD_arrange e hlen hlt, Memory.getD_read m r (e.place_lt hlt)]

namespace Buffer

variable {b : Buffer} {r : Region} {m : Memory} {n : Nat}

/-- Memory `m'` is memory `m` with the base 256 digits of a value of `n` bytes in the first bytes of
the buffer, as many as the buffer has. -/
structure Receives (b : Buffer) (e : Endian) (n value : Nat) (m m' : Memory) : Prop where
  length : m'.length = m.length
  digit : ∀ i a, i < n → b.address? i = some a →
    (m'.get a).toNat = value / 256 ^ e.place n i % 256
  outside : ∀ a, (∀ i, i < n → b.address? i ≠ some a) → m'.get a = m.get a

structure Spans (b : Buffer) (r : Region) (m : Memory) : Prop where
  region : b.region = some r
  size : r.size ≤ 8
  lies : r.start + r.size ≤ m.length

theorem Spans.of_length {n : Memory} (h : b.Spans r m) (hl : n.length = m.length) : b.Spans r n :=
  ⟨h.region, h.size, by rw [hl]; exact h.lies⟩

theorem Spans.liesIn (h : b.Spans r m) : b.LiesIn m := by
  intro q hq
  rw [h.region] at hq
  cases hq
  exact h.lies

theorem Spans.exact (h : b.Spans r m) : b.exact (8 * r.size) = .ok r := by
  simp [Buffer.exact, h.region, Nat.mul_comm]

theorem Spans.load_eq (h : b.Spans r m) (path : AccessPath) (e : Endian) :
    path.load e (m.read r) = b.load e (8 * r.size) m := by
  apply BitVec.eq_of_toNat_eq
  rw [load, h.exact, AccessPath.toNat_load_read path e h.lies h.size]
  exact (AccessPath.toNat_load_read _ e h.lies h.size).symm

theorem Spans.toNat_load (h : b.Spans r m) (e : Endian) :
    (b.load e (8 * r.size) m).toNat = m.number e r := by
  rw [← h.load_eq .bytewise e, AccessPath.toNat_load_read _ e h.lies h.size]

theorem Spans.read_eq (h : b.Spans r m) (e : Endian) :
    b.read e (8 * r.size) m = .ok (b.load e (8 * r.size) m) := by
  rw [read, load, h.exact]
  rfl

theorem Spans.store_eq (h : b.Spans r m) (path : AccessPath) (e : Endian) (w : Word) :
    path.store m r.start r.size e w = b.put e (8 * r.size) w m := by
  rw [put, h.exact, AccessPath.store_eq path m r.start h.size]
  exact (AccessPath.store_eq _ m r.start h.size e w).symm

theorem Spans.write_eq (h : b.Spans r m) (e : Endian) (w : Word) :
    b.write e (8 * r.size) w m = .ok () (b.put e (8 * r.size) w m) := by
  rw [write, h.exact]
  exact store_eq_put b e h.size w m

theorem receives_put (hl : b.LiesIn m) (e : Endian) (hn : n ≤ 8) (w : Word) :
    b.Receives e n (w.toNat % 2 ^ (8 * n)) m (b.put e (8 * n) w m) := by
  refine ⟨length_put b e _ w m, fun i a hi ha => ?_, fun a ha => ?_⟩
  · have hplace := e.place_lt hi
    have hget : (b.put e (8 * n) w m).get a = w.byte (e.place n i) := by
      apply get_put hl w
      · rwa [span_eq hn]
      · rwa [places_eq b hn, e.place_place hi]
    rw [hget, ← Word.byte_mask hplace, Word.toNat_byte, Word.toNat_mask]
  · refine get_put_of_ne e _ w m fun i hi => ?_
    rw [span_eq hn] at hi
    rw [places_eq b hn]
    exact ha _ (e.place_lt hi)

theorem Spans.holds_put (h : b.Spans r m) (e : Endian) (w : Word) :
    Memory.Holds e (w.toNat % 2 ^ (8 * r.size)) r m (b.put e (8 * r.size) w m) := by
  have hput := receives_put h.liesIn e h.size w
  refine ⟨hput.length, fun i hi => ?_, fun a ha => hput.outside a fun i hi hia => ?_⟩
  · exact hput.digit i _ hi (address?_eq_some.2 ⟨r, h.region, hi, rfl⟩)
  · obtain ⟨q, hq, hlt, rfl⟩ := address?_eq_some.1 hia
    rw [h.region] at hq
    cases hq
    omega

theorem Spans.load_put (h : b.Spans r m) (e : Endian) (w : Word) :
    b.load e (8 * r.size) (b.put e (8 * r.size) w m) = w.mask (8 * r.size) := by
  apply BitVec.eq_of_getLsbD_eq
  intro k _
  rw [getLsbD_load_put h.liesIn h.size, Word.getLsbD_mask]
  by_cases hk : k < 8 * r.size
  · have haddr : b.address? (e.place r.size (k / 8)) = some (r.start + e.place r.size (k / 8)) :=
      address?_eq_some.2 ⟨r, h.region, e.place_lt (by omega), rfl⟩
    simp [hk, haddr]
  · simp [hk]

theorem Spans.load_reverse (h : b.Spans r m) :
    b.load .big (8 * r.size) (m.write r.start (m.read r).reverse) =
      b.load .little (8 * r.size) m := by
  have hlen : (m.read r).reverse.length = r.size := by
    rw [List.length_reverse, Memory.length_read_of_le h.lies]
  have h' : b.Spans r (m.write r.start (m.read r).reverse) :=
    h.of_length (Memory.length_write _ _ _)
  rw [← h'.load_eq .bytewise, ← h.load_eq .bytewise, Memory.read_write h.lies hlen,
    AccessPath.load_eq, AccessPath.load_eq, Endian.arrange, Endian.arrange, List.reverse_reverse]

/-- Reads of exactly a region: whatever the path, they give the number that its bytes write, and the
path that is selected may be taken there. -/
structure ReadsWord (b : Buffer) (e : Endian) (r : Region) (m : Memory) : Prop where
  permitted : (b.path (8 * r.size)).Permits r.start
  checked : b.read e (8 * r.size) m = .ok (b.load e (8 * r.size) m)
  number : (b.load e (8 * r.size) m).toNat = m.number e r
  paths : ∀ path : AccessPath, path.load e (m.read r) = b.load e (8 * r.size) m

/-- Writes of exactly a region take memory `m` to memory `n`, whatever the path: `n` holds the digits
of the word there, as many as there are bytes, and is `m` elsewhere. -/
structure WritesWord (b : Buffer) (e : Endian) (w : Word) (r : Region) (m n : Memory) : Prop where
  checked : b.write e (8 * r.size) w m = .ok () n
  unchecked : b.store e (8 * r.size) w m = .ok () n
  paths : ∀ path : AccessPath, path.store m r.start r.size e w = n
  holds : Memory.Holds e (w.toNat % 2 ^ (8 * r.size)) r m n

theorem Spans.readsWord (h : b.Spans r m) (ht : b.tag.holds r.start = true) (e : Endian) :
    b.ReadsWord e r m :=
  ⟨AccessPath.permits_select ht _, h.read_eq e, h.toNat_load e, fun path => h.load_eq path e⟩

theorem Spans.writesWord (h : b.Spans r m) (e : Endian) (w : Word) :
    b.WritesWord e w r m (b.put e (8 * r.size) w m) :=
  ⟨h.write_eq e w, store_eq_put b e h.size w m, fun path => h.store_eq path e w, h.holds_put e w⟩

/-- The access path never changes the result. Over a buffer of exactly `n` bytes whose tag is true
of its address, reads give the number that the bytes write in base 256 and writes leave the digits
of the word, checked or not and along any path; a read after a write gives the word's low bytes, and
big endian reads of the bytes in reverse are little endian reads. Over a buffer of any other size, or
over none, the checked accesses stop and change nothing. -/
theorem access_path_irrelevant (b : Buffer) (e : Endian) (hn : n ≤ 8) (w : Word) (hm : b.LiesIn m)
    (ht : ∀ r, b.region = some r → b.tag.holds r.start = true) :
    (∀ r, b.region = some r → r.size = n →
      b.ReadsWord e r m ∧
      (∃ m', b.WritesWord e w r m m' ∧ b.ReadsWord e r m' ∧
        m'.number e r = w.toNat % 2 ^ (8 * n)) ∧
      b.read .big (8 * n) (m.write r.start (m.read r).reverse) = b.read .little (8 * n) m ∧
      b.load .big (8 * n) (m.write r.start (m.read r).reverse) = b.load .little (8 * n) m) ∧
    (∀ r, b.region = some r → r.size ≠ n →
      b.read e (8 * n) m = .error (.widthMismatch (8 * n) r.size) ∧
      b.write e (8 * n) w m = .error (.widthMismatch (8 * n) r.size) m) ∧
    (b.region = none →
      b.read e (8 * n) m = .error (.nullAccess (8 * n)) ∧
      b.write e (8 * n) w m = .error (.nullAccess (8 * n)) m) := by
  refine ⟨?_, ?_, ?_⟩
  · rintro r hr rfl
    have h : b.Spans r m := ⟨hr, hn, hm r hr⟩
    have hput : b.Spans r (b.put e (8 * r.size) w m) := h.of_length (length_put b e _ w m)
    have hrev : b.Spans r (m.write r.start (m.read r).reverse) :=
      h.of_length (Memory.length_write _ _ _)
    refine ⟨h.readsWord (ht r hr) e,
      ⟨_, h.writesWord e w, hput.readsWord (ht r hr) e, ?_⟩, ?_, h.load_reverse⟩
    · rw [← hput.toNat_load e, h.load_put e w, Word.toNat_mask]
    · rw [hrev.read_eq, h.read_eq, h.load_reverse]
  · intro r hr hne
    have hx : b.exact (8 * n) = .error (.widthMismatch (8 * n) r.size) := by
      simp only [Buffer.exact, hr]
      exact if_neg (by omega)
    exact ⟨by rw [read, hx]; rfl, by rw [write, hx]⟩
  · intro hr
    have hx : b.exact (8 * n) = .error (.nullAccess (8 * n)) := by simp only [Buffer.exact, hr]
    exact ⟨by rw [read, hx]; rfl, by rw [write, hx]⟩

/-- Four bytes in the middle of eight that start four past a multiple of eight: they are moved at
once along the aligned path. -/
theorem access_path_irrelevant_in_four_bytes :
    let b : Buffer := ⟨some ⟨4, 4⟩, ⟨8, 4⟩⟩
    let m : Memory := [0, 0, 0, 0, 0x12, 0x34, 0x56, 0x78, 0]
    b.LiesIn m ∧ b.tag.holds 4 = true ∧ b.path 32 = .aligned 4 ∧
      b.ReadsWord .big ⟨4, 4⟩ m ∧ m.number .big ⟨4, 4⟩ = 0x12345678 ∧
      (∃ m', b.WritesWord .big 0xaabbccddee ⟨4, 4⟩ m m' ∧ m'.number .big ⟨4, 4⟩ = 0xbbccddee) ∧
      b.read .big 24 m = .error (.widthMismatch 24 4) := by
  intro b m
  have hlies : b.LiesIn m := by
    rintro r ⟨⟩
    decide
  have htag : ∀ r, b.region = some r → b.tag.holds r.start = true := by
    rintro r ⟨⟩
    decide
  have hpath : b.path 32 = .aligned 4 := by
    simp [b, path, AccessPath.select, AccessPath.downgrade, isPowerOfTwo]
  obtain ⟨hexact, -⟩ := access_path_irrelevant (n := 4) b .big (by decide) 0xaabbccddee hlies htag
  obtain ⟨hread, ⟨m', hwrite, -, hnumber⟩, -⟩ := hexact _ rfl rfl
  obtain ⟨-, hother, -⟩ := access_path_irrelevant (n := 3) b .big (by decide) 0 hlies htag
  exact ⟨hlies, by decide, hpath, hread, by decide, ⟨m', hwrite, hnumber⟩,
    (hother _ rfl (by decide)).1⟩

end Buffer

end Packed
