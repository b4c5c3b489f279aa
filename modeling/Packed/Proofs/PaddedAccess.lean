import Packed.Proofs.Buffer
import Packed.Proofs.GuardedAccess

namespace Packed

namespace Buffer

variable {b c : Buffer} {m m' : Memory} {n : Nat}

theorem read_eq_of_bytes (hc : c.ok = true) (hm : c.LiesIn m') {bs : List Byte}
    (hbs : c.bytes m' = bs) (e : Endian) :
    c.read e (8 * bs.length) m' = .ok (Word.ofDigits (e.arrange bs)) := by
  obtain ⟨r, hr⟩ := Option.isSome_iff_exists.1 hc
  have hread : m'.read r = bs := by rwa [bytes, hr, Option.elim_some] at hbs
  have hsize : r.size = bs.length := by rw [← hread, Memory.length_read_of_le (hm r hr)]
  have hx : c.exact (8 * bs.length) = .ok r := by
    rw [exact, hr]
    exact if_pos (by omega)
  rw [read, hx, Except.map, hread, AccessPath.load_eq]

theorem bytes_ofRegion_self {bs : List Byte} (h : bs.length = n) :
    (ofRegion ⟨0, n⟩).bytes bs = bs := by
  rw [bytes, ofRegion, Option.elim_some, Memory.read, List.drop_zero, ← h, List.take_length]

/-- Accesses without a check behave as over memory that goes on in zeros. A load gives what a
checked read gives over the first `n` bytes of the buffer, with zeros for those it lacks; a store
leaves the `n` bytes of the word, as many as the buffer has, and changes no other. Neither stops. -/
theorem unchecked_access_padded (hm : b.LiesIn m) (ht : b.TagHolds) (kind : StoreKind) (e : Endian)
    (hn : n ≤ 8) (w : Word) :
    (∃ v, b.guardedLoad kind e (8 * n) m = .ok v ∧ b.load e (8 * n) m = v ∧
      (ofRegion ⟨0, n⟩).read e (8 * n) (b.padded n m) = .ok v ∧
      ∀ (c : Buffer) (m' : Memory), c.ok = true → c.LiesIn m' → c.bytes m' = b.padded n m →
        c.read e (8 * n) m' = .ok v) ∧
      ∃ m', b.guardedStore e (8 * n) w m = .ok () m' ∧ b.store e (8 * n) w m = .ok () m' ∧
        b.Receives e n (w.toNat % 2 ^ (8 * n)) m m' := by
  have hlen := b.length_padded n m
  have hread : ∀ (c : Buffer) (m' : Memory), c.ok = true → c.LiesIn m' →
      c.bytes m' = b.padded n m → c.read e (8 * n) m' = .ok (b.load e (8 * n) m) := by
    intro c m' hc hm' hbs
    have h := read_eq_of_bytes hc hm' hbs e
    rwa [hlen, ← load_eq_padded hm hn] at h
  have hself : (ofRegion ⟨0, n⟩).LiesIn (b.padded n m) := by
    rintro r ⟨⟩
    rw [hlen, Nat.zero_add]
  have hstore := store_eq_put b e hn w m
  refine ⟨⟨_, guardedLoad_eq hm ht kind e _, rfl, ?_, hread⟩, _, ?_, hstore, ?_⟩
  · exact hread _ _ rfl hself (bytes_ofRegion_self hlen)
  · rw [guardedStore_eq ht, hstore]
  · exact receives_put hm e hn w

/-- Two bytes at the end of memory, taken for a word of 32 bits. A big endian load has them at its
upper end and a store leaves the upper two bytes of its word there. -/
theorem unchecked_access_padded_over_two_bytes :
    let b : Buffer := ⟨some ⟨2, 2⟩, ⟨2, 0⟩⟩
    let m : Memory := [1, 2, 3, 4]
    b.LiesIn m ∧ b.TagHolds ∧ b.padded 4 m = [3, 4, 0, 0] ∧
      b.guardedLoad .cells .big 32 m = .ok 0x03040000 ∧
      (ofRegion ⟨0, 4⟩).read .big 32 [3, 4, 0, 0] = .ok 0x03040000 ∧
      ∃ m', b.guardedStore .big 32 0xaabbccdd m = .ok () m' ∧
        m'.get 1 = 2 ∧ (m'.get 2).toNat = 0xaa ∧ (m'.get 3).toNat = 0xbb := by
  intro b m
  have hm : b.LiesIn m := by
    rintro r ⟨⟩
    decide
  have ht : b.TagHolds := by
    rintro r ⟨⟩ -
    decide
  obtain ⟨⟨v, hload, hv, hread, -⟩, m', hstore, -, hm'⟩ :=
    unchecked_access_padded (n := 4) hm ht .cells .big (by decide) 0xaabbccdd
  obtain rfl : v = 0x03040000 := hv.symm.trans (by decide)
  exact ⟨hm, ht, by decide, hload, hread, m', hstore, hm'.outside 1 (by decide),
    hm'.digit 0 2 (by decide) (by decide), hm'.digit 1 3 (by decide) (by decide)⟩

end Buffer

end Packed
