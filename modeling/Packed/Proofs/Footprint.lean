import Packed.Proofs.Field
import Packed.Proofs.UncheckedAccess

namespace Packed

namespace Memory

/-- Bits of memory are counted through its bytes, eight to a byte. -/
def bit (m : Memory) (p : Nat) : Bool := (m.get (p / 8)).getLsbD (p % 8)

theorem bit_byte (m : Memory) (a : Nat) {c : Nat} (hc : c < 8) :
    m.bit (8 * a + c) = (m.get a).getLsbD c := by
  rw [bit, show (8 * a + c) / 8 = a by omega, show (8 * a + c) % 8 = c by omega]

def single (size p : Nat) : Memory :=
  (List.replicate size 0).set (p / 8) (BitVec.twoPow 8 (p % 8))

@[simp] theorem length_single (size p : Nat) : (single size p).length = size := by simp [single]

theorem bit_single {size p : Nat} (hp : p / 8 < size) (q : Nat) :
    (single size p).bit q = decide (q = p) := by
  have h0 : get (List.replicate size 0) (q / 8) = 0#8 := by
    rw [get, List.getD_eq_getElem?_getD, List.getElem?_replicate]
    split <;> rfl
  rw [bit, single, get_set, List.length_replicate]
  split
  · rename_i h
    rw [BitVec.getLsbD_twoPow]
    have hm : p % 8 < 8 := Nat.mod_lt _ (by decide)
    simp only [hm, decide_true, Bool.true_and, decide_eq_decide]
    omega
  · rename_i h
    rw [h0, BitVec.getLsbD_zero, eq_comm, decide_eq_false_iff_not]
    omega

theorem get_eq_of_bit {m n : Memory} {a : Nat}
    (h : ∀ c, c < 8 → m.bit (8 * a + c) = n.bit (8 * a + c)) : m.get a = n.get a := by
  apply BitVec.eq_of_getLsbD_eq
  intro c hc
  rw [← bit_byte m a hc, ← bit_byte n a hc, h c hc]

end Memory

namespace Block

variable {b : Block} {r : Region} {m : Memory} {k l p : Nat}

def start (b : Block) : Nat := b.buffer.region.elim 0 (·.start)

def place (b : Block) (k : Nat) : Nat :=
  8 * (b.start + b.format.order.loads.place (b.bits / 8) (k / 8)) + k % 8

theorem Spans.start_eq (h : b.Spans r m) : b.start = r.start := by
  rw [start, h.region, Option.elim_some]

theorem place_div (b : Block) (k : Nat) :
    b.place k / 8 = b.start + b.format.order.loads.place (b.bits / 8) (k / 8) := by
  rw [place]
  omega

theorem place_mod (b : Block) (k : Nat) : b.place k % 8 = k % 8 := by
  rw [place]
  omega

theorem place_inj (hk : k < b.bits) (hl : l < b.bits) (h : b.place k = b.place l) : k = l := by
  obtain ⟨n, -, hb⟩ := b.exists_bytes
  have hn : b.bits / 8 = n := by omega
  have hdiv := b.place_div k
  rw [h, place_div, hn] at hdiv
  have hmod := b.place_mod k
  rw [h, place_mod] at hmod
  have hplace : b.format.order.loads.place n (k / 8) = b.format.order.loads.place n (l / 8) := by
    omega
  have hkl : k / 8 = l / 8 := by
    rw [← b.format.order.loads.place_place (show k / 8 < n by omega), hplace,
      Endian.place_place _ (by omega)]
  omega

theorem place_mem (h : b.Spans r m) (hk : k < b.bits) :
    r.start ≤ b.place k / 8 ∧ b.place k / 8 < r.start + r.size := by
  obtain ⟨n, -, hb⟩ := b.exists_bytes
  have hlt := b.format.order.loads.place_lt (show k / 8 < b.bits / 8 by omega)
  have hs := h.size
  rw [place_div, h.start_eq]
  omega

theorem exists_place (h : b.Spans r m) (hp : r.start ≤ p / 8) (hp' : p / 8 < r.start + r.size) :
    ∃ k, k < b.bits ∧ b.place k = p := by
  have hs := h.size
  have hn : b.bits / 8 = r.size := by omega
  have hi : p / 8 - r.start < r.size := by omega
  have hlt := b.format.order.loads.place_lt hi
  refine ⟨8 * b.format.order.loads.place r.size (p / 8 - r.start) + p % 8, by omega, ?_⟩
  have hdiv : (8 * b.format.order.loads.place r.size (p / 8 - r.start) + p % 8) / 8 =
      b.format.order.loads.place r.size (p / 8 - r.start) := by omega
  rw [place, hdiv, hn, Endian.place_place _ hi, h.start_eq]
  omega

theorem getLsbD_load (h : b.Spans r m) (hk : k < b.bits) :
    (b.load m).getLsbD k = m.bit (b.place k) := by
  obtain ⟨n, hn, hb⟩ := b.exists_bytes
  have hs := h.size
  have hn' : b.bits / 8 = n := by omega
  have hlt := b.format.order.loads.place_lt (show k / 8 < n by omega)
  have haddr : b.buffer.address? (b.format.order.loads.place n (k / 8)) =
      some (b.start + b.format.order.loads.place n (k / 8)) :=
    Buffer.address?_eq_some.2 ⟨r, h.region, by omega, by rw [h.start_eq]⟩
  have hl : b.buffer.LiesIn m := by
    intro r' hr'
    rw [h.region] at hr'
    cases hr'
    exact h.lies
  rw [Memory.bit, place_div, place_mod, hn', load, hb, Buffer.getLsbD_load hl hn, haddr]
  simp [← hb, hk]

end Block

namespace BitStorage

variable {s t : BitStorage} {r q : Region} {m n : Memory} {k p : Nat}

/-- The bit of memory in which bit `k` of the storage lies. -/
def place (s : BitStorage) (k : Nat) : Nat := s.base.place (s.offset + k)

def Disjoint (s t : BitStorage) : Prop :=
  ∀ k l, k < s.size → l < t.size → s.place k ≠ t.place l

theorem Spans.offset_add_lt (h : s.Spans r m) (hk : k < s.size) : s.offset + k < s.base.bits := by
  cases s with
  | block b => exact (Nat.zero_add k).symm ▸ hk
  | window w =>
      have hw : w.offset.toNat + w.size.toNat ≤ w.block.bits := h.within
      have hk' : k < w.size.toNat := hk
      exact (show w.offset.toNat + k < w.block.bits by omega)

theorem place_inj (h : s.Spans r m) {l : Nat} (hk : k < s.size) (hl : l < s.size)
    (he : s.place k = s.place l) : k = l := by
  have hb := Block.place_inj (h.offset_add_lt hk) (h.offset_add_lt hl) he
  omega

theorem getLsbD_load (h : s.Spans r m) (hk : k < s.size) :
    (s.load m).getLsbD k = m.bit (s.place k) := by
  rw [place, ← Block.getLsbD_load h.base (h.offset_add_lt hk)]
  cases s with
  | block b => simp only [load, base, offset, Nat.zero_add]
  | window w =>
      have hk' : k < w.size.toNat := hk
      simp only [load, base, offset, Window.getLsbD_load, hk', decide_true, Bool.true_and]

theorem place_mem (h : s.Spans r m) (hk : k < s.size) :
    r.start ≤ s.place k / 8 ∧ s.place k / 8 < r.start + r.size :=
  Block.place_mem h.base (h.offset_add_lt hk)

theorem place_lt (h : s.Spans r m) (hk : k < s.size) : s.place k / 8 < m.length :=
  Nat.lt_of_lt_of_le (place_mem h hk).2 h.base.lies

theorem bit_store_of_ne (h : s.Spans r m) (v : Word) (hp : ∀ k, k < s.size → s.place k ≠ p) :
    (s.store v m).bit p = m.bit p := by
  by_cases hr : r.start ≤ p / 8 ∧ p / 8 < r.start + r.size
  · obtain ⟨j, hj, rfl⟩ := Block.exists_place h.base hr.1 hr.2
    have hn := h.of_length (length_store h v)
    rw [← Block.getLsbD_load h.base hj, ← Block.getLsbD_load hn.base hj]
    cases s with
    | block b =>
        refine absurd ?_ (hp j hj)
        simp only [place, base, offset, Nat.zero_add]
    | window w =>
        have hc : ¬ w.Covers j := by
          rintro ⟨h1, h2⟩
          refine hp (j - w.offset.toNat) ?_ ?_
          · simp only [size]
            omega
          · simp only [place, base, offset, Nat.add_sub_cancel' h1]
        have hstore := Window.getLsbD_block_load_store h.base v hj
        rwa [if_neg hc] at hstore
  · rw [Memory.bit, Memory.bit, get_store_of_outside h v (by omega)]

theorem bit_store (h : s.Spans r m) (v : Word) (hk : k < s.size) :
    (s.store v m).bit (s.place k) = v.getLsbD k := by
  rw [← getLsbD_load (h.of_length (length_store h v)) hk, load_store h, Word.getLsbD_mask]
  simp [hk]

theorem load_eq_zero (h : s.Spans r m) (hb : ∀ k, k < s.size → m.bit (s.place k) = false) :
    s.load m = 0 := by
  rw [← mask_load h]
  apply BitVec.eq_of_getLsbD_eq
  intro k _
  change _ = (0#64).getLsbD k
  rw [Word.getLsbD_mask, BitVec.getLsbD_zero]
  by_cases hk : k < s.size
  · rw [getLsbD_load h hk, hb k hk, Bool.and_false]
  · simp [hk]

theorem load_congr (h : s.Spans r m) (hl : n.length = m.length)
    (hb : ∀ k, k < s.size → n.bit (s.place k) = m.bit (s.place k)) : s.load n = s.load m := by
  have hn := h.of_length hl
  rw [← mask_load h, ← mask_load hn]
  apply BitVec.eq_of_getLsbD_eq
  intro k _
  rw [Word.getLsbD_mask, Word.getLsbD_mask]
  by_cases hk : k < s.size
  · rw [getLsbD_load h hk, getLsbD_load hn hk, hb k hk]
  · simp [hk]

theorem load_store_of_disjoint (hs : s.Spans r m) (ht : t.Spans q m) (hd : s.Disjoint t)
    (v : Word) : t.load (s.store v m) = t.load m :=
  load_congr ht (length_store hs v) fun l hl =>
    bit_store_of_ne hs v fun k hk => hd k l hk hl

end BitStorage

end Packed
