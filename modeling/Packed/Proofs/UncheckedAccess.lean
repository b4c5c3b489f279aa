import Mathlib.Data.List.Basic
import Packed.Proofs.Window

namespace Packed

namespace Buffer

variable {b : Buffer} {m : Memory} {e : Endian} {n : Nat}

def address? (b : Buffer) (i : Nat) : Option Nat :=
  b.region.bind fun r => if i < r.size then some (r.start + i) else none

theorem address?_eq_some {i a : Nat} : b.address? i = some a ↔
    ∃ r, b.region = some r ∧ i < r.size ∧ r.start + i = a := by
  cases hr : b.region with
  | none => simp [address?, hr]
  | some r => simp [address?, hr]

theorem address?_inj {i j a : Nat} (hi : b.address? i = some a) (hj : b.address? j = some a) :
    i = j := by
  obtain ⟨r, hr, -, ha⟩ := address?_eq_some.1 hi
  obtain ⟨r', hr', -, ha'⟩ := address?_eq_some.1 hj
  obtain rfl := Option.some.inj (hr.symm.trans hr')
  omega

theorem null_of_exact_eq_error {bits : Nat} {fault : Fault} (hx : b.exact bits = .error fault)
    (hs : b.size * 8 = bits) : b.region = none ∧ bits = 0 := by
  cases hr : b.region with
  | none =>
      rw [size_of_null hr] at hs
      exact ⟨rfl, by omega⟩
  | some r =>
      rw [size_of_region hr] at hs
      rw [exact, hr] at hx
      simp only [if_pos hs] at hx
      cases hx

theorem span_eq (hn : n ≤ 8) : span (8 * n) = n := by
  rw [span]
  omega

def padded (b : Buffer) (n : Nat) (m : Memory) : List Byte :=
  (b.bytes m).take n ++ List.replicate (n - ((b.bytes m).take n).length) 0

theorem length_padded (b : Buffer) (n : Nat) (m : Memory) : (b.padded n m).length = n := by
  simp only [padded, List.length_append, List.length_replicate, List.length_take]
  omega

theorem getD_padded (b : Buffer) (m : Memory) {i : Nat} (h : i < n) :
    (b.padded n m).getD i 0 = (b.address? i).elim 0 m.get := by
  have hp : (b.padded n m).getD i 0 = (b.bytes m).getD i 0 := by
    simp only [padded, List.getD_eq_getElem?_getD, List.getElem?_append, List.length_take,
      List.getElem?_take, List.getElem?_replicate, h]
    by_cases hl : i < (b.bytes m).length
    · simp [h, hl]
    · have hi : i - min n (b.bytes m).length < n - min n (b.bytes m).length := by omega
      simp [hl, hi]
  rw [hp]
  cases hr : b.region with
  | none => simp [bytes, address?, hr]
  | some r =>
      by_cases hi : i < r.size
      · simp only [bytes, address?, hr, Option.elim, Option.bind_some, if_pos hi]
        exact Memory.getD_read m r hi
      · have hlen : (m.read r).length ≤ i := by rw [Memory.length_read]; omega
        simp only [bytes, address?, hr, Option.elim, Option.bind_some, if_neg hi]
        rw [List.getD_eq_getElem?_getD, List.getElem?_eq_none hlen, Option.getD_none]

theorem load_eq_padded (hl : b.LiesIn m) (hn : n ≤ 8) :
    b.load e (8 * n) m = Word.ofDigits (e.arrange (b.padded n m)) := by
  rw [load]
  cases hx : b.exact (8 * n) with
  | ok r =>
      obtain ⟨hr, hs⟩ := exact_eq_ok hx
      have hlen : (m.read r).length = n := by
        rw [Memory.length_read_of_le (hl r hr)]
        omega
      have hp : b.padded n m = m.read r := by
        rw [padded, bytes, hr, Option.elim_some, List.take_of_length_le (by omega), hlen]
        simp
      rw [hp]
      exact AccessPath.load_eq _ e _
  | error fault =>
      simp only [loadPadded, span_eq hn]
      exact AccessPath.loadBytewise_eq e _

theorem getLsbD_load (hl : b.LiesIn m) (hn : n ≤ 8) (k : Nat) :
    (b.load e (8 * n) m).getLsbD k = (decide (k < 8 * n) &&
      (b.address? (e.place n (k / 8))).elim false fun a => (m.get a).getLsbD (k % 8)) := by
  rw [load_eq_padded hl hn, Word.getLsbD_ofDigits]
  by_cases hk : k < 8 * n
  · have hi : k / 8 < n := by omega
    have h64 : k < 64 := by omega
    rw [Endian.getD_arrange e (length_padded b n m) hi, getD_padded b m (e.place_lt hi)]
    cases b.address? (e.place n (k / 8)) <;> simp [hk, h64]
  · have hlen : ¬ k / 8 < (e.arrange (b.padded n m)).length := by
      rw [Endian.length_arrange, length_padded]
      omega
    rw [List.getD_eq_getElem?_getD, List.getElem?_eq_none (by omega)]
    simp [hk]

def putAll (address : Nat → Option Nat) (byte : Nat → Byte) (k : Nat) (m : Memory) : Memory :=
  (List.range k).foldl (fun m i => (address i).elim m fun a => m.set a (byte i)) m

section

variable {address : Nat → Option Nat} {byte : Nat → Byte} {k a : Nat}

theorem putAll_succ (address : Nat → Option Nat) (byte : Nat → Byte) (k : Nat) (m : Memory) :
    putAll address byte (k + 1) m =
      (address k).elim (putAll address byte k m) fun a =>
        (putAll address byte k m).set a (byte k) := by
  rw [putAll, List.range_succ, List.foldl_append]
  rfl

theorem length_putAll (address : Nat → Option Nat) (byte : Nat → Byte) (k : Nat) (m : Memory) :
    (putAll address byte k m).length = m.length := by
  induction k with
  | zero => rfl
  | succ k ih =>
      rw [putAll_succ]
      cases address k with
      | none => exact ih
      | some a => rw [Option.elim_some, List.length_set, ih]

theorem get_putAll_of_ne (h : ∀ i, i < k → address i ≠ some a) :
    (putAll address byte k m).get a = m.get a := by
  induction k with
  | zero => rfl
  | succ k ih =>
      have hk := h k (Nat.lt_succ_self k)
      rw [putAll_succ]
      cases hc : address k with
      | none => exact ih fun i hi => h i (Nat.lt_succ_of_lt hi)
      | some c =>
          have hne : a ≠ c := by
            rintro rfl
            exact hk hc
          rw [Option.elim_some, Memory.get_set, if_neg fun hac => hne hac.1]
          exact ih fun i hi => h i (Nat.lt_succ_of_lt hi)

theorem get_putAll {i : Nat} (hi : i < k) (ha : address i = some a) (hm : a < m.length)
    (hinj : ∀ j, j < k → address j = some a → j = i) :
    (putAll address byte k m).get a = byte i := by
  induction k with
  | zero => exact absurd hi (Nat.not_lt_zero i)
  | succ k ih =>
      rw [putAll_succ]
      by_cases hk : i = k
      · subst hk
        rw [ha, Option.elim_some, Memory.get_set, length_putAll, if_pos ⟨rfl, hm⟩]
      · have hlt : i < k := by omega
        have hrest := ih hlt fun j hj => hinj j (Nat.lt_succ_of_lt hj)
        cases hc : address k with
        | none => exact hrest
        | some c =>
            have hne : a ≠ c := by
              rintro rfl
              exact hk (hinj k (Nat.lt_succ_self k) hc).symm
            rw [Option.elim_some, Memory.get_set, if_neg fun hac => hne hac.1]
            exact hrest

end

/-- The bytes among which a store places those of a word: all of a buffer of the word's size, else
as many as the word spans. -/
def places (b : Buffer) (bits : Nat) : Nat :=
  if b.size * 8 = bits then b.size else span bits

theorem span_le_places (b : Buffer) (bits : Nat) : span bits ≤ b.places bits := by
  rw [places, span]
  split <;> omega

theorem places_eq (b : Buffer) (hn : n ≤ 8) : b.places (8 * n) = n := by
  rw [places, span_eq hn]
  split <;> omega

theorem storePadded_eq (b : Buffer) (e : Endian) (bits : Nat) (w : Word) (m : Memory) :
    b.storePadded e bits w m =
      putAll (fun i => b.address? (e.place (span bits) i)) w.byte (span bits) m := by
  rw [storePadded]
  cases hr : b.region with
  | none =>
      apply Memory.ext_get (length_putAll _ _ _ m).symm
      intro a
      refine (get_putAll_of_ne fun i _ ha => ?_).symm
      rw [address?, hr] at ha
      cases ha
  | some r =>
      simp only [putAll, address?, hr, Option.bind_some]
      congr 1
      funext m i
      split <;> rfl

theorem storeBytewise_eq_putAll {r : Region} (hr : b.region = some r) (e : Endian) (w : Word)
    (m : Memory) : AccessPath.storeBytewise m r.start r.size e w =
      putAll (fun i => b.address? (e.place r.size i)) w.byte (min r.size 8) m := by
  rw [AccessPath.storeBytewise, putAll]
  apply List.foldl_ext
  intro m i hi
  have hlt : i < r.size := Nat.lt_of_lt_of_le (List.mem_range.1 hi) (Nat.min_le_left _ _)
  rw [address?_eq_some.2 ⟨r, hr, e.place_lt hlt, rfl⟩, Option.elim_some]

theorem put_eq_putAll (b : Buffer) (e : Endian) (bits : Nat) (w : Word) (m : Memory) :
    b.put e bits w m =
      putAll (fun i => b.address? (e.place (b.places bits) i)) w.byte (span bits) m := by
  rw [put]
  cases hx : b.exact bits with
  | ok r =>
      obtain ⟨hr, hs⟩ := exact_eq_ok hx
      have hplaces : b.places bits = r.size := by rw [places, size_of_region hr, if_pos hs]
      have hspan : span bits = min r.size 8 := by rw [span]; omega
      rw [hplaces, hspan, ← storeBytewise_eq_putAll hr]
      exact AccessPath.store_eq_storeBytewise _ m r.start r.size e w
  | error fault =>
      have hplaces : b.places bits = span bits := by
        rw [places]
        split
        · rename_i hs
          obtain ⟨hr, rfl⟩ := null_of_exact_eq_error hx hs
          rw [size_of_null hr]
          rfl
        · rfl
      rw [hplaces]
      exact storePadded_eq b e bits w m

theorem length_put (b : Buffer) (e : Endian) (bits : Nat) (w : Word) (m : Memory) :
    (b.put e bits w m).length = m.length := by
  rw [put_eq_putAll, length_putAll]

theorem get_put_of_ne (e : Endian) (bits : Nat) (w : Word) (m : Memory) {a : Nat}
    (h : ∀ i, i < span bits → b.address? (e.place (b.places bits) i) ≠ some a) :
    (b.put e bits w m).get a = m.get a := by
  rw [put_eq_putAll]
  exact get_putAll_of_ne h

theorem get_put (hl : b.LiesIn m) (w : Word) {bits i a : Nat} (hi : i < span bits)
    (ha : b.address? (e.place (b.places bits) i) = some a) :
    (b.put e bits w m).get a = w.byte i := by
  have hle := span_le_places b bits
  rw [put_eq_putAll]
  apply get_putAll hi ha
  · obtain ⟨r, hr, hlt, rfl⟩ := address?_eq_some.1 ha
    have hb := hl r hr
    omega
  · intro j hj hja
    have hp := address?_inj hja ha
    rw [← e.place_place (Nat.lt_of_lt_of_le hj hle), hp,
      e.place_place (Nat.lt_of_lt_of_le hi hle)]

theorem getLsbD_load_put (hl : b.LiesIn m) (hn : n ≤ 8) (w : Word) (k : Nat) :
    (b.load e (8 * n) (b.put e (8 * n) w m)).getLsbD k = (decide (k < 8 * n) &&
      ((b.address? (e.place n (k / 8))).isSome && w.getLsbD k)) := by
  rw [getLsbD_load (hl.of_length (length_put b e _ w m)) hn]
  by_cases hk : k < 8 * n
  · have hspan : k / 8 < span (8 * n) := by rw [span_eq hn]; omega
    cases ha : b.address? (e.place n (k / 8)) with
    | none => simp
    | some a =>
        have hmod : k % 8 < 8 := Nat.mod_lt k (by decide)
        have hdm : 8 * (k / 8) + k % 8 = k := Nat.div_add_mod k 8
        rw [Option.elim_some, get_put hl w hspan (by rw [places_eq b hn, ha]), Word.getLsbD_byte, hdm]
        simp [hmod]
  · simp [hk]

theorem store_eq_put (b : Buffer) (e : Endian) (hn : n ≤ 8) (w : Word) (m : Memory) :
    b.store e (8 * n) w m = .ok () (b.put e (8 * n) w m) := by
  rw [store, if_neg (by omega)]

end Buffer

namespace Block

variable {b : Block} {m : Memory}

theorem exists_bytes (b : Block) : ∃ n, n ≤ 8 ∧ b.bits = 8 * n := by
  have hle : b.bits ≤ 64 := b.format.bits_le
  have hmod : b.bits % 8 = 0 := b.format.bits_mod
  exact ⟨b.bits / 8, by omega, by omega⟩

/-- The buffer has the byte in which bit `k` of the block lies. -/
def holds (b : Block) (k : Nat) : Bool :=
  decide (k < b.bits) &&
    (b.buffer.address? (b.format.order.loads.place (b.bits / 8) (k / 8))).isSome

theorem store_eq_put (b : Block) (w : Word) (m : Memory) :
    b.store w m = b.buffer.put b.format.order.loads b.bits w m := by
  obtain ⟨n, hn, hb⟩ := b.exists_bytes
  cases ho : b.format.order with
  | little | big => rw [store, ho]; rfl
  | single =>
      have h8 : b.bits = 8 := b.format.bits_single ho
      rw [store, ho, hb, Buffer.put_eq_putAll, Buffer.put_eq_putAll, Buffer.places_eq _ hn,
        Buffer.span_eq hn]
      apply List.foldl_ext
      intro m i hi
      have hplace : ∀ e : Endian, e.place n i = 0 := by
        intro e
        have hi' := e.place_lt (List.mem_range.1 hi)
        omega
      simp only [hplace]

theorem getLsbD_load_of_not_holds (hl : b.buffer.LiesIn m) {k : Nat} (h : b.holds k = false) :
    (b.load m).getLsbD k = false := by
  obtain ⟨n, hn, hb⟩ := b.exists_bytes
  have hdiv : b.bits / 8 = n := by omega
  rw [holds, hdiv, hb] at h
  rw [load, hb, Buffer.getLsbD_load hl hn]
  by_cases hk : k < 8 * n
  · cases ha : b.buffer.address? (b.format.order.loads.place n (k / 8)) with
    | none => simp
    | some a => simp [hk, ha] at h
  · simp [hk]

theorem getLsbD_load_store (hl : b.buffer.LiesIn m) (w : Word) (k : Nat) :
    (b.load (b.store w m)).getLsbD k = (b.holds k && w.getLsbD k) := by
  obtain ⟨n, hn, hb⟩ := b.exists_bytes
  have hdiv : b.bits / 8 = n := by omega
  rw [store_eq_put, load, holds, hdiv, hb, Buffer.getLsbD_load_put hl hn, Bool.and_assoc]

theorem get_store_of_ne (w : Word) (m : Memory) {a : Nat}
    (h : ∀ i, i < b.bits / 8 → b.buffer.address? i ≠ some a) : (b.store w m).get a = m.get a := by
  obtain ⟨n, hn, hb⟩ := b.exists_bytes
  have hdiv : b.bits / 8 = n := by omega
  rw [store_eq_put, hb]
  refine Buffer.get_put_of_ne _ _ w m fun i hi => h _ ?_
  rw [Buffer.span_eq hn] at hi
  rw [Buffer.places_eq _ hn, hdiv]
  exact Endian.place_lt _ hi

theorem buffer_store_eq (b : Block) (w : Word) (m : Memory) :
    b.buffer.store b.format.order.stores b.bits w m = .ok () (b.store w m) := by
  obtain ⟨n, hn, hb⟩ := b.exists_bytes
  rw [store, hb]
  exact Buffer.store_eq_put _ _ hn w m

end Block

namespace Window

variable {b : Block} {m : Memory}

theorem offset_ofBlock (b : Block) (offset size : Nat) :
    (ofBlock b offset size).offset.toNat = offset % 256 := by
  rw [ofBlock, BitVec.toNat_ofNat]

theorem size_ofBlock (b : Block) (offset size : Nat) :
    (ofBlock b offset size).size.toNat = size % 256 := by
  rw [ofBlock, BitVec.toNat_ofNat]

theorem toNat_load (w : Window) (m : Memory) : (w.load m).toNat =
    (w.block.load m).toNat / 2 ^ w.offset.toNat % 2 ^ w.size.toNat := by
  rw [load, Word.toNat_mask, BitVec.toNat_ushiftRight, Nat.shiftRight_eq_div_pow]

theorem getLsbD_load_store_of_not_covers {w : Window} (hl : w.block.buffer.LiesIn m) (value : Word)
    {k : Nat} (hk : ¬ w.Covers k) :
    (w.block.load (w.store value m)).getLsbD k = (w.block.load m).getLsbD k := by
  by_cases h64 : k < 64
  · rw [store_eq_merge, Block.getLsbD_load_store hl, getLsbD_merge w value _ h64, if_neg hk]
    cases hh : w.block.holds k with
    | true => rfl
    | false => rw [Block.getLsbD_load_of_not_holds hl hh]; rfl
  · rw [BitVec.getLsbD_of_ge _ _ (by omega), BitVec.getLsbD_of_ge _ _ (by omega)]

/-- Accesses without a check stay within the bits that the window kept, over any buffer. It keeps
eight bits each of the offset and the size. Up to 255 these are the bits that were asked for;
beyond that they are others, and the window is not ok. No store overflows, and none reaches a byte
outside the block. -/
theorem unchecked_access_confined (b : Block) {m : Memory} (hm : b.buffer.LiesIn m)
    (offset size : Nat) (value : Word) :
    let w := ofBlock b offset size
    let o := offset % 256
    let z := size % 256
    (offset ≤ 255 ∧ size ≤ 255 → o = offset ∧ z = size) ∧
      (w.ok = true → offset ≤ 255 ∧ size ≤ 255) ∧
      b.buffer.store b.format.order.stores b.bits (w.merge value (b.load m)) m =
        .ok () (w.store value m) ∧
      (∀ k, k < o ∨ o + z ≤ k →
        (b.load (w.store value m)).getLsbD k = (b.load m).getLsbD k) ∧
      (∀ a, (∀ i, i < b.bits / 8 → b.buffer.address? i ≠ some a) →
        (w.store value m).get a = m.get a) ∧
      (w.load m).toNat = (b.load m).toNat / 2 ^ o % 2 ^ z ∧
      (∀ k, b.bits ≤ k → (b.load m).getLsbD k = false) := by
  intro w o z
  have ho : w.offset.toNat = o := offset_ofBlock b offset size
  have hz : w.size.toNat = z := size_ofBlock b offset size
  refine ⟨?_, ?_, b.buffer_store_eq _ m, ?_, ?_, ?_, ?_⟩
  · rintro ⟨hos, hss⟩
    exact ⟨Nat.mod_eq_of_lt (Nat.lt_succ_of_le hos), Nat.mod_eq_of_lt (Nat.lt_succ_of_le hss)⟩
  · intro hok
    simp only [w, ok, ofBlock, Bool.and_eq_true, decide_eq_true_eq] at hok
    exact hok.1.1
  · intro k hk
    have hc : ¬ w.Covers k := by rw [Covers, ho, hz]; omega
    exact getLsbD_load_store_of_not_covers (w := w) hm value hc
  · intro a ha
    exact Block.get_store_of_ne _ m ha
  · rw [toNat_load, ho, hz]
    rfl
  · intro k hk
    exact Block.getLsbD_load_of_not_holds hm (by simp [Block.holds, Nat.not_lt.2 hk])

/-- A window that runs past the end of a block of three bytes, of which the buffer has two. -/
theorem unchecked_access_confined_in_short_block :
    let b : Block := ⟨{ order := .big, bits := 24 }, .ofRegion ⟨1, 2⟩⟩
    let m : Memory := [1, 2, 3, 4]
    let w := ofBlock b 12 20
    b.buffer.LiesIn m ∧ w.ok = false ∧
      (∀ k, k < 12 ∨ 32 ≤ k →
        (b.load (w.store 0xabcde m)).getLsbD k = (b.load m).getLsbD k) ∧
      (w.store 0xabcde m).get 0 = 1 ∧ (w.store 0xabcde m).get 3 = 4 ∧
      (w.load m).toNat = (b.load m).toNat / 2 ^ 12 % 2 ^ 20 ∧ (w.load m).toNat = 0x20 := by
  intro b m w
  have hm : b.buffer.LiesIn m := by
    rintro r ⟨⟩
    decide
  obtain ⟨-, -, -, hkept, hout, hload, -⟩ := unchecked_access_confined b hm 12 20 0xabcde
  exact ⟨hm, by decide, hkept, hout 0 (by decide), hout 3 (by decide), hload, by decide⟩

/-- A window asked for 256 bits into a block of one byte is a window at its start: a store through
it changes bits that were not asked for, and it does not read as zero. -/
theorem window_past_eight_bits_not_confined :
    let b : Block := ⟨.byte, .ofRegion ⟨0, 1⟩⟩
    let w := ofBlock b 256 4
    ¬ (∀ k, k < 256 ∨ 256 + 4 ≤ k →
        (b.load (w.store 15 [0])).getLsbD k = (b.load [0]).getLsbD k) ∧
      (w.load [255]).toNat ≠ (b.load [255]).toNat / 2 ^ 256 % 2 ^ 4 := by
  intro b w
  refine ⟨fun h => ?_, by decide⟩
  exact absurd (h 0 (.inl (by decide))) (by decide)

end Window

end Packed
