import Packed.Proofs.UncheckedAccess

namespace Packed

namespace BitStorage

variable {s : BitStorage} {b : Block} {o n o' n' : Nat} {m : Memory}

def nest (s : BitStorage) (cuts : List (Nat × Nat)) : BitStorage :=
  cuts.foldl (fun s cut => .window (s.part cut.1 cut.2)) s

def FitsIn (outer inner : Nat × Nat) : Prop := inner.1 + inner.2 ≤ outer.2

/-- The storage is the `n` bits of a block from `o` on. -/
structure Occupies (s : BitStorage) (b : Block) (o n : Nat) : Prop where
  base : s.base = b
  offset : s.offset = o
  size : s.size = n
  within : o + n ≤ b.bits

theorem occupies_block (b : Block) : (block b).Occupies b 0 b.bits :=
  ⟨rfl, rfl, rfl, Nat.le_of_eq (Nat.zero_add _)⟩

theorem base_nest (s : BitStorage) (cuts : List (Nat × Nat)) : (s.nest cuts).base = s.base := by
  induction cuts generalizing s with
  | nil => rfl
  | cons cut cuts ih =>
      change ((window (s.part cut.1 cut.2)).nest cuts).base = s.base
      rw [ih]
      cases s <;> rfl

theorem exists_window (s : BitStorage) (cut : Nat × Nat) (cuts : List (Nat × Nat)) :
    ∃ w, s.nest (cut :: cuts) = window w := by
  induction cuts generalizing s cut with
  | nil => exact ⟨_, rfl⟩
  | cons inner cuts ih => exact ih (window (s.part cut.1 cut.2)) inner

theorem ok_of_ok_part (h : (window (s.part o n)).ok = true) : s.ok = true := by
  cases s with
  | block b =>
      change ((Window.ofBlock b o n).valid && b.ok) = true at h
      exact (Bool.and_eq_true_iff.1 h).2
  | window w =>
      change ((w.part o n).valid && w.block.ok) = true at h
      simp only [Window.part, Bool.and_eq_true] at h
      exact Bool.and_eq_true_iff.2 ⟨h.1.1.2, h.2⟩

theorem ok_nest_eq_false (h : s.ok = false) (cuts : List (Nat × Nat)) :
    (s.nest cuts).ok = false := by
  induction cuts generalizing s with
  | nil => exact h
  | cons cut cuts ih =>
      refine ih (s := window (s.part cut.1 cut.2)) (Bool.eq_false_iff.2 fun hp => ?_)
      rw [ok_of_ok_part hp] at h
      cases h

/-- One cut: of storage that lies in its block the flag tells whether the cut fits. -/
theorem Occupies.ok_part_iff (h : s.Occupies b o n) :
    (window (s.part o' n')).ok = true ↔ s.ok = true ∧ o' + n' ≤ n := by
  have hlim := sizeLimit_eq
  have hw := h.within
  have hb : b.bits ≤ 64 := b.format.bits_le
  cases s with
  | block c =>
      obtain rfl : c = b := h.base
      obtain rfl : c.bits = n := h.size
      simp only [BitStorage.ok, part, Window.ok, Window.ofBlock, Bool.and_eq_true, decide_eq_true_eq]
      constructor
      · exact fun hp => ⟨hp.2, hp.1.2⟩
      · exact fun hp => ⟨⟨⟨by omega, by omega⟩, hp.2⟩, hp.1⟩
  | window w =>
      obtain rfl : w.block = b := h.base
      obtain rfl : w.offset.toNat = o := h.offset
      obtain rfl : w.size.toNat = n := h.size
      simp only [BitStorage.ok, part, Window.ok, Window.part, Window.ofBlock, saturate, hlim,
        Bool.and_eq_true, decide_eq_true_eq]
      constructor
      · exact fun hp => ⟨⟨hp.1.1.2, hp.2⟩, by omega⟩
      · exact fun hp => ⟨⟨⟨⟨⟨by omega, by omega⟩, by omega⟩, hp.1.1⟩, by omega⟩, hp.1.2⟩

theorem Occupies.part (h : s.Occupies b o n) (hf : o' + n' ≤ n) :
    (window (s.part o' n')).Occupies b (o + o') n' := by
  have hlim := sizeLimit_eq
  have hw := h.within
  have hb : b.bits ≤ 64 := b.format.bits_le
  cases s with
  | block c =>
      obtain rfl : c = b := h.base
      obtain rfl : 0 = o := h.offset
      have hfit : o' + n' ≤ c.bits := by omega
      obtain ⟨hoff, hsize, -⟩ := Window.exact_ofBlock hfit
      exact ⟨rfl, hoff.trans (Nat.zero_add _).symm, hsize, by omega⟩
  | window w =>
      obtain rfl : w.block = b := h.base
      obtain rfl : w.offset.toNat = o := h.offset
      have hsat : saturate (w.offset.toNat + o') = w.offset.toNat + o' := saturate_of_lt (by omega)
      have hfit : w.offset.toNat + o' + n' ≤ w.block.bits := by omega
      obtain ⟨hoff, hsize, -⟩ := Window.exact_ofBlock hfit
      refine ⟨rfl, ?_, hsize, by omega⟩
      rw [← hsat] at hoff
      exact hoff.trans hsat

theorem Occupies.toNat_load {w : Window} (h : (window w).Occupies b o n) (m : Memory) :
    ((window w).load m).toNat = (b.load m).toNat / 2 ^ o % 2 ^ n := by
  obtain rfl : w.block = b := h.base
  obtain rfl : w.offset.toNat = o := h.offset
  obtain rfl : w.size.toNat = n := h.size
  exact w.toNat_load m

theorem div_mod_div_mod (v o : Nat) (hf : o' + n' ≤ n) :
    v / 2 ^ o % 2 ^ n / 2 ^ o' % 2 ^ n' = v / 2 ^ (o + o') % 2 ^ n' := by
  obtain ⟨k, rfl⟩ := Nat.exists_eq_add_of_le hf
  rw [show o' + n' + k = o' + (n' + k) by omega, Nat.pow_add 2 o', Nat.mod_mul_right_div_self,
    Nat.pow_add 2 n', Nat.mod_mul_right_mod, Nat.pow_add, Nat.div_div_eq_div_mul]

theorem Occupies.toNat_load_part (h : s.Occupies b o n) (hf : o' + n' ≤ n) (m : Memory) :
    ((window (s.part o' n')).load m).toNat = (s.load m).toNat / 2 ^ o' % 2 ^ n' := by
  rw [(h.part hf).toNat_load m]
  cases s with
  | block c =>
      obtain rfl : c = b := h.base
      obtain rfl : 0 = o := h.offset
      rw [Nat.zero_add]
      rfl
  | window w => rw [h.toNat_load m, div_mod_div_mod _ _ hf]

theorem Occupies.ok_nest_iff (h : s.Occupies b o n) (a : Nat) (cuts : List (Nat × Nat)) :
    (s.nest cuts).ok = true ↔ s.ok = true ∧ List.IsChain FitsIn ((a, n) :: cuts) := by
  induction cuts generalizing s o n a with
  | nil => simp [nest]
  | cons cut cuts ih =>
      rw [List.isChain_cons_cons]
      change ((window (s.part cut.1 cut.2)).nest cuts).ok = true ↔ _
      by_cases hf : cut.1 + cut.2 ≤ n
      · rw [ih (h.part hf) cut.1, h.ok_part_iff]
        simp only [FitsIn, hf, true_and, and_true]
      · have hp : (window (s.part cut.1 cut.2)).ok = false :=
          Bool.eq_false_iff.2 fun hp => hf (h.ok_part_iff.1 hp).2
        simp [ok_nest_eq_false hp, FitsIn, hf]

theorem Occupies.nest (h : s.Occupies b o n) (a : Nat) {cuts : List (Nat × Nat)}
    (hc : List.IsChain FitsIn ((a, n) :: cuts)) :
    (s.nest cuts).Occupies b (o + (cuts.map Prod.fst).sum)
      (((a, n) :: cuts).getLast (List.cons_ne_nil _ _)).2 := by
  induction cuts generalizing s o n a with
  | nil => exact h
  | cons cut cuts ih =>
      rw [List.isChain_cons_cons] at hc
      have hn := ih (h.part hc.1) cut.1 hc.2
      rw [Nat.add_assoc] at hn
      rw [List.map_cons, List.sum_cons, List.getLast_cons_cons]
      exact hn

theorem Occupies.toNat_load_nest (h : s.Occupies b o n) (a : Nat) {cuts : List (Nat × Nat)}
    (hc : List.IsChain FitsIn ((a, n) :: cuts)) (m : Memory) :
    ((s.nest cuts).load m).toNat =
      cuts.foldl (fun v cut => v / 2 ^ cut.1 % 2 ^ cut.2) (s.load m).toNat := by
  induction cuts generalizing s o n a with
  | nil => rfl
  | cons cut cuts ih =>
      rw [List.isChain_cons_cons] at hc
      rw [List.foldl_cons, ← h.toNat_load_part hc.1 m]
      exact ih (h.part hc.1) cut.1 hc.2

theorem read_of_ok (h : s.ok = true) : s.read m = .ok (s.load m) := by
  cases s with
  | block c =>
      simp only [BitStorage.ok, Block.ok, Bool.and_eq_true, beq_iff_eq] at h
      obtain ⟨r, hr⟩ := Option.isSome_iff_exists.1 h.1
      have hs : r.size * 8 = c.bits := by simpa [Buffer.size, hr] using h.2
      have hx : c.buffer.exact c.bits = .ok r := by simp [Buffer.exact, hr, hs]
      simp [BitStorage.read, BitStorage.load, Block.read, Block.load, Buffer.read, Buffer.load, hx,
        Except.map]
  | window w => exact if_pos h

/-- Windows of windows are windows of the block. A chain of cuts is ok exactly if the block is and
each cut fits in the one before; it then lies at the sum of the offsets, has the size of the last
cut, and reads what one gets by cutting the value of the block again and again, which is what its
own offset and size cut from it. No cut makes a window ok again that is not. -/
theorem nested_windows_flatten (b : Block) (cut : Nat × Nat) (cuts : List (Nat × Nat)) :
    let s := (block b).nest (cut :: cuts)
    let offset := ((cut :: cuts).map Prod.fst).sum
    let size := ((cut :: cuts).getLast (List.cons_ne_nil _ _)).2
    (s.ok = true ↔
      b.ok = true ∧ cut.1 + cut.2 ≤ b.bits ∧ List.IsChain FitsIn (cut :: cuts)) ∧
    (s.ok = true →
      s.offset = offset ∧ s.size = size ∧ s.location? = b.address?.map (fun a => (a, offset)) ∧
      ∀ m, ∃ v w, b.read m = .ok v ∧ s.read m = .ok w ∧
        w.toNat = (cut :: cuts).foldl (fun v cut => v / 2 ^ cut.1 % 2 ^ cut.2) v.toNat ∧
        w.toNat = v.toNat / 2 ^ offset % 2 ^ size) ∧
    (∀ t : BitStorage, t.ok = false → ∀ inner, (t.nest inner).ok = false) := by
  intro s offset size
  have hb := occupies_block b
  have hok : s.ok = true ↔
      b.ok = true ∧ cut.1 + cut.2 ≤ b.bits ∧ List.IsChain FitsIn (cut :: cuts) := by
    rw [hb.ok_nest_iff 0, List.isChain_cons_cons]
    rfl
  refine ⟨hok, fun h => ?_, fun t ht inner => ok_nest_eq_false ht inner⟩
  obtain ⟨hbok, hfit, hchain⟩ := hok.1 h
  have hc : List.IsChain FitsIn ((0, b.bits) :: cut :: cuts) := .cons_cons hfit hchain
  have hs : s.Occupies b offset size := by
    have hn := hb.nest 0 hc
    rwa [Nat.zero_add, List.getLast_cons_cons] at hn
  refine ⟨hs.offset, hs.size, ?_, fun m => ⟨b.load m, s.load m, ?_, read_of_ok h, ?_, ?_⟩⟩
  · rw [location?, hs.base, hs.offset]
  · exact read_of_ok (s := block b) hbok
  · exact hb.toNat_load_nest 0 hc m
  · obtain ⟨w, hw⟩ := (block b).exists_window cut cuts
    change s = window w at hw
    rw [hw] at hs ⊢
    exact hs.toNat_load m

/-- Three bits in the middle of four bytes, cut out in three steps. Where the second step starts 256
bits further on, its eight bits are the same and nothing is ok from there on. -/
theorem nested_windows_flatten_in_four_bytes :
    let b : Block := ⟨{ order := .big, bits := 32 }, .ofRegion ⟨1, 4⟩⟩
    let m : Memory := [0, 0x12, 0x34, 0x56, 0x78, 0]
    let s := (block b).nest [(8, 16), (4, 8), (2, 3)]
    s.ok = true ∧ s.offset = 14 ∧ s.size = 3 ∧ s.location? = some (1, 14) ∧
      (∃ v w, b.read m = .ok v ∧ v = 0x12345678 ∧ s.read m = .ok w ∧ w.toNat = 1) ∧
      ((block b).nest [(8, 16), (260, 8), (2, 3)]).ok = false := by
  intro b m s
  obtain ⟨hok, hs, -⟩ := nested_windows_flatten b (8, 16) [(4, 8), (2, 3)]
  obtain ⟨hbad, -⟩ := nested_windows_flatten b (8, 16) [(260, 8), (2, 3)]
  have hbits : b.bits = 32 := rfl
  have hspans : b.Spans ⟨1, 4⟩ m := ⟨rfl, rfl, by decide⟩
  have h : s.ok = true := hok.2 ⟨hspans.ok, by simp [hbits], by simp [FitsIn]⟩
  obtain ⟨hoffset, hsize, hplace, hread⟩ := hs h
  obtain ⟨v, w, hv, hw, -, hflat⟩ := hread m
  have hload : b.load m = 0x12345678 := by
    rw [Block.load_eq hspans]
    decide
  obtain rfl : b.load m = v := Except.ok.inj ((Block.read_eq hspans).symm.trans hv)
  refine ⟨h, hoffset, hsize, hplace, ⟨_, w, hv, hload, hw, ?_⟩, Bool.eq_false_iff.2 fun h' => ?_⟩
  · rw [hflat, hload]
    decide
  · have hchain := (hbad.1 h').2.2
    simp [FitsIn] at hchain

end BitStorage

end Packed
