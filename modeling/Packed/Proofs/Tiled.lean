import Packed.Array.Basic
import Packed.Proofs.Field

namespace Packed

theorem tile_bound {S : Type} [Tiled S] {s : S} {size i : Nat} (hi : i < tileCount s size) :
    i * size + size ≤ Tiled.size s := by
  have h := Nat.mul_le_of_le_div size (i + 1) _ (Nat.succ_le_of_lt hi)
  rwa [Nat.add_mul, Nat.one_mul] at h

theorem tile_le (size : Nat) {i j : Nat} (h : i < j) : i * size + size ≤ j * size := by
  rw [← Nat.succ_mul]
  exact Nat.mul_le_mul_right size (Nat.succ_le_of_lt h)

theorem tiles_disjoint (size : Nat) {i j : Nat} (h : i ≠ j) :
    i * size + size ≤ j * size ∨ j * size + size ≤ i * size :=
  (Nat.lt_or_gt_of_ne h).imp (tile_le size) (tile_le size)

theorem lt_tile_end {S : Type} [Tiled S] {s : S} {size i : Nat} (pos : 0 < size)
    (hi : tileCount s size ≤ i) : Tiled.size s < i * size + size := by
  have h := (Nat.div_lt_iff_lt_mul pos).1 (Nat.lt_succ_of_le hi)
  rwa [Nat.succ_mul] at h

namespace Buffer

theorem exists_region {b : Buffer} {size i : Nat} (hi : i < tileCount b size) :
    ∃ r, b.region = some r := by
  cases hr : b.region with
  | none =>
      have hb := tile_bound hi
      have hs : Tiled.size b = 0 := by simp [Tiled.size, Buffer.size, hr]
      have hz : size = 0 := by omega
      simp [tileCount, hz] at hi
  | some r => exact ⟨r, rfl⟩

theorem tile_region {b : Buffer} {r : Region} {size i : Nat} (hr : b.region = some r)
    (hl : r.size < sizeLimit) (hi : i < tileCount b size) :
    (tile b size i).region = some ⟨r.start + i * size, size⟩ := by
  have hb := tile_bound hi
  have hs : Tiled.size b = r.size := by simp [Tiled.size, Buffer.size, hr]
  rw [hs] at hb
  have hp : tile b size i = b.part (saturate (i * size)) size := rfl
  rw [hp, saturate_of_lt (by omega)]
  exact region_part hr hb

theorem spans_tile {b : Buffer} {format : BlockFormat} {r : Region} {m : Memory} {size i : Nat}
    (hr : b.region = some r) (hm : r.start + r.size ≤ m.length) (hl : r.size < sizeLimit)
    (hz : size * 8 = format.bits) (hi : i < tileCount b size) :
    (Block.mk format (tile b size i)).Spans ⟨r.start + i * size, size⟩ m := by
  have hb : i * size + size ≤ b.size := tile_bound hi
  rw [size_of_region hr] at hb
  exact ⟨tile_region hr hl hi, hz, by dsimp only; omega⟩

/-- Past the end an element gets what is left of the buffer after its whole elements, and all later
ones get nothing. -/
theorem size_tile_past_end {b : Buffer} {size i : Nat} (pos : 0 < size) (hb : b.size < sizeLimit)
    (hi : tileCount b size ≤ i) :
    (tile b size i).size = if i = tileCount b size then b.size % size else 0 := by
  have hsize : (tile b size i).size = min size (b.size - min (saturate (i * size)) b.size) := by
    change (b.part (saturate (i * size)) size).size = _
    rw [Buffer.part, Buffer.size, Buffer.size]
    cases b.region with
    | none => exact (Nat.min_zero size).symm.trans (by rw [Option.elim_none, Nat.zero_sub])
    | some r => rfl
  rw [hsize]
  split
  · rename_i h
    have hi : i = b.size / size := h
    have hmul := Nat.div_add_mod b.size size
    have hlt := Nat.mod_lt b.size pos
    rw [← hi, Nat.mul_comm] at hmul
    rw [saturate_of_lt (by omega)]
    omega
  · rename_i h
    have hle := tile_le size (Nat.lt_of_le_of_ne hi (Ne.symm h))
    have hlt := lt_tile_end (s := b) pos (Nat.le_refl _)
    change b.size < _ at hlt
    have hsat : b.size ≤ saturate (i * size) := by
      rw [saturate]
      omega
    omega

theorem size_tile_eq_iff {b : Buffer} {size i : Nat} (pos : 0 < size) (hb : b.size < sizeLimit) :
    (tile b size i).size = size ↔ i < tileCount b size := by
  constructor
  · intro h
    by_contra hi
    rw [size_tile_past_end pos hb (Nat.not_lt.1 hi)] at h
    have hlt := Nat.mod_lt b.size pos
    split at h <;> omega
  · intro hi
    obtain ⟨r, hr⟩ := exists_region hi
    have hl : r.size < sizeLimit := by rwa [← size_of_region hr]
    rw [size_of_region (tile_region hr hl hi)]

end Buffer

namespace BitStorage

theorem base_tile (s : BitStorage) (size i : Nat) : (tile s size i).base = s.base := by
  cases s <;> rfl

theorem size_le (s : BitStorage) : s.size ≤ 255 := by
  cases s with
  | block b => exact Nat.le_trans b.format.bits_le (by decide)
  | window w => exact Nat.le_of_lt_succ w.size.isLt

theorem within_of_tile {s : BitStorage} (hs : s.Sound) {size i : Nat}
    (h : (tile s size i).ok = true) : s.Within := by
  cases s with
  | block b => trivial
  | window w =>
      change ((w.part _ size).valid && _) = true at h
      simp only [Window.part, Bool.and_eq_true] at h
      exact hs h.1.1.2

theorem tile_window {s : BitStorage} (hs : s.Within) {size i : Nat} (hi : i < tileCount s size) :
    ∃ w, tile s size i = .window w ∧ w.block = s.base ∧ w.offset.toNat = s.offset + i * size ∧
      w.size.toNat = size ∧ w.Within := by
  have hb := tile_bound hi
  have hlim := sizeLimit_eq
  have hbits := s.base.format.bits_le
  cases s with
  | block b =>
      change i * size + size ≤ b.format.bits at hb
      change b.format.bits ≤ 64 at hbits
      have hsat : saturate (i * size) = i * size := saturate_of_lt (by omega)
      obtain ⟨ho, hz, hw⟩ := Window.exact_ofBlock (b := b) hb
      refine ⟨.ofBlock b (saturate (i * size)) size, rfl, rfl, ?_, hz, ?_⟩
      · rw [hsat, ho]
        exact (Nat.zero_add _).symm
      · rwa [hsat]
  | window w =>
      change i * size + size ≤ w.size.toNat at hb
      change w.block.format.bits ≤ 64 at hbits
      have hin : w.offset.toNat + w.size.toNat ≤ w.block.format.bits := hs
      have hsat : saturate (w.offset.toNat + saturate (i * size)) = w.offset.toNat + i * size := by
        rw [saturate_of_lt (n := i * size) (by omega), saturate_of_lt (by omega)]
      have hle : w.offset.toNat + i * size + size ≤ w.block.bits := by rw [Block.bits]; omega
      obtain ⟨ho, hz, hw⟩ := Window.exact_ofBlock hle
      refine ⟨w.part (saturate (i * size)) size, rfl, rfl, ?_, hz, ?_⟩
      · change (Window.ofBlock w.block (saturate (_ + saturate _)) size).offset.toNat = _
        rw [hsat]
        exact ho
      · change (Window.ofBlock w.block (saturate (_ + saturate _)) size).Within
        rw [hsat]
        exact hw

theorem ok_tile {s : BitStorage} (hok : s.ok = true) (hs : s.Within) {size i : Nat}
    (hi : i < tileCount s size) : (tile s size i).ok = true := by
  have hb := tile_bound hi
  have hlim := sizeLimit_eq
  have hbits : s.base.bits ≤ 64 := s.base.format.bits_le
  cases s with
  | block b =>
      change i * size + size ≤ b.bits at hb
      change b.bits ≤ 64 at hbits
      change ((Window.ofBlock b (saturate (i * size)) size).valid && b.ok) = true
      rw [saturate_of_lt (by omega)]
      simp only [Window.ofBlock, Bool.and_eq_true, decide_eq_true_eq]
      exact ⟨⟨⟨by omega, by omega⟩, hb⟩, hok⟩
  | window w =>
      change i * size + size ≤ w.size.toNat at hb
      change w.block.bits ≤ 64 at hbits
      have hin : w.offset.toNat + w.size.toNat ≤ w.block.bits := hs
      obtain ⟨hvalid, hblock⟩ := Bool.and_eq_true_iff.1 hok
      change ((w.part (saturate (i * size)) size).valid && w.block.ok) = true
      rw [saturate_of_lt (n := i * size) (by omega)]
      simp only [Window.part, Window.ofBlock, Bool.and_eq_true, decide_eq_true_eq]
      rw [saturate_of_lt (by omega), saturate_of_lt (by omega)]
      exact ⟨⟨⟨⟨⟨by omega, by omega⟩, by omega⟩, hvalid⟩, hb⟩, hblock⟩

theorem ok_tile_past_end {s : BitStorage} {size i : Nat} (pos : 0 < size)
    (hi : tileCount s size ≤ i) : (tile s size i).ok = false := by
  have hend := lt_tile_end pos hi
  have hle := s.size_le
  have hlim := sizeLimit_eq
  cases s with
  | block b =>
      change b.bits < _ at hend
      change b.bits ≤ 255 at hle
      have hvalid : (Window.ofBlock b (saturate (i * size)) size).valid = false := by
        refine Bool.eq_false_iff.2 fun hv => ?_
        simp only [Window.ofBlock, Bool.and_eq_true, decide_eq_true_eq] at hv
        simp only [saturate] at hv
        omega
      change ((Window.ofBlock b (saturate (i * size)) size).valid && b.ok) = false
      rw [hvalid, Bool.false_and]
  | window w =>
      change w.size.toNat < _ at hend
      change w.size.toNat ≤ 255 at hle
      have hvalid : (w.part (saturate (i * size)) size).valid = false := by
        refine Bool.eq_false_iff.2 fun hv => ?_
        simp only [Window.part, Bool.and_eq_true, decide_eq_true_eq] at hv
        simp only [saturate] at hv
        omega
      change ((w.part (saturate (i * size)) size).valid && w.block.ok) = false
      rw [hvalid, Bool.false_and]

theorem ok_tile_iff {s : BitStorage} (hok : s.ok = true) (hs : s.Within) {size i : Nat}
    (pos : 0 < size) : (tile s size i).ok = true ↔ i < tileCount s size := by
  refine ⟨fun h => ?_, ok_tile hok hs⟩
  by_contra hi
  rw [ok_tile_past_end pos (Nat.not_lt.1 hi)] at h
  cases h

end BitStorage

end Packed
