import Packed.Bcd
import Packed.Proofs.Word

namespace Packed.Bcd

def value : Nat → Nat → Nat
  | _, 0 => 0
  | r, n + 1 => r % 16 + 10 * value (r / 16) n

def packed : Nat → Nat → Nat
  | 0, _ => 0
  | n + 1, v => v % 10 + 16 * packed n (v / 10)

theorem value_le (r n : Nat) : value r n ≤ r := by
  induction n generalizing r with
  | zero => exact Nat.zero_le r
  | succ n ih =>
      have h := ih (r / 16)
      rw [value]
      omega

theorem packed_lt (n v : Nat) : packed n v < 16 ^ n := by
  induction n generalizing v with
  | zero => simp [packed]
  | succ n ih =>
      have h := ih (v / 10)
      rw [packed, Nat.pow_succ]
      omega

theorem packed_zero (k : Nat) : packed k 0 = 0 := by
  induction k with
  | zero => rfl
  | succ k ih => simp [packed, ih]

theorem packed_add (q j v : Nat) :
    packed (q + j) v = packed q v + 16 ^ q * packed j (v / 10 ^ q) := by
  induction q generalizing v with
  | zero => simp [packed]
  | succ q ih =>
      rw [Nat.succ_add, packed, packed, ih, Nat.div_div_eq_div_mul, Nat.pow_succ', Nat.pow_succ']
      ring

def Digits (r n : Nat) : Prop := ∀ i, i < n → r / 16 ^ i % 16 ≤ 9

theorem Digits.head {r n : Nat} (h : Digits r (n + 1)) : r % 16 ≤ 9 := by
  simpa using h 0 (Nat.succ_pos n)

theorem Digits.tail {r n : Nat} (h : Digits r (n + 1)) : Digits (r / 16) n := by
  intro i hi
  have hs := h (i + 1) (Nat.succ_lt_succ hi)
  rwa [Nat.pow_succ, Nat.mul_comm, ← Nat.div_div_eq_div_mul] at hs

theorem value_lt {r n : Nat} (h : Digits r n) : value r n < 10 ^ n := by
  induction n generalizing r with
  | zero => simp [value]
  | succ n ih =>
      have hv := ih h.tail
      have hd := h.head
      rw [value, Nat.pow_succ]
      omega

theorem packed_value {r n k : Nat} (h : Digits r n) (hr : r < 16 ^ n) (hk : n ≤ k) :
    packed k (value r n) = r := by
  induction n generalizing r k with
  | zero =>
      have hz : r = 0 := by simpa using hr
      rw [value, packed_zero, hz]
  | succ n ih =>
      obtain ⟨j, rfl⟩ : ∃ j, k = j + 1 := ⟨k - 1, by omega⟩
      have hd := h.head
      have hlt : r / 16 < 16 ^ n := by
        rw [Nat.pow_succ] at hr
        omega
      have hp := ih (k := j) h.tail hlt (by omega)
      have h10 : (r % 16 + 10 * value (r / 16) n) % 10 = r % 16 := by omega
      have hq : (r % 16 + 10 * value (r / 16) n) / 10 = value (r / 16) n := by omega
      rw [value, packed, h10, hq, hp]
      omega

theorem toNat_nibble (raw : Word) (i : Nat) : (nibble raw i).toNat = raw.toNat / 16 ^ i % 16 := by
  have h : (0xf : Word).toNat = 2 ^ 4 - 1 := rfl
  rw [nibble, BitVec.toNat_and, h, Nat.and_two_pow_sub_one_eq_mod, BitVec.toNat_ushiftRight,
    Nat.shiftRight_eq_div_pow, Nat.pow_mul]

theorem toNat_decodeGroups (raw : Word) (n : Nat) :
    (decodeGroups raw n).toNat = value raw.toNat n := by
  induction n generalizing raw with
  | zero => rfl
  | succ n ih =>
      have hs : (raw >>> 4).toNat = raw.toNat / 16 := by
        rw [BitVec.toNat_ushiftRight, Nat.shiftRight_eq_div_pow]
      have hv := value_le (raw.toNat / 16) n
      have hr := raw.isLt
      have h10 : BitVec.toNat ((10 : Nat) : Word) = 10 := rfl
      rw [decodeGroups, BitVec.toNat_add, BitVec.toNat_mul, ih, hs, toNat_nibble, value, h10]
      simp only [Nat.pow_zero, Nat.div_one]
      rw [Nat.mod_eq_of_lt (by omega : 10 * value (raw.toNat / 16) n < 2 ^ 64)]
      exact Nat.mod_eq_of_lt (by omega)

theorem toNat_pack {n : Nat} (hn : n ≤ 16) (v : Nat) : (pack n v).toNat = packed n v := by
  induction n generalizing v with
  | zero => rfl
  | succ n ih =>
      have hp := packed_lt (n + 1) v
      have hle : 16 ^ (n + 1) ≤ 16 ^ 16 := Nat.pow_le_pow_right (by omega) hn
      rw [packed] at hp
      have hs : (pack n (v / 10) <<< 4).toNat = packed n (v / 10) <<< 4 := by
        rw [BitVec.toNat_shiftLeft, ih (by omega), Nat.shiftLeft_eq]
        exact Nat.mod_eq_of_lt (by omega)
      have hd : (BitVec.ofNat 64 (v % 10)).toNat = v % 10 := by
        rw [BitVec.toNat_ofNat]
        omega
      rw [pack, BitVec.toNat_or, hs, hd, Nat.or_comm,
        ← Nat.shiftLeft_add_eq_or_of_lt (by omega : v % 10 < 2 ^ 4), Nat.shiftLeft_eq, packed]
      omega

theorem digits_of_isBcd {raw : Word} {w : Nat} (h : isBcd raw w = true) :
    Digits raw.toNat (groups w) := by
  intro i hi
  have hb : decide (nibble raw i ≤ 9) = true := List.all_eq_true.1 h i (List.mem_range.2 hi)
  have hn := BitVec.le_def.1 (of_decide_eq_true hb)
  rwa [toNat_nibble] at hn

theorem toNat_decode_le (raw : Word) (w : Nat) : (decode raw w).toNat ≤ raw.toNat := by
  rw [decode, toNat_decodeGroups]
  exact value_le _ _

theorem lt_groups {r w : Nat} (hw : w ≤ 64) (hr : r < 2 ^ w) : r < 16 ^ groups w := by
  have hg : w ≤ 4 * groups w := by
    rw [groups]
    omega
  have hp : 2 ^ w ≤ 2 ^ (4 * groups w) := Nat.pow_le_pow_right (by omega) hg
  rw [Nat.pow_mul] at hp
  exact Nat.lt_of_lt_of_le hr hp

theorem pack_decode {raw : Word} {w : Nat} (hw : w ≤ 64) (hr : raw.toNat < 2 ^ w)
    (h : isBcd raw w = true) : pack 16 (decode raw w).toNat = raw := by
  have hg : groups w ≤ 16 := Nat.min_le_right _ _
  apply BitVec.eq_of_toNat_eq
  rw [toNat_pack (Nat.le_refl 16), decode, toNat_decodeGroups]
  exact packed_value (digits_of_isBcd h) (lt_groups hw hr) hg

theorem encode?_decode {raw : Word} {w : Nat} (hw : w ≤ 64) (hr : raw.toNat < 2 ^ w)
    (h : isBcd raw w = true) : encode? (decode raw w).toNat w = some raw := by
  have hv : (decode raw w).toNat < 10 ^ 16 := by
    have hl := value_lt (digits_of_isBcd h)
    have hp : 10 ^ groups w ≤ 10 ^ 16 := Nat.pow_le_pow_right (by omega) (Nat.min_le_right _ _)
    rw [decode, toNat_decodeGroups]
    omega
  have hm : raw ≤ Word.lowMask w := by
    rw [BitVec.le_def]
    exact (Word.le_toNat_lowMask_iff hw).2 hr
  rw [encode?, pack_decode hw hr h, if_pos ⟨hv, hm⟩]

theorem packed_eq_zero {k v : Nat} (hv : v < 10 ^ k) (h : packed k v = 0) : v = 0 := by
  induction k generalizing v with
  | zero => simpa using hv
  | succ k ih =>
      rw [packed] at h
      have hq := ih (v := v / 10) (by rw [Nat.pow_succ] at hv; omega) (by omega)
      omega

theorem value_packed {n k v : Nat} (hn : n ≤ k) (hv : v < 10 ^ k) (h : packed k v < 16 ^ n) :
    value (packed k v) n = v := by
  induction n generalizing k v with
  | zero => exact (packed_eq_zero hv (by simpa using h)).symm
  | succ n ih =>
      obtain ⟨j, rfl⟩ : ∃ j, k = j + 1 := ⟨k - 1, by omega⟩
      rw [packed] at h ⊢
      rw [Nat.pow_succ] at h hv
      have hm : (v % 10 + 16 * packed j (v / 10)) % 16 = v % 10 := by omega
      have hd : (v % 10 + 16 * packed j (v / 10)) / 16 = packed j (v / 10) := by omega
      rw [value, hm, hd, ih (by omega) (by omega) (by omega)]
      omega

theorem le_packed {n v : Nat} (h : v < 10 ^ n) : v ≤ packed n v := by
  have hvalue := value_packed (Nat.le_refl n) h (packed_lt n v)
  have hle := value_le (packed n v) n
  omega

theorem digits_packed (k v n : Nat) : Digits (packed k v) n := by
  intro i hi
  induction i generalizing k v with
  | zero =>
      cases k with
      | zero => simp [packed]
      | succ k =>
          rw [packed, Nat.pow_zero, Nat.div_one]
          omega
  | succ i ih =>
      cases k with
      | zero => simp [packed]
      | succ k =>
          have hd : (v % 10 + 16 * packed k (v / 10)) / 16 = packed k (v / 10) := by omega
          rw [packed, Nat.pow_succ', ← Nat.div_div_eq_div_mul, hd]
          exact ih k (v / 10) (Nat.lt_of_succ_lt hi)

theorem isBcd_of_digits {raw : Word} {w : Nat} (h : Digits raw.toNat (groups w)) :
    isBcd raw w = true := by
  rw [isBcd, List.all_eq_true]
  intro i hi
  refine decide_eq_true (BitVec.le_def.2 ?_)
  rw [toNat_nibble]
  exact h i (List.mem_range.1 hi)

theorem isBcd_iff_digits {raw : Word} {w : Nat} :
    isBcd raw w = true ↔ Digits raw.toNat (groups w) :=
  ⟨digits_of_isBcd, isBcd_of_digits⟩

theorem encodeLow_eq_pack {v w : Nat} (h : (encode? v w).isSome = true) :
    v < 10 ^ 16 ∧ (pack 16 v).toNat < 2 ^ w ∧ encodeLow v w = pack 16 v := by
  rw [encode?] at h
  split at h
  · rename_i hv
    have hlt : (pack 16 v).toNat < 2 ^ w := by
      have hle := BitVec.le_def.1 hv.2
      have hp := Nat.two_pow_pos w
      by_cases h64 : w < 64
      · rw [Word.toNat_lowMask h64] at hle
        omega
      · exact Nat.lt_of_lt_of_le (pack 16 v).isLt (Nat.pow_le_pow_right (by decide) (by omega))
    exact ⟨hv.1, hlt, (Word.mask_eq_self_iff _ _).2 hlt⟩
  · cases h

theorem isSome_encode?_iff {v w : Nat} (hw : w ≤ 64) :
    (encode? v w).isSome = true ↔ v < 10 ^ 16 ∧ packed 16 v < 2 ^ w := by
  rw [← toNat_pack (Nat.le_refl 16)]
  constructor
  · intro h
    obtain ⟨hv, hlt, -⟩ := encodeLow_eq_pack h
    exact ⟨hv, hlt⟩
  · rintro ⟨hv, hlt⟩
    have hle : pack 16 v ≤ Word.lowMask w :=
      BitVec.le_def.2 ((Word.le_toNat_lowMask_iff hw).2 hlt)
    rw [encode?, if_pos ⟨hv, hle⟩]
    rfl

theorem packed_lt_two_pow_iff {j x s : Nat} (hs : s < 4) (hx : x < 10 ^ j) :
    packed j x < 2 ^ s ↔ x < 2 ^ s := by
  cases j with
  | zero =>
      obtain rfl : x = 0 := by simpa using hx
      rfl
  | succ j =>
      have h8 : 2 ^ s ≤ 2 ^ 3 := Nat.pow_le_pow_right (by decide) (by omega)
      rw [Nat.pow_succ] at hx
      rw [packed]
      constructor
      · intro h
        have hzero := packed_eq_zero (k := j) (v := x / 10) (by omega) (by omega)
        omega
      · intro h
        rw [show x / 10 = 0 by omega, packed_zero]
        omega

theorem packed_add_lt_iff {q j s v : Nat} (hs : s < 4) (hv : v < 10 ^ (q + j)) :
    packed (q + j) v < 2 ^ s * 16 ^ q ↔ v < 2 ^ s * 10 ^ q := by
  have h10 : 0 < 10 ^ q := Nat.pow_pos (by decide)
  have h16 : 0 < 16 ^ q := Nat.pow_pos (by decide)
  have hhigh : v / 10 ^ q < 10 ^ j := by
    rwa [Nat.div_lt_iff_lt_mul h10, ← Nat.pow_add, Nat.add_comm]
  rw [packed_add, ← Nat.div_lt_iff_lt_mul h16, Nat.add_mul_div_left _ _ h16,
    Nat.div_eq_of_lt (packed_lt q v), Nat.zero_add, packed_lt_two_pow_iff hs hhigh,
    Nat.div_lt_iff_lt_mul h10]

/-- A field of `w` bits has a place for the digits of whole groups and, at the top, for as much of
one more digit as there are bits left. -/
theorem isSome_encode?_iff_lt {v w : Nat} (hw : w ≤ 64) :
    (encode? v w).isSome = true ↔ v < 2 ^ (w % 4) * 10 ^ (w / 4) := by
  have hs : w % 4 < 4 := Nat.mod_lt w (by decide)
  have hj : w / 4 + (16 - w / 4) = 16 := by omega
  have htop : 2 ^ w = 2 ^ (w % 4) * 16 ^ (w / 4) := by
    rw [show 16 = 2 ^ 4 from rfl, ← Nat.pow_mul, ← Nat.pow_add, Nat.mod_add_div]
  have hle : 2 ^ (w % 4) * 10 ^ (w / 4) ≤ 10 ^ 16 := by
    have hrest : 2 ^ (w % 4) ≤ 10 ^ (16 - w / 4) := by
      obtain rfl | hlt := Nat.eq_or_lt_of_le hw
      · decide
      · calc 2 ^ (w % 4) ≤ 2 ^ 3 := Nat.pow_le_pow_right (by decide) (by omega)
          _ ≤ 10 := by decide
          _ ≤ 10 ^ (16 - w / 4) := Nat.le_self_pow (by omega) 10
    rw [← hj, Nat.add_comm (w / 4), Nat.pow_add]
    exact Nat.mul_le_mul_right _ hrest
  have hiff := fun h : v < 10 ^ 16 => packed_add_lt_iff hs (hj.symm ▸ h)
  rw [hj, ← htop] at hiff
  rw [isSome_encode?_iff hw]
  constructor
  · rintro ⟨hv, h⟩
    exact (hiff hv).1 h
  · intro h
    have hv : v < 10 ^ 16 := Nat.lt_of_lt_of_le h hle
    exact ⟨hv, (hiff hv).2 h⟩

theorem decode_encodeLow {v w : Nat} (hw : w ≤ 64) (h : (encode? v w).isSome = true) :
    isBcd (encodeLow v w) w = true ∧ (decode (encodeLow v w) w).toNat = v := by
  obtain ⟨hv, hlt, hlow⟩ := encodeLow_eq_pack h
  have hpack := toNat_pack (Nat.le_refl 16) v
  rw [hlow]
  refine ⟨isBcd_of_digits ?_, ?_⟩
  · rw [hpack]
    exact digits_packed 16 v _
  · rw [decode, toNat_decodeGroups, hpack]
    refine value_packed (Nat.min_le_right _ _) hv ?_
    rw [← hpack]
    exact lt_groups hw hlt

end Packed.Bcd
