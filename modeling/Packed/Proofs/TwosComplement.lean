import Packed.Proofs.Modular

namespace Packed

theorem add_xor_two_pow {k x : Nat} (hx : x < 2 ^ k) : (2 ^ k + x) ^^^ 2 ^ k = x := by
  apply Nat.eq_of_testBit_eq
  intro i
  rw [Nat.testBit_xor]
  obtain hlt | rfl | hgt := Nat.lt_trichotomy i k
  · rw [Nat.testBit_two_pow_add_gt hlt, Nat.testBit_two_pow_of_ne (Nat.ne_of_gt hlt), Bool.xor_false]
  · rw [Nat.testBit_two_pow_add_eq, Nat.testBit_two_pow_self, Nat.testBit_lt_two_pow hx]
    rfl
  · have hpow : 2 ^ (k + 1) ≤ 2 ^ i := Nat.pow_le_pow_right (by decide) hgt
    rw [Nat.pow_succ] at hpow
    rw [Nat.testBit_two_pow_of_ne (Nat.ne_of_lt hgt), Nat.testBit_lt_two_pow (by omega),
      Nat.testBit_lt_two_pow (by omega)]
    rfl

/-- Turning the highest bit over and subtracting it gives the balanced remainder: where the bit was
set it is subtracted twice, and where it was not, added and subtracted. -/
theorem xor_sub_two_pow {k x : Nat} (hx : x < 2 ^ (k + 1)) :
    ((x ^^^ 2 ^ k : Nat) : Int) - (2 ^ k : Nat) = (x : Int).bmod (2 ^ (k + 1)) := by
  have hmod : (x : Int) % (2 ^ (k + 1) : Nat) = x := by
    rw [← Int.natCast_mod, Nat.mod_eq_of_lt hx]
  rw [Int.bmod_def, hmod]
  rw [Nat.pow_succ] at hx ⊢
  by_cases hlow : x < 2 ^ k
  · have hxor : x ^^^ 2 ^ k = 2 ^ k + x :=
      calc x ^^^ 2 ^ k = (2 ^ k + x) ^^^ 2 ^ k ^^^ 2 ^ k := by rw [add_xor_two_pow hlow]
        _ = 2 ^ k + x := by rw [Nat.xor_assoc, Nat.xor_self, Nat.xor_zero]
    rw [hxor, if_pos (by omega)]
    omega
  · obtain ⟨y, rfl⟩ := Nat.exists_eq_add_of_le (Nat.not_lt.1 hlow)
    rw [add_xor_two_pow (by omega), if_neg (by omega)]
    omega

namespace Word

variable {raw : Word} {n : Nat} {s : Int}

/-- The number that the low `n` bits of a word stand for in two's complement. No bits stand for
zero. -/
structure StandsFor (raw : Word) (n : Nat) (s : Int) : Prop where
  empty : n = 0 → s = 0
  lower : 0 < n → -(2 ^ (n - 1) : Nat) ≤ s
  upper : 0 < n → s < (2 ^ (n - 1) : Nat)
  congr : s % (2 ^ n : Nat) = raw.toNat % (2 ^ n : Nat)

theorem standsFor_iff : raw.StandsFor n s ↔ s = (raw.toNat : Int).bmod (2 ^ n) := by
  obtain rfl | hpos := Nat.eq_zero_or_pos n
  · rw [Nat.pow_zero, Int.bmod_one]
    constructor
    · intro h
      exact h.empty rfl
    · rintro rfl
      exact ⟨fun _ => rfl, nofun, nofun, by simp⟩
  · have hwrap := IntType.eq_wrap_iff (t := ⟨true, n⟩) hpos (n := raw.toNat) (v := s)
    rw [IntType.wrap, if_pos rfl, IntType.contains_signed_iff] at hwrap
    rw [← Nat.pow_eq, hwrap]
    constructor
    · intro h
      exact ⟨⟨h.lower hpos, h.upper hpos⟩, h.congr⟩
    · rintro ⟨⟨hlower, hupper⟩, hcongr⟩
      exact ⟨fun h => absurd h (Nat.ne_of_gt hpos), fun _ => hlower, fun _ => hupper, hcongr⟩

theorem signExtend_eq_bmod (raw : Word) (hn : n ≤ 64) :
    raw.signExtend n = (raw.toNat : Int).bmod (2 ^ n) := by
  rw [signExtend_eq raw hn, BitVec.toInt_setWidth]

theorem bmod_two_pow_bmod (x : Int) (hn : n ≤ 64) :
    (x.bmod (2 ^ n)).bmod (2 ^ 64) = x.bmod (2 ^ n) := by
  have hpos := Nat.two_pow_pos n
  have hpow : 2 ^ n ≤ 2 ^ 64 := Nat.pow_le_pow_right (by decide) hn
  have hlower := Int.le_bmod (x := x) hpos
  have hupper := Int.bmod_lt (x := x) hpos
  exact Int.bmod_eq_of_le (by omega) (by omega)

theorem toInt_sub_toNat (x y : Word) : (x - y).toInt = ((x.toNat : Int) - y.toNat).bmod (2 ^ 64) := by
  rw [BitVec.toInt_sub, BitVec.toInt_eq_toNat_bmod, BitVec.toInt_eq_toNat_bmod, Int.bmod_sub_bmod,
    Int.sub_bmod_bmod]

theorem natCast_one_shiftLeft (k : Nat) : ((1 <<< k : Nat) : Word) = (1 : Word) <<< k := by
  apply BitVec.eq_of_toNat_eq
  rw [BitVec.natCast_eq_ofNat, BitVec.toNat_ofNat, BitVec.toNat_shiftLeft]
  rfl

theorem toNat_one_shiftLeft {k : Nat} (hk : k < 64) : ((1 : Word) <<< k).toNat = 2 ^ k := by
  have hpow : 2 ^ k < 2 ^ 64 := Nat.pow_lt_pow_right (by decide) hk
  rw [BitVec.toNat_shiftLeft, Nat.shiftLeft_eq]
  exact (congrArg (· % 2 ^ 64) (Nat.one_mul _)).trans (Nat.mod_eq_of_lt hpow)

theorem bmod_two_eq (raw : Word) :
    (raw.toNat : Int).bmod 2 = if raw &&& 1 = 1 then -1 else 0 := by
  have hlast : (raw &&& 1).toNat = raw.toNat % 2 := Nat.and_one_is_mod raw.toNat
  have hiff : raw &&& 1 = 1 ↔ raw.toNat % 2 = 1 := by
    rw [← hlast]
    exact BitVec.toNat_inj.symm
  rw [Int.bmod_def, if_congr hiff rfl rfl]
  split <;> split <;> omega

theorem signExtendByXor_eq_bmod (raw : Word) (hn : n ≤ 64) :
    raw.signExtendByXor n = .ok ((raw.toNat : Int).bmod (2 ^ n)) := by
  rw [signExtendByXor]
  split
  · rename_i h
    rw [h, Nat.pow_zero, Int.bmod_one]
  · split
    · rename_i h
      rw [h, Nat.pow_one, bmod_two_eq]
    · -- `k` is the place of the sign
      obtain ⟨k, rfl⟩ : ∃ k, n = k + 1 := ⟨n - 1, by omega⟩
      have hmask : ((raw.mask (k + 1)).toNat : Int).bmod (2 ^ (k + 1)) =
          (raw.toNat : Int).bmod (2 ^ (k + 1)) := by
        rw [toNat_mask, Int.natCast_mod, Int.emod_bmod]
      rw [if_neg (Nat.not_lt.2 hn)]
      dsimp only
      rw [Nat.add_sub_cancel, natCast_one_shiftLeft, toInt_sub_toNat, BitVec.toNat_xor,
        toNat_one_shiftLeft hn, xor_sub_two_pow (raw.toNat_mask_lt (k + 1)), hmask,
        bmod_two_pow_bmod _ hn]

def difference {α : Type} [Sub α] [LE α] [DecidableLE α] (a b : α) : Except Fault α :=
  if b ≤ a then .ok (a - b) else .error .overflow

def shifted (shift : Word → Nat → Word) (w : Word) (k : Nat) : Except Fault Word :=
  if k < 64 then .ok (shift w k) else .error .overflow

def guardedLowMask (n : Nat) : Except Fault Word :=
  if 64 ≤ n then .ok (BitVec.allOnes 64)
  else (shifted (· <<< ·) 1 n).bind fun power => difference power 1

def guardedMask (w : Word) (n : Nat) : Except Fault Word := (guardedLowMask n).map (w &&& ·)

def guardedSignExtend (raw : Word) (n : Nat) : Except Fault Int :=
  if n = 0 then .ok 0
  else if 64 ≤ n then .ok raw.toInt
  else do
    let k ← difference 64 n
    let high ← shifted (· <<< ·) raw k
    let extended ← shifted BitVec.sshiftRight high k
    return extended.toInt

def guardedSignExtendByXor (raw : Word) (n : Nat) : Except Fault Int :=
  if n = 0 then .ok 0
  else if n = 1 then .ok (if raw &&& 1 = 1 then -1 else 0)
  else do
    let value ← guardedMask raw n
    let k ← difference n 1
    let sign ← shifted (· <<< ·) 1 k
    return ((value ^^^ sign) - sign).toInt

theorem difference_of_le {α : Type} [Sub α] [LE α] [DecidableLE α] {a b : α} (h : b ≤ a) :
    difference a b = .ok (a - b) :=
  if_pos h

theorem shifted_of_lt {shift : Word → Nat → Word} {k : Nat} (h : k < 64) (w : Word) :
    shifted shift w k = .ok (shift w k) :=
  if_pos h

theorem shifted_of_le {shift : Word → Nat → Word} {k : Nat} (h : 64 ≤ k) (w : Word) :
    shifted shift w k = .error .overflow :=
  if_neg (Nat.not_lt.2 h)

theorem guardedLowMask_eq (n : Nat) : guardedLowMask n = .ok (lowMask n) := by
  rw [guardedLowMask, lowMask, natCast_one_shiftLeft]
  split
  · rfl
  · rename_i h
    have hn : n < 64 := Nat.not_le.1 h
    have hpower : (1 : Word) ≤ (1 : Word) <<< n := by
      rw [BitVec.le_def, toNat_one_shiftLeft hn]
      exact Nat.two_pow_pos n
    rw [shifted_of_lt hn]
    exact difference_of_le hpower

theorem guardedMask_eq (w : Word) (n : Nat) : guardedMask w n = .ok (w.mask n) := by
  rw [guardedMask, guardedLowMask_eq]
  rfl

theorem guardedSignExtend_eq (raw : Word) (n : Nat) :
    raw.guardedSignExtend n = .ok (raw.signExtend n) := by
  rw [guardedSignExtend, signExtend]
  split
  · rfl
  · split
    · rfl
    · have hk : 64 - n < 64 := by omega
      rw [difference_of_le (by omega)]
      simp only [bind, Except.bind, shifted_of_lt hk]
      rfl

theorem guardedSignExtendByXor_eq (raw : Word) (n : Nat) :
    raw.guardedSignExtendByXor n = raw.signExtendByXor n := by
  rw [guardedSignExtendByXor, signExtendByXor]
  split
  · rfl
  · split
    · rfl
    · rw [guardedMask_eq, difference_of_le (by omega), natCast_one_shiftLeft]
      by_cases h : 64 < n
      · -- the shift that should set the sign is the one guard that strikes
        have hk : 64 ≤ n - 1 := Nat.le_sub_one_of_lt h
        simp only [bind, Except.bind, shifted_of_le hk, if_pos h]
      · have hk : n - 1 < 64 := by omega
        simp only [bind, Except.bind, shifted_of_lt hk, if_neg h]
        rfl

/-- Both sign extensions give the number that the low bits of a word stand for, which is one number
of a signed word, and meet no guard that strikes. The number keeps the low bits. -/
theorem sign_extensions_twos_complement (raw : Word) (hn : n ≤ 64) :
    ∃ s, (∀ t, raw.StandsFor n t ↔ t = s) ∧
      raw.signExtend n = s ∧ raw.signExtendByXor n = .ok s ∧
      raw.guardedSignExtend n = .ok s ∧ raw.guardedSignExtendByXor n = .ok s ∧
      (BitVec.ofInt 64 s).toInt = s ∧ guardedMask (BitVec.ofInt 64 s) n = .ok (raw.mask n) := by
  have hshift := signExtend_eq_bmod raw hn
  have hxor := signExtendByXor_eq_bmod raw hn
  refine ⟨_, fun t => standsFor_iff, hshift, hxor, ?_, ?_, ?_, ?_⟩
  · rw [guardedSignExtend_eq, hshift]
  · rw [guardedSignExtendByXor_eq, hxor]
  · rw [BitVec.toInt_ofInt, bmod_two_pow_bmod _ hn]
  · rw [guardedMask_eq, ← hshift, mask_ofInt_signExtend raw hn]

/-- Three bits with others above them, and all bits of a word. -/
theorem sign_extensions_twos_complement_in_three_bits :
    let raw : Word := 0xfff5
    raw.signExtend 3 = -3 ∧ raw.guardedSignExtendByXor 3 = .ok (-3) ∧
      guardedMask (BitVec.ofInt 64 (-3)) 3 = .ok 5 ∧
      guardedSignExtendByXor (BitVec.allOnes 64) 64 = .ok (-1) := by
  intro raw
  obtain ⟨s, hs, hshift, -, -, hxor, -, hmask⟩ :=
    sign_extensions_twos_complement raw (by decide : 3 ≤ 64)
  obtain ⟨t, ht, -, -, -, hwide, -⟩ :=
    sign_extensions_twos_complement (BitVec.allOnes 64) (by decide : 64 ≤ 64)
  obtain rfl : -3 = s := (hs _).1 ⟨nofun, by decide, by decide, by decide⟩
  obtain rfl : -1 = t := (ht _).1 ⟨nofun, by decide, by decide, by decide⟩
  exact ⟨hshift, hxor, hmask.trans (congrArg Except.ok (by decide)), hwide⟩

end Word

end Packed
