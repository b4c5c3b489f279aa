import Packed.Encoding
import Packed.Proofs.Bcd

namespace Packed

namespace Word

theorem signExtend_eq (raw : Word) {n : Nat} (hn : n ≤ 64) :
    raw.signExtend n = (BitVec.setWidth n raw).toInt := by
  rw [signExtend]
  split
  · rename_i h
    subst h
    simp [BitVec.toInt_zero_length]
  · split
    · rename_i h
      obtain rfl : n = 64 := by omega
      rw [BitVec.setWidth_eq]
    · rename_i h0 h64
      have hs : (raw <<< (64 - n)).sshiftRight (64 - n) =
          BitVec.signExtend 64 (BitVec.setWidth n raw) := by
        apply BitVec.eq_of_getLsbD_eq
        intro i hi
        rw [BitVec.getLsbD_sshiftRight, BitVec.getLsbD_signExtend, BitVec.msb_eq_getLsbD_last,
          BitVec.msb_eq_getLsbD_last]
        simp only [BitVec.getLsbD_shiftLeft, BitVec.getLsbD_setWidth, hi, decide_true,
          Bool.true_and, Nat.not_le.2 hi, decide_false, Bool.not_false]
        by_cases hin : i < n
        · have h1 : 64 - n + i < 64 := by omega
          have h2 : ¬ 64 - n + i < 64 - n := by omega
          simp [hin, h1, h2]
        · have h1 : ¬ 64 - n + i < 64 := by omega
          have h2 : ¬ 64 - 1 < 64 - n := by omega
          have h3 : 64 - 1 - (64 - n) = n - 1 := by omega
          have h4 : n - 1 < n := by omega
          simp [hin, h1, h2, h3, h4]
      rw [hs, BitVec.toInt_signExtend_of_le hn]

theorem mask_ofInt_signExtend (raw : Word) {n : Nat} (hn : n ≤ 64) :
    mask (BitVec.ofInt 64 (raw.signExtend n)) n = raw.mask n := by
  rw [signExtend_eq raw hn]
  change mask (BitVec.signExtend 64 (BitVec.setWidth n raw)) n = raw.mask n
  apply BitVec.eq_of_getLsbD_eq
  intro i hi
  rw [getLsbD_mask, getLsbD_mask, BitVec.getLsbD_signExtend]
  by_cases hin : i < n
  · simp [hin, hi]
  · simp [hin]

theorem toNat_mask_ofInt (v : Int) {n : Nat} (hn : n ≤ 64) :
    ((mask (BitVec.ofInt 64 v) n).toNat : Int) = v % (2 ^ n : Nat) := by
  have hdvd : ((2 ^ n : Nat) : Int) ∣ ((2 ^ 64 : Nat) : Int) := by
    exact_mod_cast Nat.pow_dvd_pow 2 hn
  have hpos : 0 ≤ v % ((2 ^ 64 : Nat) : Int) := Int.emod_nonneg v (by norm_num)
  rw [toNat_mask, BitVec.toNat_ofInt, Int.natCast_mod, Int.toNat_of_nonneg hpos,
    Int.emod_emod_of_dvd v hdvd]

end Word

namespace IntType

theorem contains_iff (t : IntType) (n : Int) : t.contains n = true ↔ t.low ≤ n ∧ n ≤ t.high := by
  simp [contains]

theorem contains_unsigned_iff (bits : Nat) (n : Int) :
    (IntType.mk false bits).contains n = true ↔ 0 ≤ n ∧ n < (2 ^ bits : Nat) := by
  rw [contains_iff]
  simp only [low, high, Nat.pow_eq, Bool.false_eq_true, if_false]
  omega

theorem contains_signed_iff (bits : Nat) (n : Int) :
    (IntType.mk true bits).contains n = true ↔
      -(2 ^ (bits - 1) : Nat) ≤ n ∧ n < (2 ^ (bits - 1) : Nat) := by
  rw [contains_iff]
  simp only [low, high, Nat.pow_eq, if_true]
  omega

theorem contains_toInt {n : Nat} (hn : 0 < n) (x : BitVec n) :
    (IntType.mk true n).contains x.toInt = true := by
  rw [contains_signed_iff]
  have h1 := BitVec.le_two_mul_toInt (x := x)
  have h2 := BitVec.two_mul_toInt_lt (x := x)
  have hp : (2 : Int) ^ n = 2 * (2 ^ (n - 1) : Nat) := by
    obtain ⟨k, rfl⟩ : ∃ k, n = k + 1 := ⟨n - 1, by omega⟩
    push_cast
    rw [pow_succ, mul_comm]
  omega

theorem contains_mono {signed : Bool} {v w : Nat} (h : v ≤ w) {n : Int}
    (hn : (IntType.mk signed v).contains n = true) : (IntType.mk signed w).contains n = true := by
  cases signed with
  | false =>
      rw [contains_unsigned_iff] at hn ⊢
      have hp : 2 ^ v ≤ 2 ^ w := Nat.pow_le_pow_right (by omega) h
      omega
  | true =>
      rw [contains_signed_iff] at hn ⊢
      have hp : 2 ^ (v - 1) ≤ 2 ^ (w - 1) := Nat.pow_le_pow_right (by omega) (by omega)
      omega

theorem contains_wrap (t : IntType) (ht : 0 < t.bits) (n : Int) : t.contains (t.wrap n) = true := by
  obtain ⟨signed, bits⟩ := t
  cases signed with
  | false =>
      rw [contains_unsigned_iff]
      simp only [wrap, Bool.false_eq_true, if_false, Nat.pow_eq]
      have hp : (0 : Int) < (2 ^ bits : Nat) := by exact_mod_cast Nat.two_pow_pos bits
      exact ⟨Int.emod_nonneg _ (by omega), Int.emod_lt_of_pos _ hp⟩
  | true =>
      have hw : (IntType.mk true bits).wrap n = (BitVec.ofInt bits n).toInt := by
        simp [wrap, BitVec.toInt_ofInt]
      rw [hw]
      exact contains_toInt ht _

theorem wrap_of_contains {t : IntType} (ht : 0 < t.bits) {n : Int} (h : t.contains n = true) :
    t.wrap n = n := by
  obtain ⟨signed, bits⟩ := t
  cases signed with
  | false =>
      rw [contains_unsigned_iff] at h
      simp only [wrap, Bool.false_eq_true, if_false, Nat.pow_eq]
      exact Int.emod_eq_of_lt h.1 h.2
  | true =>
      rw [contains_signed_iff] at h
      have hp : 2 ^ bits = 2 * 2 ^ (bits - 1) := by
        obtain ⟨k, rfl⟩ : ∃ k, bits = k + 1 := ⟨bits - 1, by simp at ht; omega⟩
        rw [Nat.add_sub_cancel, pow_succ, mul_comm]
      simp only [wrap, if_true, Nat.pow_eq, hp]
      exact Int.bmod_eq_of_le (by omega) (by omega)

theorem contains_signExtend (raw : Word) {n : Nat} (h0 : 0 < n) (hn : n ≤ 64) :
    (IntType.mk true n).contains (raw.signExtend n) = true := by
  rw [Word.signExtend_eq raw hn]
  exact contains_toInt h0 _

theorem contains_mask (raw : Word) (n : Nat) :
    (IntType.mk false n).contains (raw.mask n).toNat = true := by
  rw [contains_unsigned_iff]
  have hlt := raw.toNat_mask_lt n
  omega

theorem wrap_emod (t : IntType) (n : Int) : t.wrap n % (2 ^ t.bits : Nat) = n % (2 ^ t.bits : Nat) := by
  rw [wrap, Nat.pow_eq]
  split
  · exact Int.bmod_emod
  · exact Int.emod_emod_of_dvd n (Int.dvd_refl _)

theorem wrap_congr (t : IntType) {a b : Int}
    (h : a % (2 ^ t.bits : Nat) = b % (2 ^ t.bits : Nat)) : t.wrap a = t.wrap b := by
  rw [wrap, wrap, Nat.pow_eq]
  split
  · rw [← Int.emod_bmod a, h, Int.emod_bmod]
  · exact h

theorem wrap_eq_wrap_iff (t : IntType) {a b : Int} :
    t.wrap a = t.wrap b ↔ a % (2 ^ t.bits : Nat) = b % (2 ^ t.bits : Nat) := by
  refine ⟨fun h => ?_, t.wrap_congr⟩
  rw [← t.wrap_emod a, h, t.wrap_emod]

theorem le_leastBits {w : Nat} (h : w ≤ 64) : w ≤ leastBits w := by
  rw [leastBits]
  split <;> [skip; split <;> [skip; split]] <;> omega

theorem leastBits_le (n : Nat) : leastBits n ≤ 64 := by
  rw [leastBits]
  split <;> [skip; split <;> [skip; split]] <;> omega

theorem two_pow_le_leastBits {w : Nat} (h : w ≤ 64) : 2 ^ w ≤ 2 ^ leastBits w :=
  Nat.pow_le_pow_right Nat.two_pos (le_leastBits h)

end IntType

namespace Kind

variable {k : Kind} {w : Nat}

/-- The number type of an enumeration has all the numbers of a field, so that none is cut. -/
def HoldsWidth (k : Kind) (w : Nat) : Prop := ∀ e, k = .named e → w ≤ e.host.bits

def Hosted (k : Kind) : Prop := ∀ e, k = .named e → 0 < e.host.bits

theorem hosted_named {e : EnumType} (he : 0 < e.host.bits) : (named e).Hosted := by
  rintro _ ⟨⟩
  exact he

theorem HoldsWidth.hosted (h : k.HoldsWidth w) (hw : k.Admits w) : k.Hosted := by
  rintro e rfl
  exact Nat.lt_of_lt_of_le hw.1 (h e rfl)

theorem range_of_le {w : Nat} (signed : Bool) (h : w ≤ 64) : range signed w = ⟨signed, w⟩ := by
  rw [range, Nat.min_eq_left h]

def numberOf (signed : Bool) (w : Nat) (raw : Word) : Int :=
  if signed then raw.signExtend w else (raw.mask w).toNat

theorem contains_numberOf (signed : Bool) (raw : Word) (h0 : 0 < w) (hw : w ≤ 64) :
    (IntType.mk signed w).contains (numberOf signed w raw) = true := by
  cases signed with
  | false => exact IntType.contains_mask raw w
  | true => exact IntType.contains_signExtend raw h0 hw

theorem mask_ofInt_numberOf (signed : Bool) (raw : Word) (hw : w ≤ 64) :
    Word.mask (BitVec.ofInt 64 (numberOf signed w raw)) w = raw.mask w := by
  cases signed with
  | false =>
      have h : BitVec.ofInt 64 ((raw.mask w).toNat : Int) = raw.mask w := by
        rw [BitVec.ofInt_natCast, BitVec.ofNat_toNat, BitVec.setWidth_eq]
      rw [numberOf, if_neg (by decide), h, Word.mask_mask, Nat.min_self]
  | true => exact Word.mask_ofInt_signExtend raw hw

theorem numberOf_mask (signed : Bool) (raw : Word) (hw : w ≤ 64) :
    numberOf signed w (raw.mask w) = numberOf signed w raw := by
  cases signed with
  | false => simp [numberOf, Word.mask_mask]
  | true =>
      have h : BitVec.setWidth w (raw.mask w) = BitVec.setWidth w raw := by
        apply BitVec.eq_of_getLsbD_eq
        intro i hi
        simp only [BitVec.getLsbD_setWidth, Word.getLsbD_mask, hi, decide_true, Bool.true_and]
      simp only [numberOf, if_true, Word.signExtend_eq _ hw, h]

theorem toNat_decode_decimal (raw : Word) (hw : w ≤ 64) :
    Kind.decimal.decode w raw = (Bcd.decode (raw.mask w) w).toNat := by
  have h1 := Bcd.toNat_decode_le (raw.mask w) w
  have h2 := raw.toNat_mask_lt w
  have h3 := IntType.two_pow_le_leastBits hw
  exact Nat.mod_eq_of_lt (by rw [Nat.pow_eq]; omega)

theorem wellFormed_mask (k : Kind) (w : Nat) (raw : Word) :
    k.wellFormed w (raw.mask w) = k.wellFormed w raw := by
  cases k <;> simp [wellFormed, Word.mask_mask]

theorem decode_mask (hw : k.Admits w) (raw : Word) : k.decode w (raw.mask w) = k.decode w raw := by
  cases k with
  | unsigned => simp [decode, Word.mask_mask]
  | signed => exact numberOf_mask true raw hw.2
  | decimal => simp [decode, Word.mask_mask]
  | flag =>
      obtain rfl : w = 1 := hw
      simp only [decode, Word.getLsbD_mask]
      rfl
  | float f =>
      obtain rfl : w = f.width := hw
      simp [decode, Word.mask_mask]
  | named e =>
      change e.host.wrap (numberOf e.host.signed w (raw.mask w)) = _
      rw [numberOf_mask _ raw hw.2]
      rfl

theorem fits_decode (hw : k.Admits w) (hk : k.Hosted) {raw : Word}
    (h : k.wellFormed w raw = true) : k.fits w (k.decode w raw) = true := by
  cases k with
  | unsigned =>
      simp only [fits, range_of_le false hw.2]
      exact IntType.contains_mask raw w
  | signed =>
      simp only [fits, range_of_le true hw.2]
      exact IntType.contains_signExtend raw hw.1 hw.2
  | decimal =>
      rw [toNat_decode_decimal raw hw.2, fits, Bcd.encode?_decode hw.2 (raw.toNat_mask_lt w) h]
      rfl
  | flag => rfl
  | float f => rfl
  | named e =>
      have hb := hk e rfl
      have hn := contains_numberOf e.host.signed raw hw.1 hw.2
      have hc := IntType.contains_wrap e.host hb (numberOf e.host.signed w raw)
      simp only [fits, range_of_le _ hw.2, Bool.and_eq_true]
      refine ⟨hc, ?_⟩
      by_cases hle : w ≤ e.host.bits
      · have hx := IntType.wrap_of_contains hb (IntType.contains_mono hle hn)
        change (IntType.mk e.host.signed w).contains (e.host.wrap (numberOf e.host.signed w raw)) = _
        rwa [hx]
      · exact IntType.contains_mono (v := e.host.bits) (Nat.le_of_not_le hle) hc

theorem pattern_eq_encode (hw : k.Admits w) {v : k.Value} (h : k.fits w v = true) :
    k.pattern w v = k.encode w v := by
  cases k with
  | unsigned =>
      rw [fits, range_of_le false hw.2, IntType.contains_unsigned_iff] at h
      have hv : v < 2 ^ w := Int.ofNat_lt.1 h.2
      have hpow : 2 ^ w ≤ 2 ^ 64 := Nat.pow_le_pow_right (by decide) hw.2
      rw [pattern, encode, (Word.mask_eq_self_iff _ _).2]
      rwa [BitVec.toNat_ofNat, Nat.mod_eq_of_lt (Nat.lt_of_lt_of_le hv hpow)]
  | decimal => exact (Bcd.encodeLow_eq_pack h).2.2.symm
  | signed | flag | float | named => rfl

theorem encode_decode (hw : k.Admits w) (hk : k.HoldsWidth w) {raw : Word}
    (h : k.wellFormed w raw = true) : k.encode w (k.decode w raw) = raw.mask w := by
  cases k with
  | unsigned =>
      have hm := mask_ofInt_numberOf false raw hw.2
      rwa [numberOf, if_neg (by decide), BitVec.ofInt_natCast] at hm
  | signed => exact mask_ofInt_numberOf true raw hw.2
  | decimal =>
      rw [toNat_decode_decimal raw hw.2, encode, Bcd.encodeLow,
        Bcd.pack_decode hw.2 (raw.toNat_mask_lt w) h, Word.mask_mask, Nat.min_self]
  | flag =>
      obtain rfl : w = 1 := hw
      apply BitVec.eq_of_getLsbD_eq
      intro i hi
      rw [Word.getLsbD_mask]
      cases i with
      | zero =>
          rw [encode, decode]
          cases raw.getLsbD 0 <;> rfl
      | succ i =>
          rw [encode, decode]
          cases raw.getLsbD 0 <;> simp [BitVec.getLsbD_one]
  | float f =>
      obtain rfl : w = f.width := hw
      rfl
  | named e =>
      have hb : 0 < e.host.bits := hk.hosted hw e rfl
      have hn := contains_numberOf e.host.signed raw hw.1 hw.2
      have hx := IntType.wrap_of_contains hb (IntType.contains_mono (hk e rfl) hn)
      change Word.mask (BitVec.ofInt 64 (e.host.wrap (numberOf e.host.signed w raw))) w = raw.mask w
      rw [hx, mask_ofInt_numberOf _ raw hw.2]

theorem numberOf_mask_ofInt {signed : Bool} {v : Int} (hw : w ≤ 64) (h0 : 0 < w)
    (h : (IntType.mk signed w).contains v = true) :
    numberOf signed w (Word.mask (BitVec.ofInt 64 v) w) = v := by
  have hpow : 2 ^ w ≤ 2 ^ 64 := Nat.pow_le_pow_right (by omega) hw
  cases signed with
  | false =>
      rw [IntType.contains_unsigned_iff] at h
      obtain ⟨n, rfl⟩ := Int.eq_ofNat_of_zero_le h.1
      have hn : n < 2 ^ w := by exact_mod_cast h.2
      rw [numberOf, if_neg (by decide), Word.mask_mask, Nat.min_self, Word.toNat_mask,
        BitVec.ofInt_natCast, BitVec.toNat_ofNat, Nat.mod_eq_of_lt (a := n) (by omega),
        Nat.mod_eq_of_lt hn]
  | true =>
      have hwrap := IntType.wrap_of_contains (t := ⟨true, w⟩) h0 h
      -- `v` is the number of a pattern of `w` bits, and taking it to a word extends the pattern
      obtain ⟨x, hx⟩ : ∃ x : BitVec w, x.toInt = v :=
        ⟨BitVec.ofInt w v, by rw [BitVec.toInt_ofInt]; exact hwrap⟩
      have hset : BitVec.setWidth w (Word.mask (BitVec.signExtend 64 x) w) = x := by
        apply BitVec.eq_of_getLsbD_eq
        intro i hi
        have hi' : i < 64 := by omega
        simp only [BitVec.getLsbD_setWidth, Word.getLsbD_mask, BitVec.getLsbD_signExtend, hi, hi',
          decide_true, Bool.true_and, if_true]
      subst hx
      rw [numberOf, if_pos rfl, Word.signExtend_eq _ hw]
      exact congrArg BitVec.toInt hset

def Exact : (k : Kind) → k.Value → Prop
  | .float f, v => v.mask f.width = v
  | .unsigned, _ => True
  | .signed, _ => True
  | .decimal, _ => True
  | .flag, _ => True
  | .named _, _ => True

theorem exact_decode (k : Kind) (u : Nat) (raw : Word) : k.Exact (k.decode u raw) := by
  cases k with
  | float f => simp only [Exact, decode, Word.mask_mask, Nat.min_self]
  | unsigned | signed | decimal | flag | named => trivial

theorem mask_encode (hw : k.Admits w) {v : k.Value} (hv : k.Exact v) :
    (k.encode w v).mask w = k.encode w v := by
  cases k with
  | unsigned | signed | named => simp only [encode, Word.mask_mask, Nat.min_self]
  | decimal => simp only [encode, Bcd.encodeLow, Word.mask_mask, Nat.min_self]
  | flag =>
      obtain rfl : w = 1 := hw
      rw [encode]
      cases v <;> rfl
  | float f =>
      obtain rfl : w = f.width := hw
      exact hv

theorem decode_encode (hw : k.Admits w) (hk : k.Hosted) {v : k.Value} (hv : k.Exact v)
    (h : k.fits w v = true) :
    k.wellFormed w (k.encode w v) = true ∧ k.decode w (k.encode w v) = v := by
  cases k with
  | unsigned =>
      simp only [fits, range_of_le false hw.2] at h
      have hn := numberOf_mask_ofInt hw.2 hw.1 h
      rw [numberOf, if_neg (by decide), BitVec.ofInt_natCast] at hn
      exact ⟨rfl, Int.ofNat.inj hn⟩
  | signed =>
      simp only [fits, range_of_le true hw.2] at h
      exact ⟨rfl, numberOf_mask_ofInt hw.2 hw.1 h⟩
  | decimal =>
      obtain ⟨hb, hd⟩ := Bcd.decode_encodeLow hw.2 h
      have hm := mask_encode (k := .decimal) hw hv
      refine ⟨?_, ?_⟩
      · rwa [wellFormed, hm]
      · rw [toNat_decode_decimal _ hw.2, hm]
        exact hd
  | flag =>
      refine ⟨rfl, ?_⟩
      rw [decode, encode]
      cases v <;> rfl
  | float f => exact ⟨rfl, hv⟩
  | named e =>
      simp only [fits, range_of_le _ hw.2, Bool.and_eq_true] at h
      have hb := hk e rfl
      refine ⟨rfl, ?_⟩
      change e.host.wrap (numberOf e.host.signed w (Word.mask (BitVec.ofInt 64 _) w)) = _
      rw [numberOf_mask_ofInt hw.2 hw.1 h.2]
      exact IntType.wrap_of_contains hb h.1

theorem decode_mask_of_le (hw : k.Admits w) {z : Nat} (h : w ≤ z) (raw : Word) :
    k.decode w (raw.mask z) = k.decode w raw := by
  rw [← decode_mask hw, Word.mask_mask, Nat.min_eq_right h, decode_mask hw]

theorem numberOf_of_lt (signed : Bool) {raw : Word} {z : Nat} (hr : raw.toNat < 2 ^ z)
    (hz : z < w) (hw : w ≤ 64) : numberOf signed w raw = raw.toNat := by
  have hpow : 2 ^ (z + 1) ≤ 2 ^ w := Nat.pow_le_pow_right (by omega) hz
  rw [Nat.pow_succ] at hpow
  cases signed with
  | false => rw [numberOf, if_neg (by decide), (Word.mask_eq_self_iff raw w).2 (by omega)]
  | true =>
      have hn : (BitVec.setWidth w raw).toNat = raw.toNat := by
        rw [BitVec.toNat_setWidth, Nat.mod_eq_of_lt (by omega)]
      rw [numberOf, if_pos rfl, Word.signExtend_eq raw hw, BitVec.toInt_eq_toNat_of_lt (by omega),
        hn]

/-- Of an enumeration in a field with more bits than its storage, the bits that have a place in the
storage suffice for the number. -/
theorem decode_encode_named {e : EnumType} {raw : Word} {z : Nat} (he : 0 < e.host.bits)
    (hr : raw.toNat < 2 ^ z) (hz : z < w) (hw : w ≤ 64) :
    (Kind.named e).decode w (((Kind.named e).encode w ((Kind.named e).decode w raw)).mask z) =
      (Kind.named e).decode w raw := by
  have hdecode : ∀ raw : Word, raw.toNat < 2 ^ z →
      (Kind.named e).decode w raw = e.host.wrap raw.toNat := by
    intro raw hr
    change e.host.wrap (numberOf e.host.signed w raw) = _
    rw [numberOf_of_lt _ hr hz hw]
  have hbits : ∀ v : Int, (((Word.mask (BitVec.ofInt 64 v) w).mask z).toNat : Int) =
      v % (2 ^ z : Nat) := by
    intro v
    rw [Word.mask_mask, Nat.min_eq_right (Nat.le_of_lt hz), Word.toNat_mask_ofInt v (by omega)]
  rw [hdecode _ (Word.toNat_mask_lt _ z), hdecode raw hr, encode, hbits]
  by_cases hz' : e.host.bits ≤ z
  · have hdvd : ((2 ^ e.host.bits : Nat) : Int) ∣ ((2 ^ z : Nat) : Int) := by
      exact_mod_cast Nat.pow_dvd_pow 2 hz'
    apply IntType.wrap_congr
    rw [Int.emod_emod_of_dvd _ hdvd, IntType.wrap_emod]
  · have hc : e.host.contains raw.toNat = true := by
      change (IntType.mk e.host.signed e.host.bits).contains _ = true
      apply IntType.contains_mono (v := z + 1) (by omega)
      cases e.host.signed with
      | false =>
          rw [IntType.contains_unsigned_iff, Nat.pow_succ]
          omega
      | true =>
          rw [IntType.contains_signed_iff, Nat.add_sub_cancel]
          omega
    rw [IntType.wrap_of_contains he hc, Int.emod_eq_of_lt (by omega) (by omega),
      IntType.wrap_of_contains he hc]

theorem decode_recode (hw : k.Admits w) (hk : k.Hosted) {raw : Word} {z : Nat}
    (hz : raw.mask z = raw) :
    k.decode w ((k.recode w w raw).mask z) = k.decode w raw := by
  have hencode : k.wellFormed w raw = true → k.recode w w raw = k.encode w (k.decode w raw) →
      k.HoldsWidth w ∨ w ≤ z → k.decode w ((k.recode w w raw).mask z) = k.decode w raw := by
    rintro hwf hrec (hh | hle)
    · rw [hrec, encode_decode hw hh hwf, Word.mask_mask, Nat.min_comm, ← Word.mask_mask, hz,
        decode_mask hw]
    · rw [hrec, decode_mask_of_le hw hle]
      exact (decode_encode hw hk (exact_decode k w raw) (fits_decode hw hk hwf)).2
  cases k with
  | unsigned | signed | flag | float => exact hencode rfl rfl (.inl fun e he => by cases he)
  | decimal =>
      simp only [recode, Word.mask_mask, Nat.min_self]
      rw [Nat.min_comm, ← Word.mask_mask, hz, decode_mask hw]
  | named e =>
      by_cases hle : w ≤ z
      · exact hencode rfl rfl (.inr hle)
      · exact decode_encode_named (hk e rfl) ((Word.mask_eq_self_iff raw z).1 hz) (by omega) hw.2

def Whole (k : Kind) : Prop := k = .unsigned ∨ k = .signed

theorem Whole.wellFormed (h : k.Whole) (w : Nat) (raw : Word) : k.wellFormed w raw = true := by
  obtain rfl | rfl := h <;> rfl

theorem Whole.hosted (h : k.Whole) : k.Hosted := by
  rintro e rfl
  obtain h | h := h <;> cases h

theorem Whole.holdsWidth (h : k.Whole) (w : Nat) : k.HoldsWidth w := by
  rintro e rfl
  obtain h | h := h <;> cases h

theorem Whole.fits_zero (h : k.Whole) {v : Nat} (hw : k.Admits w) (hv : k.Admits v) :
    k.fits w (k.decode v 0) = true ∧ k.encode w (k.decode v 0) = 0 := by
  obtain rfl | rfl := h
  · have h0 : decode .unsigned v 0 = (0 : Nat) := by simp [decode, Word.mask]
    have hm : Word.mask 0 w = 0 := BitVec.zero_and
    rw [h0]
    refine ⟨?_, hm⟩
    rw [fits, range_of_le false hw.2, IntType.contains_unsigned_iff]
    exact ⟨Int.le_refl 0, by exact_mod_cast Nat.two_pow_pos w⟩
  · have h0 : decode .signed v 0 = (0 : Int) := by
      rw [decode, Word.signExtend_eq 0 hv.2]
      simp
    have hm : Word.mask 0 w = 0 := BitVec.zero_and
    rw [h0]
    refine ⟨?_, hm⟩
    rw [fits, range_of_le true hw.2, IntType.contains_signed_iff]
    have hpos := Nat.two_pow_pos (w - 1)
    omega

end Kind

end Packed
