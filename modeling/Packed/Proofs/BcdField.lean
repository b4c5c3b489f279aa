import Mathlib.Algebra.BigOperators.Group.Finset.Basic
import Mathlib.Algebra.BigOperators.Ring.Finset
import Packed.Proofs.FieldWrite

namespace Packed

namespace Bcd

open Finset

def Decimal (r : Nat) : Prop := ∀ i, r / 16 ^ i % 16 ≤ 9

/-- The numbers below this one have a place in `w` bits: a group of four bits holds any digit, and a
part of a group what it can. -/
def limit (w : Nat) : Nat := 2 ^ (w % 4) * 10 ^ (w / 4)

variable {raw : Word} {v w : Nat}

theorem value_eq_sum (r n : Nat) : value r n = ∑ i ∈ range n, r / 16 ^ i % 16 * 10 ^ i := by
  induction n generalizing r with
  | zero => rfl
  | succ n ih =>
      have hstep : ∀ i, r / 16 ^ (i + 1) = r / 16 / 16 ^ i := by
        intro i
        rw [Nat.pow_succ', Nat.div_div_eq_div_mul]
      rw [value, ih, sum_range_succ', mul_sum, Nat.add_comm]
      apply congrArg₂
      · refine sum_congr rfl fun i _ => ?_
        rw [hstep, Nat.pow_succ']
        ring
      · simp

theorem toNat_decode (raw : Word) (w : Nat) :
    (decode raw w).toNat = ∑ i ∈ range (groups w), raw.toNat / 16 ^ i % 16 * 10 ^ i := by
  rw [decode, toNat_decodeGroups, value_eq_sum]

theorem digits_iff_decimal {r n : Nat} (hr : r < 16 ^ n) : Digits r n ↔ Decimal r := by
  refine ⟨fun h i => ?_, fun h i _ => h i⟩
  by_cases hi : i < n
  · exact h i hi
  · have hle : 16 ^ n ≤ 16 ^ i := Nat.pow_le_pow_right (by decide) (Nat.not_lt.1 hi)
    rw [Nat.div_eq_of_lt (Nat.lt_of_lt_of_le hr hle)]
    decide

theorem isBcd_iff_decimal (hw : w ≤ 64) (hr : raw.toNat < 2 ^ w) :
    isBcd raw w = true ↔ Decimal raw.toNat := by
  rw [isBcd_iff_digits, digits_iff_decimal (lt_groups hw hr)]

theorem encodeLow_of_encode? (h : encode? v w = some raw) : encodeLow v w = raw := by
  obtain ⟨-, -, hlow⟩ := encodeLow_eq_pack (v := v) (w := w) (by rw [h]; rfl)
  rw [encode?] at h
  split at h
  · rw [hlow]
    exact Option.some.inj h
  · cases h

theorem encode?_eq_some_iff (hw : w ≤ 64) : encode? v w = some raw ↔
    raw.toNat < 2 ^ w ∧ Decimal raw.toNat ∧ (decode raw w).toNat = v := by
  constructor
  · intro h
    have hsome : (encode? v w).isSome = true := by rw [h]; rfl
    obtain ⟨hb, hd⟩ := decode_encodeLow hw hsome
    have hlt := Word.toNat_mask_lt (pack 16 v) w
    change (encodeLow v w).toNat < 2 ^ w at hlt
    rw [encodeLow_of_encode? h] at hb hd hlt
    exact ⟨hlt, (isBcd_iff_decimal hw hlt).1 hb, hd⟩
  · rintro ⟨hlt, hb, rfl⟩
    exact encode?_decode hw hlt ((isBcd_iff_decimal hw hlt).2 hb)

theorem exists_encode?_iff (hw : w ≤ 64) : (∃ raw, encode? v w = some raw) ↔ v < limit w := by
  rw [limit, ← isSome_encode?_iff_lt hw, Option.isSome_iff_exists]

end Bcd

namespace Field

variable {f : Field .decimal} {v : Nat} {r : Region} {m : Memory}

def pattern {k : Kind} (f : Field k) (m : Memory) : Word := (f.storage.load m).mask f.width

theorem toNat_pattern_lt {k : Kind} (f : Field k) (m : Memory) :
    (f.pattern m).toNat < 2 ^ f.width :=
  Word.toNat_mask_lt _ _

theorem couldWrite_decimal_iff (hc : ∀ v, f.check v = true) :
    f.couldWrite v = true ↔ v < Bcd.limit f.width := by
  rw [couldWrite, hc, Bool.and_true]
  exact Bcd.isSome_encode?_iff_lt f.admits.2

theorem uncheckedRead_decimal (f : Field .decimal) (m : Memory) :
    f.uncheckedRead m = (Bcd.decode (f.pattern m) f.width).toNat :=
  Kind.toNat_decode_decimal _ f.admits.2

theorem ok_decimal_iff (hc : ∀ v, f.check v = true) (h : f.isComplete = true) :
    f.ok m = true ↔ Bcd.Decimal (f.pattern m).toNat := by
  rw [ok_iff, ← Bcd.isBcd_iff_decimal f.admits.2 (f.toNat_pattern_lt m)]
  exact ⟨fun hok => hok.2.1, fun hb => ⟨h, hb, hc _⟩⟩

theorem write_decimal {raw : Word} (hc : ∀ v, f.check v = true) (h : f.isComplete = true)
    (hr : f.storage.Spans r m) (he : Bcd.encode? v f.width = some raw) :
    ∃ n, f.write v m = .ok n ∧ f.Written v m n ∧ f.pattern n = raw := by
  have hw : f.couldWrite v = true := by
    rw [couldWrite, hc, Bool.and_true]
    exact Option.isSome_iff_exists.2 ⟨raw, he⟩
  have hhost : Kind.decimal.Hosted := fun e hk => by cases hk
  have hwritten := written_uncheckedWrite hhost trivial hr h hw
  refine ⟨_, write_eq_ok (tryWrite_eq_ok_iff.2 ⟨hw, h, rfl⟩), hwritten, ?_⟩
  have hlow : Kind.encode .decimal f.width v = raw := Bcd.encodeLow_of_encode? he
  have hlt := (Bcd.encode?_eq_some_iff f.admits.2).1 he
  rw [pattern, uncheckedWrite, BitStorage.load_store hr, hlow, Word.mask_mask,
    Nat.min_eq_right (width_le h)]
  exact (Word.mask_eq_self_iff _ _).2 hlt.1

/-- A decimal field without a check takes exactly the numbers below the limit of its width. These and
the patterns of decimal digits within the width are encoded and decoded one to one, so that writing
and reading are inverse to each other, and the field is ok on just these patterns. Of any pattern the
decoder gives the exact sum of its groups, which is no more than the pattern itself and is not cut by
the type in which it is returned. -/
theorem decimal_writes_inverse_to_reads (hc : ∀ v, f.check v = true) (hs : f.storage.Sound)
    (hm : f.storage.base.buffer.LiesIn m) :
    (∀ v, f.couldWrite v = true ↔ v < Bcd.limit f.width) ∧
    (∀ v, v < Bcd.limit f.width ↔ ∃ raw, Bcd.encode? v f.width = some raw) ∧
    (∀ v raw, Bcd.encode? v f.width = some raw ↔
      raw.toNat < 2 ^ f.width ∧ Bcd.Decimal raw.toNat ∧ (Bcd.decode raw f.width).toNat = v) ∧
    (∀ v, v < Bcd.limit f.width → f.isComplete = true →
      ∃ n, f.write v m = .ok n ∧ Bcd.encode? v f.width = some (f.pattern n) ∧
        f.ok n = true ∧ f.read n = .ok v) ∧
    (f.isComplete = true → (f.ok m = true ↔ Bcd.Decimal (f.pattern m).toNat)) ∧
    (f.ok m = true → ∃ v n, f.read m = .ok v ∧ v < Bcd.limit f.width ∧
      f.write v m = .ok n ∧ f.pattern n = f.pattern m) ∧
    (∀ raw : Word, raw.toNat < 2 ^ f.width →
      (Bcd.decode raw f.width).toNat =
        ∑ i ∈ Finset.range (Bcd.groups f.width), raw.toNat / 16 ^ i % 16 * 10 ^ i ∧
      (Bcd.decode raw f.width).toNat ≤ raw.toNat ∧
      Kind.decimal.decode f.width raw = (Bcd.decode raw f.width).toNat) := by
  have hiff := fun v (raw : Word) => @Bcd.encode?_eq_some_iff raw v f.width f.admits.2
  have hplace := fun v => Bcd.exists_encode?_iff (v := v) f.admits.2
  have hspans := fun h => BitStorage.spans_of_ok (storage_ok h) hs hm
  refine ⟨fun v => couldWrite_decimal_iff hc, fun v => (hplace v).symm, hiff, ?_,
    fun h => ok_decimal_iff hc h, ?_, ?_⟩
  · intro v hv h
    obtain ⟨raw, he⟩ := (hplace v).2 hv
    obtain ⟨r, hr⟩ := hspans h
    obtain ⟨n, hn, hwritten, rfl⟩ := write_decimal hc h hr he
    exact ⟨n, hn, he, hwritten.ok, hwritten.read⟩
  · intro hok
    have h := (ok_iff.1 hok).1
    have he := (hiff _ (f.pattern m)).2
      ⟨f.toNat_pattern_lt m, (ok_decimal_iff hc h).1 hok, rfl⟩
    obtain ⟨r, hr⟩ := hspans h
    obtain ⟨n, hn, -, hpattern⟩ := write_decimal hc h hr he
    refine ⟨_, n, ?_, (hplace _).1 ⟨_, he⟩, hn, hpattern⟩
    rw [read_eq hok, uncheckedRead_decimal]
  · intro raw hlt
    refine ⟨Bcd.toNat_decode raw _, Bcd.toNat_decode_le raw _, ?_⟩
    rw [Kind.toNat_decode_decimal _ f.admits.2, (Word.mask_eq_self_iff raw _).2 hlt]

/-- Six bits hold one digit and a digit up to three. -/
theorem decimal_writes_inverse_to_reads_in_six_bits :
    let f : Field .decimal :=
      ⟨6, by decide, fun _ => true, .window (.ofBlock ⟨.bigPair, .ofRegion ⟨1, 2⟩⟩ 3 6)⟩
    let m : Memory := [0xff, 0x01, 0x38, 0xff]
    f.couldWrite (40 : Nat) = false ∧
      (∃ n, f.write (39 : Nat) m = .ok n ∧ f.read n = .ok (39 : Nat) ∧ f.pattern n = 0x39) ∧
      (∃ n, f.read m = .ok (27 : Nat) ∧ f.write (27 : Nat) m = .ok n ∧ f.pattern n = 0x27) ∧
      (Bcd.decode 0x2f 6).toNat = 35 := by
  intro f m
  have hs : f.storage.Sound := BitStorage.sound_part (.block _) 3 6
  have hm : f.storage.base.buffer.LiesIn m := Buffer.liesIn_ofRegion (by decide)
  obtain ⟨hcould, -, -, hwrite, -, hback, hsum⟩ :=
    decimal_writes_inverse_to_reads (fun _ => rfl) hs hm
  refine ⟨?_, ?_, ?_, ?_⟩
  · rw [Bool.eq_false_iff, Ne, hcould]
    decide
  · obtain ⟨n, hn, he, -, hread⟩ := hwrite 39 (by decide) (by decide)
    have hbits : Bcd.encode? 39 6 = some 0x39 := by decide +kernel
    exact ⟨n, hn, hread, Option.some.inj (he.symm.trans hbits)⟩
  · obtain ⟨v, n, hread, -, hn, hpattern⟩ := hback (by decide +kernel)
    have hvalue : f.uncheckedRead m = (27 : Nat) := by decide +kernel
    have hv : v = 27 := by
      rw [read_eq (by decide +kernel), hvalue] at hread
      exact (Except.ok.inj hread).symm
    subst hv
    have hbits : f.pattern m = 0x27 := by decide +kernel
    exact ⟨n, hread, hn, hpattern.trans hbits⟩
  · rw [(hsum 0x2f (by decide)).1]
    decide

end Field

end Packed
