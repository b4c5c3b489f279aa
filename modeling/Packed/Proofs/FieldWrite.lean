import Packed.Proofs.Footprint

namespace Packed

def Memory.after {ε : Type} (m : Memory) (result : Except ε Memory) : Memory :=
  result.toOption.getD m

namespace Kind

variable {k : Kind} {w : Nat} {v : k.Value}

/-- The number that `w` bits hold for a value: the value itself, modulo a power of two where it is
negative, or its decimal digits in groups of four bits. -/
def code : (k : Kind) → Nat → k.Value → Nat
  | .unsigned, _, v => v
  | .signed, w, v => (v % (2 ^ w : Nat)).toNat
  | .decimal, _, v => Bcd.packed 16 v
  | .flag, _, v => v.toNat
  | .float _, _, v => v.toNat
  | .named _, w, v => (v % (2 ^ w : Nat)).toNat

/-- The values that `w` bits have a place for. Decimal numbers have at most sixteen digits, and those
of an enumeration are of its number type besides. -/
def Representable : (k : Kind) → Nat → k.Value → Prop
  | .unsigned, w, v => v < 2 ^ w
  | .signed, w, v => -(2 ^ (w - 1) : Nat) ≤ v ∧ v < (2 ^ (w - 1) : Nat)
  | .decimal, w, v => v < 10 ^ 16 ∧ Bcd.packed 16 v < 2 ^ w
  | .flag, _, _ => True
  | .float _, _, _ => True
  | .named e, w, v => e.host.contains v = true ∧ (IntType.mk e.host.signed w).contains v = true

theorem fits_iff (hw : k.Admits w) : k.fits w v = true ↔ k.Representable w v := by
  cases k with
  | unsigned =>
      rw [fits, range_of_le false hw.2, IntType.contains_unsigned_iff, Representable]
      exact ⟨fun h => Int.ofNat_lt.1 h.2, fun h => ⟨Int.natCast_nonneg _, Int.ofNat_lt.2 h⟩⟩
  | signed =>
      rw [fits, range_of_le true hw.2, IntType.contains_signed_iff, Representable]
  | decimal => rw [fits, Bcd.isSome_encode?_iff hw.2, Representable]
  | flag | float => exact iff_of_true rfl trivial
  | named e => rw [fits, range_of_le _ hw.2, Bool.and_eq_true, Representable]

theorem toNat_encode (hw : k.Admits w) (h : k.fits w v = true) :
    (k.encode w v).toNat = k.code w v := by
  cases k with
  | unsigned =>
      rw [fits, range_of_le false hw.2, IntType.contains_unsigned_iff] at h
      have hm := Word.toNat_mask_ofInt (Nat.cast v) hw.2
      rw [BitVec.ofInt_natCast, Int.emod_eq_of_lt h.1 h.2] at hm
      exact_mod_cast hm
  | signed | named => rw [encode, code, ← Word.toNat_mask_ofInt _ hw.2, Int.toNat_natCast]
  | decimal =>
      obtain ⟨-, -, hlow⟩ := Bcd.encodeLow_eq_pack h
      rw [encode, hlow, Bcd.toNat_pack (Nat.le_refl 16), code]
  | flag => cases v <;> rfl
  | float f => rfl

theorem code_lt (hw : k.Admits w) (hv : k.Exact v) (h : k.fits w v = true) :
    k.code w v < 2 ^ w := by
  rw [← toNat_encode hw h]
  exact (Word.mask_eq_self_iff _ _).1 (mask_encode hw hv)

end Kind

namespace Field

variable {k : Kind} {f : Field k} {v : k.Value} {r : Region} {m n : Memory}

theorem couldWrite_iff :
    f.couldWrite v = true ↔ k.Representable f.width v ∧ f.check v = true := by
  rw [couldWrite, Bool.and_eq_true, Kind.fits_iff f.admits]

theorem tryWrite_eq_notRepresentable_iff :
    f.tryWrite v m = .error .notRepresentable ↔ f.couldWrite v = false := by
  rw [tryWrite]
  cases f.couldWrite v <;> cases f.isComplete <;> simp

theorem tryWrite_eq_incomplete_iff :
    f.tryWrite v m = .error .incomplete ↔ f.couldWrite v = true ∧ f.isComplete = false := by
  rw [tryWrite]
  cases f.couldWrite v <;> cases f.isComplete <;> simp

theorem write_eq_ok (h : f.tryWrite v m = .ok n) : f.write v m = .ok n := by
  rw [write, h]
  rfl

theorem write_eq_error_iff {fault : Fault} : f.write v m = .error fault ↔
    ∃ e, f.tryWrite v m = .error e ∧ fault = .refused k f.width v e := by
  rw [write]
  cases f.tryWrite v m with
  | error e => simp [Except.mapError, eq_comm]
  | ok n => simp [Except.mapError]

/-- Memory `n` is memory `m` after a write of `v`: the field reads as `v`, its storage holds the
digits of the code of `v` with zeros above them, and every bit elsewhere is as before. -/
structure Written (f : Field k) (v : k.Value) (m n : Memory) : Prop where
  length : n.length = m.length
  ok : f.ok n = true
  read : f.read n = .ok v
  load : (f.storage.load n).toNat = k.code f.width v
  digits : ∀ i, i < f.storage.size → n.bit (f.storage.place i) = (k.code f.width v).testBit i
  zeros : ∀ i, f.width ≤ i → i < f.storage.size → n.bit (f.storage.place i) = false
  outside : ∀ p, (∀ i, i < f.storage.size → f.storage.place i ≠ p) → n.bit p = m.bit p

theorem Written.get_eq (h : f.Written v m n) {a : Nat}
    (ha : ∀ i, i < f.storage.size → f.storage.place i / 8 ≠ a) : n.get a = m.get a := by
  refine Memory.get_eq_of_bit fun c hc => h.outside _ fun i hi hp => ha i hi ?_
  omega

theorem written_uncheckedWrite (hk : k.Hosted) (hv : k.Exact v) (hs : f.storage.Spans r m)
    (hc : f.isComplete = true) (hw : f.couldWrite v = true) :
    f.Written v m (f.uncheckedWrite v m) := by
  have hfit : k.fits f.width v = true := by
    rw [couldWrite, Bool.and_eq_true] at hw
    exact hw.1
  have hlt := Kind.code_lt f.admits hv hfit
  have hsize : 2 ^ f.width ≤ 2 ^ f.storage.size := Nat.pow_le_pow_right (by decide) (width_le hc)
  have hload := BitStorage.load_store hs (k.encode f.width v)
  obtain ⟨hok, hread⟩ := read_of_load hk hv hc hw hload
  have hcode := Kind.toNat_encode f.admits hfit
  have hdigits : ∀ i, i < f.storage.size →
      (f.uncheckedWrite v m).bit (f.storage.place i) = (k.code f.width v).testBit i := by
    intro i hi
    rw [uncheckedWrite, BitStorage.bit_store hs _ hi, BitVec.getLsbD, hcode]
  refine ⟨BitStorage.length_store hs _, hok, hread, ?_, hdigits, ?_, ?_⟩
  · rw [uncheckedWrite, hload, (Word.mask_eq_self_iff _ _).2 (by omega), hcode]
  · intro i hi his
    have hpow : 2 ^ f.width ≤ 2 ^ i := Nat.pow_le_pow_right (by decide) hi
    rw [hdigits i his]
    exact Nat.testBit_lt_two_pow (by omega)
  · intro p hp
    exact BitStorage.bit_store_of_ne hs _ hp

/-- Writing is refused when the width has no place for the value or the check does not allow it, and
then when the storage is not complete; else it goes through, and the memory that it leaves holds the
value. A refusal changes nothing, and the write that does not answer with an error faults on one. -/
theorem write_contract (f : Field k) (v : k.Value) (m : Memory) (hk : k.Hosted) (hv : k.Exact v)
    (hs : f.storage.Sound) (hm : f.storage.base.buffer.LiesIn m) :
    (f.couldWrite v = true ↔ k.Representable f.width v ∧ f.check v = true) ∧
      (f.tryWrite v m = .error .notRepresentable ↔ f.couldWrite v = false) ∧
      (f.tryWrite v m = .error .incomplete ↔ f.couldWrite v = true ∧ f.isComplete = false) ∧
      (f.couldWrite v = true → f.isComplete = true →
        ∃ n, f.tryWrite v m = .ok n ∧ f.write v m = .ok n ∧ f.Written v m n) ∧
      (∀ fault, f.write v m = .error fault ↔
        ∃ e, f.tryWrite v m = .error e ∧ fault = .refused k f.width v e) ∧
      (∀ e, f.tryWrite v m = .error e →
        m.after (f.tryWrite v m) = m ∧ m.after (f.write v m) = m) := by
  refine ⟨couldWrite_iff, tryWrite_eq_notRepresentable_iff, tryWrite_eq_incomplete_iff, ?_,
    fun _ => write_eq_error_iff, ?_⟩
  · intro hw hc
    obtain ⟨r, hr⟩ := BitStorage.spans_of_ok (storage_ok hc) hs hm
    have ht : f.tryWrite v m = .ok (f.uncheckedWrite v m) := tryWrite_eq_ok_iff.2 ⟨hw, hc, rfl⟩
    exact ⟨_, ht, write_eq_ok ht, written_uncheckedWrite hk hv hr hc hw⟩
  · intro e he
    have hf := write_eq_error_iff.2 ⟨e, he, rfl⟩
    rw [he, hf]
    exact ⟨rfl, rfl⟩

/-- A field of five bits that does not take three, in a window of seven bits that crosses the bytes
of a block in the middle of memory. -/
theorem write_contract_in_seven_bits :
    let w : Window := (Window.ofBlock ⟨.bigPair, .ofRegion ⟨1, 2⟩⟩ 2 13).part 3 7
    let f : Field .signed := ⟨5, by decide, fun v => v != (3 : Int), .window w⟩
    let m : Memory := [0xff, 0xff, 0xff, 0xff]
    (∃ n, f.tryWrite (-9 : Int) m = .ok n ∧ f.read n = .ok (-9 : Int) ∧
      (f.storage.load n).toNat = 23 ∧ n.get 0 = 0xff ∧ n.get 3 = 0xff) ∧
      f.tryWrite (3 : Int) m = .error .notRepresentable ∧
      f.tryWrite (16 : Int) m = .error .notRepresentable := by
  intro w f m
  have hk : Kind.signed.Hosted := fun e he => by cases he
  have hs : f.storage.Sound := BitStorage.sound_of_cutFrom (.part (.ofBlock 2 13) 3 7)
  have hm : f.storage.base.buffer.LiesIn m := by
    rintro r ⟨⟩
    decide
  have contract := fun v : Int => write_contract f v m hk trivial hs hm
  obtain ⟨-, -, -, hgo, -⟩ := contract (-9)
  obtain ⟨n, hn, -, h⟩ := hgo (by decide) (by decide)
  exact ⟨⟨n, hn, h.read, h.load, h.get_eq (by decide), h.get_eq (by decide)⟩,
    (contract 3).2.1.2 (by decide), (contract 16).2.1.2 (by decide)⟩

end Field

end Packed
