import Packed.Proofs.FieldWrite

namespace Packed

namespace Kind

variable {e : EnumType} {w : Nat}

theorem encode_decode_named_iff (he : 0 < e.host.bits) (hw : (named e).Admits w) (raw : Word) :
    (named e).encode w ((named e).decode w raw) = raw.mask w ↔
      e.host.contains (numberOf e.host.signed w raw) = true := by
  have hdecode : (named e).decode w raw = e.host.wrap (numberOf e.host.signed w raw) := rfl
  rw [hdecode, encode]
  constructor
  · intro h
    have hfit : (named e).fits w ((named e).decode w raw) = true :=
      fits_decode hw (hosted_named he) rfl
    simp only [fits, range_of_le _ hw.2, Bool.and_eq_true] at hfit
    -- both numbers fit the width, so that equal bits make them one number
    have hnumber := numberOf_mask_ofInt hw.2 hw.1 hfit.2
    rw [hdecode, h, numberOf_mask _ _ hw.2] at hnumber
    rw [hnumber]
    exact e.host.contains_wrap he _
  · intro h
    rw [IntType.wrap_of_contains he h, mask_ofInt_numberOf _ _ hw.2]

theorem numberOf_emod (signed : Bool) {raw : Word} (hw : w ≤ 64) (hr : raw.mask w = raw) {h : Nat}
    (hh : h ≤ w) : numberOf signed w raw % (2 ^ h : Nat) = (raw.toNat % 2 ^ h : Nat) := by
  have hdvd : ((2 ^ h : Nat) : Int) ∣ (2 ^ w : Nat) := by exact_mod_cast Nat.pow_dvd_pow 2 hh
  have hnumber := Word.toNat_mask_ofInt (numberOf signed w raw) hw
  rw [mask_ofInt_numberOf signed raw hw, hr] at hnumber
  rw [← Int.emod_emod_of_dvd _ hdvd, ← hnumber, Int.natCast_mod]

theorem decode_named_inj (hw : (named e).Admits w) {x y : Word} (hx : x.mask w = x)
    (hy : y.mask w = y) :
    (named e).decode w x = (named e).decode w y ↔
      x.toNat % 2 ^ e.host.bits = y.toNat % 2 ^ e.host.bits := by
  by_cases hle : e.host.bits ≤ w
  · have hx' := numberOf_emod e.host.signed hw.2 hx hle
    have hy' := numberOf_emod e.host.signed hw.2 hy hle
    change e.host.wrap (numberOf _ w x) = e.host.wrap (numberOf _ w y) ↔ _
    rw [IntType.wrap_eq_wrap_iff, hx', hy']
    exact Int.natCast_inj
  · have hholds : (named e).HoldsWidth w := by
      rintro _ ⟨⟩
      omega
    have hle' : w ≤ e.host.bits := by omega
    rw [← Word.toNat_mask, ← Word.toNat_mask, Word.mask_of_le hx hle', Word.mask_of_le hy hle']
    constructor
    · intro h
      have hbits : ∀ raw, (named e).encode w ((named e).decode w raw) = raw.mask w :=
        fun raw => encode_decode hw hholds rfl
      rw [← hx, ← hbits x, h, hbits y, hy]
    · intro h
      rw [BitVec.eq_of_toNat_eq h]

end Kind

namespace Field

/-- The field takes up all of its storage, which memory holds, and no check is made on its
values. -/
structure Fills {k : Kind} (f : Field k) (m : Memory) : Prop where
  complete : f.isComplete = true
  width : f.width = f.storage.size
  unchecked : ∀ v, f.check v = true
  sound : f.storage.Sound
  lies : f.storage.base.buffer.LiesIn m

variable {e : EnumType} {f g : Field (.named e)} {m n : Memory}

theorem Fills.spans (h : f.Fills m) : ∃ r, f.storage.Spans r m :=
  BitStorage.spans_of_ok (storage_ok h.complete) h.sound h.lies

theorem Fills.mask_load (h : f.Fills m) : (f.storage.load m).mask f.width = f.storage.load m := by
  obtain ⟨r, hr⟩ := h.spans
  rw [h.width, BitStorage.mask_load hr]

theorem Fills.read_eq (h : f.Fills m) : f.read m = .ok (f.uncheckedRead m) :=
  Field.read_eq (ok_iff.2 ⟨h.complete, rfl, h.unchecked _⟩)

theorem Fills.write_read (h : f.Fills m) (he : 0 < e.host.bits) :
    f.write (f.uncheckedRead m) m = .ok (f.uncheckedWrite (f.uncheckedRead m) m) ∧
      f.Written (f.uncheckedRead m) m (f.uncheckedWrite (f.uncheckedRead m) m) := by
  have hhost := Kind.hosted_named he
  obtain ⟨r, hr⟩ := h.spans
  have hw : f.couldWrite (f.uncheckedRead m) = true := by
    rw [couldWrite, h.unchecked, Bool.and_true]
    exact Kind.fits_decode f.admits hhost rfl
  exact ⟨write_eq_ok (tryWrite_eq_ok_iff.2 ⟨hw, h.complete, rfl⟩),
    written_uncheckedWrite hhost trivial hr h.complete hw⟩

theorem Fills.uncheckedWrite_read_iff (h : f.Fills m) (he : 0 < e.host.bits) :
    f.uncheckedWrite (f.uncheckedRead m) m = m ↔
      e.host.contains (Kind.numberOf e.host.signed f.width (f.storage.load m)) = true := by
  obtain ⟨r, hr⟩ := h.spans
  rw [← Kind.encode_decode_named_iff he f.admits]
  constructor
  · intro hm
    have hload := BitStorage.load_store hr (Kind.encode (.named e) f.width (f.uncheckedRead m))
    change f.storage.load (f.uncheckedWrite _ m) = _ at hload
    rw [hm, ← h.width, Kind.mask_encode f.admits trivial] at hload
    rw [h.mask_load]
    exact hload.symm
  · intro hbits
    rw [uncheckedWrite, uncheckedRead, hbits, store_self hr h.width]

theorem Fills.equals_eq (hf : f.Fills m) (hg : g.Fills n) (hw : g.width = f.width) :
    f.equals m g n = .ok (decide ((f.storage.load m).toNat % 2 ^ e.host.bits =
      (g.storage.load n).toNat % 2 ^ e.host.bits)) := by
  have hread : g.uncheckedRead n = (Kind.named e).decode f.width (g.storage.load n) := by
    rw [uncheckedRead, hw]
  have hinj := Kind.decode_named_inj (e := e) f.admits hf.mask_load (hw ▸ hg.mask_load)
  rw [equals, hf.read_eq, hg.read_eq, hread]
  exact congrArg Except.ok (decide_eq_decide.2 hinj)

/-- Reading an enumeration and writing it back keeps the pattern of the field exactly when the
number of the pattern is one of the number type, and two fields hold equal values exactly when
their patterns agree in the bits of that type. A field that is no wider than the type therefore
keeps every pattern, and tells any two of them apart. -/
theorem enum_pattern_kept_iff (he : 0 < e.host.bits) (hf : f.Fills m) (hg : g.Fills n)
    (hw : g.width = f.width) :
    (∃ v m', f.read m = .ok v ∧ f.write v m = .ok m' ∧ f.Written v m m' ∧
      (m' = m ↔
        e.host.contains (Kind.numberOf e.host.signed f.width (f.storage.load m)) = true)) ∧
      f.equals m g n = .ok (decide ((f.storage.load m).toNat % 2 ^ e.host.bits =
        (g.storage.load n).toNat % 2 ^ e.host.bits)) ∧
      (f.width ≤ e.host.bits →
        (∃ v, f.read m = .ok v ∧ f.write v m = .ok m) ∧
          f.equals m g n = .ok (decide (f.storage.load m = g.storage.load n))) := by
  obtain ⟨hwrite, hwritten⟩ := hf.write_read he
  have hkept := hf.uncheckedWrite_read_iff he
  have hequals := hf.equals_eq hg hw
  refine ⟨⟨_, _, hf.read_eq, hwrite, hwritten, hkept⟩, hequals, fun hle => ⟨?_, ?_⟩⟩
  · have hnumber := Kind.contains_numberOf e.host.signed (f.storage.load m) f.admits.1 f.admits.2
    exact ⟨_, hf.read_eq, by rw [hwrite, hkept.2 (IntType.contains_mono hle hnumber)]⟩
  · rw [hequals, ← Word.toNat_mask, ← Word.toNat_mask, Word.mask_of_le hf.mask_load hle,
      Word.mask_of_le hg.mask_load (hw ▸ hle)]
    exact congrArg Except.ok (decide_eq_decide.2 BitVec.toNat_inj)

/-- Of two fields of twelve bits, for numbers of eight, the one that holds minus five keeps its bits
and the one that holds 251 does not, though both read as minus five. A field of five bits keeps its
own. -/
theorem enum_pattern_kept_iff_in_five_bytes :
    let e : EnumType := .declare "Delta" ⟨true, 8⟩ .first [("DOWN", some (-1)), ("UP", some 1)]
    let f : Field (.named e) :=
      ⟨12, by decide, fun _ => true, .window (.ofBlock ⟨.bigPair, .ofRegion ⟨0, 2⟩⟩ 2 12)⟩
    let g : Field (.named e) :=
      ⟨12, by decide, fun _ => true,
        .window (.ofBlock ⟨{ order := .little, bits := 16 }, .ofRegion ⟨3, 2⟩⟩ 0 12)⟩
    let h : Field (.named e) :=
      ⟨5, by decide, fun _ => true, .window (.ofBlock ⟨.byte, .ofRegion ⟨2, 1⟩⟩ 1 5)⟩
    let m : Memory := [0x3f, 0xec, 0x77, 0xfb, 0x00]
    (∃ v, f.read m = .ok v ∧ f.write v m = .ok m) ∧
      (∃ v m', g.read m = .ok v ∧ g.write v m = .ok m' ∧ m' ≠ m) ∧
      f.equals m g m = .ok true ∧ ∃ v, h.read m = .ok v ∧ h.write v m = .ok m := by
  intro e f g h m
  have he : 0 < e.host.bits := by decide
  have hf : f.Fills m :=
    ⟨by decide, rfl, fun _ => rfl, Window.within_ofBlock, by rintro r ⟨⟩; decide⟩
  have hg : g.Fills m :=
    ⟨by decide, rfl, fun _ => rfl, Window.within_ofBlock, by rintro r ⟨⟩; decide⟩
  have hh : h.Fills m :=
    ⟨by decide, rfl, fun _ => rfl, Window.within_ofBlock, by rintro r ⟨⟩; decide⟩
  obtain ⟨⟨v, m', hr, hw, -, hkept⟩, hequals, -⟩ := enum_pattern_kept_iff he hf hg rfl
  obtain ⟨⟨v', n', hr', hw', -, hkept'⟩, -⟩ := enum_pattern_kept_iff he hg hf rfl
  obtain ⟨-, -, hnarrow⟩ := enum_pattern_kept_iff he hh hh rfl
  obtain rfl := hkept.2 (by decide +kernel)
  exact ⟨⟨v, hr, hw⟩, ⟨v', n', hr', hw', fun h => absurd (hkept'.1 h) (by decide +kernel)⟩,
    hequals.trans (congrArg Except.ok (by decide +kernel)), (hnarrow (by decide)).1⟩

/-- Two bytes that hold an enumeration of bytes: the second byte is lost when the value is written
back, and two fields that differ in it hold equal values. -/
theorem enum_pattern_lost_in_two_bytes :
    let e : EnumType := .declare "Color" ⟨false, 8⟩ .first [("RED", some 1)]
    let f : Field (.named e) := ⟨16, by decide, fun _ => true,
      .block ⟨{ order := .little, bits := 16 }, .ofRegion ⟨0, 2⟩⟩⟩
    let g : Field (.named e) := ⟨16, by decide, fun _ => true,
      .block ⟨{ order := .little, bits := 16 }, .ofRegion ⟨2, 2⟩⟩⟩
    let m : Memory := [1, 1, 1, 0]
    f.Fills m ∧ g.Fills m ∧ f.read m = .ok (1 : Int) ∧
      f.write (1 : Int) m = .ok [1, 0, 1, 0] ∧ [1, 0, 1, 0] ≠ m ∧
      f.equals m g m = .ok true ∧ f.storage.load m ≠ g.storage.load m := by
  intro e f g m
  have hf : f.Fills m := ⟨by decide, rfl, fun _ => rfl, trivial, by rintro r ⟨⟩; decide⟩
  have hg : g.Fills m := ⟨by decide, rfl, fun _ => rfl, trivial, by rintro r ⟨⟩; decide⟩
  have hread : f.uncheckedRead m = (1 : Int) := by decide +kernel
  have hwrite : f.tryWrite (1 : Int) m = .ok [1, 0, 1, 0] :=
    tryWrite_eq_ok_iff.2 ⟨by decide, by decide, by decide +kernel⟩
  have hequals := hf.equals_eq hg rfl
  refine ⟨hf, hg, ?_, write_eq_ok hwrite, by decide, ?_, by decide +kernel⟩
  · rw [hf.read_eq, hread]
  · exact hequals.trans (congrArg Except.ok (by decide +kernel))

end Field

end Packed
