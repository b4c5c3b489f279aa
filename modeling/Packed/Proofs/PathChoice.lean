import Packed.Proofs.Alignment

namespace Packed

/-- All addresses below the limit that agree with an address modulo `alignment` are multiples of `n`
exactly when both the alignment and the address are. -/
theorem forall_mod_eq_zero_iff {alignment address limit n : Nat} (hpos : 0 < alignment)
    (hlimit : 2 * alignment ≤ limit) :
    (∀ p, p < limit → p % alignment = address % alignment → p % n = 0) ↔
      n ∣ alignment ∧ address % alignment % n = 0 := by
  have hlt := Nat.mod_lt address hpos
  constructor
  · intro h
    -- the two least addresses of the class, which are one alignment apart
    have hleast := h (address % alignment) (by omega) (Nat.mod_mod _ _)
    have hnext := h (address % alignment + alignment) (by omega)
      (by rw [Nat.add_mod_right, Nat.mod_mod])
    have hdvd := Nat.dvd_of_mod_eq_zero hleast
    exact ⟨(Nat.dvd_add_right hdvd).1 (Nat.dvd_of_mod_eq_zero hnext), hleast⟩
  · rintro ⟨hdvd, hleast⟩ p - hp
    rw [← Nat.mod_mod_of_dvd p hdvd, hp, hleast]

namespace AccessPath

variable {bytes alignment offset rounds n bits : Nat} {path : AccessPath}

/-- A search for an alignment that ends with a path after so many halvings, none of which divides by
zero. -/
inductive Settles (bytes : Nat) : Nat → Nat → Nat → AccessPath → Prop
  | aligned {alignment offset : Nat} (h : bytes ≤ alignment ∧ offset % bytes = 0) :
      Settles bytes alignment offset 0 (.aligned bytes)
  | unaligned {offset : Nat} (h : ¬ (bytes ≤ 1 ∧ offset % bytes = 0)) :
      Settles bytes 1 offset 0 .unaligned
  | halve {alignment offset rounds : Nat} {path : AccessPath}
      (h : ¬ (bytes ≤ alignment ∧ offset % bytes = 0)) (hone : alignment ≠ 1)
      (hpos : 0 < alignment / 2)
      (hnext : Settles bytes (alignment / 2) (offset % (alignment / 2)) rounds path) :
      Settles bytes alignment offset (rounds + 1) path

theorem settles_downgrade (bytes : Nat) (hpos : 0 < alignment) (offset : Nat) :
    ∃ rounds, 2 ^ rounds ≤ alignment ∧
      Settles bytes alignment offset rounds (downgrade bytes alignment offset) := by
  induction alignment, offset using downgrade.induct bytes with
  | case1 alignment offset h =>
      rw [downgrade, if_pos h]
      exact ⟨0, hpos, .aligned h⟩
  | case2 alignment offset h hone =>
      obtain rfl : alignment = 1 := by omega
      rw [downgrade, if_neg h, if_pos hone]
      exact ⟨0, hpos, .unaligned h⟩
  | case3 alignment offset h hone ih =>
      have hhalf : 0 < alignment / 2 := by omega
      obtain ⟨rounds, hrounds, hnext⟩ := ih hhalf
      rw [downgrade, if_neg h, if_neg hone]
      refine ⟨rounds + 1, ?_, .halve h (by omega) hhalf hnext⟩
      rw [pow_succ]
      omega

theorem Settles.eq_downgrade (h : Settles bytes alignment offset rounds path) :
    path = downgrade bytes alignment offset := by
  induction h with
  | aligned h => rw [downgrade, if_pos h]
  | unaligned h => rw [downgrade, if_neg h, if_pos (Nat.le_refl 1)]
  | halve h hone hpos hnext ih => rw [downgrade, if_neg h, if_neg (by omega), ih]

theorem Settles.path_cases (h : Settles bytes alignment offset rounds path) :
    path = .aligned bytes ∨ path = .unaligned := by
  induction h with
  | aligned h => exact .inl rfl
  | unaligned h => exact .inr rfl
  | halve h hone hpos hnext ih => exact ih

theorem downgrade_eq_aligned_iff (hb : bytes.isPowerOfTwo) (ha : alignment.isPowerOfTwo) :
    downgrade bytes alignment offset = .aligned bytes ↔ bytes ∣ alignment ∧ offset % bytes = 0 := by
  induction alignment, offset using downgrade.induct bytes with
  | case1 alignment offset h =>
      rw [downgrade, if_pos h]
      exact iff_of_true rfl ⟨dvd_of_isPowerOfTwo hb ha h.1, h.2⟩
  | case2 alignment offset h hone =>
      rw [downgrade, if_neg h, if_pos hone]
      have hpos := Nat.pos_of_isPowerOfTwo ha
      simp only [reduceCtorEq, false_iff]
      exact fun hn => h ⟨Nat.le_of_dvd hpos hn.1, hn.2⟩
  | case3 alignment offset h hone ih =>
      obtain ⟨hhalf, hdvd⟩ := half_of_isPowerOfTwo ha hone
      have hpos := Nat.pos_of_isPowerOfTwo ha
      rw [downgrade, if_neg h, if_neg hone, ih hhalf]
      refine iff_of_false ?_ fun hn => h ⟨Nat.le_of_dvd hpos hn.1, hn.2⟩
      rintro ⟨hn, hres⟩
      rw [Nat.mod_mod_of_dvd offset hn] at hres
      exact h ⟨Nat.le_of_dvd hpos (hn.trans hdvd), hres⟩

def usable (alignment : Nat) : Nat := if isPowerOfTwo alignment then alignment else 1

theorem isPowerOfTwo_usable (alignment : Nat) : (usable alignment).isPowerOfTwo := by
  rw [usable]
  split
  · rename_i h
    exact isPowerOfTwo_iff.1 h
  · exact Nat.isPowerOfTwo_one

theorem select_wide (hn : n ∈ [2, 4, 8]) : select alignment offset (8 * n) =
    downgrade n (usable alignment) (offset % usable alignment) := by
  have hpower : ∀ k ∈ [2, 4, 8], isPowerOfTwo k = true ∧ 1 < k ∧ k ≤ 8 := by decide
  obtain ⟨hpow, hone, height⟩ := hpower n hn
  have hbits : ¬ (8 * n % 8 ≠ 0 ∨ 8 * n / 8 = 0 ∨ 8 < 8 * n / 8) := by omega
  have hbytes : 8 * n / 8 = n := Nat.mul_div_cancel_left n (by decide)
  rw [select, if_neg hbits, hbytes, hpow, if_neg (by decide), if_neg (by omega), usable]

theorem select_byte (alignment offset : Nat) : select alignment offset 8 = .unaligned := rfl

theorem select_other (h : ∀ k ∈ [1, 2, 4, 8], bits ≠ 8 * k) :
    select alignment offset bits = .bytewise := by
  have hpower : ∀ k < 9, isPowerOfTwo k = true → k ∈ [1, 2, 4, 8] := by decide
  rw [select]
  split
  · rfl
  · rename_i hbits
    have hnot : isPowerOfTwo (bits / 8) ≠ true := fun hp =>
      h _ (hpower _ (by omega) hp) (by omega)
    rw [if_pos (by simpa using hnot)]

theorem width_cases (bits : Nat) :
    (∀ k ∈ [1, 2, 4, 8], bits ≠ 8 * k) ∨ bits = 8 ∨ ∃ k ∈ [2, 4, 8], bits = 8 * k := by
  by_cases h : ∀ k ∈ [1, 2, 4, 8], bits ≠ 8 * k
  · exact .inl h
  · push Not at h
    obtain ⟨k, hk, rfl⟩ := h
    obtain rfl | hk := List.mem_cons.1 hk
    · exact .inr (.inl rfl)
    · exact .inr (.inr ⟨k, hk, rfl⟩)

theorem select_wide_cases (alignment offset : Nat) (hn : n ∈ [2, 4, 8]) :
    select alignment offset (8 * n) = .aligned n ∨
      select alignment offset (8 * n) = .unaligned := by
  obtain ⟨rounds, -, h⟩ := settles_downgrade n
    (Nat.pos_of_isPowerOfTwo (isPowerOfTwo_usable alignment)) (offset % usable alignment)
  rw [select_wide hn]
  exact h.path_cases

theorem select_eq_bytewise_iff :
    select alignment offset bits = .bytewise ↔ ∀ k ∈ [1, 2, 4, 8], bits ≠ 8 * k := by
  refine ⟨fun h => ?_, select_other⟩
  obtain hother | rfl | ⟨k, hk, rfl⟩ := width_cases bits
  · exact hother
  · cases h
  · obtain hs | hs := select_wide_cases alignment offset hk <;> exact nomatch hs.symm.trans h

theorem select_eq_unaligned_iff : select alignment offset bits = .unaligned ↔
    (∃ k ∈ [1, 2, 4, 8], bits = 8 * k) ∧ ∀ n, select alignment offset bits ≠ .aligned n := by
  constructor
  · intro h
    refine ⟨?_, fun n hn => nomatch h.symm.trans hn⟩
    by_contra hwidth
    push Not at hwidth
    exact nomatch h.symm.trans (select_other hwidth)
  · rintro ⟨⟨k, hk, rfl⟩, hn⟩
    obtain rfl | hk := List.mem_cons.1 hk
    · rfl
    · exact (select_wide_cases alignment offset hk).resolve_left (hn k)

theorem select_wide_eq_aligned_iff (hn : n ∈ [2, 4, 8]) :
    select alignment offset (8 * n) = .aligned n ↔
      alignment.isPowerOfTwo ∧ n ∣ alignment ∧ offset % alignment % n = 0 := by
  have hpower : ∀ k ∈ [2, 4, 8], isPowerOfTwo k = true ∧ k ≠ 1 := by decide
  obtain ⟨hpow, hone⟩ := hpower n hn
  rw [select_wide hn,
    downgrade_eq_aligned_iff (isPowerOfTwo_iff.1 hpow) (isPowerOfTwo_usable alignment), usable,
    ← isPowerOfTwo_iff]
  split
  · rename_i h
    rw [and_iff_right h]
  · rename_i h
    exact iff_of_false (fun h1 => hone (Nat.dvd_one.1 h1.1)) fun h1 => h h1.1

/-- The aligned path is selected where all addresses that agree with what is known are multiples of
the width. It is enough to look at addresses below the limit of sizes. -/
theorem select_eq_aligned_iff (ha : alignment < sizeLimit) :
    select alignment offset bits = .aligned n ↔ (bits = 8 * n ∧ n ∈ [2, 4, 8]) ∧
      alignment.isPowerOfTwo ∧
        ∀ p, p < sizeLimit → p % alignment = offset % alignment → p % n = 0 := by
  have hforall (hpow : alignment.isPowerOfTwo) :
      (∀ p, p < sizeLimit → p % alignment = offset % alignment → p % n = 0) ↔
        n ∣ alignment ∧ offset % alignment % n = 0 := by
    refine forall_mod_eq_zero_iff (Nat.pos_of_isPowerOfTwo hpow) ?_
    -- a power of two below another one is at most its half
    obtain ⟨k, rfl⟩ := hpow
    have hk : k < 64 := (Nat.pow_lt_pow_iff_right (by decide)).1 ha
    rw [← Nat.pow_succ']
    exact Nat.pow_le_pow_right (by decide) hk
  constructor
  · intro h
    obtain rfl := eq_of_select h
    have hn : n ∈ [2, 4, 8] := by
      obtain hother | hbyte | ⟨k, hk, hbits⟩ := width_cases (8 * n)
      · exact nomatch h.symm.trans (select_other hother)
      · rw [hbyte, select_byte] at h
        cases h
      · obtain rfl : n = k := by omega
        exact hk
    obtain ⟨hpow, hdvd⟩ := (select_wide_eq_aligned_iff hn).1 h
    exact ⟨⟨rfl, hn⟩, hpow, (hforall hpow).2 hdvd⟩
  · rintro ⟨⟨rfl, hn⟩, hpow, h⟩
    exact (select_wide_eq_aligned_iff hn).2 ⟨hpow, (hforall hpow).1 h⟩

/-- The choice of a path is sound and complete. The search for an alignment ends after fewer than 64
rounds, and only with the path that is chosen. It gives the aligned path just if the width is two,
four or eight bytes, the alignment is a power of two, and all addresses that agree with it are
multiples of the width, also those past the limit of sizes. The other widths that the host moves at
once are moved unaligned, and all that are left bytewise. -/
theorem select_sound_and_complete (ha : alignment < sizeLimit) (offset bits : Nat) :
    (∀ n ∈ [2, 4, 8], bits = 8 * n →
      (∃ rounds, rounds < 64 ∧ Settles n (usable alignment) (offset % usable alignment) rounds
        (select alignment offset bits)) ∧
      ∀ rounds path, Settles n (usable alignment) (offset % usable alignment) rounds path →
        path = select alignment offset bits) ∧
    (∀ n, select alignment offset bits = .aligned n ↔ (bits = 8 * n ∧ n ∈ [2, 4, 8]) ∧
      alignment.isPowerOfTwo ∧
        ∀ p, p < sizeLimit → p % alignment = offset % alignment → p % n = 0) ∧
    (∀ n, select alignment offset bits = .aligned n →
      ∀ p, p % alignment = offset % alignment → p % n = 0) ∧
    (select alignment offset bits = .unaligned ↔
      (∃ n ∈ [1, 2, 4, 8], bits = 8 * n) ∧ ∀ n, select alignment offset bits ≠ .aligned n) ∧
    (select alignment offset bits = .bytewise ↔ ∀ n ∈ [1, 2, 4, 8], bits ≠ 8 * n) := by
  refine ⟨?_, fun n => select_eq_aligned_iff ha, fun n h p hp => ?_, select_eq_unaligned_iff,
    select_eq_bytewise_iff⟩
  · rintro n hn rfl
    have hpos := Nat.pos_of_isPowerOfTwo (isPowerOfTwo_usable alignment)
    obtain ⟨rounds, hrounds, h⟩ := settles_downgrade n hpos (offset % usable alignment)
    rw [select_wide hn]
    have husable : usable alignment < 2 ^ 64 := by
      rw [usable]
      split
      · exact ha
      · decide
    have hlt : rounds < 64 := (Nat.pow_lt_pow_iff_right (by decide)).1 (hrounds.trans_lt husable)
    exact ⟨⟨rounds, hlt, h⟩, fun _ _ h' => h'.eq_downgrade⟩
  · obtain ⟨⟨rfl, hn⟩, -⟩ := (select_eq_aligned_iff ha).1 h
    obtain ⟨-, hdvd, hres⟩ := (select_wide_eq_aligned_iff hn).1 h
    rw [← Nat.mod_mod_of_dvd p hdvd, hp, hres]

/-- Four bytes at twelve modulo sixteen, where the first try succeeds, and at ten, where none does
though the address is even; and an alignment of twelve, which counts as none. -/
theorem select_sound_and_complete_at_twelve :
    select 16 12 32 = .aligned 4 ∧ (∀ p, p % 16 = 12 → p % 4 = 0) ∧
      select 16 10 32 = .unaligned ∧ (∃ rounds, rounds < 64 ∧ Settles 4 16 10 rounds .unaligned) ∧
      select 12 0 32 = .unaligned ∧ select 16 12 24 = .bytewise := by
  obtain ⟨-, haligned, hsound, -⟩ :=
    select_sound_and_complete (by decide : 16 < sizeLimit) 12 32
  obtain ⟨hsettles, hten, -, hunaligned, -⟩ :=
    select_sound_and_complete (by decide : 16 < sizeLimit) 10 32
  obtain ⟨-, hodd, -, hodd', -⟩ := select_sound_and_complete (by decide : 12 < sizeLimit) 0 32
  obtain ⟨-, -, -, -, hbytewise⟩ := select_sound_and_complete (by decide : 16 < sizeLimit) 12 24
  have h12 : select 16 12 32 = .aligned 4 :=
    (haligned 4).2 ⟨⟨rfl, by decide⟩, ⟨4, rfl⟩, by omega⟩
  have h10 : select 16 10 32 = .unaligned := by
    refine hunaligned.2 ⟨⟨4, by decide, rfl⟩, fun n hn => ?_⟩
    obtain ⟨⟨hbits, -⟩, -, hall⟩ := (hten n).1 hn
    obtain rfl : n = 4 := by omega
    exact absurd (hall 10 (by decide) rfl) (by decide)
  have hnone : select 12 0 32 = .unaligned := by
    refine hodd'.2 ⟨⟨4, by decide, rfl⟩, fun n hn => ?_⟩
    exact absurd ((hodd n).1 hn).2.1 (by decide)
  obtain ⟨⟨rounds, hrounds, hten⟩, -⟩ := hsettles 4 (by decide) rfl
  rw [h10] at hten
  exact ⟨h12, fun p hp => hsound 4 h12 p hp, h10, ⟨rounds, hrounds, hten⟩, hnone,
    hbytewise.2 (by decide)⟩

end AccessPath

end Packed
