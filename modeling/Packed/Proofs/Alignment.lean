import Mathlib.Data.Nat.ModEq
import Packed.Buffer

namespace Packed

theorem isPowerOfTwo_iff {n : Nat} : isPowerOfTwo n = true ↔ n.isPowerOfTwo := by
  by_cases h : n = 0
  · subst h
    have hz : ¬ (0 : Nat).isPowerOfTwo := by
      rintro ⟨k, hk⟩
      exact (Nat.two_pow_pos k).ne hk
    simp [isPowerOfTwo, hz]
  · rw [← Nat.and_sub_one_eq_zero_iff_isPowerOfTwo h]
    simp [isPowerOfTwo, h]

theorem dvd_of_isPowerOfTwo {a b : Nat} (ha : a.isPowerOfTwo) (hb : b.isPowerOfTwo) (h : a ≤ b) :
    a ∣ b := by
  obtain ⟨j, rfl⟩ := ha
  obtain ⟨k, rfl⟩ := hb
  exact Nat.pow_dvd_pow 2 ((Nat.pow_le_pow_iff_right (by decide)).1 h)

theorem half_of_isPowerOfTwo {a : Nat} (ha : a.isPowerOfTwo) (h : ¬ a ≤ 1) :
    (a / 2).isPowerOfTwo ∧ a / 2 ∣ a := by
  obtain ⟨k, rfl⟩ := ha
  cases k with
  | zero => exact absurd (Nat.le_refl 1) h
  | succ k =>
      rw [Nat.pow_succ, Nat.mul_div_cancel _ (by decide)]
      exact ⟨⟨k, rfl⟩, Nat.dvd_mul_right _ _⟩

namespace Alignment

structure Proper (t : Alignment) : Prop where
  modulus : 0 < t.modulus
  residue : t.residue < t.modulus

structure Derivable (t part : Alignment) : Prop where
  power : isPowerOfTwo part.modulus = true
  residue : part.residue < part.modulus
  divides : t.modulus % part.modulus = 0

structure Compatible (t weaker : Alignment) : Prop where
  modulus : 0 < weaker.modulus
  divides : t.modulus % weaker.modulus = 0
  residue : t.residue % weaker.modulus = weaker.residue

variable {t : Alignment} {address : Nat}

theorem Derivable.proper {part : Alignment} (h : t.Derivable part) : part.Proper :=
  ⟨Nat.zero_lt_of_lt h.residue, h.residue⟩

theorem Compatible.proper {weaker : Alignment} (h : t.Compatible weaker) : weaker.Proper :=
  ⟨h.modulus, h.residue ▸ Nat.mod_lt _ h.modulus⟩

theorem Proper.holds_iff (h : t.Proper) :
    t.holds address = true ↔ address % t.modulus = t.residue := by
  have hm := h.modulus
  have hr := h.residue
  simp only [holds, Bool.or_eq_true, decide_eq_true_eq, beq_iff_eq, Nat.mod_eq_of_lt hr]
  constructor
  · rintro (h1 | h1)
    · obtain h1 : t.modulus = 1 := by omega
      rw [h1, Nat.mod_one]
      omega
    · exact h1
  · exact .inr

end Alignment

namespace AccessPath

variable {address alignment offset bytes bits n : Nat}

theorem eq_of_downgrade (h : downgrade bytes alignment offset = .aligned n) : n = bytes := by
  induction alignment, offset using downgrade.induct bytes with
  | case1 alignment offset hb =>
      rw [downgrade, if_pos hb] at h
      cases h
      rfl
  | case2 alignment offset hb h1 =>
      rw [downgrade, if_neg hb, if_pos h1] at h
      cases h
  | case3 alignment offset hb h1 ih =>
      rw [downgrade, if_neg hb, if_neg h1] at h
      exact ih h

theorem permits_downgrade (hb : bytes.isPowerOfTwo) (ha : alignment.isPowerOfTwo)
    (h : address % alignment = offset) : (downgrade bytes alignment offset).Permits address := by
  induction alignment, offset using downgrade.induct bytes with
  | case1 alignment offset hle =>
      rw [downgrade, if_pos hle]
      have hdvd := dvd_of_isPowerOfTwo hb ha hle.1
      rw [Permits, ← Nat.mod_mod_of_dvd address hdvd, h, hle.2]
  | case2 alignment offset hle h1 =>
      rw [downgrade, if_neg hle, if_pos h1]
      trivial
  | case3 alignment offset hle h1 ih =>
      rw [downgrade, if_neg hle, if_neg h1]
      obtain ⟨hhalf, hdvd⟩ := half_of_isPowerOfTwo ha h1
      refine ih hhalf ?_
      rw [← h, Nat.mod_mod_of_dvd address hdvd]

theorem select_cases (alignment offset bits : Nat) :
    select alignment offset bits = .bytewise ∨ select alignment offset bits = .unaligned ∨
      bits % 8 = 0 ∧ (bits / 8).isPowerOfTwo ∧
        ∃ a, a.isPowerOfTwo ∧ (a = alignment ∨ a = 1) ∧
          select alignment offset bits = downgrade (bits / 8) a (offset % a) := by
  rw [select]
  split
  · exact .inl rfl
  · rename_i hbits
    split
    · exact .inl rfl
    · rename_i hbytes
      split
      · exact .inr (.inl rfl)
      · refine .inr (.inr ⟨by omega, by simpa [isPowerOfTwo_iff] using hbytes, ?_⟩)
        by_cases hp : isPowerOfTwo alignment = true
        · exact ⟨alignment, isPowerOfTwo_iff.1 hp, .inl rfl, by rw [if_pos hp]⟩
        · exact ⟨1, ⟨0, rfl⟩, .inr rfl, by rw [if_neg hp]⟩

theorem eq_of_select (h : select alignment offset bits = .aligned n) : 8 * n = bits := by
  obtain hs | hs | ⟨hbits, -, a, -, -, hs⟩ := select_cases alignment offset bits <;> rw [hs] at h
  · cases h
  · cases h
  · have hn := eq_of_downgrade h
    omega

theorem permits_select {t : Alignment} (h : t.holds address = true) (bits : Nat) :
    (select t.modulus t.residue bits).Permits address := by
  obtain hs | hs | ⟨-, hbytes, a, ha, hat, hs⟩ := select_cases t.modulus t.residue bits <;> rw [hs]
  · trivial
  · trivial
  · refine permits_downgrade hbytes ha ?_
    simp only [Alignment.holds, Bool.or_eq_true, decide_eq_true_eq, beq_iff_eq] at h
    obtain ⟨k, hk⟩ := ha
    have hpos := Nat.two_pow_pos k
    by_cases h1 : a = 1
    · rw [h1, Nat.mod_one, Nat.mod_one]
    · obtain rfl : a = t.modulus := hat.resolve_right h1
      exact h.resolve_left (by omega)

/-- What a typed access of `n` bytes asserts of its address: bytes moved at once along the aligned
path lie at a multiple of their number. -/
def asserts (path : AccessPath) (address n : Nat) : Bool :=
  match path with
  | aligned _ => !path.isTyped n || address % n == 0
  | unaligned => true
  | bytewise => true

def assertingLoad (path : AccessPath) (e : Endian) (m : Memory) (r : Region) : Except Fault Word :=
  if path.asserts r.start r.size then .ok (path.load e (m.read r))
  else .error (.misaligned ⟨r.size, 0⟩)

def assertingStore (path : AccessPath) (m : Memory) (r : Region) (e : Endian) (w : Word) :
    Except Fault Memory :=
  if path.asserts r.start r.size then .ok (path.store m r.start r.size e w)
  else .error (.misaligned ⟨r.size, 0⟩)

theorem asserts_of_permits {path : AccessPath} (h : path.Permits address)
    (hn : ∀ k, path = .aligned k → k = n) : path.asserts address n = true := by
  cases path with
  | aligned k =>
      obtain rfl := hn k rfl
      rw [Permits] at h
      simp [asserts, h]
  | unaligned => rfl
  | bytewise => rfl

end AccessPath

namespace Buffer

variable {b c : Buffer} {t : Alignment} {r : Region} {bits n : Nat}

inductive Derives (b : Buffer) : Buffer → Prop
  | part {c : Buffer} (t : Alignment) (offset size : Nat) (ht : b.tag.Derivable t)
      (h : b.partTagged t offset size = .ok c) : Derives b c
  | retag (t : Alignment) (ht : b.tag.Compatible t) : Derives b (b.retag t)
  | readOnly : Derives b b.readOnly

/-- The buffers over nothing, over a region whose address was checked, and all that are derived from
these. -/
inductive Reachable : Buffer → Prop
  | null (t : Alignment) (ht : t.Proper) : Reachable (.null t)
  | tagged {b : Buffer} (t : Alignment) (r : Region) (ht : t.Proper) (h : tagged t r = .ok b) :
      Reachable b
  | step {b c : Buffer} (hb : Reachable b) (h : Derives b c) : Reachable c

/-- The tag is true of the address of the first byte. Of a buffer without bytes nothing is asked. -/
structure Truthful (b : Buffer) : Prop where
  proper : b.tag.Proper
  address : ∀ r, b.region = some r → 0 < r.size → r.start % b.tag.modulus = b.tag.residue

theorem truthful_tagged (ht : t.Proper) (h : tagged t r = .ok b) : b.Truthful := by
  rw [tagged] at h
  split at h
  · rename_i hr
    cases h
    refine ⟨ht, ?_⟩
    rintro _ ⟨⟩ _
    exact ht.holds_iff.1 hr
  · cases h

theorem start_of_part {offset size : Nat} (h : 0 < (r.part offset size).size) :
    0 < r.size ∧ (r.part offset size).start = r.start + offset := by
  simp only [Region.part] at h ⊢
  omega

def Admits (b : Buffer) (t : Alignment) (offset : Nat) : Prop :=
  t.modulus ≤ 1 ∨ b.tag.residue + offset < sizeLimit ∧
    (b.tag.residue + offset) % t.modulus = t.residue

theorem partTagged_eq_ok_iff {offset size : Nat} : b.partTagged t offset size = .ok c ↔
    b.Admits t offset ∧ c = { b.part offset size with tag := t } := by
  rw [partTagged, Admits]
  by_cases h1 : t.modulus ≤ 1
  · rw [if_pos h1, Except.ok.injEq]
    exact ⟨fun h => ⟨.inl h1, h.symm⟩, fun h => h.2.symm⟩
  · rw [if_neg h1]
    by_cases hlim : sizeLimit ≤ b.tag.residue + offset
    · rw [if_pos hlim]
      exact ⟨nofun, fun h => absurd (h.1.resolve_left h1).1 (Nat.not_lt.2 hlim)⟩
    · rw [if_neg hlim]
      by_cases hmod : (b.tag.residue + offset) % t.modulus = t.residue
      · rw [if_pos hmod, Except.ok.injEq]
        exact ⟨fun h => ⟨.inr ⟨Nat.not_le.1 hlim, hmod⟩, h.symm⟩, fun h => h.2.symm⟩
      · rw [if_neg hmod]
        exact ⟨nofun, fun h => absurd (h.1.resolve_left h1).2 hmod⟩

theorem Truthful.part {offset size : Nat} (hb : b.Truthful) (ht : b.tag.Derivable t)
    (h : b.partTagged t offset size = .ok c) : c.Truthful := by
  obtain ⟨hcong, rfl⟩ := partTagged_eq_ok_iff.1 h
  refine ⟨ht.proper, fun q hq hpos => ?_⟩
  obtain ⟨r, hr, rfl⟩ := Option.map_eq_some_iff.1 hq
  obtain ⟨hr0, hstart⟩ := start_of_part hpos
  have hres := ht.residue
  obtain h1 | ⟨-, hcong⟩ := hcong
  · obtain h1 : t.modulus = 1 := by omega
    simp only [h1, Nat.mod_one]
    omega
  · have hdvd : t.modulus ∣ b.tag.modulus := Nat.dvd_of_mod_eq_zero ht.divides
    have hmod : r.start ≡ b.tag.residue [MOD t.modulus] := by
      rw [← hb.address r hr hr0]
      exact ((Nat.mod_modEq r.start b.tag.modulus).of_dvd hdvd).symm
    calc (r.part offset size).start % t.modulus
        = (r.start + offset) % t.modulus := by rw [hstart]
      _ = (b.tag.residue + offset) % t.modulus := hmod.add_right offset
      _ = t.residue := hcong

theorem Truthful.retag (hb : b.Truthful) (ht : b.tag.Compatible t) : (b.retag t).Truthful := by
  refine ⟨ht.proper, fun r hr hpos => ?_⟩
  have hdvd : t.modulus ∣ b.tag.modulus := Nat.dvd_of_mod_eq_zero ht.divides
  calc r.start % t.modulus
      = r.start % b.tag.modulus % t.modulus := (Nat.mod_mod_of_dvd r.start hdvd).symm
    _ = b.tag.residue % t.modulus := by rw [hb.address r hr hpos]
    _ = t.residue := ht.residue

theorem Truthful.derives (hb : b.Truthful) (h : Derives b c) : c.Truthful := by
  cases h with
  | part t offset size ht h => exact hb.part ht h
  | retag t ht => exact hb.retag ht
  | readOnly => exact hb

theorem Reachable.truthful (h : Reachable b) : b.Truthful := by
  induction h with
  | null t ht => exact ⟨ht, fun r hr => by cases hr⟩
  | tagged t r ht h => exact truthful_tagged ht h
  | step _ h ih => exact ih.derives h

theorem eq_of_path (hx : b.exact bits = .ok r) (hp : b.path bits = .aligned n) : n = r.size := by
  have hs := (exact_eq_ok hx).2
  have hn := AccessPath.eq_of_select hp
  omega

def TagHolds (b : Buffer) : Prop :=
  ∀ r, b.region = some r → 0 < r.size → b.tag.holds r.start = true

theorem Truthful.tagHolds (hb : b.Truthful) : b.TagHolds := fun r hr hpos =>
  hb.proper.holds_iff.2 (hb.address r hr hpos)

theorem TagHolds.permits (hb : b.TagHolds) (hx : b.exact bits = .ok r) :
    (b.path bits).Permits r.start := by
  obtain ⟨hr, hs⟩ := exact_eq_ok hx
  by_cases hpos : 0 < r.size
  · exact AccessPath.permits_select (hb r hr hpos) bits
  · obtain rfl : bits = 0 := by omega
    trivial

theorem TagHolds.asserts (hb : b.TagHolds) (hx : b.exact bits = .ok r) :
    (b.path bits).asserts r.start r.size = true :=
  AccessPath.asserts_of_permits (hb.permits hx) fun _ hp => eq_of_path hx hp

theorem Truthful.permits (hb : b.Truthful) (hx : b.exact bits = .ok r) :
    (b.path bits).Permits r.start :=
  hb.tagHolds.permits hx

theorem Truthful.asserts (hb : b.Truthful) (hx : b.exact bits = .ok r) :
    (b.path bits).asserts r.start r.size = true :=
  hb.tagHolds.asserts hx

def assertingRead (b : Buffer) (e : Endian) (bits : Nat) (m : Memory) : Except Fault Word := do
  let r ← b.exact bits
  (b.path bits).assertingLoad e m r

def assertingLoad (b : Buffer) (e : Endian) (bits : Nat) (m : Memory) : Except Fault Word :=
  match b.exact bits with
  | .ok r => (b.path bits).assertingLoad e m r
  | .error _ => .ok (b.loadPadded e bits m)

def assertingPut (b : Buffer) (e : Endian) (bits : Nat) (w : Word) (m : Memory) :
    Except Fault Memory :=
  match b.exact bits with
  | .ok r => (b.path bits).assertingStore m r e w
  | .error _ => .ok (b.storePadded e bits w m)

/-- The tag of a buffer is true wherever it is used: of a buffer that has bytes, the first one lies
at an address that agrees with the tag, whatever chain of parts, weaker tags and read-only views led
to it. An access along the aligned path is made at a multiple of its width, so the assertions of
typed loads and stores never fail. -/
theorem declared_alignment_true (h : Reachable b) :
    (∀ r, b.region = some r → 0 < r.size → r.start % b.tag.modulus = b.tag.residue) ∧
      (∀ bits r n, b.exact bits = .ok r → b.path bits = .aligned n →
        n = r.size ∧ r.start % n = 0) ∧
      (∀ e bits m, b.assertingRead e bits m = b.read e bits m) ∧
      (∀ e bits m, b.assertingLoad e bits m = .ok (b.load e bits m)) ∧
      (∀ e bits w m, b.assertingPut e bits w m = .ok (b.put e bits w m)) := by
  have ht := h.truthful
  refine ⟨ht.address, ?_, ?_, ?_, ?_⟩
  · intro bits r n hx hp
    have hperm := ht.permits hx
    rw [hp] at hperm
    exact ⟨eq_of_path hx hp, hperm⟩
  · intro e bits m
    rw [assertingRead, read]
    cases hx : b.exact bits with
    | error fault => rfl
    | ok r => simp [bind, Except.bind, Except.map, AccessPath.assertingLoad, ht.asserts hx]
  · intro e bits m
    rw [assertingLoad, load]
    cases hx : b.exact bits with
    | error fault => rfl
    | ok r => simp [AccessPath.assertingLoad, ht.asserts hx]
  · intro e bits w m
    rw [assertingPut, put]
    cases hx : b.exact bits with
    | error fault => rfl
    | ok r => simp [AccessPath.assertingStore, ht.asserts hx]

/-- Two bytes cut from nine that start four past a multiple of eight, under a weaker tag in the end:
they are moved at once along the aligned path. -/
theorem declared_alignment_true_of_cut_pair :
    let whole : Buffer := ⟨some ⟨12, 9⟩, ⟨8, 4⟩⟩
    let cut : Buffer := ⟨some ⟨18, 2⟩, ⟨4, 2⟩⟩
    let pair : Buffer := cut.retag ⟨2, 0⟩
    tagged ⟨8, 4⟩ ⟨12, 9⟩ = .ok whole ∧ whole.partTagged ⟨4, 2⟩ 6 2 = .ok cut ∧
      Reachable pair ∧ pair.path 16 = .aligned 2 ∧ 18 % 2 = 0 ∧
      ∀ e m, pair.assertingRead e 16 m = pair.read e 16 m := by
  intro whole cut pair
  have hwhole : tagged ⟨8, 4⟩ ⟨12, 9⟩ = .ok whole := rfl
  have hcut : whole.partTagged ⟨4, 2⟩ 6 2 = .ok cut := by
    simp [whole, cut, partTagged, sizeLimit, part, Region.part]
  have hreach : Reachable pair :=
    .step (.step (.tagged _ _ ⟨by decide, by decide⟩ hwhole)
      (.part _ _ _ ⟨by decide, by decide, by decide⟩ hcut))
      (.retag _ ⟨by decide, by decide, by decide⟩)
  have hpath : pair.path 16 = .aligned 2 := by
    simp [pair, cut, retag, path, AccessPath.select, AccessPath.downgrade, isPowerOfTwo]
  obtain ⟨-, hpermits, hread, -⟩ := declared_alignment_true hreach
  exact ⟨hwhole, hcut, hreach, hpath, (hpermits 16 ⟨18, 2⟩ 2 rfl hpath).2,
    fun e m => hread e 16 m⟩

end Buffer

end Packed
