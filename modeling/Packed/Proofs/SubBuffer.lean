import Mathlib.Logic.Relation
import Packed.ByteStore
import Packed.Proofs.Alignment
import Packed.Proofs.UncheckedAccess

namespace Packed

namespace Region

theorem part_eq (r : Region) (offset size : Nat) : r.part offset size =
    ⟨r.start + min offset r.size, min (offset + size) r.size - min offset r.size⟩ := by
  simp only [part, mk.injEq, true_and]
  omega

theorem part_part (r : Region) (o₁ : Nat) {s₁ o₂ : Nat} (h : o₂ ≤ s₁) (s₂ : Nat) :
    (r.part o₁ s₁).part o₂ s₂ = r.part (o₁ + o₂) (min s₂ (s₁ - o₂)) := by
  simp only [part, mk.injEq]
  obtain ho | ho := Nat.le_total o₁ r.size
  · rw [Nat.min_eq_left ho]
    constructor <;> omega
  · rw [Nat.min_eq_right ho, Nat.sub_self, Nat.min_zero]
    constructor <;> omega

theorem slice_part (r : Region) (kind : StoreKind) (hr : r.size < sizeLimit) (offset size : Nat) :
    (ByteStore.mk kind r).slice (min offset r.size) (min size (r.size - min offset r.size)) =
      .ok ⟨kind, r.part offset size⟩ := by
  rw [ByteStore.slice, if_neg (by omega), if_neg (by dsimp only [ByteStore.size]; omega)]
  rfl

end Region

namespace Buffer

variable {b c d : Buffer} {m m' : Memory} {i j p q : Nat}

structure IsRange (b c : Buffer) (first last : Nat) : Prop where
  region : c.region = b.region.map fun r => ⟨r.start + first, last - first⟩
  ordered : first ≤ last
  within : last ≤ b.size

namespace IsRange

theorem refl (b : Buffer) : b.IsRange b 0 b.size := by
  refine ⟨?_, Nat.zero_le _, Nat.le_refl _⟩
  rw [size]
  cases b.region <;> rfl

theorem ok (h : b.IsRange c i j) : c.ok = b.ok := by
  rw [Buffer.ok, Buffer.ok, h.region, Option.isSome_map]

theorem size (h : b.IsRange c i j) : c.size = j - i := by
  have hin := h.within
  cases hr : b.region with
  | none =>
      rw [size_of_null hr] at hin
      rw [size_of_null (by rw [h.region, hr, Option.map_none])]
      omega
  | some r => exact size_of_region (by rw [h.region, hr, Option.map_some])

theorem trans (h : b.IsRange c i j) (h' : c.IsRange d p q) : b.IsRange d (i + p) (i + q) := by
  have hin := h.within
  have hord := h.ordered
  have hin' := h'.within
  rw [h.size] at hin'
  refine ⟨?_, Nat.add_le_add_left h'.ordered i, by omega⟩
  rw [h'.region, h.region, Option.map_map]
  congr 1
  funext r
  simp only [Function.comp, Region.mk.injEq]
  omega

theorem retag (h : b.IsRange c i j) (t : Alignment) : b.IsRange (c.retag t) i j :=
  ⟨h.region, h.ordered, h.within⟩

theorem part (b : Buffer) (t : Alignment) (offset size : Nat) :
    b.IsRange { b.part offset size with tag := t }
      (min offset b.size) (min (offset + size) b.size) := by
  refine ⟨?_, by omega, Nat.min_le_right _ _⟩
  rw [Buffer.part, Buffer.size]
  cases b.region with
  | none => rfl
  | some r => exact congrArg some (r.part_eq offset size)

theorem of_derives (h : Derives b c) : ∃ i j, b.IsRange c i j := by
  cases h with
  | part t offset size _ hc =>
      obtain ⟨-, rfl⟩ := partTagged_eq_ok_iff.1 hc
      exact ⟨_, _, part b t offset size⟩
  | retag t _ => exact ⟨_, _, (refl b).retag t⟩
  | readOnly => exact ⟨_, _, refl b⟩

theorem of_chain (h : Relation.ReflTransGen Derives b c) : ∃ i j, b.IsRange c i j := by
  induction h with
  | refl => exact ⟨_, _, refl b⟩
  | tail _ hstep ih =>
      obtain ⟨i, j, hrange⟩ := ih
      obtain ⟨p, q, hnext⟩ := of_derives hstep
      exact ⟨_, _, hrange.trans hnext⟩

theorem bytes (h : b.IsRange c i j) (m : Memory) :
    c.bytes m = ((b.bytes m).take j).drop i := by
  have hin := h.within
  rw [Buffer.bytes, Buffer.bytes, h.region]
  cases hr : b.region with
  | none => simp
  | some r =>
      rw [size_of_region hr] at hin
      simp only [Option.map_some, Option.elim_some, Memory.read]
      rw [List.take_take, Nat.min_eq_left hin, List.drop_take, List.drop_drop]

theorem address? (h : b.IsRange c i j) {k a : Nat} (ha : c.address? k = some a) :
    b.address? (i + k) = some a := by
  obtain ⟨r', hr', hk, rfl⟩ := address?_eq_some.1 ha
  rw [h.region] at hr'
  obtain ⟨r, hr, rfl⟩ := Option.map_eq_some_iff.1 hr'
  have hin := h.within
  rw [size_of_region hr] at hin
  refine address?_eq_some.2 ⟨r, hr, ?_, ?_⟩
  · dsimp only at hk
    omega
  · dsimp only
    omega

end IsRange

theorem read_congr (h : b.bytes m = b.bytes m') (e : Endian) (bits : Nat) :
    b.read e bits m = b.read e bits m' := by
  rw [read, read]
  cases hx : b.exact bits with
  | error fault => rfl
  | ok r =>
      have hread : m.read r = m'.read r := by simpa [bytes, (exact_eq_ok hx).1] using h
      rw [Except.map, Except.map, hread]

theorem tryCopy_eq_ok_iff {source : Buffer} {size : Nat} : b.tryCopy source size m = .ok m' ↔
    ∃ r q, b.region = some r ∧ source.region = some q ∧ size ≤ min r.size q.size ∧
      m' = m.move r.start q.start size := by
  constructor
  · intro h
    rw [tryCopy] at h
    split at h
    · rename_i r q hr hq
      dsimp only at h
      split at h
      · cases h
      · rename_i hle
        cases h
        exact ⟨r, q, hr, hq, Nat.not_lt.1 hle, rfl⟩
    · cases h
  · rintro ⟨r, q, hr, hq, hle, rfl⟩
    rw [tryCopy, hr, hq]
    exact if_neg (Nat.not_lt.2 hle)

theorem get_tryCopy_of_ne {source : Buffer} {size a : Nat}
    (h : b.tryCopy source size m = .ok m') (ha : ∀ i, b.address? i ≠ some a) :
    m'.get a = m.get a := by
  obtain ⟨r, q, hr, -, hsize, rfl⟩ := tryCopy_eq_ok_iff.1 h
  refine Memory.get_write_of_outside m ?_
  rw [Memory.length_read]
  by_contra hin
  dsimp only at hin
  exact ha (a - r.start) (address?_eq_some.2 ⟨r, hr, by omega, by omega⟩)

/-- Reads through buffer `c` depend on the bytes of buffer `b` only, and nothing that is written or
copied through it changes another byte. -/
structure Confines (b c : Buffer) : Prop where
  load : ∀ e bits m m', b.bytes m = b.bytes m' → c.load e bits m = c.load e bits m'
  read : ∀ e bits m m', b.bytes m = b.bytes m' → c.read e bits m = c.read e bits m'
  put : ∀ e bits w m a, (∀ i, b.address? i ≠ some a) → (c.put e bits w m).get a = m.get a
  copy : ∀ source size m m' a, c.tryCopy source size m = .ok m' →
    (∀ i, b.address? i ≠ some a) → m'.get a = m.get a

theorem IsRange.confines (h : b.IsRange c i j) : b.Confines c := by
  have hbytes : ∀ m m', b.bytes m = b.bytes m' → c.bytes m = c.bytes m' := by
    intro m m' heq
    rw [h.bytes, h.bytes, heq]
  have hout : ∀ a, (∀ k, b.address? k ≠ some a) → ∀ k, c.address? k ≠ some a :=
    fun a ha k hk => ha _ (h.address? hk)
  exact {
    load := fun e bits m m' heq => load_congr (hbytes m m' heq) e bits
    read := fun e bits m m' heq => read_congr (hbytes m m' heq) e bits
    put := fun e bits w m a ha => get_put_of_ne e bits w m fun k _ => hout a ha _
    copy := fun source size m m' a hc ha => get_tryCopy_of_ne hc (hout a ha) }

theorem region_part_part (b : Buffer) (o₁ : Nat) {s₁ o₂ : Nat} (h : o₂ ≤ s₁) (s₂ : Nat) :
    ((b.part o₁ s₁).part o₂ s₂).region = (b.part (o₁ + o₂) (min s₂ (s₁ - o₂))).region := by
  simp only [Buffer.part, Option.map_map]
  congr 1
  funext r
  exact r.part_part o₁ h s₂

theorem Admits.add {t₁ t₂ : Alignment} {o₁ o₂ : Nat} (h₁ : b.Admits t₁ o₁) (hc : c.tag = t₁)
    (h₂ : c.Admits t₂ o₂) (ht₁ : b.tag.Derivable t₁) (ht₂ : t₁.Derivable t₂)
    (hlim : b.tag.residue + (o₁ + o₂) < sizeLimit) : b.Admits t₂ (o₁ + o₂) := by
  obtain h₂ | ⟨-, h₂⟩ := h₂
  · exact .inl h₂
  · refine .inr ⟨hlim, ?_⟩
    have hdvd : t₂.modulus ∣ t₁.modulus := Nat.dvd_of_mod_eq_zero ht₂.divides
    have hfirst : b.tag.residue + o₁ ≡ t₁.residue [MOD t₁.modulus] := by
      obtain h₁ | ⟨-, h₁⟩ := h₁
      · have hpos := ht₁.proper.modulus
        obtain h₁ : t₁.modulus = 1 := by omega
        rw [h₁]
        exact Nat.modEq_one
      · rw [Nat.ModEq, h₁, Nat.mod_eq_of_lt ht₁.residue]
    calc (b.tag.residue + (o₁ + o₂)) % t₂.modulus
        = (b.tag.residue + o₁ + o₂) % t₂.modulus := by rw [Nat.add_assoc]
      _ = (t₁.residue + o₂) % t₂.modulus := (hfirst.of_dvd hdvd).add_right o₂
      _ = t₂.residue := by rw [← hc, h₂]

/-- Parts of buffers compose and never leave the buffer. A part with a tag that follows is the range
from its offset to its end, both cut at the end of the buffer, and the slice that makes it meets no
check that fails. A part of a part covers the same bytes as one part of the whole, which may declare
the same tag. Whatever chain of parts, other tags and read-only views leads to a buffer, its bytes
are a range of those of the first, and accesses through it reach no others. -/
theorem sub_buffers_compose (b : Buffer) :
    (∀ t offset size, b.Admits t offset →
      ∃ c, b.partTagged t offset size = .ok c ∧ c.tag = t ∧ c.ok = b.ok ∧
        b.IsRange c (min offset b.size) (min (offset + size) b.size) ∧
        ∀ r, b.region = some r → r.size < sizeLimit → ∀ kind,
          (ByteStore.mk kind r).slice (min offset r.size) (min size (r.size - min offset r.size)) =
            .ok ⟨kind, r.part offset size⟩ ∧ c.region = some (r.part offset size)) ∧
      (∀ t₁ t₂ o₁ s₁ o₂ s₂ c₁ c₂, o₂ ≤ s₁ →
        b.partTagged t₁ o₁ s₁ = .ok c₁ → c₁.partTagged t₂ o₂ s₂ = .ok c₂ →
        (∀ t c, b.partTagged t (o₁ + o₂) (min s₂ (s₁ - o₂)) = .ok c → c.region = c₂.region) ∧
        b.partTagged .any (o₁ + o₂) (min s₂ (s₁ - o₂)) = .ok (c₂.retag .any) ∧
        (b.tag.Derivable t₁ → t₁.Derivable t₂ → b.tag.residue + (o₁ + o₂) < sizeLimit →
          b.partTagged t₂ (o₁ + o₂) (min s₂ (s₁ - o₂)) = .ok c₂)) ∧
      ∀ c, Relation.ReflTransGen Derives b c → ∃ first last,
        b.IsRange c first last ∧ c.ok = b.ok ∧
        (∀ m, c.bytes m = ((b.bytes m).take last).drop first) ∧
        (∀ i a, c.address? i = some a → b.address? (first + i) = some a) ∧ b.Confines c := by
  refine ⟨fun t offset size ht => ?_, ?_, fun c hc => ?_⟩
  · have hrange := IsRange.part b t offset size
    refine ⟨_, partTagged_eq_ok_iff.2 ⟨ht, rfl⟩, rfl, hrange.ok, hrange, fun r hr hsize kind => ?_⟩
    refine ⟨r.slice_part kind hsize offset size, ?_⟩
    simp only [part, hr, Option.map_some]
  · intro t₁ t₂ o₁ s₁ o₂ s₂ c₁ c₂ h hc₁ hc₂
    obtain ⟨h₁, rfl⟩ := partTagged_eq_ok_iff.1 hc₁
    obtain ⟨h₂, rfl⟩ := partTagged_eq_ok_iff.1 hc₂
    have hregion := b.region_part_part o₁ h s₂
    refine ⟨fun t c hc => ?_, ?_, fun ht₁ ht₂ hlim => ?_⟩
    · obtain ⟨-, rfl⟩ := partTagged_eq_ok_iff.1 hc
      exact hregion.symm
    · refine partTagged_eq_ok_iff.2 ⟨.inl (Nat.le_refl 1), ?_⟩
      exact congrArg (Buffer.mk · .any) hregion
    · refine partTagged_eq_ok_iff.2 ⟨h₁.add rfl h₂ ht₁ ht₂ hlim, ?_⟩
      exact congrArg (Buffer.mk · t₂) hregion
  · obtain ⟨first, last, hrange⟩ := IsRange.of_chain hc
    exact ⟨first, last, hrange, hrange.ok, hrange.bytes, fun _ _ => hrange.address?,
      hrange.confines⟩

/-- Of seven bytes at a multiple of eight, the part from offset two on, asked for as long as can be,
and of that the four bytes from offset two on, of which there are three. -/
theorem sub_buffers_compose_of_seven_bytes :
    let whole : Buffer := ⟨some ⟨8, 7⟩, ⟨8, 0⟩⟩
    let outer : Buffer := ⟨some ⟨10, 5⟩, ⟨2, 0⟩⟩
    let inner : Buffer := ⟨some ⟨12, 3⟩, ⟨2, 0⟩⟩
    whole.partTagged ⟨2, 0⟩ 2 (sizeLimit - 1) = .ok outer ∧ whole.IsRange outer 2 7 ∧
      outer.partTagged ⟨2, 0⟩ 2 4 = .ok inner ∧ whole.partTagged ⟨2, 0⟩ 4 4 = .ok inner ∧
      ∃ first last, (∀ m, inner.bytes m = ((whole.bytes m).take last).drop first) ∧
        whole.Confines inner := by
  intro whole outer inner
  have hadmits : whole.Admits ⟨2, 0⟩ 2 := .inr ⟨by decide, by decide⟩
  have houter : whole.partTagged ⟨2, 0⟩ 2 (sizeLimit - 1) = .ok outer :=
    partTagged_eq_ok_iff.2 ⟨hadmits, rfl⟩
  have hinner : outer.partTagged ⟨2, 0⟩ 2 4 = .ok inner :=
    partTagged_eq_ok_iff.2 ⟨.inr ⟨by decide, by decide⟩, rfl⟩
  have hderive : whole.tag.Derivable ⟨2, 0⟩ := ⟨by decide, by decide, by decide⟩
  have hderive' : outer.tag.Derivable ⟨2, 0⟩ := ⟨by decide, by decide, by decide⟩
  have hchain : Relation.ReflTransGen Derives whole inner :=
    (Relation.ReflTransGen.single (.part _ _ _ hderive houter)).tail (.part _ _ _ hderive' hinner)
  obtain ⟨hpart, hcompose, hconfine⟩ := sub_buffers_compose whole
  obtain ⟨c, hc, -, -, hrange, -⟩ := hpart ⟨2, 0⟩ 2 (sizeLimit - 1) hadmits
  obtain rfl : outer = c := Except.ok.inj (houter.symm.trans hc)
  obtain ⟨-, -, hdirect⟩ := hcompose _ _ _ _ _ _ _ _ (by decide) houter hinner
  obtain ⟨first, last, -, -, hbytes, -, hconfines⟩ := hconfine inner hchain
  exact ⟨houter, hrange, hinner, hdirect hderive hderive' (by decide), first, last, hbytes,
    hconfines⟩

end Buffer

end Packed
