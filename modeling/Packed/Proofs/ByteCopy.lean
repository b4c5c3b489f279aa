import Packed.Proofs.ArrayCopy
import Packed.Proofs.Tiled

namespace Packed

theorem BitStorage.disjoint_block_iff {b c : Block} {r q : Region} {m : Memory}
    (hb : b.Spans r m) (hc : c.Spans q m) : (BitStorage.block b).Disjoint (.block c) ↔
      r.start + r.size ≤ q.start ∨ q.start + q.size ≤ r.start := by
  have hbs : (BitStorage.block b).Spans r m := ⟨hb, trivial⟩
  have hcs : (BitStorage.block c).Spans q m := ⟨hc, trivial⟩
  constructor
  · intro h
    by_contra hne
    have hrpos := b.format.bits_pos
    have hqpos := c.format.bits_pos
    have hr := hb.size
    have hq := hc.size
    rw [Block.bits] at hr hq
    -- Both hold the first byte of whichever starts later.
    obtain ⟨k, hk, hkp⟩ :=
      Block.exists_place (p := 8 * max r.start q.start) hb (by omega) (by omega)
    obtain ⟨l, hl, hlp⟩ :=
      Block.exists_place (p := 8 * max r.start q.start) hc (by omega) (by omega)
    refine h k l hk hl ?_
    simp only [place, base, offset, Nat.zero_add]
    rw [hkp, hlp]
  · intro h k l hk hl he
    have hin := place_mem hbs hk
    have hin' := place_mem hcs hl
    rw [he] at hin
    omega

theorem exists_crossing {f g : Nat → Nat} {n : Nat} (h : f 0 ≤ g 0) (hn : g n < f n) :
    ∃ k, k < n ∧ f k ≤ g k ∧ g (k + 1) < f (k + 1) := by
  induction n with
  | zero => omega
  | succ n ih =>
      by_cases hle : f n ≤ g n
      · exact ⟨n, Nat.lt_succ_self n, hle, hn⟩
      · obtain ⟨k, hk, hc⟩ := ih (by omega)
        exact ⟨k, by omega, hc⟩

theorem le_of_ends_le {x y d e n k : Nat} (h : x ≤ y) (hn : x + n * d ≤ y + n * e) (hk : k ≤ n) :
    x + k * d ≤ y + k * e := by
  obtain ⟨l, rfl⟩ := Nat.exists_eq_add_of_le hk
  rw [Nat.add_mul, Nat.add_mul] at hn
  obtain hde | hde := Nat.le_total d e
  · have hm := Nat.mul_le_mul_left k hde
    omega
  · have hm := Nat.mul_le_mul_left l hde
    omega

/-- On two lines of intervals, the first of which starts no later than the second, each interval of
the first is apart from the later ones of the second just if the first also ends no later. -/
theorem apart_iff_ends_le {x y d e n : Nat} (he : 0 < e) (h : x ≤ y) :
    (∀ i j, i < j → j < n → x + i * d + d ≤ y + j * e ∨ y + j * e + e ≤ x + i * d) ↔
      x + (n - 1) * d ≤ y + (n - 1) * e := by
  constructor
  · intro ha
    by_contra hne
    obtain ⟨k, hk, hle, hgt⟩ := exists_crossing (f := fun k => x + k * d)
      (g := fun k => y + k * e) (n := n - 1) (by simpa using h) (by omega)
    have hcross := ha k (k + 1) (Nat.lt_succ_self k) (by omega)
    have hd := Nat.add_one_mul k d
    have he := Nat.add_one_mul k e
    omega
  · intro hends i j hij hj
    have hle := le_of_ends_le h hends (k := j) (by omega)
    have hd := tile_le d hij
    omega

namespace ArrayView

structure Numbers (a : ArrayView Buffer) (t : ScalarType Buffer) (format : BlockFormat)
    (r : Region) (m : Memory) : Prop where
  element : a.element = .scalar t
  whole : t.kind.Whole
  bits : t.bits = fun b => .block ⟨format, b⟩
  width : t.width = format.bits
  stride : a.stride * 8 = format.bits
  region : a.storage.region = some r
  lies : r.start + r.size ≤ m.length

variable {a b : ArrayView Buffer} {t u : ScalarType Buffer} {f g : BlockFormat} {r q : Region}
  {m n : Memory} {i j : Nat}

theorem Numbers.size_eq (h : a.Numbers t f r m) : Tiled.size a.storage = r.size := by
  simp [Tiled.size, Buffer.size, h.region]

theorem Numbers.spans (h : a.Numbers t f r m) (hm : m.length < sizeLimit) (hi : i < a.count) :
    (Block.mk f (a.slot i)).Spans ⟨r.start + i * a.stride, a.stride⟩ m := by
  have hlies := h.lies
  exact Buffer.spans_tile h.region hlies (by omega) h.stride hi

theorem Numbers.stride_eq (ha : a.Numbers t f r m) (hb : b.Numbers u f q m) :
    a.stride = b.stride := by
  have h1 := ha.stride
  have h2 := hb.stride
  omega

theorem Numbers.storage (h : a.Numbers t f r m) (i : Nat) :
    (t.field (a.slot i)).storage = .block ⟨f, a.slot i⟩ := by
  rw [ScalarType.field, h.bits]

theorem Numbers.field_spans (h : a.Numbers t f r m) (hm : m.length < sizeLimit)
    (hi : i < a.count) :
    (t.field (a.slot i)).storage.Spans ⟨r.start + i * a.stride, a.stride⟩ m := by
  rw [h.storage]
  exact ⟨h.spans hm hi, trivial⟩

theorem Numbers.disjoint (h : a.Numbers t f r m) (hm : m.length < sizeLimit) (hi : i < a.count)
    (hj : j < a.count) (hij : i ≠ j) :
    (t.field (a.slot i)).storage.Disjoint (t.field (a.slot j)).storage := by
  rw [h.storage, h.storage, BitStorage.disjoint_block_iff (h.spans hm hi) (h.spans hm hj)]
  have hd := tiles_disjoint a.stride hij
  dsimp only
  omega

theorem Numbers.plain (h : a.Numbers t f r m) (hm : m.length < sizeLimit) (hi : i < a.count)
    (ht : ∀ v, t.check v = true) : (t.field (a.slot i)).Plain := by
  have hw : (t.field (a.slot i)).width = (t.field (a.slot i)).storage.size := by
    rw [h.storage]
    exact h.width
  refine ⟨h.whole, ?_, hw, ht⟩
  rw [Field.isComplete, ← hw, h.storage]
  exact Bool.and_eq_true_iff.2 ⟨(h.spans hm hi).ok, by simp⟩

/-- The last elements lie in the order in which the first ones do. -/
def EndsInOrder (a b : ArrayView Buffer) (r q : Region) : Prop :=
  if q.start < r.start then
    q.start + (a.count - 1) * b.stride ≤ r.start + (a.count - 1) * a.stride
  else r.start + (a.count - 1) * a.stride ≤ q.start + (a.count - 1) * b.stride

theorem endsInOrder_of_stride_eq (h : a.stride = b.stride) : a.EndsInOrder b r q := by
  rw [EndsInOrder, h]
  split <;> omega

section

variable (ha : a.Numbers t f r m) (hb : b.Numbers u g q m)

include ha hb

theorem Numbers.runsBackward_iff :
    runsBackward a.storage b.storage = true ↔ q.start < r.start := by
  have hla : Tiled.location? a.storage = some (r.start, 0) := by
    change a.storage.region.map _ = _
    rw [ha.region]
    rfl
  have hlb : Tiled.location? b.storage = some (q.start, 0) := by
    change b.storage.region.map _ = _
    rw [hb.region]
    rfl
  rw [runsBackward, hla, hlb]
  simp

variable (hm : m.length < sizeLimit) (hn : a.count = b.count)

include hm hn

theorem Numbers.spares_iff (hk : u.kind = t.kind) (hi : i < a.count) (hj : j < a.count) :
    (t.transfer u hk (a.slot i) (b.slot i)).Spares (t.transfer u hk (a.slot j) (b.slot j)) ↔
      r.start + i * a.stride + a.stride ≤ q.start + j * b.stride ∨
        q.start + j * b.stride + b.stride ≤ r.start + i * a.stride := by
  change BitStorage.Disjoint (t.field (a.slot i)).storage (u.field (b.slot j)).storage ↔ _
  rw [ha.storage, hb.storage]
  exact BitStorage.disjoint_block_iff (ha.spans hm hi) (hb.spans hm (hn ▸ hj))

theorem Numbers.readsAhead_iff (hk : u.kind = t.kind) :
    a.ReadsAhead b ↔ a.EndsInOrder b r q := by
  rw [ReadsAhead, pairwise_transfers_of_scalar ha.element hb.element hk, EndsInOrder]
  simp only [ha.runsBackward_iff hb]
  split
  · rename_i hlt
    rw [← apart_iff_ends_le a.stride_pos (Nat.le_of_lt hlt)]
    constructor
    · intro h i j hij hj
      exact ((ha.spares_iff hb hm hn hk hj (by omega)).1 (h j i hj (by omega) hij)).symm
    · intro h i j hi hj hij
      exact (ha.spares_iff hb hm hn hk hi hj).2 (h j i hij hi).symm
  · rename_i hge
    rw [← apart_iff_ends_le b.stride_pos (Nat.le_of_not_lt hge)]
    constructor
    · intro h i j hij hj
      exact (ha.spares_iff hb hm hn hk (by omega) hj).1 (h i j (by omega) hj hij)
    · intro h i j hi hj hij
      exact (ha.spares_iff hb hm hn hk hi hj).2 (h i j hij hj)

theorem Numbers.laid (hk : u.kind = t.kind) : a.Laid b m := by
  refine ⟨fun x hx => ?_, ?_, ?_⟩
  · obtain ⟨i, hi, rfl⟩ := (mem_transfers_of_scalar ha.element hb.element hk).1 hx
    exact ⟨⟨_, ha.field_spans hm hi⟩, ⟨_, hb.field_spans hm (hn ▸ hi)⟩⟩
  · rw [pairwise_transfers_of_scalar ha.element hb.element hk]
    exact fun i j hi hj hij => ha.disjoint hm hi hj (ne_of_before hij)
  · rw [pairwise_transfers_of_scalar ha.element hb.element hk]
    exact fun i j hi hj hij => hb.disjoint hm (hn ▸ hi) (hn ▸ hj) (ne_of_before hij)

theorem Numbers.plain_transfers (hk : u.kind = t.kind) (ht : ∀ v, t.check v = true)
    (hu : ∀ v, u.check v = true) : ∀ x ∈ a.transfers b, x.Plain := by
  intro x hx
  obtain ⟨i, hi, rfl⟩ := (mem_transfers_of_scalar ha.element hb.element hk).1 hx
  exact ⟨ha.plain hm hi ht, t.plain_source u hk _ _ (hb.plain hm (hn ▸ hi) hu)⟩

end

/-- A copy between arrays of whole numbers of any two sizes. It is right if the last elements lie in
the order in which the first ones do; if not, it goes wrong from some memory, though it succeeds. -/
theorem byte_copy_right_where_ends_in_order (hm : m.length < sizeLimit)
    (ha : a.Numbers t f r m) (hb : b.Numbers u g q m) (hk : u.kind = t.kind)
    (hn : a.count = b.count) :
    (a.EndsInOrder b r q → ∀ n, a.tryCopy b m = .ok () n → a.Copied b m n) ∧
    ((∀ v, t.check v = true) → (∀ v, u.check v = true) → ¬ a.EndsInOrder b r q →
      ∃ m' n, m'.length = m.length ∧ a.tryCopy b m' = .ok () n ∧ ¬ a.Copied b m' n) := by
  have hp := parallel_of_scalar ha.element hb.element hk hn
  have hl := ha.laid hb hm hn hk
  have hiff := ha.readsAhead_iff hb hm hn hk
  refine ⟨fun he n hc => ?_, fun ht hu he => ?_⟩
  · refine hp.tryCopy_copied hl (hiff.2 he) (fun x hx => ?_) hc
    obtain ⟨i, -, rfl⟩ := (mem_transfers_of_scalar ha.element hb.element hk).1 hx
    exact ha.whole.hosted
  · exact hp.exists_not_copied hl (fun h => he (hiff.1 h))
      (ha.plain_transfers hb hm hn hk ht hu)

/-- Bytes widened to pairs that begin as far before them as there are bytes. -/
theorem byte_copy_right_into_preceding_pairs :
    let m : Memory := [0, 0, 1, 2]
    let t : ScalarType Buffer :=
      ⟨.unsigned, 16, ⟨by decide, by decide⟩, fun _ => true, fun b => .block ⟨.bigPair, b⟩⟩
    let u : ScalarType Buffer :=
      ⟨.unsigned, 8, ⟨by decide, by decide⟩, fun _ => true, fun b => .block ⟨.byte, b⟩⟩
    let a : ArrayView Buffer := ⟨.scalar t, 2, Nat.two_pos, .ofRegion ⟨0, 4⟩⟩
    let b : ArrayView Buffer := ⟨.scalar u, 1, Nat.one_pos, .ofRegion ⟨2, 2⟩⟩
    a.tryCopy b m = .ok () [0, 1, 0, 2] ∧ a.Copied b m [0, 1, 0, 2] := by
  intro m t u a b
  have ha : a.Numbers t .bigPair ⟨0, 4⟩ m := ⟨rfl, .inl rfl, rfl, rfl, rfl, rfl, by decide⟩
  have hb : b.Numbers u .byte ⟨2, 2⟩ m := ⟨rfl, .inl rfl, rfl, rfl, rfl, rfl, by decide⟩
  have hc : a.tryCopy b m = .ok () [0, 1, 0, 2] := Action.eq_ok (by decide +kernel)
  exact ⟨hc, (byte_copy_right_where_ends_in_order (by decide) ha hb rfl (by decide)).1
    (by simp [EndsInOrder, a, b]; decide) _ hc⟩

/-- Bytes widened in place: the first pair is written over the second byte before that is read. -/
theorem byte_copy_wrong_in_place :
    let m : Memory := [1, 2, 3, 4]
    let t : ScalarType Buffer :=
      ⟨.unsigned, 16, ⟨by decide, by decide⟩, fun _ => true, fun b => .block ⟨.bigPair, b⟩⟩
    let u : ScalarType Buffer :=
      ⟨.unsigned, 8, ⟨by decide, by decide⟩, fun _ => true, fun b => .block ⟨.byte, b⟩⟩
    let a : ArrayView Buffer := ⟨.scalar t, 2, Nat.two_pos, .ofRegion ⟨0, 4⟩⟩
    let b : ArrayView Buffer := ⟨.scalar u, 1, Nat.one_pos, .ofRegion ⟨0, 2⟩⟩
    a.count = b.count ∧ a.tryCopy b m = .ok () [0, 1, 0, 1] ∧ ¬ a.Copied b m [0, 1, 0, 1] := by
  intro m t u a b
  have hread : (u.field (b.slot 1)).uncheckedRead m = (2 : Nat) := by decide +kernel
  have hread' : (t.field (a.slot 1)).uncheckedRead [0, 1, 0, 1] = (1 : Nat) := by decide +kernel
  refine ⟨by decide, Action.eq_ok (by decide +kernel),
    not_copied_of_scalar rfl rfl (i := 1) (by decide) (by decide +kernel) (by decide +kernel) ?_⟩
  rw [hread, hread']
  intro he
  cases he

section

variable (ha : a.Numbers t f r m) (hb : b.Numbers t f q m) (hm : m.length < sizeLimit)
  (hn : a.count = b.count)

include ha hb hm hn

theorem Numbers.uncheckedCopy_carried : Transfer.Carried Transfer.Raw (a.transfers b) m
    (a.uncheckedCopy b m) := by
  have hp := parallel_of_scalar ha.element hb.element rfl hn
  refine hp.uncheckedCopy_carried (ha.laid hb hm hn rfl) ?_
  rw [ha.readsAhead_iff hb hm hn rfl]
  exact endsInOrder_of_stride_eq (ha.stride_eq hb)

theorem Numbers.read_uncheckedCopy (hc : ∀ v, t.check v = true) (hi : i < a.count) :
    (a.uncheckedCopy b m).read ⟨r.start + i * a.stride, a.stride⟩ =
      m.read ⟨q.start + i * b.stride, b.stride⟩ := by
  have hcarried := ha.uncheckedCopy_carried hb hm hn
  have hx := (mem_transfers_of_scalar ha.element hb.element rfl).2 ⟨i, hi, rfl⟩
  have hload := hcarried.load hx (ha.plain_transfers hb hm hn rfl hc hc _ hx) rfl
    ((ha.laid hb hm hn rfl).placed _ hx)
  change (t.field (a.slot i)).storage.load _ = (t.field (b.slot i)).storage.load _ at hload
  rw [ha.storage, hb.storage] at hload
  exact Block.read_eq_read (hb.spans hm (hn ▸ hi))
    ((ha.spans hm hi).of_length hcarried.length) rfl hload

theorem Numbers.get_uncheckedCopy_of_outside {x : Nat} (hx : x < r.start ∨ r.start + r.size ≤ x) :
    (a.uncheckedCopy b m).get x = m.get x := by
  have hcarried := ha.uncheckedCopy_carried hb hm hn
  refine Memory.get_eq_of_bit fun c hc => hcarried.outside _ fun y hy k hk he => ?_
  obtain ⟨i, hi, rfl⟩ := (mem_transfers_of_scalar ha.element hb.element rfl).1 hy
  have hin := BitStorage.place_mem (ha.field_spans hm hi) hk
  have hb := tile_bound hi
  rw [ha.size_eq] at hb
  change (t.field (a.slot i)).storage.place k = 8 * x + c at he
  dsimp only at hin
  omega

theorem Numbers.get_uncheckedCopy (hc : ∀ v, t.check v = true) (hdvd : r.size % a.stride = 0)
    {k : Nat} (hk : k < r.size) :
    (a.uncheckedCopy b m).get (r.start + k) = m.get (q.start + k) := by
  have hcount : a.count = r.size / a.stride := congrArg (· / a.stride) ha.size_eq
  have hmul : a.stride * a.count = r.size := by
    rw [hcount]
    exact Nat.mul_div_cancel' (Nat.dvd_of_mod_eq_zero hdvd)
  have hi : k / a.stride < a.count := Nat.div_lt_of_lt_mul (by omega)
  have hj : k % a.stride < a.stride := Nat.mod_lt k a.stride_pos
  have hsplit : k / a.stride * a.stride + k % a.stride = k := by
    rw [Nat.mul_comm]
    exact Nat.div_add_mod k a.stride
  have hread := congrArg (·.getD (k % a.stride) 0) (ha.read_uncheckedCopy hb hm hn hc hi)
  rw [← ha.stride_eq hb, Memory.getD_read _ _ hj, Memory.getD_read _ _ hj] at hread
  dsimp only at hread
  rwa [Nat.add_assoc, Nat.add_assoc, hsplit] at hread

theorem Numbers.uncheckedCopy_eq_move (hc : ∀ v, t.check v = true) (hsize : r.size = q.size)
    (hdvd : r.size % a.stride = 0) :
    a.uncheckedCopy b m = m.move r.start q.start r.size := by
  have hlen : (m.read ⟨q.start, r.size⟩).length = r.size :=
    Memory.length_read_of_le (r := ⟨q.start, r.size⟩) (hsize ▸ hb.lies)
  have hlenu := (ha.uncheckedCopy_carried hb hm hn).length
  have hlies := ha.lies
  apply Memory.ext_get
  · rw [Memory.move, Memory.length_write, hlenu]
  · intro x
    rw [Memory.move]
    by_cases hx : x < r.start ∨ r.start + r.size ≤ x
    · rw [ha.get_uncheckedCopy_of_outside hb hm hn hx,
        Memory.get_write_of_outside m (by rwa [hlen])]
    · obtain ⟨k, rfl⟩ := Nat.exists_eq_add_of_le (show r.start ≤ x by omega)
      have hk : k < r.size := by omega
      rw [ha.get_uncheckedCopy hb hm hn hc hdvd hk, Memory.get_write, if_pos (by omega),
        Nat.add_sub_cancel_left, Memory.getD_read m ⟨q.start, r.size⟩ hk]

end

/-- Between arrays of one type of whole numbers the three copies are one. They move the bytes of the
source as they were to the target, wherever the two lie, and leave all other bytes alone. -/
theorem element_copy_eq_move (hm : m.length < sizeLimit) (ha : a.Numbers t f r m)
    (hb : b.Numbers t f q m) (hc : ∀ v, t.check v = true) (hsize : r.size = q.size)
    (hdvd : r.size % a.stride = 0) :
    ∃ n, a.tryCopy b m = .ok () n ∧ a.uncheckedCopy b m = n ∧ a.tryCopyBytes b m = .ok n ∧
      n.length = m.length ∧ n.read r = m.read q ∧
      ∀ x, x < r.start ∨ r.start + r.size ≤ x → n.get x = m.get x := by
  have hn : a.count = b.count := by
    change Tiled.size a.storage / a.stride = Tiled.size b.storage / b.stride
    rw [ha.size_eq, hb.size_eq, hsize, ha.stride_eq hb]
  have hlen : (m.read q).length = r.size := by rw [Memory.length_read_of_le hb.lies, hsize]
  have hcopy := ha.uncheckedCopy_eq_move hb hm hn hc hsize hdvd
  refine ⟨m.move r.start q.start r.size, ?_, hcopy, ?_, ?_, ?_, ?_⟩
  · rw [← hcopy]
    refine (parallel_of_scalar ha.element hb.element rfl hn).tryCopy_plain
      (ha.plain_transfers hb hm hn rfl hc hc) (fun x hx => ?_) m
    obtain ⟨i, -, rfl⟩ := (mem_transfers_of_scalar ha.element hb.element rfl).1 hx
    rfl
  · have hsa : a.size = r.size := ha.size_eq
    have hsb : b.size = q.size := hb.size_eq
    rw [tryCopyBytes, hsa, hsb, if_neg fun hne => hne hsize, Buffer.tryCopy, ha.region, hb.region]
    dsimp only
    rw [if_neg (by omega), hsize]
  · rw [Memory.move, Memory.length_write]
  · rw [Memory.move, hsize, Memory.read_write ha.lies hlen]
  · intro x hx
    rw [Memory.move, hsize, Memory.get_write_of_outside m (by rwa [hlen])]

/-- Two pairs of bytes moved up by one byte. -/
theorem element_copy_eq_move_by_one_byte :
    let m : Memory := [1, 2, 3, 4, 5]
    let t : ScalarType Buffer :=
      ⟨.signed, 16, ⟨by decide, by decide⟩, fun _ => true, fun b => .block ⟨.bigPair, b⟩⟩
    let a : ArrayView Buffer := ⟨.scalar t, 2, Nat.two_pos, .ofRegion ⟨1, 4⟩⟩
    let b : ArrayView Buffer := ⟨.scalar t, 2, Nat.two_pos, .ofRegion ⟨0, 4⟩⟩
    ∃ n, a.tryCopy b m = .ok () n ∧ a.uncheckedCopy b m = n ∧ a.tryCopyBytes b m = .ok n ∧
      n = [1, 1, 2, 3, 4] := by
  intro m t a b
  have ha : a.Numbers t .bigPair ⟨1, 4⟩ m := ⟨rfl, .inr rfl, rfl, rfl, rfl, rfl, by decide⟩
  have hb : b.Numbers t .bigPair ⟨0, 4⟩ m := ⟨rfl, .inr rfl, rfl, rfl, rfl, rfl, by decide⟩
  obtain ⟨n, h1, h2, h3, -⟩ :=
    element_copy_eq_move (by decide) ha hb (fun _ => rfl) rfl (by decide)
  exact ⟨n, h1, h2, h3, h2.symm.trans (by decide +kernel)⟩

end ArrayView

end Packed
