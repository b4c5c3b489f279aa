import Packed.Proofs.ArrayCopy
import Packed.Proofs.Tiled

namespace Packed

namespace Block

variable {b c : Block} {k l : Nat}

def Runs (b : Block) (e : Endian) : Prop := b.format.order.loads = e ∨ b.bits = 8

/-- Where a block begins on the line on which the bits of all blocks lie that run the same way. -/
def position (b : Block) : Endian → Int
  | .little => 8 * b.start
  | .big => -8 * (b.start + b.bits / 8 : Nat)

theorem place_of_runs {e : Endian} (h : b.Runs e) (hk : k < b.bits) :
    b.place k = 8 * (b.start + e.place (b.bits / 8) (k / 8)) + k % 8 := by
  obtain h | h := h
  · rw [place, h]
  · have h0 : k / 8 = 0 := by omega
    rw [place, h, h0]
    cases b.format.order.loads <;> cases e <;> rfl

theorem place_eq_place_iff {e : Endian} (hb : b.Runs e) (hc : c.Runs e) (hk : k < b.bits)
    (hl : l < c.bits) : b.place k = c.place l ↔ b.position e + k = c.position e + l := by
  obtain ⟨n, -, hn⟩ := b.exists_bytes
  obtain ⟨n', -, hn'⟩ := c.exists_bytes
  rw [place_of_runs hb hk, place_of_runs hc hl]
  cases e with
  | little =>
      simp only [Endian.place, position]
      omega
  | big =>
      simp only [Endian.place, position]
      omega

end Block

namespace BitStorage

variable {s t u : BitStorage} {r q : Region} {m : Memory} {z i j k : Nat}

def position (s : BitStorage) (e : Endian) : Int := s.base.position e + s.offset

theorem place_eq_place_iff {e : Endian} {l : Nat} (hs : s.Spans r m) (ht : t.Spans q m)
    (hse : s.base.Runs e) (hte : t.base.Runs e) (hk : k < s.size) (hl : l < t.size) :
    s.place k = t.place l ↔ s.position e + k = t.position e + l := by
  rw [place, place, Block.place_eq_place_iff hse hte (hs.offset_add_lt hk) (ht.offset_add_lt hl),
    position, position]
  omega

structure Part (u s : BitStorage) : Prop where
  base : u.base = s.base
  within : u.Within
  inside : ∀ k, k < u.size → ∃ l, l < s.size ∧ u.place k = s.place l

theorem Part.refl (hs : s.Within) : s.Part s := ⟨rfl, hs, fun k hk => ⟨k, hk, rfl⟩⟩

theorem Part.trans (h : u.Part t) (h' : t.Part s) : u.Part s := by
  refine ⟨h.base.trans h'.base, h.within, fun k hk => ?_⟩
  obtain ⟨l, hl, he⟩ := h.inside k hk
  obtain ⟨j, hj, he'⟩ := h'.inside l hl
  exact ⟨j, hj, he.trans he'⟩

theorem Part.spans (h : u.Part s) (hs : s.Spans r m) : u.Spans r m :=
  ⟨h.base ▸ hs.base, h.within⟩

theorem Part.disjoint {v : BitStorage} (h : u.Part s) (h' : v.Part t) (hd : s.Disjoint t) :
    u.Disjoint v := by
  intro k l hk hl he
  obtain ⟨i, hi, hk⟩ := h.inside k hk
  obtain ⟨j, hj, hl⟩ := h'.inside l hl
  exact hd i j hi hj (hk.symm.trans (he.trans hl))

theorem size_tile (hs : s.Within) (hi : i < tileCount s z) : (tile s z i).size = z := by
  obtain ⟨w, hw, -, -, hz, -⟩ := tile_window hs hi
  rw [hw]
  exact hz

theorem offset_tile (hs : s.Within) (hi : i < tileCount s z) :
    (tile s z i).offset = s.offset + i * z := by
  obtain ⟨w, hw, -, ho, -, -⟩ := tile_window hs hi
  rw [hw]
  exact ho

theorem place_tile (hs : s.Within) (hi : i < tileCount s z) (k : Nat) :
    (tile s z i).place k = s.place (i * z + k) := by
  rw [place, place, base_tile, offset_tile hs hi, Nat.add_assoc]

theorem position_tile (hs : s.Within) (hi : i < tileCount s z) (e : Endian) :
    (tile s z i).position e = s.position e + (i * z : Nat) := by
  rw [position, position, base_tile, offset_tile hs hi]
  omega

theorem part_tile (hs : s.Within) (hi : i < tileCount s z) : (tile s z i).Part s := by
  refine ⟨base_tile s z i, ?_, fun k hk => ⟨i * z + k, ?_, place_tile hs hi k⟩⟩
  · obtain ⟨w, hw, -, -, -, hin⟩ := tile_window hs hi
    rw [hw]
    exact hin
  · have hb := tile_bound hi
    rw [size_tile hs hi] at hk
    change i * z + z ≤ s.size at hb
    omega

theorem disjoint_tiles (hs : s.Spans r m) (hi : i < tileCount s z) (hj : j < tileCount s z)
    (h : i ≠ j) : (tile s z i).Disjoint (tile s z j) := by
  intro k l hk hl he
  have hbi := tile_bound hi
  have hbj := tile_bound hj
  rw [size_tile hs.within hi] at hk
  rw [size_tile hs.within hj] at hl
  rw [place_tile hs.within hi, place_tile hs.within hj] at he
  change i * z + z ≤ s.size at hbi
  change j * z + z ≤ s.size at hbj
  have hkl := place_inj hs (by omega) (by omega) he
  have hd := tiles_disjoint z h
  omega

/-- A copy from `t` to `s` starts at the right end: the two share no bit, or their bits lie on one
line and the copy runs backward just if the target is further along it. -/
def InOrder (s t : BitStorage) : Prop :=
  s.Disjoint t ∨ ∃ e, s.base.Runs e ∧ t.base.Runs e ∧
    (runsBackward s t = true ↔ t.position e < s.position e)

theorem runsBackward_iff (hs : s.Spans r m) (ht : t.Spans q m) : runsBackward s t = true ↔
    q.start < r.start ∨ q.start = r.start ∧ t.offset < s.offset := by
  have hls : Tiled.location? s = some (r.start, s.offset) := by
    change s.location? = _
    rw [location?, Block.address?, hs.base.region]
    rfl
  have hlt : Tiled.location? t = some (q.start, t.offset) := by
    change t.location? = _
    rw [location?, Block.address?, ht.base.region]
    rfl
  rw [runsBackward, hls, hlt]
  simp only [Bool.or_eq_true, Bool.and_eq_true, decide_eq_true_eq, beq_iff_eq]

theorem inOrder_of_base_eq (hs : s.Spans r m) (ht : t.Spans q m) (h : s.base = t.base) :
    s.InOrder t := by
  refine .inr ⟨s.base.format.order.loads, .inl rfl, .inl (by rw [h]), ?_⟩
  have hrq : r.start = q.start := by rw [← hs.base.start_eq, ← ht.base.start_eq, h]
  rw [runsBackward_iff hs ht, position, position, h]
  omega

theorem InOrder.tile (hs : s.Spans r m) (ht : t.Spans q m) (h : s.InOrder t)
    (his : i < tileCount s z) (hit : i < tileCount t z) :
    (tile s z i).InOrder (tile t z i) := by
  have hps := part_tile hs.within his
  have hpt := part_tile ht.within hit
  obtain h | ⟨e, hse, hte, h⟩ := h
  · exact .inl (hps.disjoint hpt h)
  · refine .inr ⟨e, by rwa [hps.base], by rwa [hpt.base], ?_⟩
    rw [runsBackward_iff hs ht] at h
    rw [runsBackward_iff (hps.spans hs) (hpt.spans ht), position_tile hs.within his,
      position_tile ht.within hit, offset_tile hs.within his, offset_tile ht.within hit]
    omega

theorem InOrder.disjoint_tile (hs : s.Spans r m) (ht : t.Spans q m) (h : s.InOrder t)
    (hi : i < tileCount s z) (hj : j < tileCount t z)
    (hij : if runsBackward s t then j < i else i < j) :
    (Packed.tile s z i).Disjoint (Packed.tile t z j) := by
  have hps := part_tile hs.within hi
  have hpt := part_tile ht.within hj
  obtain h | ⟨e, hse, hte, h⟩ := h
  · exact hps.disjoint hpt h
  · intro k l hk hl
    rw [Ne, place_eq_place_iff (hps.spans hs) (hpt.spans ht) (by rwa [hps.base])
      (by rwa [hpt.base]) hk hl, position_tile hs.within hi, position_tile ht.within hj]
    rw [size_tile hs.within hi] at hk
    rw [size_tile ht.within hj] at hl
    split at hij
    · rename_i hback
      have hlt := h.1 hback
      have hm := tile_le z hij
      omega
    · rename_i hback
      have hle := mt h.2 hback
      have hm := tile_le z hij
      omega

end BitStorage

namespace ElementType

/-- Elements of bit arrays of one shape: the same sizes all the way down, and in the end fields of
one kind that lie over all of their storage. -/
inductive Alike : ElementType BitStorage → ElementType BitStorage → Prop
  | scalar {t u : ScalarType BitStorage} (kind : u.kind = t.kind) (hosted : t.kind.Hosted)
      (target : t.bits = id) (source : u.bits = id) : Alike (scalar t) (scalar u)
  | array {e e' : ElementType BitStorage} {size : Nat} {pos pos' : 0 < size} (h : Alike e e') :
      Alike (array e size pos) (array e' size pos')

/-- Transfers from one storage to another: they read parts of the one and write parts of the other,
each its own, and if the order is right none writes where a later one reads. -/
structure Between (s t : BitStorage) (ts : List Transfer) : Prop where
  parts : ∀ x ∈ ts, x.target.storage.Part s ∧ x.source.storage.Part t
  fields : ∀ x ∈ ts, x.kind.Hosted ∧ x.target.storage.size = x.source.storage.size
  targets : ts.Pairwise Transfer.Keeps
  sources : ts.Pairwise fun x y => x.source.storage.Disjoint y.source.storage
  ahead : s.InOrder t → ts.Pairwise Transfer.Spares

variable {e e' : ElementType BitStorage} {s t : BitStorage} {r q : Region} {m : Memory} {z : Nat}

theorem Between.flatMap (hs : s.Spans r m) (ht : t.Spans q m)
    (hn : tileCount s z = tileCount t z) {f : Nat → List Transfer}
    (h : ∀ i, i < tileCount s z → Between (tile s z i) (tile t z i) (f i)) :
    Between s t ((copyOrder s t (tileCount s z)).flatMap f) := by
  have hpart : ∀ i, i < tileCount s z → (tile s z i).Part s ∧ (tile t z i).Part t :=
    fun i hi => ⟨BitStorage.part_tile hs.within hi, BitStorage.part_tile ht.within (hn ▸ hi)⟩
  refine ⟨fun x hx => ?_, fun x hx => ?_, ?_, ?_, fun ho => ?_⟩
  · obtain ⟨i, hi, hx⟩ := List.mem_flatMap.1 hx
    have hi := mem_copyOrder.1 hi
    obtain ⟨hxs, hxt⟩ := (h i hi).parts x hx
    exact ⟨hxs.trans (hpart i hi).1, hxt.trans (hpart i hi).2⟩
  · obtain ⟨i, hi, hx⟩ := List.mem_flatMap.1 hx
    exact (h i (mem_copyOrder.1 hi)).fields x hx
  · refine pairwise_flatMap_copyOrder (fun i hi => (h i hi).targets) ?_
    intro i j hi hj hij x hx y hy
    have hd := BitStorage.disjoint_tiles hs hi hj (ne_of_before hij)
    exact ((h i hi).parts x hx).1.disjoint ((h j hj).parts y hy).1 hd
  · refine pairwise_flatMap_copyOrder (fun i hi => (h i hi).sources) ?_
    intro i j hi hj hij x hx y hy
    have hd := BitStorage.disjoint_tiles ht (hn ▸ hi) (hn ▸ hj) (ne_of_before hij)
    exact ((h i hi).parts x hx).2.disjoint ((h j hj).parts y hy).2 hd
  · refine pairwise_flatMap_copyOrder
      (fun i hi => (h i hi).ahead (ho.tile hs ht hi (hn ▸ hi))) ?_
    intro i j hi hj hij x hx y hy
    have hd := ho.disjoint_tile hs ht hi (hn ▸ hj) hij
    exact ((h i hi).parts x hx).1.disjoint ((h j hj).parts y hy).2 hd

theorem tileCount_congr (h : s.size = t.size) (z : Nat) : tileCount s z = tileCount t z := by
  change s.size / z = t.size / z
  rw [h]

theorem Alike.parallel (h : Alike e e') (hs : s.Within) (ht : t.Within) (hz : s.size = t.size) :
    Parallel e s e' t := by
  induction h generalizing s t with
  | scalar kind => exact .scalar kind s t
  | @array e e' size pos pos' _ ih =>
      have hn := tileCount_congr hz size
      refine .array pos pos' hn fun i hi => ?_
      refine ih (BitStorage.part_tile hs hi).within (BitStorage.part_tile ht (hn ▸ hi)).within ?_
      rw [BitStorage.size_tile hs hi, BitStorage.size_tile ht (hn ▸ hi)]

theorem Alike.between (h : Alike e e') (hs : s.Spans r m) (ht : t.Spans q m)
    (hz : s.size = t.size) : Between s t (transfers e s e' t) := by
  induction h generalizing s t with
  | @scalar u v kind hosted target source =>
      have htarget : (u.transfer v kind s t).target.storage = s := by
        change u.bits s = s
        rw [target, id]
      have hsource : (u.transfer v kind s t).source.storage = t := by
        change v.bits t = t
        rw [source, id]
      rw [transfers_scalar kind]
      refine ⟨?_, ?_, List.pairwise_singleton _ _, List.pairwise_singleton _ _,
        fun _ => List.pairwise_singleton _ _⟩
      · rw [List.forall_mem_singleton, htarget, hsource]
        exact ⟨.refl hs.within, .refl ht.within⟩
      · rw [List.forall_mem_singleton, htarget, hsource]
        exact ⟨hosted, hz⟩
  | @array e e' size pos pos' _ ih =>
      have hn := tileCount_congr hz size
      refine Between.flatMap hs ht hn fun i hi => ?_
      refine ih ((BitStorage.part_tile hs.within hi).spans hs)
        ((BitStorage.part_tile ht.within (hn ▸ hi)).spans ht) ?_
      rw [BitStorage.size_tile hs.within hi, BitStorage.size_tile ht.within (hn ▸ hi)]

end ElementType

namespace ArrayView

variable {a b : ArrayView BitStorage} {m : Memory}

theorem parallel_of_alike (h : a.element.Alike b.element) (hz : a.stride = b.stride)
    (hn : a.count = b.count) (ha : a.storage.Within) (hb : b.storage.Within) : a.Parallel b := by
  obtain ⟨e, z, pos, s⟩ := a
  obtain ⟨e', z', pos', t⟩ := b
  obtain rfl : z = z' := hz
  have hn : tileCount s z = tileCount t z := hn
  refine .array pos pos' hn fun i hi => ?_
  refine h.parallel (BitStorage.part_tile ha hi).within
    (BitStorage.part_tile hb (hn ▸ hi)).within ?_
  rw [BitStorage.size_tile ha hi, BitStorage.size_tile hb (hn ▸ hi)]

theorem between_of_alike (h : a.element.Alike b.element) (hz : a.stride = b.stride)
    (hn : a.count = b.count) {r q : Region} (ha : a.storage.Spans r m) (hb : b.storage.Spans q m) :
    ElementType.Between a.storage b.storage (a.transfers b) := by
  obtain ⟨e, z, pos, s⟩ := a
  obtain ⟨e', z', pos', t⟩ := b
  obtain rfl : z = z' := hz
  have hn : tileCount s z = tileCount t z := hn
  refine .flatMap ha hb hn fun i hi => ?_
  have hps := BitStorage.part_tile ha.within hi
  have hpt := BitStorage.part_tile hb.within (hn ▸ hi)
  refine h.between (hps.spans ha) (hpt.spans hb) ?_
  rw [BitStorage.size_tile ha.within hi, BitStorage.size_tile hb.within (hn ▸ hi)]

/-- A copy between bit arrays that may share bits. Where it writes no field that it has yet to read,
every element of the target has in the end the value that the element of the source had before.
That is so within one block and wherever the arrays start in the order in which their bits lie.
Where it is not so, whole numbers are lost from some memory, though the copy succeeds. -/
theorem bit_copy_right_where_it_reads_ahead (h : a.element.Alike b.element)
    (hz : a.stride = b.stride) (hn : a.count = b.count)
    (ha : a.storage.ok = true) (has : a.storage.Sound) (ham : a.storage.base.buffer.LiesIn m)
    (hb : b.storage.ok = true) (hbs : b.storage.Sound) (hbm : b.storage.base.buffer.LiesIn m) :
    (a.storage.base = b.storage.base ∨ a.storage.InOrder b.storage → a.ReadsAhead b) ∧
    (a.ReadsAhead b →
      (∀ n, a.tryCopy b m = .ok () n → a.Copied b m n) ∧
      ((∀ x ∈ a.transfers b, x.target.width = x.source.width) →
        a.UncheckedCopied b m (a.uncheckedCopy b m))) ∧
    ((∀ x ∈ a.transfers b, x.Plain) → ¬ a.ReadsAhead b →
      ∃ m', m'.length = m.length ∧ a.tryCopy b m' = .ok () (a.uncheckedCopy b m') ∧
        ¬ a.Copied b m' (a.uncheckedCopy b m')) := by
  obtain ⟨r, hr⟩ := BitStorage.spans_of_ok ha has ham
  obtain ⟨q, hq⟩ := BitStorage.spans_of_ok hb hbs hbm
  have hp := parallel_of_alike h hz hn hr.within hq.within
  have hbetween := between_of_alike h hz hn hr hq
  have hl : a.Laid b m := by
    refine ⟨fun x hx => ?_, hbetween.targets, hbetween.sources⟩
    obtain ⟨ht, hs⟩ := hbetween.parts x hx
    exact ⟨⟨r, ht.spans hr⟩, ⟨q, hs.spans hq⟩⟩
  refine ⟨fun ho => hbetween.ahead ?_, fun hahead => ⟨fun n hc => ?_, fun hw => ?_⟩,
    fun hplain hahead => ?_⟩
  · obtain hbase | ho := ho
    · exact BitStorage.inOrder_of_base_eq hr hq hbase
    · exact ho
  · exact hp.tryCopy_copied hl hahead (fun x hx => (hbetween.fields x hx).1) hc
  · exact hp.uncheckedCopy_copied hl hahead (fun x hx => (hbetween.fields x hx).1) hw
      fun x hx => (hbetween.fields x hx).2
  · have hw : ∀ x ∈ a.transfers b, x.target.width = x.source.width := fun x hx => by
      rw [(hplain x hx).target.width, (hplain x hx).source.width, (hbetween.fields x hx).2]
    obtain ⟨m', n, hlen, hc, hne⟩ := hp.exists_not_copied hl hahead hplain
    have hu := hp.tryCopy_plain hplain hw m'
    obtain rfl : a.uncheckedCopy b m' = n := by
      rw [hu] at hc
      cases hc
      rfl
    exact ⟨m', hlen, hu, hne⟩

/-- Three digits moved up by one in a word of four. -/
theorem bit_copy_right_in_one_word :
    let m : Memory := [0x12, 0x34]
    let word : Block := ⟨.bigPair, .ofRegion ⟨0, 2⟩⟩
    let t : ScalarType BitStorage := ⟨.unsigned, 4, ⟨by decide, by decide⟩, fun _ => true, id⟩
    let a : ArrayView BitStorage := ⟨.scalar t, 4, by decide, .window (.ofBlock word 4 12)⟩
    let b : ArrayView BitStorage := ⟨.scalar t, 4, by decide, .window (.ofBlock word 0 12)⟩
    a.tryCopy b m = .ok () [0x23, 0x44] ∧ a.Copied b m [0x23, 0x44] := by
  intro m word t a b
  have hm : word.buffer.LiesIn m := by
    intro r hr
    cases hr
    decide
  have h := bit_copy_right_where_it_reads_ahead (a := a) (b := b) (m := m)
    (.scalar rfl (fun e he => by cases he) rfl rfl) rfl rfl (by decide)
    (BitStorage.sound_part (.block word) 4 12) hm (by decide)
    (BitStorage.sound_part (.block word) 0 12) hm
  have hc : a.tryCopy b m = .ok () [0x23, 0x44] := Action.eq_ok (by decide +kernel)
  exact ⟨hc, (h.2.1 (h.1 (.inl rfl))).1 _ hc⟩

/-- The same four digits moved to a word that starts one byte further, which shares a byte with the
first. There the digits run against the addresses, and the copy starts at the wrong end. -/
theorem bit_copy_wrong_between_words :
    let m : Memory := [0x12, 0x34, 0x56]
    let t : ScalarType BitStorage := ⟨.decimal, 4, ⟨by decide, by decide⟩, fun _ => true, id⟩
    let a : ArrayView BitStorage :=
      ⟨.scalar t, 4, by decide, .window (.ofBlock ⟨.bigPair, .ofRegion ⟨1, 2⟩⟩ 0 16)⟩
    let b : ArrayView BitStorage :=
      ⟨.scalar t, 4, by decide, .window (.ofBlock ⟨.bigPair, .ofRegion ⟨0, 2⟩⟩ 0 16)⟩
    a.storage.ok = true ∧ b.storage.ok = true ∧ a.count = b.count ∧
      a.tryCopy b m = .ok () [0x12, 0x12, 0x12] ∧
      a.uncheckedCopy b m = [0x12, 0x12, 0x12] ∧ ¬ a.Copied b m [0x12, 0x12, 0x12] := by
  intro m t a b
  have hread : (t.field (b.slot 0)).uncheckedRead m = (4 : Nat) := by decide +kernel
  have hread' : (t.field (a.slot 0)).uncheckedRead [0x12, 0x12, 0x12] = (2 : Nat) := by
    decide +kernel
  refine ⟨by decide, by decide, by decide, Action.eq_ok (by decide +kernel), by decide +kernel,
    not_copied_of_scalar rfl rfl (i := 0) (by decide) (by decide +kernel) (by decide +kernel) ?_⟩
  rw [hread, hread']
  intro he
  cases he

end ArrayView

end Packed
