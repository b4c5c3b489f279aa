import Packed.Proofs.FieldCopy
import Packed.Proofs.NestedWindow
import Packed.Proofs.Text.ArrayUpdate

namespace Packed

namespace Field

variable {k : Kind} {f g : Field k} {v : k.Value} {m n : Memory}

structure Takes (f g : Field k) (v : k.Value) (m : Memory) : Prop where
  read : g.read m = .ok v
  fits : f.couldWrite v = true
  complete : f.isComplete = true

theorem Takes.exact (h : f.Takes g v m) : k.Exact v := by
  obtain ⟨-, rfl⟩ := read_eq_ok_iff.1 h.read
  exact Kind.exact_decode ..

theorem Takes.tryCopy_eq (h : f.Takes g v m) : f.tryCopy g m = .ok (f.uncheckedWrite v m) := by
  obtain ⟨hok, rfl⟩ := read_eq_ok_iff.1 h.read
  exact tryCopy_eq_ok_iff.2 ⟨hok, h.fits, h.complete, rfl⟩

theorem takes_of_tryCopy (h : f.tryCopy g m = .ok n) :
    ∃ v, f.Takes g v m ∧ n = f.uncheckedWrite v m := by
  obtain ⟨hok, hfits, hcomplete, hn⟩ := tryCopy_eq_ok_iff.1 h
  exact ⟨_, ⟨read_eq hok, hfits, hcomplete⟩, hn⟩

theorem refused_of_tryCopy {e : Error} (hread : g.read n = g.read m)
    (h : f.tryCopy g n = .error e) :
    if g.ok m then f.tryWrite (g.uncheckedRead m) n = .error e else e = .incomplete := by
  split
  · next hok =>
      obtain ⟨hokn, hvalue⟩ := read_eq_ok_iff.1 (hread.trans (read_eq hok))
      rwa [tryCopy_of_ok hokn, hvalue] at h
  · next hok =>
      cases hokn : g.ok n with
      | true => exact absurd (read_eq_ok_iff.1 (hread.symm.trans (read_eq hokn))).1 hok
      | false =>
          rw [tryCopy_of_not_ok hokn] at h
          exact (Except.error.inj h).symm

theorem exists_takes_iff : (∃ v, f.Takes g v m) ↔
    g.ok m = true ∧ f.isComplete = true ∧ f.couldWrite (g.uncheckedRead m) = true := by
  constructor
  · rintro ⟨v, hread, hfits, hcomplete⟩
    obtain ⟨hok, rfl⟩ := read_eq_ok_iff.1 hread
    exact ⟨hok, hcomplete, hfits⟩
  · rintro ⟨hok, hcomplete, hfits⟩
    exact ⟨_, read_eq hok, hfits, hcomplete⟩

end Field

section

variable {ι : Type} {k : Kind} {F G : ι → Field k} {is : List ι} {i : ι} {v : k.Value}
  {log : List ((_ : ι) × k.Value)} {m n : Memory}

structure Spared (F G : ι → Field k) (m : Memory) : Prop where
  spans : ∀ j, (G j).isComplete = true → ∃ r, (G j).storage.Spans r m
  disjoint : ∀ i j, (F i).isComplete = true → (G j).isComplete = true →
    (F i).storage.Disjoint (G j).storage

theorem Spared.of_length (h : Spared F G m) (hl : n.length = m.length) : Spared F G n where
  spans j hc := (h.spans j hc).imp fun _ hs => hs.of_length hl
  disjoint := h.disjoint

theorem Spared.read (h : Spared F G m) (hs : Stored F log m n) (j : ι) :
    (G j).read n = (G j).read m := by
  cases hc : (G j).isComplete with
  | false => rw [(Field.read_of_not_complete hc n).2, (Field.read_of_not_complete hc m).2]
  | true =>
      obtain ⟨r, hr⟩ := h.spans j hc
      have hload := BitStorage.load_congr hr hs.length fun b hb =>
        hs.outside _ fun e he l hl => h.disjoint e.1 j (hs.complete e he) hc l b hl hb
      exact Field.read_congr (congrArg (Word.mask · _) hload)

/-- The log of the values that have gone from `G` to `F` at the indices visited. -/
structure CopyLog (F G : ι → Field k) (is : List ι) (log : List ((_ : ι) × k.Value))
    (m n : Memory) : Prop where
  visited : log.map Sigma.fst = is
  takes : ∀ e ∈ log, (F e.1).Takes (G e.1) e.2 m
  stored : Stored F log m n

theorem copyLog_nil (F G : ι → Field k) (m : Memory) : CopyLog F G [] [] m m :=
  ⟨rfl, nofun, stored_nil F m⟩

theorem CopyLog.cons (hs : Separate F m) (hg : Spared F G m) (ht : (F i).Takes (G i) v m)
    (h : CopyLog F G is log ((F i).uncheckedWrite v m) n) :
    CopyLog F G (i :: is) (⟨i, v⟩ :: log) m n := by
  obtain ⟨r, hr⟩ := hs.spans i ht.complete
  have hw := Field.written_uncheckedWrite (hs.hosted i) ht.exact hr ht.complete ht.fits
  have hone : Stored F [⟨i, v⟩] m ((F i).uncheckedWrite v m) :=
    .cons hs ht.complete hw (stored_nil F _)
  refine ⟨?_, fun e he => ?_, .cons hs ht.complete hw h.stored⟩
  · rw [List.map_cons, h.visited]
  · rcases List.mem_cons.1 he with rfl | he
    · exact ht
    · have htake := h.takes e he
      exact ⟨(hg.read hone e.1).symm.trans htake.read, htake.fits, htake.complete⟩

def paired (F G : ι → Field k) (i : ι) : Transfer := ⟨k, F i, G i⟩

theorem perform_of_takes (h : (F i).Takes (G i) v m) :
    (paired F G i).perform m = .ok () ((F i).uncheckedWrite v m) := by
  simp only [Transfer.perform, paired, h.tryCopy_eq]

theorem perform_of_error {e : Error} (h : (F i).tryCopy (G i) m = .error e) :
    (paired F G i).perform m = .error e m := by
  simp only [Transfer.perform, paired, h]

theorem run_cases (hs : Separate F m) (hg : Spared F G m) (is : List ι) :
    (∃ log n, Transfer.run (is.map (paired F G)) m = .ok () n ∧ CopyLog F G is log m n) ∨
    ∃ before i after log e n, is = before ++ i :: after ∧
      Transfer.run (is.map (paired F G)) m = .error e n ∧ CopyLog F G before log m n ∧
      (F i).tryCopy (G i) n = .error e := by
  induction is generalizing m with
  | nil => exact .inl ⟨[], m, rfl, copyLog_nil F G m⟩
  | cons i is ih =>
      rw [List.map_cons, Transfer.run_cons]
      cases hcopy : (F i).tryCopy (G i) m with
      | error e =>
          have hstop := perform_of_error hcopy
          exact .inr ⟨[], i, is, [], e, m, rfl, bind_error hstop, copyLog_nil F G m, hcopy⟩
      | ok n =>
          obtain ⟨v, ht, rfl⟩ := Field.takes_of_tryCopy hcopy
          obtain ⟨r, hr⟩ := hs.spans i ht.complete
          have hl := BitStorage.length_store hr (k.encode (F i).width v)
          rw [bind_ok (perform_of_takes ht)]
          rcases ih (hs.of_length hl) (hg.of_length hl) with
            ⟨log, n, hrun, h⟩ | ⟨before, j, after, log, e, n, rfl, hrun, h, he⟩
          · exact .inl ⟨_, n, hrun, h.cons hs hg ht⟩
          · exact .inr ⟨i :: before, j, after, _, e, n, rfl, hrun, h.cons hs hg ht, he⟩

/-- Memory `n` is memory `m` after the fields `F` at the visited indices have taken the values of the
fields `G`: the other fields, all sources and every other bit are as before. -/
structure CopiedAt (F G : ι → Field k) (visited : List ι) (m n : Memory) : Prop where
  length : n.length = m.length
  copied : ∀ i ∈ visited, ∃ v, (G i).read m = .ok v ∧ (F i).read n = .ok v
  kept : ∀ i, i ∉ visited → (F i).storage.load n = (F i).storage.load m
  sources : ∀ i, (G i).read n = (G i).read m
  outside : ∀ p, (∀ i ∈ visited, ∀ b, b < (F i).storage.size → (F i).storage.place b ≠ p) →
    n.bit p = m.bit p

theorem CopyLog.copiedAt (hs : Separate F m) (hg : Spared F G m)
    (hu : ∀ i j, (F i).isComplete = (F j).isComplete) (h : CopyLog F G is log m n) :
    CopiedAt F G is m n := by
  have hvisited : ∀ e ∈ log, e.1 ∈ is := by
    intro e he
    rw [← h.visited]
    exact List.mem_map_of_mem he
  refine ⟨h.stored.length, fun i hi => ?_, fun i hi => ?_, hg.read h.stored, fun p hp => ?_⟩
  · rw [← h.visited, List.mem_map] at hi
    obtain ⟨v, hv⟩ := exists_latest hi
    exact ⟨v, (h.takes _ hv.mem).read, h.stored.read i v hv⟩
  · cases hc : (F i).isComplete with
    | true =>
        obtain ⟨r, hr⟩ := hs.spans i hc
        refine BitStorage.load_congr hr h.stored.length fun b hb => ?_
        refine h.stored.outside _ fun e he l hl => ?_
        have hne : e.1 ≠ i := fun hei => hi (hei ▸ hvisited e he)
        exact hs.disjoint e.1 i hne (h.stored.complete e he) hc l b hl hb
    | false =>
        -- Then none of the fields is complete, and nothing has been copied.
        cases log with
        | nil => rw [(stored_nil F m).unique h.stored]
        | cons e log =>
            have he := h.stored.complete e List.mem_cons_self
            rw [hu e.1 i, hc] at he
            cases he
  · exact h.stored.outside p fun e he => hp e.1 (hvisited e he)

end

namespace ArrayView

section

variable {a : ArrayView Buffer} {t : ScalarType Buffer} {format : BlockFormat} {m : Memory}

theorem uniform_bytes (ht : t.bits = fun b => .block ⟨format, b⟩) (ha : a.storage.LiesIn m)
    (hm : m.length < sizeLimit) (i j : Fin a.count) :
    (a.elements t i).isComplete = (a.elements t j).isComplete := by
  obtain ⟨whole, hwhole⟩ := Buffer.exists_region i.isLt
  have hok : a.storage.ok = true := Option.isSome_of_eq_some hwhole
  have hl : a.size < sizeLimit := Nat.lt_of_le_of_lt (Buffer.size_le_length ha) hm
  have hcomplete : ∀ l : Fin a.count, (a.elements t l).isComplete = true ↔
      a.stride * 8 = format.bits ∧ t.width ≤ format.bits := by
    intro l
    have hsize : (a.slot l).size = a.stride := (Buffer.size_tile_eq_iff a.stride_pos hl).2 l.isLt
    rw [elements, ElementType.isComplete_scalar_iff ht ((ok_slot a l).trans hok), hsize]
  rw [Bool.eq_iff_iff, hcomplete, hcomplete]

theorem place_mem_bytes (ht : t.bits = fun b => .block ⟨format, b⟩) (ha : a.storage.LiesIn m)
    (hm : m.length < sizeLimit) (i : Fin a.count) (hc : (a.elements t i).isComplete = true) {l : Nat}
    (hl : l < (a.elements t i).storage.size) :
    ∃ r, a.storage.region = some r ∧ r.start ≤ (a.elements t i).storage.place l / 8 ∧
      (a.elements t i).storage.place l / 8 < r.start + r.size := by
  have hstorage : (a.elements t i).storage = .block ⟨format, a.slot i⟩ := congrFun ht _
  have hok := Field.storage_ok hc
  rw [hstorage] at hok hl ⊢
  have hslot : (a.slot i).LiesIn m := ha.part _ _
  obtain ⟨q, hq⟩ := BitStorage.spans_of_ok hok trivial hslot
  obtain ⟨r, hr⟩ := Buffer.exists_region i.isLt
  have hlies := ha r hr
  have htile := Buffer.tile_region hr (by omega) i.isLt
  obtain rfl := Option.some.inj (htile.symm.trans hq.base.region)
  have hmem := BitStorage.place_mem hq hl
  have hbound : i * a.stride + a.stride ≤ a.size := tile_bound i.isLt
  rw [show a.size = r.size from Buffer.size_of_region hr] at hbound
  dsimp only at hmem
  exact ⟨r, hr, by omega, by omega⟩

end

section

variable {a : ArrayView BitStorage} {t : ScalarType BitStorage} {m : Memory}

theorem uniform_bits (ht : t.bits = id) (hs : a.storage.Sound) (i j : Fin a.count) :
    (a.elements t i).isComplete = (a.elements t j).isComplete := by
  have hto : ∀ i j : Fin a.count, (a.elements t i).isComplete = true →
      (a.elements t j).isComplete = true := by
    intro i j h
    rw [elements, ElementType.isComplete_scalar_bits_iff ht] at h ⊢
    have hin := BitStorage.within_of_tile hs h.1
    have hok : a.storage.ok = true := BitStorage.ok_of_ok_part h.1
    have hsizes : (a.slot j).size = (a.slot i).size :=
      (BitStorage.size_tile hin j.isLt).trans (BitStorage.size_tile hin i.isLt).symm
    exact ⟨BitStorage.ok_tile hok hin j.isLt, by rw [hsizes]; exact h.2⟩
  rw [Bool.eq_iff_iff]
  exact ⟨hto i j, hto j i⟩

theorem place_mem_bits (ht : t.bits = id) (hs : a.storage.Sound) (i : Fin a.count)
    (hc : (a.elements t i).isComplete = true) {l : Nat} (hl : l < (a.elements t i).storage.size) :
    ∃ b, b < a.storage.size ∧ (a.elements t i).storage.place l = a.storage.place b := by
  have hstorage : (a.elements t i).storage = a.slot i := congrFun ht _
  have hok := Field.storage_ok hc
  rw [hstorage] at hok hl ⊢
  have hin := BitStorage.within_of_tile hs hok
  exact (BitStorage.part_tile hin i.isLt).inside l hl

end

/-- Storage that arrays are laid over: what makes it lie in memory, which bits of memory belong to
it, and which fields are laid over their part of it as it is. Such fields lie inside the storage
without a bit in common, and they are complete all together or not at all. -/
class Backing (S : Type) [Tiled S] where
  LiesIn : S → Memory → Prop
  Owns : S → Nat → Prop
  Direct : ScalarType S → Prop
  separate : ∀ {a : ArrayView S} {t : ScalarType S} {m : Memory}, Direct t → t.kind.Hosted →
    LiesIn a.storage m → m.length < sizeLimit → Separate (a.elements t) m
  uniform : ∀ {a : ArrayView S} {t : ScalarType S} {m : Memory}, Direct t →
    LiesIn a.storage m → m.length < sizeLimit → ∀ i j : Fin a.count,
      (a.elements t i).isComplete = (a.elements t j).isComplete
  owns : ∀ {a : ArrayView S} {t : ScalarType S} {m : Memory}, Direct t →
    LiesIn a.storage m → m.length < sizeLimit → ∀ i : Fin a.count,
      (a.elements t i).isComplete = true → ∀ l, l < (a.elements t i).storage.size →
        Owns a.storage ((a.elements t i).storage.place l)

instance : Backing Buffer where
  LiesIn b m := b.LiesIn m
  Owns b p := ∃ r, b.region = some r ∧ r.start ≤ p / 8 ∧ p / 8 < r.start + r.size
  Direct t := ∃ format, t.bits = fun b => .block ⟨format, b⟩
  separate := fun ⟨_, ht⟩ hk ha hm => separate_bytes hk ht ha hm
  uniform := fun ⟨_, ht⟩ ha hm => uniform_bytes ht ha hm
  owns := fun ⟨_, ht⟩ ha hm i hc _ hl => place_mem_bytes ht ha hm i hc hl

instance : Backing BitStorage where
  LiesIn s m := s.Sound ∧ s.base.buffer.LiesIn m
  Owns s p := ∃ b, b < s.size ∧ p = s.place b
  Direct t := t.bits = id
  separate := fun ht hk ha _ => separate_bits hk ht ha.1 ha.2
  uniform := fun ht ha _ => uniform_bits ht ha.1
  owns := fun ht ha _ i hc _ hl => place_mem_bits ht ha.1 i hc hl

structure Backed {S : Type} [Tiled S] [Backing S] (a : ArrayView S) (t : ScalarType S)
    (m : Memory) : Prop where
  element : a.element = .scalar t
  hosted : t.kind.Hosted
  direct : Backing.Direct t
  lies : Backing.LiesIn a.storage m
  bounded : m.length < sizeLimit

section

variable {S T : Type} [Tiled S] [Tiled T] (a : ArrayView S) (t : ScalarType S) (b : ArrayView T)
  (u : ScalarType T)

def origins (hk : u.kind = t.kind) (i : Fin a.count) : Field t.kind :=
  (t.transfer u hk (a.slot i) (b.slot i)).source

def visits : List (Fin a.count) :=
  if runsBackward a.storage b.storage then (List.finRange a.count).reverse
  else List.finRange a.count

theorem map_visits : (a.visits b).map Fin.val = copyOrder a.storage b.storage a.count := by
  rw [visits, copyOrder]
  split
  · rw [List.map_reverse, List.map_coe_finRange_eq_range]
  · exact List.map_coe_finRange_eq_range

variable {a t b u} {m n : Memory}

theorem mem_visits (i : Fin a.count) : i ∈ a.visits b := by
  rw [visits]
  split
  · exact List.mem_reverse.2 (List.mem_finRange i)
  · exact List.mem_finRange i

theorem tryCopy_of_count_ne (h : a.count ≠ b.count) :
    a.tryCopy b m = .error (.sizeMismatch b.count a.count) m := by
  have hthrow : a.tryCopy b = throw (.sizeMismatch b.count a.count) :=
    (ElementType.tryCopy_array_eq ..).trans (if_pos h)
  rw [hthrow]
  rfl

theorem tryCopy_eq_run (ht : a.element = .scalar t) (hu : b.element = .scalar u)
    (hk : u.kind = t.kind) (hn : a.count = b.count) : a.tryCopy b =
      Transfer.run ((a.visits b).map (paired (a.elements t) (a.origins t b u hk))) := by
  rw [(parallel_of_scalar ht hu hk hn).tryCopy_eq, transfers_of_scalar ht hu hk, ← map_visits,
    List.map_map]
  rfl

variable [Backing S] [Backing T]

theorem spared_origins (ha : a.Backed t m) (hb : b.Backed u m) (hk : u.kind = t.kind)
    (hd : ∀ p, Backing.Owns a.storage p → ¬ Backing.Owns b.storage p) (hn : a.count = b.count) :
    Spared (a.elements t) (a.origins t b u hk) m where
  spans j hc :=
    (Backing.separate hb.direct hb.hosted hb.lies hb.bounded).spans ⟨j, hn ▸ j.isLt⟩ hc
  disjoint i j hi hj l l' hl hl' he := by
    have hown := Backing.owns ha.direct ha.lies ha.bounded i hi l hl
    rw [he] at hown
    exact hd _ hown (Backing.owns hb.direct hb.lies hb.bounded ⟨j, hn ▸ j.isLt⟩ hj l' hl')

theorem copy_cases (ha : a.Backed t m) (hb : b.Backed u m) (hk : u.kind = t.kind)
    (hd : ∀ p, Backing.Owns a.storage p → ¬ Backing.Owns b.storage p) (hn : a.count = b.count) :
    (∃ n, a.tryCopy b m = .ok () n ∧
      (∀ i, ∃ v, (a.elements t i).Takes (a.origins t b u hk i) v m) ∧
      CopiedAt (a.elements t) (a.origins t b u hk) (a.visits b) m n) ∨
    ∃ before i after e n, a.visits b = before ++ i :: after ∧ a.tryCopy b m = .error e n ∧
      CopiedAt (a.elements t) (a.origins t b u hk) before m n ∧
      (a.elements t i).tryCopy (a.origins t b u hk i) n = .error e := by
  have hs : Separate (a.elements t) m :=
    Backing.separate ha.direct ha.hosted ha.lies ha.bounded
  have hg : Spared (a.elements t) (a.origins t b u hk) m := spared_origins ha hb hk hd hn
  have huniform := Backing.uniform ha.direct ha.lies ha.bounded
  rw [tryCopy_eq_run ha.element hb.element hk hn]
  rcases run_cases hs hg (a.visits b) with
    ⟨log, n, hrun, h⟩ | ⟨before, i, after, log, e, n, hvisits, hrun, h, he⟩
  · refine .inl ⟨n, hrun, fun i => ?_, h.copiedAt hs hg huniform⟩
    have hi : i ∈ a.visits b := mem_visits i
    rw [← h.visited, List.mem_map] at hi
    obtain ⟨e, he, rfl⟩ := hi
    exact ⟨e.2, h.takes e he⟩
  · exact .inr ⟨before, i, after, e, n, hvisits, hrun, h.copiedAt hs hg huniform, he⟩

end

/-- A copy between arrays of as many elements goes through just if every target is complete and takes
the value of its source, and then all have their values. Otherwise it stops at an element that cannot
be copied, after those before it have been: for want of a value in the source, or because the write
is refused. Between arrays of unequal counts nothing is copied. -/
theorem copy_stops_cleanly {S T : Type} [Tiled S] [Tiled T] [Backing S] [Backing T]
    {a : ArrayView S} {b : ArrayView T} {t : ScalarType S} {u : ScalarType T} {m : Memory}
    (ha : a.Backed t m) (hb : b.Backed u m) (hk : u.kind = t.kind)
    (hd : ∀ p, Backing.Owns a.storage p → ¬ Backing.Owns b.storage p) :
    let F := a.elements t
    let G := a.origins t b u hk
    ((∃ x y n, a.tryCopy b m = .error (.sizeMismatch x y) n) ↔ a.count ≠ b.count) ∧
    (a.count ≠ b.count → a.tryCopy b m = .error (.sizeMismatch b.count a.count) m) ∧
    (a.count = b.count →
      ((∃ n, a.tryCopy b m = .ok () n) ↔ ∀ i, (G i).ok m = true ∧ (F i).isComplete = true ∧
        (F i).couldWrite ((G i).uncheckedRead m) = true) ∧
      (∀ n, a.tryCopy b m = .ok () n → CopiedAt F G (a.visits b) m n) ∧
      ∀ e n, a.tryCopy b m = .error e n → ∃ before i after,
        a.visits b = before ++ i :: after ∧ CopiedAt F G before m n ∧
        if (G i).ok m then (F i).tryWrite ((G i).uncheckedRead m) n = .error e
        else e = .incomplete) := by
  intro F G
  have hcases := copy_cases ha hb hk hd
  refine ⟨⟨?_, fun hne => ⟨_, _, m, tryCopy_of_count_ne hne⟩⟩, tryCopy_of_count_ne, fun hn => ?_⟩
  · rintro ⟨x, y, n, hcopy⟩ hn
    rcases hcases hn with ⟨n', hok, -⟩ | ⟨-, i, -, e, n', -, herror, -, he⟩
    · rw [hcopy] at hok
      cases hok
    · rw [hcopy] at herror
      cases herror
      rcases Field.tryCopy_eq_error he with h | h <;> cases h
  · rcases hcases hn with ⟨n, hok, htakes, h⟩ | ⟨before, i, after, e, n, hvisits, herror, h, he⟩
    · rw [hok]
      refine ⟨⟨fun _ i => Field.exists_takes_iff.1 (htakes i), fun _ => ⟨n, rfl⟩⟩, ?_, nofun⟩
      rintro _ ⟨⟩
      exact h
    · rw [herror]
      refine ⟨⟨nofun, fun hall => ?_⟩, nofun, ?_⟩
      · -- The source at which the copy stopped has kept its value, which the target takes.
        obtain ⟨v, hread, hfits, hcomplete⟩ := Field.exists_takes_iff.2 (hall i)
        have htakes : (F i).Takes (G i) v n := ⟨(h.sources i).trans hread, hfits, hcomplete⟩
        rw [htakes.tryCopy_eq] at he
        cases he
      · rintro _ _ ⟨⟩
        exact ⟨before, i, after, hvisits, h, Field.refused_of_tryCopy (h.sources i) he⟩

/-- Nibbles copied from the last on into the bytes behind them, of which none takes the middle one. -/
theorem copy_stops_cleanly_in_the_middle :
    let m : Memory := [0xf3, 0x75, 0xee, 0xee, 0xee, 0xff]
    let n : Memory := [0xf3, 0x75, 0xee, 0xee, 0x03, 0xff]
    let t : ScalarType Buffer :=
      ⟨.unsigned, 8, ⟨by decide, by decide⟩, fun v => v != (7 : Nat), fun b => .block ⟨.byte, b⟩⟩
    let a : ArrayView Buffer := ⟨.scalar t, 1, Nat.one_pos, .ofRegion ⟨2, 3⟩⟩
    let u : ScalarType BitStorage := ⟨.unsigned, 4, ⟨by decide, by decide⟩, fun _ => true, id⟩
    let b : ArrayView BitStorage :=
      ⟨.scalar u, 4, by decide, .window (.ofBlock ⟨.bigPair, .ofRegion ⟨0, 2⟩⟩ 0 12)⟩
    a.tryCopy b m = .error .notRepresentable n ∧ (a.visits b).map Fin.val = [2, 1, 0] ∧
      ∃ before i after, a.visits b = before ++ i :: after ∧ i.val = 1 ∧
        CopiedAt (a.elements t) (a.origins t b u rfl) before m n := by
  intro m n t a u b
  have hd : ∀ p, Backing.Owns a.storage p → ¬ Backing.Owns b.storage p := by
    rintro p ⟨r, ⟨⟩, hp, -⟩ ⟨l, hl, rfl⟩
    have hlow : ∀ l, l < 12 → b.storage.place l / 8 < 2 := by decide
    exact absurd (hlow l hl) (Nat.not_lt.2 hp)
  have ha : a.Backed t m :=
    ⟨rfl, nofun, ⟨.byte, rfl⟩, Buffer.liesIn_ofRegion (by decide), by decide⟩
  have hsound : b.storage.Sound := BitStorage.sound_part (.block _) 0 12
  have hb : b.Backed u m :=
    ⟨rfl, nofun, rfl, ⟨hsound, Buffer.liesIn_ofRegion (by decide)⟩, by decide⟩
  have hstop : a.tryCopy b m = .error .notRepresentable n := Action.eq_error (by decide +kernel)
  obtain ⟨-, -, hequal⟩ := copy_stops_cleanly ha hb rfl hd
  obtain ⟨-, -, hrefused⟩ := hequal (by decide)
  obtain ⟨before, i, after, hvisits, hcopied, hwhy⟩ := hrefused _ n hstop
  have hok : ∀ i, (a.origins t b u rfl i).ok m = true := by decide +kernel
  have hmiddle : ∀ i, (a.elements t i).couldWrite ((a.origins t b u rfl i).uncheckedRead m) =
      false → i.val = 1 := by decide +kernel
  rw [if_pos (hok i), Field.tryWrite_eq_notRepresentable_iff] at hwhy
  exact ⟨hstop, by decide +kernel, before, i, after, hvisits, hmiddle i hwhy, hcopied⟩

end ArrayView

end Packed
