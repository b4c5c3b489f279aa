import Packed.Proofs.Frame.Partial

namespace Packed

open View

variable {m n : Memory} {o inner : TextOptions}

namespace Status

variable {b c : Buffer} {r s : Region}

theorem field_carries {k : Kind} {f g : Field k} {j w : Nat} (hk : k.Textual f.width)
    (hok : f.ok m = true) (hf : f.storage = (ofBuffer b).bits j w)
    (hg : g.storage = (ofBuffer c).bits j w) (hw : f.width = w) (hgw : g.width = w)
    (hv : g.check (f.uncheckedRead m) = true) (hc : (ofBuffer c).isComplete = true)
    (o : TextOptions) (n : Memory) :
    f.view.Carries o m g.view n ((Window.ofBlock (ofBuffer c).block j w).store
      (((Window.ofBlock (ofBuffer b).block j w).load m).mask w) n) := by
  have hcomplete : g.isComplete = true := by
    have hfc : f.isComplete = true := (Field.ok_iff.1 hok).1
    rw [Field.isComplete, hf, hw, Bool.and_eq_true] at hfc
    rw [Field.isComplete, hg, hgw, Bool.and_eq_true]
    refine ⟨?_, hfc.2⟩
    obtain ⟨hvalid, -⟩ := Bool.and_eq_true_iff.1 hfc.1
    exact Bool.and_eq_true_iff.2 ⟨hvalid, hc⟩
  have h := Field.carries hk hok (hgw.trans hw.symm) hv hcomplete o n
  rw [hf, hg, hw] at h
  exact h

theorem carries (hok : (ofBuffer b).ok m = true) (hr : (ofBuffer b).block.Spans r m)
    (hs : (ofBuffer c).block.Spans s n) (ho : o.current + o.indent < sizeLimit) :
    (ofBuffer b).view.Carries o m (ofBuffer c).view n (n.write s.start (m.read r)) := by
  simp only [ok, Bool.and_eq_true] at hok
  obtain ⟨⟨⟨⟨-, hready⟩, hmode⟩, hlevel⟩, hcount⟩ := hok
  have hstart := CopiedBelow.start (ofBuffer b).block (ofBuffer c).block s m n
  have h1 := hstart.window (w := 1) hs (by decide : 1 ≤ 16) (by decide : 1 ≤ 16)
  have h2 := h1.window (w := 3) hs (by decide : 4 ≤ 16) (by decide : 4 ≤ 16)
  have h3 := h2.window (w := 4) hs (by decide : 8 ≤ 16) (by decide : 8 ≤ 16)
  have h4 := h3.window (w := 8) hs (by decide : 16 ≤ 16) (by decide : 16 ≤ 16)
  have hword : ∀ t ∈ ["ready", "mode", "level", "count"], TextStream.IsWord t := by decide
  have hplain : ∀ k ∈ [Kind.unsigned, .signed, .decimal, .flag], ∀ w, k.Textual w :=
    fun k hk w => Kind.textual_of_mem hk w
  have hcarried (inner : TextOptions) : MembersCarried o inner m (fun _ => (ofBuffer c).members)
      (ofBuffer b).members n (n.write s.start (m.read r)) := by
    rw [← h4.eq_write hr hs rfl]
    refine .written (hword "ready" (by decide)) rfl (isHidden_eq_false hready) rfl
      (field_carries (hplain .flag (by decide) 1) hready rfl rfl rfl rfl rfl hs.ok inner n) ?_
    refine .written (hword "mode" (by decide)) rfl (isHidden_eq_false hmode) rfl
      (field_carries textual_mode hmode rfl rfl rfl rfl rfl hs.ok inner _) ?_
    refine .written (hword "level" (by decide)) rfl (isHidden_eq_false hlevel) rfl
      (field_carries (hplain .signed (by decide) 4) hlevel rfl rfl rfl rfl rfl hs.ok inner _) ?_
    refine .written (hword "count" (by decide)) rfl (isHidden_eq_false hcount) rfl
      (field_carries (hplain .unsigned (by decide) 8) hcount rfl rfl rfl rfl rfl hs.ok inner _) ?_
    exact .nil _
  exact (hcarried _).carries (TextOptions.deeper_eq ho) rfl rfl

end Status

theorem contains_sizeType {k : Nat} (h : k < sizeLimit) : sizeType.contains k = true := by
  rw [sizeType, IntType.contains_unsigned_iff]
  have hlim : sizeLimit = 2 ^ 64 := rfl
  omega

namespace WordList

variable {l : WordList}

def length (l : WordList) (m : Memory) : Nat := l.count.uncheckedRead m

theorem length_lt (l : WordList) (m : Memory) : l.length m < 256 := by
  change ((l.count.storage.load m).mask 8).toNat < 256
  rw [Word.toNat_mask]
  exact Nat.mod_lt _ (by decide)

theorem wordsSize_eq (h : l.count.ok m = true) :
    l.wordsSize m = some ((l.length m * 2 : Nat) : Int) := by
  have hlt := l.length_lt m
  have hlim : 512 < sizeLimit := by decide
  have hk : l.count.known? m = some ((l.length m : Nat) : Int) := by
    rw [Field.known?, if_pos h]
    rfl
  rw [wordsSize, hk]
  exact Known.arithmetic_eq .product (by decide) (contains_sizeType (by omega))
    (contains_sizeType (k := 2) (by omega)) (contains_sizeType (k := l.length m * 2) (by omega))

theorem size_eq (h : l.count.ok m = true) :
    l.size m = some ((1 + l.length m * 2 : Nat) : Int) := by
  have hlt := l.length_lt m
  have hlim : 512 < sizeLimit := by decide
  rw [size, wordsSize_eq h]
  exact Known.arithmetic_eq .sum (by decide) (contains_sizeType (k := 1) (by omega))
    (contains_sizeType (by omega)) (contains_sizeType (k := 1 + l.length m * 2) (by omega))

theorem storage_words (h : l.count.ok m = true) :
    (l.words m).storage = l.buffer.part 1 (l.length m * 2) := by
  rw [storage_words_eq, wordsSize_eq h]
  rfl

/-- The words of a list that its buffer holds completely. -/
structure Holds (l : WordList) (r : Region) (count : Nat) (m : Memory) : Prop where
  region : l.buffer.region = some r
  ok : l.count.ok m = true
  length : l.length m = count
  size_le : 1 + count * 2 ≤ r.size
  lies : r.start + r.size ≤ m.length

variable {r s : Region} {count : Nat}

theorem Holds.words_region (h : l.Holds r count m) :
    (l.words m).storage.region = some ⟨r.start + 1, count * 2⟩ := by
  rw [storage_words h.ok, h.length]
  exact Buffer.region_part h.region h.size_le

theorem Holds.count_words (h : l.Holds r count m) : (l.words m).count = count := by
  have hs : (l.words m).storage.size = count * 2 := by simp [Buffer.size, h.words_region]
  change (l.words m).storage.size / 2 = count
  omega

theorem Holds.spans_slot (h : l.Holds r count m) {i : Nat} (hi : i < count) {m' : Memory}
    (hm : m'.length = m.length) :
    (Block.mk .bigPair ((l.words m).slot i)).Spans ⟨r.start + 1 + i * 2, 2⟩ m' := by
  have hsize := h.size_le
  have hlies := h.lies
  have hlt := l.length_lt m
  have hlim : 512 < sizeLimit := by decide
  rw [h.length] at hlt
  refine ⟨?_, rfl, by dsimp only; omega⟩
  refine Buffer.tile_region h.words_region (by dsimp only; omega) ?_
  change i < (l.words m).count
  rw [h.count_words]
  exact hi

theorem Holds.words_carried {k : WordList} (h : l.Holds r count m) (hk : k.Holds s count n)
    (o inner : TextOptions) (d : Nat) {i : Nat} (hi : i + d = count) :
    ValuesCarried o inner false m
      ((List.range count).map fun i => (wordType.field ((k.words n).slot i)).view)
      ((List.range' i d).map fun i => (wordType.field ((l.words m).slot i)).view) i
      (n.write (s.start + 1) (m.read ⟨r.start + 1, i * 2⟩))
      (n.write (s.start + 1) (m.read ⟨r.start + 1, count * 2⟩)) := by
  induction d generalizing i with
  | zero =>
      obtain rfl : i = count := hi
      exact .nil i _
  | succ d ih =>
      have hlt : i < count := by omega
      have hsize := h.size_le
      have hlies := h.lies
      have hcount := l.length_lt m
      have hlim : 256 < sizeLimit := by decide
      rw [h.length] at hcount
      have hsource := h.spans_slot hlt rfl
      have htarget := hk.spans_slot hlt
        (Memory.length_write n (s.start + 1) (m.read ⟨r.start + 1, i * 2⟩))
      have hok := Field.ok_of_spans (f := wordType.field ((l.words m).slot i)) rfl rfl
        (fun _ => rfl) hsource
      have hget : ((List.range count).map fun i =>
          (wordType.field ((k.words n).slot i)).view)[i]? =
          some (wordType.field ((k.words n).slot i)).view := by simp [hlt]
      have hc := Field.carries_block (g := wordType.field ((k.words n).slot i))
        (Kind.textual_of_mem (by decide) 16) hok rfl rfl rfl rfl rfl rfl hsource htarget inner
      rw [Memory.write_read_append (by omega), ← Nat.succ_mul] at hc
      rw [List.range'_succ, List.map_cons]
      exact .written (isHidden_eq_false hok) (by omega) hget hc (ih (by omega))

theorem Holds.words_carries {k : WordList} (h : l.Holds r count m) (hk : k.Holds s count n)
    (ho : o.current + o.indent < sizeLimit) :
    (l.words m).view.Carries o m (k.words n).view n
      (n.write (s.start + 1) (m.read ⟨r.start + 1, count * 2⟩)) := by
  have hall := h.words_carried hk o { o with current := o.current + o.indent } count
    (Nat.zero_add _)
  have hzero : n.write (s.start + 1) (m.read ⟨r.start + 1, 0 * 2⟩) = n := by
    simp [Memory.read, Memory.write]
  rw [hzero, ← List.range_eq_range'] at hall
  refine ArrayView.carries_of_scalar rfl rfl ?_ (TextOptions.deeper_eq ho)
  rw [h.count_words, hk.count_words]
  exact hall

theorem spans_count (hr : l.buffer.region = some r) (hs : 1 ≤ r.size)
    (hm : r.start + r.size ≤ m.length) :
    (Block.mk .byte (l.buffer.part 0 1)).Spans ⟨r.start, 1⟩ m :=
  ⟨Buffer.region_part hr hs, rfl, by dsimp only; omega⟩

/-- Once the count has been copied, the list in the target has the length of the source. -/
theorem Holds.of_count {k : WordList} (h : l.Holds r count m) (hs : k.buffer.region = some s)
    (hsize : 1 + count * 2 ≤ s.size) (hlies : s.start + s.size ≤ n.length) :
    k.Holds s count (n.write s.start (m.read ⟨r.start, 1⟩)) := by
  have hb := l.spans_count h.region (Nat.le_of_add_right_le h.size_le) h.lies
  have hc := k.spans_count hs (Nat.le_of_add_right_le hsize) hlies
  have hc' := hc.of_length (Memory.length_write n s.start (m.read ⟨r.start, 1⟩))
  have hstore := Block.store_load_eq_write hb hc rfl
  have hload : k.count.storage.load (n.write s.start (m.read ⟨r.start, 1⟩)) =
      l.count.storage.load m := by
    rw [← hstore]
    change Block.load _ (Block.store _ (Block.load _ m) n) = Block.load _ m
    rw [Block.load_store hc]
    exact Block.mask_load hb
  refine ⟨hs, Field.ok_of_spans rfl rfl (fun _ => rfl) hc', ?_, hsize, by
    rwa [Memory.length_write]⟩
  exact (congrArg (Kind.unsigned.decode 8) hload).trans h.length

theorem carries {k : WordList} (h : l.Holds r count m) (hs : k.buffer.region = some s)
    (hsize : 1 + count * 2 ≤ s.size) (hlies : s.start + s.size ≤ n.length)
    (ho : o.current + 2 * o.indent < sizeLimit) :
    l.view.Carries o m k.view n (n.write s.start (m.read ⟨r.start, 1 + count * 2⟩)) := by
  have hb := l.spans_count h.region (Nat.le_of_add_right_le h.size_le) h.lies
  have hc := k.spans_count hs (Nat.le_of_add_right_le hsize) hlies
  have hword : ∀ t ∈ ["count", "values"], TextStream.IsWord t := by decide
  let inner := { o with current := o.current + o.indent }
  have hcount := Field.carries_block (f := l.count) (g := k.count)
    (Kind.textual_of_mem (by decide) 8) h.ok rfl rfl rfl rfl rfl rfl hb hc inner
  have hwords := h.words_carries (h.of_count hs hsize hlies) (o := inner)
    (by dsimp only [inner]; omega)
  rw [Memory.write_read_append (by have := h.size_le; have := h.lies; omega)] at hwords
  have hcarried : MembersCarried o inner m k.members (l.members m) n
      (n.write s.start (m.read ⟨r.start, 1 + count * 2⟩)) := by
    refine .written (hword "count" (by decide)) rfl (isHidden_eq_false h.ok) rfl hcount ?_
    refine .written (hword "values" (by decide)) h.ok (isHidden_aggregate rfl o m) rfl hwords ?_
    exact .nil _
  exact hcarried.carries (TextOptions.deeper_eq (by omega)) rfl rfl

end WordList

namespace Frame

variable {f g : Frame} {r s : Region}

theorem region_list (hr : f.buffer.region = some r) :
    f.list.buffer.region = some (r.part Status.size (sizeLimit - 1)) := by
  change f.buffer.region.map _ = _
  rw [hr]
  rfl

theorem part_list {k : Nat} (hk : k < sizeLimit) (hr : 2 + k ≤ r.size) :
    (r.part Status.size (sizeLimit - 1)).start = r.start + 2 ∧
      k ≤ (r.part Status.size (sizeLimit - 1)).size ∧
      r.start + 2 + (r.part Status.size (sizeLimit - 1)).size ≤ r.start + r.size := by
  simp only [Region.part, Status.size]
  omega

theorem size_eq (h : f.list.count.ok m = true) :
    f.size m = some ((2 + (1 + f.list.length m * 2) : Nat) : Int) := by
  have hlt := f.list.length_lt m
  have hlim := sizeLimit_eq
  rw [size, WordList.size_eq h]
  exact Known.arithmetic_eq .sum (by decide) (contains_sizeType (k := 2) (by omega))
    (contains_sizeType (by omega)) (contains_sizeType (k := 2 + (1 + f.list.length m * 2)) (by omega))

theorem holds_of_ok (hok : f.ok m = true) (hr : f.buffer.region = some r)
    (hm : r.start + r.size ≤ m.length) :
    ∃ count, f.size m = some ((2 + (1 + count * 2) : Nat) : Int) ∧
      2 + (1 + count * 2) ≤ r.size ∧
      f.list.Holds (r.part Status.size (sizeLimit - 1)) count m := by
  simp only [ok, isComplete, WordList.ok, Bool.and_eq_true] at hok
  obtain ⟨⟨hcomplete, -⟩, ⟨-, hcount⟩, -⟩ := hok
  have hlt := f.list.length_lt m
  have hlim := sizeLimit_eq
  have hsize := size_eq hcount
  have hle : 2 + (1 + f.list.length m * 2) ≤ r.size := by
    rw [hsize, Buffer.holds, Bool.and_eq_true] at hcomplete
    have hany := hcomplete.2
    simp only [Option.any_some, decide_eq_true_eq, Buffer.size, hr, Option.elim_some] at hany
    exact_mod_cast hany
  obtain ⟨hstart, hfits, hend⟩ := part_list (by omega) hle
  refine ⟨f.list.length m, hsize, hle, region_list hr, hcount, rfl, hfits, ?_⟩
  rw [hstart]
  exact Nat.le_trans hend hm

theorem spans_status (hr : f.buffer.region = some r) (hsize : 2 ≤ r.size)
    (hm : r.start + r.size ≤ m.length) : f.status.block.Spans ⟨r.start, 2⟩ m := by
  have hpart : (f.buffer.part 0 2).region = some ⟨r.start + 0, 2⟩ :=
    Buffer.region_part hr (by rwa [Nat.zero_add])
  have hblock := Buffer.region_part (r := ⟨r.start + 0, 2⟩) hpart (Nat.le_refl (0 + 2))
  exact ⟨hblock, rfl, by dsimp only; omega⟩

theorem carries {count : Nat} (hok : f.ok m = true) (hr : f.buffer.region = some r)
    (hs : g.buffer.region = some s) (hm : r.start + r.size ≤ m.length)
    (hn : s.start + s.size ≤ n.length)
    (hlist : f.list.Holds (r.part Status.size (sizeLimit - 1)) count m)
    (hrsize : 2 + (1 + count * 2) ≤ r.size) (hssize : 2 + (1 + count * 2) ≤ s.size)
    (ho : o.current + 3 * o.indent < sizeLimit) :
    f.view.Carries o m g.view n (n.write s.start (m.read ⟨r.start, 2 + (1 + count * 2)⟩)) := by
  have hword : ∀ t ∈ ["status", "list"], TextStream.IsWord t := by decide
  let inner := { o with current := o.current + o.indent }
  have hstatusok : f.status.ok m = true := by
    simp only [ok, Bool.and_eq_true] at hok
    exact hok.1.2
  have hstatus := Status.carries (o := inner) hstatusok
    (spans_status hr (Nat.le_of_add_right_le hrsize) hm)
    (spans_status hs (Nat.le_of_add_right_le hssize) hn) (by dsimp only [inner]; omega)
  have hcount := f.list.length_lt m
  rw [hlist.length] at hcount
  have hbig : 512 < sizeLimit := by decide
  obtain ⟨hrstart, -, -⟩ := part_list (by omega) hrsize
  obtain ⟨hsstart, hfits, hend⟩ := part_list (by omega) hssize
  have hlies : (s.part Status.size (sizeLimit - 1)).start +
      (s.part Status.size (sizeLimit - 1)).size ≤
      (n.write s.start (m.read ⟨r.start, 2⟩)).length := by
    rw [hsstart, Memory.length_write]
    exact Nat.le_trans hend hn
  have hwords := WordList.carries (o := inner) hlist (region_list hs) hfits hlies
    (by dsimp only [inner]; omega)
  rw [hsstart, hrstart, Memory.write_read_append (by omega)] at hwords
  have hcarried : MembersCarried o inner m (fun _ => g.members) f.members n
      (n.write s.start (m.read ⟨r.start, 2 + (1 + count * 2)⟩)) := by
    refine .written (hword "status" (by decide)) rfl (isHidden_aggregate rfl o m) rfl hstatus ?_
    refine .written (hword "list" (by decide)) rfl (isHidden_aggregate rfl o m) rfl hwords ?_
    exact .nil _
  exact hcarried.carries (TextOptions.deeper_eq (by omega)) rfl rfl

/-- The text of a frame that is ok makes any buffer that is long enough hold the same frame, and
leaves what comes after it as it was. -/
theorem text_round_trip (hok : f.ok m = true) (hm : f.buffer.LiesIn m) (hn : g.buffer.LiesIn n)
    (hlen : ∀ size : Int, f.size m = some size → size ≤ g.buffer.size)
    (ho : o.current + 3 * o.indent < sizeLimit) :
    ∃ (size : Nat) (text : String) (n' : Memory), f.size m = some size ∧
      f.view.text o m = .ok text ∧ g.view.readText text n = .ok () n' ∧
      (g.buffer.bytes n').take size = (f.buffer.bytes m).take size ∧
      (g.buffer.bytes n').drop size = (g.buffer.bytes n).drop size ∧ n'.length = n.length ∧
      ∀ r, g.buffer.region = some r →
        ∀ a, a < r.start ∨ r.start + r.size ≤ a → n'.get a = n.get a := by
  obtain ⟨r, hr⟩ : ∃ r, f.buffer.region = some r := by
    simp only [ok, isComplete, Buffer.holds, Buffer.ok, Bool.and_eq_true] at hok
    exact Option.isSome_iff_exists.1 hok.1.1.1
  have hmr := hm r hr
  obtain ⟨count, hsize, hle, hlist⟩ := holds_of_ok hok hr hmr
  have hsle : 2 + (1 + count * 2) ≤ g.buffer.size := by exact_mod_cast hlen _ hsize
  obtain ⟨s, hs⟩ : ∃ s, g.buffer.region = some s := by
    cases hs : g.buffer.region with
    | none => simp [Buffer.size, hs] at hsle
    | some s => exact ⟨s, rfl⟩
  have hns := hn s hs
  have hssize : 2 + (1 + count * 2) ≤ s.size := by simpa [Buffer.size, hs] using hsle
  obtain ⟨text, ht, hu⟩ := (carries hok hr hs hmr hns hlist hle hssize ho).readText
  have hcopied : (m.read ⟨r.start, 2 + (1 + count * 2)⟩).length = 2 + (1 + count * 2) :=
    Memory.length_read_of_le (by dsimp only; omega)
  have hfits : (m.read ⟨r.start, 2 + (1 + count * 2)⟩).length ≤ s.size := by rwa [hcopied]
  have hread := Memory.read_write_front hns hfits
  refine ⟨_, text, _, hsize, ht, hu, ?_, ?_, Memory.length_write _ _ _, ?_⟩
  · rw [Buffer.bytes, Buffer.bytes, hs, hr]
    change ((Memory.write _ _ _).read s).take _ = (m.read r).take _
    rw [hread, List.take_left' hcopied, Memory.take_read m r hle]
  · rw [Buffer.bytes, Buffer.bytes, hs]
    change ((Memory.write _ _ _).read s).drop _ = (n.read s).drop _
    rw [hread, List.drop_left' hcopied, hcopied]
  · intro s' hs' a ha
    obtain rfl := Option.some.inj (hs.symm.trans hs')
    exact Memory.get_write_of_outside n (by rw [hcopied]; omega)

/-- A frame of two words, with numbers in groups of hexadecimal digits on many lines. -/
theorem text_round_trip_of_two_words :
    let f : Frame := ⟨.ofRegion ⟨0, 7⟩⟩
    let g : Frame := ⟨.ofRegion ⟨1, 8⟩⟩
    let m : Memory := [0x9f, 0x03, 0x02, 0x01, 0xff, 0x80, 0x00]
    let n : Memory := [9, 8, 7, 6, 5, 4, 3, 2, 1, 0]
    let o := { TextOptions.multilineText with base := .hexadecimal, grouping := true }
    f.ok m = true ∧ ∃ (size : Nat) (text : String) (n' : Memory), f.size m = some size ∧
      f.view.text o m = .ok text ∧ g.view.readText text n = .ok () n' ∧
      (g.buffer.bytes n').take size = (f.buffer.bytes m).take size ∧
      (g.buffer.bytes n').drop size = (g.buffer.bytes n).drop size ∧ n'.length = n.length ∧
      ∀ r, g.buffer.region = some r →
        ∀ a, a < r.start ∨ r.start + r.size ≤ a → n'.get a = n.get a := by
  intro f g m n o
  have hok : f.ok m = true := by decide
  refine ⟨hok, text_round_trip hok ?_ ?_ ?_ (by decide)⟩
  · rintro r ⟨⟩
    decide
  · rintro r ⟨⟩
    decide
  · intro size hsize
    have hseven : f.size m = some 7 := by decide
    obtain rfl := Option.some.inj (hseven.symm.trans hsize)
    decide

end Frame

end Packed
