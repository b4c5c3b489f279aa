import Packed.Proofs.Agreement
import Packed.Proofs.Frame.OwnBytes

namespace Packed

variable {m n : Memory}

theorem Except.foldlM_of_ok {ε α : Type} {f : α → Except ε Bool} {g : α → Bool} {l : List α}
    (h : ∀ a ∈ l, f a = .ok (g a)) (s : Bool) :
    l.foldlM (fun equal a => if equal then f a else .ok false) s = .ok (s && l.all g) := by
  induction l generalizing s with
  | nil => exact congrArg Except.ok (Bool.and_true s).symm
  | cons a l ih =>
      have hl := ih fun b hb => h b (List.mem_cons_of_mem a hb)
      rw [List.foldlM_cons]
      cases s with
      | false => exact hl false
      | true =>
          rw [if_pos rfl, h a List.mem_cons_self, List.all_cons, Bool.true_and]
          exact hl (g a)

theorem take_eq_take_iff_chunks {α : Type} {xs ys : List α} {c d : Nat} (hx : c * d ≤ xs.length)
    (hy : c * d ≤ ys.length) : xs.take (c * d) = ys.take (c * d) ↔
      ∀ i < c, (xs.drop (i * d)).take d = (ys.drop (i * d)).take d := by
  induction c with
  | zero => simp
  | succ c ih =>
      rw [Nat.succ_mul] at hx hy ⊢
      rw [List.take_add, List.take_add, Nat.forall_lt_succ_right, ← ih (by omega) (by omega)]
      refine ⟨fun h => List.append_inj h (by simp; omega), fun ⟨h, h'⟩ => by rw [h, h']⟩

namespace Kind

variable {k : Kind} {w : Nat} {x y : Word}

theorem same_iff (hk : ∀ f, k ≠ .float f) {a b : k.Value} : k.same a b = true ↔ a = b := by
  cases k with
  | float f => exact absurd rfl (hk f)
  | unsigned | signed | decimal | flag | named => exact beq_iff_eq

theorem same_decode_iff (hw : k.Admits w) (hk : k.HoldsWidth w) (hf : ∀ f, k ≠ .float f)
    (hx : k.wellFormed w x = true) (hy : k.wellFormed w y = true) :
    k.same (k.decode w x) (k.decode w y) = true ↔ x.mask w = y.mask w := by
  rw [same_iff hf]
  constructor
  · intro h
    rw [← encode_decode hw hk hx, h, encode_decode hw hk hy]
  · intro h
    rw [← decode_mask hw, h, decode_mask hw]

end Kind

theorem Block.load_eq_load_iff {f : BlockFormat} {b c : Buffer} (hb : (Block.mk f b).ok = true)
    (hc : (Block.mk f c).ok = true) (hm : b.LiesIn m) (hn : c.LiesIn n) :
    (Block.mk f b).load m = (Block.mk f c).load n ↔ b.bytes m = c.bytes n := by
  constructor
  · intro h
    obtain ⟨r, hr⟩ := Block.spans_of_ok hb hm
    obtain ⟨s, hs⟩ := Block.spans_of_ok hc hn
    rw [Buffer.bytes, Buffer.bytes, hr.region, hs.region]
    exact Block.read_eq_read hs hr rfl h
  · intro h
    obtain ⟨hbok, -⟩ := Bool.and_eq_true_iff.1 hb
    obtain ⟨hcok, -⟩ := Bool.and_eq_true_iff.1 hc
    exact Block.load_mirrors ⟨hbok.trans hcok.symm, h, hn, hm⟩ f

namespace Field

variable {k : Kind} {f g : Field k}

theorem equals_of_ok (hf : f.ok m = true) (hg : g.ok n = true) :
    f.equals m g n = .ok (f.uncheckedEquals m g n) := by
  rw [equals, read_eq hf, read_eq hg]
  rfl

theorem equals_of_not_ok (hw : g.width = f.width) (h : ¬(f.ok m = true ∧ g.ok n = true)) :
    f.equals m g n = .error (.unreadable k f.width) := by
  rw [equals, read, read, hw]
  cases hf : f.ok m with
  | false => rfl
  | true =>
      rw [if_neg (fun hg => h ⟨hf, hg⟩)]
      rfl

theorem uncheckedEquals_iff (hk : k.HoldsWidth f.width) (hfloat : ∀ t, k ≠ .float t)
    (hf : f.ok m = true) (hg : g.ok n = true) (hw : g.width = f.width) :
    f.uncheckedEquals m g n = true ↔
      (f.storage.load m).mask f.width = (g.storage.load n).mask f.width := by
  obtain ⟨-, hfw, -⟩ := ok_iff.1 hf
  obtain ⟨-, hgw, -⟩ := ok_iff.1 hg
  rw [hw] at hgw
  rw [uncheckedEquals, uncheckedRead, uncheckedRead, hw]
  exact Kind.same_decode_iff f.admits hk hfloat hfw hgw

end Field

namespace Word

variable {x y : Word} {o w : Nat}

theorem mask_eq_mask_iff :
    x.mask w = y.mask w ↔ ∀ i < w, i < 64 → x.getLsbD i = y.getLsbD i := by
  constructor
  · intro h i hi hi'
    have hbit := congrArg (BitVec.getLsbD · i) h
    simpa only [getLsbD_mask, hi, hi', decide_true, Bool.true_and] using hbit
  · intro h
    apply BitVec.eq_of_getLsbD_eq
    intro i hi
    rw [getLsbD_mask, getLsbD_mask]
    by_cases hw : i < w
    · rw [h i hw hi]
    · simp [hw]

end Word

theorem Field.uncheckedEquals_window_iff {k : Kind} {f g : Field k} {b c : Block} {o w : Nat}
    (hk : k.HoldsWidth w) (hfloat : ∀ t, k ≠ .float t) (hf : f.ok m = true) (hg : g.ok n = true)
    (hfw : f.width = w) (hgw : g.width = w) (hfs : f.storage = .window (.ofBlock b o w))
    (hgs : g.storage = .window (.ofBlock c o w)) (ho : o + w ≤ 64) :
    f.uncheckedEquals m g n = true ↔
      ∀ i, o ≤ i → i < o + w → (b.load m).getLsbD i = (c.load n).getLsbD i := by
  rw [uncheckedEquals_iff (hfw ▸ hk) hfloat hf hg (hgw.trans hfw.symm), hfw, hfs, hgs,
    Word.mask_eq_mask_iff]
  have hoffset : (BitVec.ofNat 8 o).toNat = o := Nat.mod_eq_of_lt (by omega)
  have hsize : (BitVec.ofNat 8 w).toNat = w := Nat.mod_eq_of_lt (by omega)
  simp only [BitStorage.load, Window.getLsbD_load, Window.ofBlock, hoffset, hsize]
  constructor
  · intro h i hi hlt
    obtain ⟨j, rfl⟩ := Nat.exists_eq_add_of_le hi
    have hj : j < w := by omega
    simpa [hj] using h j hj (by omega)
  · intro h i hi _
    rw [h (o + i) (by omega) (by omega)]

theorem Field.uncheckedEquals_block_iff {k : Kind} {f g : Field k} {t : BlockFormat} {b c : Buffer}
    (hk : k.HoldsWidth t.bits) (hfloat : ∀ t, k ≠ .float t) (hf : f.ok m = true) (hg : g.ok n = true)
    (hfw : f.width = t.bits) (hgw : g.width = t.bits) (hfs : f.storage = .block ⟨t, b⟩)
    (hgs : g.storage = .block ⟨t, c⟩) (hm : b.LiesIn m) (hn : c.LiesIn n) :
    f.uncheckedEquals m g n = true ↔ b.bytes m = c.bytes n := by
  have hb : (Block.mk t b).ok = true := by
    have h := storage_ok (ok_iff.1 hf).1
    rwa [hfs] at h
  have hc : (Block.mk t c).ok = true := by
    have h := storage_ok (ok_iff.1 hg).1
    rwa [hgs] at h
  obtain ⟨r, hr⟩ := Block.spans_of_ok hb hm
  obtain ⟨s, hs⟩ := Block.spans_of_ok hc hn
  rw [uncheckedEquals_iff (hfw ▸ hk) hfloat hf hg (hgw.trans hfw.symm), hfw, hfs, hgs,
    ← Block.load_eq_load_iff hb hc hm hn]
  exact iff_of_eq (congrArg₂ (· = ·) (Block.mask_load hr) (Block.mask_load hs))

namespace Status

variable {b c : Buffer}

theorem equals_of_ok {s t : Status} (hs : s.ok m = true) (ht : t.ok n = true) :
    s.equals m t n = .ok (s.uncheckedEquals m t n) := by
  simp only [ok, Bool.and_eq_true] at hs ht
  rw [equals, uncheckedEquals, Field.equals_of_ok hs.1.1.1.2 ht.1.1.1.2,
    Field.equals_of_ok hs.1.1.2 ht.1.1.2, Field.equals_of_ok hs.1.2 ht.1.2,
    Field.equals_of_ok hs.2 ht.2]
  cases s.ready.uncheckedEquals m t.ready n <;> cases s.mode.uncheckedEquals m t.mode n <;>
    cases s.level.uncheckedEquals m t.level n <;> rfl

theorem equals_of_short (h : ¬(2 ≤ b.size ∧ 2 ≤ c.size)) :
    (ofBuffer b).equals m (ofBuffer c) n = .error (.unreadable .flag 1) := by
  have hsize : ∀ {b : Buffer} {m : Memory}, (ofBuffer b).ready.ok m = true → 2 ≤ b.size := by
    intro b m hok
    have hwindow : (Window.ofBlock (ofBuffer b).block 0 1).ok = true :=
      Field.storage_ok (Field.ok_iff.1 hok).1
    rw [Window.ok, Bool.and_eq_true] at hwindow
    exact isComplete_iff.1 hwindow.2
  have hready : (ofBuffer b).ready.equals m (ofBuffer c).ready n = .error (.unreadable .flag 1) :=
    Field.equals_of_not_ok rfl fun hok => h ⟨hsize hok.1, hsize hok.2⟩
  rw [equals, hready]
  rfl

theorem load_eq_iff_bytes (hb : 2 ≤ b.size) (hc : 2 ≤ c.size) (hm : b.LiesIn m) (hn : c.LiesIn n) :
    (ofBuffer b).block.load m = (ofBuffer c).block.load n ↔
      (b.bytes m).take 2 = (c.bytes n).take 2 := by
  have h := Block.load_eq_load_iff (isComplete_iff.2 hb) (isComplete_iff.2 hc) (hm.part 0 2)
    (hn.part 0 2)
  rwa [Buffer.bytes_part, Buffer.bytes_part, List.drop_zero, List.drop_zero] at h

theorem load_eq_iff_bits (hb : 2 ≤ b.size) (hc : 2 ≤ c.size) (hm : b.LiesIn m) (hn : c.LiesIn n) :
    (ofBuffer b).block.load m = (ofBuffer c).block.load n ↔ ∀ i < 16,
      ((ofBuffer b).block.load m).getLsbD i = ((ofBuffer c).block.load n).getLsbD i := by
  obtain ⟨r, hr⟩ := Block.spans_of_ok (isComplete_iff.2 hb) (hm.part 0 2)
  obtain ⟨s, hs⟩ := Block.spans_of_ok (isComplete_iff.2 hc) (hn.part 0 2)
  constructor
  · intro h i _
    rw [h]
  · intro h
    rw [← Block.mask_load hr, ← Block.mask_load hs]
    exact Word.mask_eq_mask_iff.2 fun i hi _ => h i hi

theorem uncheckedEquals_iff (hb : 2 ≤ b.size) (hc : 2 ≤ c.size) (hm : b.LiesIn m) (hn : c.LiesIn n) :
    (ofBuffer b).uncheckedEquals m (ofBuffer c) n = true ↔
      (b.bytes m).take 2 = (c.bytes n).take 2 := by
  have hbok := (ok_eq_isComplete b m).trans (isComplete_iff.2 hb)
  have hcok := (ok_eq_isComplete c n).trans (isComplete_iff.2 hc)
  simp only [ok, Bool.and_eq_true] at hbok hcok
  have hready := Field.uncheckedEquals_window_iff (k := .flag) (o := 0) (w := 1)
    (fun e he => by cases he) (fun t => by simp) hbok.1.1.1.2 hcok.1.1.1.2 rfl rfl rfl rfl (by decide)
  have hmode := Field.uncheckedEquals_window_iff (k := .named modes) (o := 1) (w := 3)
    (fun e he => by cases he; decide) (fun t => by simp) hbok.1.1.2 hcok.1.1.2 rfl rfl rfl rfl
    (by decide)
  have hlevel := Field.uncheckedEquals_window_iff (k := .signed) (o := 4) (w := 4)
    (fun e he => by cases he) (fun t => by simp) hbok.1.2 hcok.1.2 rfl rfl rfl rfl (by decide)
  have hcount := Field.uncheckedEquals_window_iff (k := .unsigned) (o := 8) (w := 8)
    (fun e he => by cases he) (fun t => by simp) hbok.2 hcok.2 rfl rfl rfl rfl (by decide)
  rw [← load_eq_iff_bytes hb hc hm hn, load_eq_iff_bits hb hc hm hn, uncheckedEquals,
    Bool.and_eq_true, Bool.and_eq_true, Bool.and_eq_true, hready, hmode, hlevel, hcount]
  constructor
  · rintro ⟨⟨⟨hready, hmode⟩, hlevel⟩, hcount⟩ i hi
    obtain h | h | h | h : i < 1 ∨ 1 ≤ i ∧ i < 4 ∨ 4 ≤ i ∧ i < 8 ∨ 8 ≤ i := by omega
    · exact hready i (Nat.zero_le i) h
    · exact hmode i h.1 h.2
    · exact hlevel i h.1 h.2
    · exact hcount i h hi
  · intro h
    exact ⟨⟨⟨fun i _ hi => h i (by omega), fun i _ hi => h i (by omega)⟩,
      fun i _ hi => h i (by omega)⟩, fun i _ hi => h i (by omega)⟩

theorem equals_eq (hm : b.LiesIn m) (hn : c.LiesIn n) : (ofBuffer b).equals m (ofBuffer c) n =
    if 2 ≤ b.size ∧ 2 ≤ c.size then .ok (decide ((b.bytes m).take 2 = (c.bytes n).take 2))
    else .error (.unreadable .flag 1) := by
  split
  · rename_i h
    have hb := (ok_eq_isComplete b m).trans (isComplete_iff.2 h.1)
    have hc := (ok_eq_isComplete c n).trans (isComplete_iff.2 h.2)
    rw [equals_of_ok hb hc, Bool.eq_iff_iff.2 ((uncheckedEquals_iff h.1 h.2 hm hn).trans
      decide_eq_true_iff.symm)]
  · rename_i h
    exact equals_of_short h

end Status

namespace WordList

variable {b c : Buffer}

theorem tile_ok (hb : b.size < sizeLimit) {i : Nat} (hi : i < tileCount b 2) :
    (tile b 2 i) = b.part (i * 2) 2 ∧ (wordType.field (tile b 2 i)).ok m = true := by
  have hbound := tile_bound hi
  change i * 2 + 2 ≤ b.size at hbound
  have htile : tile b 2 i = b.part (i * 2) 2 := by
    rw [tile, saturate_of_lt (by omega)]
    rfl
  refine ⟨htile, ?_⟩
  rw [htile, wordType_ok_iff, Buffer.size_part]
  omega

theorem uncheckedEquals_tile_iff (hm : b.LiesIn m) (hn : c.LiesIn n) (hb : b.size < sizeLimit)
    (hc : c.size < sizeLimit) {i : Nat} (hi : i < tileCount b 2) (hi' : i < tileCount c 2) :
    (wordType.field (tile b 2 i)).uncheckedEquals m (wordType.field (tile c 2 i)) n = true ↔
      ((b.bytes m).drop (i * 2)).take 2 = ((c.bytes n).drop (i * 2)).take 2 := by
  obtain ⟨htile, hok⟩ := tile_ok (m := m) hb hi
  obtain ⟨htile', hok'⟩ := tile_ok (m := n) hc hi'
  have hbytes := Field.uncheckedEquals_block_iff (k := .unsigned) (t := .bigPair)
    (fun e he => by cases he) (fun t => by simp) hok hok' rfl rfl rfl rfl (htile ▸ hm.part _ _)
    (htile' ▸ hn.part _ _)
  rwa [htile, htile', Buffer.bytes_part, Buffer.bytes_part, ← htile, ← htile'] at hbytes

def pairs (b : Buffer) (m : Memory) : List Byte := (b.bytes m).take (tileCount b 2 * 2)

theorem tileCount_mul_le (hm : b.LiesIn m) : tileCount b 2 * 2 ≤ (b.bytes m).length := by
  rw [Buffer.length_bytes hm]
  exact Nat.div_mul_le_self _ _

theorem words_equals_eq (hm : b.LiesIn m) (hn : c.LiesIn n) (hb : b.size < sizeLimit)
    (hc : c.size < sizeLimit) :
    ElementType.equals m n (.array (.scalar wordType) 2 Nat.two_pos) b
      (.array (.scalar wordType) 2 Nat.two_pos) c =
      .ok (decide (pairs b m = pairs c n)) := by
  have hbl := tileCount_mul_le hm
  have hcl := tileCount_mul_le hn
  rw [ElementType.equals]
  split
  · rename_i hcount
    have hzip : (tiles b 2).zip (tiles c 2) =
        (List.range (tileCount b 2)).map fun i => (tile b 2 i, tile c 2 i) := by
      rw [tiles, tiles, ← hcount, List.zip_map']
    have hstep : ∀ a ∈ (tiles b 2).zip (tiles c 2),
        ElementType.equals m n (.scalar wordType) a.1 (.scalar wordType) a.2 =
          .ok ((wordType.field a.1).uncheckedEquals m (wordType.field a.2) n) := by
      intro a ha
      rw [hzip] at ha
      obtain ⟨i, hi, rfl⟩ := List.mem_map.1 ha
      have hi := List.mem_range.1 hi
      exact Field.equals_of_ok (tile_ok hb hi).2 (tile_ok hc (hcount ▸ hi)).2
    rw [Except.foldlM_of_ok hstep, Bool.true_and, hzip]
    congr 1
    rw [Bool.eq_iff_iff, decide_eq_true_iff, pairs, pairs, ← hcount,
      take_eq_take_iff_chunks hbl (hcount ▸ hcl), List.all_eq_true, List.forall_mem_map]
    simp only [List.mem_range]
    exact forall₂_congr fun i hi => uncheckedEquals_tile_iff hm hn hb hc hi (hcount ▸ hi)
  · rename_i hcount
    rw [decide_eq_false]
    intro h
    have hlength := congrArg List.length h
    rw [pairs, pairs, List.length_take_of_le hbl, List.length_take_of_le hcl] at hlength
    omega

theorem length_eq_iff {l k : WordList} (hl : l.count.ok m = true) (hk : k.count.ok n = true)
    (hm : l.buffer.LiesIn m) (hn : k.buffer.LiesIn n) :
    l.length m = k.length n ↔ (l.buffer.bytes m).take 1 = (k.buffer.bytes n).take 1 := by
  have hbytes := Field.uncheckedEquals_block_iff (f := l.count) (g := k.count) (t := .byte)
    (fun e he => by cases he) (fun t => by simp) hl hk rfl rfl rfl rfl (hm.part 0 1) (hn.part 0 1)
  rw [Buffer.bytes_part, Buffer.bytes_part, List.drop_zero, List.drop_zero] at hbytes
  rw [← hbytes]
  exact beq_iff_eq.symm

/-- The bytes of the words that the buffer of a list holds whole. -/
def wholeWords (l : WordList) (m : Memory) : List Byte := pairs (l.words m).storage m

theorem storage_words_bounded (l : WordList) (h : l.buffer.LiesIn m) :
    (l.words m).storage.LiesIn m ∧ (l.words m).storage.size < sizeLimit := by
  have hlim : 512 < sizeLimit := by decide
  cases hok : l.count.ok m with
  | true =>
      have hlt := l.length_lt m
      have hle := l.buffer.size_part_le 1 (l.length m * 2)
      rw [storage_words hok]
      exact ⟨h.part _ _, by omega⟩
  | false =>
      have hnull : (l.words m).storage = .null .any := by
        rw [storage_words_eq, wordsSize, Field.known?_eq_none hok]
        rfl
      rw [hnull]
      refine ⟨?_, Nat.lt_trans (by decide) hlim⟩
      rintro r ⟨⟩

theorem wholeWords_eq {l : WordList} (h : l.count.ok m = true)
    (hs : 1 + l.length m * 2 ≤ l.buffer.size) :
    l.wholeWords m = ((l.buffer.bytes m).drop 1).take (l.length m * 2) := by
  have hsize : (l.buffer.part 1 (l.length m * 2)).size = l.length m * 2 := by
    rw [Buffer.size_part]
    omega
  have hcount : tileCount (l.buffer.part 1 (l.length m * 2)) 2 = l.length m := by
    change (l.buffer.part 1 (l.length m * 2)).size / 2 = _
    omega
  rw [wholeWords, storage_words h, pairs, hcount, Buffer.bytes_part, List.take_take, Nat.min_self]

end WordList

namespace Frame

variable {f g : Frame}

theorem equals_eq (hm : f.buffer.LiesIn m) (hn : g.buffer.LiesIn n) : f.equals m g n =
    if 2 ≤ f.buffer.size ∧ 2 ≤ g.buffer.size then
      .ok (decide ((f.buffer.bytes m).take 2 = (g.buffer.bytes n).take 2 ∧
        f.list.wholeWords m = g.list.wholeWords n))
    else .error (.unreadable .flag 1) := by
  have hstatus := Status.equals_eq (hm.part 0 2) (hn.part 0 2)
  obtain ⟨hf, hfs⟩ := f.list.storage_words_bounded (hm.part 2 (sizeLimit - 1))
  obtain ⟨hg, hgs⟩ := g.list.storage_words_bounded (hn.part 2 (sizeLimit - 1))
  have hwords : (f.list.words m).equals m (g.list.words n) n =
      .ok (decide (f.list.wholeWords m = g.list.wholeWords n)) :=
    WordList.words_equals_eq hf hg hfs hgs
  have hsize : ∀ b : Buffer, 2 ≤ (b.part 0 2).size ↔ 2 ≤ b.size := fun b => by
    rw [Buffer.size_part]
    omega
  simp only [hsize, Buffer.bytes_part, List.drop_zero, List.take_take, Nat.min_self] at hstatus
  have hs : f.status.equals m g.status n = _ := hstatus
  rw [equals, hs]
  split
  · rw [Bool.decide_and]
    cases decide ((f.buffer.bytes m).take 2 = (g.buffer.bytes n).take 2) with
    | false => rfl
    | true => exact hwords.trans (congrArg Except.ok (Bool.true_and _).symm)
  · rfl

theorem bytes_of_ok (hf : f.ok m = true) : f.list.count.ok m = true ∧
    f.size m = some ((3 + f.list.length m * 2 : ℕ) : ℤ) ∧
    3 + f.list.length m * 2 ≤ f.buffer.size ∧
    f.list.wholeWords m = ((f.buffer.bytes m).drop 3).take (f.list.length m * 2) := by
  simp only [ok, isComplete, WordList.ok, Bool.and_eq_true] at hf
  obtain ⟨⟨hcomplete, -⟩, ⟨-, hcount⟩, -⟩ := hf
  have hlt := f.list.length_lt m
  have hlim : 1024 < sizeLimit := by decide
  have hsize : f.size m = some ((3 + f.list.length m * 2 : ℕ) : ℤ) := by
    rw [size_eq hcount]
    congr 2
    omega
  have hle : 3 + f.list.length m * 2 ≤ f.buffer.size := by
    rw [hsize, Buffer.holds, Bool.and_eq_true, Option.any_some, decide_eq_true_eq] at hcomplete
    exact_mod_cast hcomplete.2
  refine ⟨hcount, hsize, hle, ?_⟩
  have hlist : 1 + f.list.length m * 2 ≤ f.list.buffer.size := by
    change _ ≤ (f.buffer.part 2 (sizeLimit - 1)).size
    rw [Buffer.size_part]
    omega
  rw [WordList.wholeWords_eq hcount hlist]
  change (((f.buffer.part 2 (sizeLimit - 1)).bytes m).drop 1).take _ = _
  rw [Buffer.bytes_part, List.drop_take, List.drop_drop, List.take_take, Nat.min_eq_left (by omega)]

theorem take_eq_take_iff_parts {xs ys : List Byte} {c d : ℕ} (hx : 3 + c * 2 ≤ xs.length)
    (hy : 3 + d * 2 ≤ ys.length)
    (hcount : c = d ↔ (xs.drop 2).take 1 = (ys.drop 2).take 1) :
    (xs.take 2 = ys.take 2 ∧ (xs.drop 3).take (c * 2) = (ys.drop 3).take (d * 2)) ↔
      3 + c * 2 = 3 + d * 2 ∧ xs.take (3 + c * 2) = ys.take (3 + d * 2) := by
  constructor
  · rintro ⟨hstatus, hwords⟩
    have hlength := congrArg List.length hwords
    simp only [List.length_take, List.length_drop] at hlength
    obtain rfl : c = d := by omega
    have hbyte := hcount.1 rfl
    have hsplit : ∀ zs : List Byte, zs.take (3 + c * 2) =
        zs.take 2 ++ (zs.drop 2).take 1 ++ (zs.drop 3).take (c * 2) := fun zs => by
      have hthree : zs.take (2 + 1) = zs.take 2 ++ (zs.drop 2).take 1 := List.take_add
      rw [List.take_add, ← hthree]
    exact ⟨rfl, by rw [hsplit, hsplit, hstatus, hbyte, hwords]⟩
  · rintro ⟨hsize, hall⟩
    obtain rfl : c = d := by omega
    constructor
    · have h := congrArg (List.take 2) hall
      rwa [List.take_take, List.take_take, Nat.min_eq_left (by omega)] at h
    · have h := congrArg (List.drop 3) hall
      rwa [List.drop_take, List.drop_take, Nat.add_sub_cancel_left] at h

theorem equals_of_ok (hm : f.buffer.LiesIn m) (hn : g.buffer.LiesIn n) (hf : f.ok m = true)
    (hg : g.ok n = true) : ∃ y z : ℕ, f.size m = some (y : ℤ) ∧ g.size n = some (z : ℤ) ∧
      f.equals m g n =
        .ok (decide (y = z ∧ (f.buffer.bytes m).take y = (g.buffer.bytes n).take z)) := by
  obtain ⟨hfc, hfs, hfl, hfw⟩ := bytes_of_ok hf
  obtain ⟨hgc, hgs, hgl, hgw⟩ := bytes_of_ok hg
  refine ⟨_, _, hfs, hgs, ?_⟩
  rw [equals_eq hm hn, if_pos (by omega), hfw, hgw]
  congr 1
  rw [decide_eq_decide]
  refine take_eq_take_iff_parts (by rwa [Buffer.length_bytes hm]) (by rwa [Buffer.length_bytes hn]) ?_
  have hlim : 1 ≤ sizeLimit - 1 := by decide
  have hcount := WordList.length_eq_iff hfc hgc (hm.part 2 (sizeLimit - 1)) (hn.part 2 (sizeLimit - 1))
  have hbytes : ∀ (h : Frame) (m : Memory), (h.list.buffer.bytes m).take 1 =
      ((h.buffer.bytes m).drop 2).take 1 := fun h m => by
    change ((h.buffer.part 2 (sizeLimit - 1)).bytes m).take 1 = _
    rw [Buffer.bytes_part, List.take_take, Nat.min_eq_left hlim]
  rwa [hbytes, hbytes] at hcount

theorem equals_of_count_ne (hm : f.buffer.LiesIn m) (hn : g.buffer.LiesIn n) (hf : f.ok m = true)
    (hg : g.ok n = true) (h : f.list.count.read m ≠ g.list.count.read n) :
    f.equals m g n = .ok false := by
  obtain ⟨hfc, hfs, -⟩ := bytes_of_ok hf
  obtain ⟨hgc, hgs, -⟩ := bytes_of_ok hg
  obtain ⟨y, z, hy, hz, heq⟩ := equals_of_ok hm hn hf hg
  have hlength : f.list.length m ≠ g.list.length n := fun hl => h (by
    rw [Field.read_eq hfc, Field.read_eq hgc]
    exact congrArg Except.ok hl)
  have hy' : y = 3 + f.list.length m * 2 := by exact_mod_cast Option.some.inj (hy.symm.trans hfs)
  have hz' : z = 3 + g.list.length n * 2 := by exact_mod_cast Option.some.inj (hz.symm.trans hgs)
  rw [heq, decide_eq_false]
  rintro ⟨rfl, -⟩
  omega

/-- A comparison gives an answer as soon as both frames have their status, and the answer is about
the status and the words that are there. Of frames that are ok it is about all bytes. -/
theorem equality_by_bytes (hm : f.buffer.LiesIn m) (hn : g.buffer.LiesIn n) :
    (f.equals m g n =
      if 2 ≤ f.buffer.size ∧ 2 ≤ g.buffer.size then
        .ok (decide ((f.buffer.bytes m).take 2 = (g.buffer.bytes n).take 2 ∧
          f.list.wholeWords m = g.list.wholeWords n))
      else .error (.unreadable .flag 1)) ∧
    (f.ok m = true → g.ok n = true →
      (∃ y z : ℕ, f.size m = some (y : ℤ) ∧ g.size n = some (z : ℤ) ∧ f.equals m g n =
        .ok (decide (y = z ∧ (f.buffer.bytes m).take y = (g.buffer.bytes n).take z))) ∧
      (f.list.count.read m ≠ g.list.count.read n → f.equals m g n = .ok false)) :=
  ⟨equals_eq hm hn, fun hf hg => ⟨equals_of_ok hm hn hf hg, equals_of_count_ne hm hn hf hg⟩⟩

/-- A frame of one word, compared with the same frame in a longer buffer. -/
theorem equality_by_bytes_of_one_word :
    let f : Frame := ⟨.ofRegion ⟨0, 5⟩⟩
    let g : Frame := ⟨.ofRegion ⟨1, 7⟩⟩
    let m : Memory := [0x9f, 0x03, 0x01, 0x00, 0x07]
    let n : Memory := [0x55, 0x9f, 0x03, 0x01, 0x00, 0x07, 0x66, 0x77]
    f.ok m = true ∧ g.ok n = true ∧ f.size m = some 5 ∧ g.size n = some 5 ∧
      f.equals m g n = .ok true := by
  intro f g m n
  have hf : f.ok m = true := by decide
  have hg : g.ok n = true := by decide
  have hsize : f.size m = some 5 := by decide
  have hsize' : g.size n = some 5 := by decide
  obtain ⟨⟨y, z, hy, hz, heq⟩, -⟩ := (equality_by_bytes (f := f) (g := g) (m := m) (n := n)
    (by rintro r ⟨⟩; decide) (by rintro r ⟨⟩; decide)).2 hf hg
  obtain rfl : y = 5 := by exact_mod_cast Option.some.inj (hy.symm.trans hsize)
  obtain rfl : z = 5 := by exact_mod_cast Option.some.inj (hz.symm.trans hsize')
  exact ⟨hf, hg, hsize, hsize', heq.trans (congrArg Except.ok (by decide))⟩

/-- A frame that counts two words but has only one in its buffer is equal to a frame of this one. -/
theorem equality_of_truncated_frame :
    let f : Frame := ⟨.ofRegion ⟨0, 5⟩⟩
    let m : Memory := [0x00, 0x01, 0x02, 0x00, 0x07]
    let n : Memory := [0x00, 0x01, 0x01, 0x00, 0x07]
    f.ok m = false ∧ f.list.count.read m = .ok 2 ∧ f.list.count.read n = .ok 1 ∧
      f.equals m f n = .ok true := by
  intro f m n
  have hm : f.buffer.LiesIn m := by
    rintro r ⟨⟩
    decide
  have hn : f.buffer.LiesIn n := by
    rintro r ⟨⟩
    decide
  refine ⟨by decide, (Field.read_eq (by decide)).trans (congrArg Except.ok (by decide)),
    (Field.read_eq (by decide)).trans (congrArg Except.ok (by decide)), ?_⟩
  rw [equals_eq hm hn, if_pos (by decide)]
  exact congrArg Except.ok (by decide)

end Frame

end Packed
