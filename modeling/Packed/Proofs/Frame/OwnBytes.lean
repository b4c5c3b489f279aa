import Packed.Proofs.Frame.Transfer
import Packed.Proofs.Mirror

namespace Packed

variable {m n : Memory}

/-- What a part of a structure is to a reader: its name, whether it is present, and its value. -/
structure Content where
  name : String
  presence : Option Bool
  value : Except Fault Datum

def Content.within (owner : String) (x : Content) : Content :=
  { x with name := owner ++ "." ++ x.name }

def Field.datum {k : Kind} (f : Field k) (m : Memory) : Except Fault Datum :=
  (f.read m).map (.scalar k)

def Status.contents (s : Status) (m : Memory) : List Content :=
  [⟨"ready", some true, s.ready.datum m⟩, ⟨"mode", some true, s.mode.datum m⟩,
    ⟨"level", some true, s.level.datum m⟩, ⟨"count", some true, s.count.datum m⟩]

def WordList.contents (l : WordList) (m : Memory) : List Content :=
  [⟨"count", some true, l.count.datum m⟩, ⟨"values", some (l.count.ok m), (l.words m).read m⟩]

def Conditional.contents (c : Conditional) (m : Memory) : List Content :=
  [⟨"condition", some true, c.condition.datum m⟩,
    ⟨"payload", c.hasPayload m, (c.payload m).datum m⟩]

def Frame.contents (f : Frame) (m : Memory) : List Content :=
  (f.status.contents m).map (.within "status") ++ (f.list.contents m).map (.within "list")

namespace Layout

def size (b : Buffer) (m : Memory) : Layout → Option Int
  | frame => (Frame.mk b).size m
  | list => (WordList.mk b).size m
  | status => some Status.size
  | conditional => (Conditional.mk b).size m

def contents (b : Buffer) (m : Memory) : Layout → List Content
  | frame => (Frame.mk b).contents m
  | list => (WordList.mk b).contents m
  | status => (Status.ofBuffer b).contents m
  | conditional => (Conditional.mk b).contents m

/-- The structure is the same over two buffers. -/
structure Alike (l : Layout) (b : Buffer) (m : Memory) (c : Buffer) (n : Memory) : Prop where
  size : l.size c n = l.size b m
  contents : l.contents c n = l.contents b m
  view : (l.view b).Alike m (l.view c) n

end Layout

theorem Field.Alike.datum {k : Kind} {f g : Field k} (h : f.Alike m g n) : g.datum n = f.datum m := by
  rw [Field.datum, Field.datum, h.read]

theorem Field.known?_eq_none {f : Field .unsigned} (h : f.ok m = false) : f.known? m = none := by
  rw [Field.known?, h]
  rfl

theorem Field.Alike.known? {f g : Field .unsigned} (h : f.Alike m g n) : g.known? n = f.known? m := by
  have hr := h.read
  rw [Field.known?, Field.known?, h.ok]
  cases hok : f.ok m with
  | false => rfl
  | true =>
      rw [read_eq hok, read_eq (h.ok.trans hok)] at hr
      rw [Except.ok.inj hr]

namespace Buffer

variable {b : Buffer} {z : Nat}

theorem holds_of_le (hpos : 0 < z) (hz : z ≤ b.size) : b.holds (some (z : Int)) = true := by
  simp [holds, ok_of_size_pos (Nat.lt_of_lt_of_le hpos hz), hz]

theorem Shares.holds {c : Buffer} (h : b.Shares z m c n) :
    c.holds (some (z : Int)) = b.holds (some (z : Int)) := by
  rw [holds_of_le h.pos h.le, holds_of_le h.pos h.le']

theorem holds_iff {size : Option Int} (hs : ∀ i, size = some i → ∃ z : Nat, i = z ∧ 0 < z) :
    b.holds size = true ↔ ∃ z : Nat, size = some (z : Int) ∧ z ≤ b.size := by
  cases size with
  | none => simp [holds]
  | some i =>
      obtain ⟨z, rfl, hpos⟩ := hs i rfl
      constructor
      · intro h
        rw [holds, Bool.and_eq_true, Option.any_some, decide_eq_true_eq] at h
        exact ⟨z, rfl, by exact_mod_cast h.2⟩
      · rintro ⟨y, hy, hle⟩
        rw [hy]
        have hyz : z = y := by exact_mod_cast Option.some.inj hy
        exact holds_of_le (by omega) hle

end Buffer

def byteSpot (offset : Nat) : Spot .unsigned :=
  ⟨offset, 1, .byte, [], 8, Kind.unsigned_admits_byte, fun _ => true⟩

theorem byteField_alike {b c : Buffer} {offset : Nat}
    (h : (b.part offset 1).Mirrors m (c.part offset 1) n) :
    (byteField b offset).Alike m (byteField c offset) n :=
  (byteSpot offset).alike h

theorem byteField_ok_iff {b : Buffer} {offset : Nat} :
    (byteField b offset).ok m = true ↔ offset < b.size := by
  have hok : (byteField b offset).ok m = true ↔ (Block.mk .byte (b.part offset 1)).ok = true := by
    simp [Field.ok, Field.isComplete, byteField, BitStorage.ok, BitStorage.size, Block.bits,
      BlockFormat.byte, Kind.wellFormed]
  rw [hok, Block.ok_iff, Buffer.size_part]
  change _ * 8 = 8 ↔ _
  omega

theorem wordType_ok_iff {b : Buffer} : (wordType.field b).ok m = true ↔ b.size = 2 := by
  have hok : (wordType.field b).ok m = true ↔ (Block.mk .bigPair b).ok = true := by
    simp [Field.ok, Field.isComplete, ScalarType.field, wordType, BitStorage.ok, BitStorage.size,
      Block.bits, BlockFormat.bigPair, Kind.wellFormed]
  rw [hok, Block.ok_iff]
  change b.size * 8 = 16 ↔ _
  omega

namespace Status

variable {b c : Buffer}

theorem isComplete_iff : (ofBuffer b).isComplete = true ↔ 2 ≤ b.size := by
  change (Block.mk .bigPair (b.part 0 2)).ok = true ↔ _
  rw [Block.ok_iff, Buffer.size_part]
  change _ * 8 = 16 ↔ _
  omega

theorem ok_eq_isComplete (b : Buffer) (m : Memory) : (ofBuffer b).ok m = (ofBuffer b).isComplete := by
  have hbits : (ofBuffer b).block.bits = 16 := rfl
  simp [ok, isComplete, ready, mode, level, count, bits, Field.ok, Field.isComplete, BitStorage.ok,
    BitStorage.size, Window.ok, Window.ofBlock, hbits, Kind.wellFormed]

def spot {k : Kind} (offset size : Nat) (ha : k.Admits size) : Spot k :=
  ⟨0, 2, .bigPair, [(offset, size)], size, ha, fun _ => true⟩

theorem alike (h : (b.part 0 2).Mirrors m (c.part 0 2) n) : Layout.status.Alike b m c n := by
  have hready : (ofBuffer b).ready.Alike m (ofBuffer c).ready n :=
    (spot 0 1 Kind.admits_flag).alike h
  have hmode : (ofBuffer b).mode.Alike m (ofBuffer c).mode n := (spot 1 3 admits_mode).alike h
  have hlevel : (ofBuffer b).level.Alike m (ofBuffer c).level n := (spot 4 4 admits_level).alike h
  have hcount : (ofBuffer b).count.Alike m (ofBuffer c).count n :=
    (spot 8 8 Kind.unsigned_admits_byte).alike h
  have hcomplete : (ofBuffer c).isComplete = (ofBuffer b).isComplete :=
    (BitStorage.Mirrors.block .bigPair h).ok
  refine ⟨rfl, ?_, View.ofMembers_alike hcomplete ?_ ?_⟩
  · simp only [Layout.contents, contents, hready.datum, hmode.datum, hlevel.datum, hcount.datum]
  · rw [ok_eq_isComplete, ok_eq_isComplete, hcomplete]
  · exact .cons ⟨rfl, rfl, hready.view⟩ (.cons ⟨rfl, rfl, hmode.view⟩
      (.cons ⟨rfl, rfl, hlevel.view⟩ (.cons ⟨rfl, rfl, hcount.view⟩ .nil)))

end Status

namespace WordList

variable {l k : WordList} {z : Nat}

theorem count_ok_of_size {i : Int} (h : l.size m = some i) : l.count.ok m = true := by
  cases hok : l.count.ok m with
  | true => rfl
  | false =>
      rw [size, wordsSize, Field.known?_eq_none hok] at h
      cases h

theorem eq_of_size (h : l.size m = some (z : Int)) : z = 1 + l.length m * 2 := by
  have hs := size_eq (count_ok_of_size h)
  rw [h] at hs
  exact_mod_cast Option.some.inj hs

theorem words_ok (h : l.count.ok m = true) (hs : 1 + l.length m * 2 ≤ l.buffer.size) :
    (l.words m).ok m = true := by
  have hok : (l.buffer.part 1 (l.length m * 2)).ok = true := by
    rw [Buffer.ok_part]
    exact Buffer.ok_of_size_pos (by omega)
  have hsize : (l.buffer.part 1 (l.length m * 2)).size = l.length m * 2 := by
    rw [Buffer.size_part]
    omega
  have hstorage := storage_words h
  have htiles : ∀ b ∈ tiles (l.words m).storage 2, (wordType.field b).ok m = true := by
    intro b hb
    obtain ⟨i, hi, rfl⟩ := List.mem_map.1 hb
    have hbound := tile_bound (List.mem_range.1 hi)
    have hle : saturate (i * 2) ≤ i * 2 := Nat.min_le_left _ _
    rw [hstorage] at hbound ⊢
    change i * 2 + 2 ≤ (l.buffer.part 1 (l.length m * 2)).size at hbound
    rw [wordType_ok_iff]
    change ((l.buffer.part 1 (l.length m * 2)).part (saturate (i * 2)) 2).size = 2
    rw [Buffer.size_part]
    omega
  change ((l.words m).storage.ok && (l.words m).storage.size % 2 == 0 && (tiles _ 2).all _) = true
  rw [hstorage, hok, hsize, Bool.and_eq_true]
  refine ⟨by simp, List.all_eq_true.2 fun b hb => htiles b ?_⟩
  rwa [hstorage]

theorem ok_of_size (h : l.size m = some (z : Int)) (hz : z ≤ l.buffer.size) :
    l.ok m = true := by
  have hc := count_ok_of_size h
  have hlen := eq_of_size h
  have hwords := words_ok hc (by omega)
  rw [ok, isComplete, h, Buffer.holds_of_le (by omega) hz, hc, hwords]
  rfl

theorem alike (h : l.buffer.Shares z m k.buffer n) (hz : l.size m = some (z : Int)) :
    Layout.list.Alike l.buffer m k.buffer n := by
  have hc := count_ok_of_size hz
  have hlen := eq_of_size hz
  have hcount : l.count.Alike m k.count n := byteField_alike (h.part (by omega))
  have hwordsSize : k.wordsSize n = l.wordsSize m := by
    rw [wordsSize, wordsSize, hcount.known?]
  have hsize : k.size n = l.size m := by rw [size, size, hwordsSize]
  have hstorage : (l.words m).storage.Mirrors m (k.words n).storage n := by
    rw [storage_words_eq, storage_words_eq, hwordsSize, wordsSize_eq hc]
    exact h.part (by omega)
  have hwords := (l.words m).type.mirrored (fun _ _ hbc => .block .bigPair hbc) hstorage
  have hread : (k.words n).read n = (l.words m).read m := hwords.read
  have hview : (l.words m).view.Alike m (k.words n).view n := hwords.view
  have hcomplete : k.isComplete n = l.isComplete m := by
    rw [isComplete, isComplete, hsize, hz, h.holds]
  have hok : k.ok n = l.ok m := by rw [ok_of_size (hsize.trans hz) h.le', ok_of_size hz h.le]
  refine ⟨hsize, ?_, View.ofMembers_alike hcomplete hok ?_⟩
  · change k.contents n = l.contents m
    rw [contents, contents, hcount.datum, hcount.ok, hread]
  · exact .cons ⟨rfl, rfl, hcount.view⟩ (.cons ⟨rfl, congrArg some hcount.ok, hview⟩ .nil)

end WordList

namespace Frame

variable {f g : Frame} {z : Nat}

theorem count_ok_of_size {i : Int} (h : f.size m = some i) : f.list.count.ok m = true := by
  cases hs : f.list.size m with
  | none =>
      rw [size, hs] at h
      cases h
  | some j => exact WordList.count_ok_of_size hs

theorem list_size_of_size (h : f.size m = some (z : Int)) :
    f.list.size m = some ((z - 2 : Nat) : Int) ∧ 3 ≤ z ∧ z < sizeLimit := by
  have hc := count_ok_of_size h
  have hlt := f.list.length_lt m
  have hlim := sizeLimit_eq
  have hs := size_eq hc
  rw [h] at hs
  have hz : z = 2 + (1 + f.list.length m * 2) := by exact_mod_cast Option.some.inj hs
  rw [WordList.size_eq hc]
  refine ⟨?_, by omega, by omega⟩
  congr 2
  omega

theorem ok_of_size (h : f.size m = some (z : Int)) (hz : z ≤ f.buffer.size) : f.ok m = true := by
  obtain ⟨hlist, hge, hlt⟩ := list_size_of_size h
  have hstatus : f.status.ok m = true := by
    have hs := f.buffer.size_part 0 2
    change (Status.ofBuffer (f.buffer.part 0 2)).ok m = true
    rw [Status.ok_eq_isComplete, Status.isComplete_iff]
    omega
  have hrest : f.list.ok m = true := by
    have hs := f.buffer.size_part 2 (sizeLimit - 1)
    refine WordList.ok_of_size hlist ?_
    change z - 2 ≤ (f.buffer.part 2 (sizeLimit - 1)).size
    omega
  rw [ok, isComplete, h, Buffer.holds_of_le (by omega) hz, hstatus, hrest]
  rfl

theorem alike (h : f.buffer.Shares z m g.buffer n) (hz : f.size m = some (z : Int)) :
    Layout.frame.Alike f.buffer m g.buffer n := by
  obtain ⟨hlistSize, hge, hlt⟩ := list_size_of_size hz
  have hstatus := Status.alike ((h.part (o := 0) (k := 2) (by omega)).part 0 2)
  have hlist := WordList.alike (l := f.list) (k := g.list)
    (h.rest (o := 2) (k := sizeLimit - 1) (by omega) (by omega)) hlistSize
  have hsize : g.size n = f.size m := by
    have hs : g.list.size n = f.list.size m := hlist.size
    rw [size, size, hs]
  have hcomplete : g.isComplete n = f.isComplete m := by
    rw [isComplete, isComplete, hsize, hz, h.holds]
  have hok : g.ok n = f.ok m := by rw [ok_of_size (hsize.trans hz) h.le', ok_of_size hz h.le]
  refine ⟨hsize, ?_, View.ofMembers_alike hcomplete hok ?_⟩
  · have hs : g.status.contents n = f.status.contents m := hstatus.contents
    have hl : g.list.contents n = f.list.contents m := hlist.contents
    change g.contents n = f.contents m
    rw [contents, contents, hs, hl]
  · exact .cons ⟨rfl, rfl, hstatus.view⟩ (.cons ⟨rfl, rfl, hlist.view⟩ .nil)

end Frame

namespace Conditional

variable {c d : Conditional} {z : Nat}

theorem cases_of_size {i : Int} (h : c.size m = some i) : c.condition.ok m = true ∧
    (c.hasPayload m = some true ∧ i = 2 ∨ c.hasPayload m = some false ∧ i = 1) := by
  have hok : c.condition.ok m = true := by
    cases hok : c.condition.ok m with
    | true => rfl
    | false =>
        rw [size, hasPayload, Field.known?_eq_none hok] at h
        cases h
  refine ⟨hok, ?_⟩
  rw [size] at h
  cases hp : c.hasPayload m with
  | none =>
      rw [hp] at h
      cases h
  | some present =>
      rw [hp] at h
      cases present with
      | true =>
          have hi : some (2 : Int) = some i := h
          exact .inl ⟨rfl, (Option.some.inj hi).symm⟩
      | false =>
          have hi : some (1 : Int) = some i := h
          exact .inr ⟨rfl, (Option.some.inj hi).symm⟩

theorem payload_of_present (h : c.hasPayload m = some true) :
    c.payload m = byteField c.buffer 1 := by
  rw [payload, h]
  rfl

theorem payload_of_absent (h : c.hasPayload m = some false) :
    c.payload m = byteField (.null .any) 0 := by
  rw [payload, h]
  rfl

theorem ok_of_size (h : c.size m = some (z : Int)) (hz : z ≤ c.buffer.size) : c.ok m = true := by
  obtain ⟨hcondition, ⟨hp, hz'⟩ | ⟨hp, hz'⟩⟩ := cases_of_size h
  · have hpayload : (c.payload m).ok m = true := by
      rw [payload_of_present hp, byteField_ok_iff]
      omega
    rw [ok, isComplete, h, Buffer.holds_of_le (by omega) hz, hcondition, hpayload, Bool.or_true]
    rfl
  · rw [ok, isComplete, h, Buffer.holds_of_le (by omega) hz, hcondition, hp]
    rfl

theorem alike (h : c.buffer.Shares z m d.buffer n) (hz : c.size m = some (z : Int)) :
    Layout.conditional.Alike c.buffer m d.buffer n := by
  obtain ⟨-, hcases⟩ := cases_of_size hz
  have hcondition : c.condition.Alike m d.condition n := byteField_alike (h.part (by omega))
  have hpresence : d.hasPayload n = c.hasPayload m := by
    rw [hasPayload, hasPayload, hcondition.known?]
  have hsize : d.size n = c.size m := by rw [size, size, hpresence]
  have hpayload : (c.payload m).Alike m (d.payload n) n := by
    obtain ⟨hp, hz'⟩ | ⟨hp, -⟩ := hcases
    · rw [payload_of_present hp, payload_of_present (hpresence.trans hp)]
      exact byteField_alike (h.part (by omega))
    · rw [payload_of_absent hp, payload_of_absent (hpresence.trans hp)]
      exact byteField_alike (Buffer.mirrors_null .any m n)
  have hcomplete : d.isComplete n = c.isComplete m := by
    rw [isComplete, isComplete, hsize, hz, h.holds]
  have hok : d.ok n = c.ok m := by rw [ok_of_size (hsize.trans hz) h.le', ok_of_size hz h.le]
  refine ⟨hsize, ?_, View.ofMembers_alike hcomplete hok ?_⟩
  · change d.contents n = c.contents m
    rw [contents, contents, hcondition.datum, hpresence, hpayload.datum]
  · exact .cons ⟨rfl, rfl, hcondition.view⟩ (.cons ⟨rfl, hpresence, hpayload.view⟩ .nil)

end Conditional

namespace Layout

variable {b c : Buffer} {l : Layout} {z : Nat}

theorem exists_size {i : Int} (h : l.size b m = some i) : ∃ z : Nat, i = z ∧ 0 < z := by
  cases l with
  | frame =>
      have hs := Frame.size_eq (Frame.count_ok_of_size (f := ⟨b⟩) h)
      exact ⟨_, Option.some.inj (h.symm.trans hs), by omega⟩
  | list =>
      have hs := WordList.size_eq (WordList.count_ok_of_size (l := ⟨b⟩) h)
      exact ⟨_, Option.some.inj (h.symm.trans hs), by omega⟩
  | status => exact ⟨2, (Option.some.inj h).symm, Nat.two_pos⟩
  | conditional =>
      obtain ⟨-, ⟨-, hi⟩ | ⟨-, hi⟩⟩ := Conditional.cases_of_size (c := ⟨b⟩) h
      · exact ⟨2, hi, Nat.two_pos⟩
      · exact ⟨1, hi, Nat.one_pos⟩

theorem isComplete_iff : (l.view b).isComplete m = true ↔
    ∃ z : Nat, l.size b m = some (z : Int) ∧ z ≤ b.size := by
  have hs : ∀ i, l.size b m = some i → ∃ z : Nat, i = z ∧ 0 < z := fun i => exists_size
  cases l with
  | frame => exact Buffer.holds_iff hs
  | list => exact Buffer.holds_iff hs
  | status =>
      refine Status.isComplete_iff.trans ⟨fun h => ⟨2, rfl, h⟩, ?_⟩
      rintro ⟨z, hz, hle⟩
      have hz' : (2 : Int) = z := Option.some.inj hz
      omega
  | conditional => exact Buffer.holds_iff hs

theorem ok_of_size (h : l.size b m = some (z : Int)) (hz : z ≤ b.size) :
    (l.view b).ok m = true := by
  cases l with
  | frame => exact Frame.ok_of_size (f := ⟨b⟩) h hz
  | list => exact WordList.ok_of_size (l := ⟨b⟩) h hz
  | status => exact (Status.ok_eq_isComplete b m).trans (isComplete_iff (l := .status).2 ⟨z, h, hz⟩)
  | conditional => exact Conditional.ok_of_size (c := ⟨b⟩) h hz

theorem isComplete_of_ok (h : (l.view b).ok m = true) : (l.view b).isComplete m = true := by
  cases l with
  | frame => exact (Bool.and_eq_true_iff.1 (Bool.and_eq_true_iff.1 h).1).1
  | list => exact (Bool.and_eq_true_iff.1 (Bool.and_eq_true_iff.1 h).1).1
  | status => exact (Status.ok_eq_isComplete b m).symm.trans h
  | conditional => exact (Bool.and_eq_true_iff.1 (Bool.and_eq_true_iff.1 h).1).1

theorem ok_iff_isComplete : (l.view b).ok m = true ↔ (l.view b).isComplete m = true := by
  refine ⟨isComplete_of_ok, fun h => ?_⟩
  obtain ⟨z, hs, hz⟩ := isComplete_iff.1 h
  exact ok_of_size hs hz

theorem alike (h : b.Shares z m c n) (hz : l.size b m = some (z : Int)) : l.Alike b m c n := by
  cases l with
  | frame => exact Frame.alike (f := ⟨b⟩) (g := ⟨c⟩) h hz
  | list => exact WordList.alike (l := ⟨b⟩) (k := ⟨c⟩) h hz
  | status =>
      have hz' : (2 : Int) = z := Option.some.inj hz
      exact Status.alike (h.part (by omega))
  | conditional => exact Conditional.alike (c := ⟨b⟩) (d := ⟨c⟩) h hz

end Layout

/-- What is complete over some bytes is complete over more of them and is the same there. Of a
structure only the bytes that it counts as its own have to stay. A field has to ask for no more
bytes than its block has: one that asks for more, and was complete only because it was cut short,
is so over no longer buffer. -/
theorem completeness_monotone {b : Buffer} {m : Memory} (hb : b.LiesIn m) :
    (∀ l : Layout,
      ((l.view b).ok m = true ↔ (l.view b).isComplete m = true) ∧
      ((l.view b).isComplete m = true ↔
        ∃ z : Nat, l.size b m = some (z : Int) ∧ z ≤ b.size) ∧
      ∀ z : Nat, (l.view b).ok m = true → l.size b m = some (z : Int) →
        ∀ (c : Buffer) (n : Memory), c.LiesIn n → (b.bytes m).take z <+: c.bytes n →
          (l.view c).ok n = true ∧ l.size c n = some (z : Int) ∧
          l.contents c n = l.contents b m ∧ ∀ o, (l.view c).text o n = (l.view b).text o m) ∧
    ∀ {k : Kind} (p : Spot k) (c : Buffer) (n : Memory), c.LiesIn n → b.bytes m <+: c.bytes n →
      (p.field b).isComplete = true →
        ((p.field c).isComplete = true ↔ p.length * 8 = p.format.bits ∨ c.size = b.size) ∧
        ((p.field c).isComplete = true →
          (p.field c).ok n = (p.field b).ok m ∧ (p.field c).read n = (p.field b).read m) := by
  refine ⟨fun l => ⟨Layout.ok_iff_isComplete, Layout.isComplete_iff, ?_⟩, ?_⟩
  · intro z hok hz c n hc hp
    have hle : z ≤ b.size := by
      obtain ⟨y, hy, hle⟩ := Layout.isComplete_iff.1 (Layout.isComplete_of_ok hok)
      have hyz : z = y := by exact_mod_cast Option.some.inj (hz.symm.trans hy)
      omega
    have hlen : ((b.bytes m).take z).length = z := by
      rw [List.length_take, Buffer.length_bytes hb, Nat.min_eq_left hle]
    obtain ⟨z', hz', hpos⟩ := Layout.exists_size hz
    have hshares : b.Shares z m c n :=
      { pos := by omega
        le := hle
        le' := by
          have hl := hp.length_le
          rwa [hlen, Buffer.length_bytes hc] at hl
        bytes := by
          have ht := List.prefix_iff_eq_take.1 hp
          rw [hlen] at ht
          exact ht.symm
        lies := hb
        lies' := hc }
    have halike := Layout.alike hshares hz
    exact ⟨halike.view.ok.trans hok, halike.size.trans hz, halike.contents, halike.view.text⟩
  · intro k p c n hc hp h
    refine ⟨p.isComplete_iff hb hc hp h, fun h' => ?_⟩
    have halike := p.alike_of_prefix hb hc hp h h'
    exact ⟨halike.ok, halike.read⟩

/-- A frame of one word, with other bytes behind it at another place, and a byte that is read in a
block of its own size. -/
theorem completeness_monotone_in_five_bytes :
    let b : Buffer := .ofRegion ⟨0, 5⟩
    let c : Buffer := .ofRegion ⟨1, 7⟩
    let m : Memory := [0x9f, 0x03, 1, 0xab, 0xcd]
    let n : Memory := [0, 0x9f, 0x03, 1, 0xab, 0xcd, 8, 9]
    (Layout.frame.view b).ok m = true ∧ Layout.frame.size b m = some 5 ∧
      (Layout.frame.view c).ok n = true ∧ Layout.frame.size c n = some 5 ∧
      Layout.frame.contents c n = Layout.frame.contents b m ∧
      (∀ o, (Layout.frame.view c).text o n = (Layout.frame.view b).text o m) ∧
      ((byteSpot 4).field c).isComplete = true ∧
      ((byteSpot 4).field c).read n = ((byteSpot 4).field b).read m := by
  intro b c m n
  have hb : b.LiesIn m := by
    rintro r ⟨⟩
    decide
  have hc : c.LiesIn n := by
    rintro r ⟨⟩
    decide
  have hok : (Layout.frame.view b).ok m = true := by decide
  have hsize : Layout.frame.size b m = some (5 : Nat) := by decide
  obtain ⟨hlayout, hspot⟩ := completeness_monotone hb
  obtain ⟨h1, h2, h3, h4⟩ := (hlayout .frame).2.2 5 hok hsize c n hc (by decide)
  obtain ⟨hiff, hread⟩ := hspot (byteSpot 4) c n hc (by decide) (by decide)
  have hcomplete := hiff.2 (.inl rfl)
  exact ⟨hok, hsize, h1, h2, h3, h4, hcomplete, (hread hcomplete).2⟩

/-- Two bytes make a field of sixteen bits that asks for four bytes complete. With two bytes more
its part of the buffer has the wrong size. -/
theorem overlong_field_complete_on_prefix_only :
    let p : Spot .unsigned :=
      ⟨0, 4, { order := .little, bits := 16 }, [], 16, Kind.unsigned_admits_pair, fun _ => true⟩
    let b : Buffer := .ofRegion ⟨0, 2⟩
    let c : Buffer := .ofRegion ⟨0, 4⟩
    let m : Memory := [1, 2, 3, 4]
    b.bytes m <+: c.bytes m ∧ (p.field b).ok m = true ∧ (p.field b).read m = .ok (513 : Nat) ∧
      (p.field c).isComplete = false := by
  intro p b c m
  have hok : (p.field b).ok m = true := by decide
  have hread : (p.field b).uncheckedRead m = (513 : Nat) := by decide +kernel
  exact ⟨by decide, hok, by rw [Field.read_eq hok, hread], by decide⟩

end Packed
