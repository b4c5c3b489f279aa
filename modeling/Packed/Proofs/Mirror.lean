import Mathlib.Data.List.Forall2
import Mathlib.Data.List.Infix
import Packed.Array.Basic
import Packed.Proofs.Field
import Packed.Proofs.NestedWindow
import Packed.Proofs.UncheckedAccess

namespace Packed

namespace Buffer

variable {b c : Buffer} {m n : Memory} {z o k : Nat}

/-- Two buffers, each in a memory of its own, that hold the same bytes. -/
structure Mirrors (b : Buffer) (m : Memory) (c : Buffer) (n : Memory) : Prop where
  ok : c.ok = b.ok
  bytes : c.bytes n = b.bytes m
  lies : b.LiesIn m
  lies' : c.LiesIn n

/-- Two buffers that hold the same bytes up to the size `z`, and may go on differently. -/
structure Shares (z : Nat) (b : Buffer) (m : Memory) (c : Buffer) (n : Memory) : Prop where
  pos : 0 < z
  le : z ≤ b.size
  le' : z ≤ c.size
  bytes : (c.bytes n).take z = (b.bytes m).take z
  lies : b.LiesIn m
  lies' : c.LiesIn n

theorem ok_of_size_pos (h : 0 < b.size) : b.ok = true := by
  rw [size] at h
  rw [ok]
  cases hr : b.region with
  | none => simp [hr] at h
  | some r => rfl

theorem ok_part (b : Buffer) (o k : Nat) : (b.part o k).ok = b.ok := by
  rw [ok, ok, part, Option.isSome_map]

theorem size_part (b : Buffer) (o k : Nat) : (b.part o k).size = min k (b.size - min o b.size) := by
  rw [size, size, part]
  cases b.region with
  | none => simp
  | some r => rfl

theorem bytes_part (b : Buffer) (o k : Nat) (m : Memory) :
    (b.part o k).bytes m = ((b.bytes m).drop o).take k := by
  rw [bytes, bytes, part]
  cases b.region with
  | none => simp
  | some r =>
      simp only [Option.map_some, Option.elim_some, Region.part, Memory.read]
      rw [List.drop_take, List.drop_drop, List.take_take]
      by_cases ho : o ≤ r.size
      · rw [Nat.min_eq_left ho]
      · simp [Nat.sub_eq_zero_of_le (Nat.le_of_not_le ho), Nat.min_eq_right (Nat.le_of_not_le ho)]

theorem Mirrors.size (h : b.Mirrors m c n) : c.size = b.size := by
  rw [← length_bytes h.lies, ← length_bytes h.lies', h.bytes]

theorem Mirrors.part (h : b.Mirrors m c n) (o k : Nat) :
    (b.part o k).Mirrors m (c.part o k) n where
  ok := by rw [ok_part, ok_part, h.ok]
  bytes := by rw [bytes_part, bytes_part, h.bytes]
  lies := h.lies.part o k
  lies' := h.lies'.part o k

theorem mirrors_null (t : Alignment) (m n : Memory) :
    (Buffer.null t).Mirrors m (Buffer.null t) n :=
  ⟨rfl, rfl, nofun, nofun⟩

theorem Shares.part (h : Shares z b m c n) (hk : o + k ≤ z) :
    (b.part o k).Mirrors m (c.part o k) n where
  ok := by
    have hb := ok_of_size_pos (Nat.lt_of_lt_of_le h.pos h.le)
    have hc := ok_of_size_pos (Nat.lt_of_lt_of_le h.pos h.le')
    rw [ok_part, ok_part, hb, hc]
  bytes := by
    have hcut : ∀ l : List Byte, (l.drop o).take k = ((l.take z).drop o).take k := fun l => by
      rw [List.drop_take, List.take_take, Nat.min_eq_left (by omega)]
    rw [bytes_part, bytes_part, hcut, h.bytes, ← hcut]
  lies := h.lies.part o k
  lies' := h.lies'.part o k

theorem Shares.rest (h : Shares z b m c n) (ho : o < z) (hk : z - o ≤ k) :
    Shares (z - o) (b.part o k) m (c.part o k) n where
  pos := by omega
  le := by
    have hle := h.le
    rw [size_part]
    omega
  le' := by
    have hle := h.le'
    rw [size_part]
    omega
  bytes := by
    have hcut : ∀ l : List Byte, ((l.drop o).take k).take (z - o) = (l.take z).drop o := fun l => by
      rw [List.take_take, Nat.min_eq_left hk, List.drop_take]
    rw [bytes_part, bytes_part, hcut, hcut, h.bytes]
  lies := h.lies.part o k
  lies' := h.lies'.part o k

theorem Mirrors.load (h : b.Mirrors m c n) (e : Endian) {k : Nat} (hk : k ≤ 8) :
    c.load e (8 * k) n = b.load e (8 * k) m := by
  rw [load_eq_padded h.lies hk, load_eq_padded h.lies' hk, padded, padded, h.bytes]

end Buffer

theorem Block.ok_iff {f : BlockFormat} {b : Buffer} :
    (Block.mk f b).ok = true ↔ b.size * 8 = f.bits := by
  have hpos := f.bits_pos
  rw [ok, Bool.and_eq_true, beq_iff_eq]
  refine ⟨And.right, fun h => ⟨Buffer.ok_of_size_pos ?_, h⟩⟩
  change b.size * 8 = f.bits at h
  change 0 < b.size
  omega

theorem Block.load_mirrors {b c : Buffer} {m n : Memory} (h : b.Mirrors m c n) (f : BlockFormat) :
    (Block.mk f c).load n = (Block.mk f b).load m := by
  have hbits : f.bits = 8 * (f.bits / 8) := by
    have hmod := f.bits_mod
    omega
  change c.load f.order.loads f.bits n = b.load f.order.loads f.bits m
  rw [hbits]
  refine h.load _ ?_
  have hle := f.bits_le
  omega

namespace BitStorage

variable {m n : Memory} {s t : BitStorage}

inductive Mirrors (m n : Memory) : BitStorage → BitStorage → Prop
  | block (f : BlockFormat) {b c : Buffer} (h : b.Mirrors m c n) :
      Mirrors m n (.block ⟨f, b⟩) (.block ⟨f, c⟩)
  | window (f : BlockFormat) (offset size : Byte) (valid : Bool) {b c : Buffer}
      (h : b.Mirrors m c n) :
      Mirrors m n (.window ⟨⟨f, b⟩, offset, size, valid⟩) (.window ⟨⟨f, c⟩, offset, size, valid⟩)

theorem Mirrors.ok (h : Mirrors m n s t) : t.ok = s.ok := by
  cases h with
  | block f h | window f _ _ _ h =>
      simp only [BitStorage.ok, Window.ok, Block.ok, Block.bits, h.ok, h.size]

theorem Mirrors.size (h : Mirrors m n s t) : t.size = s.size := by
  cases h with
  | block | window => rfl

theorem Mirrors.load (h : Mirrors m n s t) : t.load n = s.load m := by
  cases h with
  | block f h => exact Block.load_mirrors h f
  | window f _ _ _ h => simp only [BitStorage.load, Window.load, Block.load_mirrors h f]

theorem Mirrors.part (h : Mirrors m n s t) (offset size : Nat) :
    Mirrors m n (.window (s.part offset size)) (.window (t.part offset size)) := by
  cases h with
  | block f h | window f _ _ _ h => exact .window f _ _ _ h

theorem Mirrors.nest (h : Mirrors m n s t) (cuts : List (Nat × Nat)) :
    Mirrors m n (s.nest cuts) (t.nest cuts) := by
  induction cuts generalizing s t with
  | nil => exact h
  | cons cut cuts ih => exact ih (h.part cut.1 cut.2)

end BitStorage

structure Field.Alike {k : Kind} (f : Field k) (m : Memory) (g : Field k) (n : Memory) : Prop where
  isComplete : g.isComplete = f.isComplete
  ok : g.ok n = f.ok m
  read : g.read n = f.read m

theorem Field.alike_of_mirrors {k : Kind} {m n : Memory} {s t : BitStorage}
    (h : BitStorage.Mirrors m n s t) (width : Nat) (ha : k.Admits width) (check : k.Value → Bool) :
    Field.Alike ⟨width, ha, check, s⟩ m ⟨width, ha, check, t⟩ n := by
  have hc : Field.isComplete ⟨width, ha, check, t⟩ = Field.isComplete ⟨width, ha, check, s⟩ := by
    simp only [Field.isComplete, h.ok, h.size]
  have hr : Field.uncheckedRead ⟨width, ha, check, t⟩ n =
      Field.uncheckedRead ⟨width, ha, check, s⟩ m := by
    simp only [Field.uncheckedRead, h.load]
  have hok : Field.ok ⟨width, ha, check, t⟩ n = Field.ok ⟨width, ha, check, s⟩ m := by
    simp only [Field.ok, hc, hr, h.load]
  exact ⟨hc, hok, by rw [Field.read, Field.read, hok, hr]⟩

structure View.Alike (v : View) (m : Memory) (w : View) (n : Memory) : Prop where
  isAggregate : w.isAggregate = v.isAggregate
  isComplete : w.isComplete n = v.isComplete m
  ok : w.ok n = v.ok m
  text : ∀ o, w.text o n = v.text o m

theorem Field.Alike.view {k : Kind} {f g : Field k} {m n : Memory} (h : f.Alike m g n) :
    f.view.Alike m g.view n where
  isAggregate := rfl
  isComplete := h.isComplete
  ok := h.ok
  text o := by
    change (g.read n).map _ = (f.read m).map _
    rw [h.read]

structure Member.Alike (m n : Memory) (x y : Member) : Prop where
  name : y.name = x.name
  presence : y.presence = x.presence
  view : x.view.Alike m y.view n

namespace View

variable {m n : Memory}

theorem Alike.isHidden {v w : View} (h : v.Alike m w n) (aggregate : Bool) (o : TextOptions) :
    w.isHidden aggregate o n = v.isHidden aggregate o m := by
  rw [View.isHidden, View.isHidden, h.ok]

theorem membersText_congr {xs ys : List Member} (h : List.Forall₂ (Member.Alike m n) xs ys)
    (o : TextOptions) (first : Bool) :
    membersText o n first ys = membersText o m first xs := by
  induction h generalizing first with
  | nil => rfl
  | @cons x y xs ys hxy _ ih =>
      have hp : y.isPresent = x.isPresent := by rw [Member.isPresent, Member.isPresent, hxy.presence]
      simp only [membersText, hp, hxy.name, hxy.view.isAggregate, hxy.view.isHidden, hxy.view.text, ih]

theorem ofMembers_alike {complete ok complete' ok' : Memory → Bool}
    {members members' : Memory → List Member} (hc : complete' n = complete m) (hok : ok' n = ok m)
    (h : List.Forall₂ (Member.Alike m n) (members m) (members' n)) :
    (ofMembers complete ok members).Alike m (ofMembers complete' ok' members') n where
  isAggregate := rfl
  isComplete := hc
  ok := hok
  text o := by
    change structText members' o n = structText members o m
    rw [structText, structText, membersText_congr h]

theorem valuesText_congr {vs ws : List View} (h : List.Forall₂ (fun v w => v.Alike m w n) vs ws)
    (o inner : TextOptions) (aggregate first needLabel : Bool) (i : Nat) :
    valuesText o inner aggregate n first needLabel i ws =
      valuesText o inner aggregate m first needLabel i vs := by
  induction h generalizing first needLabel i with
  | nil => rfl
  | cons hvw _ ih => simp only [valuesText, hvw.isHidden, hvw.text, ih]

theorem sequence_text_congr {vs ws : List View}
    (h : List.Forall₂ (fun v w => v.Alike m w n) vs ws) (o : TextOptions) :
    (sequence ws).text o n = (sequence vs).text o m := by
  have hempty : ws.isEmpty = vs.isEmpty := by cases h <;> rfl
  have hhead : ws.head?.elim false (·.isAggregate) = vs.head?.elim false (·.isAggregate) := by
    cases h with
    | nil => rfl
    | cons hvw _ => exact hvw.isAggregate
  simp only [sequence, sequenceText, hempty, hhead, valuesText_congr h]

end View

theorem map_eq_of_forall₂ {α β γ : Type} {R : α → β → Prop} {xs : List α} {ys : List β}
    (h : List.Forall₂ R xs ys) {f : α → γ} {g : β → γ} (hfg : ∀ x y, R x y → g y = f x) :
    ys.map g = xs.map f := by
  induction h with
  | nil => rfl
  | cons hxy _ ih => rw [List.map_cons, List.map_cons, hfg _ _ hxy, ih]

namespace ElementType

variable {m n : Memory} {b c : Buffer}

def Faithful (m n : Memory) : ElementType Buffer → Prop
  | scalar t => ∀ b c, b.Mirrors m c n → BitStorage.Mirrors m n (t.bits b) (t.bits c)
  | array e _ _ => e.Faithful m n

/-- Storage is read and written as text alike, laid out as elements of the type. -/
structure Mirrored (e : ElementType Buffer) (b : Buffer) (m : Memory) (c : Buffer) (n : Memory) :
    Prop where
  read : e.read c n = e.read b m
  view : (e.view b).Alike m (e.view c) n

theorem tiles_mirror (h : b.Mirrors m c n) (size : Nat) :
    List.Forall₂ (fun b c => Buffer.Mirrors b m c n) (tiles b size) (tiles c size) := by
  have hcount : tileCount c size = tileCount b size := congrArg (· / size) h.size
  rw [tiles, tiles, hcount, List.forall₂_map_left_iff, List.forall₂_map_right_iff]
  exact List.forall₂_same.2 fun i _ => h.part _ _

theorem ok_view (e : ElementType Buffer) (s : Buffer) (m : Memory) : (e.view s).ok m = e.ok s m := by
  cases e <;> rfl

theorem mirrored (e : ElementType Buffer) (he : e.Faithful m n) (h : b.Mirrors m c n) :
    e.Mirrored b m c n := by
  induction e generalizing b c with
  | scalar t =>
      have hf : (t.field b).Alike m (t.field c) n :=
        Field.alike_of_mirrors (he b c h) t.width t.admits t.check
      refine ⟨?_, hf.view⟩
      change ((t.field c).read n).map _ = ((t.field b).read m).map _
      rw [hf.read]
  | array e size pos ih =>
      have htiles := (tiles_mirror h size).imp fun _ _ hbc => ih he hbc
      have hcomplete : (array e size pos).isComplete c = (array e size pos).isComplete b := by
        change (c.ok && c.size % size == 0) = (b.ok && b.size % size == 0)
        rw [h.ok, h.size]
      have hok := map_eq_of_forall₂ htiles (f := fun s => e.ok s m) (g := fun s => e.ok s n)
        fun _ _ hbc => by rw [← ok_view, ← ok_view, hbc.view.ok]
      have hread := map_eq_of_forall₂ htiles (f := fun s => e.read s m) (g := fun s => e.read s n)
        fun _ _ hbc => hbc.read
      have hviews : List.Forall₂ (fun v w => v.Alike m w n) ((tiles b size).map e.view)
          ((tiles c size).map e.view) := by
        rw [List.forall₂_map_left_iff, List.forall₂_map_right_iff]
        exact htiles.imp fun _ _ hbc => hbc.view
      have hall := congrArg (List.all · id) hok
      have hmapM := congrArg (List.mapM id) hread
      simp only [List.all_map, List.mapM_map, Function.id_comp] at hall hmapM
      refine ⟨?_, rfl, hcomplete, ?_, fun o => ?_⟩
      · simp only [read, hmapM]
      · change ((array e size pos).isComplete c && (tiles c size).all _) =
          ((array e size pos).isComplete b && (tiles b size).all _)
        rw [hcomplete, hall]
      · exact View.sequence_text_congr hviews o

end ElementType

structure Spot (k : Kind) where
  offset : Nat
  length : Nat
  format : BlockFormat
  windows : List (Nat × Nat)
  width : Nat
  admits : k.Admits width
  check : k.Value → Bool

namespace Spot

variable {k : Kind} (p : Spot k) {b c : Buffer} {m n : Memory}

def storage (b : Buffer) : BitStorage :=
  p.windows.foldl (fun s w => .window (s.part w.1 w.2))
    (.block ⟨p.format, b.part p.offset p.length⟩)

def field (b : Buffer) : Field k := ⟨p.width, p.admits, p.check, p.storage b⟩

theorem base_storage (b : Buffer) :
    (p.storage b).base = ⟨p.format, b.part p.offset p.length⟩ :=
  BitStorage.base_nest _ p.windows

theorem storage_mirrors
    (h : (b.part p.offset p.length).Mirrors m (c.part p.offset p.length) n) :
    BitStorage.Mirrors m n (p.storage b) (p.storage c) :=
  (BitStorage.Mirrors.block p.format h).nest p.windows

theorem alike (h : (b.part p.offset p.length).Mirrors m (c.part p.offset p.length) n) :
    (p.field b).Alike m (p.field c) n :=
  Field.alike_of_mirrors (p.storage_mirrors h) p.width p.admits p.check

theorem size_of_isComplete (h : (p.field b).isComplete = true) :
    (b.part p.offset p.length).size * 8 = p.format.bits := by
  have hok : (p.storage b).base.ok = true := by
    have hs := Field.storage_ok h
    change (p.storage b).ok = true at hs
    cases hb : p.storage b with
    | block d => rwa [hb] at hs
    | window w =>
        rw [hb] at hs
        exact (Bool.and_eq_true_iff.1 hs).2
  rw [base_storage] at hok
  exact Block.ok_iff.1 hok

theorem part_mirrors (hb : b.LiesIn m) (hc : c.LiesIn n) (hp : b.bytes m <+: c.bytes n)
    (h : (p.field b).isComplete = true)
    (hs : (c.part p.offset p.length).size = (b.part p.offset p.length).size) :
    (b.part p.offset p.length).Mirrors m (c.part p.offset p.length) n where
  ok := by
    have hsize := p.size_of_isComplete h
    have hpos := p.format.bits_pos
    rw [Buffer.ok_of_size_pos (b := b.part _ _) (by omega),
      Buffer.ok_of_size_pos (b := c.part _ _) (by omega)]
  bytes := by
    have hlb := Buffer.length_bytes (hb.part p.offset p.length)
    have hlc := Buffer.length_bytes (hc.part p.offset p.length)
    rw [Buffer.bytes_part] at hlb hlc ⊢
    rw [Buffer.bytes_part]
    have hcut := (hp.drop p.offset).take p.length
    exact (hcut.eq_of_length (by rw [hlb, hlc, hs])).symm
  lies := hb.part _ _
  lies' := hc.part _ _

/-- A field that is complete over some bytes is complete over more of them if it asks for just the
bytes of its block. One that asks for more and was cut short is so only where there are no more. -/
theorem isComplete_iff (hb : b.LiesIn m) (hc : c.LiesIn n) (hp : b.bytes m <+: c.bytes n)
    (h : (p.field b).isComplete = true) :
    (p.field c).isComplete = true ↔ p.length * 8 = p.format.bits ∨ c.size = b.size := by
  have hbits := p.size_of_isComplete h
  have hpos := p.format.bits_pos
  have hle := hp.length_le
  rw [Buffer.length_bytes hb, Buffer.length_bytes hc] at hle
  have hiff : (c.part p.offset p.length).size = (b.part p.offset p.length).size ↔
      p.length * 8 = p.format.bits ∨ c.size = b.size := by
    rw [Buffer.size_part] at hbits
    rw [Buffer.size_part, Buffer.size_part]
    omega
  rw [← hiff]
  constructor
  · intro hcomplete
    have hbits' := p.size_of_isComplete hcomplete
    omega
  · intro hs
    rw [(p.alike (p.part_mirrors hb hc hp h hs)).isComplete, h]

theorem alike_of_prefix (hb : b.LiesIn m) (hc : c.LiesIn n) (hp : b.bytes m <+: c.bytes n)
    (h : (p.field b).isComplete = true) (h' : (p.field c).isComplete = true) :
    (p.field b).Alike m (p.field c) n := by
  have hbits := p.size_of_isComplete h
  have hbits' := p.size_of_isComplete h'
  exact p.alike (p.part_mirrors hb hc hp h (by omega))

end Spot

end Packed
