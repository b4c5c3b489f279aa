import Packed.ByteStore
import Packed.Proofs.Action
import Packed.Proofs.Alignment
import Packed.Proofs.UncheckedAccess

namespace Packed

theorem Memory.map_range_read {m : Memory} {start n : Nat} (h : start + n ≤ m.length) (e : Endian) :
    (List.range n).map (fun i => m.get (start + e.place n (n - 1 - i))) =
      (e.arrange (m.read ⟨start, n⟩)).reverse := by
  have hlen : (m.read ⟨start, n⟩).length = n := length_read_of_le (r := ⟨start, n⟩) h
  apply List.ext_getElem
  · simp [hlen]
  · intro i hi hi'
    have hin : i < n := by simpa using hi
    have hat : n - 1 - i < n := by omega
    have hget := Endian.getD_arrange e hlen hat
    rw [Memory.getD_read m ⟨start, n⟩ (e.place_lt hat)] at hget
    rw [List.getElem_map, List.getElem_range, List.getElem_reverse, ← hget,
      List.getD_eq_getElem?_getD, List.getElem?_eq_getElem (by simpa [hlen] using hat),
      Option.getD_some]
    simp [hlen]

namespace ByteStore

variable (s : ByteStore) {m : Memory} {e : Endian} {n : Nat}

def loadStep (e : Endian) (n : Nat) (m : Memory) (w : Word) (i : Nat) : Except Fault Word :=
  (s.load (e.place n (n - 1 - i)) m).map fun b => w <<< 8 ||| b.setWidth 64

def loadWord (e : Endian) (n : Nat) (m : Memory) : Except Fault Word :=
  (List.range n).foldlM (s.loadStep e n m) 0

/-- One step of a store: the byte at position `i`. A shift by all the bits of a word overflows. -/
def storeStep (e : Endian) (n : Nat) (w : Word) (i : Nat) : Action Fault Unit := fun m =>
  if 64 ≤ 8 * i then .error .overflow m else s.store (e.place n i) (w.byte i) m

def storeWord (e : Endian) (n : Nat) (w : Word) : Action Fault Unit :=
  (List.range n).forM (s.storeStep e n w)

def loadAlong (path : AccessPath) (e : Endian) (n : Nat) (m : Memory) : Except Fault Word :=
  if s.size < n then .error .outOfBounds
  else if path.isTyped n then path.assertingLoad e m ⟨s.region.start, n⟩
  else s.loadWord e n m

def storeAlong (path : AccessPath) (e : Endian) (n : Nat) (w : Word) : Action Fault Unit := fun m =>
  if s.size < n then .error .outOfBounds m
  else if path.isTyped n then
    match path.assertingStore m ⟨s.region.start, n⟩ e w with
    | .ok m => .ok () m
    | .error fault => .error fault m
  else s.storeWord e n w m

def loadPadded (e : Endian) (n : Nat) (m : Memory) : Except Fault Word :=
  (s.copyOut 0 (min s.size n) m).map fun present =>
    AccessPath.loadBytewise e (present ++ List.replicate (n - present.length) 0)

def storePaddedStep (e : Endian) (n : Nat) (w : Word) (i : Nat) : Action Fault Unit := fun m =>
  if 64 ≤ 8 * i then .error .overflow m
  else if e.place n i < s.size then s.store (e.place n i) (w.byte i) m
  else .ok () m

def storePadded (e : Endian) (n : Nat) (w : Word) : Action Fault Unit :=
  (List.range n).forM (s.storePaddedStep e n w)

variable {s}

theorem loadWord_eq (hl : s.region.start + s.size ≤ m.length) (hn : n ≤ s.size) :
    s.loadWord e n m = .ok (AccessPath.loadBytewise e (m.read ⟨s.region.start, n⟩)) := by
  have hstep : ∀ i ∈ List.range n, ∀ w, s.loadStep e n m w i =
      .ok (w <<< 8 ||| (m.get (s.region.start + e.place n (n - 1 - i))).setWidth 64) := by
    intro i hi w
    have hin := List.mem_range.1 hi
    have hplace := e.place_lt (show n - 1 - i < n by omega)
    rw [loadStep, ByteStore.load, if_pos (by omega)]
    rfl
  rw [loadWord, Except.foldlM_of_forall_ok hstep, AccessPath.loadBytewise_eq,
    ← Word.foldl_reverse_eq_ofDigits, ← Memory.map_range_read (by omega), List.foldl_map]

theorem copyOut_eq (hl : s.region.start + s.size ≤ m.length) (hn : n ≤ s.size) (h8 : n ≤ 8) :
    s.copyOut 0 n m = .ok (m.read ⟨s.region.start, n⟩) := by
  have hlim := sizeLimit_eq
  rw [copyOut]
  cases s.kind with
  | bytes =>
      simp only [slice]
      rw [if_neg (by omega), if_neg (by omega)]
      rfl
  | cells =>
      have hload : ∀ i ∈ List.range n, s.load (0 + i) m = .ok (m.get (s.region.start + i)) := by
        intro i hi
        have hin := List.mem_range.1 hi
        rw [Nat.zero_add, ByteStore.load, if_pos (by omega)]
      have hin : s.region.start + n ≤ m.length := by omega
      have hread := Memory.map_range_read hin .big
      simp only [Endian.arrange, List.reverse_reverse] at hread
      dsimp only
      rw [Except.mapM_of_forall_ok hload, ← hread]
      congr 1
      apply List.map_congr_left
      intro i hi
      have hin := List.mem_range.1 hi
      rw [Endian.place, show n - 1 - (n - 1 - i) = i by omega]

theorem loadPadded_eq (hl : s.region.start + s.size ≤ m.length) (h8 : n ≤ 8) :
    s.loadPadded e n m = .ok (AccessPath.loadBytewise e
      (m.read ⟨s.region.start, min s.size n⟩ ++ List.replicate (n - min s.size n) 0)) := by
  have hlen : (m.read ⟨s.region.start, min s.size n⟩).length = min s.size n :=
    Memory.length_read_of_le (r := ⟨_, _⟩) (by dsimp only; omega)
  rw [loadPadded, copyOut_eq hl (Nat.min_le_left _ _) (by omega), Except.map, hlen]

theorem storeStep_eq {i : Nat} (hi : i < n) (hn : n ≤ s.size) (h8 : i < 8) (w : Word) (m : Memory) :
    s.storeStep e n w i m = .ok () (m.set (s.region.start + e.place n i) (w.byte i)) := by
  have hplace := e.place_lt hi
  rw [storeStep, if_neg (by omega), ByteStore.store, if_pos (by omega)]

theorem storePaddedStep_eq {i : Nat} (h8 : i < 8) (w : Word) (m : Memory) :
    s.storePaddedStep e n w i m = .ok () (if e.place n i < s.size then
      m.set (s.region.start + e.place n i) (w.byte i) else m) := by
  rw [storePaddedStep, if_neg (by omega), ByteStore.store]
  split <;> rfl

/-- The first eight bytes are stored in any case. If there are more, the ninth step overflows. -/
theorem storeWord_eq (w : Word) (m : Memory) (hn : n ≤ s.size) : s.storeWord e n w m =
    if 8 < n then .error .overflow (AccessPath.storeBytewise m s.region.start n e w)
    else .ok () (AccessPath.storeBytewise m s.region.start n e w) := by
  have hrun : ∀ k, k ≤ n → k ≤ 8 → (List.range k).forM (s.storeStep e n w) m =
      .ok () ((List.range k).foldl
        (fun m i => m.set (s.region.start + e.place n i) (w.byte i)) m) := by
    intro k hk h8
    refine Action.forM_of_forall_ok (fun i hi m => ?_) m
    have hik := List.mem_range.1 hi
    exact storeStep_eq (by omega) hn (by omega) w m
  rw [storeWord, AccessPath.storeBytewise]
  by_cases h8 : 8 < n
  · obtain ⟨k, rfl⟩ : ∃ k, n = 8 + (1 + k) := ⟨n - 9, by omega⟩
    have hfirst := hrun 8 (by omega) (Nat.le_refl 8)
    rw [List.forM_eq_forM] at hfirst ⊢
    rw [if_pos h8, Nat.min_eq_right (by omega), List.range_add, List.forM_append, bind_ok hfirst,
      Nat.add_comm 1 k, List.range_succ_eq_map, List.map_cons, List.forM_cons]
    -- what comes first after these eight steps is a shift by all the bits of the word
    exact bind_error rfl
  · rw [if_neg h8, Nat.min_eq_left (by omega)]
    exact hrun n (Nat.le_refl n) (by omega)

theorem storePadded_eq (w : Word) (m : Memory) (h8 : n ≤ 8) : s.storePadded e n w m =
    .ok () ((List.range n).foldl (fun m i => if e.place n i < s.size then
      m.set (s.region.start + e.place n i) (w.byte i) else m) m) := by
  refine Action.forM_of_forall_ok (fun i hi m => ?_) m
  have hin := List.mem_range.1 hi
  exact storePaddedStep_eq (by omega) w m

end ByteStore

namespace AccessPath

variable {path : AccessPath} {s : ByteStore} {m : Memory} {e : Endian}

theorem loadAlong_eq (hp : path.asserts s.region.start s.size = true)
    (hl : s.region.start + s.size ≤ m.length) :
    s.loadAlong path e s.size m = .ok (path.load e (m.read s.region)) := by
  have hlen : (m.read s.region).length = s.size := Memory.length_read_of_le hl
  rw [ByteStore.loadAlong, if_neg (Nat.lt_irrefl _)]
  by_cases ht : path.isTyped s.size = true
  · rw [if_pos ht, assertingLoad, if_pos hp]
    rfl
  · rw [if_neg ht, ByteStore.loadWord_eq hl (Nat.le_refl _), load, hlen, if_neg ht]
    rfl

theorem storeAlong_eq (hp : path.asserts s.region.start s.size = true) (w : Word) (m : Memory) :
    s.storeAlong path e s.size w m =
      if 8 < s.size then .error .overflow (path.store m s.region.start s.size e w)
      else .ok () (path.store m s.region.start s.size e w) := by
  rw [ByteStore.storeAlong, if_neg (Nat.lt_irrefl _)]
  by_cases ht : path.isTyped s.size = true
  · have h8 : ¬ 8 < s.size := Nat.not_lt.2 (isTyped_le ht)
    rw [if_pos ht, assertingStore, if_pos hp, if_neg h8]
  · rw [if_neg ht, ByteStore.storeWord_eq w m (Nat.le_refl _), store_eq_storeBytewise]

end AccessPath

namespace Buffer

variable {b : Buffer} {r : Region} {m : Memory} {e : Endian} {bits : Nat}

def guardedRead (b : Buffer) (kind : StoreKind) (e : Endian) (bits : Nat) (m : Memory) :
    Except Fault Word := do
  let r ← b.exact bits
  (ByteStore.mk kind r).loadAlong (b.path bits) e (bits / 8) m

def guardedLoad (b : Buffer) (kind : StoreKind) (e : Endian) (bits : Nat) (m : Memory) :
    Except Fault Word :=
  match b.exact bits, b.region with
  | .ok r, _ => (ByteStore.mk kind r).loadAlong (b.path bits) e (bits / 8) m
  | .error _, some r => (ByteStore.mk kind r).loadPadded e (span bits) m
  | .error _, none => .ok (AccessPath.loadBytewise e (List.replicate (span bits) 0))

def guardedStore (b : Buffer) (e : Endian) (bits : Nat) (w : Word) : Action Fault Unit :=
  match b.exact bits, b.region with
  | .ok r, _ => (ByteStore.mk .cells r).storeAlong (b.path bits) e (bits / 8) w
  | .error _, some r => (ByteStore.mk .cells r).storePadded e (span bits) w
  | .error _, none => pure ()

def guardedWrite (b : Buffer) (e : Endian) (bits : Nat) (w : Word) : Action Fault Unit := fun m =>
  match b.exact bits with
  | .ok r => (ByteStore.mk .cells r).storeAlong (b.path bits) e (bits / 8) w m
  | .error fault => .error fault m

theorem div_of_exact (hx : b.exact bits = .ok r) : bits / 8 = r.size := by
  have hs := (exact_eq_ok hx).2
  omega

theorem guardedRead_eq (hm : b.LiesIn m) (ht : b.TagHolds) (kind : StoreKind) (e : Endian)
    (bits : Nat) : b.guardedRead kind e bits m = b.read e bits m := by
  rw [guardedRead, read]
  cases hx : b.exact bits with
  | error fault => rfl
  | ok r =>
      rw [div_of_exact hx]
      exact AccessPath.loadAlong_eq (s := ⟨kind, r⟩) (ht.asserts hx) (hm r (exact_eq_ok hx).1)

theorem guardedLoad_eq (hm : b.LiesIn m) (ht : b.TagHolds) (kind : StoreKind) (e : Endian)
    (bits : Nat) : b.guardedLoad kind e bits m = .ok (b.load e bits m) := by
  rw [guardedLoad, load]
  cases hx : b.exact bits with
  | ok r =>
      dsimp only
      rw [div_of_exact hx]
      exact AccessPath.loadAlong_eq (s := ⟨kind, r⟩) (ht.asserts hx) (hm r (exact_eq_ok hx).1)
  | error fault =>
      rw [loadPadded, bytes]
      cases hr : b.region with
      | none => simp
      | some r =>
          have hl := hm r hr
          have htake : (m.read r).take (span bits) = m.read ⟨r.start, min r.size (span bits)⟩ := by
            rw [Memory.read, Memory.read, List.take_take, Nat.min_comm]
          have hlen : (m.read ⟨r.start, min r.size (span bits)⟩).length =
              min r.size (span bits) := Memory.length_read_of_le (by dsimp only; omega)
          simp only [Option.elim_some, htake, hlen]
          exact ByteStore.loadPadded_eq (s := ⟨kind, r⟩) hl (Nat.min_le_right _ _)

theorem guardedStore_eq (ht : b.TagHolds) (e : Endian) (bits : Nat) (w : Word) (m : Memory) :
    b.guardedStore e bits w m = b.store e bits w m := by
  rw [guardedStore, store, put]
  cases hx : b.exact bits with
  | ok r =>
      obtain ⟨hr, hs⟩ := exact_eq_ok hx
      have hsize := size_of_region hr
      have hlong : (b.size * 8 = bits ∧ 64 < bits) ↔ 8 < r.size := by omega
      dsimp only
      rw [div_of_exact hx, if_congr hlong rfl rfl]
      exact AccessPath.storeAlong_eq (s := ⟨.cells, r⟩) (ht.asserts hx) w m
  | error fault =>
      have hshort : ¬ (b.size * 8 = bits ∧ 64 < bits) := by
        rintro ⟨hs, hlong⟩
        obtain ⟨-, rfl⟩ := null_of_exact_eq_error hx hs
        exact absurd hlong (by decide)
      rw [if_neg hshort, storePadded]
      cases b.region with
      | none => rfl
      | some r => exact ByteStore.storePadded_eq (s := ⟨.cells, r⟩) w m (Nat.min_le_right _ _)

theorem guardedWrite_eq (ht : b.TagHolds) (e : Endian) (bits : Nat) (w : Word) (m : Memory) :
    b.guardedWrite e bits w m = b.write e bits w m := by
  rw [guardedWrite, write]
  cases hx : b.exact bits with
  | error fault => rfl
  | ok r =>
      have h := guardedStore_eq ht e bits w m
      rw [guardedStore, hx] at h
      exact h

inductive Refuses (b : Buffer) (bits : Nat) : Fault → Prop
  | null (hr : b.region = none) : Refuses b bits (.nullAccess bits)
  | width (r : Region) (hr : b.region = some r) (hs : r.size * 8 ≠ bits) :
      Refuses b bits (.widthMismatch bits r.size)

theorem exact_eq_error_iff {fault : Fault} : b.exact bits = .error fault ↔ b.Refuses bits fault := by
  constructor
  · intro h
    cases hr : b.region with
    | none =>
        rw [exact, hr] at h
        cases h
        exact .null hr
    | some r =>
        rw [exact, hr] at h
        dsimp only at h
        split at h
        · cases h
        · cases h
          exact .width r hr ‹_›
  · rintro (hr | ⟨r, hr, hs⟩)
    · rw [exact, hr]
    · rw [exact, hr]
      exact if_neg hs

/-- The buffer holds a word of `bits` bits, which is more than a register does. -/
def Overlong (b : Buffer) (bits : Nat) : Prop := b.size * 8 = bits ∧ 64 < bits

theorem Refuses.not_overlong {fault : Fault} (h : b.Refuses bits fault) : ¬ b.Overlong bits := by
  rintro ⟨hs, hlong⟩
  obtain ⟨-, rfl⟩ := null_of_exact_eq_error (exact_eq_error_iff.2 h) hs
  exact absurd hlong (by decide)

theorem Refuses.message {fault : Fault} (h : b.Refuses bits fault) :
    fault.message? = some s!"{bits}-bit access to a null buffer" ∨
      fault.message? = some s!"{bits}-bit access to a buffer of {b.size} bytes" := by
  cases h with
  | null hr => exact .inl rfl
  | width r hr hs =>
      right
      rw [size_of_region hr]
      rfl

theorem read_eq_error_iff {fault : Fault} (e : Endian) (m : Memory) :
    b.read e bits m = .error fault ↔ b.Refuses bits fault := by
  rw [← exact_eq_error_iff, read]
  cases b.exact bits with
  | ok r => simp [Except.map]
  | error fault' => simp [Except.map]

theorem Refuses.write_eq {fault : Fault} (h : b.Refuses bits fault) (e : Endian) (w : Word)
    (m : Memory) : b.write e bits w m = .error fault m := by
  rw [write, exact_eq_error_iff.2 h]

theorem write_cases (b : Buffer) (e : Endian) (bits : Nat) (w : Word) (m : Memory) :
    (∃ fault, b.Refuses bits fault) ∨ b.write e bits w m = b.store e bits w m := by
  cases hx : b.exact bits with
  | ok r => exact .inr (by rw [write, hx])
  | error fault => exact .inl ⟨fault, exact_eq_error_iff.1 hx⟩

theorem store_eq_of_not_overlong (h : ¬ b.Overlong bits) (e : Endian) (w : Word) (m : Memory) :
    b.store e bits w m = .ok () (b.put e bits w m) :=
  if_neg h

theorem write_eq_error_iff (h : ¬ b.Overlong bits) (e : Endian) (w : Word) {fault : Fault}
    {m m' : Memory} : b.write e bits w m = .error fault m' ↔ b.Refuses bits fault ∧ m' = m := by
  constructor
  · intro hstop
    obtain ⟨fault', hrefuse⟩ | hwrite := b.write_cases e bits w m
    · rw [hrefuse.write_eq] at hstop
      cases hstop
      exact ⟨hrefuse, rfl⟩
    · rw [hwrite, store_eq_of_not_overlong h] at hstop
      cases hstop
  · rintro ⟨hrefuse, rfl⟩
    exact hrefuse.write_eq e w m'

namespace Overlong

theorem region (h : b.Overlong bits) :
    ∃ r, b.region = some r ∧ r.size * 8 = bits ∧ 8 < r.size := by
  obtain ⟨hs, hlong⟩ := h
  cases hr : b.region with
  | none =>
      rw [size_of_null hr] at hs
      omega
  | some r =>
      rw [size_of_region hr] at hs
      exact ⟨r, rfl, hs, by omega⟩

theorem store_eq (h : b.Overlong bits) (e : Endian) (w : Word) (m : Memory) :
    b.store e bits w m = .error .overflow (b.put e bits w m) :=
  if_pos h

theorem write_eq (h : b.Overlong bits) (e : Endian) (w : Word) (m : Memory) :
    b.write e bits w m = .error .overflow (b.put e bits w m) := by
  have hwrite := (b.write_cases e bits w m).resolve_left fun ⟨_, hr⟩ => hr.not_overlong h
  rw [hwrite, h.store_eq]

theorem get_put (h : b.Overlong bits) (hm : b.LiesIn m) (e : Endian) (w : Word) :
    ∃ r, b.region = some r ∧
      (∀ i, i < 8 → (b.put e bits w m).get (r.start + e.place r.size i) = w.byte i) ∧
      ∀ a, (∀ i, i < 8 → a ≠ r.start + e.place r.size i) →
        (b.put e bits w m).get a = m.get a := by
  obtain ⟨r, hr, hs, h8⟩ := h.region
  have hspan : span bits = 8 := by rw [span]; omega
  have hplaces : b.places bits = r.size := by rw [places, size_of_region hr, if_pos hs]
  have haddr : ∀ i, i < 8 → b.address? (e.place r.size i) = some (r.start + e.place r.size i) :=
    fun i hi => address?_eq_some.2 ⟨r, hr, e.place_lt (by omega), rfl⟩
  refine ⟨r, hr, fun i hi => ?_, fun a ha => ?_⟩
  · exact Buffer.get_put hm w (by rw [hspan]; exact hi) (by rw [hplaces, haddr i hi])
  · refine get_put_of_ne e bits w m fun i hi hia => ?_
    rw [hspan] at hi
    rw [hplaces, haddr i hi] at hia
    exact ha i hi (Option.some.inj hia).symm

end Overlong

/-- No access stops halfway, except one. With all guards on their way, reads and writes of any width
are those without. The unchecked ones never stop; the checked ones stop at the check of the size
only, with its message and before a byte is changed. The exception is a store of more bytes than a
register holds, over a buffer of just as many: checked or not, it stops when the register is used
up, and has then changed as many bytes as the register has. -/
theorem access_stops_halfway_only_when_overlong (hm : b.LiesIn m) (ht : b.TagHolds)
    (kind : StoreKind) (e : Endian) (bits : Nat) (w : Word) :
    b.guardedLoad kind e bits m = .ok (b.load e bits m) ∧
      b.guardedRead kind e bits m = b.read e bits m ∧
      b.guardedStore e bits w m = b.store e bits w m ∧
      b.guardedWrite e bits w m = b.write e bits w m ∧
      (∀ fault, b.read e bits m = .error fault ↔ b.Refuses bits fault) ∧
      (∀ fault, b.Refuses bits fault → b.write e bits w m = .error fault m ∧
        (fault.message? = some s!"{bits}-bit access to a null buffer" ∨
          fault.message? = some s!"{bits}-bit access to a buffer of {b.size} bytes")) ∧
      (¬ b.Overlong bits → b.store e bits w m = .ok () (b.put e bits w m) ∧
        ∀ fault m', b.write e bits w m = .error fault m' ↔ b.Refuses bits fault ∧ m' = m) ∧
      (b.Overlong bits → ∃ r m', b.region = some r ∧
        b.store e bits w m = .error .overflow m' ∧ b.write e bits w m = .error .overflow m' ∧
        (∀ i, i < 8 → m'.get (r.start + e.place r.size i) = w.byte i) ∧
        ∀ a, (∀ i, i < 8 → a ≠ r.start + e.place r.size i) → m'.get a = m.get a) := by
  refine ⟨guardedLoad_eq hm ht kind e bits, guardedRead_eq hm ht kind e bits,
    guardedStore_eq ht e bits w m, guardedWrite_eq ht e bits w m, fun _ => read_eq_error_iff e m,
    fun _ h => ⟨h.write_eq e w m, h.message⟩, fun hshort => ?_, fun hlong => ?_⟩
  · exact ⟨store_eq_of_not_overlong hshort e w m, fun _ _ => write_eq_error_iff hshort e w⟩
  · obtain ⟨r, hr, hput, hkept⟩ := hlong.get_put hm e w
    exact ⟨r, _, hr, hlong.store_eq e w m, hlong.write_eq e w m, hput, hkept⟩

/-- Twelve bytes at a multiple of four. They are read as words of any width; a write of 64 bits is
refused, and one of 96 bits stops halfway. -/
theorem access_stops_halfway_only_when_overlong_of_twelve_bytes :
    let b : Buffer := ⟨some ⟨4, 12⟩, ⟨4, 0⟩⟩
    let m : Memory := List.replicate 16 0
    let w : Word := 0x8877665544332211
    b.LiesIn m ∧ b.TagHolds ∧
      b.guardedLoad .cells .big 96 m = .ok (b.load .big 96 m) ∧
      b.guardedWrite .big 64 w m = .error (.widthMismatch 64 12) m ∧
      ∃ m', b.guardedWrite .big 96 w m = .error .overflow m' ∧ m'.get 15 = 0x11 := by
  intro b m w
  have hm : b.LiesIn m := by
    rintro r ⟨⟩
    decide
  have ht : b.TagHolds := by
    rintro r ⟨⟩ -
    decide
  have hrefuse : b.Refuses 64 (.widthMismatch 64 12) := .width ⟨4, 12⟩ rfl (by decide)
  have hlong : b.Overlong 96 := ⟨rfl, by decide⟩
  obtain ⟨-, -, -, hwrite64, -, hstop64, -⟩ :=
    access_stops_halfway_only_when_overlong hm ht .cells .big 64 w
  obtain ⟨hload, -, -, hwrite96, -, -, -, hstop96⟩ :=
    access_stops_halfway_only_when_overlong hm ht .cells .big 96 w
  obtain ⟨_, m', ⟨⟩, -, hstop, hput, -⟩ := hstop96 hlong
  have hlast : m'.get 15 = w.byte 0 := hput 0 (by decide)
  exact ⟨hm, ht, hload, hwrite64.trans (hstop64 _ hrefuse).1,
    m', hwrite96.trans hstop, hlast.trans (by decide)⟩

/-- A word of 72 bits over nine bytes is not refused. The write, checked or not, stops after eight
of them, and the ninth keeps its value. -/
theorem write_of_nine_bytes_stops_halfway :
    let b : Buffer := .ofRegion ⟨0, 9⟩
    let m : Memory := List.replicate 9 0xff
    let w : Word := 0x8877665544332211
    let m' : Memory := [0x11, 0x22, 0x33, 0x44, 0x55, 0x66, 0x77, 0x88, 0xff]
    b.LiesIn m ∧ b.TagHolds ∧ (∀ fault, ¬ b.Refuses 72 fault) ∧ m' ≠ m ∧
      b.store .little 72 w m = .error .overflow m' ∧
      b.write .little 72 w m = .error .overflow m' := by
  intro b m w m'
  have hlong : b.Overlong 72 := ⟨rfl, by decide⟩
  have hput : b.put .little 72 w m = m' := by decide
  have hstore := hlong.store_eq .little w m
  have hwrite := hlong.write_eq .little w m
  rw [hput] at hstore hwrite
  refine ⟨?_, ?_, fun fault h => h.not_overlong hlong, by decide, hstore, hwrite⟩
  · rintro r ⟨⟩
    decide
  · rintro r ⟨⟩ -
    rfl

end Buffer

end Packed
