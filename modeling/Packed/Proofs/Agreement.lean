import Packed.Proofs.ArrayCopy

namespace Packed

theorem Except.mapM_eq_ok {ε α β : Type} {f : α → Except ε β} {g : α → β} {l : List α} {bs : List β}
    (h : l.mapM f = .ok bs) (hfg : ∀ a b, f a = .ok b → g a = b) : l.map g = bs := by
  induction l generalizing bs with
  | nil =>
      cases h
      rfl
  | cons a l ih =>
      obtain ⟨b, cs, hb, hcs, rfl⟩ := mapM_cons_eq_ok_iff.1 h
      rw [List.map_cons, hfg a b hb, ih hcs]

theorem Except.foldlM_eq_ok {ε α : Type} {f : α → Except ε Bool} {g : α → Bool} {l : List α}
    {s b : Bool} (h : l.foldlM (fun equal a => if equal then f a else .ok false) s = .ok b)
    (hfg : ∀ a b, f a = .ok b → g a = b) : (s && l.all g) = b := by
  induction l generalizing s with
  | nil =>
      cases h
      exact Bool.and_true _
  | cons a l ih =>
      rw [List.foldlM_cons] at h
      cases s with
      | false => exact ih (s := false) h
      | true =>
          cases ha : f a with
          | error e =>
              rw [if_pos rfl, ha] at h
              cases h
          | ok c =>
              rw [if_pos rfl, ha] at h
              rw [List.all_cons, hfg a c ha, Bool.true_and]
              exact ih h

theorem Action.foldl_of_forM {ε α : Type} {f : α → Action ε Unit} {g : Memory → α → Memory}
    {l : List α} {m n : Memory} (h : l.forM f m = .ok () n)
    (hfg : ∀ a m n, f a m = .ok () n → g m a = n) : l.foldl g m = n := by
  induction l generalizing m with
  | nil =>
      cases h
      rfl
  | cons a l ih =>
      rw [List.forM_eq_forM, List.forM_cons] at h
      obtain ⟨⟨⟩, m', ha, hl⟩ := bind_eq_ok_iff.1 h
      rw [List.foldl_cons, hfg a m m' ha]
      exact ih hl

theorem Kind.recode_eq_encode_decode {k : Kind} {v : Nat} (hv : k.Admits v) (w : Nat) {raw : Word}
    (h : k.wellFormed v raw = true) : k.recode w v raw = k.encode w (k.decode v raw) := by
  cases k with
  | decimal =>
      rw [toNat_decode_decimal raw hv.2, encode, Bcd.encodeLow,
        Bcd.pack_decode hv.2 (raw.toNat_mask_lt v) h]
      rfl
  | unsigned | signed | flag | float | named => rfl

namespace Field

variable {k : Kind} {f g : Field k} {m n : Memory}

theorem uncheckedRead_eq_of_read {v : k.Value} (h : f.read m = .ok v) : f.uncheckedRead m = v :=
  (read_eq_ok_iff.1 h).2

theorem uncheckedWrite_eq_of_tryWrite {v : k.Value} (h : f.tryWrite v m = .ok n) :
    f.uncheckedWrite v m = n :=
  (tryWrite_eq_ok_iff.1 h).2.2.symm

theorem uncheckedEquals_eq_of_equals {b : Bool} (h : f.equals m g n = .ok b) :
    f.uncheckedEquals m g n = b := by
  rw [equals] at h
  cases hf : f.read m with
  | error e =>
      rw [hf] at h
      cases h
  | ok v =>
      cases hg : g.read n with
      | error e =>
          rw [hf, hg] at h
          cases h
      | ok w =>
          rw [hf, hg] at h
          rw [uncheckedEquals, uncheckedRead_eq_of_read hf, uncheckedRead_eq_of_read hg]
          exact Except.ok.inj h

theorem uncheckedCopy_eq_of_tryCopy (h : f.tryCopy g m = .ok n) : f.uncheckedCopy g m = n := by
  obtain ⟨hok, -, -, rfl⟩ := tryCopy_eq_ok_iff.1 h
  obtain ⟨-, hwf, -⟩ := ok_iff.1 hok
  rw [uncheckedCopy, Kind.recode_eq_encode_decode g.admits f.width hwf]
  rfl

/-- What is asked of the unchecked accesses of a field: the outcome of the checked ones that go
through. -/
structure Agrees (f g : Field k) (m n : Memory) : Prop where
  read : ∀ v, f.read m = .ok v → f.uncheckedRead m = v
  write : ∀ v m', f.tryWrite v m = .ok m' → f.uncheckedWrite v m = m'
  equals : ∀ b, f.equals m g n = .ok b → f.uncheckedEquals m g n = b
  copy : ∀ m', f.tryCopy g m = .ok m' → f.uncheckedCopy g m = m'

theorem agrees (f g : Field k) (m n : Memory) : f.Agrees g m n where
  read _ := uncheckedRead_eq_of_read
  write _ _ := uncheckedWrite_eq_of_tryWrite
  equals _ := uncheckedEquals_eq_of_equals
  copy _ := uncheckedCopy_eq_of_tryCopy

end Field

namespace ElementType

variable {S T : Type} [Tiled S] [Tiled T]

theorem uncheckedRead_eq_of_read {e : ElementType S} {s : S} {m : Memory} {d : Datum}
    (h : e.read s m = .ok d) : e.uncheckedRead s m = d := by
  induction e generalizing s d with
  | scalar t =>
      rw [read] at h
      cases hr : (t.field s).read m with
      | error e =>
          rw [hr] at h
          cases h
      | ok v =>
          rw [hr] at h
          cases h
          rw [uncheckedRead, Field.uncheckedRead_eq_of_read hr]
  | array e n pos ih =>
      rw [read] at h
      cases hr : (tiles s n).mapM fun s => e.read s m with
      | error e =>
          rw [hr] at h
          cases h
      | ok ds =>
          rw [hr] at h
          cases h
          rw [uncheckedRead, Except.mapM_eq_ok hr fun s d => ih]

theorem uncheckedEquals_eq_of_equals {e : ElementType S} {e' : ElementType T} {s : S} {s' : T}
    {m n : Memory} {b : Bool} (h : equals m n e s e' s' = .ok b) :
    uncheckedEquals m n e s e' s' = b := by
  induction e generalizing s e' s' b with
  | scalar t =>
      cases e' with
      | scalar u =>
          rw [equals] at h
          rw [uncheckedEquals]
          cases hp : (t.field s).pair? (u.field s') with
          | none =>
              rw [hp] at h
              exact Except.ok.inj h
          | some x =>
              obtain ⟨f, g⟩ := x
              rw [hp] at h
              exact Field.uncheckedEquals_eq_of_equals h
      | array e' size' pos' =>
          cases h
          rfl
  | array e size pos ih =>
      cases e' with
      | scalar u =>
          cases h
          rfl
      | array e' size' pos' =>
          rw [equals] at h
          rw [uncheckedEquals]
          split at h
          · rename_i hcount
            rw [beq_iff_eq.2 hcount]
            exact Except.foldlM_eq_ok h fun x b => ih
          · rename_i hcount
            cases h
            rw [beq_eq_false_iff_ne.2 hcount, Bool.false_and]

/-- Element by element the copies go through the same memories, so that it does not matter where the
two arrays overlap. -/
theorem uncheckedCopy_eq_of_tryCopy {e : ElementType S} {e' : ElementType T} {s : S} {s' : T}
    {m n : Memory} (h : tryCopy e s e' s' m = .ok () n) : uncheckedCopy e s e' s' m = n := by
  induction e generalizing s e' s' m n with
  | scalar t =>
      cases e' with
      | scalar u =>
          rw [tryCopy_scalar_eq] at h
          rw [uncheckedCopy]
          cases hp : (t.field s).pair? (u.field s') with
          | none =>
              rw [hp] at h
              cases h
          | some x =>
              obtain ⟨f, g⟩ := x
              rw [hp] at h
              cases hc : f.tryCopy g m with
              | error e => simp only [hc, reduceCtorEq] at h
              | ok m' =>
                  simp only [hc, EStateM.Result.ok.injEq, true_and] at h
                  exact h ▸ Field.uncheckedCopy_eq_of_tryCopy hc
      | array e' size' pos' => cases h
  | array e size pos ih =>
      cases e' with
      | scalar u => cases h
      | array e' size' pos' =>
          rw [tryCopy_array_eq] at h
          rw [uncheckedCopy]
          split at h
          · cases h
          · rename_i hcount
            rw [← not_not.1 hcount, Nat.min_self]
            exact Action.foldl_of_forM h fun i m n => ih

end ElementType

namespace ArrayView

variable {S T : Type} [Tiled S] [Tiled T]

structure Agrees (a : ArrayView S) (b : ArrayView T) (m n : Memory) : Prop where
  read : ∀ d, a.read m = .ok d → a.uncheckedRead m = d
  equals : ∀ r, a.equals m b n = .ok r → a.uncheckedEquals m b n = r
  copy : ∀ m', a.tryCopy b m = .ok () m' → a.uncheckedCopy b m = m'

theorem agrees (a : ArrayView S) (b : ArrayView T) (m n : Memory) : a.Agrees b m n where
  read _ := ElementType.uncheckedRead_eq_of_read
  equals _ := ElementType.uncheckedEquals_eq_of_equals
  copy _ := ElementType.uncheckedCopy_eq_of_tryCopy

end ArrayView

/-- Whatever memory holds and however two fields or two arrays lie in it, an unchecked access has the
outcome of the checked one wherever that one goes through. -/
theorem unchecked_agrees_with_checked {k : Kind} (f g : Field k) {S T : Type} [Tiled S] [Tiled T]
    (a : ArrayView S) (b : ArrayView T) (m n : Memory) : f.Agrees g m n ∧ a.Agrees b m n :=
  ⟨f.agrees g m n, a.agrees b m n⟩

-- Two digits each go over into the first two of four, in an array that begins within the other.
example :
    let digits (w : Nat) (h : Kind.decimal.Admits w) (format : BlockFormat) : ScalarType Buffer :=
      ⟨.decimal, w, h, fun _ => true, fun b => .block ⟨format, b⟩⟩
    let a : ArrayView Buffer := ⟨.scalar (digits 16 (by decide) .bigPair), 2, by decide,
      .ofRegion ⟨1, 4⟩⟩
    let b : ArrayView Buffer := ⟨.scalar (digits 8 (by decide) .byte), 1, by decide,
      .ofRegion ⟨0, 2⟩⟩
    let m : Memory := [0x12, 0x34, 0xff, 0xff, 0xff]
    a.tryCopy b m = .ok () [0x12, 0x00, 0x12, 0x00, 0x34] ∧
      a.uncheckedCopy b m = [0x12, 0x00, 0x12, 0x00, 0x34] :=
  ⟨Action.eq_ok (by decide +kernel), by decide +kernel⟩

end Packed
