import Packed.Proofs.FieldWrite
import Packed.Proofs.SubBuffer

namespace Packed

namespace Buffer

variable {b source : Buffer} {size : Nat} {m n n' : Memory} {e : Error}

theorem ok_and_ok_iff : b.ok = true ∧ source.ok = true ↔
    ∃ r q, b.region = some r ∧ source.region = some q := by
  rw [ok, ok, Option.isSome_iff_exists, Option.isSome_iff_exists, exists_and_exists_comm]

theorem tryCopy_eq_incomplete (h : ¬ (b.ok = true ∧ source.ok = true)) :
    b.tryCopy source size m = .error .incomplete := by
  rw [tryCopy]
  split
  · rename_i r q hr hq
    exact absurd (ok_and_ok_iff.2 ⟨r, q, hr, hq⟩) h
  · rfl

theorem tryCopy_eq_sizeMismatch (h : b.ok = true ∧ source.ok = true)
    (hsize : min b.size source.size < size) :
    b.tryCopy source size m = .error (.sizeMismatch size (min b.size source.size)) := by
  obtain ⟨r, q, hr, hq⟩ := ok_and_ok_iff.1 h
  rw [size_of_region hr, size_of_region hq] at hsize ⊢
  rw [tryCopy, hr, hq]
  exact if_pos hsize

theorem exists_tryCopy_iff : (∃ n, b.tryCopy source size m = .ok n) ↔
    (b.ok = true ∧ source.ok = true) ∧ size ≤ min b.size source.size := by
  rw [ok_and_ok_iff]
  constructor
  · rintro ⟨n, h⟩
    obtain ⟨r, q, hr, hq, hsize, -⟩ := tryCopy_eq_ok_iff.1 h
    rw [size_of_region hr, size_of_region hq]
    exact ⟨⟨r, q, hr, hq⟩, hsize⟩
  · rintro ⟨⟨r, q, hr, hq⟩, hsize⟩
    rw [size_of_region hr, size_of_region hq] at hsize
    exact ⟨_, tryCopy_eq_ok_iff.2 ⟨r, q, hr, hq, hsize, rfl⟩⟩

theorem tryCopy_eq_error_iff : b.tryCopy source size m = .error e ↔
    ¬ (b.ok = true ∧ source.ok = true) ∧ e = .incomplete ∨
      (b.ok = true ∧ source.ok = true) ∧ min b.size source.size < size ∧
        e = .sizeMismatch size (min b.size source.size) := by
  by_cases hok : b.ok = true ∧ source.ok = true
  · by_cases hsize : min b.size source.size < size
    · simp only [tryCopy_eq_sizeMismatch hok hsize, hok, hsize, Except.error.injEq,
        eq_comm (a := e), and_self, not_true, false_and, true_and, false_or]
    · obtain ⟨n, hn⟩ := (exists_tryCopy_iff (m := m)).2 ⟨hok, Nat.not_lt.1 hsize⟩
      simp only [hn, hok, hsize, reduceCtorEq, and_self, not_true, false_and, and_false, or_false]
  · simp only [tryCopy_eq_incomplete hok, hok, Except.error.injEq, eq_comm (a := e),
      not_false_eq_true, true_and, false_and, or_false]

/-- The first bytes of a buffer are those that the source had, and all other memory is as before. -/
structure Copied (b source : Buffer) (size : Nat) (m n : Memory) : Prop where
  length : n.length = m.length
  front : (b.bytes n).take size = (source.bytes m).take size
  outside : ∀ a, (∀ i, i < size → b.address? i ≠ some a) → n.get a = m.get a

theorem getD_bytes {i a : Nat} (h : b.address? i = some a) (m : Memory) :
    (b.bytes m).getD i 0 = m.get a := by
  obtain ⟨r, hr, hi, rfl⟩ := address?_eq_some.1 h
  rw [bytes, hr, Option.elim_some, Memory.getD_read m r hi]

theorem Copied.unique (h : b.Copied source size m n) (h' : b.Copied source size m n') : n = n' := by
  apply Memory.ext_get (h.length.trans h'.length.symm)
  intro a
  by_cases ha : ∃ i, i < size ∧ b.address? i = some a
  · obtain ⟨i, hi, ha⟩ := ha
    have hfront : ∀ bs : List Byte, (bs.take size).getD i 0 = bs.getD i 0 := by
      intro bs
      rw [List.getD_eq_getElem?_getD, List.getElem?_take_of_lt hi, List.getD_eq_getElem?_getD]
    rw [← getD_bytes ha n, ← getD_bytes ha n', ← hfront, h.front, ← h'.front, hfront]
  · have hout : ∀ i, i < size → b.address? i ≠ some a := fun i hi heq => ha ⟨i, hi, heq⟩
    rw [h.outside a hout, h'.outside a hout]

theorem copied_of_tryCopy (hb : b.LiesIn m) (hs : source.LiesIn m)
    (h : b.tryCopy source size m = .ok n) : b.Copied source size m n := by
  obtain ⟨r, q, hr, hq, hsize, rfl⟩ := tryCopy_eq_ok_iff.1 h
  have hr' := hb r hr
  have hq' := hs q hq
  have hread : (m.read ⟨q.start, size⟩).length = size :=
    Memory.length_read_of_le (r := ⟨q.start, size⟩) (by dsimp only; omega)
  refine ⟨Memory.length_write _ _ _, ?_, fun a ha => ?_⟩
  · rw [bytes, bytes, hr, hq, Option.elim_some, Option.elim_some, Memory.take_read _ r (by omega),
      Memory.take_read _ q (by omega), Memory.move]
    exact Memory.read_write (r := ⟨r.start, size⟩) (by dsimp only; omega) hread
  · apply Memory.get_write_of_outside
    rw [hread]
    by_contra hin
    exact ha (a - r.start) (by omega) (address?_eq_some.2 ⟨r, hr, by omega, by omega⟩)

theorem tryCopy_eq_ok_iff_copied (hb : b.LiesIn m) (hs : source.LiesIn m) :
    b.tryCopy source size m = .ok n ↔ (b.ok = true ∧ source.ok = true) ∧
      size ≤ min b.size source.size ∧ b.Copied source size m n := by
  rw [← and_assoc, ← exists_tryCopy_iff]
  constructor
  · intro h
    exact ⟨⟨n, h⟩, copied_of_tryCopy hb hs h⟩
  · rintro ⟨⟨n', h⟩, hn⟩
    rw [h, (copied_of_tryCopy hb hs h).unique hn]

/-- A copy is all or nothing and safe under overlap. It is refused as incomplete just if one of the
buffers is null, and otherwise for its size just if the shorter of them holds less, and then memory
is as before. In all other cases it goes through: the buffer begins with the bytes that the source
began with before the copy, and no other byte has changed. The copy that may not be refused stops in
the same cases and does the same in the others. -/
theorem buffer_copy_all_or_nothing (hb : b.LiesIn m) (hs : source.LiesIn m) (size : Nat) :
    (b.tryCopy source size m = .error .incomplete ↔ ¬ (b.ok = true ∧ source.ok = true)) ∧
    (∀ requested available,
      b.tryCopy source size m = .error (.sizeMismatch requested available) ↔
        (b.ok = true ∧ source.ok = true) ∧ available < size ∧ requested = size ∧
          available = min b.size source.size) ∧
    ((∃ n, b.tryCopy source size m = .ok n) ↔
      (b.ok = true ∧ source.ok = true) ∧ size ≤ min b.size source.size) ∧
    (∀ n, b.tryCopy source size m = .ok n ↔ (b.ok = true ∧ source.ok = true) ∧
      size ≤ min b.size source.size ∧ b.Copied source size m n) ∧
    (∀ n, b.copy source size m = .ok n ↔ b.tryCopy source size m = .ok n) ∧
    (∀ e, b.tryCopy source size m = .error e → m.after (b.tryCopy source size m) = m ∧
      b.copy source size m = .error (.copyFailed e) ∧ m.after (b.copy source size m) = m) := by
  refine ⟨?_, fun requested available => ?_, exists_tryCopy_iff,
    fun n => tryCopy_eq_ok_iff_copied hb hs, fun n => ?_, fun e he => ?_⟩
  · rw [tryCopy_eq_error_iff]
    simp only [reduceCtorEq, and_true, and_false, or_false]
  · rw [tryCopy_eq_error_iff]
    simp only [reduceCtorEq, and_false, false_or, Error.sizeMismatch.injEq]
    refine and_congr_right fun _ => and_congr_left ?_
    rintro ⟨-, rfl⟩
    rfl
  · rw [copy]
    cases b.tryCopy source size m with
    | error e => exact iff_of_false nofun nofun
    | ok n' => rw [Except.mapError, Except.ok.injEq, Except.ok.injEq]
  · rw [copy, he]
    exact ⟨rfl, rfl, rfl⟩

/-- Four of six bytes moved up by two, five that are refused as the buffers have four, and a copy
from nothing. -/
theorem buffer_copy_all_or_nothing_of_six_bytes :
    let m : Memory := [1, 2, 3, 4, 5, 6]
    let head : Buffer := .ofRegion ⟨0, 4⟩
    let tail : Buffer := ⟨some ⟨2, 4⟩, ⟨2, 0⟩⟩
    (∃ n, tail.tryCopy head 4 m = .ok n ∧ tail.bytes n = [1, 2, 3, 4] ∧ n.get 0 = 1) ∧
      tail.tryCopy head 5 m = .error (.sizeMismatch 5 4) ∧
      tail.copy (.null .any) 0 m = .error (.copyFailed .incomplete) := by
  intro m head tail
  have hhead : head.LiesIn m := liesIn_ofRegion (by decide)
  have htail : tail.LiesIn m := by rintro r ⟨⟩; decide
  have hnull : (Buffer.null .any).LiesIn m := by rintro r ⟨⟩
  obtain ⟨-, -, hgoes, hcopied, -⟩ := buffer_copy_all_or_nothing htail hhead 4
  obtain ⟨n, hn⟩ := hgoes.2 ⟨⟨rfl, rfl⟩, by decide⟩
  obtain ⟨-, -, hlength, hfront, houtside⟩ := (hcopied n).1 hn
  refine ⟨⟨n, hn, ?_, houtside 0 fun i _ hi => ?_⟩, ?_, ?_⟩
  · have hall : (tail.bytes n).length = 4 := length_bytes (htail.of_length hlength)
    rwa [List.take_of_length_le (Nat.le_of_eq hall)] at hfront
  · obtain ⟨r, ⟨⟩, -, hi⟩ := address?_eq_some.1 hi
    dsimp only at hi
    omega
  · exact ((buffer_copy_all_or_nothing htail hhead 5).2.1 5 4).2
      ⟨⟨rfl, rfl⟩, by decide, rfl, by decide⟩
  · obtain ⟨hincomplete, -, -, -, -, hrefused⟩ := buffer_copy_all_or_nothing htail hnull 0
    exact (hrefused _ (hincomplete.2 (by decide))).2.1

end Buffer

end Packed
