import Packed.Proofs.BufferCopy
import Packed.Proofs.PastEnd

namespace Packed

namespace Buffer

variable {b source : Buffer} {size : Nat} {m n : Memory}

theorem bytes_tryCopy (hb : b.LiesIn m) (hs : source.LiesIn m) (hsize : b.size = source.size)
    (h : b.tryCopy source source.size m = .ok n) :
    n.length = m.length ∧ b.bytes n = source.bytes m := by
  obtain ⟨hlength, hfront, -⟩ := copied_of_tryCopy hb hs h
  have hb' : (b.bytes n).length = source.size :=
    (length_bytes (hb.of_length hlength)).trans hsize
  rw [List.take_of_length_le (Nat.le_of_eq hb'),
    List.take_of_length_le (Nat.le_of_eq (length_bytes hs))] at hfront
  exact ⟨hlength, hfront⟩

end Buffer

namespace ArrayView

variable {a b : ArrayView Buffer} {m n : Memory} {e : Error}

theorem tryCopyBytes_eq_ok_iff : a.tryCopyBytes b m = .ok n ↔
    a.size = b.size ∧ ∃ r q, a.storage.region = some r ∧ b.storage.region = some q ∧
      n = m.move r.start q.start q.size := by
  rw [tryCopyBytes]
  split
  · rename_i hne
    exact iff_of_false nofun fun h => hne h.1
  · rename_i heq
    rw [not_not] at heq
    rw [Buffer.tryCopy_eq_ok_iff, and_iff_right heq]
    refine exists₂_congr fun r q => and_congr_right fun hr => and_congr_right fun hq => ?_
    have hsa : a.size = r.size := Buffer.size_of_region hr
    have hsb : b.size = q.size := Buffer.size_of_region hq
    rw [and_iff_right (by omega), hsb]

theorem exists_tryCopyBytes_iff : (∃ n, a.tryCopyBytes b m = .ok n) ↔
    a.storage.ok = true ∧ b.storage.ok = true ∧ a.size = b.size := by
  rw [← and_assoc, Buffer.ok_and_ok_iff]
  constructor
  · rintro ⟨n, h⟩
    obtain ⟨hsize, r, q, hr, hq, -⟩ := tryCopyBytes_eq_ok_iff.1 h
    exact ⟨⟨r, q, hr, hq⟩, hsize⟩
  · rintro ⟨⟨r, q, hr, hq⟩, hsize⟩
    exact ⟨_, tryCopyBytes_eq_ok_iff.2 ⟨hsize, r, q, hr, hq, rfl⟩⟩

theorem tryCopyBytes_eq_error_iff : a.tryCopyBytes b m = .error e ↔
    a.size ≠ b.size ∧ e = .sizeMismatch b.size a.size ∨
      a.size = b.size ∧ ¬ (a.storage.ok = true ∧ b.storage.ok = true) ∧ e = .incomplete := by
  by_cases hsize : a.size = b.size
  · by_cases hok : a.storage.ok = true ∧ b.storage.ok = true
    · obtain ⟨n, hn⟩ := (exists_tryCopyBytes_iff (m := m)).2 ⟨hok.1, hok.2, hsize⟩
      simp [hn, hsize, hok]
    · have hcopy : a.tryCopyBytes b m = .error .incomplete := by
        rw [tryCopyBytes, if_neg (not_not.2 hsize), Buffer.tryCopy_eq_incomplete hok]
      simp only [hcopy, hsize, hok, Except.error.injEq, eq_comm (a := e), ne_eq, not_true,
        false_and, false_or, true_and, not_false_eq_true]
  · rw [tryCopyBytes, if_pos hsize, Except.error.injEq, eq_comm]
    simp only [hsize, ne_eq, not_false_eq_true, true_and, false_and, or_false]

structure Moved (a b : ArrayView Buffer) (m n : Memory) : Prop where
  length : n.length = m.length
  bytes : a.storage.bytes n = b.storage.bytes m
  outside : ∀ x, (∀ i, a.storage.address? i ≠ some x) → n.get x = m.get x

theorem moved_of_tryCopyBytes (ha : a.storage.LiesIn m) (hb : b.storage.LiesIn m)
    (h : a.tryCopyBytes b m = .ok n) : a.Moved b m n := by
  have hsize := (tryCopyBytes_eq_ok_iff.1 h).1
  rw [tryCopyBytes, if_neg (not_not.2 hsize)] at h
  obtain ⟨hlen, hbytes⟩ := Buffer.bytes_tryCopy ha hb hsize h
  exact ⟨hlen, hbytes, fun x hx => Buffer.get_tryCopy_of_ne h hx⟩

/-- Moving the bytes of an array goes through just if the storage of both is there and of one
length, and then it moves them all and changes nothing else; if it is refused, nothing changes.
Complete arrays of one length are those between which it goes through and of which each is an exact
multiple of its element size, which the move does not ask for. -/
theorem byte_move_contract (ha : a.storage.LiesIn m) (hb : b.storage.LiesIn m) :
    ((∃ n, a.tryCopyBytes b m = .ok n) ↔
      a.storage.ok = true ∧ b.storage.ok = true ∧ a.size = b.size) ∧
    (a.isComplete = true ∧ b.isComplete = true ∧ a.size = b.size ↔
      (∃ n, a.tryCopyBytes b m = .ok n) ∧ a.stride ∣ a.size ∧ b.stride ∣ b.size) ∧
    (∀ n, a.tryCopyBytes b m = .ok n → a.Moved b m n) ∧
    (∀ e, a.tryCopyBytes b m = .error e ↔
      a.size ≠ b.size ∧ e = .sizeMismatch b.size a.size ∨
        a.size = b.size ∧ ¬ (a.storage.ok = true ∧ b.storage.ok = true) ∧ e = .incomplete) ∧
    (∀ e, a.tryCopyBytes b m = .error e → m.after (a.tryCopyBytes b m) = m) := by
  refine ⟨exists_tryCopyBytes_iff, ?_, fun n => moved_of_tryCopyBytes ha hb,
    fun e => tryCopyBytes_eq_error_iff, fun e he => ?_⟩
  · have hcomplete : ∀ c : ArrayView Buffer, c.isComplete = true ↔
        c.storage.ok = true ∧ c.stride ∣ c.size := fun c => ElementType.isComplete_array_iff
    rw [exists_tryCopyBytes_iff, hcomplete, hcomplete]
    tauto
  · rw [he]
    rfl

/-- Two pairs moved up by one byte, to four single bytes, and a move to an array that is not there. -/
theorem byte_move_contract_of_four_bytes :
    let m : Memory := [1, 2, 3, 4, 5]
    let t : ScalarType Buffer :=
      ⟨.unsigned, 16, ⟨by decide, by decide⟩, fun _ => true, fun b => .block ⟨.bigPair, b⟩⟩
    let u : ScalarType Buffer :=
      ⟨.signed, 8, ⟨by decide, by decide⟩, fun _ => true, fun b => .block ⟨.byte, b⟩⟩
    let a : ArrayView Buffer := ⟨.scalar u, 1, Nat.one_pos, .ofRegion ⟨1, 4⟩⟩
    let b : ArrayView Buffer := ⟨.scalar t, 2, Nat.two_pos, .ofRegion ⟨0, 4⟩⟩
    let c : ArrayView Buffer := ⟨.scalar t, 2, Nat.two_pos, .null .any⟩
    (∃ n, a.tryCopyBytes b m = .ok n ∧ a.storage.bytes n = [1, 2, 3, 4] ∧ n.get 0 = 1) ∧
      c.tryCopyBytes b m = .error (.sizeMismatch 4 0) ∧
      c.tryCopyBytes c m = .error .incomplete := by
  intro m t u a b c
  have ha : a.storage.LiesIn m := by rintro r ⟨⟩; decide
  have hb : b.storage.LiesIn m := by rintro r ⟨⟩; decide
  have hc : c.storage.LiesIn m := by rintro r ⟨⟩
  obtain ⟨-, hcomplete, hmoved, -⟩ := byte_move_contract ha hb
  obtain ⟨n, hn⟩ := (hcomplete.1 ⟨by decide, by decide, by decide⟩).1
  refine ⟨⟨n, hn, (hmoved n hn).bytes, (hmoved n hn).outside 0 fun i hi => ?_⟩, ?_, ?_⟩
  · obtain ⟨r, ⟨⟩, -, hi⟩ := Buffer.address?_eq_some.1 hi
    dsimp only at hi
    omega
  · exact ((byte_move_contract hc hb).2.2.2.1 _).2 (.inl ⟨by decide, rfl⟩)
  · exact ((byte_move_contract hc hc).2.2.2.1 _).2 (.inr ⟨rfl, by decide, rfl⟩)

/-- Three bytes each in pairs: neither array is complete, and the bytes are moved. -/
theorem byte_move_of_incomplete_arrays :
    let m : Memory := [1, 2, 3, 4, 5, 6]
    let t : ScalarType Buffer :=
      ⟨.unsigned, 16, ⟨by decide, by decide⟩, fun _ => true, fun b => .block ⟨.bigPair, b⟩⟩
    let a : ArrayView Buffer := ⟨.scalar t, 2, Nat.two_pos, .ofRegion ⟨3, 3⟩⟩
    let b : ArrayView Buffer := ⟨.scalar t, 2, Nat.two_pos, .ofRegion ⟨0, 3⟩⟩
    a.tryCopyBytes b m = .ok [1, 2, 3, 1, 2, 3] ∧
      ¬ ((∃ n, a.tryCopyBytes b m = .ok n) ↔
        a.isComplete = true ∧ b.isComplete = true ∧ a.size = b.size) := by
  intro m t a b
  have hmove : a.tryCopyBytes b m = .ok [1, 2, 3, 1, 2, 3] := rfl
  refine ⟨hmove, fun h => ?_⟩
  exact absurd (h.1 ⟨_, hmove⟩).1 (by decide)

end ArrayView

end Packed
