import Packed.Proofs.Narrowing

namespace Packed

namespace Field

variable {k : Kind} {f g : Field k} {r : Region} {m n : Memory}

theorem tryCopy_of_ok (h : g.ok m = true) : f.tryCopy g m = f.tryWrite (g.uncheckedRead m) m := by
  rw [tryCopy, if_pos h]

theorem tryCopy_of_not_ok (h : g.ok m = false) : f.tryCopy g m = .error .incomplete := by
  rw [tryCopy, h]
  rfl

theorem tryCopy_eq_incomplete_iff : f.tryCopy g m = .error .incomplete ↔
    g.ok m = false ∨ f.couldWrite (g.uncheckedRead m) = true ∧ f.isComplete = false := by
  cases h : g.ok m with
  | false => simp [tryCopy_of_not_ok h]
  | true => simp [tryCopy_of_ok h, tryWrite_eq_incomplete_iff]

theorem tryCopy_eq_notRepresentable_iff : f.tryCopy g m = .error .notRepresentable ↔
    g.ok m = true ∧ f.couldWrite (g.uncheckedRead m) = false := by
  cases h : g.ok m with
  | false => simp [tryCopy_of_not_ok h]
  | true => simp [tryCopy_of_ok h, tryWrite_eq_notRepresentable_iff]

theorem tryCopy_eq_error {e : Error} (h : f.tryCopy g m = .error e) :
    e = .incomplete ∨ e = .notRepresentable := by
  cases hok : g.ok m with
  | false =>
      rw [tryCopy_of_not_ok hok] at h
      exact .inl (Except.error.inj h).symm
  | true =>
      rw [tryCopy_of_ok hok] at h
      exact (tryWrite_eq_error h).symm

/-- A copy is refused for want of a value where the source is not ok, and for want of storage where
the target has a place for the value but is not complete; it is refused as not representable where
the target has no place for the value or its check does not allow it. A refusal changes nothing.
Otherwise the copy goes through, the target holds the value that the source had before, and all bits
outside the target are as they were, even where the two fields share some. -/
theorem copy_moves_value (hk : k.Hosted) (hs : f.storage.Sound)
    (hm : f.storage.base.buffer.LiesIn m) (g : Field k) :
    let v := g.uncheckedRead m
    let taken := k.Representable f.width v ∧ f.check v = true
    (f.tryCopy g m = .error .incomplete ↔ g.ok m = false ∨ taken ∧ f.isComplete = false) ∧
    (f.tryCopy g m = .error .notRepresentable ↔ g.ok m = true ∧ ¬ taken) ∧
    (∀ e, f.tryCopy g m = .error e →
      (e = .incomplete ∨ e = .notRepresentable) ∧ m.after (f.tryCopy g m) = m) ∧
    (g.ok m = true → taken → f.isComplete = true →
      ∃ n, f.tryCopy g m = .ok n ∧ g.read m = .ok v ∧ k.narrow f.width v = v ∧ f.Written v m n) := by
  intro v taken
  have htaken : f.couldWrite v = true ↔ taken := couldWrite_iff
  refine ⟨?_, ?_, ?_, ?_⟩
  · rw [tryCopy_eq_incomplete_iff, htaken]
  · rw [tryCopy_eq_notRepresentable_iff, ← htaken, Bool.not_eq_true]
  · intro e he
    exact ⟨tryCopy_eq_error he, by rw [he]; rfl⟩
  · intro hok ht hc
    obtain ⟨r, hr⟩ := BitStorage.spans_of_ok (storage_ok hc) hs hm
    have hwritten := written_uncheckedWrite hk (Kind.exact_decode ..) hr hc (htaken.2 ht)
    have hcopy := tryCopy_eq_ok_iff.2 ⟨hok, htaken.2 ht, hc, rfl⟩
    exact ⟨_, hcopy, read_eq hok, Kind.narrow_eq f.admits hk ht.1, hwritten⟩

/-- A signed number of five bits moves to twelve bits that take in its own, and only a number of five
bits moves back. -/
theorem copy_moves_value_within_a_word :
    let word : Block := ⟨.bigPair, .ofRegion ⟨1, 2⟩⟩
    let f : Field .signed := ⟨12, by decide, fun _ => true, .window (.ofBlock word 1 12)⟩
    let g : Field .signed := ⟨5, by decide, fun v => v != (3 : Int), .window (.ofBlock word 4 5)⟩
    let m : Memory := [0xff, 0x01, 0x70, 0xff]
    (∃ n, f.tryCopy g m = .ok n ∧ f.read n = .ok (-9 : Int) ∧ n.get 0 = 0xff ∧ n.get 3 = 0xff) ∧
      g.tryCopy f m = .error .notRepresentable := by
  intro word f g m
  have hk : Kind.signed.Hosted := fun e he => by cases he
  have hm : word.buffer.LiesIn m := Buffer.liesIn_ofRegion (by decide)
  have hvalue : g.uncheckedRead m = (-9 : Int) := by decide +kernel
  have hwide : f.uncheckedRead m = (184 : Int) := by decide +kernel
  obtain ⟨-, -, -, hgo⟩ :=
    copy_moves_value (f := f) (m := m) hk (BitStorage.sound_part (.block word) 1 12) hm g
  obtain ⟨-, hrefused, -⟩ :=
    copy_moves_value (f := g) (m := m) hk (BitStorage.sound_part (.block word) 4 5) hm f
  refine ⟨?_, hrefused.2 ⟨by decide +kernel, ?_⟩⟩
  · obtain ⟨n, hn, -, -, hw⟩ := hgo (by decide +kernel)
      ⟨by rw [hvalue]; exact ⟨by decide, by decide⟩, rfl⟩ (by decide)
    refine ⟨n, hn, by rw [hw.read, hvalue], hw.get_eq (by decide), hw.get_eq (by decide)⟩
  · rintro ⟨h, -⟩
    rw [hwide] at h
    exact absurd h.2 (by decide)

end Field

end Packed
