import Packed.Proofs.FieldWrite

namespace Packed

theorem Memory.ext_bit {m n : Memory} (hl : m.length = n.length) (h : ∀ p, m.bit p = n.bit p) :
    m = n :=
  Memory.ext_get hl fun _ => Memory.get_eq_of_bit fun _ _ => h _

variable {ι : Type} {K : ι → Kind} {log log' : List ((i : ι) × (K i).Value)}
  {i : ι} {v : (K i).Value}

def Latest (log : List ((i : ι) × (K i).Value)) (i : ι) (v : (K i).Value) : Prop :=
  ∃ before after, log = before ++ ⟨i, v⟩ :: after ∧ ∀ e ∈ after, e.1 ≠ i

theorem Latest.mem (h : Latest log i v) : ⟨i, v⟩ ∈ log := by
  obtain ⟨before, after, rfl, -⟩ := h
  exact List.mem_append_right _ List.mem_cons_self

theorem Latest.cons (h : Latest log i v) (e : (i : ι) × (K i).Value) : Latest (e :: log) i v := by
  obtain ⟨before, after, rfl, hafter⟩ := h
  exact ⟨e :: before, after, rfl, hafter⟩

theorem latest_cons_iff {e : (i : ι) × (K i).Value} : Latest (e :: log) i v ↔
    (e = ⟨i, v⟩ ∧ ∀ x ∈ log, x.1 ≠ i) ∨ Latest log i v := by
  constructor
  · rintro ⟨before, after, he, hafter⟩
    cases before with
    | nil =>
        obtain ⟨rfl, rfl⟩ := List.cons.inj he
        exact .inl ⟨rfl, hafter⟩
    | cons x before =>
        obtain ⟨rfl, rfl⟩ := List.cons.inj he
        exact .inr ⟨before, after, rfl, hafter⟩
  · rintro (⟨rfl, hafter⟩ | h)
    · exact ⟨[], log, rfl, hafter⟩
    · exact h.cons e

theorem exists_latest (h : ∃ e ∈ log, e.1 = i) : ∃ v, Latest log i v := by
  induction log with
  | nil =>
      obtain ⟨e, he, -⟩ := h
      cases he
  | cons x log ih =>
      by_cases hlater : ∃ e ∈ log, e.1 = i
      · obtain ⟨v, hv⟩ := ih hlater
        exact ⟨v, hv.cons x⟩
      · obtain ⟨e, he, rfl⟩ := h
        rcases List.mem_cons.1 he with rfl | he
        · exact ⟨e.2, [], log, rfl, fun x hx hxi => hlater ⟨x, hx, hxi⟩⟩
        · exact absurd ⟨e, he, rfl⟩ hlater

theorem forall_mem_of_latest_iff (P : ι → Prop) (hlast : ∀ i v, Latest log i v ↔ Latest log' i v)
    (h : ∀ e ∈ log, P e.1) : ∀ e ∈ log', P e.1 := by
  intro e he
  obtain ⟨v, hv⟩ := exists_latest ⟨e, he, rfl⟩
  exact h ⟨e.1, v⟩ ((hlast e.1 v).2 hv).mem

theorem latest_cons_congr (hlast : ∀ i v, Latest log i v ↔ Latest log' i v)
    (e : (i : ι) × (K i).Value) : Latest (e :: log) i v ↔ Latest (e :: log') i v := by
  have hfree : (∀ x ∈ log, x.1 ≠ i) ↔ ∀ x ∈ log', x.1 ≠ i :=
    ⟨forall_mem_of_latest_iff (· ≠ i) hlast,
      forall_mem_of_latest_iff (· ≠ i) fun j w => (hlast j w).symm⟩
  rw [latest_cons_iff, latest_cons_iff, hfree, hlast]

theorem latest_swap {x y : (i : ι) × (K i).Value} (hxy : x.1 ≠ y.1) :
    Latest (x :: y :: log) i v ↔ Latest (y :: x :: log) i v := by
  have hswap : ∀ {x y : (i : ι) × (K i).Value}, x.1 ≠ y.1 →
      Latest (x :: y :: log) i v → Latest (y :: x :: log) i v := by
    intro x y hxy h
    rcases latest_cons_iff.1 h with ⟨rfl, hfree⟩ | h
    · have hfree' := fun e he => hfree e (List.mem_cons_of_mem _ he)
      exact .cons (latest_cons_iff.2 (.inl ⟨rfl, hfree'⟩)) y
    · rcases latest_cons_iff.1 h with ⟨rfl, hfree⟩ | h
      · refine latest_cons_iff.2 (.inl ⟨rfl, fun e he => ?_⟩)
        rcases List.mem_cons.1 he with rfl | he
        · exact hxy
        · exact hfree e he
      · exact (h.cons x).cons y
  exact ⟨hswap hxy, hswap hxy.symm⟩

/-- Fields over storage that is there, where no two of them have a bit in common. -/
structure Separate (F : (i : ι) → Field (K i)) (m : Memory) : Prop where
  hosted : ∀ i, (K i).Hosted
  spans : ∀ i, (F i).isComplete = true → ∃ r, (F i).storage.Spans r m
  disjoint : ∀ i j, i ≠ j → (F i).isComplete = true → (F j).isComplete = true →
    (F i).storage.Disjoint (F j).storage

/-- Memory `n` is memory `m` after the values of the log have been written in turn: a field of the
log reads as the last of its values and holds the digits of its code, and every bit that belongs to
no such field is as before. -/
structure Stored (F : (i : ι) → Field (K i)) (log : List ((i : ι) × (K i).Value)) (m n : Memory) :
    Prop where
  complete : ∀ e ∈ log, (F e.1).isComplete = true
  length : n.length = m.length
  read : ∀ i v, Latest log i v → (F i).read n = .ok v
  digits : ∀ i v, Latest log i v → ∀ b, b < (F i).storage.size →
    n.bit ((F i).storage.place b) = ((K i).code (F i).width v).testBit b
  outside : ∀ p, (∀ e ∈ log, ∀ b, b < (F e.1).storage.size → (F e.1).storage.place b ≠ p) →
    n.bit p = m.bit p

variable {F : (i : ι) → Field (K i)} {m n n' : Memory}

theorem Separate.of_length (h : Separate F m) (hl : n.length = m.length) : Separate F n where
  hosted := h.hosted
  spans i hc := (h.spans i hc).imp fun _ hs => hs.of_length hl
  disjoint := h.disjoint

theorem stored_nil (F : (i : ι) → Field (K i)) (m : Memory) : Stored F [] m m where
  complete _ h := nomatch h
  length := rfl
  read _ _ h := nomatch h.mem
  digits _ _ h := nomatch h.mem
  outside _ _ := rfl

theorem Stored.cons (hs : Separate F m) (hc : (F i).isComplete = true) (hw : (F i).Written v m n)
    (h : Stored F log n n') : Stored F (⟨i, v⟩ :: log) m n' := by
  have hkept : (∀ x ∈ log, x.1 ≠ i) → ∀ b, b < (F i).storage.size →
      n'.bit ((F i).storage.place b) = n.bit ((F i).storage.place b) := fun hlater b hb =>
    h.outside _ fun e he k hk =>
      hs.disjoint e.1 i (hlater e he) (h.complete e he) hc k b hk hb
  refine ⟨?_, h.length.trans hw.length, fun j w hl => ?_, fun j w hl => ?_, fun p hp => ?_⟩
  · intro e he
    rcases List.mem_cons.1 he with rfl | he
    · exact hc
    · exact h.complete e he
  · rcases latest_cons_iff.1 hl with ⟨he, hlater⟩ | hl
    · cases he
      obtain ⟨r, hr⟩ := hs.spans i hc
      have hload := BitStorage.load_congr (hr.of_length hw.length) h.length (hkept hlater)
      rw [Field.read_congr (congrArg (Word.mask · _) hload), hw.read]
    · exact h.read j w hl
  · rcases latest_cons_iff.1 hl with ⟨he, hlater⟩ | hl
    · cases he
      intro b hb
      rw [hkept hlater b hb, hw.digits b hb]
    · exact h.digits j w hl
  · rw [h.outside p fun e he => hp e (List.mem_cons_of_mem _ he),
      hw.outside p (hp ⟨i, v⟩ List.mem_cons_self)]

theorem Stored.congr (h : Stored F log m n) (hlast : ∀ i v, Latest log i v ↔ Latest log' i v) :
    Stored F log' m n where
  complete := forall_mem_of_latest_iff (fun i => (F i).isComplete = true) hlast h.complete
  length := h.length
  read i v hl := h.read i v ((hlast i v).2 hl)
  digits i v hl := h.digits i v ((hlast i v).2 hl)
  outside p hp := h.outside p
    (forall_mem_of_latest_iff (fun i => ∀ b, b < (F i).storage.size → (F i).storage.place b ≠ p)
      (fun i v => (hlast i v).symm) hp)

theorem Stored.unique (h : Stored F log m n) (h' : Stored F log m n') : n = n' := by
  refine Memory.ext_bit (h.length.trans h'.length.symm) fun p => ?_
  by_cases hp : ∃ e ∈ log, ∃ b, b < (F e.1).storage.size ∧ (F e.1).storage.place b = p
  · obtain ⟨e, he, b, hb, rfl⟩ := hp
    obtain ⟨v, hv⟩ := exists_latest ⟨e, he, rfl⟩
    rw [h.digits e.1 v hv b hb, h'.digits e.1 v hv b hb]
  · have hfree : ∀ e ∈ log, ∀ b, b < (F e.1).storage.size → (F e.1).storage.place b ≠ p :=
      fun e he b hb hbp => hp ⟨e, he, b, hb, hbp⟩
    rw [h.outside p hfree, h'.outside p hfree]

end Packed
