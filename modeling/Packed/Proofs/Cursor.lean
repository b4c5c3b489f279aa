import Mathlib.Data.List.Perm.Subperm
import Packed.Array.Basic
import Packed.Array.Cursor

namespace Packed

inductive Taking where
  | next
  | nextBack
  | nth (skipped : Nat)
  | nthBack (skipped : Nat)

namespace Taking

variable {σ α β : Type}

def ofCursor : Taking → Cursor → Option Nat × Cursor
  | next, c => c.next
  | nextBack, c => c.nextBack
  | nth n, c => c.nth n
  | nthBack n, c => c.nthBack n

def popFront (q : List α) : Option α × List α := (q.head?, q.tail)

def popBack (q : List α) : Option α × List α := (q.getLast?, q.dropLast)

def ofQueue : Taking → List α → Option α × List α
  | next, q => popFront q
  | nextBack, q => popBack q
  | nth n, q => popFront (q.drop n)
  | nthBack n, q => popBack (q.take (q.length - n))

def run (take : Taking → σ → Option α × σ) : List Taking → σ → List (Option α) × σ
  | [], s => ([], s)
  | t :: ts, s => ((take t s).1 :: (run take ts (take t s).2).1, (run take ts (take t s).2).2)

variable {t : Taking} {q : List α}

theorem popFront_map (f : α → β) (q : List α) :
    popFront (q.map f) = ((popFront q).1.map f, (popFront q).2.map f) := by
  rw [popFront, List.head?_map, ← List.map_tail]
  rfl

theorem popBack_map (f : α → β) (q : List α) :
    popBack (q.map f) = ((popBack q).1.map f, (popBack q).2.map f) := by
  rw [popBack, List.getLast?_map, ← List.map_dropLast]
  rfl

theorem ofQueue_map (t : Taking) (f : α → β) (q : List α) :
    t.ofQueue (q.map f) = ((t.ofQueue q).1.map f, (t.ofQueue q).2.map f) := by
  cases t with
  | next => exact popFront_map f q
  | nextBack => exact popBack_map f q
  | nth n => rw [ofQueue, ← List.map_drop, popFront_map, ofQueue]
  | nthBack n => rw [ofQueue, List.length_map, ← List.map_take, popBack_map, ofQueue]

theorem run_map (f : α → β) (ts : List Taking) (q : List α) :
    run ofQueue ts (q.map f) =
      ((run ofQueue ts q).1.map (Option.map f), (run ofQueue ts q).2.map f) := by
  induction ts generalizing q with
  | nil => rfl
  | cons t ts ih => simp only [run, ofQueue_map, ih, List.map_cons]

theorem popFront_subperm (q : List α) :
    List.Subperm ((popFront q).1.toList ++ (popFront q).2) q := by
  cases q <;> exact List.Subperm.refl _

theorem popBack_subperm (q : List α) :
    List.Subperm ((popBack q).1.toList ++ (popBack q).2) q := by
  rcases List.eq_nil_or_concat' q with rfl | ⟨q, x, rfl⟩
  · exact List.Subperm.refl _
  · rw [popBack, List.getLast?_concat, List.dropLast_concat]
    exact List.perm_append_comm.subperm

theorem ofQueue_subperm (t : Taking) (q : List α) :
    List.Subperm ((t.ofQueue q).1.toList ++ (t.ofQueue q).2) q := by
  cases t with
  | next => exact popFront_subperm q
  | nextBack => exact popBack_subperm q
  | nth n => exact (popFront_subperm _).trans (List.drop_sublist n q).subperm
  | nthBack n => exact (popBack_subperm _).trans (List.take_sublist _ q).subperm

theorem left_of_popFront (h : (popFront q).1 = none) : (popFront q).2 = [] := by
  rw [popFront, List.head?_eq_none_iff] at h
  rw [h]
  rfl

theorem left_of_popBack (h : (popBack q).1 = none) : (popBack q).2 = [] := by
  rw [popBack, List.getLast?_eq_none_iff] at h
  rw [h]
  rfl

theorem left_of_ofQueue (h : (t.ofQueue q).1 = none) : (t.ofQueue q).2 = [] := by
  cases t with
  | next => exact left_of_popFront h
  | nextBack => exact left_of_popBack h
  | nth n => exact left_of_popFront h
  | nthBack n => exact left_of_popBack h

theorem ofQueue_nil (t : Taking) : t.ofQueue ([] : List α) = (none, []) := by
  cases t <;> simp [ofQueue, popFront, popBack]

theorem run_ofQueue_nil (ts : List Taking) :
    run ofQueue ts ([] : List α) = (List.replicate ts.length none, []) := by
  induction ts with
  | nil => rfl
  | cons t ts ih => simp only [run, ofQueue_nil, ih, List.length_cons, List.replicate_succ]

theorem run_ofQueue_answers (ts : List Taking) (q : List α) : ∃ taken ended,
    (run ofQueue ts q).1 = taken.map some ++ List.replicate ended none ∧
      List.Subperm (taken ++ (run ofQueue ts q).2) q := by
  induction ts generalizing q with
  | nil => exact ⟨[], 0, rfl, List.Subperm.refl q⟩
  | cons t ts ih =>
      have hstep := t.ofQueue_subperm q
      cases ht : (t.ofQueue q).1 with
      | none =>
          refine ⟨[], ts.length + 1, ?_, ?_⟩
          · simp only [run, ht, left_of_ofQueue ht, run_ofQueue_nil]
            rfl
          · simp only [run, left_of_ofQueue ht, run_ofQueue_nil]
            exact List.nil_subperm
      | some x =>
          obtain ⟨taken, ended, hanswers, hleft⟩ := ih (t.ofQueue q).2
          refine ⟨x :: taken, ended, ?_, ?_⟩
          · simp only [run, ht, hanswers]
            rfl
          · rw [ht] at hstep
            exact ((List.subperm_append_left [x]).2 hleft).trans hstep

end Taking

namespace Cursor

variable {c : Cursor}

/-- The marks are in order, and both are sizes. -/
structure Valid (c : Cursor) : Prop where
  ordered : c.front ≤ c.back
  back_lt : c.back < sizeLimit

theorem valid_ofCount {count : Nat} (h : count < sizeLimit) : (ofCount count).Valid :=
  ⟨Nat.zero_le _, h⟩

theorem toList_ofCount (count : Nat) : (ofCount count).toList = List.range count :=
  List.range_eq_range'.symm

theorem length_toList (c : Cursor) : c.toList.length = c.back - c.front := List.length_range'

theorem Valid.remaining (h : c.Valid) : c.remaining = .ok c.toList.length := by
  rw [Cursor.remaining, if_neg (Nat.not_lt.2 h.ordered), length_toList]

/-- A cursor answers as a queue does, and goes on with what the queue is left with. -/
structure Follows (r : Option Nat × Cursor) (s : Option Nat × List Nat) : Prop where
  answer : r.1 = s.1
  left : r.2.toList = s.2
  valid : r.2.Valid

theorem Valid.next (h : c.Valid) : Follows c.next (Taking.popFront c.toList) := by
  have hle := h.ordered
  have hlt := h.back_lt
  rw [Cursor.next]
  split
  · have hnil : c.toList = [] := by rw [toList, show c.back - c.front = 0 by omega]; rfl
    rw [hnil]
    exact ⟨rfl, hnil, h⟩
  · have hcons : c.toList = c.front :: List.range' (c.front + 1) (c.back - (c.front + 1)) := by
      rw [toList, show c.back - c.front = c.back - (c.front + 1) + 1 by omega, List.range'_succ]
    rw [hcons]
    exact ⟨rfl, rfl, ⟨by dsimp only; omega, hlt⟩⟩

theorem Valid.nextBack (h : c.Valid) : Follows c.nextBack (Taking.popBack c.toList) := by
  have hle := h.ordered
  have hlt := h.back_lt
  rw [Cursor.nextBack]
  split
  · have hnil : c.toList = [] := by rw [toList, show c.back - c.front = 0 by omega]; rfl
    rw [hnil]
    exact ⟨rfl, hnil, h⟩
  · have hconcat : c.toList = List.range' c.front (c.back - 1 - c.front) ++ [c.back - 1] := by
      rw [toList, show c.back - c.front = c.back - 1 - c.front + 1 by omega,
        List.range'_1_concat, show c.front + (c.back - 1 - c.front) = c.back - 1 by omega]
    rw [hconcat, Taking.popBack, List.getLast?_concat, List.dropLast_concat]
    exact ⟨rfl, rfl, ⟨by dsimp only; omega, by dsimp only; omega⟩⟩

theorem Valid.skip (h : c.Valid) (n : Nat) :
    Valid { c with front := min (saturate (c.front + n)) c.back } ∧
      toList { c with front := min (saturate (c.front + n)) c.back } = c.toList.drop n := by
  have hle := h.ordered
  have hlt := h.back_lt
  have hmin : min (saturate (c.front + n)) c.back = min (c.front + n) c.back := by
    rw [saturate]
    omega
  refine ⟨⟨Nat.min_le_right _ _, hlt⟩, ?_⟩
  rw [toList, toList, List.drop_range', Nat.mul_one, hmin, Nat.sub_sub]
  dsimp only
  obtain hn | hn := Nat.le_total (c.front + n) c.back
  · rw [Nat.min_eq_left hn]
  · rw [Nat.min_eq_right hn, Nat.sub_self, Nat.sub_eq_zero_of_le hn]
    rfl

theorem Valid.skipBack (h : c.Valid) (n : Nat) :
    Valid { c with back := max (c.back - n) c.front } ∧
      toList { c with back := max (c.back - n) c.front } =
        c.toList.take (c.toList.length - n) := by
  have hle := h.ordered
  have hlt := h.back_lt
  refine ⟨⟨Nat.le_max_right _ _, by dsimp only; omega⟩, ?_⟩
  rw [length_toList, toList, toList, List.take_range'_of_length_ge (Nat.sub_le _ _)]
  dsimp only
  congr 1
  omega

theorem Valid.follows (h : c.Valid) (t : Taking) : Follows (t.ofCursor c) (t.ofQueue c.toList) := by
  cases t with
  | next => exact h.next
  | nextBack => exact h.nextBack
  | nth n =>
      obtain ⟨hv, hl⟩ := h.skip n
      rw [Taking.ofQueue, ← hl]
      exact hv.next
  | nthBack n =>
      obtain ⟨hv, hl⟩ := h.skipBack n
      rw [Taking.ofQueue, ← hl]
      exact hv.nextBack

theorem Valid.run (h : c.Valid) (ts : List Taking) :
    (Taking.run Taking.ofCursor ts c).1 = (Taking.run Taking.ofQueue ts c.toList).1 ∧
      (Taking.run Taking.ofCursor ts c).2.toList = (Taking.run Taking.ofQueue ts c.toList).2 ∧
      (Taking.run Taking.ofCursor ts c).2.Valid := by
  induction ts generalizing c with
  | nil => exact ⟨rfl, rfl, h⟩
  | cons t ts ih =>
      have hstep := h.follows t
      obtain ⟨hanswers, hleft, hvalid⟩ := ih hstep.valid
      rw [hstep.left] at hanswers hleft
      refine ⟨?_, hleft, hvalid⟩
      simp only [Taking.run, hstep.answer, hanswers]

end Cursor

namespace ArrayView

variable {S : Type} [Tiled S]

def take (a : ArrayView S) (t : Taking) (c : Cursor) : Option S × Cursor :=
  ((t.ofCursor c).1.map a.slot, (t.ofCursor c).2)

theorem run_take (a : ArrayView S) (ts : List Taking) (c : Cursor) :
    Taking.run a.take ts c = ((Taking.run Taking.ofCursor ts c).1.map (Option.map a.slot),
      (Taking.run Taking.ofCursor ts c).2) := by
  induction ts generalizing c with
  | nil => rfl
  | cons t ts ih =>
      simp only [Taking.run, ih, List.map_cons]
      rfl

/-- Whatever is taken from an array, from whichever end and after skipping however many, the answers
are those of a queue with two ends that holds its elements, and the number of elements to come is
always that of the queue. No element is taken twice, and after an answer without an element there is
none in any later one. -/
theorem iteration_is_queue (a : ArrayView S) (ha : a.size < sizeLimit) (ts : List Taking) :
    (Taking.run a.take ts (.ofCount a.count)).1 =
        (Taking.run Taking.ofQueue ts (tiles a.storage a.stride)).1 ∧
      (Taking.run a.take ts (.ofCount a.count)).2.remaining =
        .ok (Taking.run Taking.ofQueue ts (tiles a.storage a.stride)).2.length ∧
      ∃ taken : List Nat, ∃ ended, taken.Nodup ∧ (∀ i ∈ taken, i < a.count) ∧
        (Taking.run a.take ts (.ofCount a.count)).1 =
          taken.map (fun i => some (a.slot i)) ++ List.replicate ended none := by
  have hcount : a.count < sizeLimit := Nat.lt_of_le_of_lt (Nat.div_le_self _ _) ha
  obtain ⟨hanswers, hleft, hvalid⟩ := (Cursor.valid_ofCount hcount).run ts
  rw [Cursor.toList_ofCount] at hanswers hleft
  obtain ⟨taken, ended, htaken, hsub⟩ := Taking.run_ofQueue_answers ts (List.range a.count)
  have htiles : tiles a.storage a.stride = (List.range a.count).map a.slot := rfl
  rw [run_take, htiles, Taking.run_map]
  refine ⟨?_, ?_, taken, ended, ?_, ?_, ?_⟩
  · dsimp only
    rw [hanswers]
  · dsimp only
    rw [hvalid.remaining, hleft, List.length_map]
  · obtain ⟨l, hperm, hl⟩ := hsub
    have hnodup := hperm.nodup_iff.1 (List.nodup_range.sublist hl)
    exact (List.nodup_append.1 hnodup).1
  · intro i hi
    exact List.mem_range.1 (hsub.subset (List.mem_append_left _ hi))
  · dsimp only
    rw [hanswers, htaken, List.map_append, List.map_map, List.map_replicate]
    rfl

/-- Four pairs of bytes: the second and the third are taken, and a jump from either end meets the
other mark. -/
theorem iteration_is_queue_of_four_pairs :
    let t : ScalarType Buffer :=
      ⟨.unsigned, 16, ⟨by decide, by decide⟩, fun _ => true, fun b => .block ⟨.bigPair, b⟩⟩
    let a : ArrayView Buffer := ⟨.scalar t, 2, Nat.two_pos, .ofRegion ⟨0, 8⟩⟩
    let ts : List Taking := [.nth 1, .nthBack 1, .nth (sizeLimit - 1), .nextBack]
    a.size < sizeLimit ∧
      (Taking.run a.take ts (.ofCount a.count)).1 =
        [some (a.slot 1), some (a.slot 2), none, none] ∧
      (Taking.run a.take ts (.ofCount a.count)).2.remaining = .ok 0 := by
  intro t a ts
  have ha : a.size < sizeLimit := by decide
  obtain ⟨hanswers, hremaining, -⟩ := iteration_is_queue a ha ts
  exact ⟨ha, hanswers.trans (by decide), hremaining.trans (congrArg Except.ok (by decide))⟩

end ArrayView

end Packed
