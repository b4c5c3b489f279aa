import Packed.Memory

namespace Packed

section

variable {ε σ α β : Type} {x : EStateM ε σ α} {f : α → EStateM ε σ β} {s t : σ}

theorem bind_ok {a : α} (h : x s = .ok a t) (f : α → EStateM ε σ β) : (x >>= f) s = f a t := by
  change EStateM.bind x f s = f a t
  rw [EStateM.bind, h]

theorem bind_error {e : ε} (h : x s = .error e t) : (x >>= f) s = .error e t := by
  change EStateM.bind x f s = .error e t
  rw [EStateM.bind, h]

theorem bind_eq_ok_iff {b : β} {u : σ} :
    (x >>= f) s = .ok b u ↔ ∃ a t, x s = .ok a t ∧ f a t = .ok b u := by
  change EStateM.bind x f s = .ok b u ↔ _
  rw [EStateM.bind]
  cases x s <;> simp [and_assoc]

end

theorem Action.eq_ok {ε : Type} {x : Action ε Unit} {m n : Memory}
    (h : (match x m with | .ok _ n' => decide (n' = n) | .error _ _ => false) = true) :
    x m = .ok () n := by
  cases hx : x m with
  | ok _ n' =>
      rw [hx, decide_eq_true_eq] at h
      rw [h]
  | error _ _ =>
      rw [hx] at h
      cases h

theorem Action.eq_error {ε : Type} [DecidableEq ε] {x : Action ε Unit} {m n : Memory} {e : ε}
    (h : (match x m with
      | .ok _ _ => false
      | .error e' n' => decide (e' = e) && decide (n' = n)) = true) : x m = .error e n := by
  cases hx : x m with
  | ok _ _ =>
      rw [hx] at h
      cases h
  | error e' n' =>
      simp only [hx, Bool.and_eq_true, decide_eq_true_eq] at h
      rw [h.1, h.2]

theorem Action.forM_of_forall_ok {ε α : Type} {f : α → Action ε Unit} {g : Memory → α → Memory}
    {l : List α} (h : ∀ a ∈ l, ∀ m, f a m = .ok () (g m a)) (m : Memory) :
    l.forM f m = .ok () (l.foldl g m) := by
  induction l generalizing m with
  | nil => rfl
  | cons a l ih =>
      rw [List.forM_eq_forM, List.forM_cons, bind_ok (h a List.mem_cons_self m)]
      exact ih (fun b hb => h b (List.mem_cons_of_mem a hb)) (g m a)

theorem Except.foldlM_of_forall_ok {ε α β : Type} {f : β → α → Except ε β} {g : β → α → β}
    {l : List α} (h : ∀ a ∈ l, ∀ b, f b a = .ok (g b a)) (b : β) :
    l.foldlM f b = .ok (l.foldl g b) := by
  induction l generalizing b with
  | nil => rfl
  | cons a l ih =>
      rw [List.foldlM_cons, h a List.mem_cons_self]
      exact ih (fun c hc => h c (List.mem_cons_of_mem a hc)) (g b a)

theorem Except.mapM_of_forall_ok {ε α β : Type} {f : α → Except ε β} {g : α → β} {l : List α}
    (h : ∀ a ∈ l, f a = .ok (g a)) : l.mapM f = .ok (l.map g) := by
  induction l with
  | nil => rfl
  | cons a l ih =>
      rw [List.mapM_cons, h a List.mem_cons_self, ih fun c hc => h c (List.mem_cons_of_mem a hc)]
      rfl

end Packed
