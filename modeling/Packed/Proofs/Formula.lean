import Mathlib.Data.List.Forall2
import Mathlib.Data.Option.NAry
import Packed.Formula

namespace Packed

namespace Known

variable {α β γ : Type} {a a' : Option α} {b b' : Option β}

def Learns (a a' : Option α) : Prop := ∀ x, a = some x → a' = some x

theorem learns_refl (a : Option α) : Learns a a := fun _ h => h

theorem learns_none (a : Option α) : Learns none a := fun _ h => nomatch h

theorem Learns.map (h : Learns a a') (f : α → β) : Learns (a.map f) (a'.map f) := by
  cases a with
  | none => exact learns_none _
  | some x =>
      rw [h x rfl]
      exact learns_refl _

theorem Learns.map₂ (ha : Learns a a') (hb : Learns b b') (f : α → β → γ) :
    Learns (Option.map₂ f a b) (Option.map₂ f a' b') := by
  cases a with
  | none => exact learns_none _
  | some x =>
      rw [ha x rfl]
      cases b with
      | none => exact learns_none _
      | some y =>
          rw [hb y rfl]
          exact learns_refl _

section

variable {a a' b b' : Option Int}

theorem Learns.arithmetic (ha : Learns a a') (hb : Learns b b') (op : Operation) (r i : IntType) :
    Learns (arithmetic op r i a b) (arithmetic op r i a' b') := by
  have hstrict : ∀ a b, Known.arithmetic op r i a b =
      Option.map₂ (fun x y => r.wrap (i.wrap (op.apply (i.wrap x) (i.wrap y)))) a b := by
    intro a b
    cases a <;> cases b <;> rfl
  rw [hstrict, hstrict]
  exact ha.map₂ hb _

theorem Learns.compare (ha : Learns a a') (hb : Learns b b') (op : Comparison) (i : IntType) :
    Learns (compare op i a b) (compare op i a' b') := by
  have hstrict : ∀ a b, Known.compare op i a b =
      Option.map₂ (fun x y => op.holds (i.wrap x) (i.wrap y)) a b := by
    intro a b
    cases a <;> cases b <;> rfl
  rw [hstrict, hstrict]
  exact ha.map₂ hb _

theorem Learns.choice {c c' : Option Bool} (hc : Learns c c') (ha : Learns a a')
    (hb : Learns b b') (r : IntType) : Learns (choice r c a b) (choice r c' a' b') := by
  cases c with
  | none => exact learns_none _
  | some x =>
      rw [hc x rfl]
      cases x with
      | false => exact hb.map r.wrap
      | true => exact ha.map r.wrap

theorem learns_maximumFrom {xs ys : List (Option Int)} (h : List.Forall₂ Learns xs ys)
    (i : IntType) (best : Option Int) : Learns (maximumFrom i best xs) (maximumFrom i best ys) := by
  induction h generalizing best with
  | nil => exact learns_refl _
  | @cons a a' xs ys ha hrest ih =>
      cases a with
      | none => exact learns_none _
      | some x =>
          rw [ha x rfl]
          cases best with
          | none => exact ih _
          | some current => exact ih _

theorem learns_maximum {xs ys : List (Option Int)} (h : List.Forall₂ Learns xs ys)
    (r i : IntType) : Learns (maximum r i xs) (maximum r i ys) :=
  (learns_maximumFrom h i none).map r.wrap

end

section

variable {a a' b b' : Option Bool}

theorem both_eq_false_iff : both a b = some false ↔ a = some false ∨ b = some false := by
  rcases a with _ | _ | _ <;> rcases b with _ | _ | _ <;> decide

theorem both_eq_true_iff : both a b = some true ↔ a = some true ∧ b = some true := by
  rcases a with _ | _ | _ <;> rcases b with _ | _ | _ <;> decide

theorem either_eq_false_iff : either a b = some false ↔ a = some false ∧ b = some false := by
  rcases a with _ | _ | _ <;> rcases b with _ | _ | _ <;> decide

theorem either_eq_true_iff : either a b = some true ↔ a = some true ∨ b = some true := by
  rcases a with _ | _ | _ <;> rcases b with _ | _ | _ <;> decide

theorem Learns.both (ha : Learns a a') (hb : Learns b b') : Learns (both a b) (both a' b') := by
  intro x h
  cases x with
  | false => exact both_eq_false_iff.2 ((both_eq_false_iff.1 h).imp (ha false) (hb false))
  | true => exact both_eq_true_iff.2 ((both_eq_true_iff.1 h).imp (ha true) (hb true))

theorem Learns.either (ha : Learns a a') (hb : Learns b b') :
    Learns (either a b) (either a' b') := by
  intro x h
  cases x with
  | false => exact either_eq_false_iff.2 ((either_eq_false_iff.1 h).imp (ha false) (hb false))
  | true => exact either_eq_true_iff.2 ((either_eq_true_iff.1 h).imp (ha true) (hb true))

end

end Known

namespace Formula

mutual

/-- The one formula is the other with numbers in the place of some of its unknown leaves. -/
inductive Learns : Formula → Formula → Prop
  | kept (t : IntType) (value : Option Int) : Learns (leaf t value) (leaf t value)
  | told (t : IntType) (n : Int) : Learns (leaf t none) (leaf t (some n))
  | arithmetic {a a' b b' : Formula} (op : Known.Operation) (r i : IntType) (ha : Learns a a')
      (hb : Learns b b') : Learns (arithmetic op r i a b) (arithmetic op r i a' b')
  | maximum {xs ys : List Formula} (r i : IntType) (h : AllLearn xs ys) :
      Learns (maximum r i xs) (maximum r i ys)
  | compare {a a' b b' : Formula} (op : Known.Comparison) (i : IntType) (ha : Learns a a')
      (hb : Learns b b') : Learns (compare op i a b) (compare op i a' b')
  | both {a a' b b' : Formula} (ha : Learns a a') (hb : Learns b b') :
      Learns (both a b) (both a' b')
  | either {a a' b b' : Formula} (ha : Learns a a') (hb : Learns b b') :
      Learns (either a b) (either a' b')
  | choice {c c' a a' b b' : Formula} (r : IntType) (hc : Learns c c') (ha : Learns a a')
      (hb : Learns b b') : Learns (choice r c a b) (choice r c' a' b')

inductive AllLearn : List Formula → List Formula → Prop
  | nil : AllLearn [] []
  | cons {a a' : Formula} {xs ys : List Formula} (ha : Learns a a') (hrest : AllLearn xs ys) :
      AllLearn (a :: xs) (a' :: ys)

end

mutual

theorem Learns.eval {f g : Formula} : Learns f g → Known.Learns f.eval g.eval
  | .kept _ value => Known.learns_refl value
  | .told _ n => Known.learns_none (some n)
  | .arithmetic op r i ha hb => ha.eval.arithmetic hb.eval op r i
  | .maximum r i h => Known.learns_maximum h.evalAll r i
  | .compare op i ha hb => (ha.eval.compare hb.eval op i).map _
  | .both ha hb => ((ha.eval.map _).both (hb.eval.map _)).map _
  | .either ha hb => ((ha.eval.map _).either (hb.eval.map _)).map _
  | .choice r hc ha hb => (hc.eval.map _).choice ha.eval hb.eval r

theorem AllLearn.evalAll {xs ys : List Formula} :
    AllLearn xs ys → List.Forall₂ Known.Learns (evalAll xs) (evalAll ys)
  | .nil => .nil
  | .cons ha hrest => .cons ha.eval hrest.evalAll

end

/-- A value that is known while some leaves are not stays what it is, whatever numbers those leaves
turn out to have. -/
theorem known_value_stays {f g : Formula} (h : f.Learns g) {n : Int} (hf : f.eval = some n) :
    g.eval = some n :=
  h.eval n hf

/-- The false side of a conjunction picks a maximum, so that neither the other side nor the branch
that is not picked matters. -/
theorem known_value_stays_past_unknown_branch :
    let byte : IntType := ⟨false, 8⟩
    let tree (condition branch : Option Int) : Formula :=
      .choice byte
        (.both (.leaf .truth condition)
          (.compare .less ⟨true, 16⟩ (.leaf byte (some 3)) (.leaf ⟨true, 8⟩ (some (-1)))))
        (.leaf ⟨false, 64⟩ branch)
        (.maximum byte byte [.leaf byte (some 4),
          .arithmetic .difference byte byte (.leaf byte (some 1)) (.leaf byte (some 7))])
    (tree none none).eval = some 250 ∧ (tree (some 1) (some 99)).eval = some 250 := by
  intro byte tree
  have hknown : (tree none none).eval = some 250 := by decide +kernel
  have hlearns : (tree none none).Learns (tree (some 1) (some 99)) :=
    .choice _ (.both (.told _ 1) (.compare _ _ (.kept _ _) (.kept _ _))) (.told _ 99)
      (.maximum _ _ (.cons (.kept _ _) (.cons (.arithmetic _ _ _ (.kept _ _) (.kept _ _)) .nil)))
  exact ⟨hknown, known_value_stays hlearns hknown⟩

end Formula

end Packed
