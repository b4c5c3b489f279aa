import Packed.Proofs.Modular

namespace Packed

def IntType.atMost (t : IntType) (x y : BitVec t.bits) : Bool :=
  if t.signed then x.sle y else x.ule y

theorem IntType.atMost_iff {t : IntType} {x y : BitVec t.bits} :
    t.atMost x y = true ↔ t.number x ≤ t.number y := by
  rw [atMost, number, number]
  split
  · exact BitVec.sle_iff_toInt_le
  · rw [BitVec.ule_iff_toNat_le, Nat.cast_le]

namespace Known

variable {r i : IntType} {values : List (Option Int)}

theorem maximumFrom_of_unknown (h : none ∈ values) (best : Option Int) :
    maximumFrom i best values = none := by
  induction values generalizing best with
  | nil => cases h
  | cons v rest ih =>
      cases v with
      | none => rfl
      | some a =>
          have hrest : none ∈ rest := (List.mem_cons.1 h).resolve_left nofun
          cases best with
          | none => exact ih hrest _
          | some current => exact ih hrest _

theorem maximumFrom_some (i : IntType) (current : Int) (xs : List Int) :
    maximumFrom i (some current) (xs.map some) = some ((xs.map i.wrap).foldl max current) := by
  induction xs generalizing current with
  | nil => rfl
  | cons a rest ih =>
      have hstep : (if i.wrap a ≤ current then current else i.wrap a) = max current (i.wrap a) :=
        (max_def' _ _).symm
      rw [List.map_cons, maximumFrom, hstep, ih, List.map_cons, List.foldl_cons]

theorem maximum_of_unknown (h : none ∈ values) : maximum r i values = none := by
  rw [maximum, maximumFrom_of_unknown h]
  rfl

theorem maximum_map_some (r i : IntType) (xs : List Int) :
    maximum r i (xs.map some) = (xs.map i.wrap).max?.map r.wrap := by
  cases xs with
  | nil => rfl
  | cons a rest =>
      rw [maximum, List.map_cons, maximumFrom, maximumFrom_some, List.map_cons, List.max?_cons']

theorem exists_map_some (h : none ∉ values) : ∃ xs : List Int, xs.map some = values := by
  induction values with
  | nil => exact ⟨[], rfl⟩
  | cons v rest ih =>
      obtain ⟨xs, rfl⟩ := ih fun hrest => h (List.mem_cons_of_mem v hrest)
      cases v with
      | none => exact absurd List.mem_cons_self h
      | some a => exact ⟨a :: xs, rfl⟩

/-- A number of the list that none of the others exceeds in the intermediate type. -/
def Tops (i : IntType) (values : List (Option Int)) (x : Int) : Prop :=
  some x ∈ values ∧ ∀ y, some y ∈ values → i.wrap y ≤ i.wrap x

theorem maximum_eq_some_iff {n : Int} : maximum r i values = some n ↔
    none ∉ values ∧ ∃ x, Tops i values x ∧ n = r.wrap (i.wrap x) := by
  by_cases hnone : none ∈ values
  · rw [maximum_of_unknown hnone]
    exact iff_of_false nofun fun h => h.1 hnone
  · obtain ⟨xs, rfl⟩ := exists_map_some hnone
    rw [maximum_map_some, Option.map_eq_some_iff, and_iff_right hnone]
    simp only [List.max?_eq_some_iff, Tops, List.mem_map, Option.some.injEq, exists_eq_right,
      forall_exists_index, and_imp, forall_apply_eq_imp_iff₂]
    constructor
    · rintro ⟨_, ⟨⟨x, hx, rfl⟩, htop⟩, rfl⟩
      exact ⟨x, ⟨hx, htop⟩, rfl⟩
    · rintro ⟨x, ⟨hx, htop⟩, rfl⟩
      exact ⟨_, ⟨⟨x, hx, rfl⟩, htop⟩, rfl⟩

theorem isSome_maximum_iff :
    (maximum r i values).isSome = true ↔ values ≠ [] ∧ ∀ v ∈ values, v.isSome = true := by
  by_cases hnone : none ∈ values
  · rw [maximum_of_unknown hnone]
    exact iff_of_false nofun fun h => nomatch h.2 _ hnone
  · obtain ⟨xs, rfl⟩ := exists_map_some hnone
    rw [maximum_map_some, Option.isSome_map, List.isSome_max?_iff]
    simp

theorem maximum_congr {others : List (Option Int)} (h : ∀ v, v ∈ others ↔ v ∈ values) :
    maximum r i others = maximum r i values := by
  apply Option.ext
  intro n
  simp only [maximum_eq_some_iff, Tops, h]

theorem maximum_number_eq_some_iff (t : IntType) (patterns : List (Option (BitVec t.bits)))
    {n : Int} : maximum r i (patterns.map (Option.map t.number)) = some n ↔
      none ∉ patterns ∧ ∃ x, (some x ∈ patterns ∧
        ∀ y, some y ∈ patterns → i.atMost (t.cast i y) (t.cast i x) = true) ∧
          n = r.number (i.cast r (t.cast i x)) := by
  simp only [maximum_eq_some_iff, Tops, List.mem_map, Option.map_eq_none_iff,
    Option.map_eq_some_iff, exists_eq_right, IntType.atMost_iff, IntType.number_cast]
  refine and_congr_right fun _ => ?_
  constructor
  · rintro ⟨_, ⟨⟨_, hx, x, rfl, rfl⟩, htop⟩, hn⟩
    exact ⟨x, ⟨hx, fun y hy => htop _ ⟨_, hy, y, rfl, rfl⟩⟩, hn⟩
  · rintro ⟨x, ⟨hx, htop⟩, hn⟩
    refine ⟨_, ⟨⟨_, hx, x, rfl, rfl⟩, ?_⟩, hn⟩
    rintro _ ⟨_, hy, y, rfl, rfl⟩
    exact htop y hy

/-- The maximum is known just if there are numbers and all of them are known. It is then the one
that no other exceeds in the order of the intermediate type, whatever type the numbers have, cast to
the type of the result. So a list with the same numbers in another order, or with some of them more
than once, has the same maximum, and a single unknown number makes it unknown. -/
theorem maximum_greatest (r i : IntType) (values : List (Option Int)) :
    ((maximum r i values).isSome = true ↔ values ≠ [] ∧ ∀ v ∈ values, v.isSome = true) ∧
    (∀ n, maximum r i values = some n ↔
      none ∉ values ∧ ∃ x, Tops i values x ∧ n = r.wrap (i.wrap x)) ∧
    (∀ (t : IntType) (patterns : List (Option (BitVec t.bits))) (n : Int),
      maximum r i (patterns.map (Option.map t.number)) = some n ↔
        none ∉ patterns ∧ ∃ x, (some x ∈ patterns ∧
          ∀ y, some y ∈ patterns → i.atMost (t.cast i y) (t.cast i x) = true) ∧
            n = r.number (i.cast r (t.cast i x))) ∧
    (∀ others, (∀ v, v ∈ others ↔ v ∈ values) → maximum r i others = maximum r i values) ∧
    (none ∈ values → maximum r i values = none) :=
  ⟨isSome_maximum_iff, fun _ => maximum_eq_some_iff,
    fun t patterns _ => maximum_number_eq_some_iff t patterns, fun _ => maximum_congr,
    maximum_of_unknown⟩

/-- Signed bytes compared without their sign, for sixteen bits: minus one is the greatest, and is
255. -/
theorem maximum_greatest_of_signed_bytes :
    let pair : IntType := ⟨true, 16⟩
    let byte : IntType := ⟨false, 8⟩
    let values : List (Option Int) := [some (-1), some 5, some (-128)]
    maximum pair byte values = some 255 ∧
      maximum pair byte [some 5, some (-128), some (-1), some 5] = some 255 ∧
      maximum pair byte [some (-1), none, some 5] = none := by
  intro pair byte values
  obtain ⟨-, hgreatest, -, hsame, -⟩ := maximum_greatest pair byte values
  have htop : Tops byte values (-1) := ⟨by decide, by simp [values, byte, IntType.wrap]⟩
  have hmax := (hgreatest 255).2 ⟨by decide, -1, htop, by decide⟩
  have hmixed := hsame [some 5, some (-128), some (-1), some 5] fun v => by
    simp only [values, List.mem_cons, List.not_mem_nil, or_false]
    tauto
  exact ⟨hmax, hmixed.trans hmax, (maximum_greatest pair byte _).2.2.2.2 (by decide)⟩

end Known

end Packed
