import Mathlib.Data.List.Basic
import Packed.EnumType

namespace Packed

theorem find?_of_nodup {α β : Type} [BEq β] [LawfulBEq β] {key : α → β} {xs : List α}
    (hd : (xs.map key).Nodup) {x : α} (h : x ∈ xs) : xs.find? (key · == key x) = some x := by
  induction xs with
  | nil => cases h
  | cons y ys ih =>
      obtain ⟨hn, hd⟩ := List.nodup_cons.1 hd
      obtain rfl | h := List.mem_cons.1 h
      · simp
      · have hne : key y ≠ key x := fun he => hn (List.mem_map.2 ⟨x, h, he.symm⟩)
        rw [List.find?_cons_of_neg (by simpa using hne)]
        exact ih hd h

namespace EnumType

section

variable {e : EnumType} {v : Int} {name : String}

theorem valueOf?_eq_none_iff : e.valueOf? name = none ↔ ∀ p ∈ e.entries, p.1 ≠ name := by
  rw [valueOf?, Option.map_eq_none_iff, List.find?_eq_none]
  simp

theorem valueOf?_of_append {before after : List (String × Int)} {p : String × Int}
    (he : e.entries = before ++ p :: after) (hp : p.1 = name) (hb : ∀ q ∈ before, q.1 ≠ name) :
    e.valueOf? name = some p.2 := by
  have hfind : e.entries.find? (·.1 == name) = some p :=
    List.find?_eq_some_iff_append.2 ⟨by simpa using hp, before, after, he, by simpa using hb⟩
  rw [valueOf?, hfind]
  rfl

theorem valueOf?_eq_some_iff (hd : (e.entries.map (·.1)).Nodup) :
    e.valueOf? name = some v ↔ (name, v) ∈ e.entries := by
  rw [valueOf?, Option.map_eq_some_iff]
  constructor
  · rintro ⟨⟨n, u⟩, hf, rfl⟩
    have hn : n = name := by simpa using List.find?_some hf
    exact hn ▸ List.mem_of_find?_eq_some hf
  · intro h
    exact ⟨(name, v), find?_of_nodup hd h, rfl⟩

/-- The name shown for a value: of all the entries of the value, the policy takes the first or the
last. -/
def Shows (e : EnumType) (value : Int) (name : String) : Prop :=
  ∃ before after, e.entries = before ++ (name, value) :: after ∧
    match e.policy with
    | .first => ∀ p ∈ before, p.2 ≠ value
    | .last => ∀ p ∈ after, p.2 ≠ value

theorem map_find?_eq_some_iff {entries : List (String × Int)} :
    (entries.find? (·.2 == v)).map (·.1) = some name ↔
      ∃ before after, entries = before ++ (name, v) :: after ∧ ∀ p ∈ before, p.2 ≠ v := by
  simp only [Option.map_eq_some_iff, List.find?_eq_some_iff_append, beq_iff_eq, Bool.not_eq_true',
    beq_eq_false_iff_ne]
  constructor
  · rintro ⟨⟨n, u⟩, ⟨rfl, before, after, he, hb⟩, rfl⟩
    exact ⟨before, after, he, hb⟩
  · rintro ⟨before, after, he, hb⟩
    exact ⟨(name, v), ⟨rfl, before, after, he, hb⟩, rfl⟩

theorem nameOf?_eq_some_iff : e.nameOf? v = some name ↔ e.Shows v name := by
  rw [nameOf?, Shows]
  cases e.policy with
  | first => exact map_find?_eq_some_iff
  | last =>
      rw [map_find?_eq_some_iff]
      constructor
      · rintro ⟨after, before, he, ha⟩
        refine ⟨before.reverse, after.reverse, ?_, by simpa using ha⟩
        rw [← List.reverse_reverse e.entries, he]
        simp
      · rintro ⟨before, after, he, ha⟩
        refine ⟨after.reverse, before.reverse, ?_, by simpa using ha⟩
        rw [he]
        simp

theorem nameOf?_eq_none_iff : e.nameOf? v = none ↔ ∀ p ∈ e.entries, p.2 ≠ v := by
  rw [nameOf?]
  cases e.policy <;> simp [List.find?_eq_none]

theorem isKnown_iff : e.isKnown v = true ↔ ∃ p ∈ e.entries, p.2 = v := by
  rw [isKnown, Option.isSome_iff_ne_none, Ne, nameOf?_eq_none_iff]
  simp

theorem mem_of_nameOf? (h : e.nameOf? v = some name) : (name, v) ∈ e.entries := by
  obtain ⟨before, after, he, -⟩ := nameOf?_eq_some_iff.1 h
  simp [he]

theorem valueOf?_nameOf? (hd : (e.entries.map (·.1)).Nodup) (h : e.nameOf? v = some name) :
    e.valueOf? name = some v :=
  (valueOf?_eq_some_iff hd).2 (mem_of_nameOf? h)

end

section

variable {names : List (String × Option Int)} {entries entries' : List (String × Int)}
  {next : Int} {k : Nat}

/-- The table of a declaration: all names in order, with the number given or else one more than the
number of the name before, and 0 for the first. -/
structure Numbered (names : List (String × Option Int)) (entries : List (String × Int)) : Prop where
  order : entries.map (·.1) = names.map (·.1)
  given : ∀ (k : Nat) name v, names[k]? = some (name, some v) → entries[k]? = some (name, v)
  first : ∀ name, names[0]? = some (name, none) → entries[0]? = some (name, 0)
  next : ∀ (k : Nat) name p, names[k + 1]? = some (name, none) → entries[k]? = some p →
    entries[k + 1]? = some (name, p.2 + 1)

theorem map_fst_numberFrom (next : Int) (names : List (String × Option Int)) :
    (numberFrom next names).map (·.1) = names.map (·.1) := by
  induction names generalizing next with
  | nil => rfl
  | cons p rest ih => rw [numberFrom, List.map_cons, ih, List.map_cons]

theorem getElem?_numberFrom_given {name : String} {v : Int}
    (h : names[k]? = some (name, some v)) : (numberFrom next names)[k]? = some (name, v) := by
  induction names generalizing next k with
  | nil => cases h
  | cons p rest ih =>
      cases k with
      | zero =>
          cases h
          rfl
      | succ k => exact ih h

theorem getElem?_numberFrom_zero {name : String} (h : names[0]? = some (name, none)) :
    (numberFrom next names)[0]? = some (name, next) := by
  cases names with
  | nil => cases h
  | cons p rest =>
      cases h
      rfl

theorem getElem?_numberFrom_succ {name : String} {p : String × Int}
    (h : names[k + 1]? = some (name, none)) (hp : (numberFrom next names)[k]? = some p) :
    (numberFrom next names)[k + 1]? = some (name, p.2 + 1) := by
  induction names generalizing next k with
  | nil => cases h
  | cons q rest ih =>
      cases k with
      | zero =>
          cases hp
          exact getElem?_numberFrom_zero h
      | succ k => exact ih h hp

theorem numbered_numberFrom (names : List (String × Option Int)) :
    Numbered names (numberFrom 0 names) :=
  ⟨map_fst_numberFrom 0 names, fun _ _ _ => getElem?_numberFrom_given,
    fun _ => getElem?_numberFrom_zero, fun _ _ _ => getElem?_numberFrom_succ⟩

theorem Numbered.length (h : Numbered names entries) : entries.length = names.length := by
  simpa using congrArg List.length h.order

theorem Numbered.getElem?_eq_none (h : Numbered names entries) (hk : names[k]? = none) :
    entries[k]? = none := by
  rw [List.getElem?_eq_none_iff] at hk ⊢
  rwa [h.length]

theorem Numbered.unique (h : Numbered names entries) (h' : Numbered names entries') :
    entries = entries' := by
  apply List.ext_getElem?
  intro k
  induction k with
  | zero =>
      cases hk : names[0]? with
      | none => rw [h.getElem?_eq_none hk, h'.getElem?_eq_none hk]
      | some p =>
          obtain ⟨name, _ | v⟩ := p
          · rw [h.first name hk, h'.first name hk]
          · rw [h.given 0 name v hk, h'.given 0 name v hk]
  | succ k ih =>
      cases hk : names[k + 1]? with
      | none => rw [h.getElem?_eq_none hk, h'.getElem?_eq_none hk]
      | some p =>
          obtain ⟨name, _ | v⟩ := p
          · obtain ⟨hlt, -⟩ := List.getElem?_eq_some_iff.1 hk
            rw [← h.length] at hlt
            have hlast : entries[k]? = some entries[k] := List.getElem?_eq_getElem (by omega)
            rw [h.next k name _ hk hlast, h'.next k name _ hk (ih ▸ hlast)]
          · rw [h.given _ name v hk, h'.given _ name v hk]

theorem numbered_iff : Numbered names entries ↔ entries = numberFrom 0 names := by
  constructor
  · intro h
    exact h.unique (numbered_numberFrom names)
  · rintro rfl
    exact numbered_numberFrom names

/-- The numbering within a host type. A number that the type does not have, given or counted on from
the one before, is no number of the declaration. -/
def numberIn? (host : IntType) (previous : Option Int) :
    List (String × Option Int) → Option (List (String × Int))
  | [] => some []
  | (name, given) :: rest =>
      let value := given.getD (previous.elim 0 (· + 1))
      if host.contains value then
        (numberIn? host (some value) rest).map ((name, value) :: ·)
      else none

theorem numberIn?_eq_some_iff {host : IntType} {previous : Option Int} :
    numberIn? host previous names = some entries ↔
      entries = numberFrom (previous.elim 0 (· + 1)) names ∧
        ∀ p ∈ entries, host.contains p.2 = true := by
  induction names generalizing previous entries with
  | nil =>
      rw [numberIn?, numberFrom, Option.some.injEq, eq_comm]
      refine ⟨fun h => ⟨h, ?_⟩, fun h => h.1⟩
      rw [h]
      exact nofun
  | cons p rest ih =>
      obtain ⟨name, given⟩ := p
      rw [numberIn?, numberFrom]
      split
      · rename_i hc
        simp only [Option.map_eq_some_iff, ih, Option.elim_some]
        constructor
        · rintro ⟨entries, ⟨rfl, hall⟩, rfl⟩
          exact ⟨rfl, List.forall_mem_cons.2 ⟨hc, hall⟩⟩
        · rintro ⟨rfl, hall⟩
          exact ⟨_, ⟨rfl, (List.forall_mem_cons.1 hall).2⟩, rfl⟩
      · rename_i hc
        refine iff_of_false nofun ?_
        rintro ⟨rfl, hall⟩
        exact hc (List.forall_mem_cons.1 hall).1

end

/-- The names of an enumeration and its values are lookups of one table. Where all names differ, the
name of a value is that of its first or last entry, as the policy says, and stands for the value
again; a name stands for the value of its entry; and a value or a name is unknown just if it has no
entry. A declaration makes the table that numbers its names in order, and as long as the numbers are
those of the host type this is what counting in that type gives. -/
theorem names_partial_inverse {e : EnumType} (hd : (e.entries.map (·.1)).Nodup) :
    (∀ v name, e.nameOf? v = some name ↔ e.Shows v name) ∧
    (∀ v, e.nameOf? v = none ↔ ∀ p ∈ e.entries, p.2 ≠ v) ∧
    (∀ v, e.isKnown v = true ↔ ∃ p ∈ e.entries, p.2 = v) ∧
    (∀ v name, e.nameOf? v = some name → e.valueOf? name = some v) ∧
    (∀ name v, e.valueOf? name = some v ↔ (name, v) ∈ e.entries) ∧
    (∀ name, e.valueOf? name = none ↔ ∀ p ∈ e.entries, p.1 ≠ name) ∧
    ∀ title host policy names entries,
      (Numbered names entries ↔ entries = (declare title host policy names).entries) ∧
      (numberIn? host none names = some entries ↔
        entries = (declare title host policy names).entries ∧
          ∀ p ∈ entries, host.contains p.2 = true) :=
  ⟨fun _ _ => nameOf?_eq_some_iff, fun _ => nameOf?_eq_none_iff, fun _ => isKnown_iff,
    fun _ _ => valueOf?_nameOf? hd, fun _ _ => valueOf?_eq_some_iff hd,
    fun _ => valueOf?_eq_none_iff, fun _ _ _ _ _ => ⟨numbered_iff, numberIn?_eq_some_iff⟩⟩

/-- Five names of signed bytes, of which two pairs share a value. The last of each pair is shown, a
number is counted on from the name before it though others are larger, and a sixth name after 127
would be one too many. -/
theorem names_partial_inverse_of_five :
    let names : List (String × Option Int) :=
      [("TOP", some 127), ("LOW", some (-1)), ("ZERO", none), ("NONE", some 0), ("END", some 127)]
    let e : EnumType := .declare "Level" ⟨true, 8⟩ .last names
    e.nameOf? 0 = some "NONE" ∧ e.nameOf? 127 = some "END" ∧ e.nameOf? 1 = none ∧
      e.valueOf? "ZERO" = some 0 ∧ e.valueOf? "NONE" = some 0 ∧ e.valueOf? "HIGH" = none ∧
      numberIn? ⟨true, 8⟩ none names = some e.entries ∧
      numberIn? ⟨true, 8⟩ none (names ++ [("OVER", none)]) ≠
        some (e.entries ++ [("OVER", 128)]) := by
  intro names e
  obtain ⟨hname, hnone, -, hback, hvalue, hunknown, hdeclare⟩ :=
    names_partial_inverse (by decide : (e.entries.map (·.1)).Nodup)
  have hend : ∀ p ∈ [("END", (127 : Int))], p.2 ≠ 0 := by decide
  have hzero : e.nameOf? 0 = some "NONE" :=
    (hname _ _).2 ⟨[("TOP", 127), ("LOW", -1), ("ZERO", 0)], _, rfl, hend⟩
  have htop : e.nameOf? 127 = some "END" :=
    (hname _ _).2 ⟨[("TOP", 127), ("LOW", -1), ("ZERO", 0), ("NONE", 0)], [], rfl, nofun⟩
  refine ⟨hzero, htop, (hnone 1).2 (by decide), (hvalue _ _).2 (by decide), hback _ _ hzero,
    (hunknown _).2 (by decide), ?_, fun hover => ?_⟩
  · exact (hdeclare "Level" ⟨true, 8⟩ .last names _).2.2 ⟨rfl, by decide⟩
  · have hall := ((hdeclare "Level" ⟨true, 8⟩ .last _ _).2.1 hover).2
    exact absurd hall (by decide)

end EnumType

end Packed
