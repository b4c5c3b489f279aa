import Packed.Frame.Basic
import Packed.Frame.Conditional
import Packed.Proofs.Lockstep

namespace Packed

open TextStream

namespace View

open Update

theorem tokenDriven_field {k : Kind} (f : Field k) : TokenDriven 1 f.update :=
  (Parser.tokenDriven_kind k).bind fun v => tokenDriven_store f v

theorem tokenDriven_readLabel : TokenDriven 3 (liftM readLabel : Update Nat) := by
  simp only [readLabel, lift_bind]
  exact (Parser.tokenDriven_numeral _).bind fun i => (Parser.tokenDriven_expect "]").bind fun _ =>
    (Parser.tokenDriven_expect ":").bind fun _ => tokenDriven_pure i

def thenRest (x rest : Update Unit) : Update Unit := do
  x
  let _ ← (Parser.consumeIf "," : Parser Bool)
  rest

section

variable {x rest rest' : Update Unit} {s t : TextStream} {i : Nat}

theorem advances_thenRest (hx : TokenDriven 1 x) (hr : Advances 1 rest) :
    Advances 2 (thenRest x rest) :=
  hx.advances.bind fun _ => (advances_consumeIf ",").bind fun _ => hr

theorem lockstep_thenRest (hx : TokenDriven 1 x) (hr : Advances 1 rest)
    (h : ∀ j, i + 1 ≤ j → Lockstep s t 0 j rest rest') :
    Lockstep s t 0 i (thenRest x rest) (thenRest x rest') := by
  refine (hx.lockstep s t i).bind hx.advances (fun _ => ?_) fun _ j hj => ?_
  · exact ((advances_consumeIf ",").bind fun _ => hr).mono (Nat.zero_le _)
  · exact (lockstep_consumeIf ",").bind (advances_consumeIf ",") (fun _ => hr)
      fun _ l hl => h l (by omega)

end

theorem tokenDriven_braced {loop : Nat → Update Unit} (ha : ∀ fuel, Advances 1 (loop fuel))
    (hl : ∀ s t i fuel fuel', s.tokens.length < i + fuel → t.tokens.length < i + fuel' →
      Lockstep s t 0 i (loop fuel) (loop fuel')) :
    TokenDriven 2 (do
      (Parser.expect "\x7b" : Parser Unit)
      loop ((← get).input.rest.length + 1)) := by
  have hbrace := Parser.tokenDriven_expect "\x7b"
  have hadv : Advances 1 (do loop ((← get).input.rest.length + 1)) :=
    advances_get.bind fun u => ha _
  have hfuel : ∀ {s u : TextStream} {i : Nat}, s.Past i u →
      s.tokens.length < i + (u.rest.length + 1) := fun {s u i} hu => by
    have hlength := hu.length_add
    have hle := length_tokens_le u
    omega
  refine ⟨hbrace.advances.bind fun _ => hadv, fun s t i => ?_⟩
  exact (hbrace.lockstep s t i).bind hbrace.advances (fun _ => hadv.mono (Nat.zero_le 1))
    fun _ j _ => lockstep_get_bind fun u v m hu hv => hl s t j _ _ (hfuel hu) (hfuel hv)

def memberAt (members : Memory → List Member) (fuel : Nat) (name : Token) : Update Unit := do
  match (members (← get).memory).find? (·.name == name.text) with
  | none => throw (.unknownField name.position)
  | some x => thenRest x.view.update (readMembers members fuel)

theorem readMembers_succ (members : Memory → List Member) (fuel : Nat) :
    readMembers members (fuel + 1) = (do
      let name ← (Parser.token : Parser Token)
      if name.text = "\x7d" then pure ()
      else if isMark name.text then throw (.unexpectedToken name.position)
      else
        (Parser.expect ":" : Parser Unit)
        memberAt members fuel name) := rfl

section

variable {members : Memory → List Member} {s t : TextStream} {fuel fuel' i : Nat}
  (hm : ∀ m, ∀ x ∈ members m, TokenDriven 1 x.view.update)

include hm

theorem advances_memberAt (hr : Advances 1 (readMembers members fuel)) (name : Token) :
    Advances 0 (memberAt members fuel name) := by
  refine advances_get.bind (q := 0) fun u => ?_
  split
  · exact advances_throw _ 0
  · rename_i x hx
    have hx := hm _ x (List.mem_of_find?_eq_some hx)
    exact (advances_thenRest hx hr).mono (Nat.zero_le 2)

theorem advances_readMembers (fuel : Nat) : Advances 1 (readMembers members fuel) := by
  induction fuel with
  | zero => exact advances_throw _ 1
  | succ fuel ih =>
      rw [readMembers_succ]
      refine advances_token.bind (q := 0) fun name => ?_
      split
      · exact advances_pure ()
      · split
        · exact advances_throw _ 0
        · exact ((Parser.tokenDriven_expect ":").advances.bind fun _ =>
            advances_memberAt hm ih name).mono (Nat.zero_le _)

theorem lockstep_memberAt {a b : Token} (ha : s.tokens[i]? = some a) (hb : t.tokens[i]? = some b)
    (hab : b.text = a.text) {j : Nat}
    (h : ∀ l, j + 1 ≤ l → Lockstep s t 0 l (readMembers members fuel) (readMembers members fuel')) :
    Lockstep s t 0 j (memberAt members fuel a) (memberAt members fuel' b) := by
  refine lockstep_get_bind fun u v m _ _ => ?_
  rw [hab]
  dsimp only
  split
  · exact lockstep_throw (.placed (by simp [Error.placed]) ha hb)
  · rename_i x hx
    have hx := hm m x (List.mem_of_find?_eq_some hx)
    exact lockstep_thenRest hx (advances_readMembers hm fuel) h

/-- The fuel in each text is more than the tokens that are left, so that it does not run out. -/
theorem lockstep_readMembers (hs : s.tokens.length < i + fuel) (ht : t.tokens.length < i + fuel') :
    Lockstep s t 0 i (readMembers members fuel) (readMembers members fuel') := by
  induction fuel generalizing fuel' i with
  | zero => exact fun u v m hu _ => absurd hu.1 (by omega)
  | succ fuel ih =>
      cases fuel' with
      | zero => exact fun u v m _ hv => absurd hv.1 (by omega)
      | succ fuel' =>
          have hadv := advances_readMembers hm (fuel + 1)
          rw [readMembers_succ] at hadv ⊢
          rw [readMembers_succ]
          refine lockstep_token_bind hadv fun a b ha hb hab _ _ => ?_
          rw [hab]
          split
          · exact lockstep_pure ()
          · split
            · exact lockstep_throw (.placed (by simp [Error.placed]) ha hb)
            · have hcolon := Parser.tokenDriven_expect ":"
              refine (hcolon.lockstep s t (i + 1)).bind hcolon.advances
                (fun _ => advances_memberAt hm (advances_readMembers hm fuel) a) fun _ j hj => ?_
              exact lockstep_memberAt hm ha hb hab fun l hl => ih (by omega) (by omega)

theorem tokenDriven_readStruct : TokenDriven 2 (readStruct members) :=
  tokenDriven_braced (advances_readMembers hm) fun _ _ _ _ _ => lockstep_readMembers hm

end

def valueAt (values : List View) (fuel index : Nat) : Update Unit :=
  match values[index]? with
  | none => throw (.indexOutOfRange index values.length)
  | some v => thenRest v.update (readValues values fuel (index + 1))

theorem readValues_succ (values : List View) (fuel index : Nat) :
    readValues values (fuel + 1) index = (do
      let found ← (Parser.token : Parser Token)
      if found.text = "\x7d" then pure ()
      else if found.text = "[" then do
        let index ← (readLabel : Parser Nat)
        valueAt values fuel index
      else
        (Parser.unread found : Parser Unit)
        valueAt values fuel index) := by
  rw [readValues]
  refine bind_congr fun found => ?_
  split
  · rfl
  · split
    · rfl
    · rfl

section

variable {values : List View} {s t : TextStream} {fuel fuel' i : Nat}
  (hv : ∀ v ∈ values, TokenDriven 1 v.update)

include hv

theorem advances_valueAt (hr : ∀ index, Advances 1 (readValues values fuel index)) (index : Nat) :
    Advances 2 (valueAt values fuel index) := by
  rw [valueAt]
  split
  · exact advances_throw _ 2
  · rename_i v hi
    exact advances_thenRest (hv v (List.mem_of_getElem? hi)) (hr (index + 1))

theorem advances_readValues (fuel index : Nat) : Advances 1 (readValues values fuel index) := by
  induction fuel generalizing index with
  | zero => exact advances_throw _ 1
  | succ fuel ih =>
      rw [readValues_succ]
      refine advances_token_bind fun s a u hu ha m b s' h => ?_
      split at h
      · cases h
        exact ⟨1, Nat.le_refl 1, hu⟩
      · split at h
        · have hl := tokenDriven_readLabel.advances.bind fun i => advances_valueAt hv ih i
          obtain ⟨n, -, hn⟩ := hl u m b s' h
          exact ⟨1 + n, Nat.le_add_right 1 n, hu.trans hn⟩
        · have hunread : Parser.unread a u = .ok () a.start := rfl
          rw [bind_ok (lift_of_ok hunread)] at h
          obtain ⟨n, hle, hn⟩ := advances_valueAt hv ih index _ m b s' h
          exact ⟨0 + n, by omega, ha.trans hn⟩

theorem lockstep_valueAt {j index : Nat} (h : ∀ l index, j + 1 ≤ l →
      Lockstep s t 0 l (readValues values fuel index) (readValues values fuel' index)) :
    Lockstep s t 0 j (valueAt values fuel index) (valueAt values fuel' index) := by
  rw [valueAt, valueAt]
  split
  · exact lockstep_throw (Error.sameAt_indexOutOfRange s t index _)
  · rename_i v hi
    exact lockstep_thenRest (hv v (List.mem_of_getElem? hi)) (advances_readValues hv fuel _)
      fun l hl => h l _ hl

theorem lockstep_readValues (hs : s.tokens.length < i + fuel) (ht : t.tokens.length < i + fuel')
    (index : Nat) :
    Lockstep s t 0 i (readValues values fuel index) (readValues values fuel' index) := by
  induction fuel generalizing fuel' i index with
  | zero => exact fun u v m hu _ => absurd hu.1 (by omega)
  | succ fuel ih =>
      cases fuel' with
      | zero => exact fun u v m _ hv => absurd hv.1 (by omega)
      | succ fuel' =>
          have hadv := advances_readValues hv (fuel + 1) index
          rw [readValues_succ] at hadv ⊢
          rw [readValues_succ]
          refine lockstep_token_bind hadv fun a b ha hb hab hsa htb => ?_
          rw [hab]
          split
          · exact lockstep_pure ()
          · split
            · have hlabel := tokenDriven_readLabel
              refine (hlabel.lockstep s t (i + 1)).bind hlabel.advances (fun index => ?_)
                fun index j hj => ?_
              · exact (advances_valueAt hv (advances_readValues hv fuel) index).mono (Nat.zero_le 2)
              · exact lockstep_valueAt hv fun l index hl => ih (by omega) (by omega) index
            · exact lockstep_unread_bind hsa htb
                (lockstep_valueAt hv fun l index hl => ih (by omega) (by omega) index)

theorem tokenDriven_readSequence : TokenDriven 2 (readSequence values) :=
  tokenDriven_braced (fun fuel => advances_readValues hv fuel 0)
    fun _ _ _ _ _ hs ht => lockstep_readValues hv hs ht 0

end

/-- Views that are put together from fields: structures whose members are such views, whatever
memory holds, and sequences of such views. -/
inductive Composed : View → Prop
  | field {k : Kind} (f : Field k) : Composed f.view
  | struct {members : Memory → List Member} (h : ∀ m, ∀ x ∈ members m, Composed x.view)
      (isComplete ok : Memory → Bool) : Composed (ofMembers isComplete ok members)
  | sequence {values : List View} (h : ∀ v ∈ values, Composed v)
      (isComplete ok : Memory → Bool) : Composed { sequence values with isComplete, ok }

theorem Composed.tokenDriven {v : View} (h : v.Composed) : TokenDriven 1 v.update := by
  induction h with
  | field f => exact tokenDriven_field f
  | struct _ _ _ ih => exact (tokenDriven_readStruct ih).mono (Nat.le_succ 1)
  | sequence _ _ _ ih => exact (tokenDriven_readSequence ih).mono (Nat.le_succ 1)

end View

theorem ElementType.composed_view {S : Type} [Tiled S] (e : ElementType S) (s : S) :
    (e.view s).Composed := by
  induction e generalizing s with
  | scalar t => exact .field (t.field s)
  | array e n pos ih =>
      refine .sequence (fun v hv => ?_) _ _
      obtain ⟨u, -, rfl⟩ := List.mem_map.1 hv
      exact ih u

theorem ArrayView.composed_view {S : Type} [Tiled S] (a : ArrayView S) : a.view.Composed :=
  a.type.composed_view a.storage

theorem Status.composed_view (s : Status) : s.view.Composed := by
  refine .struct (fun _ => ?_) _ _
  simp only [members, List.forall_mem_cons]
  exact ⟨.field s.ready, .field s.mode, .field s.level, .field s.count, nofun⟩

theorem WordList.composed_view (l : WordList) : l.view.Composed := by
  refine .struct (fun m => ?_) _ _
  simp only [members, List.forall_mem_cons]
  exact ⟨.field l.count, (l.words m).composed_view, nofun⟩

theorem Conditional.composed_view (c : Conditional) : c.view.Composed := by
  refine .struct (fun m => ?_) _ _
  simp only [members, List.forall_mem_cons]
  exact ⟨.field c.condition, .field (c.payload m), nofun⟩

theorem Frame.composed_view (f : Frame) : f.view.Composed := by
  refine .struct (fun _ => ?_) _ _
  simp only [members, List.forall_mem_cons]
  exact ⟨f.status.composed_view, f.list.composed_view, nofun⟩

namespace View

inductive EndAlike (s t : TextStream) :
    EStateM.Result Error Session Unit → EStateM.Result Error Session Unit → Prop
  | ok {n : Nat} {s' t' : TextStream} {m : Memory} (hs : s.Past n s') (ht : t.Past n t') :
      EndAlike s t (.ok () ⟨s', m⟩) (.ok () ⟨t', m⟩)
  | error {e e' : Error} {s' t' : TextStream} {m : Memory} (h : e.SameAt s t e') :
      EndAlike s t (.error e ⟨s', m⟩) (.error e' ⟨t', m⟩)

/-- Reading a value from the text `s` or from the text `t` is the same as far as the two agree. -/
structure ReadsAlike (v : View) (s t : TextStream) (m : Memory) : Prop where
  counted : ∀ s' m', v.update ⟨s, m⟩ = .ok () ⟨s', m'⟩ → ∃ n, s.Past n s'
  /-- The reading stops after one value, and looks at no token after it. -/
  stops : ∀ n s' m', v.update ⟨s, m⟩ = .ok () ⟨s', m'⟩ → s.Past n s' →
    (words s.rest).take n = (words t.rest).take n →
    ∃ t', v.update ⟨t, m⟩ = .ok () ⟨t', m'⟩ ∧ t.Past n t'
  spaced : words s.rest = words t.rest → EndAlike s t (v.update ⟨s, m⟩) (v.update ⟨t, m⟩)

theorem Composed.readsAlike {v : View} (hv : v.Composed) (s t : TextStream) (m : Memory) :
    v.ReadsAlike s t m := by
  have hcount : ∀ s' m', v.update ⟨s, m⟩ = .ok () ⟨s', m'⟩ → ∃ n, s.Past n s' := by
    intro s' m' h
    obtain ⟨n, -, hn⟩ := hv.tokenDriven.advances s m () _ h
    exact ⟨n, hn⟩
  have hstep := hv.tokenDriven.lockstep s t 0 s t m (past_zero s) (past_zero t)
  refine ⟨hcount, fun n s' m' h hn hagree => ?_, fun hw => ?_⟩
  · rw [h] at hstep
    exact hstep n hn hagree
  · cases h : v.update ⟨s, m⟩ with
    | ok u s' =>
        obtain ⟨n, hn⟩ := hcount s'.input s'.memory h
        rw [h] at hstep
        obtain ⟨t', ht, hp⟩ := hstep n hn (agree_of_words_eq hw _)
        rw [ht]
        exact .ok hn hp
    | error e s' =>
        rw [h] at hstep
        obtain ⟨e', t', ht, he⟩ := hstep hw
        rw [ht]
        exact .error he

/-- Reading sees tokens only and stops after one value, for every view that is put together from
fields, arrays and structures. The views of the library are put together in that way. -/
theorem reading_sees_only_tokens :
    ((∀ {k : Kind} (f : Field k), f.view.Composed) ∧
      (∀ {S : Type} [Tiled S] (a : ArrayView S), a.view.Composed) ∧
      (∀ s : Status, s.view.Composed) ∧ (∀ l : WordList, l.view.Composed) ∧
      (∀ c : Conditional, c.view.Composed) ∧ ∀ f : Frame, f.view.Composed) ∧
      ∀ v : View, v.Composed → ∀ (s t : TextStream) (m : Memory), v.ReadsAlike s t m :=
  ⟨⟨.field, ArrayView.composed_view, Status.composed_view, WordList.composed_view,
    Conditional.composed_view, Frame.composed_view⟩, fun _ hv => hv.readsAlike⟩

/-- A list of one word, read without blanks and with blanks, a comment and more text behind it. -/
theorem reading_sees_only_tokens_in_list :
    let v := (WordList.mk (.ofRegion ⟨0, 3⟩)).view
    let s := TextStream.ofString "\x7bcount:1,values:\x7b7\x7d\x7d"
    let t := TextStream.ofString "\x7b count: 1,  # of words\n values: \x7b 7 \x7d \x7d ]"
    let m : Memory := [9, 9, 9]
    ∃ s' t', v.update ⟨s, m⟩ = .ok () ⟨s', [1, 0, 7]⟩ ∧ s.Past 11 s' ∧
      v.update ⟨t, m⟩ = .ok () ⟨t', [1, 0, 7]⟩ ∧ t.Past 11 t' := by
  intro v s t m
  have h : v.update ⟨s, m⟩ = .ok () ⟨⟨[], 20⟩, [1, 0, 7]⟩ := Update.eq_ok (by decide +kernel)
  have hn : s.Past 11 ⟨[], 20⟩ := ⟨by decide +kernel, by decide +kernel⟩
  obtain ⟨⟨-, -, -, hlist, -, -⟩, hreads⟩ := reading_sees_only_tokens
  obtain ⟨t', ht, hp⟩ := (hreads v (hlist _) s t m).stops 11 _ _ h hn (by decide +kernel)
  exact ⟨_, t', h, hn, ht, hp⟩

end View

end Packed
