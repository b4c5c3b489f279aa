import Packed.Proofs.View

namespace Packed

open TextStream

namespace View

inductive MembersTake (members : Memory → List Member) : List String → Memory → Memory → Prop
  | close (n : Memory) : MembersTake members ["\x7d"] n n
  | member {x : Member} {name : String} {ws comma us : List String} {n n₁ n₂ : Memory}
      (hname : IsWord name) (hfind : (members n).find? (·.name == name) = some x)
      (hvalue : x.view.Takes ws n n₁) (hcomma : comma = [] ∨ comma = [","])
      (hrest : MembersTake members us n₁ n₂) :
      MembersTake members (name :: ":" :: (ws ++ (comma ++ us))) n n₂

section

variable {members : Memory → List Member} {ws : List String} {n n' : Memory}

theorem MembersTake.head?_ne_comma (h : MembersTake members ws n n') (us : List String) :
    (ws ++ us).head? ≠ some "," := by
  cases h with
  | close => simp
  | member hname =>
      obtain ⟨_, _, he, -, hc, -⟩ := opens_word hname []
      obtain ⟨rfl, -⟩ := List.cons.inj he
      simpa using hc

theorem MembersTake.readMembers (h : MembersTake members ws n n') {fuel : Nat}
    (hf : ws.length ≤ fuel) (s : TextStream) (us : List String) (hs : words s.rest = ws ++ us) :
    ∃ t, View.readMembers members fuel ⟨s, n⟩ = .ok () ⟨t, n'⟩ ∧ words t.rest = us := by
  induction h generalizing fuel s us with
  | close n =>
      obtain ⟨fuel, rfl⟩ : ∃ k, fuel = k + 1 := ⟨fuel - 1, by simp at hf; omega⟩
      obtain ⟨a, t, ha, hat, -, ht⟩ := Parser.token_of_cons hs
      refine ⟨t, ?_, ht⟩
      rw [View.readMembers, Update.lift_bind_ok ha, if_pos hat]
      rfl
  | @member x name ws comma ws' n n₁ n₂ hname hfind hvalue hcomma hrest ih =>
      obtain ⟨fuel, rfl⟩ : ∃ k, fuel = k + 1 := ⟨fuel - 1, by simp at hf; omega⟩
      have hfuel : ws'.length ≤ fuel := by
        simp only [List.length_cons, List.length_append] at hf
        omega
      have hbrace : name ≠ "\x7d" := hname.ne (by decide)
      obtain ⟨a, s₁, ha, hat, -, h₁⟩ := Parser.token_of_cons hs
      obtain ⟨s₂, hcolon, h₂⟩ := Parser.expect_yields ":" s₁ _ h₁
      have hget : (get : Update Session) ⟨s₂, n⟩ = .ok ⟨s₂, n⟩ ⟨s₂, n⟩ := rfl
      obtain ⟨t, ht, hw⟩ := hvalue.andThen hcomma (hrest.head?_ne_comma us)
        (fun s₃ h₃ => ih hfuel s₃ us h₃) (s := s₂) (by simpa using h₂)
      refine ⟨t, ?_, hw⟩
      rw [View.readMembers, Update.lift_bind_ok ha, hat, if_neg hbrace, hname.isMark,
        if_neg Bool.false_ne_true, Update.lift_bind_ok hcolon, bind_ok hget, hfind]
      exact ht

theorem MembersTake.readStruct (h : MembersTake members ws n n') (s : TextStream)
    (us : List String) (hs : words s.rest = "\x7b" :: ws ++ us) :
    ∃ t, View.readStruct members ⟨s, n⟩ = .ok () ⟨t, n'⟩ ∧ words t.rest = us := by
  obtain ⟨s₁, hbrace, h₁⟩ := Parser.expect_yields "\x7b" s _ hs
  have hf : ws.length ≤ s₁.rest.length + 1 := by
    have hl := length_words_le s₁.rest
    rw [h₁, List.append_eq, List.length_append] at hl
    omega
  obtain ⟨t, ht, hw⟩ := h.readMembers hf s₁ us h₁
  have hget : (get : Update Session) ⟨s₁, n⟩ = .ok ⟨s₁, n⟩ ⟨s₁, n⟩ := rfl
  refine ⟨t, ?_, hw⟩
  rw [View.readStruct, Update.lift_bind_ok hbrace, bind_ok hget]
  exact ht

end

theorem words_spaces (k : Nat) (cs : List Char) : words ((spaces k).toList ++ cs) = words cs := by
  rw [spaces, String.toList_ofList]
  refine words_blanks (fun c hc => ?_) cs
  rw [List.eq_of_mem_replicate hc]
  rfl

def comma (o : TextOptions) (first : Bool) : List String :=
  if o.multiline || first then [] else [","]

theorem comma_eq (o : TextOptions) (first : Bool) :
    comma o first = [] ∨ first = false ∧ comma o first = [","] := by
  rw [comma]
  split
  · exact .inl rfl
  · rename_i h
    refine .inr ⟨?_, rfl⟩
    simp only [Bool.or_eq_true, not_or, Bool.not_eq_true] at h
    exact h.2

theorem words_lead (o : TextOptions) (k : Nat) (first : Bool) (cs : List Char) :
    words ((lead o k first).toList ++ cs) = comma o first ++ words cs := by
  cases hm : o.multiline with
  | true => simp only [lead, comma, hm, if_true, Bool.true_or, List.nil_append, words_spaces]
  | false =>
      cases first with
      | true =>
          simp only [lead, comma, hm, Bool.false_eq_true, if_false, if_true, Bool.or_true,
            String.reduceToList]
          exact words_blank rfl cs
      | false =>
          simp only [lead, comma, hm, Bool.false_eq_true, if_false, Bool.or_false,
            String.reduceToList]
          rw [List.cons_append, words_punctuation rfl]
          exact congrArg (_ :: ·) (words_blank rfl cs)

theorem words_closing (o : TextOptions) (isEmpty : Bool) (cs : List Char) :
    words ((closing o isEmpty).toList ++ cs) = "\x7d" :: words cs := by
  have hb : words ('\x7d' :: cs) = "\x7d" :: words cs := words_punctuation rfl cs
  cases hm : o.multiline with
  | true =>
      simp only [closing, hm, if_true, String.toList_append, List.append_assoc, words_spaces]
      exact hb
  | false =>
      cases isEmpty with
      | true =>
          simp only [closing, hm, Bool.false_eq_true, if_false, if_true]
          exact hb
      | false =>
          simp only [closing, hm, Bool.false_eq_true, if_false, String.reduceToList]
          exact (words_blank rfl _).trans hb

def newline (o : TextOptions) : String := if o.multiline then "\n" else ""

theorem words_newline (o : TextOptions) (cs : List Char) :
    words ((newline o).toList ++ cs) = words cs := by
  rw [newline]
  split
  · exact words_blank rfl cs
  · rfl

/-- How the members of one structure go over into those of another while the memory of the latter
changes. Members that are absent or left out are passed over. -/
inductive MembersCarried (o inner : TextOptions) (m : Memory) (members : Memory → List Member) :
    List Member → Memory → Memory → Prop
  | nil (n : Memory) : MembersCarried o inner m members [] n n
  | absent {x : Member} {xs : List Member} {n n' : Memory} (hp : x.isPresent = false)
      (hrest : MembersCarried o inner m members xs n n') :
      MembersCarried o inner m members (x :: xs) n n'
  | hidden {x : Member} {xs : List Member} {n n' : Memory} (hname : IsWord x.name)
      (hp : x.isPresent = true) (hh : x.view.isHidden x.view.isAggregate o m = true)
      (hrest : MembersCarried o inner m members xs n n') :
      MembersCarried o inner m members (x :: xs) n n'
  | written {x y : Member} {xs : List Member} {n n₁ n₂ : Memory} (hname : IsWord x.name)
      (hp : x.isPresent = true) (hh : x.view.isHidden x.view.isAggregate o m = false)
      (hfind : (members n).find? (·.name == x.name) = some y)
      (hvalue : x.view.Carries inner m y.view n n₁)
      (hrest : MembersCarried o inner m members xs n₁ n₂) :
      MembersCarried o inner m members (x :: xs) n n₂

section

variable {o inner : TextOptions} {m n n' : Memory} {members : Memory → List Member}
  {xs : List Member}

theorem ends_closing (first : Bool) (h : first = false) (cs : List Char) :
    Ends o.multiline ((newline o).toList ++ ((closing o first).toList ++ cs)) := by
  subst h
  cases hm : o.multiline with
  | true =>
      simp only [newline, hm, if_true]
      exact ends_newline true _
  | false =>
      simp only [newline, closing, hm, Bool.false_eq_true, if_false, String.reduceToList]
      exact separated_cons rfl _

theorem ends_lead (k : Nat) (cs : List Char) :
    Ends o.multiline ((newline o).toList ++ ((lead o k false).toList ++ cs)) := by
  cases hm : o.multiline with
  | true =>
      simp only [newline, hm, if_true]
      exact ends_newline true _
  | false =>
      simp only [newline, lead, hm, Bool.false_eq_true, if_false, String.reduceToList]
      exact separated_cons rfl _

theorem multiline_of_deeper (hd : o.deeper = .ok inner) : inner.multiline = o.multiline := by
  rw [TextOptions.deeper] at hd
  split at hd
  · cases hd
  · cases hd
    rfl

theorem words_unreadable {name : String} (h : IsWord name) (k : Nat) (cs : List Char) :
    words ((spaces k ++ "# " ++ name ++ ": UNREADABLE\n").toList ++ cs) = words cs := by
  have hn : '\n' ∉ (" " ++ name ++ ": UNREADABLE").toList := by
    simpa [String.toList_append] using h.newline_notMem
  have ht : (spaces k ++ "# " ++ name ++ ": UNREADABLE\n").toList ++ cs =
      (spaces k).toList ++ ('#' :: (" " ++ name ++ ": UNREADABLE").toList ++ '\n' :: cs) := by
    simp [String.toList_append]
  rw [ht, words_spaces, words_comment hn (.inr ⟨cs, rfl⟩), words_blank rfl]

theorem words_labelled {name value : String} {ws : List String} (hname : IsWord name)
    (hv : Spells o.multiline value ws) {cs : List Char} (hcs : Ends o.multiline cs) :
    words (name.toList ++ ((": " : String).toList ++ (value.toList ++ cs))) =
      name :: ":" :: (ws ++ words cs) := by
  have hm : ∀ cs, (": " : String).toList ++ cs = ':' :: ' ' :: cs := fun cs => rfl
  rw [hm, hname.words_append (separated_cons rfl _), words_punctuation rfl, words_blank rfl,
    hv cs hcs]
  rfl

/-- How the text of the members that are left reads: as a separator, if there is one, and as these
words up to the closing brace. After a value it also ends that value. -/
structure MembersRead (o : TextOptions) (first : Bool) (text : String) (isEmpty : Bool)
    (sep ws : List String) : Prop where
  separator : sep = [] ∨ first = false ∧ sep = [","]
  reads : ∀ rest, words (text.toList ++ ((closing o isEmpty).toList ++ rest)) =
    sep ++ (ws ++ words rest)
  ends : first = false → ∀ rest, Ends o.multiline
    ((newline o).toList ++ (text.toList ++ ((closing o isEmpty).toList ++ rest)))

section

variable {first isEmpty : Bool} {text name value : String} {sep ws vs : List String}

theorem MembersRead.nil (o : TextOptions) (first : Bool) :
    MembersRead o first "" first [] ["\x7d"] where
  separator := .inl rfl
  reads := words_closing o first
  ends hf := ends_closing first hf

theorem MembersRead.hidden (h : MembersRead o first text isEmpty sep ws) (hname : IsWord name)
    (k : Nat) : MembersRead o first
      ((if o.multiline then spaces k ++ "# " ++ name ++ ": UNREADABLE\n" else "") ++ text)
      isEmpty sep ws := by
  cases hm : o.multiline with
  | true =>
      simp only [if_true]
      refine ⟨h.separator, fun rest => ?_, fun _ rest => ?_⟩
      · rw [String.toList_append, List.append_assoc, words_unreadable hname]
        exact h.reads rest
      · simp only [newline, hm, if_true]
        exact ends_newline true _
  | false =>
      simp only [Bool.false_eq_true, if_false, String.empty_append]
      exact h

theorem MembersRead.written (h : MembersRead o false text isEmpty sep ws) (hname : IsWord name)
    (hv : Spells o.multiline value vs) (first : Bool) (k : Nat) :
    MembersRead o first (lead o k first ++ name ++ ": " ++ value ++ newline o ++ text) isEmpty
      (comma o first) (name :: ":" :: (vs ++ (sep ++ ws))) := by
  refine ⟨comma_eq o first, fun rest => ?_, fun hf rest => ?_⟩
  · simp only [String.toList_append, List.append_assoc]
    rw [words_lead, words_labelled hname hv (h.ends rfl rest), words_newline, h.reads]
    simp only [List.cons_append, List.append_assoc]
  · simp only [String.toList_append, List.append_assoc, hf]
    exact ends_lead k _

end

theorem MembersCarried.membersText (h : MembersCarried o inner m members xs n n')
    (hd : o.deeper = .ok inner) (first : Bool) : ∃ text isEmpty sep ws,
      View.membersText o m first xs = .ok (text, isEmpty) ∧ MembersTake members ws n n' ∧
      MembersRead o first text isEmpty sep ws := by
  induction h generalizing first with
  | nil n => exact ⟨"", first, [], _, rfl, .close n, .nil o first⟩
  | absent hp hrest ih =>
      obtain ⟨text, isEmpty, sep, ws, ht, hw⟩ := ih first
      refine ⟨text, isEmpty, sep, ws, ?_, hw⟩
      rw [View.membersText, hp]
      exact ht
  | hidden hname hp hh hrest ih =>
      obtain ⟨text, isEmpty, sep, ws, ht, hw, hr⟩ := ih first
      refine ⟨_, isEmpty, sep, ws, ?_, hw, hr.hidden hname inner.current⟩
      simp [View.membersText, hp, hd, hh, ht, bind, Except.bind, pure, Except.pure]
  | written hname hp hh hfind hvalue hrest ih =>
      obtain ⟨value, vs, hv, hvs, -, hvt⟩ := hvalue
      obtain ⟨text, isEmpty, sep, ws, ht, hw, hr⟩ := ih false
      have hsep : sep = [] ∨ sep = [","] := hr.separator.imp_right And.right
      rw [multiline_of_deeper hd] at hvs
      refine ⟨_, isEmpty, comma o first, _, ?_, .member hname hfind hvt hsep hw,
        hr.written hname hvs first inner.current⟩
      simp [View.membersText, hp, hd, hh, hv, ht, bind, Except.bind, pure, Except.pure, newline]

theorem MembersCarried.refl (names : List String) (hn : (members m).map (·.name) = names)
    (hw : ∀ t ∈ names, IsWord t) (hd : names.Nodup)
    (hx : ∀ x ∈ members m, x.isPresent = true → x.view.Stays x.view.isAggregate o inner m) :
    MembersCarried o inner m members (members m) m m := by
  subst hn
  suffices h : ∀ xs, (∀ x ∈ xs, x ∈ members m) → MembersCarried o inner m members xs m m from
    h _ fun _ h => h
  intro xs hxs
  induction xs with
  | nil => exact .nil m
  | cons x xs ih =>
      have hmem := hxs x (by simp)
      have hword := hw x.name (List.mem_map.2 ⟨x, hmem, rfl⟩)
      have hrest := ih fun y hy => hxs y (by simp [hy])
      cases hp : x.isPresent with
      | false => exact .absent hp hrest
      | true =>
          obtain hh | ⟨hh, hc⟩ := hx x hmem hp
          · exact .hidden hword hp hh hrest
          · exact .written hword hp hh (find?_of_nodup hd hmem) hc hrest

theorem MembersCarried.carries {source : Memory → List Member} {v w : View}
    (h : MembersCarried o inner m members (source m) n n') (hd : o.deeper = .ok inner)
    (hv : v.text = structText source) (hw : w.update = View.readStruct members) :
    v.Carries o m w n n' := by
  obtain ⟨text, isEmpty, sep, ws, ht, hm, hr⟩ := h.membersText hd true
  obtain rfl : sep = [] := by simpa using hr.separator
  refine ⟨"\x7b" ++ newline o ++ text ++ closing o isEmpty, "\x7b" :: ws, ?_, ?_, opens_brace ws, ?_⟩
  · simp [hv, structText, ht, bind, Except.bind, pure, Except.pure, newline]
  · intro rest _
    have hb : ∀ cs, ("\x7b" : String).toList ++ cs = '\x7b' :: cs := fun cs => rfl
    simp only [String.toList_append, List.append_assoc]
    rw [hb, words_punctuation rfl, words_newline, hr.reads]
    rfl
  · intro s us hus
    rw [hw]
    exact hm.readStruct s us hus

end

end View

end Packed
