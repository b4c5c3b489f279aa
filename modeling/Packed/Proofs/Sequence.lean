import Packed.Proofs.Structure

namespace Packed

open TextStream

namespace View

inductive ValuesTake (values : List View) : Nat → List String → Memory → Memory → Prop
  | close (i : Nat) (n : Memory) : ValuesTake values i ["\x7d"] n n
  | labelled {i j : Nat} {v : View} {ws comma us : List String} {n n₁ n₂ : Memory}
      (hi : i < sizeLimit) (hv : values[i]? = some v) (hvalue : v.Takes ws n n₁)
      (hcomma : comma = [] ∨ comma = [","]) (hrest : ValuesTake values (i + 1) us n₁ n₂) :
      ValuesTake values j ("[" :: toString i :: "]" :: ":" :: (ws ++ (comma ++ us))) n n₂
  | plain {i : Nat} {v : View} {ws comma us : List String} {n n₁ n₂ : Memory}
      (hv : values[i]? = some v) (hopens : Opens ws) (hvalue : v.Takes ws n n₁)
      (hcomma : comma = [] ∨ comma = [","]) (hrest : ValuesTake values (i + 1) us n₁ n₂) :
      ValuesTake values i (ws ++ (comma ++ us)) n n₂

theorem readLabel_yields {i : Nat} (hi : i < sizeLimit) :
    readLabel.Yields [toString i, "]", ":"] i := by
  have hu := Parser.unsigned_yields i .decimal false hi
  rw [← Numeral.toString_eq_render] at hu
  exact hu.bind ((Parser.expect_yields "]").bind ((Parser.expect_yields ":").bind
    (Parser.yields_pure i)))

section

variable {values : List View} {ws : List String} {i : Nat} {n n' : Memory}

theorem ValuesTake.head?_ne_comma (h : ValuesTake values i ws n n') (us : List String) :
    (ws ++ us).head? ≠ some "," := by
  cases h with
  | close => simp
  | labelled => simp
  | plain _ hopens =>
      obtain ⟨w, vs, rfl, -, hc, -⟩ := hopens
      simpa using hc

theorem ValuesTake.readValues (h : ValuesTake values i ws n n') {fuel : Nat}
    (hf : ws.length ≤ fuel) (s : TextStream) (us : List String) (hs : words s.rest = ws ++ us) :
    ∃ t, View.readValues values fuel i ⟨s, n⟩ = .ok () ⟨t, n'⟩ ∧ words t.rest = us := by
  induction h generalizing fuel s us with
  | close i n =>
      obtain ⟨fuel, rfl⟩ : ∃ k, fuel = k + 1 := ⟨fuel - 1, by simp at hf; omega⟩
      obtain ⟨a, t, ha, hat, -, ht⟩ := Parser.token_of_cons hs
      refine ⟨t, ?_, ht⟩
      rw [View.readValues, Update.lift_bind_ok ha, if_pos hat]
      rfl
  | @labelled i j v ws comma ws' n n₁ n₂ hi hv hvalue hcomma hrest ih =>
      obtain ⟨fuel, rfl⟩ : ∃ k, fuel = k + 1 := ⟨fuel - 1, by simp at hf; omega⟩
      have hfuel : ws'.length ≤ fuel := by
        simp only [List.length_cons, List.length_append] at hf
        omega
      obtain ⟨a, s₁, ha, hat, -, h₁⟩ := Parser.token_of_cons hs
      obtain ⟨s₂, hlabel, h₂⟩ := readLabel_yields hi s₁ _ h₁
      obtain ⟨t, ht, hw⟩ := hvalue.andThen hcomma (hrest.head?_ne_comma us)
        (fun s₃ h₃ => ih hfuel s₃ us h₃) (s := s₂) (by simpa using h₂)
      refine ⟨t, ?_, hw⟩
      rw [View.readValues, Update.lift_bind_ok ha, hat, if_neg (by decide), if_pos rfl,
        Update.lift_bind_ok hlabel]
      dsimp only
      rw [hv]
      exact ht
  | @plain i v ws comma ws' n n₁ n₂ hv hopens hvalue hcomma hrest ih =>
      obtain ⟨fuel, rfl⟩ : ∃ k, fuel = k + 1 := by
        obtain ⟨w, vs, rfl, -⟩ := hopens
        exact ⟨fuel - 1, by simp at hf; omega⟩
      have hfuel : ws'.length ≤ fuel := by
        obtain ⟨w, vs, rfl, -⟩ := hopens
        simp only [List.length_cons, List.length_append] at hf
        omega
      obtain ⟨w, vs, rfl, hlabel, -, hbrace⟩ := hopens
      have hw : words s.rest = w :: (vs ++ (comma ++ (ws' ++ us))) := by simpa using hs
      obtain ⟨a, s₁, ha, hat, hstart, -⟩ := Parser.token_of_cons hw
      obtain ⟨t, ht, hw⟩ := hvalue.andThen hcomma (hrest.head?_ne_comma us)
        (fun s₃ h₃ => ih hfuel s₃ us h₃) (s := a.start) hstart
      have hunread : Parser.unread a s₁ = .ok () a.start := rfl
      refine ⟨t, ?_, hw⟩
      rw [View.readValues, Update.lift_bind_ok ha, hat, if_neg hbrace, if_neg hlabel,
        Update.lift_bind_ok hunread, pure_bind]
      dsimp only
      rw [hv]
      exact ht

theorem ValuesTake.readSequence (h : ValuesTake values 0 ws n n') (s : TextStream)
    (us : List String) (hs : words s.rest = "\x7b" :: ws ++ us) :
    ∃ t, View.readSequence values ⟨s, n⟩ = .ok () ⟨t, n'⟩ ∧ words t.rest = us := by
  obtain ⟨s₁, hbrace, h₁⟩ := Parser.expect_yields "\x7b" s _ hs
  have hf : ws.length ≤ s₁.rest.length + 1 := by
    have hl := length_words_le s₁.rest
    rw [h₁, List.append_eq, List.length_append] at hl
    omega
  obtain ⟨t, ht, hw⟩ := h.readValues hf s₁ us h₁
  have hget : (get : Update Session) ⟨s₁, n⟩ = .ok ⟨s₁, n⟩ ⟨s₁, n⟩ := rfl
  refine ⟨t, ?_, hw⟩
  rw [View.readSequence, Update.lift_bind_ok hbrace, bind_ok hget]
  exact ht

end

/-- How the values of one sequence from an index on go over into those of another. Values that are
left out are passed over. -/
inductive ValuesCarried (o inner : TextOptions) (aggregate : Bool) (m : Memory)
    (targets : List View) : List View → Nat → Memory → Memory → Prop
  | nil (i : Nat) (n : Memory) : ValuesCarried o inner aggregate m targets [] i n n
  | hidden {v : View} {vs : List View} {i : Nat} {n n' : Memory}
      (hh : v.isHidden aggregate o m = true)
      (hrest : ValuesCarried o inner aggregate m targets vs (i + 1) n n') :
      ValuesCarried o inner aggregate m targets (v :: vs) i n n'
  | written {v w : View} {vs : List View} {i : Nat} {n n₁ n₂ : Memory}
      (hh : v.isHidden aggregate o m = false) (hi : i < sizeLimit) (hw : targets[i]? = some w)
      (hvalue : v.Carries inner m w n n₁)
      (hrest : ValuesCarried o inner aggregate m targets vs (i + 1) n₁ n₂) :
      ValuesCarried o inner aggregate m targets (v :: vs) i n n₂

section

variable {o inner : TextOptions} {aggregate : Bool} {m n n' : Memory} {values targets : List View}
  {i : Nat}

theorem isWord_toString (i : Nat) : IsWord (toString i) := by
  rw [Numeral.toString_eq_render]
  exact Numeral.isWord_render _ _ _

theorem words_label (i : Nat) (cs : List Char) :
    words ((s!"[{i}]: ").toList ++ cs) = "[" :: toString i :: "]" :: ":" :: words cs := by
  have ht : (s!"[{i}]: ").toList ++ cs = '[' :: ((toString i).toList ++ ']' :: ':' :: ' ' :: cs) := by
    change (("[" ++ toString i ++ "]: " : String)).toList ++ cs = _
    simp only [String.toList_append, String.reduceToList, List.append_assoc, List.cons_append,
      List.nil_append]
  rw [ht, words_punctuation rfl, (isWord_toString i).words_append (separated_cons rfl _),
    words_punctuation rfl, words_punctuation rfl, words_blank rfl]
  rfl

theorem words_unreadable_value (i k : Nat) {cs : List Char} (hcs : Ends true cs) :
    words ((newline o ++ spaces k ++ s!"# [{i}]: UNREADABLE").toList ++ cs) = words cs := by
  have hn : '\n' ∉ (" [" ++ toString i ++ "]: UNREADABLE").toList := by
    simpa [String.toList_append] using (isWord_toString i).newline_notMem
  have ht : (newline o ++ spaces k ++ s!"# [{i}]: UNREADABLE").toList ++ cs = (newline o).toList ++
      ((spaces k).toList ++ ('#' :: (" [" ++ toString i ++ "]: UNREADABLE").toList ++ cs)) := by
    change (newline o ++ spaces k ++ ("# [" ++ toString i ++ "]: UNREADABLE")).toList ++ cs = _
    simp only [String.toList_append, String.reduceToList, List.append_assoc, List.cons_append,
      List.nil_append]
  rw [ht, words_newline, words_spaces, words_comment hn hcs]

theorem ends_line (first : Bool) (h : o.multiline = true ∨ first = false) (k : Nat)
    (cs : List Char) :
    Ends o.multiline ((newline o).toList ++ ((lead o k first).toList ++ cs)) := by
  obtain hm | rfl := h
  · simp only [newline, hm, if_true]
    exact ends_newline true _
  · exact ends_lead k cs

/-- How the text of the values that are left reads: as a separator, if there is one, and as these
words up to the closing brace. After a value it also ends that value. -/
structure ValuesRead (o : TextOptions) (first : Bool) (text : String) (isEmpty : Bool)
    (sep ws : List String) : Prop where
  separator : sep = [] ∨ first = false ∧ sep = [","]
  reads : ∀ rest,
    words (text.toList ++ ((newline o).toList ++ ((closing o isEmpty).toList ++ rest))) =
      sep ++ (ws ++ words rest)
  ends : o.multiline = true ∨ first = false → ∀ rest, Ends o.multiline
    (text.toList ++ ((newline o).toList ++ ((closing o isEmpty).toList ++ rest)))

section

variable {first isEmpty : Bool} {text label value : String} {sep ws ls vs : List String}

theorem ValuesRead.nil (o : TextOptions) (first : Bool) :
    ValuesRead o first "" first [] ["\x7d"] where
  separator := .inl rfl
  reads rest := (words_newline o _).trans (words_closing o first rest)
  ends h rest := by
    obtain hm | hf := h
    · simp only [newline, hm, if_true]
      exact ends_newline true _
    · exact ends_closing first hf rest

theorem ValuesRead.hidden (h : ValuesRead o first text isEmpty sep ws) (i k : Nat) :
    ValuesRead o first
      ((if o.multiline then newline o ++ spaces k ++ s!"# [{i}]: UNREADABLE" else "") ++ text)
      isEmpty sep ws := by
  cases hm : o.multiline with
  | true =>
      simp only [if_true]
      refine ⟨h.separator, fun rest => ?_, fun _ rest => ?_⟩
      · have he := h.ends (.inl hm) rest
        rw [hm] at he
        rw [String.toList_append, List.append_assoc, words_unreadable_value _ _ he]
        exact h.reads rest
      · simp only [String.toList_append, List.append_assoc, newline, hm, if_true]
        exact ends_newline true _
  | false =>
      simp only [Bool.false_eq_true, if_false, String.empty_append]
      exact h

theorem ValuesRead.written (h : ValuesRead o false text isEmpty sep ws)
    (hl : ∀ cs, words (label.toList ++ cs) = ls ++ words cs) (hv : Spells o.multiline value vs)
    (first : Bool) (k : Nat) :
    ValuesRead o first (newline o ++ lead o k first ++ label ++ value ++ text) isEmpty
      (comma o first) (ls ++ (vs ++ (sep ++ ws))) := by
  refine ⟨comma_eq o first, fun rest => ?_, fun hf rest => ?_⟩
  · simp only [String.toList_append, List.append_assoc]
    rw [words_newline, words_lead, hl, hv _ (h.ends (.inr rfl) rest), h.reads]
  · simp only [String.toList_append, List.append_assoc]
    exact ends_line first hf k _

end

theorem ValuesTake.value {vs us comma : List String} {j : Nat} {w : View} {n₁ : Memory}
    (hi : i < sizeLimit) (hw : targets[i]? = some w) (hopens : Opens vs) (hv : w.Takes vs n n₁)
    (hcomma : comma = [] ∨ comma = [","]) (hrest : ValuesTake targets (i + 1) us n₁ n')
    (labelled : Bool) (hj : labelled = false → j = i) : ∃ ls,
      (∀ cs, words ((if labelled then s!"[{i}]: " else "").toList ++ cs) = ls ++ words cs) ∧
      ValuesTake targets j (ls ++ (vs ++ (comma ++ us))) n n' := by
  -- with a label the reader goes to the index, without one it is there already
  cases labelled with
  | true =>
      have htake : ValuesTake targets j ("[" :: toString i :: "]" :: ":" :: (vs ++ (comma ++ us)))
          n n' := .labelled hi hw hv hcomma hrest
      exact ⟨["[", toString i, "]", ":"], words_label i, htake⟩
  | false =>
      obtain rfl := hj rfl
      have htake : ValuesTake targets j (vs ++ (comma ++ us)) n n' :=
        .plain hw hopens hv hcomma hrest
      exact ⟨[], fun cs => rfl, htake⟩

theorem ValuesCarried.valuesText (h : ValuesCarried o inner aggregate m targets values i n n')
    (hd : inner.multiline = o.multiline) (first needLabel : Bool) (j : Nat)
    (hj : needLabel = false → j = i) : ∃ text isEmpty sep ws,
      View.valuesText o inner aggregate m first needLabel i values = .ok (text, isEmpty) ∧
      ValuesTake targets j ws n n' ∧ ValuesRead o first text isEmpty sep ws := by
  induction h generalizing first needLabel j with
  | nil i n => exact ⟨"", first, [], _, rfl, .close j n, .nil o first⟩
  | @hidden v vs i n n' hh hrest ih =>
      obtain ⟨text, isEmpty, sep, ws, ht, hw, hr⟩ := ih first true j (by simp)
      refine ⟨_, isEmpty, sep, ws, ?_, hw, hr.hidden i inner.current⟩
      simp [View.valuesText, hh, ht, bind, Except.bind, pure, Except.pure, newline]
  | @written v w vs i n n₁ n₂ hh hi hw hvalue hrest ih =>
      obtain ⟨value, us, hv, hvs, hopens, hvt⟩ := hvalue
      obtain ⟨text, isEmpty, sep, ws, ht, hwt, hr⟩ := ih false false (i + 1) (fun _ => rfl)
      have hsep : sep = [] ∨ sep = [","] := hr.separator.imp_right And.right
      rw [hd] at hvs
      obtain ⟨ls, hls, htake⟩ := ValuesTake.value hi hw hopens hvt hsep hwt
        (o.multiline || needLabel || i % labelStride == 0) fun hl => by
          simp only [Bool.or_eq_false_iff] at hl
          exact hj hl.1.2
      refine ⟨_, isEmpty, comma o first, _, ?_, htake, hr.written hls hvs first inner.current⟩
      simp [View.valuesText, hh, hv, ht, bind, Except.bind, pure, Except.pure, newline]

theorem ValuesCarried.refl (hlim : values.length ≤ sizeLimit)
    (hv : ∀ v ∈ values, v.Stays aggregate o inner m) :
    ValuesCarried o inner aggregate m values values 0 m m := by
  suffices h : ∀ vs us, values = us ++ vs →
      ValuesCarried o inner aggregate m values vs us.length m m from h values [] rfl
  intro vs
  induction vs with
  | nil => exact fun us _ => .nil us.length m
  | cons v vs ih =>
      intro us hus
      have hrest := ih (us ++ [v]) (by simp [hus])
      rw [List.length_append] at hrest
      obtain hh | ⟨hh, hc⟩ := hv v (by simp [hus])
      · exact .hidden hh hrest
      · have hlt : us.length < sizeLimit := by
          rw [hus, List.length_append, List.length_cons] at hlim
          omega
        exact .written hh hlt (by simp [hus]) hc hrest

theorem ValuesCarried.carries {v w : View}
    (h : ValuesCarried o inner aggregate m targets values 0 n n') (hd : o.deeper = .ok inner)
    (hv : v.text = sequenceText aggregate values) (hw : w.update = View.readSequence targets) :
    v.Carries o m w n n' := by
  obtain ⟨text, isEmpty, sep, ws, ht, hm, hr⟩ :=
    h.valuesText (multiline_of_deeper hd) true true 0 (fun _ => rfl)
  obtain rfl : sep = [] := by simpa using hr.separator
  have hb : ∀ cs, ("\x7b" : String).toList ++ cs = '\x7b' :: cs := fun cs => rfl
  cases values with
  | nil =>
      obtain ⟨rfl, rfl⟩ : text = "" ∧ isEmpty = true := by simpa [View.valuesText] using ht.symm
      cases h
      refine ⟨"\x7b\x7d", ["\x7b", "\x7d"], ?_, ?_, opens_brace _, ?_⟩
      · simp [hv, sequenceText, hd, bind, Except.bind, pure, Except.pure]
      · intro rest _
        change words ('\x7b' :: '\x7d' :: rest) = _
        rw [words_punctuation rfl, words_punctuation rfl]
        rfl
      · intro s us hus
        rw [hw]
        exact (ValuesTake.close 0 n).readSequence s us hus
  | cons x xs =>
      refine ⟨"\x7b" ++ text ++ newline o ++ closing o isEmpty, "\x7b" :: ws, ?_, ?_,
        opens_brace ws, ?_⟩
      · simp [hv, sequenceText, hd, ht, bind, Except.bind, pure, Except.pure, newline]
      · intro rest _
        simp only [String.toList_append, List.append_assoc]
        rw [hb, words_punctuation rfl, hr.reads]
        rfl
      · intro s us hus
        rw [hw]
        exact hm.readSequence s us hus

end

end View

end Packed
