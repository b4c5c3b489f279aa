import Mathlib.Data.List.Forall2
import Packed.Proofs.Float.Grammar
import Packed.Proofs.Ledger
import Packed.Proofs.Reading
import Packed.Proofs.Text.FieldUpdate

namespace Packed

open TextStream

theorem Kind.exact_of_value? {k : Kind} {text : String} {v : k.Value}
    (h : k.value? text = some v) : k.Exact v := by
  cases k with
  | float f => exact FloatFormat.mask_of_parseChars? h
  | unsigned | signed | decimal | flag | named => trivial

inductive Lacks (text : String) : List Token → Error → Prop
  | ended : Lacks text [] .endOfText
  | other {a : Token} {ts : List Token} : a.text ≠ text →
      Lacks text (a :: ts) (.unexpectedToken a.position)

def afterComma : List Token → List Token
  | [] => []
  | a :: ts => if a.text = "," then ts else a :: ts

/-- A form of lists of entries. The head of an entry names its target, from which the next entry
follows on, and some targets are fields. -/
structure EntryForm (ι σ χ : Type) where
  Head : σ → List Token → χ → List Token → Prop
  Fault : σ → List Token → Error → Prop
  field? : χ → Option ι
  missing : χ → Error
  next : χ → σ

namespace EntryForm

variable {ι σ χ : Type} {K : ι → Kind}

inductive Listed (form : EntryForm ι σ χ) :
    σ → List Token → List (χ × Token) → σ → List Token → Prop
  | nil (c : σ) (ts : List Token) : Listed form c ts [] c ts
  | cons {c d : σ} {ts us vs : List Token} {x : χ} {a : Token} {es : List (χ × Token)} :
      form.Head c ts x (a :: us) → Listed form (form.next x) (afterComma us) es d vs →
      Listed form c ts ((x, a) :: es) d vs

structure Accepts (form : EntryForm ι σ χ) (F : (i : ι) → Field (K i)) (x : χ × Token)
    (e : (i : ι) × (K i).Value) : Prop where
  field : form.field? x.1 = some e.1
  value : (K e.1).value? x.2.text = some e.2
  fits : (F e.1).couldWrite e.2 = true
  complete : (F e.1).isComplete = true

/-- The tokens begin with an entry that is at fault, or with none, to which this is the answer. That
the target is missing comes before the value is looked at. -/
inductive Offends (form : EntryForm ι σ χ) (F : (i : ι) → Field (K i)) (c : σ) (ts : List Token) :
    Error → Prop
  | fault {e : Error} : form.Fault c ts e → Offends form F c ts e
  | missing {x : χ} {us : List Token} : form.Head c ts x us → form.field? x = none →
      Offends form F c ts (form.missing x)
  | ended {x : χ} {i : ι} : form.Head c ts x [] → form.field? x = some i →
      Offends form F c ts .endOfText
  | mistaken {x : χ} {i : ι} {a : Token} {us : List Token} : form.Head c ts x (a :: us) →
      form.field? x = some i → (K i).value? a.text = none →
      Offends form F c ts ((K i).mistake a.text a.position)
  | unfit {x : χ} {i : ι} {a : Token} {us : List Token} {v : (K i).Value} :
      form.Head c ts x (a :: us) → form.field? x = some i → (K i).value? a.text = some v →
      (F i).couldWrite v = false → Offends form F c ts .notRepresentable
  | incomplete {x : χ} {i : ι} {a : Token} {us : List Token} {v : (K i).Value} :
      form.Head c ts x (a :: us) → form.field? x = some i → (K i).value? a.text = some v →
      (F i).couldWrite v = true → (F i).isComplete = false → Offends form F c ts .incomplete

def Begins (form : EntryForm ι σ χ) (start : σ) (text : String) (es : List (χ × Token)) (d : σ)
    (us : List Token) : Prop :=
  ∃ a ts, (ofString text).tokens = a :: ts ∧ a.text = "\x7b" ∧ form.Listed start ts es d us

def Braced (form : EntryForm ι σ χ) (start : σ) (text : String) (es : List (χ × Token)) : Prop :=
  ∃ d a us, form.Begins start text es d (a :: us) ∧ a.text = "\x7d"

/-- What comes of reading a text into memory. Reading succeeds where the text begins with entries
between braces that are all accepted; else there is no opening brace, or some entries that are
accepted and then one that is at fault. Memory is then as the accepted values leave it. -/
structure Applies (form : EntryForm ι σ χ) (F : (i : ι) → Field (K i)) (start : σ) (text : String)
    (m : Memory) (result : EStateM.Result Error Memory Unit) : Prop where
  succeeds_iff : (∃ n, result = .ok () n) ↔
    ∃ es log, form.Braced start text es ∧ List.Forall₂ (form.Accepts F) es log
  fails_iff : ∀ e, (∃ n, result = .error e n) ↔
    Lacks "\x7b" (ofString text).tokens e ∨ ∃ es d log us,
      form.Begins start text es d us ∧ List.Forall₂ (form.Accepts F) es log ∧
        form.Offends F d us e
  ok_iff : ∀ n, result = .ok () n ↔ ∃ es log, form.Braced start text es ∧
    List.Forall₂ (form.Accepts F) es log ∧ Stored F log m n
  error_iff : ∀ e n, result = .error e n ↔
    (Lacks "\x7b" (ofString text).tokens e ∧ n = m) ∨ ∃ es d log us,
      form.Begins start text es d us ∧ List.Forall₂ (form.Accepts F) es log ∧
        form.Offends F d us e ∧ Stored F log m n

/-- What a form says about the tokens and what a loop does with them agree. -/
structure Runs (form : EntryForm ι σ χ) (F : (i : ι) → Field (K i)) (loop : Nat → σ → Update Unit) :
    Prop where
  cases : ∀ c ts, (∃ a us, ts = a :: us ∧ a.text = "\x7d") ∨ (∃ x us, form.Head c ts x us) ∨
    ∃ e, form.Fault c ts e
  length_le : ∀ {c ts x us}, form.Head c ts x us → us.length ≤ ts.length
  close : ∀ fuel c s m {a us}, s.tokens = a :: us → a.text = "\x7d" →
    ∃ t, loop (fuel + 1) c ⟨s, m⟩ = .ok () ⟨t, m⟩
  enter : ∀ fuel c s m {x us i}, form.Head c s.tokens x us → form.field? x = some i →
    ∃ t, t.tokens = us ∧ loop (fuel + 1) c ⟨s, m⟩ =
      View.thenRest (F i).update (loop fuel (form.next x)) ⟨t, m⟩
  missing : ∀ fuel c s m {x us}, form.Head c s.tokens x us → form.field? x = none →
    ∃ t, loop (fuel + 1) c ⟨s, m⟩ = .error (form.missing x) ⟨t, m⟩
  fault : ∀ fuel c s m {e}, form.Fault c s.tokens e →
    ∃ t, loop (fuel + 1) c ⟨s, m⟩ = .error e ⟨t, m⟩

end EntryForm

namespace TextStream

variable {s : TextStream} {a : Token} {ts : List Token}

theorem token_of_nil (h : s.tokens = []) : ∃ t, Parser.token s = .error .endOfText t :=
  ⟨_, (past_zero s).token_of_none (by rw [h]; rfl)⟩

theorem token_of_cons (h : s.tokens = a :: ts) :
    ∃ t, Parser.token s = .ok a t ∧ t.tokens = ts ∧ a.start.tokens = a :: ts := by
  obtain ⟨t, ht, hpast, hstart⟩ := (past_zero s).token_of_some (by rw [h]; rfl)
  exact ⟨t, ht, by rw [hpast.2, h]; rfl, by rw [hstart.2, h]; rfl⟩

theorem expect_of_cons {text : String} (h : s.tokens = a :: ts) (ha : a.text = text) :
    ∃ t, Parser.expect text s = .ok () t ∧ t.tokens = ts := by
  obtain ⟨t, ht, hts, -⟩ := token_of_cons h
  exact ⟨t, by rw [Parser.expect, bind_ok ht, if_pos ha]; rfl, hts⟩

theorem expect_of_lacks {text : String} {e : Error} (h : Lacks text s.tokens e) :
    ∃ t, Parser.expect text s = .error e t := by
  generalize hts : s.tokens = ts at h
  cases h with
  | ended => exact token_bind_of_nil hts _
  | other ha =>
      obtain ⟨t, ht, -⟩ := token_of_cons hts
      exact ⟨t, by rw [Parser.expect, bind_ok ht, if_neg ha]; rfl⟩

theorem consumeIf_comma_tokens (s : TextStream) :
    ∃ found t, Parser.consumeIf "," s = .ok found t ∧ t.tokens = afterComma s.tokens := by
  rcases (past_zero s).consumeIf "," with ⟨t, ht, hpast, hne⟩ | ⟨a, t, ht, hpast, ha, hcomma⟩
  · refine ⟨false, t, ht, hpast.2.trans ?_⟩
    rw [List.drop_zero]
    cases hs : s.tokens with
    | nil => rfl
    | cons a ts => rw [afterComma, if_neg (hne a (by rw [hs]; rfl))]
  · refine ⟨true, t, ht, hpast.2.trans ?_⟩
    obtain ⟨ts, hs⟩ : ∃ ts, s.tokens = a :: ts := by
      cases hs : s.tokens with
      | nil => simp [hs] at ha
      | cons b ts =>
          rw [hs] at ha
          obtain rfl := Option.some.inj ha
          exact ⟨ts, rfl⟩
    rw [hs, afterComma, if_pos hcomma]
    rfl

theorem length_afterComma_le (ts : List Token) : (afterComma ts).length ≤ ts.length := by
  cases ts with
  | nil => exact Nat.le_refl 0
  | cons a ts =>
      rw [afterComma]
      split
      · exact Nat.le_succ _
      · exact Nat.le_refl _

end TextStream

namespace Field

variable {k : Kind} {f : Field k} {s : TextStream} {a : Token} {ts : List Token} {m : Memory}
  {v : k.Value}

theorem update_of_nil (h : s.tokens = []) :
    ∃ t, f.update ⟨s, m⟩ = .error .endOfText ⟨t, m⟩ := by
  obtain ⟨t, ht⟩ := token_bind_of_nil h _
  rw [← k.parser_eq] at ht
  exact ⟨t, bind_error (Update.lift_of_error ht)⟩

theorem update_of_value?_eq_none (h : s.tokens = a :: ts) (hv : k.value? a.text = none) :
    ∃ t, f.update ⟨s, m⟩ = .error (k.mistake a.text a.position) ⟨t, m⟩ := by
  obtain ⟨t, ht, -⟩ := token_of_cons h
  have hp : k.parser s = .error (k.mistake a.text a.position) t := by
    rw [k.parser_eq, bind_ok ht]
    simp only [hv]
    rfl
  exact ⟨t, bind_error (Update.lift_of_error hp)⟩

theorem update_of_value? (h : s.tokens = a :: ts) (hv : k.value? a.text = some v) :
    ∃ t, t.tokens = ts ∧ f.update ⟨s, m⟩ = Update.store (f.tryWrite v) ⟨t, m⟩ := by
  obtain ⟨t, ht, hts, -⟩ := token_of_cons h
  have hp : k.parser s = .ok v t := by
    rw [k.parser_eq, bind_ok ht]
    simp only [hv]
    rfl
  exact ⟨t, hts, bind_ok (Update.lift_of_ok hp) fun v => Update.store (f.tryWrite v)⟩

end Field

namespace EntryForm

variable {ι σ χ : Type} {K : ι → Kind} {form : EntryForm ι σ χ} {F : (i : ι) → Field (K i)}
  {loop : Nat → σ → Update Unit} {c d start : σ} {ts us : List Token} {es : List (χ × Token)}
  {log : List ((i : ι) × (K i).Value)} {s : TextStream} {m n : Memory} {x : χ} {i : ι}
  {a : Token} {v : (K i).Value} {e : Error} {text : String}

theorem Accepts.exact {x : χ × Token} {e : (i : ι) × (K i).Value} (h : form.Accepts F x e) :
    (K e.1).Exact e.2 :=
  Kind.exact_of_value? h.value

theorem offends_or_accepts (hhead : form.Head c ts x us) : (∃ e, form.Offends F c ts e) ∨
    ∃ a vs y, us = a :: vs ∧ form.Accepts F (x, a) y := by
  cases hx : form.field? x with
  | none => exact .inl ⟨_, .missing hhead hx⟩
  | some i =>
      cases us with
      | nil => exact .inl ⟨_, .ended hhead hx⟩
      | cons a vs =>
          cases hv : (K i).value? a.text with
          | none => exact .inl ⟨_, .mistaken hhead hx hv⟩
          | some v =>
              cases hw : (F i).couldWrite v with
              | false => exact .inl ⟨_, .unfit hhead hx hv hw⟩
              | true =>
                  cases hc : (F i).isComplete with
                  | false => exact .inl ⟨_, .incomplete hhead hx hv hw hc⟩
                  | true => exact .inr ⟨a, vs, ⟨i, v⟩, rfl, hx, hv, hw, hc⟩

namespace Runs

variable (h : form.Runs F loop)

include h

theorem enter_accepted (fuel : Nat) (hs : Separate F m) {y : (i : ι) × (K i).Value}
    (hhead : form.Head c s.tokens x (a :: us)) (hy : form.Accepts F (x, a) y) :
    ∃ t n, t.tokens = afterComma us ∧ (F y.1).Written y.2 m n ∧
      loop (fuel + 1) c ⟨s, m⟩ = loop fuel (form.next x) ⟨t, n⟩ := by
  obtain ⟨t, ht, hloop⟩ := h.enter fuel c s m hhead hy.field
  obtain ⟨u, hu, hupdate⟩ := Field.update_of_value? (f := F y.1) (m := m) ht hy.value
  obtain ⟨found, w, hw, hws⟩ := consumeIf_comma_tokens u
  obtain ⟨r, hr⟩ := hs.spans y.1 hy.complete
  have hwritten := Field.written_uncheckedWrite (hs.hosted y.1) hy.exact hr hy.complete hy.fits
  refine ⟨w, _, hws.trans (congrArg afterComma hu), hwritten, ?_⟩
  have hstore : (F y.1).update ⟨t, m⟩ = .ok () ⟨u, (F y.1).uncheckedWrite y.2 m⟩ := by
    rw [hupdate, Update.store, Field.tryWrite_eq_ok_iff.2 ⟨hy.fits, hy.complete, rfl⟩]
  rw [hloop, View.thenRest, bind_ok hstore,
    bind_ok (Update.lift_of_ok hw)]

theorem run (hs : Separate F m) (hl : form.Listed c ts es d us)
    (hacc : List.Forall₂ (form.Accepts F) es log) (hts : s.tokens = ts) (fuel : Nat) :
    ∃ t n, t.tokens = us ∧ Stored F log m n ∧
      loop (es.length + fuel) c ⟨s, m⟩ = loop fuel d ⟨t, n⟩ := by
  induction hl generalizing s m log with
  | nil c ts =>
      cases hacc
      exact ⟨s, m, hts, stored_nil F m, by rw [List.length_nil, Nat.zero_add]⟩
  | cons hhead _ ih =>
      cases hacc with
      | cons hy hacc =>
          subst hts
          obtain ⟨t, n, ht, hwritten, hloop⟩ := h.enter_accepted _ hs hhead hy
          obtain ⟨u, n', hu, hstored, hrest⟩ := ih (hs.of_length hwritten.length) hacc ht
          refine ⟨u, n', hu, hstored.cons hs hy.complete hwritten, ?_⟩
          rw [List.length_cons, Nat.succ_add, hloop, hrest]

theorem run_offends (fuel : Nat) (ho : form.Offends F c s.tokens e) :
    ∃ t, loop (fuel + 1) c ⟨s, m⟩ = .error e ⟨t, m⟩ := by
  -- where a value is looked for, the run fails as the update of the field does
  have henter : ∀ {x us i}, form.Head c s.tokens x us → form.field? x = some i →
      (∀ t : TextStream, t.tokens = us → ∃ u, (F i).update ⟨t, m⟩ = .error e ⟨u, m⟩) →
      ∃ t, loop (fuel + 1) c ⟨s, m⟩ = .error e ⟨t, m⟩ := by
    intro x us i hhead hx hfail
    obtain ⟨t, ht, hloop⟩ := h.enter fuel c s m hhead hx
    obtain ⟨u, hu⟩ := hfail t ht
    exact ⟨u, by rw [hloop, View.thenRest, bind_error hu]⟩
  have hrefused : ∀ {i} {v : (K i).Value} {a us}, (K i).value? a.text = some v →
      (F i).tryWrite v m = .error e → ∀ t : TextStream, t.tokens = a :: us →
      ∃ u, (F i).update ⟨t, m⟩ = .error e ⟨u, m⟩ := by
    intro i v a us hv hw t ht
    obtain ⟨u, -, hu⟩ := Field.update_of_value? (f := F i) (m := m) ht hv
    exact ⟨u, by rw [hu, Update.store, hw]⟩
  cases ho with
  | fault hf => exact h.fault fuel c s m hf
  | missing hhead hx => exact h.missing fuel c s m hhead hx
  | ended hhead hx => exact henter hhead hx fun t ht => Field.update_of_nil ht
  | mistaken hhead hx hv =>
      exact henter hhead hx fun t ht => Field.update_of_value?_eq_none ht hv
  | unfit hhead hx hv hw =>
      exact henter hhead hx (hrefused hv (Field.tryWrite_eq_notRepresentable_iff.2 hw))
  | incomplete hhead hx hv hw hc =>
      exact henter hhead hx (hrefused hv (Field.tryWrite_eq_incomplete_iff.2 ⟨hw, hc⟩))

/-- All tokens begin with entries that are accepted, after which comes a closing brace or an entry
at fault. -/
theorem exists_listed (c : σ) (ts : List Token) : ∃ es d log us, form.Listed c ts es d us ∧
    List.Forall₂ (form.Accepts F) es log ∧
      ((∃ a vs, us = a :: vs ∧ a.text = "\x7d") ∨ ∃ e, form.Offends F d us e) := by
  induction hn : ts.length using Nat.strongRecOn generalizing c ts with
  | ind n ih =>
      rcases h.cases c ts with hclose | ⟨x, us, hhead⟩ | ⟨e, hf⟩
      · exact ⟨[], c, [], ts, .nil c ts, .nil, .inl hclose⟩
      · rcases offends_or_accepts hhead with ho | ⟨a, vs, y, rfl, hy⟩
        · exact ⟨[], c, [], ts, .nil c ts, .nil, .inr ho⟩
        · have hlt : (afterComma vs).length < n := by
            have hle := h.length_le hhead
            have hcomma := length_afterComma_le vs
            rw [List.length_cons] at hle
            omega
          obtain ⟨es, d, log, us, hl, hacc, hend⟩ := ih _ hlt (form.next x) _ rfl
          exact ⟨(x, a) :: es, d, y :: log, us, .cons hhead hl, .cons hy hacc, hend⟩
      · exact ⟨[], c, [], ts, .nil c ts, .nil, .inr ⟨e, .fault hf⟩⟩

theorem length_listed_le (hl : form.Listed c ts es d us) : es.length + us.length ≤ ts.length := by
  induction hl with
  | nil c ts => rw [List.length_nil, Nat.zero_add]
  | @cons _ _ _ vs _ _ _ _ hhead _ ih =>
      have hle := h.length_le hhead
      have hcomma := length_afterComma_le vs
      rw [List.length_cons] at hle ⊢
      omega

theorem text_cases (start : σ) (text : String) :
    (∃ e, Lacks "\x7b" (ofString text).tokens e) ∨
      ∃ es d log us, form.Begins start text es d us ∧ List.Forall₂ (form.Accepts F) es log ∧
        ((∃ a vs, us = a :: vs ∧ a.text = "\x7d") ∨ ∃ e, form.Offends F d us e) := by
  cases htext : (ofString text).tokens with
  | nil => exact .inl ⟨_, .ended⟩
  | cons a ts =>
      by_cases ha : a.text = "\x7b"
      · obtain ⟨es, d, log, us, hl, hacc, hend⟩ := h.exists_listed start ts
        exact .inr ⟨es, d, log, us, ⟨a, ts, htext, ha, hl⟩, hacc, hend⟩
      · exact .inl ⟨_, .other ha⟩

section

variable {view : View} (hview : view.update = do
  (Parser.expect "\x7b" : Parser Unit)
  loop ((← get).input.rest.length + 1) start)

include hview

omit h in
theorem readText_of_lacks (hl : Lacks "\x7b" (ofString text).tokens e) :
    view.readText text m = .error e m := by
  obtain ⟨t, ht⟩ := expect_of_lacks hl
  rw [View.readText, hview, bind_error (Update.lift_of_error ht)]

theorem update_of_begins (hs : Separate F m) (hb : form.Begins start text es d us)
    (hacc : List.Forall₂ (form.Accepts F) es log) : ∃ t n fuel, t.tokens = us ∧
      Stored F log m n ∧ view.update ⟨ofString text, m⟩ = loop (fuel + 1) d ⟨t, n⟩ := by
  obtain ⟨a, ts, htext, ha, hl⟩ := hb
  obtain ⟨t, ht, hts⟩ := expect_of_cons htext ha
  have hfuel : es.length + (t.rest.length - es.length + 1) = t.rest.length + 1 := by
    have hle := h.length_listed_le hl
    have htokens := length_tokens_le t
    rw [hts] at htokens
    omega
  obtain ⟨u, n, hu, hstored, hrun⟩ := h.run hs hl hacc hts (t.rest.length - es.length + 1)
  refine ⟨u, n, t.rest.length - es.length, hu, hstored, ?_⟩
  rw [hview, bind_ok (Update.lift_of_ok ht)]
  change loop (t.rest.length + 1) start ⟨t, m⟩ = _
  rw [← hfuel, hrun]

theorem readText_of_braced (hs : Separate F m) (hb : form.Braced start text es)
    (hacc : List.Forall₂ (form.Accepts F) es log) :
    ∃ n, Stored F log m n ∧ view.readText text m = .ok () n := by
  obtain ⟨d, a, us, hb, ha⟩ := hb
  obtain ⟨t, n, fuel, ht, hstored, hupdate⟩ := h.update_of_begins hview hs hb hacc
  obtain ⟨u, hu⟩ := h.close fuel d t n ht ha
  exact ⟨n, hstored, by rw [View.readText, hupdate, hu]⟩

theorem readText_of_offends (hs : Separate F m) (hb : form.Begins start text es d us)
    (ho : form.Offends F d us e) (hacc : List.Forall₂ (form.Accepts F) es log) :
    ∃ n, Stored F log m n ∧ view.readText text m = .error e n := by
  obtain ⟨t, n, fuel, ht, hstored, hupdate⟩ := h.update_of_begins hview hs hb hacc
  obtain ⟨u, hu⟩ := h.run_offends (m := n) fuel (ht ▸ ho)
  exact ⟨n, hstored, by rw [View.readText, hupdate, hu]⟩

theorem readText_cases (hs : Separate F m) (text : String) :
    (∃ e, Lacks "\x7b" (ofString text).tokens e ∧ view.readText text m = .error e m) ∨
    (∃ es log n, form.Braced start text es ∧ List.Forall₂ (form.Accepts F) es log ∧
      Stored F log m n ∧ view.readText text m = .ok () n) ∨
    ∃ es d log us e n, form.Begins start text es d us ∧ List.Forall₂ (form.Accepts F) es log ∧
      form.Offends F d us e ∧ Stored F log m n ∧ view.readText text m = .error e n := by
  rcases h.text_cases start text with ⟨e, hl⟩ | ⟨es, d, log, us, hb, hacc, hend⟩
  · exact .inl ⟨e, hl, readText_of_lacks hview hl⟩
  · rcases hend with ⟨a, vs, rfl, ha⟩ | ⟨e, ho⟩
    · have hbraced : form.Braced start text es := ⟨d, a, vs, hb, ha⟩
      obtain ⟨n, hstored, hread⟩ := h.readText_of_braced hview hs hbraced hacc
      exact .inr (.inl ⟨es, log, n, hbraced, hacc, hstored, hread⟩)
    · obtain ⟨n, hstored, hread⟩ := h.readText_of_offends hview hs hb ho hacc
      exact .inr (.inr ⟨es, d, log, us, e, n, hb, hacc, ho, hstored, hread⟩)

theorem readText_eq_ok_iff (hs : Separate F m) (text : String) (n : Memory) :
    view.readText text m = .ok () n ↔ ∃ es log, form.Braced start text es ∧
      List.Forall₂ (form.Accepts F) es log ∧ Stored F log m n := by
  constructor
  · intro hok
    rcases h.readText_cases hview hs text with ⟨e, -, hread⟩ |
      ⟨es, log, n', hb, hacc, hstored, hread⟩ | ⟨_, _, _, _, e, n', -, -, -, -, hread⟩
    · cases hok.symm.trans hread
    · cases hok.symm.trans hread
      exact ⟨es, log, hb, hacc, hstored⟩
    · cases hok.symm.trans hread
  · rintro ⟨es, log, hb, hacc, hstored⟩
    obtain ⟨n', hstored', hread⟩ := h.readText_of_braced hview hs hb hacc
    rw [hread, hstored.unique hstored']

theorem readText_eq_error_iff (hs : Separate F m) (text : String) (e : Error) (n : Memory) :
    view.readText text m = .error e n ↔
      (Lacks "\x7b" (ofString text).tokens e ∧ n = m) ∨ ∃ es d log us,
        form.Begins start text es d us ∧ List.Forall₂ (form.Accepts F) es log ∧
          form.Offends F d us e ∧ Stored F log m n := by
  constructor
  · intro herror
    rcases h.readText_cases hview hs text with ⟨e', hl, hread⟩ |
      ⟨_, _, n', -, -, -, hread⟩ | ⟨es, d, log, us, e', n', hb, hacc, ho, hstored, hread⟩
    · cases herror.symm.trans hread
      exact .inl ⟨hl, rfl⟩
    · cases herror.symm.trans hread
    · cases herror.symm.trans hread
      exact .inr ⟨es, d, log, us, hb, hacc, ho, hstored⟩
  · rintro (⟨hl, rfl⟩ | ⟨es, d, log, us, hb, hacc, ho, hstored⟩)
    · exact readText_of_lacks hview hl
    · obtain ⟨n', hstored', hread⟩ := h.readText_of_offends hview hs hb ho hacc
      rw [hread, hstored.unique hstored']

theorem applies (hs : Separate F m) (text : String) :
    form.Applies F start text m (view.readText text m) where
  succeeds_iff := by
    constructor
    · rintro ⟨n, hok⟩
      obtain ⟨es, log, hb, hacc, -⟩ := (h.readText_eq_ok_iff hview hs text n).1 hok
      exact ⟨es, log, hb, hacc⟩
    · rintro ⟨es, log, hb, hacc⟩
      obtain ⟨n, -, hread⟩ := h.readText_of_braced hview hs hb hacc
      exact ⟨n, hread⟩
  fails_iff e := by
    constructor
    · rintro ⟨n, herror⟩
      rcases (h.readText_eq_error_iff hview hs text e n).1 herror with
        ⟨hl, -⟩ | ⟨es, d, log, us, hb, hacc, ho, -⟩
      · exact .inl hl
      · exact .inr ⟨es, d, log, us, hb, hacc, ho⟩
    · rintro (hl | ⟨es, d, log, us, hb, hacc, ho⟩)
      · exact ⟨m, readText_of_lacks hview hl⟩
      · obtain ⟨n, -, hread⟩ := h.readText_of_offends hview hs hb ho hacc
        exact ⟨n, hread⟩
  ok_iff := h.readText_eq_ok_iff hview hs text
  error_iff := h.readText_eq_error_iff hview hs text

end

end Runs

end EntryForm

end Packed
