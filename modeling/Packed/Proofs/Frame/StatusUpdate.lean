import Packed.Proofs.Frame.Partial
import Packed.Proofs.Text.Entries

namespace Packed

open TextStream

namespace Status

inductive Name where
  | ready
  | mode
  | level
  | count
  deriving DecidableEq

namespace Name

def all : List Name := [ready, mode, level, count]

def text : Name → String
  | ready => "ready"
  | mode => "mode"
  | level => "level"
  | count => "count"

def ofText? (text : String) : Option Name := all.find? (·.text == text)

def kind : Name → Kind
  | ready => .flag
  | mode => .named modes
  | level => .signed
  | count => .unsigned

def offset : Name → Nat
  | ready => 0
  | mode => 1
  | level => 4
  | count => 8

def size : Name → Nat
  | ready => 1
  | mode => 3
  | level => 4
  | count => 8

theorem text_of_ofText? {w : String} {x : Name} (h : ofText? w = some x) : x.text = w := by
  rw [ofText?] at h
  have hfound := List.find?_some h
  exact beq_iff_eq.1 hfound

theorem offset_add_size_le (x : Name) : x.offset + x.size ≤ 16 := by cases x <;> decide

theorem windows_apart {x y : Name} (h : x ≠ y) :
    x.offset + x.size ≤ y.offset ∨ y.offset + y.size ≤ x.offset := by
  revert h
  cases x <;> cases y <;> decide

theorem hosted_kind (x : Name) : x.kind.Hosted := by
  cases x with
  | mode => exact Kind.hosted_named (by decide)
  | ready | level | count => exact nofun

end Name

def field (s : Status) : (x : Name) → Field x.kind
  | .ready => s.ready
  | .mode => s.mode
  | .level => s.level
  | .count => s.count

theorem storage_field (s : Status) (x : Name) :
    (s.field x).storage = .window (.ofBlock s.block x.offset x.size) := by
  cases x <;> rfl

theorem width_field (s : Status) (x : Name) : (s.field x).width = x.size := by cases x <;> rfl

inductive NameHead : List Token → Token → List Token → Prop
  | intro {a b : Token} {ts : List Token} : a.text ≠ "\x7d" → View.isMark a.text = false →
      b.text = ":" → NameHead (a :: b :: ts) a ts

inductive NameFault : List Token → Error → Prop
  | ended : NameFault [] .endOfText
  | mark {a : Token} {ts : List Token} : View.isMark a.text = true →
      NameFault (a :: ts) (.unexpectedToken a.position)
  | colon {a : Token} {ts : List Token} {e : Error} : a.text ≠ "\x7d" →
      View.isMark a.text = false → Lacks ":" ts e → NameFault (a :: ts) e

def entries : EntryForm Name Unit Token where
  Head _ := NameHead
  Fault _ := NameFault
  field? a := Name.ofText? a.text
  missing a := .unknownField a.position
  next _ := ()

theorem name_cases (ts : List Token) : (∃ a us, ts = a :: us ∧ a.text = "\x7d") ∨
    (∃ a us, NameHead ts a us) ∨ ∃ e, NameFault ts e := by
  cases ts with
  | nil => exact .inr (.inr ⟨_, .ended⟩)
  | cons a ts =>
      by_cases hclose : a.text = "\x7d"
      · exact .inl ⟨a, ts, rfl, hclose⟩
      · cases hmark : View.isMark a.text with
        | true => exact .inr (.inr ⟨_, .mark hmark⟩)
        | false =>
            cases ts with
            | nil => exact .inr (.inr ⟨_, .colon hclose hmark .ended⟩)
            | cons b ts =>
                by_cases hb : b.text = ":"
                · exact .inr (.inl ⟨a, ts, .intro hclose hmark hb⟩)
                · exact .inr (.inr ⟨_, .colon hclose hmark (.other hb)⟩)

section

variable {s : Status} {t : TextStream} {m : Memory} {a : Token} {ts us : List Token} {e : Error}
  {members : Memory → List Member}

theorem readMembers_of_close (fuel : Nat) (h : t.tokens = a :: ts) (ha : a.text = "\x7d") :
    ∃ u, View.readMembers members (fuel + 1) ⟨t, m⟩ = .ok () ⟨u, m⟩ := by
  obtain ⟨u, hu, -⟩ := token_of_cons h
  exact ⟨u, by rw [View.readMembers_succ, bind_ok (Update.lift_of_ok hu), if_pos ha]; rfl⟩

theorem readMembers_of_head (members : Memory → List Member) (fuel : Nat)
    (h : NameHead t.tokens a us) : ∃ u, u.tokens = us ∧
      View.readMembers members (fuel + 1) ⟨t, m⟩ = View.memberAt members fuel a ⟨u, m⟩ := by
  generalize hts : t.tokens = ts at h
  cases h with
  | intro hclose hmark hb =>
      obtain ⟨u, hu, hus, -⟩ := token_of_cons hts
      obtain ⟨v, hv, hvs⟩ := expect_of_cons hus hb
      refine ⟨v, hvs, ?_⟩
      rw [View.readMembers_succ, bind_ok (Update.lift_of_ok hu), if_neg hclose, hmark]
      simp only [Bool.false_eq_true, if_false]
      rw [bind_ok (Update.lift_of_ok hv)]

theorem readMembers_of_fault (fuel : Nat) (h : NameFault t.tokens e) :
    ∃ u, View.readMembers members (fuel + 1) ⟨t, m⟩ = .error e ⟨u, m⟩ := by
  generalize hts : t.tokens = ts at h
  rw [View.readMembers_succ]
  cases h with
  | ended =>
      obtain ⟨u, hu⟩ := token_of_nil hts
      exact ⟨u, bind_error (Update.lift_of_error hu)⟩
  | @mark a ts hmark =>
      obtain ⟨u, hu, -⟩ := token_of_cons hts
      refine ⟨u, ?_⟩
      have hclose : a.text ≠ "\x7d" := fun h => by rw [h] at hmark; cases hmark
      rw [bind_ok (Update.lift_of_ok hu), if_neg hclose, hmark]
      rfl
  | @colon a ts e hclose hmark hl =>
      obtain ⟨u, hu, rfl, -⟩ := token_of_cons hts
      obtain ⟨v, hv⟩ := expect_of_lacks hl
      refine ⟨v, ?_⟩
      rw [bind_ok (Update.lift_of_ok hu), if_neg hclose, hmark]
      exact bind_error (Update.lift_of_error hv)

theorem find?_members (s : Status) (name : String) :
    s.members.find? (·.name == name) =
      (Name.ofText? name).map fun x => ⟨x.text, some true, (s.field x).view⟩ := by
  have hmembers : s.members = Name.all.map fun x => ⟨x.text, some true, (s.field x).view⟩ := rfl
  rw [hmembers, List.find?_map]
  rfl

theorem memberAt_of_name (s : Status) (fuel : Nat) {x : Name} (h : Name.ofText? a.text = some x) :
    View.memberAt (fun _ => s.members) fuel a =
      View.thenRest (s.field x).update (View.readMembers (fun _ => s.members) fuel) := by
  simp only [View.memberAt, find?_members, h, Option.map_some]
  rfl

theorem memberAt_of_no_name (s : Status) (fuel : Nat) (h : Name.ofText? a.text = none) :
    View.memberAt (fun _ => s.members) fuel a = throw (.unknownField a.position) := by
  simp only [View.memberAt, find?_members, h, Option.map_none]
  rfl

theorem runs_readMembers (s : Status) :
    entries.Runs s.field fun fuel _ => View.readMembers (fun _ => s.members) fuel where
  cases _ := name_cases
  length_le h := by
    cases h with
    | intro => exact (Nat.le_succ _).trans (Nat.le_succ _)
  close fuel _ _ _ {a us} h ha := readMembers_of_close fuel h ha
  enter fuel _ t m {a us x} hhead hx := by
    obtain ⟨u, hu, hread⟩ := readMembers_of_head (m := m) (fun _ => s.members) fuel hhead
    refine ⟨u, hu, hread.trans ?_⟩
    rw [memberAt_of_name s fuel hx]
  missing fuel _ t m {a us} hhead hx := by
    obtain ⟨u, hu, hread⟩ := readMembers_of_head (m := m) (fun _ => s.members) fuel hhead
    refine ⟨u, hread.trans ?_⟩
    rw [memberAt_of_no_name s fuel hx]
    rfl
  fault fuel _ _ _ {e} hf := readMembers_of_fault fuel hf

end

section

variable {b : Buffer} {m n : Memory} {x : Name} {log : List ((x : Name) × x.kind.Value)} {k : Nat}

theorem size_storage (b : Buffer) (x : Name) : ((ofBuffer b).field x).storage.size = x.size := by
  rw [storage_field]
  exact (Window.exact_ofBlock x.offset_add_size_le).2.1

theorem place_field (b : Buffer) (x : Name) (k : Nat) :
    ((ofBuffer b).field x).storage.place k = (ofBuffer b).block.place (x.offset + k) := by
  have ho : (Window.ofBlock (ofBuffer b).block x.offset x.size).offset.toNat = x.offset :=
    (Window.exact_ofBlock x.offset_add_size_le).1
  rw [storage_field, BitStorage.place]
  simp only [BitStorage.base, BitStorage.offset, ho]
  rfl

theorem bits_block (b : Buffer) : (ofBuffer b).block.bits = 16 := rfl

theorem separate_fields (hm : b.LiesIn m) : Separate (ofBuffer b).field m where
  hosted := Name.hosted_kind
  spans x hc := by
    have hok := Field.storage_ok hc
    rw [storage_field] at hok ⊢
    exact BitStorage.spans_of_ok hok Window.within_ofBlock (hm.part _ _)
  disjoint x y hxy _ _ i j hi hj he := by
    rw [size_storage] at hi hj
    rw [place_field, place_field] at he
    have hx := x.offset_add_size_le
    have hy := y.offset_add_size_le
    have hk := Block.place_inj (by rw [bits_block]; omega) (by rw [bits_block]; omega) he
    have ha := Name.windows_apart hxy
    omega

theorem isComplete_field (hc : (ofBuffer b).isComplete = true) (x : Name) :
    ((ofBuffer b).field x).isComplete = true := by
  have hblock : (ofBuffer b).block.ok = true := hc
  have hok : ((ofBuffer b).field x).storage.ok = true := by
    rw [storage_field]
    refine Bool.and_eq_true_iff.2 ⟨?_, hblock⟩
    cases x <;> rfl
  rw [Field.isComplete, hok, size_storage, width_field]
  exact decide_eq_true (Nat.le_refl _)

/-- The block after the values of a log have been written to it: the window of each field holds the
last of its values, and the bits in no such window and the bytes beside the block are as before. -/
structure Rewritten (s : Status) (log : List ((x : Name) × x.kind.Value)) (m n : Memory) :
    Prop where
  length : n.length = m.length
  read : ∀ x v, Latest log x v → (s.field x).read n = .ok v
  window : ∀ x v, Latest log x v → ∀ k, k < x.size →
    (s.block.load n).getLsbD (x.offset + k) = (x.kind.code x.size v).testBit k
  rest : ∀ k, k < 16 → (∀ e ∈ log, ¬(e.1.offset ≤ k ∧ k < e.1.offset + e.1.size)) →
    (s.block.load n).getLsbD k = (s.block.load m).getLsbD k
  outside : ∀ r, s.block.buffer.region = some r → ∀ a, a < r.start ∨ r.start + r.size ≤ a →
    n.get a = m.get a

theorem rewritten_of_stored (hm : b.LiesIn m) (hc : (ofBuffer b).isComplete = true)
    (h : Stored (ofBuffer b).field log m n) : (ofBuffer b).Rewritten log m n := by
  obtain ⟨r, hr⟩ := Block.spans_of_ok hc (hm.part 0 size)
  have hn := hr.of_length h.length
  refine ⟨h.length, h.read, fun x v hl k hk => ?_, fun k hk hfree => ?_, fun q hq a ha => ?_⟩
  · have hbits := x.offset_add_size_le
    have hdigit := h.digits x v hl k (by rwa [size_storage])
    rw [place_field, width_field] at hdigit
    rw [Block.getLsbD_load hn (by rw [bits_block]; omega), hdigit]
  · have hlt : k < (ofBuffer b).block.bits := hk
    rw [Block.getLsbD_load hn hlt, Block.getLsbD_load hr hlt]
    refine h.outside _ fun e he i hi hplace => hfree e he ?_
    have hbits := e.1.offset_add_size_le
    rw [size_storage] at hi
    rw [place_field] at hplace
    have heq := Block.place_inj (by rw [bits_block]; omega) hlt hplace
    omega
  · obtain rfl := Option.some.inj (hr.region.symm.trans hq)
    refine Memory.get_eq_of_bit fun c hcb => h.outside _ fun e he i hi hplace => ?_
    have hbits := e.1.offset_add_size_le
    rw [size_storage] at hi
    rw [place_field] at hplace
    have hin := Block.place_mem hr (k := e.1.offset + i) (by rw [bits_block]; omega)
    rw [hplace] at hin
    omega

end

section

variable {ts us : List Token} {a c : Token} {text text' : String} {es es' : List (Token × Token)}
  {F : (x : Name) → Field x.kind} {log : List ((x : Name) × x.kind.Value)} {m n : Memory}
  {b : Buffer}

theorem NameHead.unique {vs : List Token} (h : NameHead ts a us) (h' : NameHead ts c vs) :
    a = c ∧ us = vs := by
  cases h
  cases h'
  exact ⟨rfl, rfl⟩

theorem listed_unique {i j d d' : Unit} {vs : List Token} (h : entries.Listed i ts es d (a :: us))
    (ha : a.text = "\x7d") (h' : entries.Listed j ts es' d' (c :: vs)) (hc : c.text = "\x7d") :
    es = es' := by
  have hclose : ∀ {a : Token} {us y vs}, a.text = "\x7d" → ¬NameHead (a :: us) y vs := by
    rintro a us y vs ha ⟨hne, -, -⟩
    exact hne ha
  generalize hus : a :: us = ws at h
  induction h generalizing j es' with
  | nil =>
      cases hus
      cases h' with
      | nil => rfl
      | cons hhead => exact absurd hhead (hclose ha)
  | cons hhead _ ih =>
      cases h' with
      | nil => exact absurd hhead (hclose hc)
      | cons hhead' hrest =>
          obtain ⟨rfl, hcons⟩ := hhead.unique hhead'
          obtain ⟨rfl, rfl⟩ := List.cons.inj hcons
          rw [ih hrest hus]

theorem braced_unique (h : entries.Braced () text es) (h' : entries.Braced () text es') :
    es = es' := by
  obtain ⟨d, a, us, ⟨o, ts, htext, -, hl⟩, ha⟩ := h
  obtain ⟨d', c, vs, ⟨o', ts', htext', -, hl'⟩, hc⟩ := h'
  obtain ⟨-, rfl⟩ := List.cons.inj (htext.symm.trans htext')
  exact listed_unique hl ha hl' hc

def spelling (e : Token × Token) : String × String := (e.1.text, e.2.text)

/-- Entries for different fields have changed places. -/
inductive Reordered : List (String × String) → List (String × String) → Prop
  | refl (ps : List (String × String)) : Reordered ps ps
  | cons {ps qs : List (String × String)} (p : String × String) : Reordered ps qs →
      Reordered (p :: ps) (p :: qs)
  | swap {p q : String × String} (ps : List (String × String)) : p.1 ≠ q.1 →
      Reordered (p :: q :: ps) (q :: p :: ps)
  | trans {ps qs rs : List (String × String)} : Reordered ps qs → Reordered qs rs →
      Reordered ps rs

def Means (F : (x : Name) → Field x.kind) (p : String × String)
    (y : (x : Name) × x.kind.Value) : Prop :=
  ∃ e, spelling e = p ∧ entries.Accepts F e y

theorem means_spelling_iff {e : Token × Token} {y : (x : Name) × x.kind.Value} :
    Means F (spelling e) y ↔ entries.Accepts F e y := by
  refine ⟨?_, fun hy => ⟨e, rfl, hy⟩⟩
  rintro ⟨e', he, hy⟩
  obtain ⟨hname, hvalue⟩ := Prod.mk.inj he
  refine ⟨?_, hvalue ▸ hy.value, hy.fits, hy.complete⟩
  change Name.ofText? e.1.text = some y.1
  rw [← hname]
  exact hy.field

theorem Means.text_eq {p : String × String} {y : (x : Name) × x.kind.Value} (h : Means F p y) :
    y.1.text = p.1 := by
  obtain ⟨e, rfl, hy⟩ := h
  exact Name.text_of_ofText? hy.field

theorem Reordered.exists_log {ps qs : List (String × String)} (h : Reordered ps qs)
    (hlog : List.Forall₂ (Means F) ps log) : ∃ log', List.Forall₂ (Means F) qs log' ∧
      ∀ x v, Latest log x v ↔ Latest log' x v := by
  induction h generalizing log with
  | refl => exact ⟨log, hlog, fun _ _ => Iff.rfl⟩
  | cons p _ ih =>
      cases hlog with
      | @cons _ y _ log hy hlog =>
          obtain ⟨log', hlog', hlast⟩ := ih hlog
          exact ⟨y :: log', .cons hy hlog', fun _ _ => latest_cons_congr hlast y⟩
  | swap _ hpq =>
      cases hlog with
      | @cons _ y _ _ hy hlog =>
          cases hlog with
          | @cons _ z _ log hz hlog =>
              refine ⟨z :: y :: log, .cons hz (.cons hy hlog), fun _ _ => latest_swap fun hyz => ?_⟩
              exact hpq (by rw [← hy.text_eq, ← hz.text_eq, hyz])
  | trans _ _ ih ih' =>
      obtain ⟨log₁, hlog₁, hlast₁⟩ := ih hlog
      obtain ⟨log₂, hlog₂, hlast₂⟩ := ih' hlog₁
      exact ⟨log₂, hlog₂, fun x v => (hlast₁ x v).trans (hlast₂ x v)⟩

theorem readText_of_reordered (hm : b.LiesIn m) (h : entries.Braced () text es)
    (h' : entries.Braced () text' es') (hr : Reordered (es.map spelling) (es'.map spelling))
    (hread : (ofBuffer b).view.readText text m = .ok () n) :
    (ofBuffer b).view.readText text' m = .ok () n := by
  have applies : ∀ text, entries.Applies (ofBuffer b).field () text m
      ((ofBuffer b).view.readText text m) :=
    (runs_readMembers (ofBuffer b)).applies rfl (separate_fields hm)
  obtain ⟨es₁, log, hb, hacc, hstored⟩ := ((applies text).ok_iff n).1 hread
  obtain rfl := braced_unique h hb
  obtain ⟨log', hlog, hlast⟩ := hr.exists_log (F := (ofBuffer b).field)
    (List.forall₂_map_left_iff.2 (hacc.imp fun _ _ => means_spelling_iff.2))
  have hacc' := (List.forall₂_map_left_iff.1 hlog).imp fun _ _ => means_spelling_iff.1
  exact ((applies text').ok_iff n).2 ⟨es', log', h', hacc', hstored.congr hlast⟩

/-- Text is applied to a complete status word entry by entry. What is stored is told bit by bit of
the block, all four fields can be written to, and where all entries are accepted those for different
fields may change places. -/
theorem text_applied_by_name (hm : b.LiesIn m) (hc : (ofBuffer b).isComplete = true) :
    (∀ text, entries.Applies (ofBuffer b).field () text m ((ofBuffer b).view.readText text m)) ∧
    (∀ log n, Stored (ofBuffer b).field log m n → (ofBuffer b).Rewritten log m n) ∧
    (∀ x, ((ofBuffer b).field x).isComplete = true) ∧
    ∀ text text' es es' n, entries.Braced () text es → entries.Braced () text' es' →
      Reordered (es.map spelling) (es'.map spelling) →
      (ofBuffer b).view.readText text m = .ok () n →
      (ofBuffer b).view.readText text' m = .ok () n :=
  ⟨(runs_readMembers (ofBuffer b)).applies rfl (separate_fields hm),
    fun _ _ h => rewritten_of_stored hm hc h, isComplete_field hc,
    fun _ _ _ _ _ h h' hr hread => readText_of_reordered hm h h' hr hread⟩

def entryWords : List (String × String) → List String
  | [] => ["\x7d"]
  | (name, value) :: ps => name :: ":" :: value :: entryWords ps

theorem exists_listed_of_words {ps : List (String × String)}
    (hps : ∀ p ∈ ps, p.1 ≠ "\x7d" ∧ View.isMark p.1 = false)
    (h : ts.map (·.text) = entryWords ps) : ∃ es a us, entries.Listed () ts es () (a :: us) ∧
      a.text = "\x7d" ∧ es.map spelling = ps ∧ afterComma ts = ts := by
  induction ps generalizing ts with
  | nil =>
      obtain ⟨a, us, rfl, ha, -⟩ := List.map_eq_cons_iff.1 h
      exact ⟨[], a, us, .nil _ _, ha, rfl, if_neg (by rw [ha]; decide)⟩
  | cons p ps ih =>
      obtain ⟨w, v⟩ := p
      obtain ⟨hclose, hmark⟩ := hps _ List.mem_cons_self
      obtain ⟨a, ts, rfl, rfl, h₁⟩ := List.map_eq_cons_iff.1 h
      obtain ⟨b, ts, rfl, hb, h₂⟩ := List.map_eq_cons_iff.1 h₁
      obtain ⟨c, ts, rfl, rfl, h₃⟩ := List.map_eq_cons_iff.1 h₂
      obtain ⟨es, d, us, hl, hd, rfl, hcomma⟩ :=
        ih (fun p hp => hps p (List.mem_cons_of_mem _ hp)) h₃
      have hrest : entries.Listed () (afterComma ts) es () (d :: us) := by rwa [hcomma]
      refine ⟨(a, c) :: es, d, us, .cons (.intro hclose hmark hb) hrest, hd, rfl,
        if_neg fun ha => ?_⟩
      rw [ha] at hmark
      cases hmark

theorem exists_braced_of_words {ps : List (String × String)}
    (hps : ∀ p ∈ ps, p.1 ≠ "\x7d" ∧ View.isMark p.1 = false)
    (h : words text.toList = "\x7b" :: entryWords ps) :
    ∃ es, entries.Braced () text es ∧ es.map spelling = ps := by
  obtain ⟨o, ts, hts, ho, hwords⟩ :=
    List.map_eq_cons_iff.1 ((map_text_tokens (ofString text)).trans h)
  obtain ⟨es, a, us, hl, ha, hps, -⟩ := exists_listed_of_words hps hwords
  exact ⟨es, ⟨(), a, us, ⟨o, ts, hts, ho, hl⟩, ha⟩, hps⟩

end

/-- A level and a count, in both orders, over a word in the middle of memory, and a text that comes
to a name of no field after a count. -/
theorem text_applied_by_name_to_level_and_count :
    let s := ofBuffer (.ofRegion ⟨1, 2⟩)
    let m : Memory := [9, 0xff, 0xff, 9]
    s.view.readText "\x7blevel: -4 count: 7\x7d" m = .ok () [9, 7, 0xcf, 9] ∧
      s.view.readText "\x7bcount:7 # first\n level:-4\x7d" m = .ok () [9, 7, 0xcf, 9] ∧
      s.view.readText "\x7bcount: 7, speed: 4\x7d" m = .error (.unknownField 11) [9, 7, 0xff, 9] ∧
      (∃ log, s.Rewritten log m [9, 7, 0xff, 9]) := by
  intro s m
  have h := text_applied_by_name (b := .ofRegion ⟨1, 2⟩) (m := m) (by rintro r ⟨⟩; decide)
    (by decide)
  obtain ⟨es, hes, hspelled⟩ : ∃ es, entries.Braced () "\x7blevel: -4 count: 7\x7d" es ∧
      es.map spelling = [("level", "-4"), ("count", "7")] :=
    exists_braced_of_words (by decide) (by decide +kernel)
  obtain ⟨es', hes', hspelled'⟩ : ∃ es, entries.Braced () "\x7bcount:7 # first\n level:-4\x7d" es ∧
      es.map spelling = [("count", "7"), ("level", "-4")] :=
    exists_braced_of_words (by decide) (by decide +kernel)
  have hread : s.view.readText "\x7blevel: -4 count: 7\x7d" m = .ok () [9, 7, 0xcf, 9] :=
    Action.eq_ok (by decide +kernel)
  have hfail : s.view.readText "\x7bcount: 7, speed: 4\x7d" m =
      .error (.unknownField 11) [9, 7, 0xff, 9] := Action.eq_error (by decide +kernel)
  refine ⟨hread, h.2.2.2 _ _ _ _ _ hes hes' ?_ hread, hfail, ?_⟩
  · rw [hspelled, hspelled']
    exact .swap [] (by decide)
  · rcases ((h.1 _).error_iff _ _).1 hfail with ⟨-, hm⟩ | ⟨_, _, log, _, -, -, -, hstored⟩
    · exact absurd hm (by decide)
    · exact ⟨log, h.2.1 log _ hstored⟩

end Status

end Packed
