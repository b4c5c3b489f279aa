import Packed.Structure
import Packed.Proofs.Field
import Packed.Proofs.Text.ScalarText

namespace Packed

open TextStream

namespace Update

variable {α β : Type} {n : Memory}

theorem lift_bind_ok {p : Parser α} {s t : TextStream} {a : α} (h : p s = .ok a t)
    (f : α → Update β) : ((liftM p : Update α) >>= f) ⟨s, n⟩ = f a ⟨t, n⟩ := by
  apply bind_ok
  change ofParser p ⟨s, n⟩ = _
  rw [ofParser, h]

end Update

theorem TextOptions.deeper_eq {o : TextOptions} (h : o.current + o.indent < sizeLimit) :
    o.deeper = .ok { o with current := o.current + o.indent } := by
  rw [deeper, if_neg (Nat.not_le.2 h)]

namespace TextStream

theorem IsWord.ne {text mark : String} (h : IsWord text) (hm : ¬ IsWord mark) : text ≠ mark := by
  rintro rfl
  exact hm h

theorem IsWord.isMark {text : String} (h : IsWord text) : View.isMark text = false := by
  simp only [View.isMark, Bool.or_eq_false_iff, beq_eq_false_iff_ne]
  exact ⟨⟨⟨⟨h.ne (by decide), h.ne (by decide)⟩, h.ne (by decide)⟩, h.ne (by decide)⟩,
    h.ne (by decide)⟩

end TextStream

namespace View

/-- From any text that begins with these words the view takes them, which brings memory from one
state to another. -/
def Takes (v : View) (ws : List String) (n n' : Memory) : Prop :=
  ∀ (s : TextStream) (us : List String), words s.rest = ws ++ us →
    ∃ t, v.update ⟨s, n⟩ = .ok () ⟨t, n'⟩ ∧ words t.rest = us

def Opens (ws : List String) : Prop := ∃ w us, ws = w :: us ∧ w ≠ "[" ∧ w ≠ "," ∧ w ≠ "\x7d"

/-- What one view is written as is text that another takes. -/
def Carries (v : View) (o : TextOptions) (m : Memory) (w : View) (n n' : Memory) : Prop :=
  ∃ text ws, v.text o m = .ok text ∧ Spells o.multiline text ws ∧ Opens ws ∧ w.Takes ws n n'

theorem Carries.readText {v w : View} {o : TextOptions} {m n n' : Memory}
    (h : v.Carries o m w n n') :
    ∃ text, v.text o m = .ok text ∧ w.readText text n = .ok () n' := by
  obtain ⟨text, ws, ht, hs, -, hw⟩ := h
  obtain ⟨t, hu, -⟩ := hw (.ofString text) [] (by rw [List.append_nil]; exact hs.words_eq)
  exact ⟨text, ht, by rw [View.readText, hu]⟩

theorem opens_word {w : String} (h : IsWord w) (us : List String) : Opens (w :: us) :=
  ⟨w, us, rfl, h.ne (by decide), h.ne (by decide), h.ne (by decide)⟩

theorem opens_brace (us : List String) : Opens ("\x7b" :: us) :=
  ⟨_, us, rfl, by decide, by decide, by decide⟩

theorem consumeIf_comma {comma us : List String} (hc : comma = [] ∨ comma = [","])
    (hu : us.head? ≠ some ",") {s : TextStream} (hs : words s.rest = comma ++ us) :
    ∃ found t, Parser.consumeIf "," s = .ok found t ∧ words t.rest = us := by
  obtain rfl | rfl := hc
  · obtain ⟨t, ht, hw⟩ := Parser.consumeIf_of_ne (s := s) (w := ",") (by rwa [hs])
    exact ⟨false, t, ht, by rw [hw, hs]; rfl⟩
  · obtain ⟨t, ht, hw⟩ := Parser.consumeIf_of_cons (w := ",") hs
    exact ⟨true, t, ht, hw⟩

theorem Takes.andThen {v : View} {ws comma us vs : List String} {n n₁ n₂ : Memory} {k : Update Unit}
    (hv : v.Takes ws n n₁) (hc : comma = [] ∨ comma = [","]) (hu : us.head? ≠ some ",")
    (hk : ∀ s, words s.rest = us → ∃ t, k ⟨s, n₁⟩ = .ok () ⟨t, n₂⟩ ∧ words t.rest = vs)
    {s : TextStream} (hs : words s.rest = ws ++ (comma ++ us)) :
    ∃ t, (do v.update; let _ ← (Parser.consumeIf "," : Parser Bool); k : Update Unit) ⟨s, n⟩ =
      .ok () ⟨t, n₂⟩ ∧ words t.rest = vs := by
  obtain ⟨s₁, hs₁, h₁⟩ := hv s _ hs
  obtain ⟨found, s₂, hs₂, h₂⟩ := consumeIf_comma hc hu h₁
  obtain ⟨t, ht, hw⟩ := hk s₂ h₂
  refine ⟨t, ?_, hw⟩
  rw [bind_ok hs₁, Update.lift_bind_ok hs₂]
  exact ht

theorem isHidden_eq_false {v : View} {o : TextOptions} {m : Memory} (h : v.ok m = true) :
    v.isHidden v.isAggregate o m = false := by
  simp [isHidden, h]

def Stays (v : View) (aggregate : Bool) (o inner : TextOptions) (m : Memory) : Prop :=
  v.isHidden aggregate o m = true ∨
    v.isHidden aggregate o m = false ∧ v.Carries inner m v m m

theorem isHidden_aggregate {v : View} (ha : v.isAggregate = true) (o : TextOptions) (m : Memory) :
    v.isHidden v.isAggregate o m = false := by
  simp [isHidden, ha]

theorem stays_aggregate {v : View} {o inner : TextOptions} {m : Memory}
    (ha : v.isAggregate = true) (h : v.Carries inner m v m m) : v.Stays v.isAggregate o inner m :=
  .inr ⟨isHidden_aggregate ha o m, h⟩

theorem isHidden_eq_true {v : View} {o : TextOptions} {m : Memory} (hp : o.partialOutput = true)
    (ha : v.isAggregate = false) (h : v.ok m = false) : v.isHidden v.isAggregate o m = true := by
  simp [isHidden, hp, ha, h]

end View

namespace Field

variable {k : Kind} {f g : Field k} {m : Memory}

theorem carries (hk : k.Textual f.width) (h : f.ok m = true) (hw : g.width = f.width)
    (hv : g.check (f.uncheckedRead m) = true) (hc : g.isComplete = true) (o : TextOptions)
    (n : Memory) :
    f.view.Carries o m g.view n (g.storage.store ((f.storage.load m).mask f.width) n) := by
  obtain ⟨word, hword, hs, hy⟩ := Kind.legible_decode f.admits hk.readable (f.storage.load m) o
  refine ⟨_, [word], ?_, hs, View.opens_word hword [], ?_⟩
  · change (f.read m).map (k.render o) = _
    rw [read_eq h]
    rfl
  · intro s us hus
    obtain ⟨t, ht, hu⟩ := hy s us hus
    refine ⟨t, ?_, hu⟩
    change g.update ⟨s, n⟩ = _
    rw [Field.update, Update.lift_bind_ok ht]
    change Update.store (g.tryWrite (f.uncheckedRead m)) ⟨t, n⟩ = _
    simp only [Update.store, tryWrite_uncheckedRead hk.holds h hw hv hc n]

theorem carries_block {b c : Block} {r s : Region} {n : Memory} (hk : k.Textual f.width)
    (hok : f.ok m = true) (hb : f.storage = .block b) (hc : g.storage = .block c)
    (hformat : c.format = b.format) (hbits : f.width = b.bits) (hw : g.width = f.width)
    (hv : g.check (f.uncheckedRead m) = true) (hr : b.Spans r m) (hs : c.Spans s n)
    (o : TextOptions) :
    f.view.Carries o m g.view n (n.write s.start (m.read r)) := by
  have hcb : c.bits = b.bits := congrArg BlockFormat.bits hformat
  have hcomplete : g.isComplete = true := by
    simp [isComplete, hc, BitStorage.ok, BitStorage.size, hs.ok, hw, hbits, hcb]
  have h := Field.carries hk hok hw hv hcomplete o n
  have hstore : g.storage.store ((f.storage.load m).mask f.width) n =
      n.write s.start (m.read r) := by
    rw [hb, hc, hbits]
    change c.store ((b.load m).mask b.bits) n = _
    rw [Block.mask_load hr]
    exact Block.store_load_eq_write hr hs hformat
  rwa [hstore] at h

theorem stays (hk : k.Textual f.width) (hw : f.width = f.storage.size)
    (hs : f.storage.Sound) (hm : f.storage.base.buffer.LiesIn m) {o : TextOptions}
    (hp : o.partialOutput = true) (inner : TextOptions) : f.view.Stays false o inner m := by
  cases h : f.ok m with
  | false => exact .inl (View.isHidden_eq_true hp rfl h)
  | true =>
      obtain ⟨hc, -, hv⟩ := ok_iff.1 h
      obtain ⟨r, hspans⟩ := BitStorage.spans_of_ok (storage_ok hc) hs hm
      have hcarries := carries hk h rfl hv hc inner m
      rw [store_self hspans hw] at hcarries
      exact .inr ⟨View.isHidden_eq_false (v := f.view) h, hcarries⟩

end Field

end Packed
