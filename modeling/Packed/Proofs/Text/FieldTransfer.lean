import Packed.Proofs.Text.FieldUpdate
import Packed.Proofs.Text.ScalarText

namespace Packed

open TextStream

namespace Kind

variable {k : Kind} {w z : Nat} {v : k.Value}

theorem Readable.hosted (h : k.Readable) : k.Hosted := by
  rintro e rfl
  exact h.bits_pos

theorem Representable.mono (h : k.Representable w v) (hwz : w ≤ z) : k.Representable z v := by
  cases k with
  | unsigned => exact Nat.lt_of_lt_of_le h (Nat.pow_le_pow_right Nat.two_pos hwz)
  | signed =>
      have hpow : 2 ^ (w - 1) ≤ 2 ^ (z - 1) :=
        Nat.pow_le_pow_right Nat.two_pos (Nat.sub_le_sub_right hwz 1)
      have hcast : ((2 ^ (w - 1) : Nat) : Int) ≤ (2 ^ (z - 1) : Nat) := Int.ofNat_le.2 hpow
      exact ⟨Int.le_trans (Int.neg_le_neg hcast) h.1, Int.lt_of_lt_of_le h.2 hcast⟩
  | decimal => exact ⟨h.1, Nat.lt_of_lt_of_le h.2 (Nat.pow_le_pow_right Nat.two_pos hwz)⟩
  | flag | float => trivial
  | named e => exact ⟨h.1, IntType.contains_mono hwz h.2⟩

theorem representable_decode (hw : k.Admits w) (hk : k.Hosted) {raw : Word}
    (h : k.wellFormed w raw = true) : k.Representable w (k.decode w raw) :=
  (fits_iff hw).1 (fits_decode hw hk h)

end Kind

namespace Field

variable {k : Kind} {f g : Field k} {m n : Memory}

theorem parser_text (hk : k.Readable) (h : f.ok m = true) (o : TextOptions) :
    ∃ text t, f.view.text o m = .ok text ∧
      k.parser (ofString text) = .ok (f.uncheckedRead m) t := by
  obtain ⟨word, -, hspells, hyields⟩ := Kind.legible_decode f.admits hk (f.storage.load m) o
  obtain ⟨t, ht, -⟩ := hyields (ofString _) [] hspells.words_eq
  refine ⟨_, t, ?_, ht⟩
  change (f.read m).map (k.render o) = _
  rw [read_eq h]
  rfl

/-- Text carries a value from a field that is ok to every complete field of its kind that is no
narrower and takes all values, whatever the options. Only the storage of the latter changes. -/
theorem text_carries_value (hk : k.Readable) (hf : f.ok m = true) (hw : f.width ≤ g.width)
    (hcheck : ∀ v, g.check v = true) (hg : g.isComplete = true) (hs : g.storage.Sound)
    (hn : g.storage.base.buffer.LiesIn n) (o : TextOptions) :
    ∃ text v n', f.view.text o m = .ok text ∧ f.read m = .ok v ∧
      g.view.readText text n = .ok () n' ∧ g.Written v n n' := by
  obtain ⟨text, t, htext, hparser⟩ := parser_text hk hf o
  obtain ⟨-, hwf, -⟩ := ok_iff.1 hf
  have hplace : k.Representable g.width (f.uncheckedRead m) :=
    (Kind.representable_decode f.admits hk.hosted hwf).mono hw
  have hstores := stores_attempt hk.hosted (Kind.exact_decode k f.width (f.storage.load m)) hs hn
  obtain ⟨n', hn', hwritten⟩ := hstores.stored hplace (hcheck _) hg
  exact ⟨text, _, n', htext, read_eq hf, (readText_of_ok hparser).trans hn', hwritten⟩

/-- A negative value with two names, of which the later one is written with the number in a comment,
goes from five bits of a window to a block of two bytes. -/
theorem text_carries_value_from_five_bits :
    let e : EnumType :=
      .declare "Delta" ⟨true, 8⟩ .last [("DOWN", some (-1)), ("BACK", some (-1)), ("STAY", none)]
    let w : Window := (Window.ofBlock ⟨.bigPair, .ofRegion ⟨0, 2⟩⟩ 2 13).part 3 7
    let f : Field (.named e) := ⟨5, by decide, fun _ => true, .window w⟩
    let g : Field (.named e) := ⟨16, by decide, fun _ => true, .block ⟨.bigPair, .ofRegion ⟨1, 2⟩⟩⟩
    let m : Memory := [0x03, 0xe0, 0x00]
    f.read m = .ok (-1 : Int) ∧ ∃ n, f.view.text .multilineText m = .ok "BACK  # -1" ∧
      g.view.readText "BACK  # -1" m = .ok () n ∧ g.read n = .ok (-1 : Int) := by
  intro e w f g m
  have he : (Kind.named e).Readable := ⟨by decide, by decide, by decide, by decide, by decide⟩
  have hm : g.storage.base.buffer.LiesIn m := by
    rintro r ⟨⟩
    decide
  have hread : f.read m = .ok (-1 : Int) :=
    (read_eq (by decide +kernel)).trans (congrArg Except.ok (by decide +kernel))
  have htext : f.view.text .multilineText m = .ok "BACK  # -1" := by
    change (f.read m).map _ = _
    rw [hread]
    exact congrArg Except.ok (by decide +kernel)
  obtain ⟨text, v, n, ht, hv, hn, hwritten⟩ := text_carries_value (m := m) he
    (by decide +kernel : f.ok m = true) (by decide : f.width ≤ g.width) (fun _ => rfl) (by decide)
    trivial hm .multilineText
  obtain rfl := Except.ok.inj (htext.symm.trans ht)
  obtain rfl := Except.ok.inj (hread.symm.trans hv)
  exact ⟨hread, n, htext, hn, hwritten.read⟩

end Field

end Packed
