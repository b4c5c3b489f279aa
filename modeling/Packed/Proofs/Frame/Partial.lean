import Packed.Frame.Basic
import Packed.Frame.Conditional
import Packed.Proofs.Array
import Packed.Proofs.Known

namespace Packed

open View

/-- The structures that make up a frame, and the one whose payload is conditional. -/
inductive Layout where
  | frame
  | list
  | status
  | conditional
  deriving DecidableEq, Repr

namespace Layout

def view (b : Buffer) : Layout → View
  | frame => (Frame.mk b).view
  | list => (WordList.mk b).view
  | status => (Status.ofBuffer b).view
  | conditional => (Conditional.mk b).view

def depth : Layout → Nat
  | frame => 3
  | list => 2
  | status => 1
  | conditional => 1

end Layout

variable {b : Buffer} {m : Memory} {o : TextOptions}

theorem textual_mode : (Kind.named Status.modes).Textual 3 where
  readable :=
    { nodup := by decide
      word := by decide
      name := by decide
      bits_pos := by decide
      bits_le := by decide }
  holds := by
    rintro e he
    cases he
    decide

theorem byteField_stays (hm : b.LiesIn m) (offset : Nat) (hp : o.partialOutput = true)
    (inner : TextOptions) : (byteField b offset).view.Stays false o inner m :=
  (byteField b offset).stays (Kind.textual_of_mem (by decide) 8) rfl trivial (hm.part _ _) hp inner

namespace Status

theorem carries_self (hm : b.LiesIn m) (hp : o.partialOutput = true)
    (ho : o.current + o.indent < sizeLimit) :
    (ofBuffer b).view.Carries o m (ofBuffer b).view m m := by
  let s := ofBuffer b
  have hsound (offset size : Nat) : (s.bits offset size).Sound :=
    BitStorage.sound_part (.block s.block) offset size
  have hlies : s.block.buffer.LiesIn m := hm.part _ _
  have h (inner : TextOptions) :
      MembersCarried o inner m (fun _ => s.members) s.members m m := by
    refine .refl ["ready", "mode", "level", "count"] rfl (by decide) (by decide) fun x hx _ => ?_
    simp only [members, List.mem_cons, List.not_mem_nil, or_false] at hx
    obtain rfl | rfl | rfl | rfl := hx
    · exact s.ready.stays (Kind.textual_of_mem (by decide) 1) rfl (hsound 0 1) hlies hp inner
    · exact s.mode.stays textual_mode rfl (hsound 1 3) hlies hp inner
    · exact s.level.stays (Kind.textual_of_mem (by decide) 4) rfl (hsound 4 4) hlies hp inner
    · exact s.count.stays (Kind.textual_of_mem (by decide) 8) rfl (hsound 8 8) hlies hp inner
  exact (h _).carries (TextOptions.deeper_eq ho) rfl rfl

end Status

namespace WordList

theorem storage_words_eq (l : WordList) (m : Memory) : (l.words m).storage =
    (l.wordsSize m).elim (.null .any) fun n => l.buffer.part 1 n.toNat := by
  rw [words]
  cases l.wordsSize m <;> rfl

theorem lies_words (l : WordList) (hm : l.buffer.LiesIn m) : (l.words m).storage.LiesIn m := by
  rw [storage_words_eq]
  cases l.wordsSize m with
  | none => rintro r ⟨⟩
  | some n => exact hm.part _ _

theorem count_words_le (l : WordList) (m : Memory) : (l.words m).count ≤ sizeLimit := by
  refine Nat.le_trans (Nat.div_le_self _ _) ?_
  change (l.words m).storage.size ≤ sizeLimit
  rw [storage_words_eq]
  cases hw : l.wordsSize m with
  | none => exact Nat.zero_le _
  | some n =>
      have hn := Known.contains_arithmetic (r := sizeType) (by decide) hw
      obtain ⟨-, hlt⟩ := (IntType.contains_unsigned_iff 64 n).1 hn
      have hlim : sizeLimit = 2 ^ 64 := rfl
      have hle := Buffer.size_part_le l.buffer 1 n.toNat
      rw [Option.elim_some]
      omega

theorem words_carries_self (l : WordList) (hm : l.buffer.LiesIn m) (hp : o.partialOutput = true)
    (ho : o.current + o.indent < sizeLimit) :
    (l.words m).view.Carries o m (l.words m).view m m := by
  have hlies := l.lies_words hm
  refine ArrayView.carries_of_scalar rfl rfl (.refl ?_ fun v hv => ?_) (TextOptions.deeper_eq ho)
  · rw [List.length_map, List.length_range]
    exact l.count_words_le m
  · obtain ⟨i, -, rfl⟩ := List.mem_map.1 hv
    exact (wordType.field ((l.words m).slot i)).stays (Kind.textual_of_mem (by decide) 16) rfl
      trivial (hlies.part _ _) hp _

theorem carries_self (l : WordList) (hm : l.buffer.LiesIn m) (hp : o.partialOutput = true)
    (ho : o.current + 2 * o.indent < sizeLimit) : l.view.Carries o m l.view m m := by
  have hd := TextOptions.deeper_eq (o := o) (by omega)
  have h : MembersCarried o { o with current := o.current + o.indent } m l.members (l.members m)
      m m := by
    refine .refl ["count", "values"] rfl (by decide) (by decide) fun x hx _ => ?_
    simp only [members, List.mem_cons, List.not_mem_nil, or_false] at hx
    obtain rfl | rfl := hx
    · exact byteField_stays hm 0 hp _
    · exact stays_aggregate rfl (words_carries_self l hm hp (by dsimp only; omega))
  exact h.carries hd rfl rfl

end WordList

namespace Frame

theorem carries_self (f : Frame) (hm : f.buffer.LiesIn m) (hp : o.partialOutput = true)
    (ho : o.current + 3 * o.indent < sizeLimit) : f.view.Carries o m f.view m m := by
  have hd := TextOptions.deeper_eq (o := o) (by omega)
  have h : MembersCarried o { o with current := o.current + o.indent } m (fun _ => f.members)
      f.members m m := by
    refine .refl ["status", "list"] rfl (by decide) (by decide) fun x hx _ => ?_
    simp only [members, List.mem_cons, List.not_mem_nil, or_false] at hx
    obtain rfl | rfl := hx
    · exact stays_aggregate rfl (Status.carries_self (hm.part _ _) hp (by dsimp only; omega))
    · exact stays_aggregate rfl (f.list.carries_self (hm.part _ _) hp (by dsimp only; omega))
  exact h.carries hd rfl rfl

end Frame

namespace Conditional

theorem carries_self (c : Conditional) (hm : c.buffer.LiesIn m) (hp : o.partialOutput = true)
    (ho : o.current + o.indent < sizeLimit) : c.view.Carries o m c.view m m := by
  have h (inner : TextOptions) : MembersCarried o inner m c.members (c.members m) m m := by
    refine .refl ["condition", "payload"] rfl (by decide) (by decide) fun x hx hpresent => ?_
    simp only [members, List.mem_cons, List.not_mem_nil, or_false] at hx
    obtain rfl | rfl := hx
    · exact byteField_stays hm 0 hp inner
    · have hpayload : c.payload m = byteField c.buffer 1 := if_pos hpresent
      change (c.payload m).view.Stays false o inner m
      rw [hpayload]
      exact byteField_stays hm 1 hp inner
  exact (h _).carries (TextOptions.deeper_eq ho) rfl rfl

end Conditional

/-- Writing what there is of a structure and reading it back changes nothing, however much of its
buffer is missing. -/
theorem Layout.partial_text_changes_nothing (l : Layout) (hm : b.LiesIn m)
    (hp : o.partialOutput = true) (ho : o.current + l.depth * o.indent < sizeLimit) :
    ∃ text, (l.view b).text o m = .ok text ∧ (l.view b).readText text m = .ok () m := by
  have h : (l.view b).Carries o m (l.view b) m m := by
    cases l with
    | frame => exact (Frame.mk b).carries_self hm hp ho
    | list => exact (WordList.mk b).carries_self hm hp ho
    | status => exact Status.carries_self hm hp (by simpa [depth] using ho)
    | conditional => exact (Conditional.mk b).carries_self hm hp (by simpa [depth] using ho)
  exact h.readText

/-- A frame that ends within its last word. -/
theorem Layout.partial_text_of_half_word :
    let b : Buffer := .ofRegion ⟨1, 6⟩
    let m : Memory := [7, 0x9f, 0x03, 0x02, 0x01, 0xff, 0x80]
    let o : TextOptions := { TextOptions.multilineText with partialOutput := true }
    (Layout.frame.view b).isComplete m = false ∧ ∃ text,
      (Layout.frame.view b).text o m = .ok text ∧
        (Layout.frame.view b).readText text m = .ok () m := by
  intro b m o
  refine ⟨by decide, Layout.partial_text_changes_nothing .frame ?_ rfl (by decide)⟩
  rintro r ⟨⟩
  decide

end Packed
