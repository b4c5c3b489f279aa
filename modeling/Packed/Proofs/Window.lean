import Mathlib.Data.List.Induction
import Packed.BitStorage
import Packed.Proofs.Block

namespace Packed

namespace Window

def Covers (w : Window) (k : Nat) : Prop :=
  w.offset.toNat ≤ k ∧ k < w.offset.toNat + w.size.toNat

instance (w : Window) (k : Nat) : Decidable (w.Covers k) := inferInstanceAs (Decidable (_ ∧ _))

def Disjoint (v w : Window) : Prop := ∀ k, v.Covers k → ¬ w.Covers k

def Within (w : Window) : Prop := w.offset.toNat + w.size.toNat ≤ w.block.bits

/-- The windows that are cut from a block, directly or from one another. -/
inductive CutFrom (b : Block) : Window → Prop
  | ofBlock (offset size : Nat) : CutFrom b (.ofBlock b offset size)
  | part {w : Window} (h : CutFrom b w) (offset size : Nat) : CutFrom b (w.part offset size)

theorem within_ofBlock {b : Block} {offset size : Nat} (h : (ofBlock b offset size).valid = true) :
    (ofBlock b offset size).Within := by
  simp only [ofBlock, Bool.and_eq_true, decide_eq_true_eq] at h
  simp only [Within, ofBlock, BitVec.toNat_ofNat]
  omega

theorem exact_ofBlock {b : Block} {offset size : Nat} (h : offset + size ≤ b.bits) :
    (ofBlock b offset size).offset.toNat = offset ∧
      (ofBlock b offset size).size.toNat = size ∧ (ofBlock b offset size).Within := by
  have hb := b.format.bits_le
  rw [Block.bits] at h
  have ho : (BitVec.ofNat 8 offset).toNat = offset := by
    rw [BitVec.toNat_ofNat]
    exact Nat.mod_eq_of_lt (by omega)
  have hs : (BitVec.ofNat 8 size).toNat = size := by
    rw [BitVec.toNat_ofNat]
    exact Nat.mod_eq_of_lt (by omega)
  refine ⟨ho, hs, ?_⟩
  simp only [Within, ofBlock, ho, hs, Block.bits]
  exact h

theorem CutFrom.block_eq {b : Block} {w : Window} (h : CutFrom b w) : w.block = b := by
  induction h with
  | ofBlock => rfl
  | part _ _ _ ih => exact ih

theorem CutFrom.within {b : Block} {w : Window} (h : CutFrom b w) (hv : w.valid = true) :
    w.Within := by
  cases h with
  | ofBlock offset size => exact within_ofBlock hv
  | part h offset size =>
      simp only [Window.part, Bool.and_eq_true] at hv
      exact within_ofBlock hv.1.1

theorem getLsbD_cover (w : Window) (k : Nat) :
    w.cover.getLsbD k = (decide (k < 64) && decide (w.Covers k)) := by
  rw [cover, BitVec.getLsbD_shiftLeft, Word.getLsbD_lowMask]
  by_cases hk : k < 64
  · by_cases ho : w.offset.toNat ≤ k
    · have hi : k - w.offset.toNat < 64 := by omega
      simp only [hk, hi, Nat.not_lt.2 ho, Covers, ho, true_and, decide_true, decide_false,
        Bool.not_false, Bool.true_and, Bool.and_true]
      congr 1
      apply propext
      omega
    · simp [Covers, ho, Nat.lt_of_not_le ho]
  · simp [hk]

theorem getLsbD_load (w : Window) (m : Memory) (k : Nat) : (w.load m).getLsbD k =
    (decide (k < w.size.toNat) && (w.block.load m).getLsbD (w.offset.toNat + k)) := by
  rw [load, Word.getLsbD_mask, BitVec.getLsbD_ushiftRight]

def merge (w : Window) (value old : Word) : Word :=
  (old &&& ~~~w.cover) ||| (value <<< w.offset.toNat &&& w.cover)

theorem store_eq_merge (w : Window) (value : Word) (m : Memory) :
    w.store value m = w.block.store (w.merge value (w.block.load m)) m := rfl

theorem getLsbD_merge (w : Window) (value old : Word) {k : Nat} (hk : k < 64) :
    (w.merge value old).getLsbD k =
      if w.Covers k then value.getLsbD (k - w.offset.toNat) else old.getLsbD k := by
  simp only [merge, BitVec.getLsbD_or, BitVec.getLsbD_and, BitVec.getLsbD_not,
    BitVec.getLsbD_shiftLeft, getLsbD_cover, hk, decide_true, Bool.true_and]
  by_cases hc : w.Covers k
  · simp [hc, Nat.not_lt.2 hc.1]
  · simp [hc]

section

variable {w v : Window} {r : Region} {m : Memory} (h : w.block.Spans r m)

include h

theorem length_store (value : Word) : (w.store value m).length = m.length :=
  Block.length_store h _

theorem get_store_of_outside (value : Word) {a : Nat} (ha : a < r.start ∨ r.start + r.size ≤ a) :
    (w.store value m).get a = m.get a :=
  Block.get_store_of_outside h _ ha

theorem getLsbD_block_load_store (value : Word) {k : Nat} (hk : k < w.block.bits) :
    (w.block.load (w.store value m)).getLsbD k =
      if w.Covers k then value.getLsbD (k - w.offset.toNat) else (w.block.load m).getLsbD k := by
  have hb := w.block.format.bits_le
  have hk' : k < 64 := Nat.lt_of_lt_of_le hk hb
  rw [store_eq_merge, Block.load_store h, Word.getLsbD_mask, getLsbD_merge _ _ _ hk']
  simp [hk]

theorem load_store (hw : w.Within) (value : Word) :
    w.load (w.store value m) = value.mask w.size.toNat := by
  apply BitVec.eq_of_getLsbD_eq
  intro k _
  rw [getLsbD_load, Word.getLsbD_mask]
  by_cases hk : k < w.size.toNat
  · have hb : w.offset.toNat + k < w.block.bits := by rw [Within] at hw; omega
    have hc : w.Covers (w.offset.toNat + k) := by constructor <;> omega
    rw [getLsbD_block_load_store h value hb, if_pos hc, Nat.add_sub_cancel_left]
  · simp [hk]

theorem load_store_of_disjoint (hb : v.block = w.block) (hv : v.Within) (hd : w.Disjoint v)
    (value : Word) : v.load (w.store value m) = v.load m := by
  apply BitVec.eq_of_getLsbD_eq
  intro k _
  rw [getLsbD_load, getLsbD_load, hb]
  by_cases hk : k < v.size.toNat
  · have hlt : v.offset.toNat + k < w.block.bits := by rw [Within, hb] at hv; omega
    have hc : v.Covers (v.offset.toNat + k) := by constructor <;> omega
    rw [getLsbD_block_load_store h value hlt, if_neg (fun hw => hd _ hw hc)]
  · simp [hk]

theorem store_load : w.store (w.load m) m = m := by
  have hm : w.merge (w.load m) (w.block.load m) = w.block.load m := by
    apply BitVec.eq_of_getLsbD_eq
    intro k hk
    rw [getLsbD_merge _ _ _ hk]
    split
    · rename_i hc
      have hlt : k - w.offset.toNat < w.size.toNat := by have h1 := hc.1; have h2 := hc.2; omega
      rw [getLsbD_load, Nat.add_sub_cancel' hc.1]
      simp [hlt]
    · rfl
  rw [store_eq_merge, hm, Block.store_load h]

end

variable {ι : Type} [DecidableEq ι] {b : Block} {r : Region} {ws : ι → Window}

def writeAll (ws : ι → Window) (log : List (ι × Word)) (m : Memory) : Except Fault Memory :=
  log.foldlM (fun m p => (BitStorage.window (ws p.1)).write p.2 m) m

def lastValue (log : List (ι × Word)) (i : ι) : Option Word :=
  (log.reverse.find? (·.1 = i)).map (·.2)

theorem lastValue_append (log : List (ι × Word)) (j : ι) (value : Word) (i : ι) :
    lastValue (log ++ [(j, value)]) i = if j = i then some value else lastValue log i := by
  by_cases hj : j = i <;> simp [lastValue, hj]

/-- Memory `n` is memory `m` after the writes of the log: the invariant of a run of writes. -/
structure Reflects (b : Block) (r : Region) (ws : ι → Window) (log : List (ι × Word))
    (m n : Memory) : Prop where
  length : n.length = m.length
  outside : ∀ a, a < r.start ∨ r.start + r.size ≤ a → n.get a = m.get a
  window : ∀ i, (ws i).load n = (lastValue log i).getD ((ws i).load m)
  rest : ∀ k, k < b.bits → (∀ p ∈ log, ¬ (ws p.1).Covers k) →
    (b.load n).getLsbD k = (b.load m).getLsbD k

theorem reflects_nil (b : Block) (r : Region) (ws : ι → Window) (m : Memory) :
    Reflects b r ws [] m m :=
  ⟨rfl, fun _ _ => rfl, fun _ => rfl, fun _ _ _ => rfl⟩

section

variable (hcut : ∀ i, CutFrom b (ws i)) (hok : ∀ i, (ws i).ok = true)

include hcut hok

omit [DecidableEq ι] in
theorem within_of_ok (i : ι) : (ws i).Within := by
  have h := hok i
  simp only [ok, Bool.and_eq_true] at h
  exact (hcut i).within h.1

variable (hdis : ∀ i j, i ≠ j → (ws i).Disjoint (ws j))

include hdis

theorem write_reflects {log : List (ι × Word)} {m n : Memory} (h : Reflects b r ws log m n)
    (hs : b.Spans r m) (j : ι) {value : Word} (hfit : value.toNat < 2 ^ (ws j).size.toNat) :
    ∃ n', (BitStorage.window (ws j)).write value n = .ok n' ∧
      Reflects b r ws (log ++ [(j, value)]) m n' := by
  have hmask := (Word.mask_eq_self_iff value _).2 hfit
  have hn : (ws j).block.Spans r n := by
    rw [(hcut j).block_eq]
    exact hs.of_length h.length
  refine ⟨(ws j).store value n, ?_, ?_, ?_, ?_, ?_⟩
  · simp [BitStorage.write, hok j, hmask]
  · rw [length_store hn, h.length]
  · intro a ha
    rw [get_store_of_outside hn value ha, h.outside a ha]
  · intro i
    rw [lastValue_append]
    by_cases hj : j = i
    · subst hj
      rw [load_store hn (within_of_ok hcut hok j), hmask, if_pos rfl, Option.getD_some]
    · have hb : (ws i).block = (ws j).block := by rw [(hcut i).block_eq, (hcut j).block_eq]
      rw [load_store_of_disjoint hn hb (within_of_ok hcut hok i) (hdis j i hj), h.window, if_neg hj]
  · intro k hk hc
    have hlt : k < (ws j).block.bits := by rwa [(hcut j).block_eq]
    have hj : ¬ (ws j).Covers k := hc (j, value) (by simp)
    have hstore := getLsbD_block_load_store hn value hlt
    rw [if_neg hj, (hcut j).block_eq] at hstore
    rw [hstore]
    exact h.rest k hk fun p hp => hc p (by simp [hp])

theorem writeAll_reflects {m : Memory} (hs : b.Spans r m) (log : List (ι × Word))
    (hfit : ∀ p ∈ log, p.2.toNat < 2 ^ (ws p.1).size.toNat) :
    ∃ n, writeAll ws log m = .ok n ∧ Reflects b r ws log m n := by
  induction log using List.reverseRecOn with
  | nil => exact ⟨m, rfl, reflects_nil b r ws m⟩
  | append_singleton log p ih =>
      obtain ⟨n, hn, hr⟩ := ih fun q hq => hfit q (by simp [hq])
      obtain ⟨n', hn', hr'⟩ := write_reflects hcut hok hdis hr hs p.1 (hfit p (by simp))
      refine ⟨n', ?_, hr'⟩
      rw [writeAll] at hn
      rw [writeAll, List.foldlM_append, hn]
      simp [bind, Except.bind, hn', pure, Except.pure]

end

theorem Reflects.unique {log log' : List (ι × Word)} {m n n' : Memory} (hs : b.Spans r m)
    (hcut : ∀ i, CutFrom b (ws i)) (h : Reflects b r ws log m n) (h' : Reflects b r ws log' m n')
    (hlast : ∀ i, lastValue log i = lastValue log' i) : n = n' := by
  have hn := hs.of_length h.length
  have hn' := hs.of_length h'.length
  have hbits : ∀ i k, (ws i).Covers k → (b.load n).getLsbD k = (b.load n').getLsbD k := by
    intro i k hc
    have he : (ws i).load n = (ws i).load n' := by rw [h.window, h'.window, hlast]
    have hk := congrArg (fun w => BitVec.getLsbD w (k - (ws i).offset.toNat)) he
    have hlt : k - (ws i).offset.toNat < (ws i).size.toNat := by
      have h1 := hc.1
      have h2 := hc.2
      omega
    simpa [getLsbD_load, hlt, Nat.add_sub_cancel' hc.1, (hcut i).block_eq] using hk
  have hload : b.load n = b.load n' := by
    rw [← Block.mask_load hn, ← Block.mask_load hn']
    apply BitVec.eq_of_getLsbD_eq
    intro k _
    rw [Word.getLsbD_mask, Word.getLsbD_mask]
    by_cases hk : k < b.bits
    · by_cases hc : ∃ p ∈ log, (ws p.1).Covers k
      · obtain ⟨p, _, hc⟩ := hc
        rw [hbits p.1 k hc]
      · have hnone : ∀ p ∈ log, ¬ (ws p.1).Covers k := fun p hp hcp => hc ⟨p, hp, hcp⟩
        by_cases hc' : ∃ p ∈ log', (ws p.1).Covers k
        · obtain ⟨p, _, hc'⟩ := hc'
          rw [hbits p.1 k hc']
        · have hnone' : ∀ p ∈ log', ¬ (ws p.1).Covers k := fun p hp hcp => hc' ⟨p, hp, hcp⟩
          rw [h.rest k hk hnone, h'.rest k hk hnone']
    · simp [hk]
  rw [Block.eq_store_load hs h.length h.outside, Block.eq_store_load hs h'.length h'.outside, hload]

/-- Sibling windows never disturb each other. Every run of writes that fit goes through; each window
then holds what was last written through it, bits outside the windows written to and bytes outside
the block are as before, and the order of writes through different windows does not matter. -/
theorem disjoint_windows_independent {m : Memory} (hb : b.ok = true) (hm : b.buffer.LiesIn m)
    (hcut : ∀ i, CutFrom b (ws i)) (hok : ∀ i, (ws i).ok = true)
    (hdis : ∀ i j, i ≠ j → (ws i).Disjoint (ws j)) (log : List (ι × Word))
    (hfit : ∀ p ∈ log, p.2.toNat < 2 ^ (ws p.1).size.toNat) :
    ∃ n, writeAll ws log m = .ok n ∧
      (∀ i, (BitStorage.window (ws i)).read n = match lastValue log i with
        | some value => .ok value
        | none => (BitStorage.window (ws i)).read m) ∧
      (∀ k, k < b.bits → (∀ p ∈ log, ¬ (ws p.1).Covers k) →
        (b.load n).getLsbD k = (b.load m).getLsbD k) ∧
      n.length = m.length ∧
      (∀ r, b.buffer.region = some r →
        ∀ a, a < r.start ∨ r.start + r.size ≤ a → n.get a = m.get a) ∧
      (∀ log', (∀ p ∈ log', p.2.toNat < 2 ^ (ws p.1).size.toNat) →
        (∀ i, lastValue log' i = lastValue log i) → writeAll ws log' m = .ok n) ∧
      (∀ i j, i ≠ j → ∀ v u : Word, v.toNat < 2 ^ (ws i).size.toNat →
        u.toNat < 2 ^ (ws j).size.toNat →
        writeAll ws [(i, v), (j, u)] m = writeAll ws [(j, u), (i, v)] m) := by
  obtain ⟨r, hs⟩ := Block.spans_of_ok hb hm
  have hrun := fun log hfit => writeAll_reflects hcut hok hdis hs log hfit
  obtain ⟨n, hn, hr⟩ := hrun log hfit
  refine ⟨n, hn, ?_, hr.rest, hr.length, ?_, ?_, ?_⟩
  · intro i
    simp only [BitStorage.read, hok i, if_true, hr.window]
    cases lastValue log i <;> rfl
  · intro r' hr'
    rw [hs.region] at hr'
    cases hr'
    exact hr.outside
  · intro log' hfit' hlast
    obtain ⟨n', hn', hr'⟩ := hrun log' hfit'
    rw [hn', hr'.unique hs hcut hr hlast]
  · intro i j hij v u hv hu
    obtain ⟨n₁, hn₁, hr₁⟩ := hrun [(i, v), (j, u)] (by simp [hv, hu])
    obtain ⟨n₂, hn₂, hr₂⟩ := hrun [(j, u), (i, v)] (by simp [hv, hu])
    have hlast : ∀ k, lastValue [(i, v), (j, u)] k = lastValue [(j, u), (i, v)] k := by
      intro k
      rw [show [(i, v), (j, u)] = [(i, v)] ++ [(j, u)] from rfl, lastValue_append,
        show [(j, u), (i, v)] = [(j, u)] ++ [(i, v)] from rfl, lastValue_append]
      by_cases hi : i = k <;> by_cases hj : j = k <;> simp_all [lastValue]
    rw [hn₁, hn₂, hr₁.unique hs hcut hr₂ hlast]

/-- Two windows, one of them cut from a larger one, in three bytes that start at an odd address. -/
theorem disjoint_windows_independent_in_three_bytes :
    let b : Block := ⟨{ order := .big, bits := 24 }, .ofRegion ⟨1, 3⟩⟩
    let ws : Bool → Window := fun i => if i then .ofBlock b 3 7 else (Window.ofBlock b 10 12).part 2 5
    let log : List (Bool × Word) := [(true, 100), (false, 17), (true, 9)]
    ∃ n, writeAll ws log [1, 2, 3, 4, 5] = .ok n ∧
      (BitStorage.window (ws true)).read n = .ok 9 ∧
      (BitStorage.window (ws false)).read n = .ok 17 ∧ n.get 0 = 1 ∧ n.get 4 = 5 := by
  intro b ws log
  have hcut : ∀ i, CutFrom b (ws i) := by
    rintro (_ | _)
    · exact .part (.ofBlock 10 12) 2 5
    · exact .ofBlock 3 7
  have hdis : ∀ i j, i ≠ j → (ws i).Disjoint (ws j) := by
    have ht : ∀ k, (ws true).Covers k ↔ 3 ≤ k ∧ k < 10 := fun k => Iff.rfl
    have hf : ∀ k, (ws false).Covers k ↔ 12 ≤ k ∧ k < 17 := fun k => Iff.rfl
    rintro (_ | _) (_ | _) hij k
    · exact absurd rfl hij
    · rw [ht, hf]; omega
    · rw [ht, hf]; omega
    · exact absurd rfl hij
  have hlies : b.buffer.LiesIn [1, 2, 3, 4, 5] := by
    rintro r ⟨⟩
    decide
  have hfit : ∀ p ∈ log, p.2.toNat < 2 ^ (ws p.1).size.toNat := by
    intro p hp
    simp only [log, List.mem_cons, List.not_mem_nil, or_false] at hp
    obtain rfl | rfl | rfl := hp <;> decide
  obtain ⟨n, hn, hread, -, -, hout, -⟩ := disjoint_windows_independent (by decide) hlies hcut
    (by decide) hdis log hfit
  exact ⟨n, hn, hread true, hread false, hout _ rfl 0 (by decide), hout _ rfl 4 (by decide)⟩

end Window

structure CopiedBelow (b c : Block) (s : Region) (m n : Memory) (j : Nat) (n' : Memory) :
    Prop where
  length : n'.length = n.length
  outside : ∀ a, a < s.start ∨ s.start + s.size ≤ a → n'.get a = n.get a
  bits : ∀ i, i < j → (c.load n').getLsbD i = (b.load m).getLsbD i

section

variable {b c : Block} {r s : Region} {m n n' : Memory} {j w : Nat}

theorem CopiedBelow.start (b c : Block) (s : Region) (m n : Memory) : CopiedBelow b c s m n 0 n :=
  ⟨rfl, fun _ _ => rfl, fun i hi => absurd hi (Nat.not_lt_zero i)⟩

theorem CopiedBelow.window (h : CopiedBelow b c s m n j n') (hs : c.Spans s n)
    (hb : j + w ≤ b.bits) (hc : j + w ≤ c.bits) :
    CopiedBelow b c s m n (j + w)
      ((Window.ofBlock c j w).store (((Window.ofBlock b j w).load m).mask w) n') := by
  have hs' : (Window.ofBlock c j w).block.Spans s n' := hs.of_length h.length
  refine ⟨?_, fun a ha => ?_, fun i hi => ?_⟩
  · rw [Window.length_store hs', h.length]
  · rw [Window.get_store_of_outside hs' _ ha, h.outside a ha]
  · obtain ⟨hco, hcs, -⟩ := Window.exact_ofBlock hc
    obtain ⟨hbo, hbs, -⟩ := Window.exact_ofBlock hb
    have hblock : (Window.ofBlock c j w).block = c := rfl
    have hget := Window.getLsbD_block_load_store hs'
      (((Window.ofBlock b j w).load m).mask w) (k := i) (by rw [hblock]; omega)
    rw [hblock] at hget
    rw [hget, hco]
    split
    · rename_i hcov
      simp only [Window.Covers, hco, hcs] at hcov
      rw [Word.getLsbD_mask, Window.getLsbD_load, hbo, hbs, Nat.add_sub_cancel' hcov.1]
      have hlt : i - j < w := by omega
      simp only [hlt, decide_true, Bool.true_and]
      rfl
    · rename_i hcov
      simp only [Window.Covers, hco, hcs] at hcov
      exact h.bits i (by omega)

theorem CopiedBelow.eq_write (h : CopiedBelow b c s m n c.bits n') (hr : b.Spans r m)
    (hs : c.Spans s n) (hformat : c.format = b.format) : n' = n.write s.start (m.read r) := by
  have hcb : c.bits = b.bits := congrArg BlockFormat.bits hformat
  have hload : c.load n' = b.load m := by
    rw [← Block.mask_load (hs.of_length h.length), ← Block.mask_load hr, hcb]
    apply BitVec.eq_of_getLsbD_eq
    intro i _
    rw [Word.getLsbD_mask, Word.getLsbD_mask]
    by_cases hi : i < b.bits
    · rw [h.bits i (by omega)]
    · simp [hi]
  rw [Block.eq_store_load hs h.length h.outside, hload]
  exact Block.store_load_eq_write hr hs hformat

end

end Packed
