import Packed.Field
import Packed.Proofs.Encoding
import Packed.Proofs.Window

namespace Packed

namespace BitStorage

variable {s : BitStorage} {r : Region} {m : Memory}

def Sound : BitStorage → Prop
  | block _ => True
  | window w => w.valid = true → w.Within

def Within : BitStorage → Prop
  | block _ => True
  | window w => w.Within

/-- The storage lies in a block that is exactly the region, all of which memory holds. -/
structure Spans (s : BitStorage) (r : Region) (m : Memory) : Prop where
  base : s.base.Spans r m
  within : s.Within

theorem sound_part (s : BitStorage) (offset size : Nat) :
    (BitStorage.window (s.part offset size)).Sound := by
  intro hv
  cases s with
  | block b => exact Window.within_ofBlock hv
  | window w =>
      simp only [part, Window.part, Bool.and_eq_true] at hv
      exact Window.within_ofBlock hv.1.1

theorem sound_of_cutFrom {b : Block} {w : Window} (h : Window.CutFrom b w) :
    (BitStorage.window w).Sound :=
  h.within

theorem spans_of_ok (h : s.ok = true) (hs : s.Sound) (hm : s.base.buffer.LiesIn m) :
    ∃ r, s.Spans r m := by
  cases s with
  | block b =>
      obtain ⟨r, hr⟩ := Block.spans_of_ok h hm
      exact ⟨r, hr, trivial⟩
  | window w =>
      simp only [ok, Window.ok, Bool.and_eq_true] at h
      obtain ⟨r, hr⟩ := Block.spans_of_ok h.2 hm
      exact ⟨r, hr, hs h.1⟩

theorem Spans.of_length {n : Memory} (h : s.Spans r m) (hl : n.length = m.length) : s.Spans r n :=
  ⟨h.base.of_length hl, h.within⟩

theorem length_store (h : s.Spans r m) (v : Word) : (s.store v m).length = m.length := by
  cases s with
  | block b => exact Block.length_store h.base v
  | window w => exact Window.length_store h.base v

theorem get_store_of_outside (h : s.Spans r m) (v : Word) {a : Nat}
    (ha : a < r.start ∨ r.start + r.size ≤ a) : (s.store v m).get a = m.get a := by
  cases s with
  | block b => exact Block.get_store_of_outside h.base v ha
  | window w => exact Window.get_store_of_outside h.base v ha

theorem load_store (h : s.Spans r m) (v : Word) : s.load (s.store v m) = v.mask s.size := by
  cases s with
  | block b => exact Block.load_store h.base v
  | window w => exact Window.load_store h.base h.within v

theorem store_load (h : s.Spans r m) : s.store (s.load m) m = m := by
  cases s with
  | block b => exact Block.store_load h.base
  | window w => exact Window.store_load h.base

theorem mask_load (h : s.Spans r m) : (s.load m).mask s.size = s.load m := by
  rw [← load_store h, store_load h]

end BitStorage

namespace Field

variable {k : Kind} {f g : Field k} {r : Region} {m n : Memory}

theorem ok_iff : f.ok m = true ↔ f.isComplete = true ∧
    k.wellFormed f.width (f.storage.load m) = true ∧ f.check (f.uncheckedRead m) = true := by
  simp only [ok, Bool.and_eq_true, and_assoc]

theorem width_le (h : f.isComplete = true) : f.width ≤ f.storage.size := by
  simp only [isComplete, Bool.and_eq_true, decide_eq_true_eq] at h
  exact h.2

theorem storage_ok (h : f.isComplete = true) : f.storage.ok = true := by
  simp only [isComplete, Bool.and_eq_true] at h
  exact h.1

theorem read_eq (h : f.ok m = true) : f.read m = .ok (f.uncheckedRead m) := by
  simp [read, h]

theorem read_eq_ok_iff {v : k.Value} :
    f.read m = .ok v ↔ f.ok m = true ∧ f.uncheckedRead m = v := by
  rw [read]
  cases f.ok m <;> simp

theorem tryWrite_eq (f : Field k) (v : k.Value) (m : Memory) : f.tryWrite v m =
    if !f.couldWrite v then .error .notRepresentable
    else if !f.isComplete then .error .incomplete
    else .ok (f.uncheckedWrite v m) := by
  rw [tryWrite]
  cases hw : f.couldWrite v with
  | false => rfl
  | true =>
      obtain ⟨hfit, -⟩ := Bool.and_eq_true_iff.1 hw
      rw [Kind.pattern_eq_encode f.admits hfit]
      rfl

theorem tryWrite_eq_ok_iff {v : k.Value} : f.tryWrite v m = .ok n ↔
    f.couldWrite v = true ∧ f.isComplete = true ∧ n = f.uncheckedWrite v m := by
  rw [tryWrite_eq]
  cases f.couldWrite v <;> cases f.isComplete <;> simp [eq_comm]

theorem tryWrite_eq_error {v : k.Value} {e : Error} (h : f.tryWrite v m = .error e) :
    e = .notRepresentable ∨ e = .incomplete := by
  rw [tryWrite] at h
  split at h
  · exact .inl (Except.error.inj h).symm
  · split at h
    · exact .inr (Except.error.inj h).symm
    · cases h

theorem tryCopy_eq_ok_iff : f.tryCopy g m = .ok n ↔
    g.ok m = true ∧ f.couldWrite (g.uncheckedRead m) = true ∧ f.isComplete = true ∧
      n = f.uncheckedWrite (g.uncheckedRead m) m := by
  rw [tryCopy]
  cases g.ok m <;> simp [tryWrite_eq_ok_iff]

theorem ok_of_spans {f : Field .unsigned} {b : Block} (hb : f.storage = .block b)
    (hw : f.width = b.bits) (hc : ∀ v, f.check v = true) (hr : b.Spans r m) : f.ok m = true := by
  simp [ok, isComplete, hb, BitStorage.ok, BitStorage.size, hr.ok, hw, hc, Kind.wellFormed]

theorem tryWrite_uncheckedRead (hk : k.HoldsWidth f.width) (h : f.ok m = true)
    (hw : g.width = f.width) (hv : g.check (f.uncheckedRead m) = true)
    (hc : g.isComplete = true) (n : Memory) :
    g.tryWrite (f.uncheckedRead m) n =
      .ok (g.storage.store ((f.storage.load m).mask f.width) n) := by
  obtain ⟨-, hwf, -⟩ := ok_iff.1 h
  have hfit := Kind.fits_decode f.admits (hk.hosted f.admits) hwf
  have henc := Kind.encode_decode f.admits hk hwf
  simp only [tryWrite_eq, couldWrite, uncheckedWrite, hw, hc, hv]
  rw [uncheckedRead, hfit, henc]
  rfl

theorem ok_congr (hl : (f.storage.load n).mask f.width = (f.storage.load m).mask f.width) :
    f.ok n = f.ok m ∧ f.uncheckedRead n = f.uncheckedRead m := by
  have hr : f.uncheckedRead n = f.uncheckedRead m := by
    rw [uncheckedRead, uncheckedRead, ← Kind.decode_mask f.admits, hl, Kind.decode_mask f.admits]
  refine ⟨?_, hr⟩
  rw [ok, ok, hr, ← Kind.wellFormed_mask, hl, Kind.wellFormed_mask]

theorem read_congr (hl : (f.storage.load n).mask f.width = (f.storage.load m).mask f.width) :
    f.read n = f.read m := by
  obtain ⟨hok, hr⟩ := ok_congr hl
  rw [read, read, hok, hr]

theorem load_store_self (hs : f.storage.Spans r n) (hc : f.isComplete = true) (raw : Word) :
    (f.storage.load (f.storage.store (raw.mask f.width) n)).mask f.width = raw.mask f.width := by
  rw [BitStorage.load_store hs, Word.mask_mask, Word.mask_mask]
  congr 1
  have hw := width_le hc
  omega

theorem store_self (hs : f.storage.Spans r m) (hw : f.width = f.storage.size) :
    f.storage.store ((f.storage.load m).mask f.width) m = m := by
  rw [hw, BitStorage.mask_load hs, BitStorage.store_load hs]

/-- A whole number that fills its storage, with no check on it. -/
structure Plain (f : Field k) : Prop where
  whole : k.Whole
  complete : f.isComplete = true
  width : f.width = f.storage.size
  unchecked : ∀ v, f.check v = true

theorem Plain.ok (h : f.Plain) (m : Memory) : f.ok m = true :=
  ok_iff.2 ⟨h.complete, h.whole.wellFormed _ _, h.unchecked _⟩

theorem read_of_load (hk : k.Hosted) {v : k.Value} (hv : k.Exact v) (hc : f.isComplete = true)
    (hw : f.couldWrite v = true)
    (hl : f.storage.load n = (k.encode f.width v).mask f.storage.size) :
    f.ok n = true ∧ f.read n = .ok v := by
  simp only [couldWrite, Bool.and_eq_true] at hw
  obtain ⟨hwf, hd⟩ := Kind.decode_encode f.admits hk hv hw.1
  have hm : (f.storage.load n).mask f.width = (k.encode f.width v).mask f.width := by
    rw [hl, Word.mask_mask, Nat.min_eq_right (width_le hc)]
  have hr : f.uncheckedRead n = v := by
    rw [uncheckedRead, ← Kind.decode_mask f.admits, hm, Kind.decode_mask f.admits, hd]
  have hok : f.ok n = true := by
    rw [ok_iff, hr, ← Kind.wellFormed_mask, hm, Kind.wellFormed_mask]
    exact ⟨hc, hwf, hw.2⟩
  exact ⟨hok, by rw [read_eq hok, hr]⟩

end Field

end Packed
