import Packed.Proofs.Action
import Packed.Proofs.Footprint

namespace Packed

theorem Action.forM_congr {ε α : Type} {f g : α → Action ε Unit} {l : List α}
    (h : ∀ a ∈ l, f a = g a) : l.forM f = l.forM g := by
  induction l with
  | nil => rfl
  | cons a l ih =>
      obtain ⟨ha, hl⟩ := List.forall_mem_cons.1 h
      simp only [List.forM_eq_forM, List.forM_cons] at ih ⊢
      rw [ha, ih hl]

theorem exists_split_of_not_pairwise {α : Type} {R : α → α → Prop} {l : List α}
    (h : ¬ l.Pairwise R) : ∃ l₁ a l₂ b, l = l₁ ++ a :: l₂ ∧ b ∈ l₂ ∧ ¬ R a b := by
  induction l with
  | nil => exact absurd .nil h
  | cons a l ih =>
      rw [List.pairwise_cons, not_and_or] at h
      obtain h | h := h
      · push Not at h
        obtain ⟨b, hb, hab⟩ := h
        exact ⟨[], a, l, b, rfl, hb, hab⟩
      · obtain ⟨l₁, c, l₂, b, rfl, hb, hcb⟩ := ih h
        exact ⟨a :: l₁, c, l₂, b, rfl, hb, hcb⟩

structure Transfer where
  kind : Kind
  target : Field kind
  source : Field kind

namespace Transfer

def perform (t : Transfer) : Action Error Unit := fun m =>
  match t.target.tryCopy t.source m with
  | .ok m => .ok () m
  | .error e => .error e m

def run (ts : List Transfer) : Action Error Unit := ts.forM perform

def uncheckedRun (ts : List Transfer) (m : Memory) : Memory :=
  ts.foldl (fun m t => t.target.uncheckedCopy t.source m) m

structure Placed (t : Transfer) (m : Memory) : Prop where
  target : ∃ r, t.target.storage.Spans r m
  source : ∃ r, t.source.storage.Spans r m

def Keeps (t u : Transfer) : Prop := t.target.storage.Disjoint u.target.storage

def Spares (t u : Transfer) : Prop := t.target.storage.Disjoint u.source.storage

variable {Q : Transfer → Word → Word → Prop} {t : Transfer} {ts : List Transfer} {m n : Memory}

theorem Placed.of_length (h : t.Placed m) (hl : n.length = m.length) : t.Placed n :=
  ⟨h.target.imp fun _ hs => hs.of_length hl, h.source.imp fun _ hs => hs.of_length hl⟩

def Steps (Q : Transfer → Word → Word → Prop) : List Transfer → Memory → Memory → Prop
  | [], m, n => n = m
  | t :: ts, m, n =>
      ∃ w, Q t (t.source.storage.load m) w ∧ Steps Q ts (t.target.storage.store w m) n

/-- What a run leaves: in each target a word that `Q` allows for what its source held before the
run, and all other bits of memory as they were. -/
structure Carried (Q : Transfer → Word → Word → Prop) (ts : List Transfer) (m n : Memory) :
    Prop where
  length : n.length = m.length
  target : ∀ t ∈ ts, ∃ w, Q t (t.source.storage.load m) w ∧
    t.target.storage.load n = w.mask t.target.storage.size
  outside : ∀ p, (∀ t ∈ ts, ∀ k, k < t.target.storage.size → t.target.storage.place k ≠ p) →
    n.bit p = m.bit p

theorem run_cons (t : Transfer) (ts : List Transfer) :
    run (t :: ts) = t.perform >>= fun _ => run ts := List.forM_cons

theorem run_append (ts us : List Transfer) : run (ts ++ us) = run ts >>= fun _ => run us :=
  List.forM_append

theorem run_singleton (t : Transfer) : run [t] = t.perform := by
  rw [run, List.forM_eq_forM, List.forM_cons, List.forM_nil]
  exact bind_pure t.perform

theorem run_flatMap {α : Type} (f : α → List Transfer) (l : List α) :
    run (l.flatMap f) = l.forM fun a => run (f a) := by
  induction l with
  | nil => rfl
  | cons a l ih =>
      simp only [run, List.forM_eq_forM, List.flatMap_cons, List.forM_append,
        List.forM_cons] at ih ⊢
      rw [ih]

theorem Steps.carried (h : Steps Q ts m n) (hp : ∀ t ∈ ts, t.Placed m) (hk : ts.Pairwise Keeps)
    (hs : ts.Pairwise Spares) : Carried Q ts m n := by
  induction ts generalizing m with
  | nil =>
      cases h
      exact ⟨rfl, by simp, fun _ _ => rfl⟩
  | cons t ts ih =>
      obtain ⟨w, hq, hrest⟩ := h
      obtain ⟨hkt, hk⟩ := List.pairwise_cons.1 hk
      obtain ⟨hst, hs⟩ := List.pairwise_cons.1 hs
      obtain ⟨r, hr⟩ := (hp t (by simp)).target
      have hl := BitStorage.length_store hr w
      have hc := ih hrest (fun u hu => (hp u (by simp [hu])).of_length hl) hk hs
      refine ⟨hc.length.trans hl, ?_, ?_⟩
      · intro u hu
        obtain rfl | hu := List.mem_cons.1 hu
        · -- What the first transfer stores stays, as no later one writes there.
          refine ⟨w, hq, ?_⟩
          rw [BitStorage.load_congr (hr.of_length hl) hc.length, BitStorage.load_store hr]
          intro k hk
          exact hc.outside _ fun v hv l hl he => hkt v hv k l hk hl he.symm
        · -- A later transfer reads what was there at the start, as the first writes elsewhere.
          obtain ⟨q, hq⟩ := (hp u (by simp [hu])).source
          obtain ⟨x, hx, hload⟩ := hc.target u hu
          rw [BitStorage.load_store_of_disjoint hr hq (hst u hu)] at hx
          exact ⟨x, hx, hload⟩
      · intro p hpl
        rw [hc.outside p fun u hu => hpl u (by simp [hu])]
        exact BitStorage.bit_store_of_ne hr w (hpl t (by simp))

structure Checked (t : Transfer) (raw w : Word) : Prop where
  source_complete : t.source.isComplete = true
  wellFormed : t.kind.wellFormed t.source.width raw = true
  allowed : t.source.check (t.kind.decode t.source.width raw) = true
  taken : t.target.couldWrite (t.kind.decode t.source.width raw) = true
  target_complete : t.target.isComplete = true
  word : w = t.kind.encode t.target.width (t.kind.decode t.source.width raw)

theorem perform_eq_ok_iff : t.perform m = .ok () n ↔
    ∃ w, Checked t (t.source.storage.load m) w ∧ n = t.target.storage.store w m := by
  have hp : t.perform m = .ok () n ↔ t.target.tryCopy t.source m = .ok n := by
    rw [perform]
    cases t.target.tryCopy t.source m <;> simp
  rw [hp, Field.tryCopy_eq_ok_iff, Field.ok_iff]
  constructor
  · rintro ⟨⟨hc, hwf, hch⟩, hcw, htc, rfl⟩
    exact ⟨_, ⟨hc, hwf, hch, hcw, htc, rfl⟩, rfl⟩
  · rintro ⟨w, ⟨hc, hwf, hch, hcw, htc, rfl⟩, rfl⟩
    exact ⟨⟨hc, hwf, hch⟩, hcw, htc, rfl⟩

theorem run_eq_ok_iff : run ts m = .ok () n ↔ Steps Checked ts m n := by
  induction ts generalizing m with
  | nil => simp [run, Steps, pure, EStateM.pure, eq_comm]
  | cons t ts ih =>
      rw [run_cons, bind_eq_ok_iff]
      constructor
      · rintro ⟨⟨⟩, m', hp, hr⟩
        obtain ⟨w, hw, rfl⟩ := perform_eq_ok_iff.1 hp
        exact ⟨w, hw, ih.1 hr⟩
      · rintro ⟨w, hw, hs⟩
        exact ⟨(), _, perform_eq_ok_iff.2 ⟨w, hw, rfl⟩, ih.2 hs⟩

def Raw (t : Transfer) (raw w : Word) : Prop :=
  w = t.kind.recode t.target.width t.source.width raw

theorem uncheckedRun_steps (ts : List Transfer) (m : Memory) :
    Steps Raw ts m (uncheckedRun ts m) := by
  induction ts generalizing m with
  | nil => rfl
  | cons t ts ih => exact ⟨_, rfl, ih _⟩

theorem Carried.read (h : Carried Checked ts m n) (ht : t ∈ ts) (hk : t.kind.Hosted) :
    ∃ v, t.source.read m = .ok v ∧ t.target.read n = .ok v := by
  obtain ⟨w, ⟨hsc, hwf, hch, hcw, htc, rfl⟩, hl⟩ := h.target t ht
  have hread := Field.read_of_load hk (Kind.exact_decode ..) htc hcw hl
  exact ⟨_, Field.read_eq (Field.ok_iff.2 ⟨hsc, hwf, hch⟩), hread.2⟩

theorem Carried.uncheckedRead (h : Carried Raw ts m n) (ht : t ∈ ts) (hk : t.kind.Hosted)
    (hw : t.target.width = t.source.width)
    (hz : (t.source.storage.load m).mask t.target.storage.size = t.source.storage.load m) :
    t.target.uncheckedRead n = t.source.uncheckedRead m := by
  obtain ⟨w, rfl, hl⟩ := h.target t ht
  rw [Field.uncheckedRead, Field.uncheckedRead, hl, hw]
  exact Kind.decode_recode t.source.admits hk hz

structure Plain (t : Transfer) : Prop where
  target : t.target.Plain
  source : t.source.Plain

theorem Plain.perform_blank (h : t.Plain) (hp : t.Placed m)
    (hb : ∀ k, k < t.source.storage.size → m.bit (t.source.storage.place k) = false) :
    t.perform m = .ok () (t.target.storage.store 0 m) := by
  obtain ⟨q, hq⟩ := hp.source
  have h0 := BitStorage.load_eq_zero hq hb
  obtain ⟨hfit, henc⟩ := h.source.whole.fits_zero t.target.admits t.source.admits
  refine perform_eq_ok_iff.2 ⟨0, ?_, rfl⟩
  rw [h0]
  exact ⟨h.source.complete, h.source.whole.wellFormed _ _, h.source.unchecked _,
    by rw [Field.couldWrite, hfit, h.target.unchecked]; rfl, h.target.complete, henc.symm⟩

theorem Plain.perform_eq (h : t.Plain) (hw : t.target.width = t.source.width) (m : Memory) :
    t.perform m = .ok () (t.target.uncheckedCopy t.source m) := by
  have hk := h.source.whole
  have hfit := Kind.fits_decode t.source.admits hk.hosted
    (hk.wellFormed t.source.width (t.source.storage.load m))
  refine perform_eq_ok_iff.2 ⟨_, ⟨h.source.complete, hk.wellFormed _ _, h.source.unchecked _, ?_,
    h.target.complete, rfl⟩, ?_⟩
  · rw [Field.couldWrite, hw, hfit, h.target.unchecked]
    rfl
  · rw [Field.uncheckedCopy]
    obtain ⟨kind, target, source⟩ := t
    obtain rfl | rfl := hk <;> rfl

theorem run_plain (hp : ∀ t ∈ ts, t.Plain) (hw : ∀ t ∈ ts, t.target.width = t.source.width)
    (m : Memory) : run ts m = .ok () (uncheckedRun ts m) := by
  induction ts generalizing m with
  | nil => rfl
  | cons t ts ih =>
      obtain ⟨hpt, hp⟩ := List.forall_mem_cons.1 hp
      obtain ⟨hwt, hw⟩ := List.forall_mem_cons.1 hw
      rw [run_cons, bind_eq_ok_iff]
      exact ⟨(), _, hpt.perform_eq hwt m, ih hp hw _⟩

theorem Carried.load (h : Carried Raw ts m n) (ht : t ∈ ts) (hp : t.Plain)
    (hw : t.target.width = t.source.width) (hm : t.Placed m) :
    t.target.storage.load n = t.source.storage.load m := by
  obtain ⟨w, rfl, hl⟩ := h.target t ht
  obtain ⟨q, hq⟩ := hm.source
  have hk := hp.source.whole
  have henc := Kind.encode_decode t.source.admits (hk.holdsWidth t.source.width)
    (hk.wellFormed _ (t.source.storage.load m))
  have hrecode : t.kind.recode t.target.width t.source.width (t.source.storage.load m) =
      t.kind.encode t.source.width (t.kind.decode t.source.width (t.source.storage.load m)) := by
    rw [hw]
    obtain ⟨kind, target, source⟩ := t
    obtain rfl | rfl := hk <;> rfl
  rw [hl, hrecode, henc, Word.mask_mask, ← hp.target.width, hw, Nat.min_self, hp.source.width,
    BitStorage.mask_load hq]

/-- A run that reads nothing but zeros succeeds. It leaves zeros in its targets and sets no bit. -/
theorem run_blank (hp : ∀ t ∈ ts, t.Plain) (hm : ∀ t ∈ ts, t.Placed m)
    (hb : ∀ t ∈ ts, ∀ k, k < t.source.storage.size → m.bit (t.source.storage.place k) = false) :
    ∃ n, run ts m = .ok () n ∧ n.length = m.length ∧ (∀ p, m.bit p = false → n.bit p = false) ∧
      ∀ t ∈ ts, ∀ k, k < t.target.storage.size → n.bit (t.target.storage.place k) = false := by
  induction ts generalizing m with
  | nil => exact ⟨m, rfl, rfl, fun _ h => h, by simp⟩
  | cons t ts ih =>
      obtain ⟨hpt, hp⟩ := List.forall_mem_cons.1 hp
      obtain ⟨hmt, hm⟩ := List.forall_mem_cons.1 hm
      obtain ⟨hbt, hb⟩ := List.forall_mem_cons.1 hb
      obtain ⟨r, hr⟩ := hmt.target
      have hl := BitStorage.length_store hr 0
      have hzero : ∀ k, k < t.target.storage.size →
          (t.target.storage.store 0 m).bit (t.target.storage.place k) = false := by
        intro k hk
        rw [BitStorage.bit_store hr 0 hk]
        exact BitVec.getLsbD_zero
      have hkeep : ∀ p, m.bit p = false → (t.target.storage.store 0 m).bit p = false := by
        intro p hp
        by_cases h : ∃ k, k < t.target.storage.size ∧ t.target.storage.place k = p
        · obtain ⟨k, hk, rfl⟩ := h
          exact hzero k hk
        · push Not at h
          rwa [BitStorage.bit_store_of_ne hr 0 h]
      obtain ⟨n, hn, hln, hkn, hzn⟩ := ih hp (fun u hu => (hm u hu).of_length hl)
        fun u hu k hk => hkeep _ (hb u hu k hk)
      refine ⟨n, ?_, hln.trans hl, fun p hp => hkn p (hkeep p hp), List.forall_mem_cons.2
        ⟨fun k hk => hkn _ (hzero k hk), hzn⟩⟩
      rw [run_cons, bind_eq_ok_iff]
      exact ⟨(), _, hpt.perform_blank hmt hbt, hn⟩

/-- A run that writes where it has yet to read goes wrong from some memory, if no two of its
sources share a bit: where the only bit set is one that is overwritten before it is read, it is
lost. -/
theorem exists_overwritten (hp : ∀ t ∈ ts, t.Plain) (hm : ∀ t ∈ ts, t.Placed m)
    (ha : ts.Pairwise fun t u => t.source.storage.Disjoint u.source.storage)
    (hs : ¬ ts.Pairwise Spares) :
    ∃ m' n, m'.length = m.length ∧ run ts m' = .ok () n ∧
      ∃ t ∈ ts, ¬ ∃ v, t.source.read m' = .ok v ∧ t.target.read n = .ok v := by
  obtain ⟨before, t, after, u, rfl, hu, htu⟩ := exists_split_of_not_pairwise hs
  simp only [Spares, BitStorage.Disjoint] at htu
  push Not at htu
  obtain ⟨k, l, hk, hl, hkl⟩ := htu
  rw [List.append_cons] at hp hm ha ⊢
  obtain ⟨-, -, hab⟩ := List.pairwise_append.1 ha
  obtain ⟨hpb, hpa⟩ := List.forall_mem_append.1 hp
  obtain ⟨hmb, hma⟩ := List.forall_mem_append.1 hm
  obtain ⟨q, hq⟩ := (hma u hu).source
  have hbit : ∀ p, (Memory.single m.length (u.source.storage.place l)).bit p =
      decide (p = u.source.storage.place l) := Memory.bit_single (BitStorage.place_lt hq hl)
  have hlen := Memory.length_single m.length (u.source.storage.place l)
  -- Up to the transfer that overwrites the bit no source has it, and then it is gone.
  obtain ⟨m₁, hrun₁, hlen₁, hkeep₁, hzero₁⟩ := run_blank hpb
    (fun x hx => (hmb x hx).of_length hlen) fun x hx i hi =>
      (hbit _).trans (decide_eq_false (hab x hx u hu i l hi hl))
  have hblank : ∀ p, m₁.bit p = false := by
    intro p
    by_cases h : p = u.source.storage.place l
    · rw [h, ← hkl]
      exact hzero₁ t (by simp) k hk
    · exact hkeep₁ p ((hbit p).trans (decide_eq_false h))
  obtain ⟨n, hrun, hlenn, hkeep, -⟩ := run_blank hpa
    (fun x hx => (hma x hx).of_length (hlen₁.trans hlen)) fun _ _ _ _ => hblank _
  refine ⟨_, n, hlen, ?_, u, by simp [hu], ?_⟩
  · rw [run_append, bind_eq_ok_iff]
    exact ⟨(), m₁, hrun₁, hrun⟩
  · rintro ⟨v, hsource, htarget⟩
    obtain ⟨r, hr⟩ := (hma u hu).target
    have hload := BitStorage.load_eq_zero (hr.of_length (hlenn.trans (hlen₁.trans hlen)))
      fun k _ => hkeep _ (hblank _)
    rw [Field.read_eq ((hpa u hu).source.ok _), Except.ok.injEq] at hsource
    rw [Field.read_eq ((hpa u hu).target.ok _), Except.ok.injEq, Field.uncheckedRead, hload]
      at htarget
    have hw := (hpa u hu).source.whole
    have hraw := Kind.encode_decode u.source.admits (hw.holdsWidth _) (hw.wellFormed _
      (u.source.storage.load (Memory.single m.length (u.source.storage.place l))))
    rw [show u.kind.decode _ _ = v from hsource, ← htarget,
      (hw.fits_zero u.source.admits u.target.admits).2] at hraw
    have hset := congrArg (fun w : Word => w.getLsbD l) hraw
    simp [hl, (hpa u hu).source.width, BitStorage.getLsbD_load (hq.of_length hlen) hl, hbit]
      at hset

end Transfer

end Packed
