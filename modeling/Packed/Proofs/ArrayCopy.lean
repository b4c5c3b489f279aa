import Packed.Array.Basic
import Packed.Proofs.Transfer

namespace Packed

theorem Except.mapM_cons_eq_ok_iff {ε α β : Type} {f : α → Except ε β} {a : α} {l : List α}
    {bs : List β} : (a :: l).mapM f = .ok bs ↔
      ∃ b cs, f a = .ok b ∧ l.mapM f = .ok cs ∧ bs = b :: cs := by
  rw [List.mapM_cons]
  cases f a with
  | error e => simp [bind, Except.bind]
  | ok b => cases l.mapM f <;> simp [bind, Except.bind, pure, Except.pure, eq_comm]

theorem Except.exists_mapM_iff {ε α β : Type} {f g : α → Except ε β} {l : List α} :
    (∃ bs, l.mapM f = .ok bs ∧ l.mapM g = .ok bs) ↔
      ∀ a ∈ l, ∃ b, f a = .ok b ∧ g a = .ok b := by
  induction l with
  | nil => simp [pure, Except.pure]
  | cons a l ih =>
      rw [List.forall_mem_cons]
      constructor
      · rintro ⟨bs, hf, hg⟩
        obtain ⟨b, cs, hfb, hfc, rfl⟩ := mapM_cons_eq_ok_iff.1 hf
        obtain ⟨_, _, hgb, hgc, he⟩ := mapM_cons_eq_ok_iff.1 hg
        cases he
        exact ⟨⟨b, hfb, hgb⟩, ih.1 ⟨cs, hfc, hgc⟩⟩
      · rintro ⟨⟨b, hfb, hgb⟩, hl⟩
        obtain ⟨cs, hfc, hgc⟩ := ih.2 hl
        exact ⟨b :: cs, mapM_cons_eq_ok_iff.2 ⟨b, cs, hfb, hfc, rfl⟩,
          mapM_cons_eq_ok_iff.2 ⟨b, cs, hgb, hgc, rfl⟩⟩

theorem Except.exists_map_iff {ε α β : Type} {f : α → β} (hf : Function.Injective f)
    {x y : Except ε α} :
    (∃ b, x.map f = .ok b ∧ y.map f = .ok b) ↔ ∃ a, x = .ok a ∧ y = .ok a := by
  cases x <;> cases y <;> simp [Except.map, hf.eq_iff]

namespace ScalarType

variable {S T : Type} (t : ScalarType S) (u : ScalarType T) (h : u.kind = t.kind) (s : S) (s' : T)

def transfer : Transfer :=
  ⟨t.kind, t.field s, ⟨u.width, h ▸ u.admits, fun v => u.check (h ▸ v), u.bits s'⟩⟩

theorem pair?_field :
    (t.field s).pair? (u.field s') = some (t.field s, (t.transfer u h s s').source) := by
  obtain ⟨kind, width, admits, check, bits⟩ := u
  cases h
  exact dif_pos rfl

theorem read_source (m : Memory) : ((u.field s').read m).map (Datum.scalar u.kind) =
    ((t.transfer u h s s').source.read m).map (Datum.scalar t.kind) := by
  obtain ⟨kind, width, admits, check, bits⟩ := u
  cases h
  rfl

theorem uncheckedRead_source (m : Memory) : Datum.scalar u.kind ((u.field s').uncheckedRead m) =
    .scalar t.kind ((t.transfer u h s s').source.uncheckedRead m) := by
  obtain ⟨kind, width, admits, check, bits⟩ := u
  cases h
  rfl

theorem plain_source (hp : (u.field s').Plain) : (t.transfer u h s s').source.Plain := by
  obtain ⟨kind, width, admits, check, bits⟩ := u
  cases h
  exact hp

end ScalarType

section

variable {S T : Type} [Tiled S] [Tiled T] {s : S} {s' : T} {count : Nat}

theorem mem_copyOrder {i : Nat} : i ∈ copyOrder s s' count ↔ i < count := by
  rw [copyOrder]
  split <;> simp

theorem ne_of_before {i j : Nat} (h : if runsBackward s s' then j < i else i < j) : i ≠ j := by
  split at h <;> omega

theorem pairwise_range_iff {R : Nat → Nat → Prop} :
    (List.range count).Pairwise R ↔ ∀ i j, i < j → j < count → R i j := by
  rw [List.pairwise_iff_getElem]
  simp only [List.length_range, List.getElem_range]
  exact ⟨fun h i j hij hj => h i j (by omega) hj hij, fun h i j _ hj hij => h i j hij hj⟩

theorem pairwise_copyOrder_iff {R : Nat → Nat → Prop} : (copyOrder s s' count).Pairwise R ↔
    ∀ i j, i < count → j < count → (if runsBackward s s' then j < i else i < j) → R i j := by
  rw [copyOrder]
  split
  · rw [List.pairwise_reverse, pairwise_range_iff]
    exact ⟨fun h i j hi _ hij => h j i hij hi, fun h j i hij hi => h i j hi (by omega) hij⟩
  · rw [pairwise_range_iff]
    exact ⟨fun h i j _ hj hij => h i j hij hj, fun h i j hij hj => h i j (by omega) hj hij⟩

theorem pairwise_flatMap_copyOrder {α : Type} {R : α → α → Prop} {f : Nat → List α}
    (hin : ∀ i, i < count → (f i).Pairwise R)
    (h : ∀ i j, i < count → j < count → (if runsBackward s s' then j < i else i < j) →
      ∀ x ∈ f i, ∀ y ∈ f j, R x y) : ((copyOrder s s' count).flatMap f).Pairwise R :=
  List.pairwise_flatMap.2
    ⟨fun i hi => hin i (mem_copyOrder.1 hi), pairwise_copyOrder_iff.2 h⟩

end

namespace ElementType

variable {S T : Type} [Tiled S] [Tiled T]

def transfers : ElementType S → S → ElementType T → T → List Transfer
  | scalar t, s, scalar u, s' => if h : u.kind = t.kind then [t.transfer u h s s'] else []
  | array e size _, s, array e' size' _, s' =>
      (copyOrder s s' (tileCount s size)).flatMap fun i =>
        transfers e (tile s size i) e' (tile s' size' i)
  | _, _, _, _ => []

/-- Two arrays have the same shape over their storages: as many elements in the one as in the other
all the way down, and in the end fields of the same kind. -/
inductive Parallel : ElementType S → S → ElementType T → T → Prop
  | scalar {t : ScalarType S} {u : ScalarType T} (h : u.kind = t.kind) (s : S) (s' : T) :
      Parallel (scalar t) s (scalar u) s'
  | array {e : ElementType S} {e' : ElementType T} {size size' : Nat} (pos : 0 < size)
      (pos' : 0 < size') {s : S} {s' : T} (count : tileCount s size = tileCount s' size')
      (h : ∀ i, i < tileCount s size → Parallel e (tile s size i) e' (tile s' size' i)) :
      Parallel (array e size pos) s (array e' size' pos') s'

variable {e : ElementType S} {e' : ElementType T} {s : S} {s' : T} {m n : Memory}

theorem transfers_scalar {t : ScalarType S} {u : ScalarType T} (h : u.kind = t.kind) (s : S)
    (s' : T) : transfers (scalar t) s (scalar u) s' = [t.transfer u h s s'] := dif_pos h

theorem mem_transfers_array {size size' : Nat} {pos : 0 < size} {pos' : 0 < size'}
    {x : Transfer} : x ∈ transfers (array e size pos) s (array e' size' pos') s' ↔
      ∃ i, i < tileCount s size ∧ x ∈ transfers e (tile s size i) e' (tile s' size' i) := by
  simp only [transfers, List.mem_flatMap, mem_copyOrder]

theorem read_scalar {t : ScalarType S} (h : (t.field s).ok m = true) :
    (scalar t).read s m = .ok (.scalar t.kind ((t.field s).uncheckedRead m)) := by
  rw [ElementType.read, Field.read_eq h]
  rfl

theorem tryCopy_scalar {t : ScalarType S} {u : ScalarType T} (h : u.kind = t.kind) (s : S)
    (s' : T) : tryCopy (scalar t) s (scalar u) s' = (t.transfer u h s s').perform := by
  funext m
  rw [tryCopy_scalar_eq, t.pair?_field u h]
  rfl

theorem uncheckedCopy_scalar {t : ScalarType S} {u : ScalarType T} (h : u.kind = t.kind) (s : S)
    (s' : T) (m : Memory) : uncheckedCopy (scalar t) s (scalar u) s' m =
      (t.field s).uncheckedCopy (t.transfer u h s s').source m := by
  rw [uncheckedCopy, t.pair?_field u h]

theorem Parallel.tryCopy_eq (h : Parallel e s e' s') :
    tryCopy e s e' s' = Transfer.run (transfers e s e' s') := by
  induction h with
  | scalar h s s' => rw [tryCopy_scalar h, transfers_scalar h, Transfer.run_singleton]
  | array pos pos' count _ ih =>
      rw [tryCopy_array_eq, transfers, Transfer.run_flatMap, if_neg fun hne => hne count]
      exact Action.forM_congr fun i hi => ih i (mem_copyOrder.1 hi)

theorem Parallel.uncheckedCopy_eq (h : Parallel e s e' s') (m : Memory) :
    uncheckedCopy e s e' s' m = Transfer.uncheckedRun (transfers e s e' s') m := by
  induction h generalizing m with
  | scalar h s s' =>
      rw [uncheckedCopy_scalar h, transfers_scalar h]
      rfl
  | array pos pos' count _ ih =>
      rw [uncheckedCopy, transfers, Transfer.uncheckedRun, List.foldl_flatMap, ← count,
        Nat.min_self]
      exact List.foldl_ext _ _ m fun m i hi => ih i (mem_copyOrder.1 hi) m

theorem Parallel.read_iff (h : Parallel e s e' s') :
    (∃ d, e'.read s' m = .ok d ∧ e.read s n = .ok d) ↔
      ∀ x ∈ transfers e s e' s', ∃ v, x.source.read m = .ok v ∧ x.target.read n = .ok v := by
  induction h with
  | @scalar t u h s s' =>
      have hinj : Function.Injective (Datum.scalar t.kind) := fun _ _ he => by cases he; rfl
      rw [transfers_scalar h, List.forall_mem_singleton, ElementType.read, t.read_source u h]
      exact Except.exists_map_iff hinj
  | @array e e' size size' pos pos' s s' count _ ih =>
      have hinj : Function.Injective Datum.list := fun _ _ he => by cases he; rfl
      rw [ElementType.read, ElementType.read, tiles, tiles, List.mapM_map, List.mapM_map, ← count,
        Except.exists_map_iff hinj, Except.exists_mapM_iff]
      constructor
      · intro hd x hx
        obtain ⟨i, hi, hx⟩ := mem_transfers_array.1 hx
        exact (ih i hi).1 (hd i (List.mem_range.2 hi)) x hx
      · intro hr i hi
        have hi := List.mem_range.1 hi
        exact (ih i hi).2 fun x hx => hr x (mem_transfers_array.2 ⟨i, hi, hx⟩)

theorem Parallel.uncheckedRead (h : Parallel e s e' s')
    (hr : ∀ x ∈ transfers e s e' s', x.target.uncheckedRead n = x.source.uncheckedRead m) :
    e.uncheckedRead s n = e'.uncheckedRead s' m := by
  induction h with
  | @scalar t u h s s' =>
      have hx := hr _ (by rw [transfers_scalar h]; exact List.mem_singleton_self _)
      rw [ElementType.uncheckedRead, ElementType.uncheckedRead, t.uncheckedRead_source u h, ← hx]
      rfl
  | @array e e' size size' pos pos' s s' count _ ih =>
      rw [ElementType.uncheckedRead, ElementType.uncheckedRead, tiles, tiles, List.map_map,
        List.map_map, ← count]
      refine congrArg Datum.list (List.map_congr_left fun i hi => ?_)
      have hi := List.mem_range.1 hi
      exact ih i hi fun x hx => hr x (mem_transfers_array.2 ⟨i, hi, hx⟩)

end ElementType

namespace ArrayView

variable {S T : Type} [Tiled S] [Tiled T] (a : ArrayView S) (b : ArrayView T) {m n : Memory}

def Parallel : Prop := a.type.Parallel a.storage b.type b.storage

def transfers : List Transfer := a.type.transfers a.storage b.type b.storage

/-- The copy writes no field where it has yet to read one. -/
def ReadsAhead : Prop := (a.transfers b).Pairwise Transfer.Spares

/-- The fields of both arrays lie over storage that is there, and no two fields of one array have
a bit in common. -/
structure Laid (m : Memory) : Prop where
  placed : ∀ x ∈ a.transfers b, x.Placed m
  targets : (a.transfers b).Pairwise Transfer.Keeps
  sources : (a.transfers b).Pairwise fun x y => x.source.storage.Disjoint y.source.storage

def Copied (m n : Memory) : Prop :=
  ∀ i, i < a.count → ∃ d, b.element.read (b.slot i) m = .ok d ∧ a.element.read (a.slot i) n = .ok d

def UncheckedCopied (m n : Memory) : Prop :=
  ∀ i, i < a.count → a.element.uncheckedRead (a.slot i) n = b.element.uncheckedRead (b.slot i) m

variable {a b}

theorem not_copied_of_scalar {t : ScalarType S} {u : ScalarType T} (ht : a.element = .scalar t)
    (hu : b.element = .scalar u) {i : Nat} (hi : i < a.count)
    (hb : (u.field (b.slot i)).ok m = true) (ha : (t.field (a.slot i)).ok n = true)
    (hne : Datum.scalar u.kind ((u.field (b.slot i)).uncheckedRead m) ≠
      .scalar t.kind ((t.field (a.slot i)).uncheckedRead n)) : ¬ a.Copied b m n := by
  intro h
  obtain ⟨d, hrb, hra⟩ := h i hi
  rw [hu, ElementType.read_scalar hb] at hrb
  rw [ht, ElementType.read_scalar ha] at hra
  exact hne (Except.ok.inj (hrb.trans hra.symm))

theorem mem_transfers {x : Transfer} : x ∈ a.transfers b ↔
    ∃ i, i < a.count ∧ x ∈ a.element.transfers (a.slot i) b.element (b.slot i) :=
  ElementType.mem_transfers_array

theorem transfers_of_scalar {t : ScalarType S} {u : ScalarType T} (ht : a.element = .scalar t)
    (hu : b.element = .scalar u) (h : u.kind = t.kind) : a.transfers b =
      (copyOrder a.storage b.storage a.count).map fun i =>
        t.transfer u h (a.slot i) (b.slot i) := by
  change (copyOrder a.storage b.storage a.count).flatMap _ = _
  rw [ht, hu, ← List.flatMap_pure_eq_map]
  simp only [ElementType.transfers_scalar h]
  rfl

theorem mem_transfers_of_scalar {t : ScalarType S} {u : ScalarType T} (ht : a.element = .scalar t)
    (hu : b.element = .scalar u) (h : u.kind = t.kind) {x : Transfer} : x ∈ a.transfers b ↔
      ∃ i, i < a.count ∧ t.transfer u h (a.slot i) (b.slot i) = x := by
  rw [transfers_of_scalar ht hu h, List.mem_map]
  simp only [mem_copyOrder]

theorem pairwise_transfers_of_scalar {t : ScalarType S} {u : ScalarType T}
    (ht : a.element = .scalar t) (hu : b.element = .scalar u) (h : u.kind = t.kind)
    {R : Transfer → Transfer → Prop} : (a.transfers b).Pairwise R ↔
      ∀ i j, i < a.count → j < a.count →
        (if runsBackward a.storage b.storage then j < i else i < j) →
        R (t.transfer u h (a.slot i) (b.slot i)) (t.transfer u h (a.slot j) (b.slot j)) := by
  rw [transfers_of_scalar ht hu h, List.pairwise_map, pairwise_copyOrder_iff]

theorem parallel_of_scalar {t : ScalarType S} {u : ScalarType T} (ht : a.element = .scalar t)
    (hu : b.element = .scalar u) (h : u.kind = t.kind) (hn : a.count = b.count) :
    a.Parallel b := by
  refine .array a.stride_pos b.stride_pos hn fun i _ => ?_
  rw [ht, hu]
  exact .scalar h _ _

theorem Parallel.slot (h : a.Parallel b) {i : Nat} (hi : i < a.count) :
    a.element.Parallel (a.slot i) b.element (b.slot i) := by
  cases h with
  | array _ _ _ h => exact h i hi

theorem Parallel.copied_iff (h : a.Parallel b) : a.Copied b m n ↔
    ∀ x ∈ a.transfers b, ∃ v, x.source.read m = .ok v ∧ x.target.read n = .ok v := by
  constructor
  · intro hc x hx
    obtain ⟨i, hi, hx⟩ := mem_transfers.1 hx
    exact (h.slot hi).read_iff.1 (hc i hi) x hx
  · intro hr i hi
    exact (h.slot hi).read_iff.2 fun x hx => hr x (mem_transfers.2 ⟨i, hi, hx⟩)

theorem Parallel.tryCopy_eq (h : a.Parallel b) : a.tryCopy b = Transfer.run (a.transfers b) :=
  ElementType.Parallel.tryCopy_eq h

theorem Parallel.uncheckedCopy_eq (h : a.Parallel b) (m : Memory) :
    a.uncheckedCopy b m = Transfer.uncheckedRun (a.transfers b) m :=
  ElementType.Parallel.uncheckedCopy_eq h m

theorem Parallel.tryCopy_plain (h : a.Parallel b) (hp : ∀ x ∈ a.transfers b, x.Plain)
    (hw : ∀ x ∈ a.transfers b, x.target.width = x.source.width) (m : Memory) :
    a.tryCopy b m = .ok () (a.uncheckedCopy b m) := by
  rw [h.tryCopy_eq, h.uncheckedCopy_eq, Transfer.run_plain hp hw]

theorem Parallel.tryCopy_copied (h : a.Parallel b) (hl : a.Laid b m) (hr : a.ReadsAhead b)
    (hk : ∀ x ∈ a.transfers b, x.kind.Hosted) (hc : a.tryCopy b m = .ok () n) :
    a.Copied b m n := by
  rw [h.tryCopy_eq, Transfer.run_eq_ok_iff] at hc
  have hcarried := hc.carried hl.placed hl.targets hr
  exact h.copied_iff.2 fun x hx => hcarried.read hx (hk x hx)

theorem Parallel.uncheckedCopy_carried (h : a.Parallel b) (hl : a.Laid b m) (hr : a.ReadsAhead b) :
    Transfer.Carried Transfer.Raw (a.transfers b) m (a.uncheckedCopy b m) := by
  rw [h.uncheckedCopy_eq]
  exact (Transfer.uncheckedRun_steps _ m).carried hl.placed hl.targets hr

theorem Parallel.uncheckedCopy_copied (h : a.Parallel b) (hl : a.Laid b m) (hr : a.ReadsAhead b)
    (hk : ∀ x ∈ a.transfers b, x.kind.Hosted)
    (hw : ∀ x ∈ a.transfers b, x.target.width = x.source.width)
    (hz : ∀ x ∈ a.transfers b, x.target.storage.size = x.source.storage.size) :
    a.UncheckedCopied b m (a.uncheckedCopy b m) := by
  have hcarried := h.uncheckedCopy_carried hl hr
  intro i hi
  refine (h.slot hi).uncheckedRead fun x hx => ?_
  have hx := mem_transfers.2 ⟨i, hi, hx⟩
  obtain ⟨q, hq⟩ := (hl.placed x hx).source
  refine hcarried.uncheckedRead hx (hk x hx) (hw x hx) ?_
  rw [hz x hx, BitStorage.mask_load hq]

theorem Parallel.exists_not_copied (h : a.Parallel b) (hl : a.Laid b m) (hr : ¬ a.ReadsAhead b)
    (hp : ∀ x ∈ a.transfers b, x.Plain) :
    ∃ m' n, m'.length = m.length ∧ a.tryCopy b m' = .ok () n ∧ ¬ a.Copied b m' n := by
  obtain ⟨m', n, hlen, hrun, x, hx, hne⟩ :=
    Transfer.exists_overwritten hp hl.placed hl.sources hr
  refine ⟨m', n, hlen, ?_, fun hc => hne (h.copied_iff.1 hc x hx)⟩
  rwa [h.tryCopy_eq]

end ArrayView

end Packed
