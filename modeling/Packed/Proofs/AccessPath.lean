import Packed.AccessPath
import Packed.Proofs.Memory
import Packed.Proofs.Word

namespace Packed

/-- The bytes of a word in the order in which they lie in memory, from the least significant first,
and back. -/
def Endian.arrange (bs : List Byte) : Endian → List Byte
  | little => bs
  | big => bs.reverse

namespace Endian

@[simp] theorem length_arrange (e : Endian) (bs : List Byte) : (e.arrange bs).length = bs.length := by
  cases e <;> simp [arrange]

@[simp] theorem arrange_arrange (e : Endian) (bs : List Byte) : e.arrange (e.arrange bs) = bs := by
  cases e <;> simp [arrange]

theorem arrange_of_length_le_one (e f : Endian) {bs : List Byte} (h : bs.length ≤ 1) :
    e.arrange bs = f.arrange bs := by
  match bs, h with
  | [], _ => cases e <;> cases f <;> rfl
  | [_], _ => cases e <;> cases f <;> rfl

theorem place_lt (e : Endian) {n i : Nat} (h : i < n) : e.place n i < n := by
  cases e with
  | little => exact h
  | big => rw [place]; omega

theorem place_place (e : Endian) {n i : Nat} (h : i < n) : e.place n (e.place n i) = i := by
  cases e with
  | little => rfl
  | big => rw [place, place]; omega

theorem getD_arrange (e : Endian) {bs : List Byte} {n i : Nat} (hn : bs.length = n) (h : i < n) :
    (e.arrange bs).getD i 0 = bs.getD (e.place n i) 0 := by
  subst hn
  cases e with
  | little => rfl
  | big =>
      rw [arrange, place, List.getD_eq_getElem?_getD, List.getD_eq_getElem?_getD,
        List.getElem?_reverse h]

end Endian

namespace AccessPath

theorem loadBytewise_eq (e : Endian) (bs : List Byte) :
    loadBytewise e bs = Word.ofDigits (e.arrange bs) := by
  cases e with
  | little => exact Word.foldl_reverse_eq_ofDigits bs
  | big =>
      have h := Word.foldl_reverse_eq_ofDigits bs.reverse
      rwa [List.reverse_reverse] at h

theorem loadTyped_eq (e : Endian) {bs : List Byte} (h : bs.length ≤ 8) :
    loadTyped e bs = Word.ofDigits (e.arrange bs) := by
  cases e with
  | little => rfl
  | big => rw [loadTyped, Word.byteSwap, Word.digits_ofDigits bs h, Endian.arrange]

theorem isTyped_le {path : AccessPath} {n : Nat} (h : path.isTyped n = true) : n ≤ 8 := by
  simp only [isTyped, Bool.and_eq_true, Bool.or_eq_true, beq_iff_eq] at h
  omega

theorem load_eq (path : AccessPath) (e : Endian) (bs : List Byte) :
    path.load e bs = Word.ofDigits (e.arrange bs) := by
  rw [load]
  split
  · rename_i h
    exact loadTyped_eq e (isTyped_le h)
  · exact loadBytewise_eq e bs

theorem foldl_set_little (m : Memory) (start k : Nat) (f : Nat → Byte) :
    (List.range k).foldl (fun m i => m.set (start + i) (f i)) m =
      m.write start ((List.range k).map f) := by
  induction k with
  | zero => rfl
  | succ k ih =>
      rw [List.range_succ, List.foldl_append, ih, List.map_append, Memory.write_append]
      simp [Memory.write]

theorem foldl_set_big (m : Memory) (start n : Nat) (f : Nat → Byte) {k : Nat} (h : k ≤ n) :
    (List.range k).foldl (fun m i => m.set (start + (n - 1 - i)) (f i)) m =
      m.write (start + (n - k)) ((List.range k).map f).reverse := by
  induction k with
  | zero => rfl
  | succ k ih =>
      have hs : start + (n - k) = start + (n - (k + 1)) + 1 := by omega
      have hi : start + (n - 1 - k) = start + (n - (k + 1)) := by omega
      rw [List.range_succ, List.foldl_append, ih (by omega), List.map_append, List.reverse_append,
        List.foldl_cons, List.foldl_nil, hi, hs, ← Memory.set_write_comm _ _ _ (by omega)]
      rfl

theorem storeBytewise_eq (m : Memory) (start : Nat) {n : Nat} (h : n ≤ 8) (e : Endian) (w : Word) :
    storeBytewise m start n e w = m.write start (e.arrange (w.digits n)) := by
  rw [storeBytewise, Nat.min_eq_left h, Word.digits_eq_map]
  cases e with
  | little => exact foldl_set_little m start n w.byte
  | big =>
      have hb := foldl_set_big m start n w.byte (Nat.le_refl n)
      rwa [Nat.sub_self, Nat.add_zero] at hb

theorem storeTyped_eq (m : Memory) (start : Nat) {n : Nat} (h : n ≤ 8) (e : Endian) (w : Word) :
    storeTyped m start n e w = m.write start (e.arrange (w.digits n)) := by
  cases e with
  | little => rfl
  | big =>
      have hl : (w.digits n).reverse.length = n := by simp
      have hd : Word.digits n (Word.ofDigits (w.digits n).reverse) = (w.digits n).reverse := by
        have hr := Word.digits_ofDigits (w.digits n).reverse (by omega)
        rwa [hl] at hr
      rw [storeTyped, Word.byteSwap, hd, Endian.arrange]

theorem store_eq (path : AccessPath) (m : Memory) (start : Nat) {n : Nat} (h : n ≤ 8) (e : Endian)
    (w : Word) : path.store m start n e w = m.write start (e.arrange (w.digits n)) := by
  rw [store]
  split
  · exact storeTyped_eq m start h e w
  · exact storeBytewise_eq m start h e w

theorem store_eq_storeBytewise (path : AccessPath) (m : Memory) (start n : Nat) (e : Endian)
    (w : Word) : path.store m start n e w = storeBytewise m start n e w := by
  by_cases hn : n ≤ 8
  · rw [store_eq path m start hn, storeBytewise_eq m start hn]
  · exact if_neg fun ht => hn (isTyped_le ht)

end AccessPath

end Packed
