import Mathlib.Tactic.Ring
import Packed.Memory

namespace Packed.Memory

@[ext] theorem ext_get {m n : Memory} (hl : m.length = n.length) (h : ∀ a, m.get a = n.get a) :
    m = n := by
  apply List.ext_getElem hl
  intro i hm hn
  have hi := h i
  simpa [get, List.getElem?_eq_getElem hm, List.getElem?_eq_getElem hn] using hi

@[simp] theorem length_write (m : Memory) (a : Nat) (bs : List Byte) :
    (m.write a bs).length = m.length := by
  induction bs generalizing m a with
  | nil => rfl
  | cons b bs ih => rw [write, ih, List.length_set]

theorem get_set (m : Memory) (a : Nat) (b : Byte) (i : Nat) :
    get (m.set a b) i = if i = a ∧ a < m.length then b else m.get i := by
  simp only [get, List.getD_eq_getElem?_getD, List.getElem?_set]
  by_cases hi : a = i
  · subst hi
    by_cases ha : a < m.length
    · simp [ha]
    · simp [ha]
  · simp [hi, Ne.symm hi]

theorem get_write (m : Memory) (a : Nat) (bs : List Byte) (i : Nat) :
    (m.write a bs).get i =
      if a ≤ i ∧ i < a + bs.length ∧ i < m.length then bs.getD (i - a) 0 else m.get i := by
  induction bs generalizing m a with
  | nil => simp [write, show ¬ (a ≤ i ∧ i < a ∧ i < m.length) by omega]
  | cons b bs ih =>
      rw [write, ih, get_set, List.length_set, List.length_cons]
      by_cases h : a + 1 ≤ i ∧ i < a + 1 + bs.length ∧ i < m.length
      · rw [if_pos h, if_pos (by omega), show i - a = i - (a + 1) + 1 by omega, List.getD_cons_succ]
      · rw [if_neg h]
        by_cases hi : i = a ∧ a < m.length
        · rw [if_pos hi, if_pos (by omega), hi.1, Nat.sub_self, List.getD_cons_zero]
        · rw [if_neg hi, if_neg (by omega)]

theorem get_write_of_outside (m : Memory) {a i : Nat} {bs : List Byte}
    (h : i < a ∨ a + bs.length ≤ i) : (m.write a bs).get i = m.get i := by
  rw [get_write, if_neg (by omega)]

theorem write_append (m : Memory) (a : Nat) (bs cs : List Byte) :
    m.write a (bs ++ cs) = (m.write a bs).write (a + bs.length) cs := by
  induction bs generalizing m a with
  | nil => rfl
  | cons b bs ih =>
      rw [List.cons_append, write, ih, write, List.length_cons]
      congr 1
      omega

theorem set_write_comm (m : Memory) {a i : Nat} (b : Byte) (bs : List Byte) (h : i < a) :
    Memory.write (m.set i b) a bs = (m.write a bs).set i b := by
  induction bs generalizing m a with
  | nil => rfl
  | cons c bs ih =>
      rw [write, write, List.set_comm _ _ (by omega), ih _ (by omega)]

@[simp] theorem length_read (m : Memory) (r : Region) :
    (m.read r).length = min r.size (m.length - r.start) := by
  simp [read]

theorem length_read_of_le {m : Memory} {r : Region} (h : r.start + r.size ≤ m.length) :
    (m.read r).length = r.size := by
  rw [length_read]
  omega

theorem getD_read (m : Memory) (r : Region) {i : Nat} (h : i < r.size) :
    (m.read r).getD i 0 = m.get (r.start + i) := by
  simp [read, get, h]

theorem read_congr {m n : Memory} {r : Region} (hl : m.length = n.length)
    (h : ∀ i, i < r.size → m.get (r.start + i) = n.get (r.start + i)) : m.read r = n.read r := by
  apply List.ext_getElem
  · simp [hl]
  · intro i hm hn
    have hi : i < r.size := by rw [length_read] at hm; omega
    have he : (m.read r).getD i 0 = (n.read r).getD i 0 := by
      rw [getD_read m r hi, getD_read n r hi, h i hi]
    simpa [List.getElem?_eq_getElem hm, List.getElem?_eq_getElem hn] using he

theorem read_write {m : Memory} {r : Region} {bs : List Byte} (hr : r.start + r.size ≤ m.length)
    (hb : bs.length = r.size) : (m.write r.start bs).read r = bs := by
  apply List.ext_getElem
  · rw [length_read_of_le (by rwa [length_write]), hb]
  · intro i hm hn
    have hi : i < r.size := by omega
    have he : ((m.write r.start bs).read r).getD i 0 = bs.getD i 0 := by
      rw [getD_read _ r hi, get_write, if_pos (by omega), Nat.add_sub_cancel_left]
    simpa [List.getElem?_eq_getElem hm, List.getElem?_eq_getElem hn] using he

theorem read_write_of_disjoint (m : Memory) {r : Region} {a : Nat} {bs : List Byte}
    (h : r.start + r.size ≤ a ∨ a + bs.length ≤ r.start) : (m.write a bs).read r = m.read r := by
  apply read_congr (by simp)
  intro i hi
  exact get_write_of_outside m (by omega)

theorem write_read (m : Memory) (r : Region) : m.write r.start (m.read r) = m := by
  apply ext_get (by simp)
  intro i
  rw [get_write, length_read]
  split
  · rename_i h
    rw [getD_read m r (by omega), Nat.add_sub_cancel' h.1]
  · rfl

theorem read_append (m : Memory) (a j k : Nat) :
    m.read ⟨a, j⟩ ++ m.read ⟨a + j, k⟩ = m.read ⟨a, j + k⟩ := by
  rw [read, read, read, List.take_add, List.drop_drop]

theorem take_read (m : Memory) (r : Region) {k : Nat} (h : k ≤ r.size) :
    (m.read r).take k = m.read ⟨r.start, k⟩ := by
  rw [read, read, List.take_take, Nat.min_eq_left h]

theorem read_write_front {m : Memory} {r : Region} {bs : List Byte}
    (hr : r.start + r.size ≤ m.length) (hb : bs.length ≤ r.size) :
    (m.write r.start bs).read r = bs ++ (m.read r).drop bs.length := by
  obtain ⟨a, size⟩ := r
  obtain ⟨k, rfl⟩ := Nat.exists_eq_add_of_le hb
  have hlen : (m.read ⟨a, bs.length⟩).length = bs.length :=
    length_read_of_le (r := ⟨a, bs.length⟩) (by dsimp only at hr ⊢; omega)
  have hfront : (m.write a bs).read ⟨a, bs.length⟩ = bs :=
    read_write (r := ⟨a, bs.length⟩) (by dsimp only at hr ⊢; omega) rfl
  have hback : (m.write a bs).read ⟨a + bs.length, k⟩ = m.read ⟨a + bs.length, k⟩ :=
    read_write_of_disjoint m (.inr (Nat.le_refl _))
  rw [← read_append, ← read_append, hfront, hback, List.drop_left' hlen]

theorem write_read_append {m : Memory} {a j : Nat} (h : a + j ≤ m.length) (n : Memory) (b k : Nat) :
    (n.write b (m.read ⟨a, j⟩)).write (b + j) (m.read ⟨a + j, k⟩) =
      n.write b (m.read ⟨a, j + k⟩) := by
  have hl : (m.read ⟨a, j⟩).length = j := length_read_of_le (r := ⟨a, j⟩) h
  rw [← read_append, write_append, hl]

end Packed.Memory
