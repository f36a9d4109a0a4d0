import Mathlib.Logic.Function.Basic
import Mathlib.Tactic.SplitIfs
/-!
# Ring buffers

A buffer of some size with the place of its first element and the place behind its last. It is
empty when both are equal, so one slot is never used.
-/

namespace Dimemas.Library.RingBuffer

variable {α : Type*}

structure Buffer (α : Type*) where
  slots : Nat → α
  head : Nat
  tail : Nat

variable {size : Nat} {r : Buffer α} {a : α}

def Buffer.Full (size : Nat) (r : Buffer α) : Prop := (r.tail + 1) % size = r.head

instance (size : Nat) (r : Buffer α) : Decidable (r.Full size) :=
  inferInstanceAs (Decidable (_ = _))

def Buffer.push (size : Nat) (r : Buffer α) (a : α) : Buffer α where
  slots := Function.update r.slots r.tail a
  head := r.head
  tail := (r.tail + 1) % size

def Buffer.pop (size : Nat) (r : Buffer α) : Buffer α := { r with head := (r.head + 1) % size }

def Buffer.count (size : Nat) (r : Buffer α) : Nat :=
  if r.head ≤ r.tail then r.tail - r.head else r.tail + size - r.head

def Buffer.contents (size : Nat) (r : Buffer α) : List α :=
  (List.range (r.count size)).map fun j => r.slots ((r.head + j) % size)

/-- Both places are slots of the buffer. -/
structure Buffer.Inside (size : Nat) (r : Buffer α) : Prop where
  head : r.head < size
  tail : r.tail < size

theorem Buffer.Inside.push (h : r.Inside size) : (r.push size a).Inside size :=
  ⟨h.head, Nat.mod_lt _ (by have := h.head; omega)⟩

theorem Buffer.Inside.pop (h : r.Inside size) : (r.pop size).Inside size :=
  ⟨Nat.mod_lt _ (by have := h.head; omega), h.tail⟩

theorem succ_mod_eq {x : Nat} (h : x < size) :
    (x + 1) % size = if x + 1 = size then 0 else x + 1 := by
  split
  · next heq => rw [heq, Nat.mod_self]
  · exact Nat.mod_eq_of_lt (by omega)

theorem count_push (h : r.Inside size) (hfull : ¬ r.Full size) :
    (r.push size a).count size = r.count size + 1 := by
  obtain ⟨hhead, htail⟩ := h
  unfold Buffer.Full at hfull
  unfold Buffer.count Buffer.push
  rw [succ_mod_eq htail] at hfull ⊢
  simp only
  split_ifs at hfull ⊢ <;> omega

theorem count_pop (h : r.Inside size) (hne : r.head ≠ r.tail) :
    r.count size = (r.pop size).count size + 1 := by
  obtain ⟨hhead, htail⟩ := h
  unfold Buffer.count Buffer.pop
  rw [succ_mod_eq hhead]
  simp only
  split_ifs <;> omega

theorem add_mod_eq {x j : Nat} (hx : x < size) (hj : j ≤ size) :
    (x + j) % size = if x + j < size then x + j else x + j - size := by
  split
  · next hlt => exact Nat.mod_eq_of_lt hlt
  · next hge =>
      rw [Nat.mod_eq_sub_mod (by omega)]
      exact Nat.mod_eq_of_lt (by omega)

theorem count_lt (h : r.Inside size) : r.count size < size := by
  obtain ⟨hhead, htail⟩ := h
  unfold Buffer.count
  split <;> omega

theorem head_add_count (h : r.Inside size) : (r.head + r.count size) % size = r.tail := by
  have hlt := count_lt h
  obtain ⟨hhead, htail⟩ := h
  rw [add_mod_eq hhead (Nat.le_of_lt hlt)]
  unfold Buffer.count at hlt ⊢
  split_ifs at hlt ⊢ <;> omega

theorem contents_push (h : r.Inside size) (hfull : ¬ r.Full size) :
    (r.push size a).contents size = r.contents size ++ [a] := by
  unfold Buffer.contents
  rw [count_push h hfull, List.range_succ, List.map_append, List.map_singleton]
  have htail := head_add_count h
  congr 1
  · apply List.map_congr_left
    intro j hj
    have hlt := List.mem_range.mp hj
    apply Function.update_of_ne
    show (r.head + j) % size ≠ r.tail
    have hcount := count_lt h
    rw [← htail, add_mod_eq h.head (by omega), add_mod_eq h.head (by omega)]
    have hhead := h.head
    split <;> split <;> omega
  · show [Function.update r.slots r.tail a ((r.head + r.count size) % size)] = [a]
    rw [htail, Function.update_self]

theorem contents_pop (h : r.Inside size) (hne : r.head ≠ r.tail) :
    r.contents size = r.slots r.head :: (r.pop size).contents size := by
  unfold Buffer.contents
  rw [count_pop h hne, List.range_succ_eq_map, List.map_cons, List.map_map, Nat.add_zero,
    Nat.mod_eq_of_lt h.head]
  congr 1
  apply List.map_congr_left
  intro j _
  show r.slots ((r.head + (j + 1)) % size) = r.slots (((r.head + 1) % size + j) % size)
  rw [Nat.mod_add_mod, Nat.add_assoc, Nat.add_comm 1 j]

theorem contents_eq_nil_iff (h : r.Inside size) : r.contents size = [] ↔ r.head = r.tail := by
  obtain ⟨hhead, htail⟩ := h
  unfold Buffer.contents Buffer.count
  rw [List.map_eq_nil_iff, List.range_eq_nil]
  split <;> omega

end Dimemas.Library.RingBuffer
