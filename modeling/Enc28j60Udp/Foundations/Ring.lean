import Mathlib.Algebra.BigOperators.Group.List.Basic
import Mathlib.Algebra.GroupWithZero.Nat
import Mathlib.Logic.Function.Basic
import Mathlib.Tactic.Common

/-!
# Queues in circular memory

A circular memory has `N` positions; the position after `N - 1` is `0`. A `Format` says how items
lie in it: an item occupies `size` positions from `start` on, and the first of them hold its
`image`. `Queued` says that a list of items lies in the memory one behind the other.

`Queued.push` is the law of the writer: an item stored behind the queue joins it, provided that
there is room for it. The writer knows how much room there is from `free`, the distance to a
pointer that it must not reach; when that pointer is the start of the queue this is exactly what
the queue leaves free (`free_of_total`).
-/

namespace Enc28j60Udp

namespace Ring

section Memory

variable {β : Type*} (N : ℕ)

/-- `n` cells from position `a` on. -/
def slice (mem : ℕ → β) : ℕ → ℕ → List β
  | _, 0 => []
  | a, n + 1 => mem a :: slice mem ((a + 1) % N) n

/-- The memory after a list is stored from position `a` on. -/
def store (mem : ℕ → β) : ℕ → List β → ℕ → β
  | _, [] => mem
  | a, b :: bs => store (Function.update mem a b) ((a + 1) % N) bs

variable {N} {mem mem' : ℕ → β} {a n : ℕ} {bs : List β}

theorem mod_eq_ite {x : ℕ} (h : x < 2 * N) : x % N = if x < N then x else x - N := by
  split
  · exact Nat.mod_eq_of_lt ‹_›
  · rw [Nat.mod_eq_sub_mod (by omega), Nat.mod_eq_of_lt (by omega)]

theorem succ_add_mod (a i : ℕ) : ((a + 1) % N + i) % N = (a + (i + 1)) % N := by
  rw [Nat.mod_add_mod, Nat.add_assoc, Nat.add_comm 1]

theorem slice_congr (ha : a < N) (h : ∀ i < n, mem' ((a + i) % N) = mem ((a + i) % N)) :
    slice N mem' a n = slice N mem a n := by
  induction n generalizing a with
  | zero => rfl
  | succ n ih =>
    have h₀ := h 0 (Nat.succ_pos n)
    rw [Nat.add_zero, Nat.mod_eq_of_lt ha] at h₀
    rw [slice, slice, h₀, ih (Nat.mod_lt _ (by omega)) fun i hi => ?_]
    rw [succ_add_mod]
    exact h (i + 1) (by omega)

theorem store_of_outside (ha : a < N) {x : ℕ} (h : ∀ i < bs.length, x ≠ (a + i) % N) :
    store N mem a bs x = mem x := by
  induction bs generalizing a mem with
  | nil => rfl
  | cons b bs ih =>
    have h₀ := h 0 (Nat.succ_pos _)
    rw [Nat.add_zero, Nat.mod_eq_of_lt ha] at h₀
    rw [store, ih (Nat.mod_lt _ (by omega)) fun i hi => ?_, Function.update_of_ne h₀]
    rw [succ_add_mod]
    exact h (i + 1) (by simpa using hi)

/-- What was stored is read back. -/
theorem slice_store_self (ha : a < N) (hlen : bs.length ≤ N) :
    slice N (store N mem a bs) a bs.length = bs := by
  induction bs generalizing a mem with
  | nil => rfl
  | cons b bs ih =>
    rw [List.length_cons] at hlen
    have hout : ∀ i < bs.length, a ≠ ((a + 1) % N + i) % N := by
      intro i hi
      rw [succ_add_mod, mod_eq_ite (by omega)]
      split <;> omega
    rw [List.length_cons, slice, store, ih (Nat.mod_lt _ (by omega)) (by omega),
      store_of_outside (Nat.mod_lt _ (by omega)) hout, Function.update_self]

theorem store_append (ha : a < N) (bs cs : List β) :
    store N mem a (bs ++ cs) = store N (store N mem a bs) ((a + bs.length) % N) cs := by
  induction bs generalizing a mem with
  | nil => rw [List.nil_append, store, List.length_nil, Nat.add_zero, Nat.mod_eq_of_lt ha]
  | cons b bs ih =>
    rw [List.cons_append, store, store, ih (Nat.mod_lt _ (by omega)), succ_add_mod,
      List.length_cons]

theorem slice_add (ha : a < N) (i j : ℕ) :
    slice N mem a (i + j) = slice N mem a i ++ slice N mem ((a + i) % N) j := by
  induction i generalizing a with
  | zero => rw [Nat.zero_add, Nat.add_zero, Nat.mod_eq_of_lt ha, slice, List.nil_append]
  | succ i ih =>
    rw [Nat.add_right_comm i 1 j, slice, slice, ih (Nat.mod_lt _ (by omega)), succ_add_mod,
      List.cons_append]

/-- The positions of a slice. -/
theorem mem_slice_id {x : ℕ} (ha : a < N) : x ∈ slice N id a n ↔ ∃ i < n, x = (a + i) % N := by
  induction n generalizing a with
  | zero => simp [slice]
  | succ n ih =>
    rw [slice, List.mem_cons, ih (Nat.mod_lt _ (by omega)), Nat.exists_lt_succ_left]
    simp only [Nat.add_zero, Nat.mod_eq_of_lt ha, succ_add_mod, id]

theorem length_slice : (slice N mem a n).length = n := by
  induction n generalizing a with
  | zero => rfl
  | succ n ih => rw [slice, List.length_cons, ih]

theorem slice_take (ha : a < N) {i : ℕ} (hi : i ≤ n) :
    (slice N mem a n).take i = slice N mem a i := by
  obtain ⟨j, rfl⟩ := Nat.exists_eq_add_of_le hi
  rw [slice_add ha]
  exact List.take_left' length_slice

/-- The first part of what was stored is read back. -/
theorem slice_store_take (ha : a < N) (hlen : bs.length ≤ N) {i : ℕ} (hi : i ≤ bs.length) :
    slice N (store N mem a bs) a i = bs.take i := by
  rw [← slice_take ha hi, slice_store_self ha hlen]

end Memory

/-! ## Queues -/

/-- How items lie in the memory. -/
structure Format (ι β : Type*) where
  start : ι → ℕ
  after : ι → ℕ
  size : ι → ℕ
  image : ι → List β
  length_image_le : ∀ p, (image p).length ≤ size p

section Queue

variable {ι β : Type*} (N : ℕ) (F : Format ι β)

/-- The items lie one behind the other, from `a` up to `b`. -/
def Queued (mem : ℕ → β) : ℕ → List ι → ℕ → Prop
  | a, [], b => a = b
  | a, p :: ps, b => F.start p = a ∧ F.after p = (a + F.size p) % N ∧
      slice N mem a (F.image p).length = F.image p ∧ Queued mem (F.after p) ps b

/-- The positions that some items occupy. -/
def total (ps : List ι) : ℕ := (ps.map F.size).sum

/-- How far the writer at `w` may go without reaching `r`. -/
def free (w r : ℕ) : ℕ := (r + N - w - 1) % N

variable {N F} {mem mem' : ℕ → β} {a b c : ℕ} {p : ι} {ps qs : List ι}

namespace Queued

theorem end_eq (h : Queued N F mem a ps b) (ha : a < N) : b = (a + total F ps) % N := by
  induction ps generalizing a with
  | nil =>
    rw [← show a = b from h, total, List.map_nil, List.sum_nil, Nat.add_zero, Nat.mod_eq_of_lt ha]
  | cons p ps ih =>
    obtain ⟨-, hafter, -, h⟩ := h
    rw [ih h (hafter ▸ Nat.mod_lt _ (by omega)), hafter, Nat.mod_add_mod, Nat.add_assoc]
    rfl

/-- Cells outside the queue do not matter. -/
theorem congr (h : Queued N F mem a ps b) (ha : a < N)
    (hm : ∀ i < total F ps, mem' ((a + i) % N) = mem ((a + i) % N)) : Queued N F mem' a ps b := by
  induction ps generalizing a with
  | nil => exact h
  | cons p ps ih =>
    obtain ⟨hstart, hafter, himage, h⟩ := h
    have htotal : total F (p :: ps) = F.size p + total F ps := rfl
    have hle := F.length_image_le p
    refine ⟨hstart, hafter, ?_, ih h (hafter ▸ Nat.mod_lt _ (by omega)) fun i hi => ?_⟩
    · rw [slice_congr ha fun i hi => hm i (by omega), himage]
    · rw [hafter, Nat.mod_add_mod, Nat.add_assoc]
      exact hm _ (by omega)

theorem append (h : Queued N F mem a ps b) (h' : Queued N F mem b qs c) :
    Queued N F mem a (ps ++ qs) c := by
  induction ps generalizing a with
  | nil => rwa [show a = b from h]
  | cons p ps ih => exact ⟨h.1, h.2.1, h.2.2.1, ih h.2.2.2⟩

/-- An item stored behind the queue joins it. -/
theorem push (h : Queued N F mem a ps b) (ha : a < N) (hstart : F.start p = b)
    (hafter : F.after p = (b + F.size p) % N) (hfit : total F ps + F.size p ≤ N) :
    Queued N F (store N mem b (F.image p)) a (ps ++ [p]) (F.after p) := by
  have hle := F.length_image_le p
  have hb := h.end_eq ha
  have hbN : b < N := hb ▸ Nat.mod_lt _ (by omega)
  refine append (h.congr ha fun i hi => ?_) ⟨hstart, hafter, ?_, rfl⟩
  · refine store_of_outside hbN fun j hj => ?_
    rw [hb, Nat.mod_add_mod, Nat.add_assoc, mod_eq_ite (by omega), mod_eq_ite (by omega)]
    split <;> split <;> omega
  · exact slice_store_self hbN (by omega)

end Queued

theorem free_lt (hN : 0 < N) (w r : ℕ) : free N w r < N := Nat.mod_lt _ hN

/-- Where the pointer is in the memory is all that counts. -/
theorem free_mod {w : ℕ} (hw : w < N) (r : ℕ) : free N w (r % N) = free N w r := by
  unfold free
  rw [show r % N + N - w - 1 = r % N + (N - w - 1) by omega,
    show r + N - w - 1 = r + (N - w - 1) by omega, Nat.mod_add_mod]

/-- The writer goes on. -/
theorem free_add {w r s : ℕ} (hw : w < N) (hs : s ≤ free N w r) :
    free N ((w + s) % N) r = free N w r - s := by
  have hr : r % N < N := Nat.mod_lt _ (by omega)
  have hlt := free_lt (by omega) w (r % N) (N := N)
  rw [← free_mod hw] at hs ⊢
  rw [← free_mod (Nat.mod_lt _ (by omega))]
  unfold free at *
  rw [mod_eq_ite (x := r % N + N - w - 1) (by omega)] at *
  rw [mod_eq_ite (x := w + s) (by omega), mod_eq_ite (by split <;> omega)]
  split_ifs at * <;> omega

/-- From the end of a queue up to its start. -/
theorem free_of_total {u : ℕ} (ha : a < N) (hu : u < N) : free N ((a + u) % N) a = N - 1 - u := by
  unfold free
  rw [mod_eq_ite (x := a + u) (by omega), mod_eq_ite (by split <;> omega)]
  split_ifs <;> omega

end Queue

end Ring

end Enc28j60Udp
