import Mathlib.Data.UInt
import Mathlib.Tactic.Common

/-!
# Chains of buffers

A packet is a chain of `pbuf`s, of which each has a part of the bytes in a buffer of its own. Room
for headers is in front of the payload: `pbuf_header` moves the border between the two, and no byte.
`pbuf_realloc` cuts a chain off; the bytes that are cut off stay in the buffer, where a read behind
the payload finds them.
-/

namespace Enc28j60Udp

namespace Lwip

/-- A `pbuf` of the type `PBUF_POOL` or `PBUF_RAM`: the address of its payload, the bytes of its
buffer in front of the payload, the payload, and the bytes behind it. -/
structure Pbuf where
  payload : ℕ
  room : List UInt8
  data : List UInt8
  behind : List UInt8

namespace Pbuf

/-- `p->len`. -/
def len (q : Pbuf) : ℕ := q.data.length

/-- The byte at a distance from the payload; there is none outside the buffer. -/
def byte (q : Pbuf) (i : ℕ) : Option UInt8 := (q.data ++ q.behind)[i]?

/-- `ntohs` of the `u16_t` at a distance from the payload. -/
def ntohs (q : Pbuf) (i : ℕ) : Option ℕ := do
  let high ← q.byte i
  let low ← q.byte (i + 1)
  some (256 * high.toNat + low.toNat)

/-- The `ip_addr_t` at a distance from the payload. -/
def addr (q : Pbuf) (i : ℕ) : Option UInt32 := do
  let b₀ ← q.byte i
  let b₁ ← q.byte (i + 1)
  let b₂ ← q.byte (i + 2)
  let b₃ ← q.byte (i + 3)
  some (b₀.toUInt32 ||| b₁.toUInt32 <<< 8 ||| b₂.toUInt32 <<< 16 ||| b₃.toUInt32 <<< 24)

/-- A header is written at the payload. -/
def write (q : Pbuf) (header : List UInt8) : Pbuf :=
  { q with data := header ++ q.data.drop header.length }

/-- The payload starts `n` bytes later. -/
def hide (q : Pbuf) (n : ℕ) : Pbuf :=
  { q with payload := q.payload + n, room := q.room ++ q.data.take n, data := q.data.drop n }

/-- The payload starts `n` bytes earlier. -/
def reveal (q : Pbuf) (n : ℕ) : Pbuf :=
  let k := q.room.length - n
  { q with payload := q.payload - n, room := q.room.take k, data := q.room.drop k ++ q.data }

/-- The payload ends after `n` bytes. -/
def cut (q : Pbuf) (n : ℕ) : Pbuf :=
  { q with data := q.data.take n, behind := q.data.drop n ++ q.behind }

end Pbuf

/-- The bytes of a chain. -/
def chainData (p : List Pbuf) : List UInt8 := p.flatMap Pbuf.data

/-- `p->tot_len`. -/
def totLen (p : List Pbuf) : ℕ := (chainData p).length % 2 ^ 16

/-- `pbuf_header`; `none` when it reports a failure. -/
def pbufHeader (headerSizeIncrement : ℤ) : List Pbuf → Option (List Pbuf)
  | [] => some []
  | q :: p =>
    let incrementMagnitude := headerSizeIncrement.natAbs
    if headerSizeIncrement < 0 then
      if incrementMagnitude ≤ q.len then some (q.hide incrementMagnitude :: p) else none
    else
      if incrementMagnitude ≤ q.room.length then some (q.reveal incrementMagnitude :: p) else none

/-- The loop of `pbuf_realloc`, and the new end of the chain. -/
def reallocLoop : List Pbuf → ℕ → List Pbuf
  | [], _ => []
  | q :: p, remLen => if q.len < remLen then q :: reallocLoop p (remLen - q.len) else [q.cut remLen]

/-- `pbuf_realloc`. -/
def pbufRealloc (p : List Pbuf) (newLen : ℕ) : List Pbuf :=
  if totLen p ≤ newLen then p else reallocLoop p newLen

/-! ## The bytes -/

section Bytes

variable {q : Pbuf} {p : List Pbuf} {n : ℕ}

@[simp] theorem chainData_nil : chainData [] = [] := rfl

@[simp] theorem chainData_cons (q : Pbuf) (p : List Pbuf) :
    chainData (q :: p) = q.data ++ chainData p := rfl

theorem totLen_eq (h : (chainData p).length < 2 ^ 16) : totLen p = (chainData p).length :=
  Nat.mod_eq_of_lt h

theorem pbufHeader_hide (hn : 0 < n) (hle : n ≤ q.len) :
    pbufHeader (-n) (q :: p) = some (q.hide n :: p) := by
  have hneg : -(n : ℤ) < 0 := by omega
  rw [pbufHeader, if_pos hneg, Int.natAbs_neg, Int.natAbs_natCast, if_pos hle]

/-- The payload may also stay where it is. -/
theorem pbufHeader_neg (hle : n ≤ q.len) :
    ∃ q', pbufHeader (-n) (q :: p) = some (q' :: p) ∧ q'.data = q.data.drop n := by
  rcases Nat.eq_zero_or_pos n with rfl | hn
  · refine ⟨q.reveal 0, rfl, ?_⟩
    rw [Pbuf.reveal, List.drop_zero]
    dsimp only
    rw [Nat.sub_zero, List.drop_length, List.nil_append]
  · exact ⟨q.hide n, pbufHeader_hide hn hle, rfl⟩

theorem pbufHeader_reveal (hle : n ≤ q.room.length) :
    pbufHeader n (q :: p) = some (q.reveal n :: p) := by
  have hpos : ¬(n : ℤ) < 0 := by omega
  rw [pbufHeader, if_neg hpos, Int.natAbs_natCast, if_pos hle]

/-- A header is hidden in the first buffer. -/
theorem chainData_hide (hle : n ≤ q.len) :
    chainData (q.hide n :: p) = (chainData (q :: p)).drop n := by
  rw [chainData_cons, chainData_cons, List.drop_append_of_le_length hle]
  rfl

theorem len_reveal (hle : n ≤ q.room.length) : (q.reveal n).len = n + q.len := by
  rw [Pbuf.len, Pbuf.reveal, List.length_append, List.length_drop, Pbuf.len]
  omega

theorem length_chainData_reveal (hle : n ≤ q.room.length) :
    (chainData (q.reveal n :: p)).length = n + (chainData (q :: p)).length := by
  have h := len_reveal hle
  rw [Pbuf.len, Pbuf.len] at h
  rw [chainData_cons, chainData_cons, List.length_append, List.length_append, h, Nat.add_assoc]

/-- A header is written in the room for it. -/
theorem chainData_write_reveal (header : List UInt8) (hn : header.length = n)
    (hle : n ≤ q.room.length) :
    chainData ((q.reveal n).write header :: p) = header ++ chainData (q :: p) := by
  have hdrop : (q.room.drop (q.room.length - n) ++ q.data).drop header.length = q.data := by
    refine List.drop_left' ?_
    rw [List.length_drop]
    omega
  rw [chainData_cons, Pbuf.write, Pbuf.reveal, hdrop, List.append_assoc, chainData_cons]

/-- A header is written over the first bytes. -/
theorem chainData_write {header : List UInt8} (hle : header.length ≤ q.len) :
    chainData (q.write header :: p) = header ++ (chainData (q :: p)).drop header.length := by
  rw [chainData_cons, chainData_cons, List.drop_append_of_le_length hle, ← List.append_assoc]
  rfl

theorem chainData_reallocLoop (p : List Pbuf) (n : ℕ) :
    chainData (reallocLoop p n) = (chainData p).take n := by
  induction p generalizing n with
  | nil => simp [reallocLoop]
  | cons q p ih =>
    rw [reallocLoop, chainData_cons, List.take_append]
    split_ifs with hlt
    · rw [chainData_cons, ih, List.take_of_length_le (Nat.le_of_lt hlt)]
      rfl
    · rw [Pbuf.len, Nat.not_lt] at hlt
      rw [chainData_cons, chainData_nil, List.append_nil, Nat.sub_eq_zero_of_le hlt, List.take_zero,
        List.append_nil]
      rfl

/-- `pbuf_realloc` keeps the first bytes. -/
theorem chainData_pbufRealloc (h : (chainData p).length < 2 ^ 16) (n : ℕ) :
    chainData (pbufRealloc p n) = (chainData p).take n := by
  rw [pbufRealloc, totLen_eq h]
  split_ifs with hle
  · rw [List.take_of_length_le hle]
  · exact chainData_reallocLoop p n

/-- A byte of the payload is a byte of the packet. -/
theorem Pbuf.byte_eq (hn : n < q.len) : q.byte n = (chainData (q :: p))[n]? := by
  rw [Pbuf.byte, List.getElem?_append_left hn, chainData_cons, List.getElem?_append_left hn]

theorem Pbuf.byte_isSome (hn : n < q.len) : ∃ b, q.byte n = some b := by
  rw [Pbuf.byte, List.getElem?_append_left hn]
  exact ⟨_, List.getElem?_eq_getElem hn⟩

theorem Pbuf.ntohs_isSome (hn : n + 1 < q.len) : ∃ k, q.ntohs n = some k := by
  obtain ⟨high, hhigh⟩ := Pbuf.byte_isSome (Nat.lt_of_succ_lt hn)
  obtain ⟨low, hlow⟩ := Pbuf.byte_isSome hn
  rw [Pbuf.ntohs, hhigh, hlow]
  exact ⟨_, rfl⟩

/-- The length of a buffer is at most that of the chain. -/
theorem len_le_of_mem (hq : q ∈ p) : q.len ≤ (chainData p).length := by
  induction p with
  | nil => exact absurd hq List.not_mem_nil
  | cons q' p ih =>
    rw [chainData_cons, List.length_append]
    rcases List.mem_cons.mp hq with rfl | hq
    · exact Nat.le_add_right _ _
    · exact Nat.le_add_left_of_le (ih hq)

/-- What is cut off can still be read. -/
theorem Pbuf.byte_cut (q : Pbuf) (n i : ℕ) : (q.cut n).byte i = q.byte i := by
  rw [Pbuf.byte, Pbuf.cut, ← List.append_assoc, List.take_append_drop, Pbuf.byte]

/-- The first buffer keeps its bytes, and its length up to that of the chain. -/
theorem pbufRealloc_cons (q : Pbuf) (p : List Pbuf) (n : ℕ) :
    ∃ q' p', pbufRealloc (q :: p) n = q' :: p' ∧ min n q.len ≤ q'.len ∧
      ∀ i, q'.byte i = q.byte i := by
  rw [pbufRealloc, reallocLoop]
  split_ifs with hle hlt
  · exact ⟨q, p, rfl, Nat.min_le_right _ _, fun _ => rfl⟩
  · exact ⟨q, _, rfl, Nat.min_le_right _ _, fun _ => rfl⟩
  · exact ⟨q.cut n, [], rfl, List.length_take.ge, q.byte_cut n⟩

end Bytes

end Lwip

end Enc28j60Udp
