import Enc28j60Udp.Foundations.Blocks
import Enc28j60Udp.Lwip.Mem

/-!
# The heap as blocks

The structures of the heap lie in a chain: `Layout h bs` says that the heap consists of the blocks
`bs`, each with the places of its neighbours in its header. The operations of `mem.c` act on the
blocks as `alloc`, `free` and `trim` do (`memMalloc_refines`, `memFree_refines`,
`memTrim_refines`), they write only to headers and to free memory, and no assertion of the code
fails.
-/

namespace Enc28j60Udp

namespace Lwip

open Blocks

/-! ## Fields -/

section Fields

variable {m : ℕ → UInt8} {a b v : ℕ}

@[simp] theorem load16_store16 (hv : v < 2 ^ 16) : load16 (store16 m a v) a = v := by
  have hne : a ≠ a + 1 := by omega
  rw [load16, store16, Function.update_self, Function.update_of_ne hne, Function.update_self]
  simp
  omega

theorem store16_of_apart (h : b < a ∨ a + 1 < b) : store16 m a v b = m b := by
  rw [store16, Function.update_of_ne (by omega), Function.update_of_ne (by omega)]

theorem load16_store16_of_apart (h : b + 1 < a ∨ a + 1 < b) :
    load16 (store16 m a v) b = load16 m b := by
  rw [load16, store16_of_apart (by omega), store16_of_apart (by omega), load16]

theorem load16_update_of_apart {c : UInt8} (h : b + 1 < a ∨ a < b) :
    load16 (Function.update m a c) b = load16 m b := by
  rw [load16, Function.update_of_ne (by omega), Function.update_of_ne (by omega), load16]

theorem load16_congr {m' : ℕ → UInt8} (h : ∀ x, a ≤ x → x < a + 2 → m' x = m x) :
    load16 m' a = load16 m a := by
  rw [load16, h a (by omega) (by omega), h (a + 1) (by omega) (by omega), load16]

end Fields

/-! ## The chain -/

/-- What the blocks need with their headers. -/
def total (bs : List Blk) : ℕ := demand (Blk.size sizeofStructMem) bs

theorem size_eq (b : Blk) : b.size sizeofStructMem = 8 + b.len := rfl

@[simp] theorem total_nil : total [] = 0 := rfl

@[simp] theorem total_cons (b : Blk) (bs : List Blk) : total (b :: bs) = 8 + b.len + total bs := by
  rw [total, demand_cons, size_eq, total]

@[simp] theorem total_append (bs cs : List Blk) : total (bs ++ cs) = total bs + total cs := by
  rw [total, demand_append, total, total]

theorem total_eq_zero_or (bs : List Blk) : bs = [] ∨ 8 ≤ total bs := by
  cases bs with
  | nil => exact .inl rfl
  | cons b bs =>
    rw [total_cons]
    exact .inr (by omega)

/-- The header at `p`. -/
structure Header (h : Heap) (p next prev : ℕ) (used : Bool) : Prop where
  next_eq : h.next p = next
  prev_eq : h.prev p = prev
  used_eq : h.used p = if used then 1 else 0

/-- Where the last of the blocks starts that lie at `a`; in front of them one starts at `p`. -/
def lastAt (p a : ℕ) : List Blk → ℕ
  | [] => p
  | b :: bs => lastAt a (a + b.size sizeofStructMem) bs

/-- The headers of the blocks at `a`, in front of which a block starts at `p`. -/
def Chain (h : Heap) (p a : ℕ) : List Blk → Prop
  | [] => True
  | b :: bs => Header h a (a + b.size sizeofStructMem) p b.used ∧
      Chain h a (a + b.size sizeofStructMem) bs

section Chain

variable {h h' : Heap} {p a : ℕ} {bs pre post mid : List Blk}

theorem lastAt_append : lastAt p a (pre ++ bs) = lastAt (lastAt p a pre) (a + total pre) bs := by
  induction pre generalizing p a with
  | nil => rw [List.nil_append, lastAt, total_nil, Nat.add_zero]
  | cons b pre ih => rw [List.cons_append, lastAt, lastAt, ih, total_cons, size_eq, Nat.add_assoc]

theorem chain_append : Chain h p a (pre ++ bs) ↔
    Chain h p a pre ∧ Chain h (lastAt p a pre) (a + total pre) bs := by
  induction pre generalizing p a with
  | nil => rw [List.nil_append, Chain, true_and, lastAt, total_nil, Nat.add_zero]
  | cons b pre ih =>
    rw [List.cons_append, Chain, Chain, lastAt, ih, total_cons, size_eq, Nat.add_assoc, and_assoc]

theorem Header.congr {q next prev : ℕ} {used : Bool} (hq : Header h q next prev used)
    (hsame : ∀ x, q ≤ x → x < q + 5 → h'.ram x = h.ram x) : Header h' q next prev used where
  next_eq := (load16_congr fun x hlo hhi => hsame x hlo (by omega)).trans hq.next_eq
  prev_eq := (load16_congr fun x hlo hhi => hsame x (by omega) (by omega)).trans hq.prev_eq
  used_eq := (hsame _ (by omega) (by omega)).trans hq.used_eq

/-- Writes in front of the blocks or behind them do not matter. -/
theorem Chain.congr (hc : Chain h p a bs)
    (hsame : ∀ x, a ≤ x → x < a + total bs → h'.ram x = h.ram x) : Chain h' p a bs := by
  induction bs generalizing p a with
  | nil => trivial
  | cons b bs ih =>
    rw [total_cons] at hsame
    rw [Chain, size_eq] at hc ⊢
    exact ⟨hc.1.congr fun x hlo hhi => hsame x hlo (by omega),
      ih hc.2 fun x hlo hhi => hsame x (by omega) (by omega)⟩

/-- A new block in front: only the first header changes. -/
theorem Chain.rehead {p' : ℕ} (hc : Chain h p a bs)
    (hsame : ∀ x, a ≤ x → x < a + total bs → x ≠ a + 2 → x ≠ a + 3 → h'.ram x = h.ram x)
    (hprev : bs ≠ [] → h'.prev a = p') : Chain h' p' a bs := by
  cases bs with
  | nil => trivial
  | cons b bs =>
    rw [total_cons] at hsame
    rw [Chain, size_eq] at hc ⊢
    obtain ⟨⟨hnext, -, hused⟩, hrest⟩ := hc
    refine ⟨⟨?_, hprev (by simp), ?_⟩, ?_⟩
    · exact (load16_congr fun x hlo hhi =>
        hsame x hlo (by omega) (by omega) (by omega)).trans hnext
    · exact (hsame _ (by omega) (by omega) (by omega) (by omega)).trans hused
    · exact hrest.congr fun x hlo hhi => hsame x (by omega) (by omega) (by omega) (by omega)

end Chain

/-- The heap consists of the blocks `bs`. -/
structure Layout (h : Heap) (bs : List Blk) : Prop where
  total_eq : total bs = memSizeAligned
  chain : Chain h 0 0 bs
  stop_next : h.next memSizeAligned = memSizeAligned
  stop_used : h.used memSizeAligned = 1

section Layout

variable {h h' : Heap} {pre post old new : List Blk}

theorem memSizeAligned_eq : memSizeAligned = 10240 := rfl

/-- Some blocks are replaced by others of the same total size. -/
theorem Layout.replace (hl : Layout h (pre ++ (old ++ post))) (htotal : total new = total old)
    (hfront : ∀ x < total pre, h'.ram x = h.ram x)
    (hbehind : ∀ x, total pre + total old ≤ x → x ≠ total pre + total old + 2 →
      x ≠ total pre + total old + 3 → h'.ram x = h.ram x)
    (hnew : Chain h' (lastAt 0 0 pre) (total pre) new)
    (hprev : post ≠ [] → h'.prev (total pre + total old) =
      lastAt (lastAt 0 0 pre) (total pre) new) : Layout h' (pre ++ (new ++ post)) := by
  obtain ⟨heq, hchain, hnext, hused⟩ := hl
  rw [chain_append, chain_append, Nat.zero_add] at hchain
  obtain ⟨hpre, -, hpost⟩ := hchain
  have hlen : total pre + total old + total post = memSizeAligned := by
    rw [← heq, total_append, total_append, Nat.add_assoc]
  have hpost₀ : total post = 0 ∨ 8 ≤ total post := by
    rcases total_eq_zero_or post with rfl | h
    · exact .inl rfl
    · exact .inr h
  refine ⟨?_, ?_, ?_, ?_⟩
  · rw [total_append, total_append, htotal, ← Nat.add_assoc, hlen]
  · rw [chain_append, chain_append, Nat.zero_add, htotal]
    refine ⟨hpre.congr fun x _ hx => hfront x (by omega), hnew, hpost.rehead ?_ hprev⟩
    exact fun x hlo _ h2 h3 => hbehind x hlo h2 h3
  · refine (load16_congr fun x hlo hhi => hbehind x ?_ ?_ ?_).trans hnext <;> omega
  · exact (hbehind _ (by omega) (by omega) (by omega)).trans hused

theorem Layout.header {b : Blk} (hl : Layout h (pre ++ b :: post)) :
    Header h (total pre) (total pre + (8 + b.len)) (lastAt 0 0 pre) b.used := by
  have hchain := hl.chain
  rw [chain_append, Nat.zero_add] at hchain
  exact hchain.2.1

theorem Layout.total_le {b : Blk} (hl : Layout h (pre ++ b :: post)) :
    total pre + (8 + b.len) + total post = 10240 := by
  rw [← memSizeAligned_eq, ← hl.total_eq, total_append, total_cons]
  omega

/-- The size of the data of a block. -/
theorem Layout.userSize {b : Blk} (hl : Layout h (pre ++ b :: post)) :
    h.userSize (total pre) = b.len := by
  have hle := hl.total_le
  rw [Heap.userSize, hl.header.next_eq, show sizeofStructMem = 8 from rfl]
  omega

/-- Only the end of the heap is behind all blocks. -/
theorem Layout.end_ne (hl : Layout h (pre ++ (old ++ post))) (hpost : post ≠ []) :
    total pre + total old ≠ memSizeAligned := by
  have htotal := hl.total_eq
  rw [total_append, total_append] at htotal
  have hpos := (total_eq_zero_or post).resolve_left hpost
  omega

theorem Layout.total_le' (hl : Layout h (pre ++ (old ++ post))) :
    total pre + total old ≤ memSizeAligned := by
  rw [← hl.total_eq, total_append, total_append]
  omega

end Layout

/-! ## Taking a block -/

/-- From `h` to `h'` only bytes between `lo` and `hi` were written, and `prev` of the header at
`hi`; the rest is the same. -/
structure Writes (h h' : Heap) (lo hi : ℕ) : Prop where
  front : ∀ x < lo, h'.ram x = h.ram x
  behind : ∀ x, hi ≤ x → x ≠ hi + 2 → x ≠ hi + 3 → h'.ram x = h.ram x
  base_eq : h'.base = h.base
  asserts_eq : h'.asserts = h.asserts

theorem Writes.trans {h h' h'' : Heap} {lo hi : ℕ} (hw : Writes h h' lo hi)
    (hw' : Writes h' h'' lo hi) : Writes h h'' lo hi where
  front x hx := (hw'.front x hx).trans (hw.front x hx)
  behind x hx h2 h3 := (hw'.behind x hx h2 h3).trans (hw.behind x hx h2 h3)
  base_eq := hw'.base_eq.trans hw.base_eq
  asserts_eq := hw'.asserts_eq.trans hw.asserts_eq

theorem writes_setUsed {h : Heap} {lo hi mem : ℕ} (v : UInt8) (hlo : lo ≤ mem)
    (hhi : mem + 5 ≤ hi) :
    Writes h (h.setUsed mem v) lo hi where
  front _ hx := Function.update_of_ne (by omega) _ _
  behind _ hx _ _ := Function.update_of_ne (by omega) _ _
  base_eq := rfl
  asserts_eq := rfl

theorem writes_setNext {h : Heap} {lo hi mem : ℕ} (v : ℕ) (hlo : lo ≤ mem) (hhi : mem + 2 ≤ hi) :
    Writes h (h.setNext mem v) lo hi where
  front _ hx := store16_of_apart (by omega)
  behind _ hx _ _ := store16_of_apart (by omega)
  base_eq := rfl
  asserts_eq := rfl

theorem writes_setPrev {h : Heap} {lo hi mem : ℕ} (v : ℕ) (hlo : lo ≤ mem)
    (hhi : mem + 4 ≤ hi ∨ mem = hi) : Writes h (h.setPrev mem v) lo hi where
  front _ hx := store16_of_apart (by omega)
  behind _ hx _ _ := store16_of_apart (by omega)
  base_eq := rfl
  asserts_eq := rfl

section Link

variable {h : Heap} {p q e : ℕ}

/-- A block that is made between `p` and `e`. -/
theorem newBlock_spec (hp : p + 8 ≤ q) (he : q + 8 ≤ e) (hend : e ≤ memSizeAligned) :
    (newBlock h p q e).next p = q ∧ (newBlock h p q e).prev p = h.prev p ∧
      (newBlock h p q e).used p = h.used p ∧ Header (newBlock h p q e) q e p false ∧
      Writes h (newBlock h p q e) p e ∧ (newBlock h p q e).lfree = h.lfree := by
  rw [memSizeAligned_eq] at hend
  have hw : Writes h (newBlock h p q e) p e :=
    (((writes_setUsed 0 (by omega) (by omega)).trans (writes_setNext e (by omega) (by omega))).trans
      (writes_setPrev p (by omega) (by omega))).trans (writes_setNext q (by omega) (by omega))
  refine ⟨load16_store16 (by omega), ?_, ?_, ⟨?_, ?_, ?_⟩, hw, rfl⟩
  all_goals
    simp (disch := omega) only [newBlock, Heap.next, Heap.prev, Heap.used, Heap.setNext,
      Heap.setPrev, Heap.setUsed, load16_store16, load16_store16_of_apart, load16_update_of_apart,
      store16_of_apart, Function.update_of_ne, Function.update_self]
  rfl

end Link

/-- The block behind `q` points back to it. -/
theorem linkBack_spec {h : Heap} {p q e : ℕ} (hp : p ≤ q) (hnext : h.next q = e)
    (hend : e ≤ memSizeAligned) (hq : q < e) :
    Writes h (linkBack h q) p e ∧ (∀ x < e, (linkBack h q).ram x = h.ram x) ∧
      (e ≠ memSizeAligned → (linkBack h q).prev e = q) ∧ (linkBack h q).lfree = h.lfree := by
  rw [memSizeAligned_eq] at hend
  rw [linkBack, hnext]
  split_ifs with he
  · exact ⟨writes_setPrev _ (by omega) (by omega), fun x hx => store16_of_apart (by omega),
      fun _ => load16_store16 (by omega), rfl⟩
  · exact ⟨⟨fun _ _ => rfl, fun _ _ _ _ => rfl, rfl, rfl⟩, fun _ _ => rfl,
      fun h => absurd h he, rfl⟩

/-- Blocks are replaced by one block and a free one behind it. -/
theorem Layout.insert {h h' : Heap} {pre post old : List Blk} {n k : ℕ} {u : Bool}
    (hl : Layout h (pre ++ (old ++ post))) (htotal : 8 + n + (8 + k) = total old)
    (hw : Writes h h' (total pre) (total pre + total old))
    (hfirst : Header h' (total pre) (total pre + (8 + n)) (lastAt 0 0 pre) u)
    (hsecond : Header h' (total pre + (8 + n)) (total pre + total old) (total pre) false)
    (hback : total pre + total old ≠ memSizeAligned →
      h'.prev (total pre + total old) = total pre + (8 + n)) :
    Layout h' (pre ++ ([⟨n, u⟩, ⟨k, false⟩] ++ post)) := by
  refine hl.replace (by simp; omega) hw.front hw.behind ⟨hfirst, ?_, trivial⟩
    fun hpost => hback (hl.end_ne hpost)
  rw [size_eq, size_eq, show total pre + (8 + n) + (8 + k) = total pre + total old by omega]
  exact hsecond

section Take

variable {h : Heap} {pre post : List Blk} {b : Blk}

/-- A block is marked. -/
theorem Layout.setUsed (hl : Layout h (pre ++ b :: post)) (u : Bool) :
    Layout (h.setUsed (total pre) (if u then 1 else 0)) (pre ++ ⟨b.len, u⟩ :: post) := by
  obtain ⟨hnext, hprev, -⟩ := hl.header
  have hl' : Layout h (pre ++ ([b] ++ post)) := hl
  have hw := @writes_setUsed h (total pre) (total pre + total [b]) (total pre)
    (if u then 1 else 0) (by omega) (by simp; omega)
  have hpost : post ≠ [] → h.prev (total pre + total [b]) = total pre := by
    intro hne
    obtain ⟨c, post, rfl⟩ := List.exists_cons_of_ne_nil hne
    have hchain := hl.chain
    rw [chain_append, Nat.zero_add] at hchain
    simpa [size_eq] using hchain.2.2.1.prev_eq
  refine @Layout.replace _ _ _ _ _ [⟨b.len, u⟩] hl' (by simp) hw.front hw.behind
    ⟨⟨?_, ?_, ?_⟩, trivial⟩ ?_
  · exact (load16_update_of_apart (by omega)).trans hnext
  · exact (load16_update_of_apart (by omega)).trans hprev
  · exact Function.update_self _ _ _
  · intro hne
    exact (load16_update_of_apart (by simp; omega)).trans (hpost hne)

theorem takeBlock_spec (n : ℕ) (hl : Layout h (pre ++ b :: post)) :
    Layout (takeBlock h n (total pre)) (pre ++ (place sizeofStructMem minSizeAligned n b ++ post)) ∧
      Writes h (takeBlock h n (total pre)) (total pre) (total pre + (8 + b.len)) ∧
      (takeBlock h n (total pre)).lfree = h.lfree := by
  have hu := hl.userSize
  have hle := hl.total_le
  obtain ⟨hnext, hprev, hused⟩ := hl.header
  by_cases hroom : n + 8 + 12 ≤ b.len
  · have hl' : Layout h (pre ++ ([b] ++ post)) := hl
    have hend := hl'.total_le'
    rw [total_cons, total_nil, Nat.add_zero] at hend
    have hmod : (total pre + 8 + n) % 2 ^ 16 = total pre + (8 + n) := by omega
    have htake : takeBlock h n (total pre) = linkBack ((newBlock h (total pre)
        (total pre + (8 + n)) (total pre + (8 + b.len))).setUsed (total pre) 1)
          (total pre + (8 + n)) := by
      rw [takeBlock, hu, if_pos (by exact hroom), show sizeofStructMem = 8 from rfl, hmod, hnext]
    obtain ⟨hn₁, hp₁, -, hnew, hw₁, hlfree₁⟩ := @newBlock_spec h (total pre) (total pre + (8 + n))
      (total pre + (8 + b.len)) (by omega) (by omega) hend
    have hplace : place sizeofStructMem minSizeAligned n b =
        [⟨n, true⟩, ⟨b.len - (n + 8), false⟩] := if_pos hroom
    rw [htake, hplace]
    generalize newBlock h (total pre) (total pre + (8 + n)) (total pre + (8 + b.len)) = h₁ at *
    have hw₂ := @writes_setUsed h₁ (total pre) (total pre + (8 + b.len)) (total pre) 1 (by omega)
      (by omega)
    have hfirst : Header (h₁.setUsed (total pre) 1) (total pre) (total pre + (8 + n))
        (lastAt 0 0 pre) true :=
      ⟨(load16_update_of_apart (by omega)).trans hn₁,
        (load16_update_of_apart (by omega)).trans (hp₁.trans hprev), Function.update_self _ _ _⟩
    have hsecond : Header (h₁.setUsed (total pre) 1) (total pre + (8 + n))
        (total pre + (8 + b.len)) (total pre) false :=
      hnew.congr fun x hlo _ => Function.update_of_ne (by omega) _ _
    obtain ⟨hw₃, hsame, hback, hlfree⟩ := @linkBack_spec _ (total pre) _ _ (by omega)
      hsecond.next_eq hend (by omega)
    have hw := (hw₁.trans hw₂).trans hw₃
    refine ⟨hl'.insert (by simp; omega) (by simpa using hw) ?_ ?_ (by simpa using hback), hw,
      hlfree.trans hlfree₁⟩
    · exact hfirst.congr fun x _ hx => hsame x (by omega)
    · rw [total_cons, total_nil, Nat.add_zero]
      exact hsecond.congr fun x _ hx => hsame x (by omega)
  · have htake : takeBlock h n (total pre) = h.setUsed (total pre) 1 := by
      rw [takeBlock, hu]
      exact if_neg hroom
    have hplace : place sizeofStructMem minSizeAligned n b = [⟨b.len, true⟩] := if_neg hroom
    rw [htake, hplace]
    exact ⟨hl.setUsed true, writes_setUsed 1 (by omega) (by omega), rfl⟩

end Take

/-- The data of the blocks `bs` that are in use is the same. -/
def Keeps (h h' : Heap) (bs : List Blk) : Prop :=
  ∀ q m, Live sizeofStructMem 0 bs q m → ∀ i < m, h'.ram (q + 8 + i) = h.ram (q + 8 + i)

theorem Keeps.trans {h h' h'' : Heap} {bs : List Blk} (hk : Keeps h h' bs)
    (hk' : Keeps h' h'' bs) : Keeps h h'' bs :=
  fun q m hlive i hi => (hk' q m hlive i hi).trans (hk q m hlive i hi)

/-- Writes to free blocks keep the data of the others. -/
theorem Writes.keeps {h h' : Heap} {pre old post : List Blk}
    (hw : Writes h h' (total pre) (total pre + total old)) (hfree : ∀ b ∈ old, b.used = false) :
    Keeps h h' (pre ++ (old ++ post)) := by
  intro q m hlive i hi
  rw [live_append, live_append, Nat.zero_add] at hlive
  rcases hlive with hlive | hlive | hlive
  · have hend : q + 8 + m ≤ 0 + total pre := hlive.within.2
    exact hw.front _ (by omega)
  · obtain ⟨pre', post', rfl, -⟩ := hlive.split
    cases hfree _ (List.mem_append_right pre' (List.mem_cons_self ..))
  · have hstart : total pre + total old ≤ q := hlive.within.1
    exact hw.behind _ (by omega) (by omega) (by omega)

/-! ## Moving the boundary of a block -/

section Move

variable {h : Heap} {pre post old : List Blk} {n k next : ℕ} {u : Bool}

/-- A free block is made between a block and what is behind. -/
theorem makeBlock_spec (hl : Layout h (pre ++ (old ++ post))) (htotal : 8 + n + (8 + k) = total old)
    (hhead : Header h (total pre) next (lastAt 0 0 pre) u) :
    let h' := linkBack (newBlock h (total pre) (total pre + (8 + n)) (total pre + total old))
      (total pre + (8 + n))
    Layout h' (pre ++ ([⟨n, u⟩, ⟨k, false⟩] ++ post)) ∧
      Writes h h' (total pre) (total pre + total old) ∧ h'.lfree = h.lfree ∧
      ∀ i < n, h'.ram (total pre + 8 + i) = h.ram (total pre + 8 + i) := by
  intro h'
  have hend := hl.total_le'
  obtain ⟨hn₁, hp₁, hu₁, hnew, hw₁, hlfree₁⟩ := @newBlock_spec h (total pre)
    (total pre + (8 + n)) (total pre + total old) (by omega) (by omega) hend
  obtain ⟨hw₂, hsame, hback, hlfree⟩ := @linkBack_spec _ (total pre) _ _ (by omega)
    hnew.next_eq hend (by omega)
  have hw := hw₁.trans hw₂
  have hfirst : Header (newBlock h (total pre) (total pre + (8 + n)) (total pre + total old))
      (total pre) (total pre + (8 + n)) (lastAt 0 0 pre) u :=
    ⟨hn₁, hp₁.trans hhead.prev_eq, hu₁.trans hhead.used_eq⟩
  refine ⟨hl.insert htotal hw ?_ ?_ hback, hw, hlfree.trans hlfree₁, fun i hi => ?_⟩
  · exact hfirst.congr fun x _ hx => hsame x (by omega)
  · exact hnew.congr fun x _ hx => hsame x (by omega)
  · rw [hsame _ (by omega)]
    simp (disch := omega) only [newBlock, Heap.setNext, Heap.setPrev, Heap.setUsed,
      store16_of_apart, Function.update_of_ne]

/-- Two free blocks become one. -/
theorem mergeBlocks_spec {b c : Blk} (hl : Layout h (pre ++ ([b, c] ++ post)))
    (hb : b.used = false) :
    let e := total pre + total [b, c]
    let h' := (h.setNext (total pre) e).setPrev e (total pre)
    Layout h' (pre ++ ([⟨b.len + 8 + c.len, false⟩] ++ post)) ∧ Writes h h' (total pre) e := by
  intro e h'
  have hend := hl.total_le'
  rw [memSizeAligned_eq] at hend
  have htotal : total [b, c] = 8 + b.len + (8 + c.len) := by simp
  have hhead : Header h (total pre) _ (lastAt 0 0 pre) b.used := hl.header
  obtain ⟨-, hprev, hused⟩ := hhead
  have hw : Writes h h' (total pre) e :=
    (writes_setNext e (by omega) (by omega)).trans
      (writes_setPrev (total pre) (by omega) (.inr rfl))
  refine ⟨hl.replace (by simp; omega) hw.front hw.behind ⟨⟨?_, ?_, ?_⟩, trivial⟩ ?_, hw⟩
  · rw [size_eq, show total pre + (8 + (b.len + 8 + c.len)) = e by omega]
    exact (load16_store16_of_apart (by omega)).trans (load16_store16 (by omega))
  · exact (load16_store16_of_apart (by omega)).trans
      ((load16_store16_of_apart (by omega)).trans hprev)
  · exact (store16_of_apart (by omega)).trans
      ((store16_of_apart (by omega)).trans (hused.trans (by rw [hb])))
  · exact fun _ => load16_store16 (by omega)

end Move

/-! ## The blocks and `lfree` -/

/-- The heap consists of the blocks `bs`, in the way in which the operations leave it: no two free
blocks lie side by side, `lfree` is the lowest free one, the sizes are aligned and those in use at
least `MIN_SIZE_ALIGNED`, and no assertion has failed. -/
structure Valid (h : Heap) (bs : List Blk) : Prop where
  layout : Layout h bs
  lfree_eq : h.lfree = lowest sizeofStructMem 0 bs
  spread : Spread bs
  aligned : ∀ b ∈ bs, b.len % 4 = 0
  large : ∀ b ∈ bs, b.used = true → 12 ≤ b.len
  base_mod : h.base % 4 = 0
  asserts_eq : h.asserts = []

/-- What an operation leaves that changes the blocks from `bs` to `bs'`: the data of the blocks in
`kept` is the same, and nothing behind the heap is written. -/
structure Result (h h' : Heap) (bs' kept : List Blk) : Prop where
  valid : Valid h' bs'
  base_eq : h'.base = h.base
  keeps : Keeps h h' kept
  behind : ∀ x, memSizeAligned + 4 ≤ x → h'.ram x = h.ram x

theorem assert_of {h : Heap} {message : String} {p : Prop} [Decidable p] (hp : p) :
    h.assert message p = h := if_pos hp

theorem total_mod {bs : List Blk} (h : ∀ b ∈ bs, b.len % 4 = 0) : total bs % 4 = 0 := by
  induction bs with
  | nil => rfl
  | cons b bs ih =>
    obtain ⟨hb, hbs⟩ := List.forall_mem_cons.mp h
    have hrest := ih hbs
    rw [total_cons]
    omega

/-- What the code checks of the address of a block in use. -/
theorem Valid.block_address {h : Heap} {pre post : List Blk} {n : ℕ}
    (hv : Valid h (pre ++ ⟨n, true⟩ :: post)) :
    (h.base + total pre + sizeofStructMem) % memAlignment = 0 ∧
      (h.base ≤ h.base + total pre + sizeofStructMem ∧
        h.base + total pre + sizeofStructMem < h.base + memSizeAligned) ∧
      ¬(h.base + total pre + sizeofStructMem < h.base ∨
        h.base + memSizeAligned ≤ h.base + total pre + sizeofStructMem) ∧
      ¬h.base + total pre + sizeofStructMem < h.base + sizeofStructMem ∧
      h.base + total pre + sizeofStructMem - sizeofStructMem - h.base = total pre := by
  have hle := hv.layout.total_le
  have hlarge : 12 ≤ n := hv.large ⟨n, true⟩ (by simp) rfl
  have hmod := total_mod fun b hb => hv.aligned b (List.mem_append_left _ hb)
  have hbase := hv.base_mod
  rw [show sizeofStructMem = 8 from rfl, show memAlignment = 4 from rfl, memSizeAligned_eq]
  dsimp only at hle
  refine ⟨?_, ?_, ?_, ?_, ?_⟩ <;> omega

/-! ## `mem_free` -/

section Free

variable {h : Heap} {pre post : List Blk} {b : Blk}

/-- What a part of `plug_holes` leaves. -/
structure Plugged (h h' : Heap) (bs bs' : List Blk) : Prop where
  layout : Layout h' bs'
  lfree_eq : h'.lfree = h.lfree
  base_eq : h'.base = h.base
  asserts_eq : h'.asserts = h.asserts
  keeps : Keeps h h' bs
  behind : ∀ x, memSizeAligned + 4 ≤ x → h'.ram x = h.ram x

theorem Plugged.refl {bs : List Blk} (hl : Layout h bs) : Plugged h h bs bs :=
  ⟨hl, rfl, rfl, rfl, fun _ _ _ _ _ => rfl, fun _ _ => rfl⟩

theorem Plugged.trans {h' h'' : Heap} {bs bs' bs'' : List Blk} (hp : Plugged h h' bs bs')
    (hp' : Plugged h' h'' bs' bs'')
    (hlive : ∀ q m, Live sizeofStructMem 0 bs q m → Live sizeofStructMem 0 bs' q m) :
    Plugged h h'' bs bs'' where
  layout := hp'.layout
  lfree_eq := hp'.lfree_eq.trans hp.lfree_eq
  base_eq := hp'.base_eq.trans hp.base_eq
  asserts_eq := hp'.asserts_eq.trans hp.asserts_eq
  keeps q m hq i hi := (hp'.keeps q m (hlive q m hq) i hi).trans (hp.keeps q m hq i hi)
  behind x hx := (hp'.behind x hx).trans (hp.behind x hx)

/-- Two free blocks are joined. -/
theorem plugged_merge {c : Blk} (hl : Layout h (pre ++ b :: c :: post)) (hb : b.used = false)
    (hc : c.used = false) :
    Plugged h ((h.setNext (total pre) (total pre + total [b, c])).setPrev
      (total pre + total [b, c]) (total pre)) (pre ++ b :: c :: post)
      (pre ++ join sizeofStructMem b (c :: post)) := by
  have hl' : Layout h (pre ++ ([b, c] ++ post)) := hl
  obtain ⟨hlayout, hw⟩ := mergeBlocks_spec hl' hb
  have hend := hl'.total_le'
  refine ⟨?_, rfl, rfl, rfl, hw.keeps (by simp [hb, hc]), fun x hx => ?_⟩
  · rw [join, if_pos ⟨hb, hc⟩]
    exact hlayout
  · exact hw.behind x (by omega) (by omega) (by omega)

theorem plugForward_spec (hl : Layout h (pre ++ b :: post)) (hb : b.used = false)
    (hlow : h.lfree ≤ total pre) :
    Plugged h (plugForward h (total pre)) (pre ++ b :: post)
      (pre ++ join sizeofStructMem b post) := by
  have hnext := hl.header.next_eq
  rw [plugForward, hnext]
  cases post with
  | nil =>
    have hend := hl.total_le
    rw [if_neg fun h' => h'.2.2 (by rw [memSizeAligned_eq, ← hend, total_nil, Nat.add_zero])]
    exact .refl hl
  | cons c post =>
    have hl' : Layout h ((pre ++ [b]) ++ c :: post) := by simpa using hl
    obtain ⟨hnext', -, hused⟩ := hl'.header
    have hpos : total (pre ++ [b]) = total pre + (8 + b.len) := by simp
    have hend : total pre + (8 + b.len) ≠ memSizeAligned := by
      have hle := hl.total_le
      rw [total_cons] at hle
      rw [memSizeAligned_eq]
      omega
    rw [hpos] at hnext' hused
    cases hc : c.used with
    | true =>
      rw [hc] at hused
      rw [join_of_apart (.inr hc), if_neg fun h' => absurd (hused.symm.trans h'.2.1) (by decide)]
      exact .refl hl
    | false =>
      rw [hc] at hused
      have hlow' : h.lfree ≠ total pre + (8 + b.len) := by omega
      rw [if_pos ⟨by omega, hused, hend⟩, if_neg hlow']
      have hread : (h.setNext (total pre) (h.next (total pre + (8 + b.len)))).next
          (total pre + (8 + b.len)) = h.next (total pre + (8 + b.len)) :=
        load16_store16_of_apart (by omega)
      dsimp only
      rw [hread, hnext', show total pre + (8 + b.len) + (8 + c.len) =
        total pre + total [b, c] by simp; omega]
      exact plugged_merge hl hb hc

/-- Behind the first block, `plug_holes` joins with the block in front. -/
theorem plugBackward_spec {c : Blk} (hl : Layout h (pre ++ c :: b :: post)) (hb : b.used = false)
    (hlow : h.lfree ≤ total pre ∨ c.used = true) :
    Plugged h (plugBackward h (total (pre ++ [c]))) (pre ++ c :: b :: post)
      (pre ++ join sizeofStructMem c (b :: post)) := by
  have hl' : Layout h ((pre ++ [c]) ++ b :: post) := by simpa using hl
  obtain ⟨hnext, hprev, hused⟩ := hl'.header
  have hused' := hl.header.used_eq
  have hpos : total (pre ++ [c]) = total pre + (8 + c.len) := by simp
  rw [lastAt_append, lastAt, lastAt, Nat.zero_add] at hprev
  rw [hpos] at hnext hprev hused ⊢
  rw [plugBackward, hprev]
  cases hc : c.used with
  | true =>
    rw [hc] at hused'
    rw [join_of_apart (.inl hc), if_neg fun h' => absurd (hused'.symm.trans h'.2) (by decide)]
    exact .refl hl
  | false =>
    rw [hc] at hused'
    have hlow' : h.lfree ≠ total pre + (8 + c.len) := by
      rcases hlow with hlow | hlow
      · omega
      · rw [hc] at hlow
        cases hlow
    rw [if_pos ⟨by omega, hused'⟩, if_neg hlow']
    have hread : (h.setNext (total pre) (h.next (total pre + (8 + c.len)))).next
        (total pre + (8 + c.len)) = h.next (total pre + (8 + c.len)) :=
      load16_store16_of_apart (by omega)
    dsimp only
    rw [hread, hnext, show total pre + (8 + c.len) + (8 + b.len) =
      total pre + total [c, b] by simp; omega]
    exact plugged_merge hl hc hb

theorem Layout.setLfree {bs : List Blk} (hl : Layout h bs) (p : ℕ) :
    Layout (h.setLfree p) bs :=
  ⟨hl.total_eq, hl.chain.congr fun _ _ _ => rfl, hl.stop_next, hl.stop_used⟩

theorem aligned_join {bs : List Blk} (hb : b.len % 4 = 0) (hbs : ∀ c ∈ bs, c.len % 4 = 0) :
    ∀ c ∈ join sizeofStructMem b bs, c.len % 4 = 0 := by
  cases bs with
  | nil => simpa [join] using hb
  | cons c bs =>
    obtain ⟨hc, hrest⟩ := List.forall_mem_cons.mp hbs
    rw [join]
    split_ifs
    · have hsum : (b.len + 8 + c.len) % 4 = 0 := by omega
      exact List.forall_mem_cons.mpr ⟨hsum, hrest⟩
    · exact List.forall_mem_cons.mpr ⟨hb, hbs⟩

theorem aligned_free {p a : ℕ} {bs : List Blk} (hbs : ∀ c ∈ bs, c.len % 4 = 0) :
    ∀ c ∈ free sizeofStructMem p a bs, c.len % 4 = 0 := by
  induction bs generalizing a with
  | nil => exact hbs
  | cons b bs ih =>
    obtain ⟨hb, hrest⟩ := List.forall_mem_cons.mp hbs
    rw [free]
    split_ifs
    · exact aligned_join hb hrest
    · exact aligned_join hb (ih hrest)

theorem large_iff_live {bs : List Blk} :
    (∀ b ∈ bs, b.used = true → 12 ≤ b.len) ↔ ∀ q m, Live sizeofStructMem 0 bs q m → 12 ≤ m := by
  constructor
  · intro h q m hlive
    obtain ⟨pre, post, rfl, -⟩ := hlive.split
    exact h ⟨m, true⟩ (by simp) rfl
  · intro h b hb hused
    obtain ⟨pre, post, rfl⟩ := List.append_of_mem hb
    refine h (0 + total pre) b.len ?_
    rw [live_append, live_cons]
    exact .inr (.inl ⟨by rw [← hused], rfl⟩)

/-- The block is marked as free, and `lfree` may be this block now. -/
theorem markFree_spec {h₂ : Heap} {n : ℕ} (hv : Valid h (pre ++ ⟨n, true⟩ :: post))
    (hh₂ : h₂ = if total pre < (h.setUsed (total pre) 0).lfree then
      (h.setUsed (total pre) 0).setLfree (total pre) else h.setUsed (total pre) 0) :
    Layout h₂ (pre ++ ⟨n, false⟩ :: post) ∧
      h₂.lfree = lowest sizeofStructMem 0 (pre ++ ⟨n, false⟩ :: post) ∧
      h₂.base = h.base ∧ h₂.asserts = h.asserts ∧ h₂.ram = (h.setUsed (total pre) 0).ram := by
  have hl₁ : Layout (h.setUsed (total pre) 0) (pre ++ ⟨n, false⟩ :: post) :=
    hv.layout.setUsed false
  have hold : (h.setUsed (total pre) 0).lfree =
      lowest sizeofStructMem 0 (pre ++ ⟨n, true⟩ :: post) := hv.lfree_eq
  rw [@lowest_freed sizeofStructMem 0 ⟨n, false⟩ ⟨n, true⟩ post pre (by decide) rfl rfl,
    Nat.zero_add, ← hold, hh₂]
  change _ ∧ _ = (if total pre < (h.setUsed (total pre) 0).lfree then _ else _) ∧ _
  split_ifs
  · exact ⟨hl₁.setLfree _, rfl, rfl, rfl, rfl⟩
  · exact ⟨hl₁, rfl, rfl, rfl, rfl⟩

/-- Then it is joined with its neighbours. -/
theorem free_spec {h₂ : Heap} {n : ℕ} (hs : Spread (pre ++ ⟨n, true⟩ :: post))
    (hl₂ : Layout h₂ (pre ++ ⟨n, false⟩ :: post))
    (hlow : h₂.lfree = lowest sizeofStructMem 0 (pre ++ ⟨n, false⟩ :: post)) :
    Plugged h₂ (plugBackward (plugForward h₂ (total pre)) (total pre))
      (pre ++ ⟨n, false⟩ :: post) (free sizeofStructMem (total pre) 0 (pre ++ ⟨n, true⟩ :: post)) ∧
    h₂.lfree =
      lowest sizeofStructMem 0 (free sizeofStructMem (total pre) 0 (pre ++ ⟨n, true⟩ :: post)) := by
  have hle : h₂.lfree ≤ total pre := by
    rw [hlow, ← Nat.zero_add (total pre)]
    exact lowest_le_free rfl
  have hforward := plugForward_spec hl₂ rfl hle
  obtain ⟨d, ds, hjoin, hused⟩ := @join_eq_cons sizeofStructMem ⟨n, false⟩ post
  rw [hjoin] at hforward
  rcases List.eq_nil_or_concat pre with rfl | ⟨pre', c, rfl⟩
  · -- nothing lies in front of the first block
    have hprev : (plugForward h₂ 0).prev 0 = 0 := hforward.layout.header.prev_eq
    have hback : plugBackward (plugForward h₂ 0) 0 = plugForward h₂ 0 := by
      rw [plugBackward, hprev]
      exact if_neg fun h' => h'.1 rfl
    have hfree : free sizeofStructMem 0 0 ([] ++ ⟨n, true⟩ :: post) = d :: ds :=
      free_cons.trans hjoin
    rw [total_nil, hfree, hback, hlow]
    refine ⟨hforward, ?_⟩
    rw [List.nil_append, lowest_cons_free rfl, lowest_cons_free hused]
  · rw [List.concat_eq_append] at *
    have happ (bs : List Blk) : pre' ++ [c] ++ bs = pre' ++ c :: bs := by simp
    have hs' : Spread (pre' ++ [c]) := (List.isChain_append.mp hs).1
    have hfree : free sizeofStructMem (total (pre' ++ [c])) 0 (pre' ++ [c] ++ ⟨n, true⟩ :: post) =
        pre' ++ join sizeofStructMem c (d :: ds) := by
      have heq := @free_append sizeofStructMem 0 ⟨n, true⟩ c pre' post (by decide) hs'
      rw [Nat.zero_add] at heq
      rw [happ, ← hjoin]
      exact heq
    rw [hfree]
    rw [happ, happ] at hforward
    rw [happ] at hlow ⊢
    have hlow' : h₂.lfree ≤ total pre' ∨ c.used = true := by
      cases hc : c.used with
      | true => exact .inr rfl
      | false =>
        refine .inl ?_
        rw [hlow, ← Nat.zero_add (total pre')]
        exact lowest_le_free hc
    have hbackward := plugBackward_spec hforward.layout hused
      (hlow'.imp_left hforward.lfree_eq.le.trans)
    refine ⟨hforward.trans hbackward fun q m hq => ?_, ?_⟩
    · rw [← happ, ← hjoin, live_append, live_join, ← live_append, happ]
      exact hq
    · rw [hlow]
      cases hc : c.used with
      | true =>
        rw [join_of_apart (.inl hc), ← happ (⟨n, false⟩ :: post), ← happ (d :: ds)]
        exact @lowest_free_congr sizeofStructMem 0 ⟨n, false⟩ d post (pre' ++ [c]) ds rfl hused
      | false =>
        obtain ⟨e, es, hjoin', hused'⟩ := @join_eq_cons sizeofStructMem c (d :: ds)
        rw [hjoin']
        exact lowest_free_congr hc (hused'.trans hc)

/-- **`mem_free`** frees the block. -/
theorem memFree_refines {bs : List Blk} {q n : ℕ} (hv : Valid h bs)
    (hlive : Live sizeofStructMem 0 bs q n) :
    ∃ h', memFree h (h.base + q + sizeofStructMem) = some h' ∧
      Result h h' (free sizeofStructMem q 0 bs) (free sizeofStructMem q 0 bs) := by
  obtain ⟨pre, post, rfl, hq⟩ := hlive.split
  obtain rfl : q = total pre := hq.trans (Nat.zero_add _)
  obtain ⟨halign, hlegal, hout, hfront, hmem⟩ := hv.block_address
  have hused : h.used (total pre) ≠ 0 := by
    rw [hv.layout.header.used_eq]
    simp
  have hnull : h.base + total pre + sizeofStructMem ≠ null := Nat.succ_ne_zero _
  generalize hh₂ : (if total pre < (h.setUsed (total pre) 0).lfree then
    (h.setUsed (total pre) 0).setLfree (total pre) else h.setUsed (total pre) 0) = h₂
  obtain ⟨hl₂, hlow, hbase, hasserts, hram⟩ := markFree_spec hv hh₂.symm
  obtain ⟨hplugged, hlow'⟩ := free_spec hv.spread hl₂ hlow
  have hle : total pre + (8 + n) + total post = 10240 := hl₂.total_le
  have hbelow : total pre < memSizeAligned := by
    rw [memSizeAligned_eq]
    omega
  have hunused : h₂.used (total pre) = 0 := hl₂.header.used_eq
  have hnext : h₂.next (total pre) ≤ memSizeAligned := by
    rw [hl₂.header.next_eq, memSizeAligned_eq]
    dsimp only
    omega
  have hrun : memFree h (h.base + total pre + sizeofStructMem) =
      some (plugBackward (plugForward h₂ (total pre)) (total pre)) := by
    simp only [memFree, if_neg hnull, assert_of halign, assert_of hlegal, if_neg hout,
      if_neg hfront, hmem, assert_of hused, hh₂, plugHoles, assert_of hbelow, assert_of hunused,
      assert_of hnext]
  have hw : Writes h h₂ (total pre) (total pre + total [⟨n, false⟩]) := by
    have hset := @writes_setUsed h (total pre) (total pre + total [⟨n, false⟩]) (total pre) 0
      (Nat.le_refl _) (by simp; omega)
    exact ⟨hram ▸ hset.front, hram ▸ hset.behind, hbase, hasserts⟩
  have hkeeps : Keeps h h₂ (pre ++ ([⟨n, false⟩] ++ post)) := hw.keeps (by simp)
  refine ⟨_, hrun, ⟨hplugged.layout, hplugged.lfree_eq.trans hlow', spread_free hv.spread,
    aligned_free hv.aligned, ?_, ?_, ?_⟩, hplugged.base_eq.trans hbase, fun q m hq => ?_,
    fun x hx => ?_⟩
  · rw [large_iff_live]
    exact fun q m hq =>
      large_iff_live.mp hv.large q m ((live_free (by decide)).mp hq).1
  · rw [hplugged.base_eq, hbase]
    exact hv.base_mod
  · rw [hplugged.asserts_eq, hasserts]
    exact hv.asserts_eq
  · obtain ⟨hold, hne⟩ := (live_free (by decide)).mp hq
    have hq' : Live sizeofStructMem 0 (pre ++ ⟨n, false⟩ :: post) q m := by
      rw [live_append, live_cons] at hold ⊢
      rcases hold with hold | ⟨-, rfl⟩ | hold
      · exact .inl hold
      · exact absurd (Nat.zero_add (total pre)) hne
      · exact .inr (.inr hold)
    exact fun i hi => (hplugged.keeps q m hq' i hi).trans (hkeeps q m hq' i hi)
  · rw [hplugged.behind x hx]
    exact hw.behind x (by rw [memSizeAligned_eq] at hx; simp; omega)
      (by rw [memSizeAligned_eq] at hx; simp; omega) (by rw [memSizeAligned_eq] at hx; simp; omega)

end Free

end Lwip

end Enc28j60Udp
