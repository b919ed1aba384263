import Enc28j60Udp.Malloc.Session
import Mathlib.Algebra.Order.BigOperators.Group.Finset

/-!
# Runs of the allocator

The runs of a pool that start with `my_mem_init` and go on with any `mymalloc` and `myfree` calls
of its caller. `Sound` says what a caller relies on in every state of such a run; it is the
invariant `Overlay` over a cleared table, read off the code.

A request of more than `65535` blocks (`maxRequest`) but less than `2 ^ 21` bytes has a block
count of `65536`, which the `u16` variable `nmemb` holds as `0`: the scan then accepts the first
used cell it meets. `soundStep_iff` shows that this is the only step that breaks `Sound`, and that
it breaks it whenever something is allocated.
-/

namespace Enc28j60Udp

/-- The calls a caller makes: requests of `1` to `2 ^ 21 - 1` bytes, and frees. -/
def Call.Admissible : Call → Prop
  | .malloc size => 0 < size ∧ size < 2 ^ 21
  | .free _ => True

/-- An admissible call. -/
abbrev PoolCall := { c : Call // c.Admissible }

section Sound

variable (P : Placement) (x : MemX)

/-- One call of a run. -/
def poolStep (s : Session) (c : PoolCall) : Session := callStep P x s c.1

/-- The pool after `my_mem_init`. -/
def afterInit (d : MallcoDev) : Session := ⟨(Prog.run memStep (myMemInit P x) d).2, []⟩

/-- The blocks held by the caller. -/
def usedBlocks (s : Session) : ℕ := (s.live.map fun a => blocks a.size).sum

/-- What holds of a pool and its live allocations. -/
structure Sound (s : Session) : Prop where
  rdy : s.dev.memrdy = true
  pos : ∀ a ∈ s.live, 0 < a.size
  /-- Live allocations are whole blocks inside the table. -/
  inTable : ∀ a ∈ s.live, a.ptr = blockAddr P x (a.first P x) ∧
    a.first P x + blocks a.size ≤ memtblsize x
  /-- They are pairwise disjoint. -/
  disjoint : s.live.Pairwise fun a b => Disjoint (a.cells P x) (b.cells P x)
  /-- A live cell holds the block count of its allocation. -/
  held : ∀ a ∈ s.live, ∀ i ∈ a.cells P x, s.dev.memmap i = blocks a.size
  /-- Every other cell of the table is `0`. -/
  free : ∀ i < memtblsize x, (∀ a ∈ s.live, i ∉ a.cells P x) → s.dev.memmap i = 0
  /-- A free clears its own range and nothing else. -/
  clears : ∀ (i : ℕ) (a : Alloc), s.live[i]? = some a →
    (callStep P x s (.free i)).dev.memmap = clear s.dev.memmap (a.cells P x)
  /-- `my_mem_perused` is the percentage of held blocks. -/
  perused : (Prog.run memStep (myMemPerused x) s.dev).1 =
    some (100 * usedBlocks s / memtblsize x)
  /-- With nothing held, the map is all zero. -/
  drained : s.live = [] → ∀ i < memtblsize x, s.dev.memmap i = 0

/-- The guard of a call: a `mymalloc` has a block count that fits, or the pool is empty. -/
def FitsCount (s : Session) (c : PoolCall) : Prop :=
  ∀ size, c.1 = .malloc size → size ≤ maxRequest ∨ s.live = []

variable {P x} {s : Session}

theorem Alloc.cells_subset {a : Alloc} {n : ℕ} (h : a.first P x + blocks a.size ≤ n) :
    a.cells P x ⊆ Finset.range n := by
  intro i hi
  rw [Alloc.mem_cells] at hi
  exact Finset.mem_range.mpr (by omega)

/-- Disjoint allocations cover as many cells as they have blocks. -/
theorem sum_covered (n : ℕ) (l : List Alloc)
    (hd : l.Pairwise fun a b => Disjoint (a.cells P x) (b.cells P x))
    (hl : ∀ a ∈ l, a.first P x + blocks a.size ≤ n) :
    (∑ i ∈ Finset.range n, if ∃ a ∈ l, i ∈ a.cells P x then 1 else 0) =
      (l.map fun a => blocks a.size).sum := by
  induction l with
  | nil => simp
  | cons a l ih =>
    obtain ⟨ha, hd⟩ := List.pairwise_cons.mp hd
    obtain ⟨hla, hl⟩ := List.forall_mem_cons.mp hl
    have hsplit : ∀ i, (if ∃ b ∈ a :: l, i ∈ b.cells P x then 1 else 0) =
        (if i ∈ a.cells P x then 1 else 0) + if ∃ b ∈ l, i ∈ b.cells P x then 1 else 0 := by
      intro i
      by_cases hi : i ∈ a.cells P x
      · have hn : ¬∃ b ∈ l, i ∈ b.cells P x := fun ⟨b, hb, hib⟩ =>
          Finset.disjoint_left.mp (ha b hb) hi hib
        rw [if_pos ⟨a, List.mem_cons_self, hi⟩, if_pos hi, if_neg hn]
      · rw [if_neg hi, Nat.zero_add]
        simp only [List.mem_cons, exists_eq_or_imp, hi, false_or]
    have hcard : (∑ i ∈ Finset.range n, if i ∈ a.cells P x then 1 else 0) = blocks a.size := by
      rw [Finset.sum_ite_mem, Finset.inter_eq_right.mpr (Alloc.cells_subset hla),
        ← Finset.card_eq_sum_ones, Alloc.cells, Nat.card_Ico, Nat.add_sub_cancel_left]
    simp only [hsplit, Finset.sum_add_distrib, hcard, ih hd hl, List.map_cons, List.sum_cons]

theorem usedBlocks_le (hd : s.live.Pairwise fun a b => Disjoint (a.cells P x) (b.cells P x))
    (hl : ∀ a ∈ s.live, a.first P x + blocks a.size ≤ memtblsize x) :
    usedBlocks s ≤ memtblsize x := by
  rw [usedBlocks, ← sum_covered _ _ hd hl]
  calc (∑ i ∈ Finset.range (memtblsize x), if ∃ a ∈ s.live, i ∈ a.cells P x then 1 else 0)
      ≤ ∑ i ∈ Finset.range (memtblsize x), 1 :=
        Finset.sum_le_sum fun i _ => by split <;> omega
    _ = memtblsize x := by rw [← Finset.card_eq_sum_ones, Finset.card_range]

namespace Sound

/-- A sound pool is an overlay over its table with the live cells cleared. -/
theorem overlay (h : Sound P x s) :
    Overlay P x (fun i => if i < memtblsize x then 0 else s.dev.memmap i) s where
  rdy := h.rdy
  pos a ha := blocks_pos (h.pos a ha)
  inTable := h.inTable
  disjoint := h.disjoint
  held := h.held
  wasFree a ha i hi := by
    have := (h.inTable a ha).2
    rw [Alloc.mem_cells] at hi
    exact if_pos (by omega)
  rest i hi := by
    split
    · exact h.free i ‹_› hi
    · rfl

/-- An overlay over a table of zeros is a sound pool. -/
theorem of_overlay {base : ℕ → ℕ} (hbase : ∀ i < memtblsize x, base i = 0)
    (h : Overlay P x base s) (hpos : ∀ a ∈ s.live, 0 < a.size) : Sound P x s where
  rdy := h.rdy
  pos := hpos
  inTable := h.inTable
  disjoint := h.disjoint
  held := h.held
  free i hi hc := (h.rest i hc).trans (hbase i hi)
  clears i a hi := by rw [h.callStep_free hi]
  perused := by
    have hin : ∀ a ∈ s.live, a.first P x + blocks a.size ≤ memtblsize x := fun a ha =>
      (h.inTable a ha).2
    have hcell : ∀ i ∈ Finset.range (memtblsize x), (if s.dev.memmap i ≠ 0 then 1 else 0) =
        if ∃ a ∈ s.live, i ∈ a.cells P x then 1 else 0 := by
      intro i hi
      by_cases hc : ∃ a ∈ s.live, i ∈ a.cells P x
      · obtain ⟨a, ha, hia⟩ := hc
        have := h.held a ha i hia
        have := h.pos a ha
        rw [if_pos (by omega), if_pos ⟨a, ha, hia⟩]
      · rw [if_neg hc, if_neg]
        simp only [not_exists, not_and] at hc
        exact not_not.mpr ((h.rest i hc).trans (hbase i (Finset.mem_range.mp hi)))
    have hle := usedBlocks_le h.disjoint hin
    have hT := memtblsize_pos x
    have hpct : usedBlocks s * 100 / memtblsize x ≤ 100 :=
      Nat.div_le_of_le_mul (Nat.mul_le_mul_right 100 hle)
    rw [run_myMemPerused, Finset.sum_congr rfl hcell, sum_covered _ _ h.disjoint hin, ← usedBlocks,
      Nat.mod_eq_of_lt (by omega), Nat.mul_comm 100]
  drained hl i hi := (h.rest i (by simp [hl])).trans (hbase i hi)

/-- `my_mem_init` gives a sound pool. -/
theorem afterInit (d : MallcoDev) : Sound P x (afterInit P x d) := by
  obtain ⟨mem, h⟩ := run_myMemInit P x d
  have hs : Enc28j60Udp.afterInit P x d =
      ⟨⟨fill d.memmap 0 (memtblsize x) 0, true, mem⟩, []⟩ := by
    rw [Enc28j60Udp.afterInit, h]
  rw [hs]
  exact of_overlay (fun i hi => fill_of_mem (by omega))
    (Overlay.start (d := ⟨fill d.memmap 0 (memtblsize x) 0, true, mem⟩) rfl) (by simp)

/-- A free keeps a pool sound. -/
theorem step_free (h : Sound P x s) (i : ℕ) : Sound P x (callStep P x s (.free i)) := by
  refine of_overlay (fun j hj => if_pos hj) (h.overlay.free i) fun a ha => ?_
  cases hi : s.live[i]? with
  | none =>
    rw [callStep_free_of_none hi] at ha
    exact h.pos a ha
  | some b =>
    rw [h.overlay.callStep_free hi] at ha
    exact h.pos a ((List.eraseIdx_sublist s.live i).subset ha)

/-- A request that fits keeps a pool sound. -/
theorem step_malloc (h : Sound P x s) {size : ℕ} (hpos : 0 < size) (hs : size ≤ maxRequest) :
    Sound P x (callStep P x s (.malloc size)) := by
  refine of_overlay (fun j hj => if_pos hj) (h.overlay.malloc hs) fun a ha => ?_
  cases hg : grant x s.dev.memmap size with
  | none =>
    rw [callStep_malloc_of_none h.rdy hg] at ha
    exact h.pos a ha
  | some o =>
    rw [callStep_malloc_of_some h.rdy hg] at ha
    rcases List.mem_cons.mp ha with rfl | ha
    · exact hpos
    · exact h.pos a ha

/-- A request whose count wraps to `0` is refused by an empty pool. -/
theorem callStep_wrapped_of_empty (h : Sound P x s) {size : ℕ} (hs : maxRequest < size)
    (hs' : size < 2 ^ 21) (hl : s.live = []) : callStep P x s (.malloc size) = s := by
  have hT := memtblsize_lt x
  refine callStep_malloc_of_none h.rdy ?_
  rw [grant, if_neg (by omega), nmembOf_of_gt x hs hs']
  rcases scan_zero (m := s.dev.memmap) (k := memtblsize x) (c := 0) (by omega) with
    ⟨h1, -⟩ | ⟨o, ho, -, h2⟩
  · exact h1
  · exact absurd (h.drained hl o ho) h2

/-- A request whose count wraps to `0` breaks a pool in which something is allocated: the caller
gets the address of a used cell, for more blocks than the table has. -/
theorem not_sound_of_wrapped (h : Sound P x s) {size : ℕ} (hs : maxRequest < size)
    (hs' : size < 2 ^ 21) (hl : s.live ≠ []) : ¬Sound P x (callStep P x s (.malloc size)) := by
  have hT := memtblsize_lt x
  obtain ⟨a, ha⟩ := List.exists_mem_of_ne_nil _ hl
  obtain ⟨hlt, hcell⟩ := h.overlay.memmap_first ha
  have hpos := blocks_pos (h.pos a ha)
  intro hbad
  rcases scan_zero (m := s.dev.memmap) (k := memtblsize x) (c := 0) (by omega) with
    ⟨-, h1⟩ | ⟨o, -, h1, -⟩
  · have := h1 _ hlt
    omega
  · have hg : grant x s.dev.memmap size = some o := by
      rw [grant, if_neg (by omega), nmembOf_of_gt x hs hs', h1]
    rw [callStep_malloc_of_some h.rdy hg] at hbad
    have hin : o + blocks size ≤ memtblsize x := by
      simpa using (hbad.inTable _ List.mem_cons_self).2
    unfold blocks maxRequest at *
    omega

end Sound

/-- The step lemma: a sound pool stays sound exactly when the call meets the guard. -/
theorem soundStep_iff (h : Sound P x s) (c : PoolCall) :
    Sound P x (poolStep P x s c) ↔ FitsCount s c := by
  obtain ⟨c, hc⟩ := c
  cases c with
  | free i => exact iff_of_true (h.step_free i) fun size hf => by simp at hf
  | malloc size =>
    by_cases hs : size ≤ maxRequest
    · refine iff_of_true (h.step_malloc hc.1 hs) fun size' hf => Or.inl ?_
      obtain rfl := Call.malloc.inj hf
      exact hs
    · by_cases hl : s.live = []
      · refine iff_of_true ?_ fun _ _ => Or.inr hl
        change Sound P x (callStep P x s (.malloc size))
        rw [h.callStep_wrapped_of_empty (not_le.mp hs) hc.2 hl]
        exact h
      · refine iff_of_false (h.not_sound_of_wrapped (not_le.mp hs) hc.2 hl) fun hf => ?_
        exact (hf size rfl).elim hs hl

/-- **The allocator invariant.** From `my_mem_init`, the runs that stay sound are those in which
no `mymalloc` asks for more than `65535` blocks while something is allocated. -/
theorem pool_sound_iff (P : Placement) (x : MemX) (d : MallcoDev) (cs : List PoolCall) :
    Runs.Always (poolStep P x) (Sound P x) (afterInit P x d) cs ↔
      Runs.Along (poolStep P x) FitsCount (afterInit P x d) cs :=
  Runs.always_iff_along (fun _ c h => soundStep_iff h c) (Sound.afterInit d)

/-- The allocator data as the loader leaves it. -/
def zeroDev : MallcoDev := ⟨fun _ => 0, false, fun _ => 0⟩

/-- `mymalloc(SRAMIN, 32)` and then `mymalloc(SRAMIN, 2 ^ 21 - 1)`. -/
def wrappedRun : List PoolCall :=
  [⟨.malloc 32, by decide, by decide⟩, ⟨.malloc 2097151, by decide, by decide⟩]

theorem wrappedRun_not_sound :
    ¬Runs.Always (poolStep imagePlacement .sramin) (Sound imagePlacement .sramin)
      (afterInit imagePlacement .sramin zeroDev) wrappedRun := by
  rw [wrappedRun, Runs.always_cons, Runs.always_cons, Runs.always_nil]
  rintro ⟨-, h1, h2⟩
  have hbig : maxRequest < 2097151 := by decide
  refine h1.not_sound_of_wrapped hbig (by omega) ?_ h2
  have h0 := Sound.afterInit (P := imagePlacement) (x := .sramin) zeroDev
  obtain ⟨o, hg⟩ : ∃ o, grant .sramin (afterInit imagePlacement .sramin zeroDev).dev.memmap 32 =
      some o :=
    exists_grant_of_free .sramin (o := 0) (by decide) (by decide) (by decide)
      fun i _ hi => h0.drained rfl i (Nat.lt_trans hi (by decide))
  change (callStep imagePlacement .sramin _ (.malloc 32)).live ≠ []
  rw [callStep_malloc_of_some h0.rdy hg]
  exact List.cons_ne_nil _ _

end Sound

end Enc28j60Udp
