import Enc28j60Udp.Malloc.Model
import Mathlib.Algebra.BigOperators.Intervals

/-!
# What the allocator's calls do

The uninterrupted calls as functions of the table: a grant fills a range of cells (`fill`) found
by the pure scan `scan`, a free clears the range that the count in its first cell describes.

`scan_some` and `scan_none` say what the scan finds when the block count is positive: a run of
free cells, and nothing only when there is none. `scan_zero` is the case of a block count that
wrapped to `0` in its `u16`: the scan then stops at the highest used cell.
-/

namespace Enc28j60Udp

/-- The table after the cells `o, …, o + n - 1` are set to `v`. -/
def fill (m : ℕ → ℕ) (o n v : ℕ) : ℕ → ℕ := fun i => if o ≤ i ∧ i < o + n then v else m i

theorem fill_of_mem {m : ℕ → ℕ} {o n v i : ℕ} (h : o ≤ i ∧ i < o + n) : fill m o n v i = v :=
  if_pos h

theorem fill_of_not_mem {m : ℕ → ℕ} {o n v i : ℕ} (h : ¬(o ≤ i ∧ i < o + n)) :
    fill m o n v i = m i := if_neg h

theorem fill_zero (m : ℕ → ℕ) (o v : ℕ) : fill m o 0 v = m := by
  funext i
  exact fill_of_not_mem (by omega)

theorem fill_update (m : ℕ → ℕ) (o n v : ℕ) :
    fill (Function.update m o v) (o + 1) n v = fill m o (n + 1) v := by
  funext i
  by_cases h : o + 1 ≤ i ∧ i < o + 1 + n
  · rw [fill_of_mem h, fill_of_mem (by omega)]
  · rw [fill_of_not_mem h]
    by_cases hi : i = o
    · rw [hi, Function.update_self, fill_of_mem (by omega)]
    · rw [Function.update_of_ne hi, fill_of_not_mem (by omega)]

/-- The loops that write one value into consecutive cells. -/
theorem run_forFrom_wrMap (v o n : ℕ) (d : MallcoDev) :
    Prog.run memStep (Prog.forFrom (fun i => wrMap i v) o n) d =
      (some (), { d with memmap := fill d.memmap o n v }) := by
  induction n generalizing o d with
  | zero => simp only [Prog.forFrom, Prog.run_ret, fill_zero]
  | succ n ih =>
    rw [Prog.forFrom, run_wrMap_bind, ← fill_update]
    exact ih _ _

/-- The pool bytes after `mymemset(membase, 0, n)`. -/
theorem run_forFrom_wrByte (a i n : ℕ) (d : MallcoDev) :
    ∃ mem, Prog.run memStep (Prog.forFrom (fun i => wrByte (a + i) 0) i n) d =
      (some (), { d with mem := mem }) := by
  induction n generalizing i d with
  | zero => exact ⟨d.mem, rfl⟩
  | succ n ih =>
    obtain ⟨mem, h⟩ := ih (i + 1) { d with mem := Function.update d.mem (a + i) 0 }
    exact ⟨mem, h⟩

section Calls

variable (P : Placement) (x : MemX)

/-- `my_mem_init` clears the table and marks the pool ready. -/
theorem run_myMemInit (d : MallcoDev) : ∃ mem, Prog.run memStep (myMemInit P x) d =
    (some (), { memmap := fill d.memmap 0 (memtblsize x) 0, memrdy := true, mem := mem }) := by
  obtain ⟨mem, h⟩ := run_forFrom_wrByte (P.membase x) 0 (memsize x)
    { d with memmap := fill d.memmap 0 (memtblsize x) 0 }
  refine ⟨mem, ?_⟩
  rw [myMemInit, Prog.run_bind_of _ (run_forFrom_wrMap 0 0 (memtblsize x) d),
    Prog.run_bind_of _ h]
  rfl

/-! ## The scan -/

/-- The scan of `my_mem_malloc`, on a table that does not change meanwhile. -/
def scan (m : ℕ → ℕ) (nmemb : ℕ) : ℕ → ℕ → Option ℕ
  | 0, _ => none
  | offset + 1, cmemb =>
    let cmemb := if m offset = 0 then (cmemb + 1) % 2 ^ 16 else 0
    if cmemb = nmemb then some offset else scan m nmemb offset cmemb

theorem run_scanLoop (n k c : ℕ) (d : MallcoDev) :
    Prog.run memStep (scanLoop n k c) d = (some (scan d.memmap n k c), d) := by
  induction k generalizing c with
  | zero => rfl
  | succ k ih =>
    rw [scanLoop, run_rdMap_bind, scan]
    dsimp only
    generalize (if d.memmap k = 0 then (c + 1) % 2 ^ 16 else 0) = c'
    by_cases hn : c' = n
    · rw [if_pos hn, if_pos hn]
      rfl
    · rw [if_neg hn, if_neg hn]
      exact ih c'

/-- What the scan finds: `n` free cells, below the end of the run it started with. -/
theorem scan_some {m : ℕ → ℕ} {n : ℕ} {k c o : ℕ} (hk : k + c < 2 ^ 16) (hcn : c < n)
    (hc : ∀ i, k ≤ i → i < k + c → m i = 0) (h : scan m n k c = some o) :
    o < k ∧ o + n ≤ k + c ∧ ∀ i, o ≤ i → i < o + n → m i = 0 := by
  induction k generalizing c with
  | zero => simp [scan] at h
  | succ k ih =>
    rw [scan] at h
    by_cases hm : m k = 0
    · rw [if_pos hm, Nat.mod_eq_of_lt (by omega)] at h
      have hc' : ∀ i, k ≤ i → i < k + (c + 1) → m i = 0 := by
        intro i h1 h2
        rcases Nat.eq_or_lt_of_le h1 with rfl | h1
        · exact hm
        · exact hc i h1 (by omega)
      split at h
      · rename_i hn
        obtain rfl := Option.some.inj h
        exact ⟨by omega, by omega, fun i h1 h2 => hc' i h1 (by omega)⟩
      · obtain ⟨h1, h2, h3⟩ := ih (by omega) (by omega) hc' h
        exact ⟨by omega, by omega, h3⟩
    · rw [if_neg hm, if_neg (by omega)] at h
      obtain ⟨h1, h2, h3⟩ := ih (by omega) (by omega) (fun i h1 h2 => absurd h2 (by omega)) h
      exact ⟨by omega, by omega, h3⟩

/-- The scan fails only when no run of `n` free cells ends below the end of its first run. -/
theorem scan_none {m : ℕ → ℕ} {n : ℕ} {k c : ℕ} (hk : k + c < 2 ^ 16) (hcn : c < n)
    (h : scan m n k c = none) {o : ℕ} (ho : o + n ≤ k + c) :
    ∃ i, o ≤ i ∧ i < o + n ∧ i < k ∧ m i ≠ 0 := by
  induction k generalizing c with
  | zero => exact absurd ho (by omega)
  | succ k ih =>
    rw [scan] at h
    by_cases hm : m k = 0
    · rw [if_pos hm, Nat.mod_eq_of_lt (by omega)] at h
      split at h
      · simp at h
      · obtain ⟨i, h1, h2, h3, h4⟩ := ih (by omega) (by omega) h (by omega)
        exact ⟨i, h1, h2, by omega, h4⟩
    · by_cases hi : k < o + n
      · exact ⟨k, by omega, hi, by omega, hm⟩
      · rw [if_neg hm, if_neg (by omega)] at h
        obtain ⟨i, h1, h2, h3, h4⟩ := ih (by omega) (by omega) h (by omega)
        exact ⟨i, h1, h2, by omega, h4⟩

/-- With the block count `0`, the scan stops at the highest used cell. -/
theorem scan_zero {m : ℕ → ℕ} {k c : ℕ} (hk : k + c < 2 ^ 16) :
    (scan m 0 k c = none ∧ ∀ i < k, m i = 0) ∨ ∃ o < k, scan m 0 k c = some o ∧ m o ≠ 0 := by
  induction k generalizing c with
  | zero => exact Or.inl ⟨rfl, by simp⟩
  | succ k ih =>
    by_cases hm : m k = 0
    · have hs : scan m 0 (k + 1) c = scan m 0 k (c + 1) := by
        rw [scan, if_pos hm, Nat.mod_eq_of_lt (by omega)]
        exact if_neg (by omega)
      rw [hs]
      rcases ih (c := c + 1) (by omega) with ⟨h1, h2⟩ | ⟨o, ho, h1, h2⟩
      · refine Or.inl ⟨h1, fun i hi => ?_⟩
        rcases Nat.lt_succ_iff_lt_or_eq.mp hi with hi | rfl
        · exact h2 i hi
        · exact hm
      · exact Or.inr ⟨o, by omega, h1, h2⟩
    · refine Or.inr ⟨k, by omega, ?_, hm⟩
      rw [scan, if_neg hm]
      rfl

/-! ## Block counts -/

/-- The blocks a request of `size` bytes needs. -/
def blocks (size : ℕ) : ℕ := (size + 31) / 32

theorem blocks_pos {size : ℕ} (h : 0 < size) : 0 < blocks size := by unfold blocks; omega

/-- The largest request whose block count fits in the `u16` variable: `65535` blocks. -/
def maxRequest : ℕ := 65535 * 32

theorem nmembOf_of_le {size : ℕ} (h : size ≤ maxRequest) : nmembOf x size = blocks size := by
  unfold maxRequest at h
  simp only [nmembOf, memblksize_eq, blocks]
  split <;> omega

/-- Between `65535` blocks and `2 ^ 21` bytes the block count wraps to `0`. -/
theorem nmembOf_of_gt {size : ℕ} (h : maxRequest < size) (h' : size < 2 ^ 21) :
    nmembOf x size = 0 := by
  unfold maxRequest at h
  simp only [nmembOf, memblksize_eq]
  split <;> omega

/-! ## The calls -/

/-- The address of block number `o`. -/
def blockAddr (o : ℕ) : ℕ := P.membase x + 32 * o

/-- The block `my_mem_malloc` grants. -/
def grant (m : ℕ → ℕ) (size : ℕ) : Option ℕ :=
  if size = 0 then none else scan m (nmembOf x size) (memtblsize x) 0

/-- A run of free cells that is long enough: some block is granted. -/
theorem exists_grant_of_free {m : ℕ → ℕ} {size o : ℕ} (hpos : 0 < size) (hs : size ≤ maxRequest)
    (hin : o + blocks size ≤ memtblsize x) (hfree : ∀ i, o ≤ i → i < o + blocks size → m i = 0) :
    ∃ o', grant x m size = some o' := by
  have hT := memtblsize_lt x
  rw [← Option.ne_none_iff_exists']
  intro hg
  rw [grant, if_neg (by omega), nmembOf_of_le x hs] at hg
  obtain ⟨i, h₁, h₂, -, hne⟩ := scan_none (by omega) (blocks_pos hpos) hg hin
  exact hne (hfree i h₁ h₂)

theorem grant_lt {m : ℕ → ℕ} {size o : ℕ} (h : grant x m size = some o) : o < memtblsize x := by
  have key : ∀ n k c, scan m n k c = some o → o < k := by
    intro n k
    induction k with
    | zero => simp [scan]
    | succ k ih =>
      intro c h
      rw [scan] at h
      generalize (if m k = 0 then (c + 1) % 2 ^ 16 else 0) = c' at h
      split at h
      · obtain rfl := Option.some.inj h
        exact Nat.lt_succ_self _
      · exact (ih _ h).trans (Nat.lt_succ_self _)
  unfold grant at h
  split at h
  · simp at h
  · exact key _ _ _ h

variable {d : MallcoDev}

/-- `my_mem_malloc` on a ready pool. -/
theorem run_myMemMalloc (hd : d.memrdy = true) (size : ℕ) :
    Prog.run memStep (myMemMalloc P x size) d =
      match grant x d.memmap size with
      | some o => (some (32 * o),
          { d with memmap := fill d.memmap o (nmembOf x size) (nmembOf x size) })
      | none => (some noOffset, d) := by
  rw [myMemMalloc, run_rdRdy_bind, if_pos hd, Prog.run_ite, grant]
  by_cases hs : size = 0
  · rw [if_pos hs, if_pos hs]
    rfl
  · rw [if_neg hs, if_neg hs, Prog.run_bind_of _ (run_scanLoop _ _ _ d)]
    cases scan d.memmap (nmembOf x size) (memtblsize x) 0 with
    | none => rfl
    | some o =>
      dsimp only
      rw [Prog.run_bind_of _ (run_forFrom_wrMap _ _ _ d), memblksize_eq, Nat.mul_comm]
      rfl

theorem blockAddr_lt {o : ℕ} (h : o < memtblsize x) : blockAddr P x o < 2 ^ 32 := by
  have := P.membase_add_le x
  rw [memsize_eq] at this
  unfold blockAddr
  omega

theorem blockAddr_ne_null (o : ℕ) : blockAddr P x o ≠ null := by
  have := P.membase_pos x
  unfold blockAddr null
  omega

/-- `mymalloc` on a ready pool, when a block is granted. -/
theorem run_mymalloc_of_some (hd : d.memrdy = true) {size o : ℕ}
    (hg : grant x d.memmap size = some o) :
    Prog.run memStep (mymalloc P x size) d = (some (blockAddr P x o),
      { d with memmap := fill d.memmap o (nmembOf x size) (nmembOf x size) }) := by
  have hrun := run_myMemMalloc P x hd size
  rw [hg] at hrun
  have ho := grant_lt x hg
  have hT := memtblsize_lt x
  rw [mymalloc, Prog.run_bind_of _ hrun, if_neg (by unfold noOffset; omega), Prog.run_pure,
    ← blockAddr, Nat.mod_eq_of_lt (blockAddr_lt P x ho)]

/-- `mymalloc` on a ready pool, when nothing is granted. -/
theorem run_mymalloc_of_none (hd : d.memrdy = true) {size : ℕ}
    (hg : grant x d.memmap size = none) :
    Prog.run memStep (mymalloc P x size) d = (some null, d) := by
  have hrun := run_myMemMalloc P x hd size
  rw [hg] at hrun
  rw [mymalloc, Prog.run_bind_of _ hrun, if_pos rfl, Prog.run_pure]

/-- `my_mem_free` on a ready pool. -/
theorem run_myMemFree (hd : d.memrdy = true) (offset : ℕ) :
    Prog.run memStep (myMemFree P x offset) d =
      if offset < memsize x then
        (some 0, { d with memmap := fill d.memmap (offset / 32) (d.memmap (offset / 32)) 0 })
      else (some 2, d) := by
  rw [myMemFree, run_rdRdy_bind, if_pos hd, Prog.run_ite, memblksize_eq]
  split
  · rw [run_rdMap_bind, Prog.run_bind_of _ (run_forFrom_wrMap _ _ _ _)]
    rfl
  · rfl

/-- `myfree` of the address of a block. -/
theorem run_myfree (hd : d.memrdy = true) {o : ℕ} (ho : o < memtblsize x) :
    Prog.run memStep (myfree P x (blockAddr P x o)) d =
      (some (), { d with memmap := fill d.memmap o (d.memmap o) 0 }) := by
  have hlt := blockAddr_lt P x ho
  have hoff : (blockAddr P x o + 2 ^ 32 - P.membase x) % 2 ^ 32 = 32 * o := by
    unfold blockAddr at *
    rw [show P.membase x + 32 * o + 2 ^ 32 - P.membase x = 32 * o + 2 ^ 32 by omega,
      Nat.add_mod_right, Nat.mod_eq_of_lt (by omega)]
  have hin : 32 * o < memsize x := by rw [memsize_eq]; omega
  have hrun := run_myMemFree P x hd (32 * o)
  rw [if_pos hin, Nat.mul_div_cancel_left o (by omega)] at hrun
  rw [myfree, if_neg (blockAddr_ne_null P x o), hoff, Prog.run_bind_of _ hrun]
  rfl

@[simp] theorem run_myfree_null (d : MallcoDev) :
    Prog.run memStep (myfree P x null) d = (some (), d) := rfl

/-- `my_mem_perused` computes the percentage of the cells that are not `0`. -/
theorem run_myMemPerused (d : MallcoDev) :
    Prog.run memStep (myMemPerused x) d =
      (some ((∑ i ∈ Finset.range (memtblsize x), if d.memmap i ≠ 0 then 1 else 0) * 100 /
        memtblsize x % 2 ^ 8), d) := by
  have key : ∀ n i used, Prog.run memStep (perusedLoop i n used) d =
      (some (used + ∑ j ∈ Finset.range n, if d.memmap (i + j) ≠ 0 then 1 else 0), d) := by
    intro n
    induction n with
    | zero => intro i used; rfl
    | succ n ih =>
      intro i used
      rw [perusedLoop, run_rdMap_bind, Finset.sum_range_succ', ih]
      have hshift : ∀ j, i + 1 + j = i + (j + 1) := by omega
      simp only [hshift, Nat.add_zero]
      by_cases hi : d.memmap i = 0
      · simp only [hi, ne_eq, not_true_eq_false, if_false, Nat.add_zero]
      · simp only [hi, ne_eq, not_false_eq_true, if_true]
        rw [Nat.add_assoc, Nat.add_comm 1]
  rw [myMemPerused, Prog.run_bind_of _ (key _ 0 0)]
  simp only [Nat.zero_add, Prog.run_pure]

end Calls

end Enc28j60Udp
