import Enc28j60Udp.Malloc.Session
import Mathlib.Order.Bounds.Basic

/-!
# Which block is granted

The downward scan of `my_mem_malloc` keeps a run counter only, but with a positive block count it
finds the highest run of free cells that is long enough (`scan_highest`, `grant_isGreatest`). With
the block count `0`, which a request of `65536` blocks leaves in the `u16` variable `nmemb`, it
finds the highest used cell instead (`scan_zero`).

`highestFit_iff` and `grantSound_iff` say for which requests the call does what it is for.
-/

namespace Enc28j60Udp

section Fit

variable (P : Placement) (x : MemX)

/-- The cells `k, …, k + n - 1` lie in the table and are free. -/
def FreeRun (m : ℕ → ℕ) (k n : ℕ) : Prop :=
  k + n ≤ memtblsize x ∧ ∀ i, k ≤ i → i < k + n → m i = 0

/-- No run of free cells lies above the one that the scan finds. -/
theorem scan_highest {m : ℕ → ℕ} {n k c o : ℕ} (hk : k + c < 2 ^ 16) (hcn : c < n)
    (h : scan m n k c = some o) {o' : ℕ} (ho : o < o') (ho' : o' + n ≤ k + c) :
    ∃ i, o' ≤ i ∧ i < o' + n ∧ m i ≠ 0 := by
  induction k generalizing c with
  | zero => simp [scan] at h
  | succ k ih =>
    rw [scan] at h
    by_cases hm : m k = 0
    · rw [if_pos hm, Nat.mod_eq_of_lt (by omega)] at h
      split at h
      · obtain rfl := Option.some.inj h
        omega
      · exact ih (by omega) (by omega) h (by omega)
    · rw [if_neg hm, if_neg (by omega)] at h
      by_cases hi : k < o' + n
      · exact ⟨k, by omega, hi, hm⟩
      · exact ih (by omega) (by omega) h (by omega)

variable {x} {m : ℕ → ℕ} {size : ℕ}

/-- With a positive block count, the highest run that is long enough is granted. -/
theorem grant_isGreatest (hw : 0 < nmembOf x size) {o : ℕ} (hg : grant x m size = some o) :
    IsGreatest {k | FreeRun x m k (nmembOf x size)} o := by
  have hT := memtblsize_lt x
  rw [grant] at hg
  split at hg
  · simp at hg
  obtain ⟨-, hin, hfree⟩ :=
    scan_some (by omega) hw (fun i h₁ h₂ => absurd h₂ (by omega)) hg
  refine ⟨⟨hin, hfree⟩, ?_⟩
  rintro k ⟨hk, hkfree⟩
  by_contra hlt
  obtain ⟨i, h₁, h₂, hi⟩ := scan_highest (by omega) hw hg (not_le.mp hlt) hk
  exact hi (hkfree i h₁ h₂)

/-- With a positive block count, a request is refused when no run is long enough. -/
theorem grant_eq_none_iff (hw : 0 < nmembOf x size) :
    grant x m size = none ↔ ∀ k, ¬FreeRun x m k (nmembOf x size) := by
  have hT := memtblsize_lt x
  constructor
  · rintro hg k ⟨hk, hfree⟩
    have h0 : size ≠ 0 := by
      rintro rfl
      simp [nmembOf] at hw
    rw [grant, if_neg h0] at hg
    obtain ⟨i, h₁, h₂, -, hi⟩ := scan_none (by omega) hw hg hk
    exact hi (hfree i h₁ h₂)
  · intro hno
    rw [Option.eq_none_iff_forall_ne_some]
    intro o hg
    exact hno o (grant_isGreatest hw hg).1

/-- With the block count `0`, a request is refused when every cell is free. -/
theorem grant_eq_none_iff_of_wrapped (hpos : 0 < size) (hw : nmembOf x size = 0) :
    grant x m size = none ↔ ∀ i < memtblsize x, m i = 0 := by
  have hT := memtblsize_lt x
  rw [grant, if_neg (by omega), hw]
  rcases scan_zero (m := m) (k := memtblsize x) (c := 0) (by omega) with
    ⟨h, hz⟩ | ⟨o, ho, h, hne⟩
  · exact iff_of_true h hz
  · rw [h]
    exact iff_of_false (by simp) fun hz => hne (hz o ho)

/-- A run of free cells is shorter than the `65536` blocks of a wrapped count. -/
theorem not_freeRun_of_gt (h : maxRequest < size) (k : ℕ) : ¬FreeRun x m k (blocks size) := by
  have hT := memtblsize_lt x
  rintro ⟨hk, -⟩
  unfold maxRequest blocks at *
  omega

theorem ne_noOffset (o : ℕ) : 32 * o ≠ noOffset := by
  unfold noOffset
  omega

/-! ## The highest fit -/

variable (x) in
/-- `my_mem_malloc` grants the highest run of free cells that holds `size` bytes, and marks it. -/
structure HighestFit (d : MallcoDev) (size : ℕ) : Prop where
  returns : ∃ offset, (Prog.run memStep (myMemMalloc P x size) d).1 = some offset
  succeeds_iff : (Prog.run memStep (myMemMalloc P x size) d).1 ≠ some noOffset ↔
    ∃ k, FreeRun x d.memmap k (blocks size)
  granted : ∀ offset, (Prog.run memStep (myMemMalloc P x size) d).1 = some offset →
    offset ≠ noOffset → ∃ k, IsGreatest {k | FreeRun x d.memmap k (blocks size)} k ∧
      offset = 32 * k ∧ (Prog.run memStep (myMemMalloc P x size) d).2 =
        { d with memmap := fill d.memmap k (blocks size) (blocks size) }
  refused : (Prog.run memStep (myMemMalloc P x size) d).1 = some noOffset →
    (Prog.run memStep (myMemMalloc P x size) d).2 = d

variable {P} {d : MallcoDev}

theorem highestFit_of_some (hd : d.memrdy = true) {o : ℕ} (hg : grant x d.memmap size = some o)
    (hn : nmembOf x size = blocks size)
    (ho : IsGreatest {k | FreeRun x d.memmap k (blocks size)} o) : HighestFit P x d size := by
  have hrun := run_myMemMalloc P x hd size
  have hne := ne_noOffset o
  rw [hg, hn] at hrun
  refine ⟨?_, ?_, ?_, ?_⟩ <;> rw [hrun]
  · exact ⟨32 * o, rfl⟩
  · exact iff_of_true (by simpa using hne) ⟨o, ho.1⟩
  · rintro offset hoff -
    obtain rfl := Option.some.inj hoff
    exact ⟨o, ho, rfl, rfl⟩
  · intro h
    exact absurd (Option.some.inj h) hne

theorem highestFit_of_none (hd : d.memrdy = true) (hg : grant x d.memmap size = none)
    (hno : ∀ k, ¬FreeRun x d.memmap k (blocks size)) : HighestFit P x d size := by
  have hrun := run_myMemMalloc P x hd size
  rw [hg] at hrun
  refine ⟨?_, ?_, ?_, ?_⟩ <;> rw [hrun]
  · exact ⟨noOffset, rfl⟩
  · exact iff_of_false (by simp) (by simpa using hno)
  · intro offset hoff hne
    exact absurd (Option.some.inj hoff).symm hne
  · intro _
    rfl

/-- A request whose count wraps to `0` is granted on top of a used cell. -/
theorem not_highestFit_of_wrapped (hd : d.memrdy = true) (hs : maxRequest < size)
    (hg : grant x d.memmap size ≠ none) : ¬HighestFit P x d size := by
  obtain ⟨o, hg⟩ := Option.ne_none_iff_exists'.mp hg
  have hrun := run_myMemMalloc P x hd size
  rw [hg] at hrun
  intro h
  obtain ⟨k, hk⟩ := h.succeeds_iff.mp (by
    rw [hrun]
    simpa using ne_noOffset o)
  exact not_freeRun_of_gt hs k hk

/-- **The highest fit.** On a ready pool, a request of `1` to `2 ^ 21 - 1` bytes is served by the
highest free run that holds it exactly when its block count fits in the `u16` variable `nmemb` or
every cell of the table is free. -/
theorem highestFit_iff (hd : d.memrdy = true) (hpos : 0 < size) (hlt : size < 2 ^ 21) :
    HighestFit P x d size ↔ size ≤ maxRequest ∨ ∀ i < memtblsize x, d.memmap i = 0 := by
  by_cases hs : size ≤ maxRequest
  · refine iff_of_true ?_ (Or.inl hs)
    have hn := nmembOf_of_le x hs
    have hw : 0 < nmembOf x size := by
      rw [hn]
      exact blocks_pos hpos
    cases hg : grant x d.memmap size with
    | some o =>
      have ho := grant_isGreatest hw hg
      rw [hn] at ho
      exact highestFit_of_some hd hg hn ho
    | none =>
      have hno := (grant_eq_none_iff hw).mp hg
      rw [hn] at hno
      exact highestFit_of_none hd hg hno
  · have hs := not_le.mp hs
    have hz := grant_eq_none_iff_of_wrapped (m := d.memmap) hpos (nmembOf_of_gt x hs hlt)
    rw [or_iff_right (not_le.mpr hs), ← hz]
    constructor
    · intro h
      by_contra hg
      exact not_highestFit_of_wrapped hd hs hg h
    · intro hg
      exact highestFit_of_none hd hg (not_freeRun_of_gt hs)

/-- A ready pool in which each block is an allocation of its own. -/
def fullDev : MallcoDev := ⟨fun _ => 1, true, fun _ => 0⟩

/-- A request of one byte more than `65535` blocks is granted by a full pool. -/
theorem fullDev_not_highestFit : ¬HighestFit imagePlacement .sramin fullDev 2097121 := by
  refine not_highestFit_of_wrapped rfl (by decide) fun hg => ?_
  have hz := (grant_eq_none_iff_of_wrapped (by decide) (by decide)).mp hg
  exact absurd (hz 0 (by decide)) (by decide)

/-- A full pool refuses a request of one byte. -/
theorem highestFit_iff_fullDev : HighestFit imagePlacement .sramin fullDev 1 ↔
    1 ≤ maxRequest ∨ ∀ i < memtblsize .sramin, fullDev.memmap i = 0 :=
  highestFit_iff rfl (by decide) (by decide)

/-! ## Requests of any size -/

variable (P x) in
/-- The pool as the scan of `my_mem_malloc` finds it: a pool that is not ready is cleared first. -/
def found (d : MallcoDev) : MallcoDev :=
  if d.memrdy then d else (Prog.run memStep (myMemInit P x) d).2

theorem found_memrdy (d : MallcoDev) : (found P x d).memrdy = true := by
  unfold found
  split
  · assumption
  · obtain ⟨mem, h⟩ := run_myMemInit P x d
    rw [h]

/-- On a pool that is not ready the call does what it does on the cleared pool. -/
theorem run_myMemMalloc_found (d : MallcoDev) (size : ℕ) :
    Prog.run memStep (myMemMalloc P x size) d =
      Prog.run memStep (myMemMalloc P x size) (found P x d) := by
  by_cases hd : d.memrdy = true
  · rw [found, if_pos hd]
  · obtain ⟨mem, h⟩ := run_myMemInit P x d
    rw [found, if_neg hd, h, myMemMalloc, run_rdRdy_bind, if_neg hd, Prog.run_bind_of _ h,
      run_rdRdy_bind]
    rfl

variable (P x) in
/-- What is granted is free before the call, lies in the table, starts at the offset returned and
is no smaller than the request; a request larger than the pool fails. -/
structure GrantCovers (d : MallcoDev) (size : ℕ) : Prop where
  granted : ∀ offset, (Prog.run memStep (myMemMalloc P x size) d).1 = some offset →
    offset ≠ noOffset → ∃ k n, offset = 32 * k ∧ blocks size ≤ n ∧
      FreeRun x (found P x d).memmap k n ∧
      (Prog.run memStep (myMemMalloc P x size) d).2.memmap = fill (found P x d).memmap k n n
  refused : memsize x < size → (Prog.run memStep (myMemMalloc P x size) d).1 = some noOffset

variable (P x) in
/-- What is granted covers the request, and the `u16` variable `nmemb` holds the block count. -/
structure GrantSound (d : MallcoDev) (size : ℕ) : Prop extends GrantCovers P x d size where
  count : nmembOf x size = blocks size

/-- A wrapped count is smaller than the block count. -/
theorem nmembOf_eq_iff : nmembOf x size = blocks size ↔ size ≤ maxRequest := by
  refine ⟨fun h => ?_, nmembOf_of_le x⟩
  simp only [nmembOf, memblksize_eq, blocks] at h
  unfold maxRequest
  split at h <;> omega

theorem grantCovers_of_none {d : MallcoDev} (hg : grant x (found P x d).memmap size = none) :
    GrantCovers P x d size := by
  have hrun := run_myMemMalloc P x (found_memrdy (P := P) (x := x) d) size
  rw [hg, ← run_myMemMalloc_found] at hrun
  refine ⟨?_, ?_⟩ <;> rw [hrun]
  · intro offset hoff hne
    exact absurd (Option.some.inj hoff).symm hne
  · intro _
    rfl

/-- The cells that a grant marks are the wrapped count, so a grant covers the request when the
count did not wrap. -/
theorem grantCovers_iff_of_some {d : MallcoDev} {o : ℕ}
    (hg : grant x (found P x d).memmap size = some o) :
    GrantCovers P x d size ↔ size ≤ maxRequest := by
  have hrun := run_myMemMalloc P x (found_memrdy (P := P) (x := x) d) size
  rw [hg, ← run_myMemMalloc_found] at hrun
  have hne := ne_noOffset o
  constructor
  · intro h
    obtain ⟨k, n, -, hn, ⟨hk, -⟩, -⟩ := h.granted (32 * o) (by rw [hrun]) hne
    have hT := memtblsize_lt x
    unfold blocks at hn
    unfold maxRequest
    omega
  · intro hs
    obtain ⟨hpos, hin, hfree⟩ := Overlay.grant_free hs hg
    have hsize : size ≤ memsize x := by
      rw [memsize_eq]
      unfold blocks at hin
      omega
    refine ⟨?_, fun h => absurd h (not_lt.mpr hsize)⟩
    rw [hrun]
    rintro offset hoff -
    obtain rfl := Option.some.inj hoff
    refine ⟨o, blocks size, rfl, Nat.le_refl _, ⟨hin, hfree⟩, ?_⟩
    show fill _ o (nmembOf x size) (nmembOf x size) = _
    rw [nmembOf_of_le x hs]

variable (P x) in
/-- **Requests of any size.** The block count is right, and what is granted covers the request, up
to `65535` blocks. A larger request is not served too small only when its wrapped count is
refused: a count of `0` by a table of free cells, another count by a table without a free run of
that length. -/
theorem grantSound_iff (d : MallcoDev) (size : ℕ) :
    (GrantSound P x d size ↔ size ≤ maxRequest) ∧
      (GrantCovers P x d size ↔ size ≤ maxRequest ∨
        (nmembOf x size = 0 ∧ ∀ i < memtblsize x, (found P x d).memmap i = 0) ∨
        (0 < nmembOf x size ∧ ∀ k, ¬FreeRun x (found P x d).memmap k (nmembOf x size))) := by
  have hcovers : GrantCovers P x d size ↔
      size ≤ maxRequest ∨ grant x (found P x d).memmap size = none := by
    cases hg : grant x (found P x d).memmap size with
    | none => exact iff_of_true (grantCovers_of_none hg) (Or.inr rfl)
    | some o => simpa using grantCovers_iff_of_some hg
  constructor
  · constructor
    · exact fun h => nmembOf_eq_iff.mp h.count
    · exact fun hs => ⟨hcovers.mpr (Or.inl hs), nmembOf_of_le x hs⟩
  · rw [hcovers]
    by_cases hs : size ≤ maxRequest
    · simp only [hs, true_or]
    have hpos : 0 < size := by
      unfold maxRequest at hs
      omega
    rcases Nat.eq_zero_or_pos (nmembOf x size) with hw | hw
    · rw [grant_eq_none_iff_of_wrapped hpos hw]
      simp [hw]
    · rw [grant_eq_none_iff hw]
      simp [hw, Nat.ne_of_gt hw]

/-- A ready pool in which nothing is allocated. -/
def emptyDev : MallcoDev := ⟨fun _ => 0, true, fun _ => 0⟩

/-- A request of `2 ^ 21 + 1` bytes is granted by a pool of `40` KiB, which marks one block. -/
theorem emptyDev_not_grantSound :
    (Prog.run memStep (myMemMalloc imagePlacement .sramin 2097153) emptyDev).1 = some 40928 ∧
      ¬GrantSound imagePlacement .sramin emptyDev 2097153 := by
  have hrun : (Prog.run memStep (myMemMalloc imagePlacement .sramin 2097153) emptyDev).1 =
      some 40928 := by decide +kernel
  refine ⟨hrun, fun h => ?_⟩
  have hrefused := h.refused (by decide)
  rw [hrun] at hrefused
  exact absurd hrefused (by decide)

end Fit

end Enc28j60Udp
