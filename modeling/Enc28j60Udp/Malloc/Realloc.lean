import Enc28j60Udp.Foundations.Copy
import Enc28j60Udp.Malloc.Interior

/-!
# Reallocation

`myrealloc` grants a new block, copies as many bytes as the *new* size from the old pointer
forwards, and frees the old block. When a block grows, the loop reads past the old block and may
read bytes that it has written. The bytes of the old block itself are never written, since the new
block was granted from free cells, so they arrive unchanged (`copied_apply`, `Sound.byte_outside`).

In the table a reallocation is `mymalloc` followed by `myfree` (`Sound.reallocStep_eq`), which is
why it keeps a pool sound. `myrealloc_iff` says when a reallocation does what it is for.
-/

namespace Enc28j60Udp

section Realloc

variable (P : Placement) (x : MemX)

/-- The memory after the rounds `i, …, i + n - 1` of the loop of `mymemcpy`. -/
def copied (des src i n : ℕ) (mem : ℕ → UInt8) : ℕ → UInt8 :=
  copyFwd (fun i => (des + i) % 2 ^ 32) (fun i => (src + i) % 2 ^ 32) i n mem

theorem run_mymemcpy (des src n : ℕ) (d : MallcoDev) :
    Prog.run memStep (mymemcpy des src n) d =
      (some (), { d with mem := copied des src 0 n d.mem }) := by
  unfold mymemcpy copied
  generalize 0 = i
  induction n generalizing i d with
  | zero => rfl
  | succ n ih => exact ih _ (i + 1)

/-- Bytes outside the destination are kept. -/
theorem copied_of_outside {des src n : ℕ} {mem : ℕ → UInt8} {a : ℕ} (hdes : des + n ≤ 2 ^ 32)
    (ha : a < des ∨ des + n ≤ a) : copied des src 0 n mem a = mem a := by
  refine copyFwd_of_ne fun j _ hj => ?_
  show (des + j) % 2 ^ 32 ≠ a
  rw [Nat.mod_eq_of_lt (by omega)]
  omega

/-- A byte whose source lies outside the destination arrives, however far the copy goes on. -/
theorem copied_apply {des src n k : ℕ} {mem : ℕ → UInt8} (hdes : des + n ≤ 2 ^ 32) (hk : k < n)
    (hlt : src + k < 2 ^ 32) (hsrc : src + k < des ∨ des + n ≤ src + k) :
    copied des src 0 n mem (des + k) = mem (src + k) := by
  have hmod : ∀ j < n, (des + j) % 2 ^ 32 = des + j := fun j hj => Nat.mod_eq_of_lt (by omega)
  have happly : copied des src 0 n mem ((des + k) % 2 ^ 32) = mem ((src + k) % 2 ^ 32) := by
    refine copyFwd_apply (Nat.zero_le k) (by omega) (fun j _ hj hne => ?_) fun j _ hj => ?_
    · show (des + j) % 2 ^ 32 ≠ (des + k) % 2 ^ 32
      rw [hmod j (by omega), hmod k hk]
      omega
    · show (des + j) % 2 ^ 32 ≠ (src + k) % 2 ^ 32
      rw [hmod j (by omega), Nat.mod_eq_of_lt hlt]
      omega
  rwa [hmod k hk, Nat.mod_eq_of_lt hlt] at happly

variable {P x} {d : MallcoDev}

/-- `myrealloc` on a ready pool, when nothing is granted. -/
theorem run_myrealloc_of_none (hd : d.memrdy = true) {ptr size : ℕ}
    (hg : grant x d.memmap size = none) :
    Prog.run memStep (myrealloc P x ptr size) d = (some null, d) := by
  have hrun := run_myMemMalloc P x hd size
  rw [hg] at hrun
  rw [myrealloc, Prog.run_bind_of _ hrun, if_pos rfl, Prog.run_pure]

/-- `myrealloc` of a block on a ready pool, when a block is granted. -/
theorem run_myrealloc_of_some (hd : d.memrdy = true) {size o o' : ℕ} (ho' : o' < memtblsize x)
    (hg : grant x d.memmap size = some o) :
    Prog.run memStep (myrealloc P x (blockAddr P x o') size) d = (some (blockAddr P x o),
      { memmap := fill (fill d.memmap o (nmembOf x size) (nmembOf x size)) o'
          (fill d.memmap o (nmembOf x size) (nmembOf x size) o') 0
        memrdy := d.memrdy
        mem := copied (blockAddr P x o) (blockAddr P x o') 0 size d.mem }) := by
  have hrun := run_myMemMalloc P x hd size
  rw [hg] at hrun
  have ho : (P.membase x + 32 * o) % 2 ^ 32 = blockAddr P x o :=
    Nat.mod_eq_of_lt (blockAddr_lt P x (grant_lt x hg))
  have hfree := run_myfree P x (d :=
    ⟨fill d.memmap o (nmembOf x size) (nmembOf x size), d.memrdy,
      copied (blockAddr P x o) (blockAddr P x o') 0 size d.mem⟩) hd ho'
  rw [myrealloc, Prog.run_bind_of _ hrun, if_neg (ne_noOffset o), ho,
    Prog.run_bind_of _ (run_mymemcpy _ _ _ _)]
  exact Prog.run_bind_of _ hfree _

/-! ## Reallocations of a session -/

variable (P x) in
/-- `myrealloc` of a held pointer, given by its position, and what the caller holds afterwards. -/
def reallocStep (s : Session) (i size : ℕ) : Session :=
  match s.live[i]? with
  | some a =>
    let r := Prog.run memStep (myrealloc P x a.ptr size) s.dev
    match r.1 with
    | some p => if p = null then ⟨r.2, s.live⟩ else ⟨r.2, ⟨p, size⟩ :: s.live.eraseIdx i⟩
    | none => ⟨r.2, s.live⟩
  | none => s

theorem reallocStep_of_not_held {s : Session} {i : ℕ} (hi : s.live[i]? = none) (size : ℕ) :
    reallocStep P x s i size = s := by
  simp only [reallocStep, hi]

theorem reallocStep_of_none {s : Session} (hd : s.dev.memrdy = true) {size : ℕ}
    (hg : grant x s.dev.memmap size = none) (i : ℕ) : reallocStep P x s i size = s := by
  cases hi : s.live[i]? with
  | none => exact reallocStep_of_not_held hi size
  | some a => simp only [reallocStep, hi, run_myrealloc_of_none hd hg, if_true]

theorem reallocStep_of_some {s : Session} (hd : s.dev.memrdy = true) {i o o' : ℕ} {a : Alloc}
    (hi : s.live[i]? = some a) (hptr : a.ptr = blockAddr P x o') (ho' : o' < memtblsize x)
    {size : ℕ} (hg : grant x s.dev.memmap size = some o) :
    reallocStep P x s i size =
      ⟨{ memmap := fill (fill s.dev.memmap o (nmembOf x size) (nmembOf x size)) o'
          (fill s.dev.memmap o (nmembOf x size) (nmembOf x size) o') 0
         memrdy := s.dev.memrdy
         mem := copied (blockAddr P x o) (blockAddr P x o') 0 size s.dev.mem },
        ⟨blockAddr P x o, size⟩ :: s.live.eraseIdx i⟩ := by
  simp only [reallocStep, hi, hptr, run_myrealloc_of_some hd ho' hg, blockAddr_ne_null, if_false]

/-- The operations of a pool. -/
inductive PoolOp
  | call (c : Call)
  | realloc (i size : ℕ)

variable (P x) in
/-- One operation of a pool. -/
def opStep (s : Session) : PoolOp → Session
  | .call c => callStep P x s c
  | .realloc i size => reallocStep P x s i size

variable (x) in
/-- Every request that is granted has a block count that fits in the `u16` variable. -/
def OpFits (s : Session) : PoolOp → Prop
  | .call c => GrantFits x s c
  | .realloc _ size => GrantFits x s (.malloc size)

variable (P x) in
/-- The caller of `myrealloc` got the new block `p` for the held allocation `a`, which is number
`i`. -/
structure Reallocated (s : Session) (i : ℕ) (a : Alloc) (size p : ℕ) (d' : MallcoDev) : Prop where
  /-- The bytes of the old block arrive in the new one. -/
  moved : ∀ j < min a.size size, d'.mem (p + j) = s.dev.mem (a.ptr + j)
  /-- The other live allocations keep their contents. -/
  kept : ∀ b ∈ s.live.eraseIdx i, ∀ j < b.size, d'.mem (b.ptr + j) = s.dev.mem (b.ptr + j)
  /-- The old range is free. -/
  freed : ∀ k ∈ a.cells P x, d'.memmap k = 0
  /-- The new range lies in the table and is marked with its own block count. -/
  marked : ∃ o, p = blockAddr P x o ∧ o + blocks size ≤ memtblsize x ∧
    ∀ k, o ≤ k → k < o + blocks size → d'.memmap k = blocks size

variable (P x) in
/-- What `myrealloc` is for: it returns the new block, or `NULL` and has changed nothing. -/
def ReallocOk (s : Session) (i : ℕ) (a : Alloc) (size : ℕ) : Prop :=
  match Prog.run memStep (myrealloc P x a.ptr size) s.dev with
  | (some p, d') => if p = null then d' = s.dev else Reallocated P x s i a size p d'
  | (none, _) => False

variable {s : Session} {i : ℕ} {a : Alloc}

theorem reallocOk_of_none (h : Sound P x s) {size : ℕ} (hg : grant x s.dev.memmap size = none) :
    ReallocOk P x s i a size := by
  simp [ReallocOk, run_myrealloc_of_none h.rdy hg]

theorem reallocOk_of_some (h : Sound P x s) {size o : ℕ} (ha : a ∈ s.live)
    (hg : grant x s.dev.memmap size = some o) :
    ReallocOk P x s i a size ↔ Reallocated P x s i a size (blockAddr P x o)
      { memmap := fill (fill s.dev.memmap o (nmembOf x size) (nmembOf x size)) (a.first P x)
          (fill s.dev.memmap o (nmembOf x size) (nmembOf x size) (a.first P x)) 0
        memrdy := s.dev.memrdy
        mem := copied (blockAddr P x o) (blockAddr P x (a.first P x)) 0 size s.dev.mem } := by
  have hrun := run_myrealloc_of_some (P := P) h.rdy (h.overlay.memmap_first ha).1 hg
  rw [← (h.inTable a ha).1] at hrun
  rw [ReallocOk, hrun, ← (h.inTable a ha).1]
  simp only [blockAddr_ne_null, if_false]

namespace Sound

/-- A new block lies before or after each live allocation. -/
theorem apart (h : Sound P x s) {b : Alloc} (hb : b ∈ s.live) {size o : ℕ}
    (hs : size ≤ maxRequest) (hg : grant x s.dev.memmap size = some o) :
    b.first P x + blocks b.size ≤ o ∨ o + blocks size ≤ b.first P x := by
  obtain ⟨hpos, -, hfree⟩ := Overlay.grant_free hs hg
  have hbpos := blocks_pos (h.pos b hb)
  by_contra hmeet
  -- the later of the two first cells lies in both ranges
  have hk : o ≤ max o (b.first P x) ∧ max o (b.first P x) < o + blocks size := by omega
  refine h.overlay.not_mem_cells (hfree _ hk.1 hk.2) hb ((Alloc.mem_cells P x).mpr ?_)
  omega

/-- The bytes of a live allocation lie outside the bytes that are copied into a new block. -/
theorem byte_outside (h : Sound P x s) {b : Alloc} (hb : b ∈ s.live) {size o j : ℕ}
    (hs : size ≤ maxRequest) (hg : grant x s.dev.memmap size = some o) (hj : j < b.size) :
    b.ptr + j < 2 ^ 32 ∧ blockAddr P x o + size ≤ 2 ^ 32 ∧
      (b.ptr + j < blockAddr P x o ∨ blockAddr P x o + size ≤ b.ptr + j) := by
  obtain ⟨-, hin, -⟩ := Overlay.grant_free hs hg
  obtain ⟨hptr, hbin⟩ := h.inTable b hb
  have hplace := P.membase_add_le x
  rw [memsize_eq] at hplace
  have hapart := h.apart hb hs hg
  rw [hptr]
  unfold blockAddr blocks at *
  omega

/-- A request that fits: the new block is marked, the old one is free, and the bytes have
arrived. -/
theorem reallocated (h : Sound P x s) (hi : s.live[i]? = some a) {size o : ℕ}
    (hs : size ≤ maxRequest) (hg : grant x s.dev.memmap size = some o) :
    ReallocOk P x s i a size := by
  have ha := List.mem_of_getElem? hi
  obtain ⟨hpos, hin, hfree⟩ := Overlay.grant_free hs hg
  have hptr := (h.inTable a ha).1
  have hout : ∀ k ∈ a.cells P x, ¬(o ≤ k ∧ k < o + blocks size) := fun k hk hc =>
    h.overlay.not_mem_cells (hfree k hc.1 hc.2) ha hk
  have hfirst : fill s.dev.memmap o (blocks size) (blocks size) (a.first P x) =
      blocks a.size := by
    have hcell := (h.overlay.memmap_first ha).2
    rw [fill_of_not_mem, hcell]
    refine hout _ ((Alloc.mem_cells P x).mpr ?_)
    have := blocks_pos (h.pos a ha)
    omega
  rw [reallocOk_of_some h ha hg, nmembOf_of_le x hs, hfirst, fill_eq_clear, ← hptr]
  refine ⟨fun j hj => ?_, fun b hb j hj => ?_, fun k hk => if_pos hk, o, rfl, hin, ?_⟩
  · obtain ⟨hlt, hdes, hsrc⟩ := h.byte_outside ha hs hg (lt_of_lt_of_le hj (min_le_left _ _))
    exact copied_apply hdes (lt_of_lt_of_le hj (min_le_right _ _)) hlt hsrc
  · have hb := (List.eraseIdx_sublist s.live i).subset hb
    obtain ⟨-, hdes, hsrc⟩ := h.byte_outside hb hs hg hj
    exact copied_of_outside hdes hsrc
  · intro k hk₁ hk₂
    show clear _ _ k = _
    rw [clear, if_neg fun hk => hout k hk ⟨hk₁, hk₂⟩, fill_of_mem ⟨hk₁, hk₂⟩]

/-- A request whose count wraps to `0` returns a used block, for more blocks than there are. -/
theorem not_reallocOk_of_wrapped (h : Sound P x s) (hi : s.live[i]? = some a) {size : ℕ}
    (hs : maxRequest < size) (hlt : size < 2 ^ 21) : ¬ReallocOk P x s i a size := by
  have ha := List.mem_of_getElem? hi
  obtain ⟨hfirst, hcell⟩ := h.overlay.memmap_first ha
  have hpos := blocks_pos (h.pos a ha)
  have hsize : 0 < size := by omega
  have hg : grant x s.dev.memmap size ≠ none := by
    rw [Ne, grant_eq_none_iff_of_wrapped hsize (nmembOf_of_gt x hs hlt)]
    intro hz
    rw [hz _ hfirst] at hcell
    omega
  obtain ⟨o, hg⟩ := Option.ne_none_iff_exists'.mp hg
  rw [reallocOk_of_some h ha hg]
  intro hbad
  obtain ⟨o', -, hin, -⟩ := hbad.marked
  have hT := memtblsize_lt x
  unfold blocks maxRequest at *
  omega

theorem reallocOk_iff (h : Sound P x s) (hi : s.live[i]? = some a) {size : ℕ}
    (hlt : size < 2 ^ 21) : ReallocOk P x s i a size ↔ size ≤ maxRequest := by
  by_cases hs : size ≤ maxRequest
  · refine iff_of_true ?_ hs
    cases hg : grant x s.dev.memmap size with
    | none => exact reallocOk_of_none h hg
    | some o => exact h.reallocated hi hs hg
  · exact iff_of_false (h.not_reallocOk_of_wrapped hi (not_le.mp hs) hlt) hs

/-! ## Runs -/

/-- What a pool holds does not depend on the bytes of its blocks. -/
theorem of_mem (h : Sound P x s) (mem : ℕ → UInt8) :
    Sound P x ⟨{ s.dev with mem := mem }, s.live⟩ := by
  have hov := h.overlay
  exact of_overlay (fun j hj => if_pos hj) ⟨hov.rdy, hov.pos, hov.inTable, hov.disjoint, hov.held,
    hov.wasFree, hov.rest⟩ h.pos

/-- In the table, a reallocation is a `mymalloc` followed by a `myfree` of the old pointer. -/
theorem reallocStep_eq (h : Sound P x s) (hi : s.live[i]? = some a) {size o : ℕ}
    (hg : grant x s.dev.memmap size = some o) :
    ∃ mem, reallocStep P x s i size =
      ⟨{ (callStep P x (callStep P x s (.malloc size)) (.free (i + 1))).dev with mem := mem },
        (callStep P x (callStep P x s (.malloc size)) (.free (i + 1))).live⟩ := by
  have ha := List.mem_of_getElem? hi
  obtain ⟨hfirst, -⟩ := h.overlay.memmap_first ha
  have hptr := (h.inTable a ha).1
  refine ⟨copied (blockAddr P x o) a.ptr 0 size s.dev.mem, ?_⟩
  have hfree := callStep_free_of_some (P := P) (x := x) (i := i + 1) (a := a)
    (s := ⟨{ s.dev with memmap := fill s.dev.memmap o (nmembOf x size) (nmembOf x size) },
      ⟨blockAddr P x o, size⟩ :: s.live⟩) h.rdy hi hptr hfirst
  rw [callStep_malloc_of_some h.rdy hg, hfree, reallocStep_of_some h.rdy hi hptr hfirst hg, hptr,
    List.eraseIdx_cons_succ]

/-- A reallocation whose granted request fits keeps a pool sound. -/
theorem step_realloc (h : Sound P x s) {size : ℕ} (hc : GrantFits x s (.malloc size)) (i : ℕ) :
    Sound P x (reallocStep P x s i size) := by
  cases hi : s.live[i]? with
  | none =>
    rw [reallocStep_of_not_held hi]
    exact h
  | some a =>
    cases hg : grant x s.dev.memmap size with
    | none =>
      rw [reallocStep_of_none h.rdy hg]
      exact h
    | some o =>
      obtain ⟨mem, hs⟩ := h.reallocStep_eq hi hg
      rw [hs]
      exact ((h.step _ hc).step_free (i + 1)).of_mem mem

theorem opStep (h : Sound P x s) (c : PoolOp) (hc : OpFits x s c) :
    Sound P x (opStep P x s c) := by
  cases c with
  | call c => exact h.step c hc
  | realloc i size => exact h.step_realloc hc i

/-- A run whose granted requests fit leads to a sound pool. -/
theorem exec_opStep {ops : List PoolOp}
    (hops : Runs.Along (Enc28j60Udp.opStep P x) (OpFits x) (Enc28j60Udp.afterInit P x d) ops) :
    Sound P x (Runs.exec (Enc28j60Udp.opStep P x) (Enc28j60Udp.afterInit P x d) ops) :=
  (Runs.always_of_along (fun _ c h hc => h.opStep c hc) (afterInit d) hops).last

end Sound

/-- **Reallocation.** After any run of `mymalloc`, `myfree` and `myrealloc` whose granted requests
fit, `myrealloc` of a live pointer to a size below `2 ^ 21` bytes does what it is for
exactly when the block count of the new size fits in the `u16` variable `nmemb`. -/
theorem myrealloc_iff (P : Placement) (x : MemX) (d : MallcoDev) (ops : List PoolOp)
    (hops : Runs.Along (opStep P x) (OpFits x) (afterInit P x d) ops) {i : ℕ} {a : Alloc}
    (hi : (Runs.exec (opStep P x) (afterInit P x d) ops).live[i]? = some a) {size : ℕ}
    (hlt : size < 2 ^ 21) :
    ReallocOk P x (Runs.exec (opStep P x) (afterInit P x d) ops) i a size ↔
      size ≤ maxRequest :=
  (Sound.exec_opStep hops).reallocOk_iff hi hlt

/-- The run that allocates the last block of the pool. -/
def oneBlock : List PoolOp := [.call (.malloc 32)]

theorem oneBlock_fits : Runs.Along (opStep imagePlacement .sramin) (OpFits .sramin)
    (afterInit imagePlacement .sramin zeroDev) oneBlock :=
  Runs.along_cons.mpr ⟨grantFits_malloc (by decide) _, Runs.along_nil⟩

theorem oneBlock_live : (Runs.exec (opStep imagePlacement .sramin)
    (afterInit imagePlacement .sramin zeroDev) oneBlock).live[0]? =
      some ⟨blockAddr imagePlacement .sramin 1279, 32⟩ := by
  have hg : grant .sramin (afterInit imagePlacement .sramin zeroDev).dev.memmap 32 =
      some 1279 := grant_afterInit zeroDev (by decide) (by decide)
  rw [oneBlock, Runs.exec_cons, Runs.exec_nil, opStep,
    callStep_malloc_of_some (Sound.afterInit zeroDev).rdy hg]
  exact List.getElem?_cons_zero

/-- A block that grows to two blocks. -/
theorem myrealloc_iff_grow : ReallocOk imagePlacement .sramin
      (Runs.exec (opStep imagePlacement .sramin) (afterInit imagePlacement .sramin zeroDev)
        oneBlock) 0 ⟨blockAddr imagePlacement .sramin 1279, 32⟩ 64 ↔ 64 ≤ maxRequest :=
  myrealloc_iff imagePlacement .sramin zeroDev oneBlock oneBlock_fits oneBlock_live (by decide)

/-- A block that grows to one byte more than `65535` blocks. -/
theorem myrealloc_wrapped : ¬ReallocOk imagePlacement .sramin
    (Runs.exec (opStep imagePlacement .sramin) (afterInit imagePlacement .sramin zeroDev)
      oneBlock) 0 ⟨blockAddr imagePlacement .sramin 1279, 32⟩ 2097121 := by
  have hbig : maxRequest < 2097121 := by decide
  exact (Sound.exec_opStep oneBlock_fits).not_reallocOk_of_wrapped oneBlock_live hbig (by decide)

end Realloc

end Enc28j60Udp
