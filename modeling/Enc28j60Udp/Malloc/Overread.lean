import Enc28j60Udp.Malloc.Realloc

/-!
# What a reallocation reads

`myrealloc` copies as many bytes as the new block has, from the start of the old one. Blocks are
granted from the top of the pool downwards, so the first blocks of a run lie at its very end, and
a block that grows there is read past the end of the pool.

`readsInPool_iff` says when this happens; the block counts need not fit, since even the pointers
of requests with a wrapped count are addresses of blocks.
-/

namespace Enc28j60Udp

section Overread

variable (P : Placement) (x : MemX)

/-- Every byte the reallocation of `ptr` loads lies in the memory of the pool. -/
def ReadsInPool (d : MallcoDev) (ptr size : ℕ) : Prop :=
  ∀ o ∈ Prog.performed memStep (myrealloc P x ptr size) d, ∀ addr, o.1 = .rdByte addr →
    P.membase x ≤ addr ∧ addr < P.membase x + memsize x

/-- The pool is ready, and the pointers held are addresses of its blocks. -/
structure Held (s : Session) : Prop where
  rdy : s.dev.memrdy = true
  ptr : ∀ a ∈ s.live, ∃ o < memtblsize x, a.ptr = blockAddr P x o

variable {P x} {s : Session} {d : MallcoDev}

/-! ## The pointers -/

theorem held_afterInit (d : MallcoDev) : Held P x (afterInit P x d) :=
  ⟨(Sound.afterInit d).rdy, by simp [afterInit]⟩

namespace Held

theorem malloc (h : Held P x s) (size : ℕ) : Held P x (callStep P x s (.malloc size)) := by
  cases hg : grant x s.dev.memmap size with
  | none =>
    rw [callStep_malloc_of_none h.rdy hg]
    exact h
  | some o =>
    rw [callStep_malloc_of_some h.rdy hg]
    exact ⟨h.rdy, List.forall_mem_cons.mpr ⟨⟨o, grant_lt x hg, rfl⟩, h.ptr⟩⟩

theorem ptr_eraseIdx (h : Held P x s) (i : ℕ) :
    ∀ a ∈ s.live.eraseIdx i, ∃ o < memtblsize x, a.ptr = blockAddr P x o :=
  fun a ha => h.ptr a ((List.eraseIdx_sublist s.live i).subset ha)

theorem free (h : Held P x s) (i : ℕ) : Held P x (callStep P x s (.free i)) := by
  cases hi : s.live[i]? with
  | none =>
    rw [callStep_free_of_none hi]
    exact h
  | some a =>
    obtain ⟨o, ho, hptr⟩ := h.ptr a (List.mem_of_getElem? hi)
    rw [callStep_free_of_some h.rdy hi hptr ho]
    exact ⟨h.rdy, h.ptr_eraseIdx i⟩

theorem realloc (h : Held P x s) (i size : ℕ) : Held P x (reallocStep P x s i size) := by
  cases hi : s.live[i]? with
  | none =>
    rw [reallocStep_of_not_held hi]
    exact h
  | some a =>
    cases hg : grant x s.dev.memmap size with
    | none =>
      rw [reallocStep_of_none h.rdy hg]
      exact h
    | some o =>
      obtain ⟨o', ho', hptr⟩ := h.ptr a (List.mem_of_getElem? hi)
      rw [reallocStep_of_some h.rdy hi hptr ho' hg]
      exact ⟨h.rdy, List.forall_mem_cons.mpr ⟨⟨o, grant_lt x hg, rfl⟩, h.ptr_eraseIdx i⟩⟩

theorem step (h : Held P x s) (c : PoolOp) : Held P x (opStep P x s c) := by
  cases c with
  | call c =>
    cases c with
    | malloc size => exact h.malloc size
    | free i => exact h.free i
  | realloc i size => exact h.realloc i size

/-- Every run keeps the pointers. -/
theorem run (d : MallcoDev) (ops : List PoolOp) :
    Held P x (Runs.exec (opStep P x) (afterInit P x d) ops) :=
  (Runs.always_of_inv (fun _ c h => h.step c) (held_afterInit d) ops).last

end Held

/-! ## The loads -/

/-- Not a load of a byte. -/
def NoLoad (o : MemOp) : Prop := ∀ addr, o ≠ .rdByte addr

theorem noLoad_myMemInit : Prog.Only NoLoad (myMemInit P x) := by
  refine .bind (.forFrom (fun i => .lift (by simp [NoLoad])) _ _) fun _ => ?_
  refine .bind (.forFrom (fun i => .lift (by simp [NoLoad])) _ _) fun _ => ?_
  exact .lift (by simp [NoLoad])

theorem noLoad_scanLoop (nmemb n c : ℕ) : Prog.Only NoLoad (scanLoop nmemb n c) := by
  induction n generalizing c with
  | zero => exact .pure none
  | succ n ih => exact .bind (.lift (by simp [NoLoad])) fun _ => .ite (.pure _) (ih _)

theorem noLoad_myMemMalloc (size : ℕ) : Prog.Only NoLoad (myMemMalloc P x size) := by
  refine .bind (.lift (by simp [NoLoad])) fun rdy => ?_
  refine .ite ?_ (.bind noLoad_myMemInit fun _ => ?_)
  -- the rest is the same, whether the pool was ready or not
  all_goals
    refine .ite (.pure noOffset) (.bind (noLoad_scanLoop _ _ 0) fun r => ?_)
    cases r with
    | none => exact .pure noOffset
    | some o =>
      exact .bind (.forFrom (fun i => .lift (by simp [NoLoad])) _ _) fun _ => .pure _

theorem noLoad_myfree (ptr : ℕ) : Prog.Only NoLoad (myfree P x ptr) := by
  refine .ite (.pure ()) (.bind ?_ fun _ => .pure ())
  refine .bind (.lift (by simp [NoLoad])) fun rdy => .ite ?_ ?_
  · refine .ite (.bind (.lift (by simp [NoLoad])) fun nmemb => ?_) (.pure 2)
    exact .bind (.forFrom (fun i => .lift (by simp [NoLoad])) _ _) fun _ => .pure 0
  · exact .bind noLoad_myMemInit fun _ => .pure 1

/-- A program without loads performs none. -/
theorem not_loads {α : Type} {p : MemProg α} (hp : Prog.Only NoLoad p) (d : MallcoDev)
    (addr : ℕ) : ¬∃ o ∈ Prog.performed memStep p d, o.1 = .rdByte addr := by
  rintro ⟨o, ho, hload⟩
  exact hp.performed d o ho addr hload

/-- The loads of `mymemcpy`. -/
theorem load_mymemcpy (des src n : ℕ) (d : MallcoDev) (addr : ℕ) :
    (∃ o ∈ Prog.performed memStep (mymemcpy des src n) d, o.1 = .rdByte addr) ↔
      ∃ k < n, addr = (src + k) % 2 ^ 32 := by
  unfold mymemcpy
  have key : ∀ i d, (∃ o ∈ Prog.performed memStep (Prog.forFrom (fun i => do
      let v ← rdByte ((src + i) % 2 ^ 32)
      wrByte ((des + i) % 2 ^ 32) v) i n) d, o.1 = .rdByte addr) ↔
        ∃ k < n, addr = (src + (i + k)) % 2 ^ 32 := by
    induction n with
    | zero => simp [Prog.forFrom, Prog.performed]
    | succ n ih =>
      intro i d
      have hround : ∀ d, Prog.performed memStep (Prog.forFrom (fun i => do
          let v ← rdByte ((src + i) % 2 ^ 32)
          wrByte ((des + i) % 2 ^ 32) v) i (n + 1)) d =
          (.rdByte ((src + i) % 2 ^ 32), d) ::
            (.wrByte ((des + i) % 2 ^ 32) (d.mem ((src + i) % 2 ^ 32)), d) ::
              Prog.performed memStep (Prog.forFrom (fun i => do
                let v ← rdByte ((src + i) % 2 ^ 32)
                wrByte ((des + i) % 2 ^ 32) v) (i + 1) n)
                (memStep (.wrByte ((des + i) % 2 ^ 32) (d.mem ((src + i) % 2 ^ 32))) d).2 :=
        fun d => rfl
      have hshift : ∀ k, i + 1 + k = i + (k + 1) := fun k => by omega
      rw [hround, List.exists_mem_cons_iff, List.exists_mem_cons_iff, ih (i + 1),
        Nat.exists_lt_succ_left]
      simp only [MemOp.rdByte.injEq, reduceCtorEq, false_or, hshift, Nat.add_zero,
        eq_comm (a := addr)]
  simpa only [Nat.zero_add] using key 0 d

/-- The loads of a reallocation are those of its copy. -/
theorem load_myrealloc (hd : d.memrdy = true) {size o : ℕ} (hg : grant x d.memmap size = some o)
    (ptr addr : ℕ) :
    (∃ o ∈ Prog.performed memStep (myrealloc P x ptr size) d, o.1 = .rdByte addr) ↔
      ∃ k < size, addr = (ptr + k) % 2 ^ 32 := by
  have hrun := run_myMemMalloc P x hd size
  rw [hg] at hrun
  have hcopy := run_mymemcpy ((P.membase x + 32 * o) % 2 ^ 32) ptr size
    { d with memmap := fill d.memmap o (nmembOf x size) (nmembOf x size) }
  have hmalloc := not_loads (noLoad_myMemMalloc (P := P) (x := x) size) d addr
  have hfree (p : ℕ) : Prog.Only NoLoad (myfree P x ptr >>= fun _ => pure p) :=
    .bind (noLoad_myfree ptr) fun _ => .pure p
  rw [myrealloc, Prog.performed_bind_of _ hrun, if_neg (ne_noOffset o),
    Prog.performed_bind_of _ hcopy]
  simp only [List.mem_append, or_and_right, exists_or]
  rw [or_iff_right hmalloc, or_iff_left (not_loads (hfree _) _ addr), load_mymemcpy]

/-- The copy stays in the pool exactly when the new size fits behind the old pointer. -/
theorem readsInPool_of_grant (hd : d.memrdy = true) {size o o' : ℕ} (ho' : o' < memtblsize x)
    (hg : grant x d.memmap size = some o) :
    ReadsInPool P x d (blockAddr P x o') size ↔
      blockAddr P x o' + size ≤ P.membase x + memsize x := by
  have hpos := P.membase_pos x
  have hle := P.membase_add_le x
  have hlt := memsize_eq x
  have hloads : ReadsInPool P x d (blockAddr P x o') size ↔
      ∀ k < size, P.membase x ≤ (blockAddr P x o' + k) % 2 ^ 32 ∧
        (blockAddr P x o' + k) % 2 ^ 32 < P.membase x + memsize x := by
    constructor
    · intro h k hk
      obtain ⟨op, hop, hload⟩ := (load_myrealloc (P := P) hd hg (blockAddr P x o') _).mpr
        ⟨k, hk, rfl⟩
      exact h op hop _ hload
    · intro h op hop addr hload
      obtain ⟨k, hk, rfl⟩ := (load_myrealloc (P := P) hd hg (blockAddr P x o') addr).mp
        ⟨op, hop, hload⟩
      exact h k hk
  rw [hloads]
  unfold blockAddr
  constructor
  · intro h
    by_contra hbig
    -- the byte behind the pool is loaded; when the pool ends the address space, it is at `NULL`
    have hbad := h (memsize x - 32 * o') (by omega)
    rw [show P.membase x + 32 * o' + (memsize x - 32 * o') = P.membase x + memsize x by omega]
      at hbad
    omega
  · intro h k hk
    rw [Nat.mod_eq_of_lt (by omega)]
    omega

/-- **What a reallocation reads.** In every state of every run, a reallocation that gets its new
block reads only the memory of the pool exactly when as many bytes as are asked for follow the old
pointer there. -/
theorem readsInPool_iff (P : Placement) (x : MemX) (d : MallcoDev) (ops : List PoolOp) {a : Alloc}
    (ha : a ∈ (Runs.exec (opStep P x) (afterInit P x d) ops).live) {size : ℕ}
    (hok : (Prog.run memStep (myMemMalloc P x size)
      (Runs.exec (opStep P x) (afterInit P x d) ops).dev).1 ≠ some noOffset) :
    ReadsInPool P x (Runs.exec (opStep P x) (afterInit P x d) ops).dev a.ptr size ↔
      a.ptr + size ≤ P.membase x + memsize x := by
  have hheld : Held P x (Runs.exec (opStep P x) (afterInit P x d) ops) := Held.run d ops
  obtain ⟨o', ho', hptr⟩ := hheld.ptr a ha
  rw [run_myMemMalloc P x hheld.rdy] at hok
  cases hg : grant x (Runs.exec (opStep P x) (afterInit P x d) ops).dev.memmap size with
  | none =>
    rw [hg] at hok
    exact absurd rfl hok
  | some o =>
    rw [hptr]
    exact readsInPool_of_grant hheld.rdy ho' hg

/-- With its last block taken, the pool has room for another request. -/
theorem oneBlock_hasRoom {size : ℕ} (hpos : 0 < size) (hs : size ≤ 64) :
    (Prog.run memStep (myMemMalloc imagePlacement .sramin size)
      (Runs.exec (opStep imagePlacement .sramin) (afterInit imagePlacement .sramin zeroDev)
        oneBlock).dev).1 ≠ some noOffset := by
  have hsound := Sound.exec_opStep oneBlock_fits
  have hstart := Sound.afterInit (P := imagePlacement) (x := .sramin) zeroDev
  have hg : grant .sramin (afterInit imagePlacement .sramin zeroDev).dev.memmap 32 =
      some 1279 := grant_afterInit zeroDev (by decide) (by decide)
  have hfree : ∀ i < 2, (Runs.exec (opStep imagePlacement .sramin)
      (afterInit imagePlacement .sramin zeroDev) oneBlock).dev.memmap i = 0 := by
    intro i hi
    rw [oneBlock, Runs.exec_cons, Runs.exec_nil, opStep, callStep_malloc_of_some hstart.rdy hg]
    refine (fill_of_not_mem (by omega)).trans (hstart.drained rfl i ?_)
    exact hi.trans (by decide)
  have hblocks : blocks size ≤ 2 := by
    unfold blocks
    omega
  have hroom : (0 : ℕ) + blocks size ≤ memtblsize .sramin := by
    rw [Nat.zero_add]
    exact hblocks.trans (by decide)
  obtain ⟨o, ho⟩ := exists_grant_of_free .sramin hpos (by unfold maxRequest; omega) hroom
    fun i _ hi => hfree i (by omega)
  rw [run_myMemMalloc _ _ hsound.rdy, ho]
  simpa using ne_noOffset o

/-- A block that shrinks. -/
theorem readsInPool_iff_shrink : ReadsInPool imagePlacement .sramin
      (Runs.exec (opStep imagePlacement .sramin) (afterInit imagePlacement .sramin zeroDev)
        oneBlock).dev (blockAddr imagePlacement .sramin 1279) 16 ↔
      blockAddr imagePlacement .sramin 1279 + 16 ≤
        imagePlacement.membase .sramin + memsize .sramin :=
  readsInPool_iff imagePlacement .sramin zeroDev oneBlock
    (List.mem_of_getElem? oneBlock_live) (oneBlock_hasRoom (by decide) (by decide))

/-- The last block of the pool grows to two blocks: the copy loads the 32 bytes behind the pool. -/
theorem not_readsInPool_grow :
    (Prog.run memStep (myMemMalloc imagePlacement .sramin 64)
      (Runs.exec (opStep imagePlacement .sramin) (afterInit imagePlacement .sramin zeroDev)
        oneBlock).dev).1 ≠ some noOffset ∧
    ¬ReadsInPool imagePlacement .sramin
      (Runs.exec (opStep imagePlacement .sramin) (afterInit imagePlacement .sramin zeroDev)
        oneBlock).dev (blockAddr imagePlacement .sramin 1279) 64 := by
  have hok := oneBlock_hasRoom (show 0 < 64 by decide) (by decide)
  have hrdy := (Sound.exec_opStep oneBlock_fits).rdy
  refine ⟨hok, ?_⟩
  rw [run_myMemMalloc _ _ hrdy] at hok
  cases hg : grant .sramin (Runs.exec (opStep imagePlacement .sramin)
      (afterInit imagePlacement .sramin zeroDev) oneBlock).dev.memmap 64 with
  | none =>
    rw [hg] at hok
    exact absurd rfl hok
  | some o =>
    rw [readsInPool_of_grant hrdy (by decide) hg]
    decide

end Overread

end Enc28j60Udp
