import Enc28j60Udp.Malloc.Sound

/-!
# Bringing the stack up

`main` calls `lwip_comm_init` until it returns `0`. An attempt takes two regions from the internal
pool, one for lwIP's memory pools and one for its heap, and may then fail in `ENC28J60_Init` or in
`netif_add`. `lwip_comm_mem_malloc` gives its regions back when one of them is missing; the two
later exits of `lwip_comm_init` do not, and the next attempt overwrites the only pointers to them.

`attempt_clean_iff` is the analysis of one attempt, `bootLoop_clean_iff` that of every run of the
loop.
-/

namespace Enc28j60Udp

/-- `MEM_ALIGNMENT` of `lwipopts.h`. -/
def memAlignment : ℕ := 4

/-- `LWIP_MEM_ALIGN_SIZE`, and `MEMP_ALIGN_SIZE` without sanity regions. -/
def lwipMemAlignSize (size : ℕ) : ℕ := (size + memAlignment - 1) / memAlignment * memAlignment

/-- A pool of `memp_std.h`: number and size of its elements. -/
structure MempPool where
  num : ℕ
  size : ℕ

/-- `LWIP_PBUF_MEMPOOL`: the elements hold a `struct pbuf` of 16 bytes and a payload. -/
def pbufMempool (num payload : ℕ) : MempPool :=
  ⟨num, lwipMemAlignSize 16 + lwipMemAlignSize payload⟩

/-- The pools of `memp_std.h` under `opt.h` and `lwipopts.h`, with the structure sizes of the
32-bit target. -/
def mempStd : List MempPool :=
  [⟨4, 28⟩,    -- RAW_PCB
   ⟨6, 32⟩,    -- UDP_PCB
   ⟨10, 148⟩,  -- TCP_PCB
   ⟨6, 28⟩,    -- TCP_PCB_LISTEN
   ⟨20, 16⟩,   -- TCP_SEG
   ⟨5, 32⟩,    -- REASSDATA
   ⟨15, 24⟩,   -- FRAG_PBUF
   ⟨5, 16⟩,    -- SYS_TIMEOUT
   pbufMempool 10 0, pbufMempool 10 1500]

/-- `memp_get_memorysize`; `MEMP_SIZE` is `0`. -/
def mempGetMemorysize (pools : List MempPool) : ℕ :=
  memAlignment - 1 + (pools.map fun p => p.num * (0 + lwipMemAlignSize p.size)).sum

/-- `MEM_SIZE` of `lwipopts.h`. -/
def lwipMemSize : ℕ := 10 * 1024

/-- The size `lwip_comm_mem_malloc` asks for `ram_heap`. -/
def ramheapsize : ℕ :=
  lwipMemAlignSize lwipMemSize + 2 * lwipMemAlignSize (4 * 3) + memAlignment

/-- The size `lwip_comm_mem_malloc` asks for `memp_memory`. -/
def mempsize : ℕ := mempGetMemorysize mempStd

/-- The globals that hold the only pointers to the regions. -/
structure LwipRegions where
  mempMemory : ℕ
  ramHeap : ℕ

/-- How the calls of one attempt end, apart from the allocations. -/
structure InitOutcome where
  /-- `ENC28J60_Init` returns `1`. -/
  encFails : Bool
  /-- `netif_add` returns `NULL`. -/
  netifFails : Bool

section Model

variable (P : Placement)

/-- `lwip_comm_mem_free`. -/
def lwipCommMemFree (r : LwipRegions) : MemProg Unit := do
  myfree P .sramin r.mempMemory
  myfree P .sramin r.ramHeap

/-- `lwip_comm_mem_malloc`: the result and the globals it leaves. -/
def lwipCommMemMalloc : MemProg (ℕ × LwipRegions) := do
  let mempMemory ← mymalloc P .sramin mempsize
  let ramHeap ← mymalloc P .sramin ramheapsize
  if mempMemory = null ∨ ramHeap = null then do
    lwipCommMemFree P ⟨mempMemory, ramHeap⟩
    pure (1, ⟨mempMemory, ramHeap⟩)
  else pure (0, ⟨mempMemory, ramHeap⟩)

/-- `lwip_comm_init`: the result and the globals it leaves. `lwip_init`, `netif_add` and
`dhcp_start` work inside the two regions and call neither `mymalloc` nor `myfree`, except for the
staging buffers of packets, which are given back. -/
def lwipCommInit (o : InitOutcome) : MemProg (ℕ × LwipRegions) := do
  let (err, r) ← lwipCommMemMalloc P
  if err ≠ 0 then pure (1, r)
  else if o.encFails then pure (2, r)
  else if o.netifFails then pure (3, r)
  else pure (0, r)

/-- One attempt of the boot loop. -/
structure Attempt where
  before : MallcoDev
  outcome : InitOutcome
  result : ℕ
  regions : LwipRegions
  after : MallcoDev

/-- The attempt that starts with the pool `d`. -/
def attempt (d : MallcoDev) (o : InitOutcome) : Attempt :=
  let r := Prog.run memStep (lwipCommInit P o) d
  match r.1 with
  | some (code, g) => ⟨d, o, code, g, r.2⟩
  | none => ⟨d, o, 1, ⟨null, null⟩, r.2⟩

/-- `while (lwip_comm_init())`: the attempts up to the first that returns `0`. -/
def bootLoop : MallcoDev → List InitOutcome → List Attempt
  | _, [] => []
  | d, o :: os =>
    let a := attempt P d o
    if a.result = 0 then [a] else a :: bootLoop a.after os

/-- The block a region pointer addresses is free in the table `m`. -/
def RegionFree (m : ℕ → ℕ) (ptr size : ℕ) : Prop :=
  ptr ≠ null → ∀ i ∈ (Alloc.mk ptr size).cells P .sramin, m i = 0

/-- A failed attempt leaves the map as it found it, and no region of its own marked. -/
structure Clean (a : Attempt) : Prop where
  map_eq : a.after.memmap = a.before.memmap
  mempMemory_free : RegionFree P a.after.memmap a.regions.mempMemory mempsize
  ramHeap_free : RegionFree P a.after.memmap a.regions.ramHeap ramheapsize

/-- The table has room for both regions. -/
def HasRoom (m : ℕ → ℕ) : Prop :=
  ∃ o₁ o₂, grant .sramin m mempsize = some o₁ ∧
    grant .sramin (fill m o₁ (blocks mempsize) (blocks mempsize)) ramheapsize = some o₂

/-- The guard of an attempt: once both regions are granted, nothing fails any more. -/
def NoLateFailure (a : Attempt) : Prop :=
  HasRoom a.before.memmap → a.outcome.encFails = false ∧ a.outcome.netifFails = false

end Model

example : mempsize = 18195 := by decide

example : ramheapsize = 10268 := by decide

theorem fill_fill_cancel {m : ℕ → ℕ} {o n : ℕ} (v : ℕ)
    (h : ∀ i, o ≤ i → i < o + n → m i = 0) : fill (fill m o n v) o n 0 = m := by
  funext i
  by_cases hi : o ≤ i ∧ i < o + n
  · rw [fill_of_mem hi, h i hi.1 hi.2]
  · rw [fill_of_not_mem hi, fill_of_not_mem hi]

section Attempt

variable {P : Placement} {d : MallcoDev}

theorem mempsize_le : mempsize ≤ maxRequest := by decide

theorem ramheapsize_le : ramheapsize ≤ maxRequest := by decide

/-- The pool with one more region marked. -/
def marked (d : MallcoDev) (o size : ℕ) : MallcoDev :=
  { d with memmap := fill d.memmap o (blocks size) (blocks size) }

theorem run_mymalloc_region (hd : d.memrdy = true) {size o : ℕ} (hs : size ≤ maxRequest)
    (hg : grant .sramin d.memmap size = some o) :
    Prog.run memStep (mymalloc P .sramin size) d =
      (some (blockAddr P .sramin o), marked d o size) := by
  rw [run_mymalloc_of_some P .sramin hd hg, nmembOf_of_le .sramin hs, marked]

/-- A region that was granted and is given back: the pool is as before. -/
theorem run_myfree_region (hd : d.memrdy = true) {size o : ℕ} (hs : size ≤ maxRequest)
    (hg : grant .sramin d.memmap size = some o) :
    Prog.run memStep (myfree P .sramin (blockAddr P .sramin o)) (marked d o size) =
      (some (), d) := by
  obtain ⟨hpos, hin, hfree⟩ := Overlay.grant_free hs hg
  have hcell : (marked d o size).memmap o = blocks size := fill_of_mem (by omega)
  have hrun := run_myfree P .sramin (d := marked d o size) hd (o := o) (by omega)
  rw [hcell] at hrun
  rw [hrun, marked, fill_fill_cancel _ hfree]

theorem regionFree_null (m : ℕ → ℕ) (size : ℕ) : RegionFree P m null size :=
  fun h => absurd rfl h

theorem regionFree_of_grant {m : ℕ → ℕ} {size o : ℕ} (hs : size ≤ maxRequest)
    (hg : grant .sramin m size = some o) : RegionFree P m (blockAddr P .sramin o) size := by
  intro _ i hi
  rw [Alloc.mem_cells, Alloc.first_blockAddr] at hi
  exact (Overlay.grant_free hs hg).2.2 i hi.1 hi.2

/-- `lwip_comm_mem_malloc` when a region is missing: it fails and gives the other one back. -/
theorem run_lwipCommMemMalloc_of_not_hasRoom (hd : d.memrdy = true) (h : ¬HasRoom d.memmap) :
    ∃ r, Prog.run memStep (lwipCommMemMalloc P) d = (some (1, r), d) ∧
      RegionFree P d.memmap r.mempMemory mempsize ∧
      RegionFree P d.memmap r.ramHeap ramheapsize := by
  cases hg₁ : grant .sramin d.memmap mempsize with
  | none =>
    rw [lwipCommMemMalloc, Prog.run_bind_of _ (run_mymalloc_of_none P .sramin hd hg₁)]
    cases hg₂ : grant .sramin d.memmap ramheapsize with
    | none =>
      rw [Prog.run_bind_of _ (run_mymalloc_of_none P .sramin hd hg₂), if_pos (Or.inl rfl)]
      exact ⟨⟨null, null⟩, rfl, regionFree_null _ _, regionFree_null _ _⟩
    | some o₂ =>
      rw [Prog.run_bind_of _ (run_mymalloc_region hd ramheapsize_le hg₂), if_pos (Or.inl rfl),
        lwipCommMemFree, bind_assoc, Prog.run_bind_of _ (run_myfree_null P .sramin _),
        Prog.run_bind_of _ (run_myfree_region hd ramheapsize_le hg₂)]
      exact ⟨⟨null, _⟩, rfl, regionFree_null _ _, regionFree_of_grant ramheapsize_le hg₂⟩
  | some o₁ =>
    rw [lwipCommMemMalloc, Prog.run_bind_of _ (run_mymalloc_region hd mempsize_le hg₁)]
    cases hg₂ : grant .sramin (marked d o₁ mempsize).memmap ramheapsize with
    | none =>
      rw [Prog.run_bind_of _ (run_mymalloc_of_none P .sramin (d := marked d o₁ mempsize) hd hg₂),
        if_pos (Or.inr rfl), lwipCommMemFree, bind_assoc,
        Prog.run_bind_of _ (run_myfree_region hd mempsize_le hg₁),
        Prog.run_bind_of _ (run_myfree_null P .sramin _)]
      exact ⟨⟨_, null⟩, rfl, regionFree_of_grant mempsize_le hg₁, regionFree_null _ _⟩
    | some o₂ => exact absurd ⟨o₁, o₂, hg₁, hg₂⟩ h

/-- `lwip_comm_mem_malloc` with room for both regions: it succeeds, and the map has changed. -/
theorem run_lwipCommMemMalloc_of_hasRoom (hd : d.memrdy = true) (h : HasRoom d.memmap) :
    ∃ r d', Prog.run memStep (lwipCommMemMalloc P) d = (some (0, r), d') ∧
      d'.memrdy = true ∧ d'.memmap ≠ d.memmap := by
  obtain ⟨o₁, o₂, hg₁, hg₂⟩ := h
  rw [lwipCommMemMalloc, Prog.run_bind_of _ (run_mymalloc_region hd mempsize_le hg₁),
    Prog.run_bind_of _ (run_mymalloc_region (d := marked d o₁ mempsize) hd ramheapsize_le hg₂),
    if_neg (not_or.mpr ⟨blockAddr_ne_null P .sramin o₁, blockAddr_ne_null P .sramin o₂⟩)]
  refine ⟨_, _, rfl, hd, fun he => ?_⟩
  -- the first cell of the heap region was free and is now marked
  obtain ⟨hpos₁, -, -⟩ := Overlay.grant_free mempsize_le hg₁
  obtain ⟨hpos₂, -, hfree⟩ := Overlay.grant_free ramheapsize_le hg₂
  have hnew : (marked (marked d o₁ mempsize) o₂ ramheapsize).memmap o₂ = blocks ramheapsize :=
    fill_of_mem (by omega)
  rw [he] at hnew
  have hold := hfree o₂ (Nat.le_refl o₂) (by omega)
  by_cases hin : o₁ ≤ o₂ ∧ o₂ < o₁ + blocks mempsize
  · rw [fill_of_mem hin] at hold
    omega
  · rw [fill_of_not_mem hin] at hold
    omega

/-- The result of an attempt that has both regions. -/
def lateResult (o : InitOutcome) : ℕ := if o.encFails then 2 else if o.netifFails then 3 else 0

theorem lateResult_eq_zero {o : InitOutcome} :
    lateResult o = 0 ↔ o.encFails = false ∧ o.netifFails = false := by
  obtain ⟨e, n⟩ := o
  cases e <;> cases n <;> decide

theorem attempt_of_not_hasRoom (hd : d.memrdy = true) (o : InitOutcome) (h : ¬HasRoom d.memmap) :
    ∃ r, attempt P d o = ⟨d, o, 1, r, d⟩ ∧ RegionFree P d.memmap r.mempMemory mempsize ∧
      RegionFree P d.memmap r.ramHeap ramheapsize := by
  obtain ⟨r, hrun, hfree⟩ := run_lwipCommMemMalloc_of_not_hasRoom (P := P) hd h
  have hinit : Prog.run memStep (lwipCommInit P o) d = (some (1, r), d) := by
    rw [lwipCommInit, Prog.run_bind_of _ hrun]
    rfl
  exact ⟨r, by simp only [attempt, hinit], hfree⟩

theorem attempt_of_hasRoom (hd : d.memrdy = true) (o : InitOutcome) (h : HasRoom d.memmap) :
    ∃ r d', attempt P d o = ⟨d, o, lateResult o, r, d'⟩ ∧ d'.memrdy = true ∧
      d'.memmap ≠ d.memmap := by
  obtain ⟨r, d', hrun, hd', hne⟩ := run_lwipCommMemMalloc_of_hasRoom (P := P) hd h
  have hinit : Prog.run memStep (lwipCommInit P o) d = (some (lateResult o, r), d') := by
    rw [lwipCommInit, Prog.run_bind_of _ hrun, lateResult]
    dsimp only
    rw [if_neg (not_not.mpr rfl), Prog.run_ite, Prog.run_ite]
    split <;> [rfl; (split <;> rfl)]
  exact ⟨r, d', by simp only [attempt, hinit], hd', hne⟩

/-- An attempt leaves the pool ready. -/
theorem memrdy_attempt (hd : d.memrdy = true) (o : InitOutcome) :
    (attempt P d o).after.memrdy = true := by
  by_cases h : HasRoom d.memmap
  · obtain ⟨r, d', ha, hd', -⟩ := attempt_of_hasRoom (P := P) hd o h
    rw [ha]
    exact hd'
  · obtain ⟨r, ha, -⟩ := attempt_of_not_hasRoom (P := P) hd o h
    rw [ha]
    exact hd

/-- One attempt: a failure leaves the pool as it was exactly when it is not a late one. -/
theorem attempt_clean_iff (hd : d.memrdy = true) (o : InitOutcome) :
    ((attempt P d o).result ≠ 0 → Clean P (attempt P d o)) ↔ NoLateFailure (attempt P d o) := by
  by_cases h : HasRoom d.memmap
  · obtain ⟨r, d', ha, -, hne⟩ := attempt_of_hasRoom (P := P) hd o h
    rw [ha, NoLateFailure]
    constructor
    · refine fun hc _ => lateResult_eq_zero.mp (of_not_not fun h0 => hne (hc h0).map_eq)
    · exact fun hn h0 => absurd (lateResult_eq_zero.mpr (hn h)) h0
  · obtain ⟨r, ha, hm, hr⟩ := attempt_of_not_hasRoom (P := P) hd o h
    rw [ha]
    exact iff_of_true (fun _ => ⟨rfl, hm, hr⟩) fun hroom => absurd hroom h

/-- A first attempt that has both regions and then fails is not clean. -/
theorem not_clean_of_hasRoom (hd : d.memrdy = true) (hroom : HasRoom d.memmap) :
    ¬∀ a ∈ bootLoop P d [⟨true, false⟩], a.result ≠ 0 → Clean P a := by
  intro h
  obtain ⟨r, d', ha, -, hne⟩ := attempt_of_hasRoom (P := P) hd ⟨true, false⟩ hroom
  have hmem : attempt P d ⟨true, false⟩ ∈ bootLoop P d [⟨true, false⟩] := by
    rw [bootLoop]
    split <;> exact List.mem_cons_self
  have hclean := h _ hmem
  rw [ha] at hclean
  have hlate : lateResult ⟨true, false⟩ ≠ 0 := by decide
  exact hne (hclean hlate).map_eq

/-- Every attempt of the loop starts on a ready pool. -/
theorem exists_of_mem_bootLoop (hd : d.memrdy = true) {os : List InitOutcome} {a : Attempt}
    (ha : a ∈ bootLoop P d os) : ∃ d' o, d'.memrdy = true ∧ a = attempt P d' o := by
  induction os generalizing d with
  | nil => simp [bootLoop] at ha
  | cons o os ih =>
    rw [bootLoop] at ha
    split at ha
    · exact ⟨d, o, hd, List.mem_singleton.mp ha⟩
    · rcases List.mem_cons.mp ha with rfl | ha
      · exact ⟨d, o, hd, rfl⟩
      · exact ih (memrdy_attempt hd o) ha

end Attempt

/-- **The boot loop.** In every run, all failed attempts leave the map as they found it exactly
when no attempt fails after it was granted both regions. -/
theorem bootLoop_clean_iff (P : Placement) (d : MallcoDev) (os : List InitOutcome) :
    (∀ a ∈ bootLoop P (afterInit P .sramin d).dev os, a.result ≠ 0 → Clean P a) ↔
      ∀ a ∈ bootLoop P (afterInit P .sramin d).dev os, NoLateFailure a := by
  have hd := (Sound.afterInit (P := P) (x := .sramin) d).rdy
  refine forall₂_congr fun a ha => ?_
  obtain ⟨d', o, hd', rfl⟩ := exists_of_mem_bootLoop hd ha
  exact attempt_clean_iff hd' o

/-- The cleared table has room for both regions. -/
theorem hasRoom_afterInit (P : Placement) (d : MallcoDev) :
    HasRoom (afterInit P .sramin d).dev.memmap := by
  have hzero := (Sound.afterInit (P := P) (x := .sramin) d).drained rfl
  have hT : memtblsize .sramin = 1280 := rfl
  have hn₁ : blocks mempsize = 569 := by decide
  have hn₂ : blocks ramheapsize = 321 := by decide
  generalize (afterInit P .sramin d).dev.memmap = m at *
  obtain ⟨o₁, hg₁⟩ := exists_grant_of_free .sramin (o := 0) (by decide) mempsize_le
    (by rw [hn₁, hT]; omega) fun i _ hi => hzero i (by omega)
  obtain ⟨-, hin, -⟩ := Overlay.grant_free mempsize_le hg₁
  -- there are free cells enough below the first region or above it
  have hout : ∀ i < 1280, ¬(o₁ ≤ i ∧ i < o₁ + 569) → fill m o₁ 569 569 i = 0 := fun i hi ho =>
    (fill_of_not_mem ho).trans (hzero i hi)
  obtain ⟨o₂, hg₂⟩ : ∃ o₂, grant .sramin (fill m o₁ (blocks mempsize) (blocks mempsize))
      ramheapsize = some o₂ := by
    rw [hn₁] at hin ⊢
    by_cases ho : 321 ≤ o₁
    · exact exists_grant_of_free .sramin (o := 0) (by decide) ramheapsize_le
        (by rw [hn₂, hT]; omega) fun i _ hi => hout i (by omega) (by omega)
    · exact exists_grant_of_free .sramin (o := o₁ + 569) (by decide) ramheapsize_le
        (by rw [hn₂, hT]; omega) fun i _ hi => hout i (by omega) (by omega)
  exact ⟨o₁, o₂, hg₁, hg₂⟩

/-- A first attempt whose `ENC28J60_Init` fails keeps both regions. -/
theorem bootLoop_not_clean :
    ¬∀ a ∈ bootLoop imagePlacement (afterInit imagePlacement .sramin zeroDev).dev [⟨true, false⟩],
      a.result ≠ 0 → Clean imagePlacement a :=
  not_clean_of_hasRoom (Sound.afterInit zeroDev).rdy (hasRoom_afterInit imagePlacement zeroDev)

end Enc28j60Udp
