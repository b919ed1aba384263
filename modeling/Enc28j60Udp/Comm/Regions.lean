import Enc28j60Udp.Comm.Boot
import Enc28j60Udp.Foundations.Carve

/-!
# What lwIP carves out of its two regions

`memp_get_memorysize` adds up, in 32 bits, what the pools need. `memp_init` cuts the elements out of
the region on its own account: it aligns the base, and its stride is the entry of `memp_sizes`,
which has 16 bits, as the entries of `memp_num` and the loop counters have. Where the aligned sizes
fit their entries the elements are the slots of `carve` (`mempInit_linked`), and these fit.

`mem_init` builds its heap in `ram_heap` between two `struct mem`.
-/

namespace Enc28j60Udp

/-- `LWIP_MEM_ALIGN` of a 32-bit address. -/
def lwipMemAlign (addr : ℕ) : ℕ :=
  (addr + memAlignment - 1) % 2 ^ 32 / memAlignment * memAlignment

/-- The word `memp_get_memorysize` returns. -/
def mempMemorysize (pools : List MempPool) : ℕ := mempGetMemorysize pools % 2 ^ 32

/-- The entry of `memp_sizes` for a pool. -/
def mempSizes (p : MempPool) : ℕ := lwipMemAlignSize p.size % 2 ^ 16

/-- The entry of `memp_num` for a pool. -/
def mempNum (p : MempPool) : ℕ := p.num % 2 ^ 16

/-- What `memp_init` works on. `linked` records the elements it has linked, in order, each with the
pool it is for. -/
structure MempState where
  memp : ℕ
  mempTab : ℕ → ℕ
  next : ℕ → ℕ
  linked : List (MempPool × ℕ)

/-- One round of the loop over the elements of pool `i`; `MEMP_SIZE` is `0`. -/
def mempLink (p : MempPool) (i : ℕ) (s : MempState) : MempState where
  memp := (s.memp + (0 + mempSizes p)) % 2 ^ 32
  mempTab := Function.update s.mempTab i s.memp
  next := Function.update s.next s.memp (s.mempTab i)
  linked := s.linked ++ [(p, s.memp)]

/-- The round for pool `i`: an empty list, and one element after the other linked in front. -/
def mempPool (p : MempPool) (i : ℕ) (s : MempState) : MempState :=
  (mempLink p i)^[mempNum p] { s with mempTab := Function.update s.mempTab i null }

/-- `for (i = 0; i < MEMP_MAX; ++i)` of `memp_init`, with a `u16` counter; `none` without fuel. -/
def mempInitLoop (pools : List MempPool) : ℕ → ℕ → MempState → Option MempState
  | 0, _, _ => none
  | fuel + 1, i, s =>
    match pools[i]? with
    | none => some s
    | some p => mempInitLoop pools fuel ((i + 1) % 2 ^ 16) (mempPool p i s)

/-- `memp_init` on the region at `mempMemory`. -/
def mempInit (pools : List MempPool) (mempMemory : ℕ) : Option MempState :=
  mempInitLoop pools (pools.length + 1) 0
    { memp := lwipMemAlign mempMemory, mempTab := fun _ => null, next := fun _ => null
      linked := [] }

/-- `struct mem`. -/
structure Mem where
  next : ℕ
  prev : ℕ
  used : ℕ

/-- What `mem_init` leaves: the globals, and the two structures it writes. -/
structure MemInit where
  ram : ℕ
  ramEnd : ℕ
  lfree : ℕ
  start : Mem
  stop : Mem

/-- `mem_init` on the region at `ramHeap`. The fields it does not write hold what they held. -/
def memInit (ramHeap : ℕ) : MemInit :=
  let ram := lwipMemAlign ramHeap
  let memSizeAligned := lwipMemAlignSize lwipMemSize
  { ram := ram, ramEnd := ram + memSizeAligned, lfree := ram,
    start := ⟨memSizeAligned, 0, 0⟩, stop := ⟨memSizeAligned, memSizeAligned, 1⟩ }

/-- The bytes an element of the pool occupies. -/
def MempPool.elemSize (p : MempPool) : ℕ := lwipMemAlignSize p.size

/-- The pools of the elements in the order of `memp_init`. -/
def mempOrder (pools : List MempPool) : List MempPool :=
  pools.flatMap fun p => List.replicate (mempNum p) p

theorem lwipMemAlign_spec {addr : ℕ} (h : addr + 3 < 2 ^ 32) :
    addr ≤ lwipMemAlign addr ∧ lwipMemAlign addr ≤ addr + 3 := by
  have hword : (addr + 3) % 2 ^ 32 = addr + 3 := Nat.mod_eq_of_lt h
  simp only [lwipMemAlign, memAlignment, show addr + 4 - 1 = addr + 3 by omega, hword]
  omega

/-- An element size of at most `65532` fits its entry of `memp_sizes`. -/
theorem mempSizes_eq {p : MempPool} (h : p.size ≤ 65532) : mempSizes p = p.elemSize := by
  simp only [mempSizes, MempPool.elemSize, lwipMemAlignSize, memAlignment]
  omega

theorem demand_mempOrder (pools : List MempPool) :
    demand MempPool.elemSize (mempOrder pools) + 3 ≤ mempGetMemorysize pools := by
  induction pools with
  | nil => simp [mempOrder, mempGetMemorysize, memAlignment]
  | cons p pools ih =>
    have hnum : mempNum p * p.elemSize ≤ p.num * p.elemSize :=
      Nat.mul_le_mul_right _ (Nat.mod_le _ _)
    simp only [mempOrder, mempGetMemorysize, memAlignment, MempPool.elemSize, List.flatMap_cons,
      demand_append, demand_replicate, List.map_cons, List.sum_cons, Nat.zero_add] at ih hnum ⊢
    omega

section Init

variable {pools : List MempPool} {p : MempPool} {i n : ℕ} {s : MempState}

/-- The rounds for one pool cut its slots. -/
theorem mempLink_iterate (hp : mempSizes p = p.elemSize) (h : s.memp + n * p.elemSize < 2 ^ 32) :
    ((mempLink p i)^[n] s).memp = s.memp + n * p.elemSize ∧
      ((mempLink p i)^[n] s).linked =
        s.linked ++ carve MempPool.elemSize s.memp (List.replicate n p) := by
  induction n generalizing s with
  | zero => simp [carve]
  | succ n ih =>
    rw [Nat.add_mul, Nat.one_mul] at h
    have hmemp : (mempLink p i s).memp = s.memp + p.elemSize := by
      simp only [mempLink, hp, Nat.zero_add]
      exact Nat.mod_eq_of_lt (by omega)
    obtain ⟨hend, hlinked⟩ := ih (s := mempLink p i s) (by omega)
    rw [Function.iterate_succ_apply, hend, hlinked, hmemp]
    refine ⟨by rw [Nat.add_mul, Nat.one_mul]; omega, ?_⟩
    simp [mempLink, List.replicate_succ, carve]

theorem mempPool_spec (hp : mempSizes p = p.elemSize)
    (h : s.memp + mempNum p * p.elemSize < 2 ^ 32) :
    (mempPool p i s).memp = s.memp + mempNum p * p.elemSize ∧
      (mempPool p i s).linked =
        s.linked ++ carve MempPool.elemSize s.memp (List.replicate (mempNum p) p) :=
  mempLink_iterate (s := { s with mempTab := Function.update s.mempTab i null }) hp h

/-- The rounds for the pools from `i` on cut their slots one after the other. -/
theorem mempInitLoop_linked {rest : List MempPool} {fuel : ℕ} (hrest : pools.drop i = rest)
    (hlen : pools.length < 2 ^ 16) (hfuel : rest.length < fuel)
    (hsize : ∀ p ∈ rest, mempSizes p = p.elemSize)
    (hfit : s.memp + demand MempPool.elemSize (mempOrder rest) < 2 ^ 32) :
    ∃ s', mempInitLoop pools fuel i s = some s' ∧
      s'.linked = s.linked ++ carve MempPool.elemSize s.memp (mempOrder rest) := by
  induction rest generalizing i s fuel with
  | nil =>
    obtain ⟨fuel, rfl⟩ := Nat.exists_eq_succ_of_ne_zero (Nat.ne_of_gt (Nat.zero_lt_of_lt hfuel))
    have hend : pools[i]? = none := List.getElem?_eq_none (List.drop_eq_nil_iff.1 hrest)
    exact ⟨s, by simp [mempInitLoop, hend], by simp [mempOrder, carve]⟩
  | cons p rest ih =>
    obtain ⟨fuel, rfl⟩ := Nat.exists_eq_succ_of_ne_zero (Nat.ne_of_gt (Nat.zero_lt_of_lt hfuel))
    have hget : pools[i]? = some p := by
      rw [← Nat.add_zero i, ← List.getElem?_drop, hrest, List.getElem?_cons_zero]
    have hi : i < pools.length := (List.getElem?_eq_some_iff.1 hget).1
    have horder : mempOrder (p :: rest) = List.replicate (mempNum p) p ++ mempOrder rest := by
      simp [mempOrder]
    rw [horder, demand_append, demand_replicate] at hfit
    obtain ⟨hmemp, hlinked⟩ := mempPool_spec (i := i) (s := s) (hsize p (by simp)) (by omega)
    obtain ⟨s', hrun, hs'⟩ := @ih ((i + 1) % 2 ^ 16) (mempPool p i s) fuel
      (by rw [Nat.mod_eq_of_lt (by omega), ← List.drop_drop, hrest, List.drop_one, List.tail_cons])
      (by simpa using hfuel) (fun q hq => hsize q (by simp [hq])) (by omega)
    refine ⟨s', by rw [Nat.succ_eq_add_one, mempInitLoop, hget]; exact hrun, ?_⟩
    rw [hs', hlinked, hmemp, horder, carve_append, demand_replicate, List.append_assoc]

/-- `memp_init` links the slots `carve` cuts from the aligned base. -/
theorem mempInit_linked {base : ℕ} (hlen : pools.length < 2 ^ 16)
    (hsize : ∀ p ∈ pools, p.size ≤ 65532) (hfit : base + mempGetMemorysize pools < 2 ^ 32) :
    ∃ s, mempInit pools base = some s ∧
      s.linked = carve MempPool.elemSize (lwipMemAlign base) (mempOrder pools) := by
  have hdemand := demand_mempOrder pools
  have halign := @lwipMemAlign_spec base (by omega)
  obtain ⟨s, hrun, hs⟩ := @mempInitLoop_linked pools 0
    ⟨lwipMemAlign base, fun _ => null, fun _ => null, []⟩ pools (pools.length + 1) rfl hlen
    (by omega) (fun p hp => mempSizes_eq (hsize p hp)) (by simp only; omega)
  exact ⟨s, hrun, by simpa using hs⟩

/-- A table that the counter cannot pass is never left. -/
theorem mempInitLoop_eq_none (hlen : 2 ^ 16 ≤ pools.length) (fuel : ℕ) (hi : i < 2 ^ 16) :
    mempInitLoop pools fuel i s = none := by
  induction fuel generalizing i s with
  | zero => rfl
  | succ fuel ih =>
    rw [mempInitLoop, List.getElem?_eq_getElem (by omega)]
    exact ih (Nat.mod_lt _ (by omega))

end Init

/-- The bytes of the elements of a state are pairwise disjoint. -/
def ElemsDisjoint (s : MempState) : Prop :=
  s.linked.Pairwise fun e f => Disjoint (span e.2 e.1.elemSize) (span f.2 f.1.elemSize)

/-- The bytes of the elements of a state lie in the region of `size` bytes at `base`. -/
def ElemsWithin (s : MempState) (base size : ℕ) : Prop :=
  ∀ e ∈ s.linked, span e.2 e.1.elemSize ⊆ span base size

/-- The heap of `mem_init`: from its start to the end of the structure at its end marker. -/
def MemInit.bytes (m : MemInit) (sizeofMem : ℕ) : Set ℕ := Set.Ico m.ram (m.ramEnd + sizeofMem)

theorem memInit_bytes {ramHeap sizeofMem : ℕ} (hmem : sizeofMem ≤ 12)
    (hfit : ramHeap + ramheapsize ≤ 2 ^ 32) :
    (memInit ramHeap).bytes sizeofMem ⊆ span ramHeap ramheapsize := by
  have hsize : ramheapsize = 10240 + 28 := by decide
  have haligned : lwipMemAlignSize lwipMemSize = 10240 := by decide
  have halign := @lwipMemAlign_spec ramHeap (by omega)
  intro x hx
  have hstart : lwipMemAlign ramHeap ≤ x := hx.1
  have hend : x < lwipMemAlign ramHeap + lwipMemAlignSize lwipMemSize + sizeofMem := hx.2
  exact ⟨by omega, by omega⟩

/-- Where sizes and counters fit their types, both regions hold what is carved out of them. -/
theorem regions_suffice (pools : List MempPool) (mempMemory ramHeap sizeofMem : ℕ)
    (hlen : pools.length < 2 ^ 16) (hsize : ∀ p ∈ pools, p.size ≤ 65532)
    (hword : mempGetMemorysize pools < 2 ^ 32)
    (hfit : mempMemory + mempMemorysize pools < 2 ^ 32)
    (hmem : sizeofMem ≤ 12) (hheap : ramHeap + ramheapsize ≤ 2 ^ 32) :
    (∃ s, mempInit pools mempMemory = some s ∧ ElemsDisjoint s ∧
      ElemsWithin s mempMemory (mempMemorysize pools)) ∧
    (memInit ramHeap).ramEnd = (memInit ramHeap).ram + lwipMemAlignSize lwipMemSize ∧
    (memInit ramHeap).bytes sizeofMem ⊆ span ramHeap ramheapsize := by
  have hreturned : mempMemorysize pools = mempGetMemorysize pools := Nat.mod_eq_of_lt hword
  rw [hreturned] at hfit ⊢
  obtain ⟨s, hrun, hlinked⟩ := mempInit_linked hlen hsize hfit
  have hdemand := demand_mempOrder pools
  have halign := @lwipMemAlign_spec mempMemory (by omega)
  refine ⟨⟨s, hrun, ?_, fun e he => ?_⟩, rfl, memInit_bytes hmem hheap⟩
  · rw [ElemsDisjoint, hlinked]
    exact carve_pairwise _ _ _
  · rw [hlinked] at he
    have hslot := carve_within he
    exact Set.Ico_subset_Ico (by omega) (by omega)

/-- The regions of the program at the addresses of two blocks of the pool. -/
theorem regions_suffice_mempStd :
    (∃ s, mempInit mempStd 0x20001000 = some s ∧ ElemsDisjoint s ∧
      ElemsWithin s 0x20001000 (mempMemorysize mempStd)) ∧
    (memInit 0x20006000).ramEnd = (memInit 0x20006000).ram + lwipMemAlignSize lwipMemSize ∧
    (memInit 0x20006000).bytes 6 ⊆ span 0x20006000 ramheapsize :=
  regions_suffice mempStd 0x20001000 0x20006000 6 (by decide) (by decide) (by decide) (by decide)
    (by decide) (by decide)

/-- Two elements of `65533` bytes are linked at one address; a sum that wraps gives a region
smaller than the elements linked in it; and `65536` pools are never finished. -/
theorem regions_do_not_suffice :
    (∃ s, mempInit [⟨2, 65533⟩] 0x20000000 = some s ∧ ¬ ElemsDisjoint s) ∧
    (∃ s, mempInit [⟨65541, 65532⟩] 0x20000000 = some s ∧
      ¬ ElemsWithin s 0x20000000 (mempMemorysize [⟨65541, 65532⟩])) ∧
    mempInit (List.replicate (2 ^ 16) ⟨1, 16⟩) 0x20000000 = none := by
  refine ⟨⟨_, rfl, fun h => ?_⟩, ⟨_, rfl, fun h => ?_⟩, ?_⟩
  · -- the entry of `memp_sizes` is `0`
    have hpair : Disjoint (span 0x20000000 65536) (span 0x20000000 65536) :=
      List.rel_of_pairwise_cons h (.head [])
    have hfirst : (0x20000000 : ℕ) ∈ span 0x20000000 65536 := by simp [span]
    exact Set.disjoint_left.1 hpair hfirst hfirst
  · -- the second of five elements lies behind the `65519` bytes of the region
    have hsecond : span (0x20000000 + 65532) 65532 ⊆ span 0x20000000 65519 :=
      h (⟨65541, 65532⟩, 0x20000000 + 65532) (.tail _ (.head _))
    have hin := hsecond (a := 0x20000000 + 65532) (by simp [span])
    simp [span] at hin
  · exact mempInitLoop_eq_none (List.length_replicate ..).ge _ (by omega)

end Enc28j60Udp
