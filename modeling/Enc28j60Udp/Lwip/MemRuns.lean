import Enc28j60Udp.Foundations.Runs
import Enc28j60Udp.Lwip.MemRefine

/-!
# Runs of the heap

The clients of the heap take blocks, free and trim those they hold, and write to them, in any order.
`Client` is the heap with the blocks that are held, and with what was written to them last.

In every run in which the clients keep to their blocks no assertion fails, the blocks are aligned,
lie in the heap and apart from each other, and hold what was written to them (`heap_sound`).
`mem_malloc` fails only when there is no room (`memMalloc_eq_null_iff`), and when all blocks are
freed the heap is one block again (`heap_restored`).
-/

namespace Enc28j60Udp

namespace Lwip

open Blocks

/-! ## The model -/

/-- The heap, the blocks that are held with the size they were taken for, and the bytes that they
were left with. -/
structure Client where
  heap : Heap
  live : List (ℕ × ℕ)
  data : ℕ → UInt8

/-- The byte at an address. -/
def Heap.byte (h : Heap) (x : ℕ) : UInt8 := h.ram (x - h.base)

/-- What clients do. -/
inductive MemOp
  | malloc (size : ℕ)
  | free (rmem : ℕ)
  | trim (rmem newsize : ℕ)
  | write (addr : ℕ) (b : UInt8)

/-- One operation. -/
def clientStep (s : Option Client) (op : MemOp) : Option Client := do
  let c ← s
  match op with
  | .malloc size => do
    let (p, h) ← memMalloc c.heap size
    if p = null then some { c with heap := h }
    else
      let n := effectiveSize size
      some ⟨h, (p, n) :: c.live, fun x => if p ≤ x ∧ x < p + n then h.byte x else c.data x⟩
  | .free rmem => do
    let h ← memFree c.heap rmem
    some { c with heap := h, live := c.live.filter fun e => e.1 ≠ rmem }
  | .trim rmem newsize => do
    let (p, h) ← memTrim c.heap rmem newsize
    some { c with
      heap := h
      live := c.live.map fun e => if e.1 = p then (p, effectiveSize newsize) else e }
  | .write addr b =>
    some { c with
      heap := { c.heap with ram := Function.update c.heap.ram (addr - c.heap.base) b }
      data := Function.update c.data addr b }

/-- A client keeps to the blocks that are held: it frees them, makes them smaller and writes to
them. -/
def Client.Allowed (c : Client) : MemOp → Prop
  | .malloc size => size < 2 ^ 16
  | .free rmem => rmem = null ∨ ∃ e ∈ c.live, e.1 = rmem
  | .trim rmem newsize => ∃ e ∈ c.live, e.1 = rmem ∧ effectiveSize newsize ≤ e.2
  | .write addr _ => ∃ e ∈ c.live, e.1 ≤ addr ∧ addr < e.1 + e.2

instance (c : Client) : DecidablePred c.Allowed
  | .malloc size => inferInstanceAs (Decidable (size < 2 ^ 16))
  | .free rmem => inferInstanceAs (Decidable (rmem = null ∨ ∃ e ∈ c.live, e.1 = rmem))
  | .trim rmem newsize =>
    inferInstanceAs (Decidable (∃ e ∈ c.live, e.1 = rmem ∧ effectiveSize newsize ≤ e.2))
  | .write addr _ => inferInstanceAs (Decidable (∃ e ∈ c.live, e.1 ≤ addr ∧ addr < e.1 + e.2))

/-- The heap after `mem_init`. -/
def Client.start (ramHeap : ℕ) (memory : ℕ → UInt8) : Client :=
  ⟨memInitHeap ramHeap memory, [], fun _ => 0⟩

/-! ## The invariant -/

/-- The blocks that are held are the blocks in use. -/
structure Holding (c : Client) (ramHeap : ℕ) (memory : ℕ → UInt8) (bs : List Blk) : Prop where
  valid : Valid c.heap bs
  base_eq : c.heap.base = lwipMemAlign ramHeap
  held : ∀ p n, (p, n) ∈ c.live → ∃ q m, p = c.heap.base + q + 8 ∧ n ≤ m ∧
    Live sizeofStructMem 0 bs q m
  used : ∀ q m, Live sizeofStructMem 0 bs q m → ∃ n, (c.heap.base + q + 8, n) ∈ c.live
  nodup : (c.live.map Prod.fst).Nodup
  data_eq : ∀ p n, (p, n) ∈ c.live → ∀ x, p ≤ x → x < p + n → c.heap.byte x = c.data x
  behind : ∀ x, memSizeAligned + 5 ≤ x → c.heap.ram x = memory x

/-- The header at the start of the heap, and the structure behind it. -/
theorem memInitHeap_layout (ramHeap : ℕ) (memory : ℕ → UInt8) :
    Layout (memInitHeap ramHeap memory) [⟨memSizeAligned - 8, false⟩] ∧
      ∀ x, memSizeAligned + 5 ≤ x → (memInitHeap ramHeap memory).ram x = memory x := by
  have hstop : (memInit ramHeap).ramEnd - (memInit ramHeap).ram = 10240 :=
    Nat.add_sub_cancel_left (lwipMemAlign ramHeap) 10240
  have hinit : memInitHeap ramHeap memory =
      (((((((⟨lwipMemAlign ramHeap, memory, 0, []⟩ : Heap).setNext 0 10240).setPrev 0 0).setUsed
        0 0).setUsed 10240 1).setNext 10240 10240).setPrev 10240 10240) := by
    rw [memInitHeap, hstop, show (memInit ramHeap).lfree - (memInit ramHeap).ram = 0 from
      Nat.sub_self _]
    rfl
  rw [hinit]
  refine ⟨⟨rfl, ⟨⟨?_, ?_, ?_⟩, trivial⟩, ?_, ?_⟩, fun x hx => ?_⟩
  all_goals
    simp (disch := omega) only [Heap.next, Heap.prev, Heap.used, Heap.setNext, Heap.setPrev,
      Heap.setUsed, memSizeAligned_eq, load16_store16, load16_store16_of_apart,
      load16_update_of_apart, store16_of_apart, Function.update_of_ne, Function.update_self]
  · rfl
  · rfl
  · rw [memSizeAligned_eq] at hx
    simp (disch := omega) only [store16_of_apart, Function.update_of_ne]

/-- `mem_init` leaves one free block. -/
theorem memInitHeap_valid (ramHeap : ℕ) (memory : ℕ → UInt8) :
    Valid (memInitHeap ramHeap memory) [⟨memSizeAligned - 8, false⟩] where
  layout := (memInitHeap_layout ramHeap memory).1
  lfree_eq := (Nat.sub_self _).trans (lowest_cons_free rfl).symm
  spread := List.isChain_singleton _
  aligned := by simp [memSizeAligned_eq]
  large := by simp
  base_mod := Nat.mul_mod_left _ _
  asserts_eq := rfl

theorem holding_start (ramHeap : ℕ) (memory : ℕ → UInt8) :
    Holding (.start ramHeap memory) ramHeap memory [⟨memSizeAligned - 8, false⟩] where
  valid := memInitHeap_valid ramHeap memory
  base_eq := rfl
  held := by simp [Client.start]
  used q m h := by
    rw [live_cons] at h
    rcases h with ⟨h, -⟩ | h
    · cases h
    · exact absurd h live_nil
  nodup := by simp [Client.start]
  data_eq := by simp [Client.start]
  behind := (memInitHeap_layout ramHeap memory).2

section Step

variable {c : Client} {ramHeap : ℕ} {memory : ℕ → UInt8} {bs : List Blk}

/-- A block that is held is a block in use. -/
theorem Holding.live_of_mem (hc : Holding c ramHeap memory bs) {p n : ℕ} (h : (p, n) ∈ c.live) :
    ∃ q m, p = c.heap.base + q + 8 ∧ n ≤ m ∧ Live sizeofStructMem 0 bs q m ∧
      q + 8 + m ≤ memSizeAligned := by
  obtain ⟨q, m, hp, hle, hlive⟩ := hc.held p n h
  have hend : q + 8 + m ≤ 0 + total bs := hlive.within.2
  rw [hc.valid.layout.total_eq, Nat.zero_add] at hend
  exact ⟨q, m, hp, hle, hlive, hend⟩

/-- The bytes of the blocks that stay are the same after an operation. -/
theorem byte_eq {h' : Heap} {bs' kept : List Blk}
    (hr : Result c.heap h' bs' kept) {p q m : ℕ} (hp : p = c.heap.base + q + 8)
    (hlive : Live sizeofStructMem 0 kept q m) {x : ℕ} (hlo : p ≤ x) (hhi : x < p + m) :
    h'.byte x = c.heap.byte x := by
  have hx : x - c.heap.base = q + 8 + (x - p) := by omega
  rw [Heap.byte, Heap.byte, hr.base_eq, hx]
  exact hr.keeps q m hlive _ (by omega)

/-- `mem_malloc` keeps the invariant. -/
theorem holding_malloc (hc : Holding c ramHeap memory bs) (size : ℕ) :
    ∃ c' bs', clientStep (some c) (.malloc size) = some c' ∧ Holding c' ramHeap memory bs' := by
  have hfail (hrun : memMalloc c.heap size = some (null, c.heap)) :
      clientStep (some c) (.malloc size) = some c := by
    rw [clientStep, Option.bind_eq_bind, Option.bind_some]
    dsimp only
    rw [hrun, Option.bind_eq_bind, Option.bind_some, if_pos rfl]
  by_cases hsize : size = 0
  · exact ⟨c, bs, hfail (by rw [memMalloc, if_pos hsize]), hc⟩
  have hret := memMalloc_refines hc.valid hsize
  cases halloc : alloc sizeofStructMem minSizeAligned (effectiveSize size) 0 bs with
  | none =>
    rw [halloc] at hret
    exact ⟨c, bs, hfail hret, hc⟩
  | some r =>
    obtain ⟨p, bs'⟩ := r
    rw [halloc] at hret
    obtain ⟨h', hrun, hr⟩ := hret
    obtain ⟨g, hg, -, hlive⟩ := live_alloc (by decide) halloc
    have hfresh (m : ℕ) : ¬Live sizeofStructMem 0 bs p m := alloc_not_live (by decide) halloc
    have hbase := hr.base_eq
    have hstep : clientStep (some c) (.malloc size) =
        some ⟨h', (c.heap.base + p + 8, effectiveSize size) :: c.live, fun x =>
          if c.heap.base + p + 8 ≤ x ∧ x < c.heap.base + p + 8 + effectiveSize size then h'.byte x
          else c.data x⟩ := by
      rw [clientStep, Option.bind_eq_bind, Option.bind_some]
      dsimp only
      rw [hrun, Option.bind_eq_bind, Option.bind_some]
      exact if_neg (Nat.succ_ne_zero _)
    have hnew : Live sizeofStructMem 0 bs' p g := (hlive p g).mpr (.inr ⟨rfl, rfl⟩)
    refine ⟨_, bs', hstep, hr.valid, hbase.trans hc.base_eq, fun p₀ n₀ hmem => ?_,
      fun q m hq => ?_, ?_, fun p₀ n₀ hmem x hlo hhi => ?_, fun x hx => ?_⟩
    · rcases List.mem_cons.mp hmem with heq | hmem
      · obtain ⟨rfl, rfl⟩ := Prod.mk.inj heq
        exact ⟨p, g, by rw [hbase], hg, hnew⟩
      · obtain ⟨q, m, rfl, hle, hq⟩ := hc.held p₀ n₀ hmem
        exact ⟨q, m, by rw [hbase], hle, (hlive q m).mpr (.inl hq)⟩
    · rw [hbase]
      rcases (hlive q m).mp hq with hq | ⟨rfl, -⟩
      · obtain ⟨n, hn⟩ := hc.used q m hq
        exact ⟨n, List.mem_cons_of_mem _ hn⟩
      · exact ⟨_, List.mem_cons_self ..⟩
    · rw [List.map_cons, List.nodup_cons]
      refine ⟨fun hmem => ?_, hc.nodup⟩
      obtain ⟨⟨p₀, n₀⟩, hmem, heq⟩ := List.mem_map.mp hmem
      obtain ⟨q, m, rfl, -, hq⟩ := hc.held p₀ n₀ hmem
      obtain rfl : q = p := by
        dsimp only at heq
        omega
      exact hfresh m hq
    · rcases List.mem_cons.mp hmem with heq | hmem
      · obtain ⟨rfl, rfl⟩ := Prod.mk.inj heq
        exact (if_pos ⟨hlo, hhi⟩).symm
      · obtain ⟨q, m, hp₀, hle, hq⟩ := hc.held p₀ n₀ hmem
        have hne : q ≠ p := by
          rintro rfl
          exact hfresh m hq
        have hapart : q + 8 + m ≤ p ∨ p + 8 + g ≤ q :=
          ((hlive q m).mpr (.inl hq)).apart hnew hne
        dsimp only
        rw [if_neg (by omega), ← hc.data_eq p₀ n₀ hmem x hlo hhi]
        exact byte_eq hr hp₀ hq hlo (by omega)
    · exact (hr.behind x (by omega)).trans (hc.behind x hx)

/-- `mem_free` keeps the invariant. -/
theorem holding_free (hc : Holding c ramHeap memory bs) {rmem : ℕ} (h : c.Allowed (.free rmem)) :
    ∃ c' bs', clientStep (some c) (.free rmem) = some c' ∧ Holding c' ramHeap memory bs' := by
  rcases h with rfl | ⟨⟨_, n⟩, hmem, rfl⟩
  · have hlive : (c.live.filter fun e => e.1 ≠ null) = c.live := by
      refine List.filter_eq_self.mpr fun e he => ?_
      obtain ⟨q, m, hp, -⟩ := hc.held e.1 e.2 he
      rw [decide_eq_true_eq, hp]
      exact Nat.succ_ne_zero _
    refine ⟨c, bs, ?_, hc⟩
    rw [clientStep, Option.bind_eq_bind, Option.bind_some]
    dsimp only
    rw [memFree, if_pos rfl, Option.bind_eq_bind, Option.bind_some, hlive]
  · obtain ⟨q, m, rfl, hle, hq⟩ := hc.held _ n hmem
    obtain ⟨h', hrun, hr⟩ := memFree_refines hc.valid hq
    have hbase := hr.base_eq
    have hlive (q' m' : ℕ) := @live_free sizeofStructMem 0 q q' m' bs (by decide)
    have hstep : clientStep (some c) (.free (c.heap.base + q + 8)) =
        some { c with
          heap := h', live := c.live.filter fun e => e.1 ≠ c.heap.base + q + 8 } := by
      rw [clientStep, Option.bind_eq_bind, Option.bind_some]
      dsimp only
      rw [show c.heap.base + q + 8 = c.heap.base + q + sizeofStructMem from rfl, hrun,
        Option.bind_eq_bind, Option.bind_some]
    refine ⟨_, _, hstep, hr.valid, hbase.trans hc.base_eq, fun p₀ n₀ hmem => ?_,
      fun q' m' hq' => ?_, ?_, fun p₀ n₀ hmem x hlo hhi => ?_, fun x hx => ?_⟩
    · obtain ⟨hmem, hne⟩ := List.mem_filter.mp hmem
      obtain ⟨q', m', rfl, hle', hq'⟩ := hc.held p₀ n₀ hmem
      rw [decide_eq_true_eq] at hne
      exact ⟨q', m', by rw [hbase], hle', (hlive q' m').mpr ⟨hq', fun heq => hne (by rw [heq])⟩⟩
    · obtain ⟨hq', hne⟩ := (hlive q' m').mp hq'
      obtain ⟨n', hmem'⟩ := hc.used q' m' hq'
      rw [hbase]
      refine ⟨n', List.mem_filter.mpr ⟨hmem', ?_⟩⟩
      rw [decide_eq_true_eq]
      dsimp only
      omega
    · exact hc.nodup.sublist (List.filter_sublist.map _)
    · obtain ⟨hmem, hne⟩ := List.mem_filter.mp hmem
      obtain ⟨q', m', hp, hle', hq'⟩ := hc.held p₀ n₀ hmem
      rw [decide_eq_true_eq] at hne
      have hkept := (hlive q' m').mpr ⟨hq', fun heq => hne (by rw [hp, heq])⟩
      exact (byte_eq hr hp hkept hlo (by omega)).trans (hc.data_eq p₀ n₀ hmem x hlo hhi)
    · exact (hr.behind x (by omega)).trans (hc.behind x hx)

/-- `mem_trim` keeps the invariant. -/
theorem holding_trim (hc : Holding c ramHeap memory bs) {rmem newsize : ℕ}
    (h : c.Allowed (.trim rmem newsize)) :
    ∃ c' bs', clientStep (some c) (.trim rmem newsize) = some c' ∧
      Holding c' ramHeap memory bs' := by
  obtain ⟨⟨_, n⟩, hmem, rfl, hsmall⟩ := h
  obtain ⟨q, m, rfl, hle, hq⟩ := hc.held _ n hmem
  obtain ⟨h', hrun, hr⟩ := memTrim_refines hc.valid hq (hsmall.trans hle)
  obtain ⟨k, hk, -, hlive⟩ := @live_trim _ minSizeAligned _ _ _ _ _ (by decide) hq
    (hsmall.trans hle)
  have hbase := hr.base_eq
  have hstep : clientStep (some c) (.trim (c.heap.base + q + 8) newsize) =
      some { c with
        heap := h'
        live := c.live.map fun e => if e.1 = c.heap.base + q + 8 then
          (c.heap.base + q + 8, effectiveSize newsize) else e } := by
    rw [clientStep, Option.bind_eq_bind, Option.bind_some]
    dsimp only
    rw [show c.heap.base + q + 8 = c.heap.base + q + sizeofStructMem from rfl, hrun,
      Option.bind_eq_bind, Option.bind_some]
  -- an entry of the new list is the block itself, or an old entry for another block
  have hentry {p₀ n₀ : ℕ} (hmem : (p₀, n₀) ∈ c.live.map fun e =>
      if e.1 = c.heap.base + q + 8 then (c.heap.base + q + 8, effectiveSize newsize) else e) :
      (p₀ = c.heap.base + q + 8 ∧ n₀ = effectiveSize newsize) ∨
        ((p₀, n₀) ∈ c.live ∧ p₀ ≠ c.heap.base + q + 8) := by
    obtain ⟨e, he, heq⟩ := List.mem_map.mp hmem
    split_ifs at heq with hp
    · exact .inl ⟨(Prod.mk.inj heq).1.symm, (Prod.mk.inj heq).2.symm⟩
    · subst heq
      exact .inr ⟨he, hp⟩
  have hnew := (hlive q k).mpr (.inr ⟨rfl, rfl⟩)
  refine ⟨_, _, hstep, hr.valid, hbase.trans hc.base_eq, fun p₀ n₀ hmem₀ => ?_,
    fun q' m' hq' => ?_, ?_, fun p₀ n₀ hmem₀ x hlo hhi => ?_, fun x hx => ?_⟩
  · rcases hentry hmem₀ with ⟨rfl, rfl⟩ | ⟨hmem₀, hne⟩
    · exact ⟨q, k, by rw [hbase], hk, hnew⟩
    · obtain ⟨q', m', rfl, hle', hq'⟩ := hc.held p₀ n₀ hmem₀
      exact ⟨q', m', by rw [hbase], hle',
        (hlive q' m').mpr (.inl ⟨hq', fun heq => hne (by rw [heq])⟩)⟩
  · rw [hbase]
    rcases (hlive q' m').mp hq' with ⟨hq', hne⟩ | ⟨rfl, -⟩
    · obtain ⟨n', hmem'⟩ := hc.used q' m' hq'
      exact ⟨n', List.mem_map.mpr ⟨_, hmem', if_neg (by dsimp only; omega)⟩⟩
    · exact ⟨_, List.mem_map.mpr ⟨_, hmem, if_pos rfl⟩⟩
  · have hfst : (c.live.map fun e => if e.1 = c.heap.base + q + 8 then
        (c.heap.base + q + 8, effectiveSize newsize) else e).map Prod.fst =
          c.live.map Prod.fst := by
      rw [List.map_map]
      refine List.map_congr_left fun e _ => ?_
      rw [Function.comp_apply]
      split_ifs with hp
      · exact hp.symm
      · rfl
    exact hfst ▸ hc.nodup
  · rcases hentry hmem₀ with ⟨rfl, rfl⟩ | ⟨hmem₀, hne⟩
    · exact (byte_eq hr rfl hnew hlo (by omega)).trans
        (hc.data_eq _ n hmem x hlo (by omega))
    · obtain ⟨q', m', hp, hle', hq'⟩ := hc.held p₀ n₀ hmem₀
      have hkept := (hlive q' m').mpr (.inl ⟨hq', fun heq => hne (by rw [hp, heq])⟩)
      exact (byte_eq hr hp hkept hlo (by omega)).trans (hc.data_eq p₀ n₀ hmem₀ x hlo hhi)
  · exact (hr.behind x (by omega)).trans (hc.behind x hx)

/-- Headers are not written to. -/
theorem Layout.write {h : Heap} {pre post : List Blk} {m y : ℕ} {u : Bool}
    (hl : Layout h (pre ++ ⟨m, u⟩ :: post)) (hlo : total pre + 8 ≤ y)
    (hhi : y < total pre + 8 + m) (b : UInt8) :
    Layout { h with ram := Function.update h.ram y b } (pre ++ ⟨m, u⟩ :: post) := by
  obtain ⟨htotal, hchain, hnext, hused⟩ := hl
  have hend : total pre + (8 + m) + total post = memSizeAligned := by
    rw [← htotal, total_append, total_cons, Nat.add_assoc]
  have hother (x : ℕ) (hx : x < total pre + 8 ∨ total pre + 8 + m ≤ x) :
      Function.update h.ram y b x = h.ram x := Function.update_of_ne (by omega) _ _
  rw [chain_append, Nat.zero_add] at hchain
  obtain ⟨hpre, hhead, hpost⟩ := hchain
  rw [size_eq] at hhead hpost
  refine ⟨htotal, ?_, ?_, ?_⟩
  · rw [chain_append, Nat.zero_add]
    refine ⟨hpre.congr fun x _ hx => hother x (by omega), ?_, ?_⟩
    · exact hhead.congr fun x _ hx => hother x (by omega)
    · exact hpost.congr fun x hx _ => hother x (by dsimp only at hx; omega)
  · exact (load16_congr fun x hx _ => hother x (by omega)).trans hnext
  · exact (hother _ (by omega)).trans hused

/-- A write to a block that is held keeps the invariant. -/
theorem holding_write (hc : Holding c ramHeap memory bs) {addr : ℕ} {b : UInt8}
    (h : c.Allowed (.write addr b)) :
    ∃ c' bs', clientStep (some c) (.write addr b) = some c' ∧ Holding c' ramHeap memory bs' := by
  obtain ⟨⟨p, n⟩, hmem, hlo, hhi⟩ := h
  obtain ⟨q, m, rfl, hle, hq, hend⟩ := hc.live_of_mem hmem
  have hvalid :
      Valid { c.heap with ram := Function.update c.heap.ram (addr - c.heap.base) b } bs := by
    obtain ⟨hlayout, hlfree, hspread, haligned, hlarge, hbase, hasserts⟩ := hc.valid
    obtain ⟨pre, post, rfl, hpos⟩ := hq.split
    obtain rfl : q = total pre := hpos.trans (Nat.zero_add _)
    exact ⟨hlayout.write (by omega) (by omega) b, hlfree, hspread, haligned, hlarge, hbase,
      hasserts⟩
  refine ⟨_, bs, rfl, hvalid, hc.base_eq, hc.held, hc.used, hc.nodup,
    fun p₀ n₀ hmem₀ x hlo' hhi' => ?_, fun x hx => ?_⟩
  · obtain ⟨q₀, m₀, hp₀, -⟩ := hc.held p₀ n₀ hmem₀
    have hdata := hc.data_eq p₀ n₀ hmem₀ x hlo' hhi'
    rw [Heap.byte] at hdata ⊢
    dsimp only
    by_cases hx : x = addr
    · rw [hx, Function.update_self, Function.update_self]
    · rw [Function.update_of_ne hx, Function.update_of_ne (by omega), hdata]
  · exact (Function.update_of_ne (by omega) _ _).trans (hc.behind x hx)

/-- Every operation that is allowed keeps the invariant. -/
theorem holding_step (hc : Holding c ramHeap memory bs) {op : MemOp} (h : c.Allowed op) :
    ∃ c' bs', clientStep (some c) op = some c' ∧ Holding c' ramHeap memory bs' := by
  cases op with
  | malloc size => exact holding_malloc hc size
  | free rmem => exact holding_free hc h
  | trim rmem newsize => exact holding_trim hc h
  | write addr b => exact holding_write hc h

end Step

/-! ## The results -/

/-- The clients keep to their blocks in every step of a run. -/
def Clients (ramHeap : ℕ) (memory : ℕ → UInt8) (ops : List MemOp) : Prop :=
  Runs.Along clientStep (fun s op => ∀ c ∈ s, c.Allowed op)
    (some (.start ramHeap memory)) ops

/-- What a client relies on: no assertion has failed, the blocks are aligned, lie in the heap and
apart from each other, and hold what was written to them; nothing behind the heap is written. -/
structure Sound (c : Client) (ramHeap : ℕ) (memory : ℕ → UInt8) : Prop where
  asserts_eq : c.heap.asserts = []
  aligned : ∀ p n, (p, n) ∈ c.live → p % memAlignment = 0
  within : ∀ p n, (p, n) ∈ c.live → span p n ⊆ span (lwipMemAlign ramHeap) memSizeAligned
  apart : c.live.Pairwise fun e f => Disjoint (span e.1 e.2) (span f.1 f.2)
  data_eq : ∀ p n, (p, n) ∈ c.live → ∀ x ∈ span p n, c.heap.byte x = c.data x
  behind : ∀ x, memSizeAligned + 5 ≤ x → c.heap.ram x = memory x

section Results

variable {c : Client} {ramHeap : ℕ} {memory : ℕ → UInt8} {bs : List Blk} {ops : List MemOp}

theorem Holding.sound (hc : Holding c ramHeap memory bs) : Sound c ramHeap memory where
  asserts_eq := hc.valid.asserts_eq
  aligned p n h := by
    obtain ⟨q, m, rfl, -, hq⟩ := hc.held p n h
    obtain ⟨pre, post, rfl, hpos⟩ := hq.split
    obtain rfl : q = total pre := hpos.trans (Nat.zero_add _)
    exact hc.valid.block_address.1
  within p n h := by
    obtain ⟨q, m, rfl, hle, -, hend⟩ := hc.live_of_mem h
    rw [← hc.base_eq]
    exact Set.Ico_subset_Ico (by omega) (by omega)
  apart := by
    have hne : c.live.Pairwise fun e f => e.1 ≠ f.1 := List.pairwise_map.mp hc.nodup
    refine hne.imp_of_mem fun {e f} he hf hne => ?_
    obtain ⟨q, m, hp, hle, hq⟩ := hc.held e.1 e.2 he
    obtain ⟨q', m', hp', hle', hq'⟩ := hc.held f.1 f.2 hf
    have hapart : q + 8 + m ≤ q' ∨ q' + 8 + m' ≤ q := hq.apart hq' (by omega)
    refine Set.disjoint_left.mpr fun x hx hx' => ?_
    have hlo : e.1 ≤ x ∧ x < e.1 + e.2 := hx
    have hhi : f.1 ≤ x ∧ x < f.1 + f.2 := hx'
    omega
  data_eq p n h x hx := hc.data_eq p n h x hx.1 hx.2
  behind := hc.behind

/-- In every state of a run the blocks that are held are the blocks in use. -/
theorem always_holding (h : Clients ramHeap memory ops) :
    Runs.Always clientStep (fun s => ∃ c bs, s = some c ∧ Holding c ramHeap memory bs)
      (some (.start ramHeap memory)) ops := by
  refine Runs.always_of_along ?_ ⟨_, _, rfl, holding_start ramHeap memory⟩ h
  rintro _ op ⟨c, bs, rfl, hc⟩ hop
  obtain ⟨c', bs', hstep, hc'⟩ := holding_step hc (hop c rfl)
  exact ⟨c', bs', hstep, hc'⟩

/-- **The heap is sound** in every run in which the clients keep to their blocks. -/
theorem heap_sound (h : Clients ramHeap memory ops) :
    Runs.Always clientStep (fun s => ∃ c, s = some c ∧ Sound c ramHeap memory)
      (some (.start ramHeap memory)) ops :=
  (always_holding h).imp fun _ ⟨c, _, hs, hc⟩ => ⟨c, hs, hc.sound⟩

/-- Two blocks are taken, the second is written to and trimmed, and the first is freed. -/
def sampleOps : List MemOp :=
  [.malloc 60, .malloc 40, .write 536871020 7, .trim 536871012 20, .free 536870944]

theorem clients_sampleOps : Clients 536870934 (fun _ => 0) sampleOps := by
  refine Runs.along_cons.mpr ⟨?_, Runs.along_cons.mpr ⟨?_, Runs.along_cons.mpr ⟨?_,
    Runs.along_cons.mpr ⟨?_, Runs.along_cons.mpr ⟨?_, Runs.along_nil⟩⟩⟩⟩⟩
  all_goals decide +kernel

theorem heap_sound_sampleOps : Runs.Always clientStep
    (fun s => ∃ c, s = some c ∧ Sound c 536870934 fun _ => 0)
    (some (.start 536870934 fun _ => 0)) sampleOps :=
  heap_sound clients_sampleOps

theorem exists_holding (h : Clients ramHeap memory ops)
    (hrun : Runs.exec clientStep (some (.start ramHeap memory)) ops = some c) :
    ∃ bs, Holding c ramHeap memory bs := by
  obtain ⟨c', bs, hrun', hc⟩ := (always_holding h).last
  obtain rfl : c' = c := Option.some_inj.mp (hrun'.symm.trans hrun)
  exact ⟨bs, hc⟩

/-- The data of a block in use reaches to the next header. -/
theorem Valid.userSize_eq {h : Heap} {bs : List Blk} (hv : Valid h bs) {q m : ℕ}
    (hq : Live sizeofStructMem 0 bs q m) : h.userSize q = m := by
  obtain ⟨pre, post, rfl, hpos⟩ := hq.split
  obtain rfl : q = total pre := hpos.trans (Nat.zero_add _)
  exact hv.layout.userSize

/-- **When `mem_malloc` fails.** In every state of a run `mem_malloc` returns `NULL` exactly when
every window of the heap for a header and the bytes meets the header or the data of a block that is
held. -/
theorem memMalloc_eq_null_iff (h : Clients ramHeap memory ops)
    (hrun : Runs.exec clientStep (some (.start ramHeap memory)) ops = some c) {size : ℕ}
    (hsize : size ≠ 0) :
    (∃ h', memMalloc c.heap size = some (null, h')) ↔
      ∀ x, x + 8 + effectiveSize size ≤ memSizeAligned → ∃ p n, (p, n) ∈ c.live ∧
        p - 8 < c.heap.base + (x + 8 + effectiveSize size) ∧
        c.heap.base + x < p + c.heap.userSize (p - 8 - c.heap.base) := by
  obtain ⟨bs, hc⟩ := exists_holding h hrun
  have hret := memMalloc_refines hc.valid hsize
  have htotal : demand (Blk.size sizeofStructMem) bs = memSizeAligned := hc.valid.layout.total_eq
  have hnull : (∃ h', memMalloc c.heap size = some (null, h')) ↔
      alloc sizeofStructMem minSizeAligned (effectiveSize size) 0 bs = none := by
    cases halloc : alloc sizeofStructMem minSizeAligned (effectiveSize size) 0 bs with
    | none =>
      rw [halloc] at hret
      exact iff_of_true ⟨c.heap, hret⟩ rfl
    | some r =>
      rw [halloc] at hret
      obtain ⟨h', hrun', -⟩ := hret
      refine iff_of_false ?_ (by simp)
      rintro ⟨h'', hrun''⟩
      have hp := (Prod.mk.inj (Option.some_inj.mp (hrun'.symm.trans hrun''))).1
      exact Nat.succ_ne_zero _ hp
  rw [hnull, alloc_eq_none_iff (by decide) hc.valid.spread, htotal]
  constructor
  · intro hwindow x hx
    obtain ⟨q, m, hq, hlo, hhi⟩ := hwindow x (Nat.zero_le x) (by rw [Nat.zero_add]; exact hx)
    obtain ⟨n, hmem⟩ := hc.used q m hq
    have hsub : c.heap.base + q + 8 - 8 - c.heap.base = q := by omega
    have hlo' : q < x + 8 + effectiveSize size := hlo
    have hhi' : x < q + 8 + m := hhi
    refine ⟨_, n, hmem, by omega, ?_⟩
    rw [hsub, hc.valid.userSize_eq hq]
    omega
  · intro hwindow x _ hx
    rw [Nat.zero_add] at hx
    obtain ⟨p, n, hmem, hlo, hhi⟩ := hwindow x hx
    obtain ⟨q, m, rfl, -, hq⟩ := hc.held p n hmem
    have hsub : c.heap.base + q + 8 - 8 - c.heap.base = q := by omega
    rw [hsub, hc.valid.userSize_eq hq] at hhi
    refine ⟨q, m, hq, ?_, ?_⟩
    · rw [show sizeofStructMem = 8 from rfl]
      omega
    · rw [show sizeofStructMem = 8 from rfl]
      omega

theorem isSome_sampleOps :
    (Runs.exec clientStep (some (.start 536870934 fun _ => 0)) sampleOps).isSome := by
  decide +kernel

/-- The client behind `sampleOps`. -/
def sampleClient : Client := Option.get _ isSome_sampleOps

theorem exec_sampleOps :
    Runs.exec clientStep (some (.start 536870934 fun _ => 0)) sampleOps = some sampleClient :=
  (Option.some_get isSome_sampleOps).symm

/-- A request that would fit into the heap meets the block that is held. -/
theorem memMalloc_eq_null_iff_sampleOps : effectiveSize 10140 + 8 ≤ memSizeAligned ∧
    ∃ h', memMalloc sampleClient.heap 10140 = some (null, h') := by
  refine ⟨by decide, ?_⟩
  refine (memMalloc_eq_null_iff clients_sampleOps exec_sampleOps (by decide)).mpr fun x hx => ?_
  have hbase : sampleClient.heap.base = 536870936 := by decide +kernel
  have huser : sampleClient.heap.userSize (536871012 - 8 - 536870936) = 20 := by decide +kernel
  rw [show effectiveSize 10140 = 10140 from rfl, memSizeAligned_eq] at hx
  refine ⟨536871012, 20, by decide +kernel, ?_, ?_⟩
  · rw [hbase]
    exact Nat.lt_of_lt_of_le (by decide) (Nat.add_le_add_left (Nat.le_add_left _ _) _)
  · rw [hbase, huser]
    omega

/-- **The size of a block.** The block that `mem_malloc` returns has the aligned size that was
looked for, and less than a header and a smallest block more. This is what was asked for, but for
the last three sizes, for which the aligned size wraps to zero. -/
theorem memMalloc_size (h : Clients ramHeap memory ops)
    (hrun : Runs.exec clientStep (some (.start ramHeap memory)) ops = some c) {size p : ℕ}
    (hsize : size < 2 ^ 16) {h' : Heap} (hp : p ≠ null)
    (hmalloc : memMalloc c.heap size = some (p, h')) :
    effectiveSize size ≤ h'.userSize (p - 8 - c.heap.base) ∧
      h'.userSize (p - 8 - c.heap.base) < effectiveSize size + sizeofStructMem + minSizeAligned ∧
      (size ≤ h'.userSize (p - 8 - c.heap.base) ↔ size ≤ 65532) := by
  obtain ⟨bs, hc⟩ := exists_holding h hrun
  have hne : size ≠ 0 := by
    rintro rfl
    rw [memMalloc, if_pos rfl] at hmalloc
    exact hp (Prod.mk.inj (Option.some_inj.mp hmalloc)).1.symm
  have hret := memMalloc_refines hc.valid hne
  cases halloc : alloc sizeofStructMem minSizeAligned (effectiveSize size) 0 bs with
  | none =>
    rw [halloc] at hret
    exact absurd (Prod.mk.inj (Option.some_inj.mp (hmalloc.symm.trans hret))).1 hp
  | some r =>
    obtain ⟨q, bs'⟩ := r
    rw [halloc] at hret
    obtain ⟨h'', hrun', hr⟩ := hret
    obtain ⟨rfl, rfl⟩ := Prod.mk.inj (Option.some_inj.mp (hmalloc.symm.trans hrun'))
    obtain ⟨g, hle, hlt, hlive⟩ := live_alloc (by decide) halloc
    have hq := (hlive q g).mpr (.inr ⟨rfl, rfl⟩)
    have hsub : c.heap.base + q + sizeofStructMem - 8 - c.heap.base = q := by
      rw [show sizeofStructMem = 8 from rfl]
      omega
    rw [hsub, hr.valid.userSize_eq hq, ← le_effectiveSize_iff hsize]
    refine ⟨hle, hlt, fun h => ?_, fun h => h.trans hle⟩
    by_contra hlast
    rw [le_effectiveSize_iff hsize, Nat.not_le] at hlast
    rw [effectiveSize_of_last hlast hsize, show sizeofStructMem = 8 from rfl,
      show minSizeAligned = 12 from rfl] at hlt
    omega

/-- Two blocks are taken, and the first is freed again. -/
def holeOps : List MemOp := [.malloc 16, .malloc 12, .free 536870944]

theorem isSome_holeOps :
    (Runs.exec clientStep (some (.start 536870934 fun _ => 0)) holeOps).isSome := by
  decide +kernel

/-- The client behind `holeOps`. -/
def holeClient : Client := Option.get _ isSome_holeOps

/-- A request for 65535 bytes is granted in the hole, which has 16. -/
theorem memMalloc_size_holeOps :
    ∃ h', memMalloc holeClient.heap 65535 = some (536870944, h') ∧ h'.userSize 0 = 16 ∧
      ¬65535 ≤ h'.userSize (536870944 - 8 - holeClient.heap.base) := by
  have hclients : Clients 536870934 (fun _ => 0) holeOps := by
    refine Runs.along_cons.mpr ⟨?_, Runs.along_cons.mpr ⟨?_, Runs.along_cons.mpr ⟨?_,
      Runs.along_nil⟩⟩⟩
    all_goals decide +kernel
  have hgrant : (memMalloc holeClient.heap 65535).map (fun r => (r.1, r.2.userSize 0)) =
      some (536870944, 16) := by decide +kernel
  obtain ⟨⟨p, h'⟩, hmalloc, hr⟩ := Option.map_eq_some_iff.mp hgrant
  obtain ⟨rfl, huser⟩ := Prod.mk.inj hr
  refine ⟨h', hmalloc, huser, fun h => ?_⟩
  have hle := (memMalloc_size hclients (Option.some_get isSome_holeOps).symm (by decide)
    (by decide) hmalloc).2.2.mp h
  exact absurd hle (by decide)

/-- **All blocks freed.** When no block is held any more, the heap is as `mem_init` has left it: one
free block, from which all of it can be taken again. -/
theorem heap_restored (h : Clients ramHeap memory ops)
    (hrun : Runs.exec clientStep (some (.start ramHeap memory)) ops = some c)
    (hlive : c.live = []) :
    c.heap.next 0 = memSizeAligned ∧ c.heap.prev 0 = 0 ∧ c.heap.used 0 = 0 ∧ c.heap.lfree = 0 ∧
      ∀ size ≠ 0, effectiveSize size + 8 ≤ memSizeAligned →
        ∃ h', memMalloc c.heap size = some (c.heap.base + 8, h') := by
  obtain ⟨bs, hc⟩ := exists_holding h hrun
  have hone := hc.valid.layout.total_eq
  have hne : bs ≠ [] := by
    rintro rfl
    cases hone
  obtain ⟨n, rfl⟩ : ∃ n, bs = [⟨n, false⟩] := by
    refine @eq_singleton_of_not_live sizeofStructMem 0 bs hc.valid.spread hne fun q m hq => ?_
    obtain ⟨n, hmem⟩ := hc.used q m hq
    rw [hlive] at hmem
    exact List.not_mem_nil hmem
  replace hone : 8 + n = memSizeAligned := hone
  have hheader : Header c.heap 0 (0 + (8 + n)) 0 false := hc.valid.layout.chain.1
  refine ⟨?_, hheader.prev_eq, hheader.used_eq, ?_, fun size hsize hroom => ?_⟩
  · exact hheader.next_eq.trans ((Nat.zero_add _).trans hone)
  · exact hc.valid.lfree_eq.trans (lowest_cons_free rfl)
  · have hret := memMalloc_refines hc.valid hsize
    have hfits : Blk.Fits (effectiveSize size) ⟨n, false⟩ :=
      ⟨rfl, show effectiveSize size ≤ n by omega⟩
    have halloc := @alloc_of_fits sizeofStructMem minSizeAligned 0 (effectiveSize size)
      ⟨n, false⟩ [] [] (by simp) hfits
    rw [List.nil_append] at halloc
    rw [halloc] at hret
    obtain ⟨h', hrun', -⟩ := hret
    exact ⟨h', hrun'⟩

/-- The run of `sampleOps`, in which the other block is freed too. -/
def freedOps : List MemOp :=
  [.malloc 60, .malloc 40, .write 536871020 7, .trim 536871012 20, .free 536870944,
    .free 536871012]

theorem isSome_freedOps :
    (Runs.exec clientStep (some (.start 536870934 fun _ => 0)) freedOps).isSome := by
  decide +kernel

theorem heap_restored_freedOps :
    ∃ c, Runs.exec clientStep (some (.start 536870934 fun _ => 0)) freedOps = some c ∧
      c.heap.next 0 = memSizeAligned ∧ c.heap.lfree = 0 := by
  have hclients : Clients 536870934 (fun _ => 0) freedOps := by
    refine Runs.along_cons.mpr ⟨?_, Runs.along_cons.mpr ⟨?_, Runs.along_cons.mpr ⟨?_,
      Runs.along_cons.mpr ⟨?_, Runs.along_cons.mpr ⟨?_, Runs.along_cons.mpr ⟨?_,
      Runs.along_nil⟩⟩⟩⟩⟩⟩
    all_goals decide +kernel
  have hrestored := heap_restored hclients (Option.some_get isSome_freedOps).symm
    (by decide +kernel)
  exact ⟨_, (Option.some_get isSome_freedOps).symm, hrestored.1, hrestored.2.2.2.1⟩

end Results

end Lwip

end Enc28j60Udp
