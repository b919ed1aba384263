import Enc28j60Udp.Enc28j60.Fifo
import Enc28j60Udp.Enc28j60.Handler
import Enc28j60Udp.Malloc.Fit

/-!
# Chains and staging buffers

`low_level_output` and `low_level_input` with their memory: the first gathers the segments of a
chain in a buffer from the pool `SRAMIN` and hands it to `ENC28J60_Packet_Send`; the second has
`ENC28J60_Packet_Receive` fill such a buffer and scatters it over a new chain.

When it gets no buffer, `low_level_input` gives up. `low_level_output` prints a message and goes on
with `NULL`: it copies, sends and reports `ERR_OK` all the same (`outputOk_iff`). A store through
`NULL` is recorded as any other; what is there is not the concern of these functions.

`lowLevelOutput_world` and `lowLevelInput_world` connect the two functions with those of the driver,
which know of chains and buffers only the bytes; what becomes of the chip and the pool is known from
these.
-/

namespace Enc28j60Udp

namespace Ethernetif

open Enc28j60

/-! ## The functions -/

/-- `err_t`, as far as it is used here. -/
inductive ErrT
  /-- `ERR_OK` -/
  | ok
  /-- `ERR_MEM` -/
  | mem
  deriving DecidableEq

/-- A `pbuf` chain: the payloads of its segments. -/
abbrev Chain := List (List UInt8)

/-- `p->tot_len`. -/
def totLen (p : Chain) : ℕ := (p.map List.length).sum

/-- What the two functions ask of their surroundings. -/
inductive IfOp
  | mymalloc (size : ℕ)
  | myfree (ptr : ℕ)
  /-- `memcpy` from a segment to memory. -/
  | memcpy (des : ℕ) (src : List UInt8)
  /-- `memcpy` from memory to a segment. -/
  | load (src len : ℕ)
  | packetSend (len packet : ℕ)
  | packetReceive (maxlen packet : ℕ)
  /-- `pbuf_alloc(PBUF_RAW, len, PBUF_POOL)`: the lengths of the segments, if it succeeds. -/
  | pbufAlloc (len : ℕ)

/-- What each operation returns. -/
abbrev IfOp.Res : IfOp → Type
  | .mymalloc _ => ℕ
  | .myfree _ => Unit
  | .memcpy _ _ => Unit
  | .load _ _ => List UInt8
  | .packetSend _ _ => Unit
  | .packetReceive _ _ => ℕ
  | .pbufAlloc _ => Option (List ℕ)

/-- Programs of `ethernetif.c`. -/
abbrev IfProg := Prog IfOp IfOp.Res

/-- A single operation. -/
def perform (o : IfOp) : IfProg o.Res := Prog.lift o

/-- The loop of `low_level_output`. -/
def gather (buffer : ℕ) : Chain → ℕ → IfProg Unit
  | [], _ => pure ()
  | q :: qs, l => do
    perform (.memcpy ((buffer + l) % 2 ^ 32) q)
    gather buffer qs (l + q.length)

/-- `low_level_output`. When there is no memory, only a message is printed. -/
def lowLevelOutput (p : Chain) : IfProg ErrT := do
  let buffer ← perform (.mymalloc (totLen p))
  gather buffer p 0
  perform (.packetSend (totLen p) buffer)
  perform (.myfree buffer)
  pure .ok

/-- The loop of `low_level_input` over segments with these lengths. -/
def scatter (buffer : ℕ) : List ℕ → ℕ → IfProg Chain
  | [], _ => pure []
  | n :: ns, l => do
    let q ← perform (.load ((buffer + l) % 2 ^ 32) n)
    let qs ← scatter buffer ns (l + n)
    pure (q :: qs)

/-- The chain that `pbuf_alloc` returned is filled, if it returned one. -/
def fillChain (buffer : ℕ) : Option (List ℕ) → IfProg (Option Chain)
  | none => pure none
  | some lens => do
    let p ← scatter buffer lens 0
    pure (some p)

/-- `low_level_input`. -/
def lowLevelInput : IfProg (Option Chain) := do
  let buffer ← perform (.mymalloc 1600)
  if buffer = null then pure none
  else do
    let len ← perform (.packetReceive maxFramelen buffer)
    let lens ← perform (.pbufAlloc len)
    let p ← fillChain buffer lens
    perform (.myfree buffer)
    pure p

/-! ## Their meaning -/

/-- The memory, what was handed to `ENC28J60_Packet_Send`, and the addresses stored to. -/
structure Ram where
  mem : ℕ → UInt8
  handed : List (List UInt8)
  stored : List ℕ

/-- Bytes are stored. -/
def Ram.store (r : Ram) (a : ℕ) (bs : List UInt8) : Ram :=
  { r with
    mem := Ring.store (2 ^ 32) r.mem a bs
    stored := r.stored ++ Ring.slice (2 ^ 32) id a bs.length }

/-- The shape of the chains that `pbuf_alloc` returns: their segments have the length asked for. -/
structure PbufPool where
  lens : ℕ → ℕ → List ℕ
  sum_lens : ∀ clock len, (lens clock len).sum = len

section Step

variable (env : Env) (pool : PbufPool) (fuel : ℕ)

/-- The meaning of an operation; those of the driver are its programs, run on the board. -/
def ifStep : (o : IfOp) → World × Ram → o.Res × World × Ram
  | .mymalloc size, (w, r) =>
    ((boardStep env (.mymalloc size) w).1, (boardStep env (.mymalloc size) w).2, r)
  | .myfree ptr, (w, r) => ((), (boardStep env (.myfree ptr) w).2, r)
  | .memcpy des src, (w, r) => ((), w, r.store des src)
  | .load src len, (w, r) => (Ring.slice (2 ^ 32) r.mem src len, w, r)
  | .packetSend len packet, (w, r) =>
    let data := Ring.slice (2 ^ 32) r.mem packet len
    ((), (Prog.run (boardStep env) (Enc28j60.packetSend fuel data) w).2,
      { r with handed := r.handed ++ [data] })
  | .packetReceive maxlen packet, (w, r) =>
    let x := Prog.run (boardStep env) (Enc28j60.packetReceive fuel maxlen) w
    let received := x.1.getD (0, [])
    (received.1, x.2, r.store packet received.2)
  | .pbufAlloc len, (w, r) =>
    (if (boardStep env (.pbufAlloc len) w).1 then some (pool.lens w.node.clock len) else none,
      (boardStep env (.pbufAlloc len) w).2, r)

/-- `mymalloc(SRAMIN, size)` returns a buffer. -/
def Grants (size : ℕ) (s : World × Ram) : Prop :=
  (ifStep env pool fuel (.mymalloc size) s).1 ≠ null

/-- What `low_level_output` is for: with a staging buffer it sends the bytes of the chain, without
one it does nothing and reports an error. The table of the pool is the same afterwards. -/
def OutputOk (p : Chain) (s : World × Ram) : Prop :=
  ∃ err s', Prog.run (ifStep env pool fuel) (lowLevelOutput p) s = (some err, s') ∧
    s'.1.node.memmap = s.1.node.memmap ∧
    (Grants env pool fuel (totLen p) s → s'.2.handed = s.2.handed ++ [p.flatten] ∧ err = .ok) ∧
    (¬Grants env pool fuel (totLen p) s → s'.2.handed = s.2.handed ∧ s'.2.stored = s.2.stored ∧
      err ≠ .ok)

end Step

section Runs

variable {env : Env} {pool : PbufPool} {fuel : ℕ} {n m : Node} {r : Ram}

/-! ## Loops -/

theorem Ram.store_nil (r : Ram) (a : ℕ) : r.store a [] = r := by
  rw [Ram.store, Ring.store, List.length_nil, Ring.slice, List.append_nil]

theorem Ram.store_store (r : Ram) {a : ℕ} (ha : a < 2 ^ 32) (xs ys : List UInt8) :
    (r.store a xs).store ((a + xs.length) % 2 ^ 32) ys = r.store a (xs ++ ys) := by
  simp only [Ram.store, Ring.store_append ha, List.length_append, Ring.slice_add ha,
    List.append_assoc]

/-- The segments are stored one behind the other. -/
theorem run_gather (env : Env) (pool : PbufPool) (fuel : ℕ) (w : World) (r : Ram) (buffer : ℕ)
    (p : Chain) (l : ℕ) :
    Prog.run (ifStep env pool fuel) (gather buffer p l) (w, r) =
      (some (), w, r.store ((buffer + l) % 2 ^ 32) p.flatten) := by
  induction p generalizing l r with
  | nil =>
    rw [List.flatten_nil, Ram.store_nil]
    rfl
  | cons q qs ih =>
    have hlt : (buffer + l) % 2 ^ 32 < 2 ^ 32 := Nat.mod_lt _ (Nat.two_pow_pos 32)
    have hnext : ((buffer + l) % 2 ^ 32 + q.length) % 2 ^ 32 =
        (buffer + (l + q.length)) % 2 ^ 32 := by
      rw [Nat.mod_add_mod, Nat.add_assoc]
    rw [List.flatten_cons, ← r.store_store hlt, hnext]
    exact ih _ (l + q.length)

/-- The contents of segments that are filled one behind the other. -/
def slices (mem : ℕ → UInt8) (buffer : ℕ) : List ℕ → ℕ → Chain
  | [], _ => []
  | n :: ns, l => Ring.slice (2 ^ 32) mem ((buffer + l) % 2 ^ 32) n :: slices mem buffer ns (l + n)

theorem flatten_slices (mem : ℕ → UInt8) (buffer : ℕ) (lens : List ℕ) (l : ℕ) :
    (slices mem buffer lens l).flatten =
      Ring.slice (2 ^ 32) mem ((buffer + l) % 2 ^ 32) lens.sum := by
  induction lens generalizing l with
  | nil => rfl
  | cons k ks ih =>
    rw [slices, List.flatten_cons, ih, List.sum_cons,
      Ring.slice_add (Nat.mod_lt _ (Nat.two_pow_pos 32)), Nat.mod_add_mod, Nat.add_assoc]

theorem run_scatter (w : World) (r : Ram) (buffer : ℕ) (lens : List ℕ) (l : ℕ) :
    Prog.run (ifStep env pool fuel) (scatter buffer lens l) (w, r) =
      (some (slices r.mem buffer lens l), w, r) := by
  induction lens generalizing l with
  | nil => rfl
  | cons k ks ih => exact Prog.run_bind_of _ (ih (l + k)) _

theorem run_fillChain (env : Env) (pool : PbufPool) (fuel : ℕ) (w : World) (r : Ram) (buffer : ℕ)
    (lens : Option (List ℕ)) : Prog.run (ifStep env pool fuel) (fillChain buffer lens) (w, r) =
      (some (lens.map fun lens => slices r.mem buffer lens 0), w, r) := by
  cases lens with
  | none => rfl
  | some lens => exact Prog.run_bind_of _ (run_scatter w r buffer lens 0) _

/-- A chain of the length of what was received is filled with what was received. -/
theorem map_flatten_slices (pool : PbufPool) (r : Ram) {buffer : ℕ} (hbuffer : buffer < 2 ^ 32)
    {data : List UInt8} (hdata : data.length ≤ 2 ^ 32) {len : ℕ} (hlen : len ≤ data.length)
    (ok : Bool) (clock : ℕ) :
    ((if ok then some (pool.lens clock len) else none).map fun lens =>
        slices (r.store buffer data).mem buffer lens 0).map List.flatten =
      if ok then some (data.take len) else none := by
  cases ok with
  | false => rfl
  | true =>
    rw [if_pos rfl, if_pos rfl, Option.map_some, Option.map_some, flatten_slices, pool.sum_lens,
      Nat.add_zero, Nat.mod_eq_of_lt hbuffer]
    exact congrArg some (Ring.slice_store_take hbuffer hdata hlen)

/-! ## `low_level_output` -/

theorem totLen_eq (p : Chain) : totLen p = p.flatten.length := List.length_flatten.symm

theorem grants_iff_isSome {size : ℕ} {w : World} :
    Grants env pool fuel size (w, r) ↔ (grant .sramin w.node.memmap size).isSome := by
  rw [Grants, ifStep]
  cases hg : grant .sramin w.node.memmap size with
  | none =>
    rw [boardStep_mymalloc_none env hg]
    exact iff_of_false (fun h => h rfl) Bool.false_ne_true
  | some o =>
    rw [boardStep_mymalloc_some env hg]
    exact iff_of_true (blockAddr_ne_null env.placement .sramin o) rfl

/-- A buffer is granted when there is a run of free cells that is long enough. -/
theorem grants_iff (env : Env) (pool : PbufPool) (fuel : ℕ) (r : Ram) {size : ℕ} {w : World}
    (hpos : 0 < size) (hs : size ≤ maxRequest) :
    Grants env pool fuel size (w, r) ↔ ∃ k, FreeRun .sramin w.node.memmap k (blocks size) := by
  rw [grants_iff_isSome, Option.isSome_iff_exists]
  constructor
  · rintro ⟨o, ho⟩
    exact ⟨o, (Overlay.grant_free hs ho).2⟩
  · rintro ⟨k, hk, hfree⟩
    exact exists_grant_of_free .sramin hpos hs hk hfree

/-- Bytes are stored and handed to `ENC28J60_Packet_Send`. -/
def Ram.send (r : Ram) (a : ℕ) (bs : List UInt8) : Ram :=
  { r.store a bs with handed := r.handed ++ [bs] }

/-- The chain is gathered in the buffer that `mymalloc` returned, or at `NULL`, and sent. -/
theorem run_lowLevelOutput (pool : PbufPool) {w w₁ w₂ : World} (r : Ram) {p : Chain}
    {buffer : ℕ} (halloc : boardStep env (.mymalloc (totLen p)) w = (buffer, w₁))
    (hbuffer : buffer < 2 ^ 32) (hp : totLen p ≤ maxFramelen)
    (hsend : Prog.run (boardStep env) (Enc28j60.packetSend fuel p.flatten) w₁ = (some (), w₂)) :
    Prog.run (ifStep env pool fuel) (lowLevelOutput p) (w, r) =
      (some .ok, (boardStep env (.myfree buffer) w₂).2, r.send buffer p.flatten) := by
  have hgather := run_gather env pool fuel w₁ r buffer p 0
  rw [Nat.add_zero, Nat.mod_eq_of_lt hbuffer] at hgather
  have hdata : Ring.slice (2 ^ 32) (r.store buffer p.flatten).mem buffer (totLen p) =
      p.flatten := by
    rw [totLen_eq] at hp ⊢
    exact Ring.slice_store_self hbuffer (hp.trans (by decide))
  rw [lowLevelOutput, perform, Prog.run_lift_bind, ifStep, halloc, Prog.run_bind_of _ hgather,
    perform, Prog.run_lift_bind, ifStep]
  dsimp only
  rw [hdata, hsend]
  rfl

/-- Without a buffer `ERR_OK` is returned all the same. -/
theorem not_outputOk {w : World} {p : Chain} (hw : w.Coh) (hp : totLen p ≤ maxFramelen)
    (hno : ¬Grants env pool fuel (totLen p) (w, r)) : ¬OutputOk env pool fuel p (w, r) := by
  have hg : grant .sramin w.node.memmap (totLen p) = none := by
    rw [grants_iff_isSome] at hno
    exact Option.not_isSome_iff_eq_none.mp hno
  obtain ⟨w₂, hsend, -⟩ := Returns.packetSend env w.node fuel (totLen_eq p ▸ hp) w rfl hw
  have hrun := run_lowLevelOutput pool r (boardStep_mymalloc_none env hg) (by decide) hp hsend
  rintro ⟨err, s, hs, -, -, hfail⟩
  obtain ⟨-, -, herr⟩ := hfail hno
  exact herr (Option.some.inj (congrArg Prod.fst (hs.symm.trans hrun)))

/-- With a buffer, `low_level_output` is the one of the driver on the bytes of the chain. -/
theorem lowLevelOutput_world (env : Env) (pool : PbufPool) (fuel : ℕ) {w : World} (r : Ram)
    {p : Chain} {o : ℕ} (hw : w.Coh) (hp : totLen p ≤ maxFramelen)
    (hg : grant .sramin w.node.memmap (totLen p) = some o) :
    ∃ w', Prog.run (ifStep env pool fuel) (lowLevelOutput p) (w, r) =
        (some .ok, w', r.send (blockAddr env.placement .sramin o) p.flatten) ∧
      Prog.run (boardStep env) (Enc28j60.lowLevelOutput fuel p.flatten) w = (some (), w') := by
  have halloc := boardStep_mymalloc_some env hg
  have hbuffer := blockAddr_lt env.placement .sramin (grant_lt _ hg)
  have hne := blockAddr_ne_null env.placement .sramin o
  obtain ⟨w₂, hsend, -⟩ := Returns.packetSend env (w.node.hold (totLen p) o) fuel
    (totLen_eq p ▸ hp) { w with node := w.node.hold (totLen p) o } rfl hw
  refine ⟨_, run_lowLevelOutput pool r halloc hbuffer hp hsend, ?_⟩
  rw [Enc28j60.lowLevelOutput, ← totLen_eq, Enc28j60.perform, Prog.run_lift_bind, halloc,
    if_neg fun h => hne h.1, Prog.run_bind_of _ hsend]
  rfl

/-- With a buffer the chain is sent and the buffer is given back. -/
theorem outputOk {w : World} {p : Chain} (hw : w.Coh) (hp : totLen p ≤ maxFramelen)
    (hgrants : Grants env pool fuel (totLen p) (w, r)) : OutputOk env pool fuel p (w, r) := by
  obtain ⟨o, hg⟩ := Option.isSome_iff_exists.mp (grants_iff_isSome.mp hgrants)
  obtain ⟨w', hrun, hdriver⟩ := lowLevelOutput_world env pool fuel r hw hp hg
  rw [totLen_eq] at hp hg
  obtain ⟨m, hm, hsame⟩ := Returns.lowLevelOutput env fuel ⟨p.flatten, hp⟩ fun _ => ⟨o, hg⟩
  obtain ⟨w₂, hrun₂, hnode, -⟩ := hm w rfl hw
  obtain rfl : w' = w₂ := congrArg Prod.snd (hdriver.symm.trans hrun₂)
  refine ⟨.ok, _, hrun, ?_, fun _ => ⟨rfl, rfl⟩, fun hno => absurd hgrants hno⟩
  rw [hnode]
  exact hsame.memmap

/-- **Sending a chain.** From any state of the chip and the pool, `low_level_output` does what it is
for exactly when the table of `SRAMIN` has a run of free cells for the packet. -/
theorem outputOk_iff (env : Env) (pool : PbufPool) (fuel : ℕ) {w : World} (r : Ram) {p : Chain}
    (hw : w.Coh) (hpos : 1 ≤ totLen p) (hp : totLen p ≤ 1514) :
    OutputOk env pool fuel p (w, r) ↔
      ∃ k, FreeRun .sramin w.node.memmap k (blocks (totLen p)) := by
  have hframe : totLen p ≤ maxFramelen := hp.trans (by decide)
  rw [← grants_iff env pool fuel r hpos (hp.trans (by decide))]
  exact ⟨fun h => not_not.mp fun hno => not_outputOk hw hframe hno h, outputOk hw hframe⟩

/-- Chains of one segment. -/
def singlePool : PbufPool := ⟨fun _ len => [len], fun _ _ => List.sum_singleton⟩

/-- Memory in which nothing has happened yet. -/
def zeroRam : Ram := ⟨fun _ => 0, [], []⟩

/-- A board with a table of `SRAMIN` that holds `cell` everywhere, and one packet pending. -/
def boardWith (cell : ℕ) : World :=
  { powerOn with node := { powerOn.node with epktcnt := 1, memmap := fun _ => cell } }

/-- Two segments and an empty pool. -/
theorem outputOk_iff_empty :
    OutputOk quietEnv singlePool 0 [[1, 2], [3]] (boardWith 0, zeroRam) ↔
      ∃ k, FreeRun .sramin (boardWith 0).node.memmap k (blocks (totLen [[1, 2], [3]])) :=
  outputOk_iff quietEnv singlePool 0 zeroRam ⟨0, rfl, rfl⟩ (by decide) (by decide)

theorem not_grants_full {size : ℕ} (hpos : 0 < size) (hs : size ≤ maxRequest) :
    ¬Grants quietEnv singlePool 0 size (boardWith 1, zeroRam) := by
  rw [grants_iff _ _ _ _ hpos hs]
  rintro ⟨k, -, hfree⟩
  have hblocks := blocks_pos hpos
  exact Nat.one_ne_zero (hfree k (Nat.le_refl k) (Nat.lt_add_of_pos_right hblocks))

/-- Two segments and a pool in which every cell is used. -/
theorem not_outputOk_full :
    ¬OutputOk quietEnv singlePool 0 [[1, 2], [3]] (boardWith 1, zeroRam) :=
  not_outputOk ⟨0, rfl, rfl⟩ (by decide) (not_grants_full (by decide) (by decide))

/-! ## `ENC28J60_Packet_Receive` -/

/-- What `ENC28J60_Packet_Receive` does with the header of the pending packet of `n`: it returns
`len`, writes the bytes `packet` and leaves `m`. -/
structure PacketReceived (n : Node) (maxlen len : ℕ) (packet : List UInt8) (m : Node) : Prop where
  /-- Only `packet[0], …, packet[maxlen - 1]` are written. -/
  length_le : packet.length ≤ maxlen
  len_le : len ≤ maxlen - 1
  valid : n.rxWord 4 &&& 0x80 ≠ 0 → 4 ≤ n.rxWord 2 → len = min (n.rxWord 2 - 4) (maxlen - 1)
  invalid : n.rxWord 4 &&& 0x80 = 0 → len = 0
  data : packet.take len = n.rxData len
  next : m.nextPacketPtr = n.rxWord 0
  rdpt : m.word 6 = n.rxWord 0

/-- As many bytes are written as are returned. -/
theorem PacketReceived.len_le_length {maxlen len : ℕ} {packet : List UInt8}
    (h : PacketReceived n maxlen len packet m) : len ≤ packet.length := by
  have hlen := congrArg List.length h.data
  rw [List.length_take, Node.rxData, Node.length_load] at hlen
  exact min_eq_left_iff.mp hlen

theorem rxWord_lt (n : Node) (i : ℕ) : n.rxWord i < 2 ^ 16 := by
  refine Nat.or_lt_two_pow ((UInt8.toNat_lt _).trans (by omega)) ?_
  rw [Nat.shiftLeft_eq]
  exact Nat.mul_lt_mul_of_pos_right (UInt8.toNat_lt _) (by omega)

theorem packetReceived (n : Node) {maxlen : ℕ} (h₁ : 1 ≤ maxlen) (hmax : maxlen < 2 ^ 32) :
    PacketReceived n maxlen (n.received maxlen).1 (n.received maxlen).2 (n.receive maxlen) := by
  have hcount : n.rxCount maxlen ≤ maxlen - 1 := by
    rw [Node.rxCount]
    split
    · exact Nat.zero_le _
    · exact receiveLen_le h₁ hmax _
  have hdata : (n.rxData (n.rxCount maxlen)).length = n.rxCount maxlen := n.length_load _ _
  refine ⟨?_, hcount, fun hok h₄ => ?_, fun hbad => if_pos hbad, ?_, rfl, ?_⟩
  · rw [Node.received]
    dsimp only
    split
    · exact Nat.zero_le _
    · rw [List.length_append, hdata, List.length_singleton]
      omega
  · exact (if_neg hok).trans (receiveLen_eq h₁ hmax h₄ (rxWord_lt n 2))
  · rw [Node.received]
    dsimp only
    split
    · have hzero : n.rxCount maxlen = 0 := if_pos ‹_›
      rw [hzero]
      rfl
    · exact List.take_left' hdata
  · rw [n.word_receive_six, Nat.mod_eq_of_lt (rxWord_lt n 0)]

/-! ## `low_level_input` -/

variable (env pool fuel) in
/-- What `low_level_input` is for: a chain with the bytes that `ENC28J60_Packet_Receive` finds, or
`NULL` if `pbuf_alloc` fails. The table of the pool is the same afterwards. -/
def Yields (s : World × Ram) : Prop :=
  ∃ p s' len packet w', Prog.run (ifStep env pool fuel) lowLevelInput s = (some p, s') ∧
    Prog.run (boardStep env) (Enc28j60.packetReceive fuel maxFramelen) s.1 =
      (some (len, packet), w') ∧
    p.map List.flatten = (if env.pbufAlloc s.1.node.clock then some (packet.take len) else none) ∧
    s'.1.node.memmap = s.1.node.memmap ∧
    s'.1.node.nextPacketPtr = w'.node.nextPacketPtr ∧ s'.1.node.word 6 = w'.node.word 6

/-- `low_level_input` with a buffer. -/
theorem run_lowLevelInput (pool : PbufPool) {w w₁ w₂ : World} (r : Ram) {buffer : ℕ}
    {x : ℕ × List UInt8} (halloc : boardStep env (.mymalloc 1600) w = (buffer, w₁))
    (hne : buffer ≠ null)
    (hreceive : Prog.run (boardStep env) (Enc28j60.packetReceive fuel maxFramelen) w₁ =
      (some x, w₂)) :
    Prog.run (ifStep env pool fuel) lowLevelInput (w, r) =
      (some ((if env.pbufAlloc w₂.node.clock then some (pool.lens w₂.node.clock x.1)
          else none).map fun lens => slices (r.store buffer x.2).mem buffer lens 0),
        (boardStep env (.myfree buffer) (boardStep env (.pbufAlloc x.1) w₂).2).2,
        r.store buffer x.2) := by
  rw [lowLevelInput, perform, Prog.run_lift_bind, ifStep, halloc]
  dsimp only
  rw [if_neg hne, perform, Prog.run_lift_bind, ifStep]
  dsimp only
  rw [hreceive, perform, Prog.run_lift_bind, ifStep]
  exact Prog.run_bind_of _ (run_fillChain env pool fuel _ _ buffer _) _

/-- What `ENC28J60_Packet_Receive` does while a buffer is held. -/
theorem run_packetReceive_hold (env : Env) (fuel : ℕ) {w : World} (hw : w.Coh)
    (hcount : w.node.epktcnt ≠ 0) (o : ℕ) :
    ∃ w₂, Prog.run (boardStep env) (Enc28j60.packetReceive fuel maxFramelen)
        { w with node := w.node.hold 1600 o } = (some (w.node.received maxFramelen), w₂) ∧
      w₂.node = (w.node.hold 1600 o).receive maxFramelen ∧ w₂.Coh := by
  rw [← Node.received_hold w.node 1600 o maxFramelen]
  exact Returns.packetReceive env fuel maxFramelen (n := w.node.hold 1600 o) hcount _ rfl hw

/-- What the chain holds that `low_level_input` has filled. -/
theorem flatten_received (env : Env) (pool : PbufPool) (r : Ram) (n : Node) {buffer : ℕ}
    (hbuffer : buffer < 2 ^ 32) (clock : ℕ) :
    ((if env.pbufAlloc clock then some (pool.lens clock (n.received maxFramelen).1)
        else none).map fun lens =>
          slices (r.store buffer (n.received maxFramelen).2).mem buffer lens 0).map List.flatten =
      if env.pbufAlloc clock then
        some ((n.received maxFramelen).2.take (n.received maxFramelen).1) else none := by
  have hdata := packetReceived n (show 1 ≤ maxFramelen by decide) (by decide)
  exact map_flatten_slices pool r hbuffer (hdata.length_le.trans (by decide))
    hdata.len_le_length _ _

/-- `low_level_input` without a buffer. -/
theorem lowLevelInput_null {w : World} (hno : ¬Grants env pool fuel 1600 (w, r)) :
    Prog.run (ifStep env pool fuel) lowLevelInput (w, r) = (some none, w, r) := by
  rw [grants_iff_isSome] at hno
  rw [lowLevelInput, perform, Prog.run_lift_bind, ifStep,
    boardStep_mymalloc_none env (Option.not_isSome_iff_eq_none.mp hno)]
  rfl

/-- `low_level_input` is the one of the driver, which returns the bytes of the chain. -/
theorem lowLevelInput_world (env : Env) (pool : PbufPool) (fuel : ℕ) {w : World} (r : Ram)
    (hw : w.Coh) (hcount : w.node.epktcnt ≠ 0) :
    ∃ p s, Prog.run (ifStep env pool fuel) lowLevelInput (w, r) = (some p, s) ∧
      Prog.run (boardStep env) (Enc28j60.lowLevelInput fuel) w =
        (some (p.map List.flatten), s.1) := by
  cases hg : grant .sramin w.node.memmap 1600 with
  | none =>
    have hno : ¬Grants env pool fuel 1600 (w, r) := by
      rw [grants_iff_isSome, hg]
      exact Bool.false_ne_true
    refine ⟨none, (w, r), lowLevelInput_null hno, ?_⟩
    rw [Enc28j60.lowLevelInput, Enc28j60.perform, Prog.run_lift_bind,
      boardStep_mymalloc_none env hg]
    rfl
  | some o =>
    have halloc := boardStep_mymalloc_some env hg
    have hbuffer := blockAddr_lt env.placement .sramin (grant_lt _ hg)
    have hne : ¬blockAddr env.placement .sramin o = 0 := blockAddr_ne_null env.placement .sramin o
    obtain ⟨w₂, hreceive, -⟩ := run_packetReceive_hold env fuel hw hcount o
    refine ⟨_, _, run_lowLevelInput pool r halloc hne hreceive, ?_⟩
    rw [flatten_received env pool r w.node hbuffer, Enc28j60.lowLevelInput, Enc28j60.perform,
      Prog.run_lift_bind, halloc]
    dsimp only
    rw [if_neg hne, Prog.run_bind_of _ hreceive]
    rfl

/-- `low_level_input` with a buffer. -/
theorem yields {w : World} (hw : w.Coh) (hcount : w.node.epktcnt ≠ 0)
    (hgrants : Grants env pool fuel 1600 (w, r)) : Yields env pool fuel (w, r) := by
  have hroom : w.node.HasRoom := (grants_iff env pool fuel r (by decide) (by decide)).mp hgrants
  obtain ⟨p, s, hrun, hdriver⟩ := lowLevelInput_world env pool fuel r hw hcount
  obtain ⟨m, hm, hsame, -⟩ := Returns.lowLevelInput env fuel hroom hcount False
  obtain ⟨w₂, hrun₂, hnode, -⟩ := hm w rfl hw
  obtain ⟨w', hreceive, hnode', -⟩ := Returns.packetReceive env fuel maxFramelen hcount w rfl hw
  rw [hrun₂] at hdriver
  have hp : w.node.input env = p.map List.flatten := Option.some.inj (congrArg Prod.fst hdriver)
  have hs : s.1.node = m := (congrArg (fun x => x.2.node) hdriver).symm.trans hnode
  refine ⟨p, s, _, _, w', hrun, hreceive, hp.symm, ?_, ?_, ?_⟩
  · rw [hs]
    exact hsame.memmap
  · rw [hs, hnode']
    exact hsame.nextPacketPtr
  · rw [hs, hnode']
    exact hsame.word (by omega) (by omega)

/-- **Receiving a packet.** Whatever header and data are pending, `ENC28J60_Packet_Receive` stays in
its buffer, finds the data, moves on to the next packet and counts down once. With a buffer
`low_level_input` returns a chain with these bytes, or `NULL` if `pbuf_alloc` fails; without one
it returns `NULL` and changes nothing. -/
theorem packet_received (env : Env) (pool : PbufPool) (fuel : ℕ) {w : World} (r : Ram) (hw : w.Coh)
    (hcount : w.node.epktcnt ≠ 0) :
    (∀ maxlen, 1 ≤ maxlen → maxlen < 2 ^ 32 → ∃ len packet w',
      Prog.run (boardStep env) (Enc28j60.packetReceive fuel maxlen) w = (some (len, packet), w') ∧
        PacketReceived w.node maxlen len packet w'.node ∧
        issued env Op.setsPktdec (Enc28j60.packetReceive fuel maxlen) w = 1) ∧
      (Grants env pool fuel 1600 (w, r) → Yields env pool fuel (w, r)) ∧
      (¬Grants env pool fuel 1600 (w, r) → ∃ w',
        Prog.run (ifStep env pool fuel) lowLevelInput (w, r) = (some none, w', r) ∧
          w'.node = w.node) := by
  refine ⟨fun maxlen h₁ hmax => ?_, yields hw hcount, fun hno => ⟨w, lowLevelInput_null hno, rfl⟩⟩
  obtain ⟨h, hissued⟩ := (LogReturns.packetReceive env w.node fuel maxlen hcount).of_counted
  obtain ⟨w', hrun, hnode, -⟩ := h w rfl hw
  refine ⟨_, _, w', hrun, ?_, hissued w rfl hw⟩
  rw [hnode]
  exact packetReceived w.node h₁ hmax

/-- With a pending packet of six bytes, of which two are data, in a receive buffer with the bounds
that `ENC28J60_Init` sets. -/
def shortPacket : World :=
  let bytes : List UInt8 := [12, 0, 6, 0, 0x80, 0, 1, 2, 3, 4, 5, 6]
  { boardWith 0 with node := { (boardWith 0).node with
      mem := fun a => bytes.getD a 0 }.setWord 5 rxstopInit }

/-- The two bytes are returned, and `NextPacketPtr` and `ERXRDPT` are moved to address 12. -/
theorem packet_received_short :
    (∃ packet w', Prog.run (boardStep quietEnv) (Enc28j60.packetReceive 0 maxFramelen) shortPacket =
        (some (2, packet), w') ∧ packet.take 2 = [1, 2] ∧ w'.node.nextPacketPtr = 12 ∧
        w'.node.word 6 = 12) ∧
      Yields quietEnv singlePool 0 (shortPacket, zeroRam) := by
  obtain ⟨hreceived, hyields, -⟩ :=
    packet_received quietEnv singlePool 0 zeroRam (w := shortPacket) ⟨0, rfl, rfl⟩ (by decide)
  constructor
  · obtain ⟨len, packet, w', hrun, h, -⟩ := hreceived maxFramelen (by decide) (by decide)
    have hnext : shortPacket.node.rxWord 0 = 12 := by decide +kernel
    have hlen : len = 2 :=
      (h.valid (by decide +kernel) (by decide +kernel)).trans (by decide +kernel)
    subst hlen
    exact ⟨packet, w', hrun, h.data.trans (by decide +kernel), h.next.trans hnext,
      h.rdpt.trans hnext⟩
  · refine hyields ?_
    rw [grants_iff _ _ _ _ (by decide) (by decide)]
    exact ⟨0, by decide, fun _ _ _ => rfl⟩

/-- A pool in which every cell is used, and a `pbuf_alloc` that does not fail. -/
theorem not_yields_full : ¬Yields quietEnv singlePool 0 (boardWith 1, zeroRam) := by
  have hno : ¬Grants quietEnv singlePool 0 1600 (boardWith 1, zeroRam) :=
    not_grants_full (by decide) (by decide)
  have hnull := lowLevelInput_null hno
  rintro ⟨p, s', len, packet, w'', hrun, -, hp, -⟩
  obtain rfl : none = p := Option.some.inj (congrArg Prod.fst (hnull.symm.trans hrun))
  simp [quietEnv] at hp

end Runs

end Ethernetif

end Enc28j60Udp
