import Enc28j60Udp.Enc28j60.Start
import Enc28j60Udp.Foundations.Runs

/-!
# The driver and the receive FIFO

Three things have to move together: `NextPacketPtr` in the driver, and `ERXRDPT` and `EPKTCNT` in
the chip. `SyncedAt s k` says that the driver has read the first `k` of the packets that the chip
has stored, each once and in order, and that all three agree with this. `Inv` adds what the chip
needs in order not to overwrite a packet that is still to be read.

The normal path of the handler keeps `Inv`, as long as no frame it sends is so long that its status
vector is written into the buffer. The branch for a receive error does not: it decrements `EPKTCNT`
and moves `ERXRDPT` on by one, but takes no packet. With at most one packet pending this does no
harm as long as `ERXRDPT` is in the buffer (`Harmless`); with more the counter is out of step at
once (`not_synced_of_error`).
-/

namespace Enc28j60Udp

namespace Enc28j60

/-! ## The system -/

/-- A table of the pool `SRAMIN` with room for the receive buffer. -/
structure RoomyPool where
  memmap : ℕ → ℕ
  room : HasRoom memmap

/-- The board, and the packets that the chip has stored, in the order of their arrival. -/
structure Link where
  world : World
  stored : List Stored

/-- What happens to the board. -/
inductive RxEvent
  /-- A packet arrives. -/
  | arrival (p : Packet)
  /-- `RXERIF` is set. -/
  | rxError
  /-- The handler runs, with the surroundings and the pool that it finds. -/
  | isr (env : Env) (pool : RoomyPool)

/-- The board with a new table of `SRAMIN`. -/
def World.withPool (w : World) (m : ℕ → ℕ) : World :=
  { w with node := { w.node with memmap := m } }

/-- The node as the packet branch of the handler finds it. -/
def Node.entry (n : Node) (m : ℕ → ℕ) : Node :=
  { n with memmap := m }.setEie (n.regs 0x1B &&& ~~~0x80)

theorem Node.answersShort_entry (n : Node) (env : Env) (m : ℕ → ℕ) :
    (n.entry m).AnswersShort env ↔ n.AnswersShort env := by
  have hnext : (n.entry m).rxNext = n.rxNext :=
    rxNext_congr (Node.word_setEie _ (by omega) _) (Node.word_setEie _ (by omega) _)
  have hreceived := received_congr (n := n) (m := n.entry m) rfl hnext rfl maxFramelen
  have hanswer : (n.entry m).answer env = n.answer env := by
    rw [answer, answer, input, input, hreceived]
    rfl
  rw [AnswersShort, AnswersShort, hanswer]

/-- One event. -/
def linkStep (fuel : ℕ) (s : Link) : RxEvent → Link
  | .arrival p =>
    ⟨{ s.world with node := s.world.node.arrive p },
      if s.world.node.Accepts p then s.stored ++ [s.world.node.placed p] else s.stored⟩
  | .rxError => ⟨{ s.world with node := { s.world.node with rxerif := true } }, s.stored⟩
  | .isr env pool => ⟨handlerRun env fuel (s.world.withPool pool.memmap), s.stored⟩

/-- `ENC28J60_Init` has run; no packet has been stored yet, and none read. -/
def Link.start (env : Env) (w : World) : Link :=
  let w := (Prog.run (boardStep env) init w).2
  ⟨{ w with node := { w.node with readOut := [] } }, []⟩

/-- The driver has read the first `k` stored packets. -/
structure SyncedAt (s : Link) (k : ℕ) : Prop where
  count : s.world.node.epktcnt.toNat + k = s.stored.length
  /-- `NextPacketPtr` addresses the oldest packet not yet read, or the place for the next. -/
  next : s.world.node.nextPacketPtr = (s.stored[k]?).elim (s.world.node.word 7) Stored.start
  /-- Each of them was read once, in order. -/
  read : s.world.node.readOut = (s.stored.take k).flatMap Stored.read
  /-- The others are in the buffer. -/
  kept : ∀ q ∈ s.stored.drop k, s.world.node.load q.start q.image.length = q.image

/-- The driver and the chip are in step. -/
def Synced (s : Link) : Prop := ∃ k, SyncedAt s k

/-- The handler answers with short frames only, and it does not find `RXERIF` set, or it finds at
most one packet pending, and the read pointer in the buffer when there is none. -/
def Harmless (s : Link) : RxEvent → Prop
  | .isr env _ => (s.world.node.epktcnt ≠ 0 → s.world.node.AnswersShort env) ∧
      (s.world.node.rxerif = true → s.world.node.epktcnt.toNat ≤ 1 ∧
        (s.world.node.epktcnt = 0 → s.world.node.word 6 ≤ rxstopInit))
  | _ => True

instance (s : Link) : (e : RxEvent) → Decidable (Harmless s e)
  | .isr _ _ => inferInstanceAs (Decidable (_ ∧ _))
  | .arrival _ => instDecidableTrue
  | .rxError => instDecidableTrue

/-! ## The invariant -/

/-- `l` results from `n` by taking packet `q` from the buffer, which is the same if what is sent
meanwhile is `short`. -/
structure Taken (short : Prop) (n : Node) (q : Stored) (l : Node) : Prop where
  word : ∀ j, j = 4 ∨ j = 5 ∨ j = 7 → l.word j = n.word j
  rdpt : l.word 6 = q.next
  next : l.nextPacketPtr = q.next
  epktcnt : l.epktcnt.toNat = n.epktcnt.toNat - 1
  readOut : l.readOut = n.readOut ++ q.read
  mem : short → ∀ a < txstartInit, l.mem a = n.mem a

/-- With nothing pending and the read pointer in the buffer, the branch for a receive error leaves
the counter alone and the read pointer at most one behind the end. -/
theorem Node.finish_harmless {l n : Node}
    (hn : n.rxerif = true → l.epktcnt.toNat = 0 ∧ l.word 6 ≤ rxstopInit) :
    (l.finish n).epktcnt.toNat = l.epktcnt.toNat ∧
      ((l.finish n).word 6 = l.word 6 ∨ (l.finish n).word 6 ≤ rxSize ∧ l.epktcnt.toNat = 0) := by
  rw [finish_word _ _ (by omega), finish_epktcnt]
  cases hrx : n.rxerif with
  | false => exact ⟨rfl, .inl (if_neg (by simp))⟩
  | true =>
    obtain ⟨hzero, hle⟩ := hn hrx
    rw [if_pos rfl, if_pos ⟨rfl, rfl⟩, toNat_pktdec, hzero]
    refine ⟨rfl, .inr ⟨?_, rfl⟩⟩
    unfold rxSize rxstopInit at *
    omega

/-- The first `k` packets are read, the others lie in the buffer as a queue, and there is no more
free space than they leave. -/
structure Inv (s : Link) (k : ℕ) : Prop where
  coh : s.world.Coh
  ring : s.world.node.RxRing
  rdpt_le : s.world.node.word 6 ≤ rxSize
  next_lt : s.world.node.nextPacketPtr < rxSize
  count : s.world.node.epktcnt.toNat + k = s.stored.length
  read : s.world.node.readOut = (s.stored.take k).flatMap Stored.read
  queue : Ring.Queued rxSize rxFormat s.world.node.mem s.world.node.nextPacketPtr
    (s.stored.drop k) (s.world.node.word 7)
  room : Ring.total rxFormat (s.stored.drop k) +
    Ring.free rxSize (s.world.node.word 7) (s.world.node.word 6) < rxSize

namespace Inv

variable {s : Link} {k fuel : ℕ}

theorem start (env : Env) {w : World} (hw : w.Coh) : Inv (Link.start env w) 0 := by
  obtain ⟨w', hrun, hcoh, hstarted⟩ := run_init env hw
  rw [Link.start, hrun]
  have hrdpt : w'.node.word 6 = 0 := hstarted.rdpt
  have hwrpt : w'.node.word 7 = 0 := hstarted.wrpt
  have hnext : w'.node.nextPacketPtr = 0 := hstarted.next
  refine ⟨hcoh, hstarted.ring, ?_, ?_, ?_, rfl, ?_, ?_⟩ <;> dsimp only
  · exact hrdpt ▸ Nat.zero_le _
  · exact hnext ▸ Nat.succ_pos _
  · exact congrArg UInt8.toNat hstarted.epktcnt
  · exact hnext.trans hwrpt.symm
  · exact (Nat.zero_add _).symm ▸ Ring.free_lt (Nat.succ_pos _) _ _

theorem wrpt_lt (h : Inv s k) : s.world.node.word 7 < rxSize := by
  rw [h.queue.end_eq h.next_lt]
  exact Nat.mod_lt _ (Nat.succ_pos _)

theorem kept_of_queued {n : Node} (hn : n.RxRing) {a b : ℕ} (ha : a < rxSize) {qs : List Stored}
    (h : Ring.Queued rxSize rxFormat n.mem a qs b) :
    ∀ q ∈ qs, n.load q.start q.image.length = q.image := by
  induction qs generalizing a with
  | nil => simp
  | cons p ps ih =>
    obtain ⟨hstart, hafter, himage, hps⟩ := h
    rw [List.forall_mem_cons]
    refine ⟨?_, ih (hafter ▸ Nat.mod_lt _ (Nat.succ_pos _)) hps⟩
    have hstart : p.start = a := hstart
    rw [hstart, hn.load ha]
    exact himage

theorem synced (h : Inv s k) : Synced s := by
  refine ⟨k, h.count, ?_, h.read, kept_of_queued h.ring h.next_lt h.queue⟩
  have hqueue := h.queue
  rw [← List.head?_drop]
  cases hdrop : s.stored.drop k with
  | nil =>
    rw [hdrop] at hqueue
    exact hqueue
  | cons q qs =>
    rw [hdrop] at hqueue
    exact hqueue.1.symm

theorem le (h : Inv s k) : k ≤ s.stored.length := by
  have := h.count
  omega

/-- An accepted packet joins the queue. -/
theorem accept (h : Inv s k) {p : Packet} (hacc : s.world.node.Accepts p) :
    Inv (linkStep fuel s (.arrival p)) k := by
  have hwrpt := h.wrpt_lt
  have hroom := h.room
  have hcounts := h.count
  have hnext := h.ring.rxNext_iterate hwrpt p.size
  have hnextlt : (s.world.node.placed p).next < rxSize := by
    rw [Node.placed, hnext]
    exact Nat.mod_lt _ (Nat.succ_pos _)
  have hfree : p.size ≤ Ring.free rxSize (s.world.node.word 7) (s.world.node.word 6) := by
    rw [← h.ring.rxFree h.rdpt_le hwrpt]
    exact hacc.2.2
  have htotal : Ring.total rxFormat (s.stored.drop k ++ [s.world.node.placed p]) =
      Ring.total rxFormat (s.stored.drop k) + p.size := by
    rw [Ring.total, List.map_append, List.sum_append]
    rfl
  have h7 := hacc.arrive_word_seven (Nat.lt_trans hnextlt (by decide))
  have h6 := hacc.arrive_word (k := 6) (by omega)
  obtain ⟨hptr, hout⟩ := hacc.arrive_driver
  rw [linkStep, if_pos hacc]
  refine ⟨h.coh, ⟨(hacc.arrive_word (by omega)).trans h.ring.1,
    (hacc.arrive_word (by omega)).trans h.ring.2⟩, ?_, ?_, ?_, ?_, ?_, ?_⟩ <;> dsimp only
  · exact h6 ▸ h.rdpt_le
  · exact hptr ▸ h.next_lt
  · rw [hacc.arrive_epktcnt, List.length_append, List.length_singleton]
    omega
  · rw [hout, List.take_append_of_le_length h.le, h.read]
  · rw [hacc.arrive_mem, h.ring.storeRx hwrpt, hptr, h7, List.drop_append_of_le_length h.le]
    refine h.queue.push h.next_lt rfl hnext ?_
    exact (Nat.add_le_add_left hfree _).trans (Nat.le_of_lt hroom)
  · rw [List.drop_append_of_le_length h.le, htotal, h7, h6, Node.placed, hnext,
      Ring.free_add hwrpt hfree]
    omega

/-- The arrival of a packet keeps the invariant; the driver is not involved. -/
theorem arrival (h : Inv s k) (fuel : ℕ) (p : Packet) : Inv (linkStep fuel s (.arrival p)) k := by
  by_cases hacc : s.world.node.Accepts p
  · exact h.accept hacc
  · have hkeep : s.world.node.arrive p = s.world.node ∨
        s.world.node.arrive p = { s.world.node with rxerif := true } := by
      rw [Node.arrive, if_neg hacc]
      split
      · exact .inr rfl
      · exact .inl rfl
    rw [linkStep, if_neg hacc]
    rcases hkeep with he | he
    · rw [he]
      exact h
    · rw [he]
      exact ⟨h.coh, h.ring, h.rdpt_le, h.next_lt, h.count, h.read, h.queue, h.room⟩

theorem rxError (h : Inv s k) (fuel : ℕ) : Inv (linkStep fuel s .rxError) k := by
  exact ⟨h.coh, h.ring, h.rdpt_le, h.next_lt, h.count, h.read, h.queue, h.room⟩

/-- A packet is pending: the oldest one not yet read. -/
theorem oldest (h : Inv s k) (hne : s.world.node.epktcnt ≠ 0) :
    ∃ q qs, s.stored.drop k = q :: qs := by
  have hpos : s.world.node.epktcnt.toNat ≠ 0 := fun he => hne (UInt8.toNat_inj.mp he)
  have hcounts := h.count
  exact ⟨_, _, List.drop_eq_getElem_cons (by omega)⟩

section Oldest

variable {short : Prop} {q : Stored} {qs : List Stored}

/-- The others are behind the oldest one. -/
theorem rest (h : Inv s k) (hdrop : s.stored.drop k = q :: qs) :
    q.next < rxSize ∧
      Ring.Queued rxSize rxFormat s.world.node.mem q.next qs (s.world.node.word 7) := by
  have hqueue := h.queue
  rw [hdrop] at hqueue
  obtain ⟨-, hafter, -, hqs⟩ := hqueue
  have hafter : q.next = _ := hafter
  exact ⟨hafter ▸ Nat.mod_lt _ (Nat.succ_pos _), hqs⟩

/-- `EPKTCNT` counts the oldest one and the others. -/
theorem epktcnt_eq (h : Inv s k) (hdrop : s.stored.drop k = q :: qs) :
    s.world.node.epktcnt.toNat = qs.length + 1 := by
  have hlen := congrArg List.length hdrop
  rw [List.length_drop, List.length_cons] at hlen
  have hcounts := h.count
  omega

/-- `ENC28J60_Packet_Receive` reads the oldest packet. -/
theorem receive_oldest (h : Inv s k) (hdrop : s.stored.drop k = q :: qs) {n : Node}
    (hmem : n.mem = s.world.node.mem) (hword : ∀ j ≤ 7, n.word j = s.world.node.word j)
    (hnext : n.nextPacketPtr = s.world.node.nextPacketPtr) :
    n.rxWord 0 = q.next ∧ (n.receive maxFramelen).readOut = n.readOut ++ q.read := by
  have hbig {a : ℕ} (ha : a < rxSize) : a < 2 ^ 16 := Nat.lt_trans ha (by decide)
  have hring : n.RxRing :=
    ⟨(hword 4 (by omega)).trans h.ring.1, (hword 5 (by omega)).trans h.ring.2⟩
  have hnextlt : n.nextPacketPtr < rxSize := hnext ▸ h.next_lt
  have hqueue := h.queue
  have hroom := h.room
  rw [hdrop] at hqueue hroom
  have hload : n.load n.nextPacketPtr q.image.length = q.image := by
    rw [hring.load hnextlt, hmem, hnext]
    exact hqueue.2.2.1
  have hlen : q.packet.data.length < 2 ^ 16 := by
    have htotal : Ring.total rxFormat (q :: qs) = q.packet.size + Ring.total rxFormat qs := rfl
    unfold Packet.size at htotal
    unfold rxSize rxstopInit at hroom
    omega
  exact Node.receive_stored (hbig hnextlt) (hbig (h.rest hdrop).1) hlen hload

/-- The packet branch of the handler takes the oldest packet. -/
theorem taken (h : Inv s k) (hdrop : s.stored.drop k = q :: qs) {m : ℕ → ℕ} {l : Node}
    (hl : SameRx short ((s.world.node.entry m).receive maxFramelen) l) :
    Taken short s.world.node q l := by
  have hword {j : ℕ} (hj : j ≤ 7) : (s.world.node.entry m).word j = s.world.node.word j :=
    Node.word_setEie _ hj _
  have hkeep (j : ℕ) (hj : j = 4 ∨ j = 5 ∨ j = 7) : l.word j = s.world.node.word j := by
    rw [hl.word, Node.word_receive, hword]
    all_goals omega
  obtain ⟨hword₀, hout⟩ := h.receive_oldest hdrop (n := s.world.node.entry m) rfl
    (fun j hj => hword hj) rfl
  refine ⟨hkeep, ?_, hl.nextPacketPtr.trans hword₀, ?_, hl.readOut.trans hout, hl.mem⟩
  · rw [hl.word (by omega) (by omega), Node.word_receive_six, hword₀, Nat.mod_eq_of_lt]
    exact Nat.lt_trans (h.rest hdrop).1 (by decide)
  · rw [hl.epktcnt]
    exact Node.toNat_pktdec s.world.node

/-- With the oldest packet one more has been read. -/
theorem read_taken (h : Inv s k) (hdrop : s.stored.drop k = q :: qs) {l : Node}
    (ht : Taken short s.world.node q l) :
    l.readOut = (s.stored.take (k + 1)).flatMap Stored.read := by
  have htake : s.stored.take (k + 1) = s.stored.take k ++ [q] := by
    rw [List.take_add_one, ← List.head?_drop, hdrop]
    rfl
  rw [ht.readOut, htake, List.flatMap_append, List.flatMap_singleton, ← h.read]

/-- Taking the oldest packet keeps the invariant. -/
theorem take (h : Inv s k) (hdrop : s.stored.drop k = q :: qs) {l : Node} (hshort : short)
    (ht : Taken short s.world.node q l) :
    Inv ⟨{ s.world with node := l }, s.stored⟩ (k + 1) := by
  obtain ⟨hlt, hqs⟩ := h.rest hdrop
  have hpending := h.epktcnt_eq hdrop
  have hcounts := h.count
  have hroom := h.room
  have h7 := ht.word 7 (by omega)
  have hdrop' : s.stored.drop (k + 1) = qs := by
    rw [← List.drop_drop, hdrop]
    rfl
  have htotal : Ring.total rxFormat (q :: qs) = q.packet.size + Ring.total rxFormat qs := rfl
  rw [hdrop] at hroom
  refine ⟨h.coh, ⟨(ht.word 4 (by omega)).trans h.ring.1, (ht.word 5 (by omega)).trans h.ring.2⟩,
    ?_, ?_, ?_, ?_, ?_, ?_⟩ <;> dsimp only
  · exact ht.rdpt ▸ Nat.le_of_lt hlt
  · exact ht.next ▸ hlt
  · rw [ht.epktcnt]
    omega
  · exact h.read_taken hdrop ht
  · rw [ht.next, hdrop', h7]
    exact hqs.congr hlt fun i _ => ht.mem hshort _ (Nat.mod_lt _ (Nat.succ_pos _))
  · rw [hdrop', h7, ht.rdpt, hqs.end_eq hlt, Ring.free_of_total hlt (by omega)]
    omega

end Oldest

/-- The rest of the handler, when its branch for a receive error does no harm. -/
theorem finish (h : Inv s k) {n : Node} {w : World} (hcoh : w.Coh)
    (hnode : w.node = s.world.node.finish n)
    (hn : n.rxerif = true → s.world.node.epktcnt.toNat = 0 ∧ s.world.node.word 6 ≤ rxstopInit) :
    Inv ⟨w, s.stored⟩ k := by
  have hword {j : ℕ} (hj : j ≤ 7) (h₆ : j ≠ 6) : w.node.word j = s.world.node.word j := by
    rw [hnode, Node.finish_word _ _ hj, if_neg fun h => h₆ h.1]
  obtain ⟨hcount, hrdpt⟩ := Node.finish_harmless hn
  rw [← hnode] at hcount hrdpt
  have hcounts := h.count
  have hroom := h.room
  refine ⟨hcoh, ⟨(hword (by omega) (by omega)).trans h.ring.1,
    (hword (by omega) (by omega)).trans h.ring.2⟩, ?_, ?_, ?_, ?_, ?_, ?_⟩ <;> dsimp only
  · rcases hrdpt with he | ⟨hle, -⟩
    · exact he ▸ h.rdpt_le
    · exact hle
  · rw [hnode, Node.finish_nextPacketPtr]
    exact h.next_lt
  · rw [hcount]
    exact hcounts
  · rw [hnode, Node.finish_readOut]
    exact h.read
  · rw [hword (by omega) (by omega), hnode, Node.finish_mem, Node.finish_nextPacketPtr]
    exact h.queue
  · rw [hword (by omega) (by omega)]
    rcases hrdpt with he | ⟨-, hzero⟩
    · rw [he]
      exact hroom
    · have hnil : s.stored.drop k = [] := List.drop_eq_nil_of_le (by omega)
      rw [hnil, Ring.total, List.map_nil, List.sum_nil, Nat.zero_add]
      exact Ring.free_lt (by omega) _ _

/-- Without a pending packet only `EIE` and the table change before the flags are dealt with. -/
theorem entry (h : Inv s k) (m : ℕ → ℕ) :
    Inv ⟨{ s.world with node := s.world.node.entry m }, s.stored⟩ k := by
  have hword {j : ℕ} (hj : j ≤ 7) : (s.world.node.entry m).word j = s.world.node.word j :=
    Node.word_setEie _ hj _
  refine ⟨h.coh, ⟨(hword (by omega)).trans h.ring.1, (hword (by omega)).trans h.ring.2⟩, ?_,
    h.next_lt, h.count, h.read, ?_, ?_⟩
  · exact (hword (j := 6) (by omega)).symm ▸ h.rdpt_le
  · exact (hword (j := 7) (by omega)).symm ▸ h.queue
  · dsimp only
    rw [hword (by omega), hword (by omega)]
    exact h.room

/-- What a run of the handler does, with room for the receive buffer. -/
theorem isr_cases (h : Inv s k) (env : Env) (fuel : ℕ) (pool : RoomyPool) :
    ∃ w l, linkStep fuel s (.isr env pool) = ⟨w, s.stored⟩ ∧ w.Coh ∧
      w.node = l.finish (s.world.withPool pool.memmap).node ∧
      (s.world.node.epktcnt ≠ 0 ∧
          SameRx (s.world.node.AnswersShort env)
            ((s.world.node.entry pool.memmap).receive maxFramelen) l ∨
        s.world.node.epktcnt = 0 ∧ l = s.world.node.entry pool.memmap) := by
  have hcoh : (s.world.withPool pool.memmap).Coh := h.coh
  obtain ⟨-, hcoh', l, hnode, hhandled⟩ := run_isrHandler env fuel hcoh
  refine ⟨_, l, rfl, hcoh', hnode, ?_⟩
  obtain ⟨-, hne, hsame⟩ | ⟨hleft, hl⟩ := hhandled
  · exact .inl ⟨hne, hsame.mono (s.world.node.answersShort_entry env pool.memmap).mpr⟩
  · exact .inr ⟨hleft.resolve_left (not_not.mpr pool.room), hl⟩

/-- A harmless run of the handler keeps the invariant. -/
theorem isr (h : Inv s k) {env : Env} {pool : RoomyPool}
    (hharm : Harmless s (.isr env pool)) :
    ∃ k', Inv (linkStep fuel s (.isr env pool)) k' := by
  obtain ⟨hshort, herror⟩ := hharm
  obtain ⟨w, l, hstep, hcoh, hnode, ⟨hne, hsame⟩ | ⟨hzero, rfl⟩⟩ := h.isr_cases env fuel pool
  · obtain ⟨q, qs, hdrop⟩ := h.oldest hne
    have ht := h.taken hdrop hsame
    rw [hstep]
    refine ⟨k + 1, (h.take hdrop (hshort hne) ht).finish hcoh hnode fun hrx => ?_⟩
    -- the packet that was taken was the only one
    obtain ⟨hle, -⟩ := herror hrx
    dsimp only
    rw [ht.epktcnt, ht.rdpt]
    exact ⟨by omega, Nat.le_of_lt_succ (h.rest hdrop).1⟩
  · rw [hstep]
    refine ⟨k, (h.entry pool.memmap).finish hcoh hnode fun hrx => ⟨?_, ?_⟩⟩
    · exact congrArg UInt8.toNat hzero
    · exact (Node.word_setEie _ (by omega) _).trans_le ((herror hrx).2 hzero)

theorem step (h : Inv s k) {e : RxEvent} (he : Harmless s e) :
    ∃ k', Inv (linkStep fuel s e) k' := by
  cases e with
  | arrival p => exact ⟨k, h.arrival fuel p⟩
  | rxError => exact ⟨k, h.rxError fuel⟩
  | isr env pool => exact h.isr he

/-- A run of the handler that finds `RXERIF` set and more than one packet pending brings the
counter out of step: two packets are taken off it, but only one was read. -/
theorem not_synced_of_error (h : Inv s k) (env : Env) (pool : RoomyPool)
    (hrx : s.world.node.rxerif = true) (htwo : 2 ≤ s.world.node.epktcnt.toNat) :
    ¬Synced (linkStep fuel s (.isr env pool)) := by
  have hne : s.world.node.epktcnt ≠ 0 := fun he => absurd htwo (by rw [he]; decide)
  obtain ⟨w, l, hstep, hcoh, hnode, ⟨-, hsame⟩ | ⟨hzero, -⟩⟩ := h.isr_cases env fuel pool
  · obtain ⟨q, qs, hdrop⟩ := h.oldest hne
    have ht := h.taken hdrop hsame
    rw [hstep]
    rintro ⟨k', hsync⟩
    have hmore := hsync.count
    have hread : w.node.readOut = (s.stored.take (k + 1)).flatMap Stored.read := by
      rw [hnode, Node.finish_readOut]
      exact h.read_taken hdrop ht
    have hless : w.node.epktcnt.toNat = s.world.node.epktcnt.toNat - 2 := by
      have hrx' : (s.world.withPool pool.memmap).node.rxerif = true := hrx
      rw [hnode, Node.finish_epktcnt, if_pos hrx', Node.toNat_pktdec, ht.epktcnt]
      rfl
    have hcounts := h.count
    dsimp only at hmore
    obtain rfl : k' = k + 2 := by omega
    have hlt : k + 1 < s.stored.length := by omega
    -- the packet that was counted as read and was not
    have hskip : (s.stored.take (k + 2)).flatMap Stored.read =
        (s.stored.take (k + 1)).flatMap Stored.read ++ (s.stored[k + 1]).read := by
      rw [List.take_add_one, List.getElem?_eq_getElem hlt, Option.toList_some, List.flatMap_append,
        List.flatMap_singleton]
    have hnil := hsync.read.symm.trans hread
    rw [hskip, List.append_right_eq_self] at hnil
    exact (s.stored[k + 1]).read_ne_nil hnil
  · exact absurd hzero hne

end Inv

/-! ## Runs -/

/-- The driver and the chip stay in step in every run from `ENC28J60_Init` on in which every run of
the handler is harmless. -/
theorem fifo_synced (env : Env) (fuel : ℕ) {w : World} (hw : w.Coh) {es : List RxEvent}
    (hes : Runs.Along (linkStep fuel) Harmless (Link.start env w) es) :
    Runs.Always (linkStep fuel) Synced (Link.start env w) es := by
  have hstart : ∃ k, Inv (Link.start env w) k := ⟨0, .start env hw⟩
  have hinv := Runs.always_of_along (P := fun s => ∃ k, Inv s k)
    (fun s e ⟨k, h⟩ he => h.step he) hstart hes
  intro pre post he
  obtain ⟨k, hk⟩ := hinv pre post he
  exact hk.synced

/-- A packet with nothing but its CRC. -/
def crcOnly : Packet := ⟨[0, 0, 0, 0], 0x80, 0, by decide⟩

/-- A pool in which all is free. -/
def freePool : RoomyPool := ⟨fun _ => 0, 0, by decide, fun _ _ _ => rfl⟩

/-- After a receive error the buffer is full as far as the chip can tell; ten more errors make room
for a packet again. -/
def recovery : List RxEvent :=
  .arrival crcOnly :: (List.replicate 11 [.rxError, .isr quietEnv freePool]).flatten ++
    [.arrival crcOnly, .isr quietEnv freePool]

theorem fifo_synced_recovery :
    Runs.Always (linkStep 0) Synced (Link.start quietEnv powerOn) recovery ∧
      (Runs.exec (linkStep 0) (Link.start quietEnv powerOn) recovery).stored.length = 2 :=
  ⟨fifo_synced quietEnv 0 ⟨0, rfl, rfl⟩ (by decide +kernel), by decide +kernel⟩

/-- Two packets are pending when the handler finds `RXERIF` set. -/
theorem fifo_not_synced_two : ¬Runs.Always (linkStep 0) Synced (Link.start quietEnv powerOn)
    [.arrival crcOnly, .arrival crcOnly, .rxError, .isr quietEnv freePool] := by
  intro h
  have hstart : Inv (Link.start quietEnv powerOn) 0 := .start quietEnv ⟨0, rfl, rfl⟩
  have hinv := ((hstart.arrival 0 crcOnly).arrival 0 crcOnly).rxError 0
  refine hinv.not_synced_of_error quietEnv freePool rfl ?_ h.last
  decide +kernel

end Enc28j60

end Enc28j60Udp
