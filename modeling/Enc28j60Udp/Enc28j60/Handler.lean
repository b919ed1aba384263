import Enc28j60Udp.Enc28j60.Packet
import Enc28j60Udp.Malloc.Session

/-!
# The interrupt handler on the board

What `low_level_output`, `ethernetif_input` and `ENC28J60_ISRHandler` do to the node. The receive
buffer of 1600 bytes decides everything (`HasRoom`): when the pool `SRAMIN` has no room for it the
pending packet stays where it is, otherwise the packet is taken from the chip whatever
`pbuf_alloc` and the stack do. All that is granted is freed again, so the table is the same
afterwards. The receive buffer is the same as well when the stack answers with short frames only
(`Node.AnswersShort`).
-/

namespace Enc28j60Udp

namespace Enc28j60

/-- A table of `SRAMIN` has room for the receive buffer: 50 free cells in a row. -/
def HasRoom (m : ℕ → ℕ) : Prop :=
  ∃ o, o + blocks 1600 ≤ memtblsize .sramin ∧ ∀ i, o ≤ i → i < o + blocks 1600 → m i = 0

/-- The pool has room for the receive buffer. -/
abbrev Node.HasRoom (n : Node) : Prop := Enc28j60.HasRoom n.memmap

/-- A pool with room for the receive buffer has room for a frame. -/
theorem Node.HasRoom.grant {n : Node} (h : n.HasRoom) {len : ℕ} (hpos : 0 < len)
    (hlen : len ≤ 1600) : ∃ o, grant .sramin n.memmap len = some o := by
  obtain ⟨o, hin, hfree⟩ := h
  have hblocks : blocks len ≤ blocks 1600 := by unfold blocks; omega
  exact exists_grant_of_free .sramin hpos (by unfold maxRequest; omega) (by omega)
    fun i h₁ h₂ => hfree i h₁ (by omega)

theorem Node.grant_eq_none {n : Node} (h : ¬n.HasRoom) : grant .sramin n.memmap 1600 = none := by
  rw [← Option.not_isSome_iff_eq_none, Option.isSome_iff_exists]
  rintro ⟨o, ho⟩
  obtain ⟨-, hin, hfree⟩ := Overlay.grant_free (by decide) ho
  exact h ⟨o, hin, hfree⟩

/-- Block `o` is granted for a request of `size` bytes. -/
def Node.hold (n : Node) (size o : ℕ) : Node :=
  { n with memmap := fill n.memmap o (nmembOf .sramin size) (nmembOf .sramin size) }

/-- What `low_level_input` returns, with room for the receive buffer. -/
def Node.input (n : Node) (env : Env) : Option (List UInt8) :=
  if env.pbufAlloc n.clock then
    some ((n.received maxFramelen).2.take (n.received maxFramelen).1)
  else none

theorem Node.received_hold (n : Node) (size o maxlen : ℕ) :
    (n.hold size o).received maxlen = n.received maxlen :=
  received_congr (n := n) (m := n.hold size o) rfl (rxNext_congr rfl rfl) rfl maxlen

/-- The frames that the stack sends in answer to the pending packet. -/
def Node.answer (n : Node) (env : Env) : List Frame :=
  (n.input env).elim [] fun packet => (env.input (n.clock + 1) packet).1

/-- No frame of the answer has a status vector that reaches the receive buffer. -/
def Node.AnswersShort (n : Node) (env : Env) : Prop :=
  ∀ frame ∈ n.answer env, frame.bytes.length ≤ 1511

instance (n : Node) (env : Env) : Decidable (n.AnswersShort env) :=
  inferInstanceAs (Decidable (∀ frame ∈ n.answer env, _))

theorem boardStep_mymalloc_some (env : Env) {w : World} {size o : ℕ}
    (hg : grant .sramin w.node.memmap size = some o) : boardStep env (.mymalloc size) w =
      (blockAddr env.placement .sramin o, { w with node := w.node.hold size o }) := by
  have hrun := run_mymalloc_of_some env.placement .sramin (d := w.node.pool) rfl hg
  rw [boardStep, hrun]
  rfl

theorem boardStep_mymalloc_none (env : Env) {w : World} {size : ℕ}
    (hg : grant .sramin w.node.memmap size = none) :
    boardStep env (.mymalloc size) w = (null, w) := by
  have hrun := run_mymalloc_of_none env.placement .sramin (d := w.node.pool) rfl hg
  rw [boardStep, hrun]
  rfl

/-- The block that is held is freed. -/
theorem boardStep_myfree (env : Env) {w : World} {n : Node} {size o : ℕ} (hs : size ≤ maxRequest)
    (hg : grant .sramin n.memmap size = some o) (hm : w.node.memmap = (n.hold size o).memmap) :
    boardStep env (.myfree (blockAddr env.placement .sramin o)) w =
      ((), { w with node := { w.node with memmap := n.memmap } }) := by
  have hrun := run_myfree env.placement .sramin (d := w.node.pool) rfl (grant_lt _ hg)
  have hrestore := Overlay.fill_grant_restore hs hg hm
  rw [boardStep, hrun]
  simp only [Node.pool, hrestore]

section Handler

variable {env : Env} {n m : Node}

namespace Returns

/-! ## The pool -/

theorem mymalloc_some {size o : ℕ} (hg : grant .sramin n.memmap size = some o) :
    Returns env (Enc28j60.perform (.mymalloc size)) n (blockAddr env.placement .sramin o)
      (n.hold size o) :=
  .perform fun w hw => by rw [← hw] at hg ⊢; exact boardStep_mymalloc_some env hg

theorem mymalloc_none {size : ℕ} (hg : grant .sramin n.memmap size = none) :
    Returns env (Enc28j60.perform (.mymalloc size)) n null n :=
  .perform fun w hw => by rw [← hw] at hg ⊢; exact boardStep_mymalloc_none env hg

theorem myfree {size o : ℕ} (hs : size ≤ maxRequest) (hg : grant .sramin n.memmap size = some o)
    (hm : m.memmap = (n.hold size o).memmap) :
    Returns env (Enc28j60.perform (.myfree (blockAddr env.placement .sramin o))) m ()
      { m with memmap := n.memmap } :=
  .perform fun w hw => by rw [← hw] at hm ⊢; exact boardStep_myfree env hs hg hm

theorem myfree_null : Returns env (Enc28j60.perform (.myfree null)) n () n :=
  .perform fun w hw => by rw [boardStep, hw, run_myfree_null, ← hw]; rfl

/-! ## Sending frames -/

/-- `low_level_output` sends a frame and leaves the receive side and the pool as they were. -/
theorem lowLevelOutput (env : Env) (fuel : ℕ) (frame : Frame)
    (hgrant : frame.bytes ≠ [] → ∃ o, grant .sramin n.memmap frame.bytes.length = some o) :
    ∃ m, Returns env (Enc28j60.lowLevelOutput fuel frame.bytes) n () m ∧
      SameRx (frame.bytes.length ≤ 1511) n m := by
  have hfit := frame.length_le
  by_cases hempty : frame.bytes = []
  · have hg : grant .sramin n.memmap 0 = none := rfl
    refine ⟨_, .bind (mymalloc_none (by rw [hempty]; exact hg)) ?_, .packetSend env n hfit⟩
    rw [if_neg fun h => h.2 hempty]
    exact .bind (packetSend env n fuel hfit) myfree_null
  · obtain ⟨o, ho⟩ := hgrant hempty
    have hs : frame.bytes.length ≤ maxRequest := hfit.trans (by decide)
    have hsend := packetSend env (n.hold frame.bytes.length o) fuel hfit
    have hsame := SameRx.packetSend env (n.hold frame.bytes.length o) hfit
    refine ⟨{ (((n.hold frame.bytes.length o).loaded frame.bytes).transmit env) with
        memmap := n.memmap }, .bind (mymalloc_some ho) ?_,
      ⟨hsame.regs, hsame.mem, hsame.epktcnt, hsame.rxen, hsame.rxerif, hsame.nextPacketPtr, rfl,
        hsame.readOut⟩⟩
    rw [if_neg fun h => blockAddr_ne_null env.placement .sramin o h.1]
    exact .bind hsend (myfree hs ho hsame.memmap)

/-- The frames of an answer. -/
theorem sendFrames (env : Env) (fuel : ℕ) (hn : n.HasRoom) (frames : List Frame) :
    ∃ m, Returns env ((frames.map Frame.bytes).forM fun b => Enc28j60.lowLevelOutput fuel b)
      n () m ∧ SameRx (∀ frame ∈ frames, frame.bytes.length ≤ 1511) n m := by
  induction frames generalizing n with
  | nil => exact ⟨n, pure (), SameRx.refl n⟩
  | cons frame frames ih =>
    have hgrant (hne : frame.bytes ≠ []) :=
      hn.grant (List.length_pos_iff.mpr hne) (frame.length_le.trans (by decide))
    obtain ⟨m, hm, hsame⟩ := lowLevelOutput env fuel frame hgrant
    have hn' : m.HasRoom := by rw [Node.HasRoom, hsame.memmap]; exact hn
    obtain ⟨l, hl, hsame'⟩ := ih hn'
    refine ⟨l, .bind hm hl, (hsame.mono fun h => ?_).trans (hsame'.mono fun h => ?_)⟩
    · exact (List.forall_mem_cons.mp h).1
    · exact (List.forall_mem_cons.mp h).2

/-! ## Receiving -/

/-- `ethernetif_input` without room for the receive buffer. -/
theorem ethernetifInput_none (fuel : ℕ) (hn : ¬n.HasRoom) :
    Returns env (Enc28j60.ethernetifInput fuel) n () n := by
  refine .bind (a := none) (.bind (mymalloc_none (Node.grant_eq_none hn)) ?_) (pure ())
  exact pure none

theorem pbufAlloc (len : ℕ) : Returns env (Enc28j60.perform (.pbufAlloc len)) n
    (env.pbufAlloc n.clock) { n with clock := n.clock + 1 } :=
  .perform fun w hw => by rw [← hw]; rfl

theorem netifInput (packet : List UInt8) : Returns env (Enc28j60.perform (.netifInput packet)) n
    ((env.input n.clock packet).1.map Frame.bytes, (env.input n.clock packet).2)
    { n with clock := n.clock + 1 } :=
  .perform fun w hw => by rw [← hw]; rfl

/-- `low_level_input` takes the packet, whether `pbuf_alloc` succeeds or not. -/
theorem lowLevelInput (env : Env) (fuel : ℕ) (hn : n.HasRoom) (hcount : n.epktcnt ≠ 0)
    (short : Prop) :
    ∃ m, Returns env (Enc28j60.lowLevelInput fuel) n (n.input env) m ∧
      SameRx short (n.receive maxFramelen) m ∧ m.clock = n.clock + 1 := by
  obtain ⟨o, ho⟩ := hn.grant (by omega) (Nat.le_refl 1600)
  have hr := packetReceive (n := n.hold 1600 o) env fuel maxFramelen hcount
  let N := (n.hold 1600 o).receive maxFramelen
  refine ⟨{ N with clock := N.clock + 1, memmap := n.memmap }, .bind (mymalloc_some ho) ?_, ?_, rfl⟩
  · have hne : blockAddr env.placement .sramin o ≠ 0 := blockAddr_ne_null env.placement .sramin o
    rw [if_neg hne, Node.input, ← n.received_hold 1600 o]
    exact .bind hr (.bind (pbufAlloc _) (.bind (myfree (by decide) ho rfl) (pure _)))
  · refine ⟨fun _ _ _ _ _ => rfl, fun _ _ _ => rfl, rfl, rfl, rfl, rfl, rfl, ?_⟩
    have hload : (n.hold 1600 o).load = n.load := Node.load_congr rfl rfl
    have hread := (n.hold 1600 o).readOut_readPacket maxFramelen
    rw [hload] at hread
    exact hread.trans (n.readOut_readPacket maxFramelen).symm

/-- `ethernetif_input` with a pending packet and room for the receive buffer. -/
theorem ethernetifInput (env : Env) (fuel : ℕ) (hn : n.HasRoom) (hcount : n.epktcnt ≠ 0) :
    ∃ m, Returns env (Enc28j60.ethernetifInput fuel) n () m ∧
      SameRx (n.AnswersShort env) (n.receive maxFramelen) m := by
  obtain ⟨m, hm, hsame, hclock⟩ := lowLevelInput env fuel hn hcount (n.AnswersShort env)
  cases hin : n.input env with
  | none =>
    rw [hin] at hm
    exact ⟨m, .bind hm (pure ()), hsame⟩
  | some packet =>
    have hn' : Node.HasRoom { m with clock := m.clock + 1 } := by
      rw [Node.HasRoom, hsame.memmap]
      exact hn
    have hanswer : n.answer env = (env.input m.clock packet).1 := by
      rw [Node.answer, hin, hclock]
      rfl
    obtain ⟨l, hl, hsame'⟩ := sendFrames env fuel hn' (env.input m.clock packet).1
    rw [← hanswer] at hsame'
    rw [hin] at hm
    refine ⟨l, .bind hm (.bind (netifInput packet) hl), hsame.trans (SameRx.trans ?_ hsame')⟩
    exact ⟨fun _ _ _ _ _ => rfl, fun _ _ _ => rfl, rfl, rfl, rfl, rfl, rfl, rfl⟩

end Returns

/-! ## Flags -/

namespace Node

theorem eirBits_and (n : Node) :
    n.eirBits &&& 0x40 = (if n.epktcnt ≠ 0 then 0x40 else 0) ∧
      n.eirBits &&& 0x08 = (if n.txif then 0x08 else 0) ∧
      n.eirBits &&& 0x02 = (if n.txerif then 0x02 else 0) ∧
      n.eirBits &&& 0x01 = if n.rxerif then 0x01 else 0 := by
  unfold eirBits
  cases n.txif <;> cases n.txerif <;> cases n.rxerif <;> split <;> decide

/-- The flags of `EIR` that are set in `mask` are cleared; `PKTIF` is not affected. -/
def clearEir (n : Node) (mask : UInt8) : Node :=
  { n with
    txif := n.txif && mask &&& 0x08 == 0
    txerif := n.txerif && mask &&& 0x02 == 0
    rxerif := n.rxerif && mask &&& 0x01 == 0 }

theorem setReg_eir (n : Node) (mask : UInt8) :
    n.setReg 0x1C (n.eirBits &&& ~~~mask) = n.clearEir mask := by
  have key {b : UInt8} (f : Bool) (hf : n.eirBits &&& b = if f then b else 0)
      (hb : ∀ mask : UInt8, (b &&& ~~~mask != 0) = (mask &&& b == 0)) :
      (n.eirBits &&& ~~~mask &&& b != 0) = (f && mask &&& b == 0) := by
    rw [UInt8.and_assoc, UInt8.and_comm (~~~mask), ← UInt8.and_assoc, hf]
    cases f
    · rw [if_neg (by decide), UInt8.zero_and]
      rfl
    · exact hb mask
  obtain ⟨-, h₈, h₂, h₁⟩ := n.eirBits_and
  rw [setReg, if_pos rfl, key _ h₈ (forall_byte (by decide +kernel)),
    key _ h₂ (forall_byte (by decide +kernel)), key _ h₁ (forall_byte (by decide +kernel))]
  rfl

/-- The branch for a receive error. -/
def rxError (n : Node) : Node :=
  ((n.clearEir 0x01).setWord 6 ((n.word 6 + 1) % 2 ^ 16)).pktdec

end Node

theorem Returns.clearEir (mask : UInt8) :
    Returns env (Enc28j60.writeOp bitFieldClr eir mask) n () (n.clearEir mask) := by
  rw [← n.setReg_eir mask]
  have hop : opcode bitFieldClr = .bfs ∨ opcode bitFieldClr = .bfc := .inr rfl
  exact Returns.writeOp eir mask hop

theorem Returns.receiveError : Returns env Enc28j60.receiveError n () n.rxError := by
  have htemp : (((n.regs 13).toNat <<< 8 ||| (n.regs 12).toNat) + 1) % 2 ^ 16 =
      (n.word 6 + 1) % 2 ^ 16 := by
    rw [← Nat.shiftLeft_add_eq_or_of_lt (n.regs 12).toNat_lt, Nat.shiftLeft_eq, Nat.mul_comm,
      Nat.add_comm (2 ^ 8 * _)]
    rfl
  refine .bind (.clearEir 0x01) (.bind .readEpktcnt ?_)
  refine .bind (.read erxrdpth) (.bind (.read erxrdptl) ?_)
  refine .writeWord 6 _ ?_
  rw [Node.rxError, ← htemp]
  exact .pktdec

/-! ## The handler -/

namespace Node

/-- `EIE` is written. -/
def setEie (n : Node) (v : UInt8) : Node := { n with regs := Function.update n.regs 0x1B v }

theorem clearEir_pktif (n : Node) : n.clearEir 0x40 = n := by
  obtain ⟨_, _, _, _, txif, txerif, rxerif⟩ := n
  cases txif <;> cases txerif <;> cases rxerif <;> rfl

theorem clearEir_txif (n : Node) : n.clearEir 0x08 = { n with txif := false } := by
  obtain ⟨_, _, _, _, txif, txerif, rxerif⟩ := n
  cases txif <;> cases txerif <;> cases rxerif <;> rfl

theorem clearEir_txerif (n : Node) : n.clearEir 0x02 = { n with txerif := false } := by
  obtain ⟨_, _, _, _, txif, txerif, rxerif⟩ := n
  cases txif <;> cases txerif <;> cases rxerif <;> rfl

theorem clearEir_rxerif (n : Node) : n.clearEir 0x01 = { n with rxerif := false } := by
  obtain ⟨_, _, _, _, txif, txerif, rxerif⟩ := n
  cases txif <;> cases txerif <;> cases rxerif <;> rfl

end Node

/-- What becomes of the node while the handler deals with a pending packet. -/
def Handled (env : Env) (n l : Node) : Prop :=
  n.HasRoom ∧ n.epktcnt ≠ 0 ∧ SameRx (n.AnswersShort env) (n.receive maxFramelen) l ∨
    (¬n.HasRoom ∨ n.epktcnt = 0) ∧ l = n

/-- The rest of the handler, which has found the flags of `n` and goes on with `l`. -/
def Node.finish (l n : Node) : Node :=
  let l := if n.txif then l.clearEir 0x08 else l
  let l := if n.rxerif then l.rxError else l
  let l := if n.txerif then l.clearEir 0x02 else l
  l.setEie (l.regs 0x1B ||| 0x80)

namespace Node

variable (l n : Node)

/-- What the rest of the handler keeps. -/
theorem finish_keeps {α : Type} {f : Node → α} (hclear : ∀ n mask, f (clearEir n mask) = f n)
    (hword : ∀ n v, f (setWord n 6 v) = f n) (hdec : ∀ n, f (pktdec n) = f n)
    (heie : ∀ n v, f (setEie n v) = f n) : f (l.finish n) = f l := by
  have herror (n : Node) : f n.rxError = f n := by rw [rxError, hdec, hword, hclear]
  unfold finish
  cases n.txif <;> cases n.rxerif <;> cases n.txerif <;>
    simp only [Bool.false_eq_true, if_true, if_false, heie, hclear, herror]

@[simp] theorem finish_mem : (l.finish n).mem = l.mem :=
  finish_keeps l n (fun _ _ => rfl) (fun _ _ => rfl) (fun _ => rfl) fun _ _ => rfl

@[simp] theorem finish_memmap : (l.finish n).memmap = l.memmap :=
  finish_keeps l n (fun _ _ => rfl) (fun _ _ => rfl) (fun _ => rfl) fun _ _ => rfl

@[simp] theorem finish_nextPacketPtr : (l.finish n).nextPacketPtr = l.nextPacketPtr :=
  finish_keeps l n (fun _ _ => rfl) (fun _ _ => rfl) (fun _ => rfl) fun _ _ => rfl

@[simp] theorem finish_readOut : (l.finish n).readOut = l.readOut :=
  finish_keeps l n (fun _ _ => rfl) (fun _ _ => rfl) (fun _ => rfl) fun _ _ => rfl

theorem finish_eie : (l.finish n).regs 0x1B = l.regs 0x1B ||| 0x80 := by
  unfold finish
  cases n.txif <;> cases n.rxerif <;> cases n.txerif <;> simp [setEie, clearEir, rxError, pktdec,
    setWord]

theorem finish_flags : (l.finish n).txif = (!n.txif && l.txif) ∧
    (l.finish n).txerif = (!n.txerif && l.txerif) ∧
    (l.finish n).rxerif = (!n.rxerif && l.rxerif) := by
  unfold finish
  cases n.txif <;> cases n.rxerif <;> cases n.txerif <;>
    simp [rxError, clearEir_txif, clearEir_txerif, clearEir_rxerif, setEie, pktdec, setWord]

theorem toNat_pktdec : n.pktdec.epktcnt.toNat = n.epktcnt.toNat - 1 := toNat_sub_one n.epktcnt

theorem finish_epktcnt :
    (l.finish n).epktcnt = if n.rxerif then l.pktdec.epktcnt else l.epktcnt := by
  unfold finish
  cases n.txif <;> cases n.rxerif <;> cases n.txerif <;> rfl

theorem word_setEie {k : ℕ} (hk : k ≤ 7) (v : UInt8) : (n.setEie v).word k = n.word k := by
  have h₁ : 2 * k ≠ 0x1B := by omega
  have h₂ : 2 * k + 1 ≠ 0x1B := by omega
  simp only [word, setEie, Function.update_of_ne h₁, Function.update_of_ne h₂]

/-- The branch for a receive error moves `ERXRDPT` on by one. -/
theorem finish_word {k : ℕ} (hk : k ≤ 7) : (l.finish n).word k =
    if k = 6 ∧ n.rxerif = true then (l.word 6 + 1) % 2 ^ 16 else l.word k := by
  have hclear (l : Node) (mask : UInt8) : (l.clearEir mask).word k = l.word k := rfl
  have herror (l : Node) : l.rxError.word k =
      if k = 6 then (l.word 6 + 1) % 2 ^ 16 else l.word k := by
    have hdec (l : Node) : l.pktdec.word k = l.word k := rfl
    rw [rxError, hdec]
    split
    · subst k
      rw [word_setWord_self, Nat.mod_mod]
    · rw [word_setWord_of_ne _ _ ‹_›, hclear]
  unfold finish
  cases n.txif <;> cases n.rxerif <;> cases n.txerif <;>
    simp only [Bool.false_eq_true, if_true, if_false, and_true, and_false, word_setEie _ hk, hclear,
      herror] <;> rfl

end Node

theorem Returns.setEie {op data v : UInt8} (hop : opcode op = .bfs ∨ opcode op = .bfc)
    (hv : v = (opcode op).apply (n.regs 0x1B) data) :
    Returns env (Enc28j60.writeOp op eie data) n () (n.setEie v) := by
  rw [hv]
  exact .writeOp eie data hop

/-- The branch for a flag. -/
theorem Returns.branch {c : Prop} [Decidable c] {f : Bool} (hc : c ↔ f = true)
    {p : DriverProg Unit} (hp : Returns env p n () m) :
    Returns env (Prog.when c p) n () (if f then m else n) := by
  refine .when (fun h => ?_) fun h => ?_
  · rw [if_pos (hc.mp h)]
    exact hp
  · rw [if_neg fun hf => h (hc.mpr hf)]

/-- The branch for a pending packet. -/
theorem Returns.packetBranch (env : Env) (n : Node) (fuel : ℕ) :
    ∃ l, Returns env (Prog.when (n.eirBits &&& 0x40 ≠ 0) do
      Enc28j60.writeOp bitFieldClr eir 0x40
      Enc28j60.ethernetifInput fuel) n () l ∧ Handled env n l := by
  have hpktif : n.eirBits &&& 0x40 ≠ 0 ↔ n.epktcnt ≠ 0 := by
    rw [n.eirBits_and.1]
    split <;> simp_all
  by_cases hn : n.HasRoom ∧ n.epktcnt ≠ 0
  · obtain ⟨l, hl, hsame⟩ := ethernetifInput env fuel hn.1 hn.2
    refine ⟨l, .when (fun _ => .bind (.clearEir 0x40) ?_) fun h => ?_, .inl ⟨hn.1, hn.2, hsame⟩⟩
    · rw [n.clearEir_pktif]
      exact hl
    · exact absurd (hpktif.mpr hn.2) h
  · rw [not_and_or, not_not] at hn
    refine ⟨n, .when (fun h => .bind (.clearEir 0x40) ?_) fun _ => rfl, .inr ⟨hn, rfl⟩⟩
    rw [n.clearEir_pktif]
    exact ethernetifInput_none fuel (hn.resolve_right (hpktif.mp h))

/-- `ENC28J60_ISRHandler`. -/
theorem Returns.isrHandler (env : Env) (n : Node) (fuel : ℕ) :
    ∃ l, Returns env (Enc28j60.isrHandler fuel) n () (l.finish n) ∧
      Handled env (n.setEie (n.regs 0x1B &&& ~~~0x80)) l := by
  obtain ⟨l, hl, hhandled⟩ :=
    packetBranch env (n.setEie (n.regs 0x1B &&& ~~~0x80)) fuel
  obtain ⟨-, h₈, h₂, h₁⟩ := n.eirBits_and
  refine ⟨l, ?_, hhandled⟩
  refine .bind (.setEie (.inr rfl) rfl) (.bind (.read eir) (.bind hl ?_))
  have hstatus (v : UInt8) : (n.setEie v).readReg (flatIndex eir) = n.eirBits := rfl
  rw [hstatus]
  have hbit {b : UInt8} {f : Bool} (hb : b ≠ 0) (hf : n.eirBits &&& b = if f then b else 0) :
      n.eirBits &&& b ≠ 0 ↔ f = true := by
    rw [hf]
    cases f <;> simp [hb]
  refine .bind (.branch (hbit (by decide) h₈) (.clearEir 0x08)) ?_
  refine .bind (.branch (hbit (by decide) h₁) .receiveError) ?_
  refine .bind (.branch (hbit (by decide) h₂) (.bind (.clearEir 0x02) ?_)) (.setEie (.inl rfl) rfl)
  exact .writeOp estat 0x12 (.inr rfl)

/-- The board after a run of the handler. -/
def handlerRun (env : Env) (fuel : ℕ) (w : World) : World :=
  (Prog.run (boardStep env) (isrHandler fuel) w).2

/-- The handler returns, whatever the state of the chip and of the pool. -/
theorem run_isrHandler (env : Env) (fuel : ℕ) {w : World} (hw : w.Coh) :
    Prog.run (boardStep env) (isrHandler fuel) w = (some (), handlerRun env fuel w) ∧
      (handlerRun env fuel w).Coh ∧ ∃ l, (handlerRun env fuel w).node = l.finish w.node ∧
        Handled env (w.node.setEie (w.node.regs 0x1B &&& ~~~0x80)) l := by
  obtain ⟨l, hl, hhandled⟩ := Returns.isrHandler env w.node fuel
  obtain ⟨w', hrun, hnode, hcoh⟩ := hl w rfl hw
  rw [handlerRun, hrun]
  exact ⟨rfl, hcoh, l, hnode, hhandled⟩

end Handler

end Enc28j60

end Enc28j60Udp
