import Enc28j60Udp.Enc28j60.Start

/-!
# What is transmitted

The transmit logic of the chip, as its datasheet describes it: when `ECON1.TXRTS` is set the bytes
behind `ETXST` up to `ETXND` are sent, and a status vector of seven bytes is written behind
`ETXND`. Addresses are taken modulo the size of the buffer memory. `Tx` records what is sent and
which addresses are written, and for how long `TXRTS` stays set. A transmission that the chip aborts
with an error is not sent, nor is one that is still going on when `TXRTS` is cleared.

`ENC28J60_Packet_Send` puts the control byte at `TXSTART_INIT`, so that the last seven bytes of the
memory are for the status vector only when the packet has at most 1511 bytes. A longer packet makes
the chip write the vector over the first bytes of the receive buffer. And it clears `TXRTS` right
after setting it when `EIR.TXERIF` is set, if only by an earlier transmission (`Undisturbed`).
-/

namespace Enc28j60Udp

namespace Enc28j60

/-! ## The transmit logic -/

/-- The transmit logic. -/
structure Tx where
  /-- How many times `TXRTS` is still read as set. -/
  busy : ℕ
  /-- What was sent; while `TXRTS` is set the last of it is still being sent. -/
  sent : List (List UInt8)
  /-- The addresses of the buffer memory that were written. -/
  touched : List ℕ

namespace Node

/-- What a transmission sends: the bytes behind `ETXST`, up to `ETXND`. -/
def txBytes (n : Node) : List UInt8 :=
  Ring.slice (2 ^ 13) n.mem ((n.word 2 + 1) % 2 ^ 13)
    ((n.word 3 + 2 ^ 13 - n.word 2 % 2 ^ 13) % 2 ^ 13)

end Node

namespace Op

/-- `ECON1.TXRTS` is set. -/
def startsTx : Op → Bool
  | .writeOp op addr data =>
    (opcode op = .wcr || opcode op = .bfs) && regAddr addr = 0x1F && data &&& 0x08 != 0
  | _ => false

/-- `ECON1.TXRTS` is cleared. -/
def stopsTx : Op → Bool
  | .rst => true
  | .writeOp op addr data =>
    opcode op = .src || regAddr addr = 0x1F &&
      (opcode op = .wcr && data &&& 0x08 == 0 || opcode op = .bfc && data &&& 0x08 != 0)
  | _ => false

/-- The number of bytes written at `EWRPT`. -/
def written : Op → ℕ
  | .writeOp op _ _ => if opcode op = .wbm then 1 else 0
  | .writeBuf data => data.length
  | _ => 0

/-- `ECON1` is read. -/
def pollsTx : Op → Bool
  | .readOp op addr => opcode op = .rcr && regAddr addr = 0x1F
  | _ => false

/-- The operation has nothing to do with the transmit logic. -/
def plain (o : Op) : Bool := !o.startsTx && !o.stopsTx && o.written == 0 && !o.pollsTx

/-- A register with `TXRTS` set. -/
def withTxrts : (o : Op) → o.Res → o.Res
  | .readOp _ _, r => r ||| 0x08
  | _, r => r

end Op

section Step

variable (env : Env) (rounds : ℕ → ℕ)

namespace Tx

/-- A transmission starts on a chip with node `n`. -/
def start (t : Tx) (n : Node) : Tx :=
  let aborted := (env.transmit n.clock).txerif
  { busy := if aborted then 0 else rounds n.clock
    sent := if aborted then t.sent else t.sent ++ [n.txBytes]
    touched := t.touched ++ Ring.slice (2 ^ 13) id ((n.word 3 + 1) % 2 ^ 13)
      (env.transmit n.clock).vector.length }

/-- The transmission that is going on, if there is one, is cancelled. -/
def cancel (t : Tx) : Tx :=
  { t with busy := 0, sent := if t.busy = 0 then t.sent else t.sent.dropLast }

/-- The transmit logic at an operation on a chip with node `n`. -/
def after (t : Tx) (n : Node) (o : Op) : Tx :=
  if o.startsTx then t.start env rounds n
  else if o.stopsTx then t.cancel
  else
    { t with
      busy := t.busy - if o.pollsTx then 1 else 0
      touched := t.touched ++ Ring.slice (2 ^ 13) id (n.word 1 % 2 ^ 13) o.written }

end Tx

/-- The meaning of an operation on the board with the transmit logic. -/
def txStep (o : Op) (s : World × Tx) : o.Res × World × Tx :=
  let r := boardStep env o s.1
  (if o.pollsTx ∧ s.2.busy ≠ 0 then o.withTxrts r.1 else r.1, r.2,
    s.2.after env rounds s.1.node o)

/-- The transmission that is started on `n` takes place: the chip does not abort it, and it is not
cancelled on account of an earlier error before it is over. -/
def Undisturbed (n : Node) : Prop :=
  (env.transmit n.clock).txerif = false ∧ (n.txerif = true → rounds n.clock = 0)

instance (n : Node) : Decidable (Undisturbed env rounds n) :=
  inferInstanceAs (Decidable (_ ∧ _))

/-- The packet is sent, no more and no less, and the receive buffer is not written. -/
structure Delivered (packet : List UInt8) (s s' : World × Tx) : Prop where
  sent : s'.2.sent = s.2.sent ++ [packet]
  touched : ∃ l, s'.2.touched = s.2.touched ++ l ∧
    ∀ a ∈ l, ¬(rxstartInit ≤ a ∧ a ≤ rxstopInit)
  mem : ∀ a, rxstartInit ≤ a → a ≤ rxstopInit → s'.1.node.mem a = s.1.node.mem a

end Step

/-! ## Operations that have nothing to do with it -/

section Plain

variable {env : Env} {rounds : ℕ → ℕ}

theorem ignores_plain : Ignores env (txStep env rounds) fun o => o.plain = true := by
  intro o ho w t
  simp only [Op.plain, Bool.and_eq_true, Bool.not_eq_true', beq_iff_eq] at ho
  obtain ⟨⟨⟨hstart, hstop⟩, hwritten⟩, hpoll⟩ := ho
  have hafter : t.after env rounds w.node o = t := by
    simp only [Tx.after, hstart, hstop, hwritten, hpoll, Ring.slice, List.append_nil,
      Bool.false_eq_true, if_false, Nat.sub_zero]
  simp only [txStep, hafter, hpoll, Bool.false_eq_true, false_and, if_false]

theorem plain_selectsBank : SelectsBank fun o => o.plain = true where
  getBank := rfl
  clear := rfl
  set := forall_byte (by decide +kernel)
  setBank _ := rfl

theorem plain_read {addr : UInt8} (haddr : regAddr addr ≠ 0x1F := by decide) :
    (Op.readOp readCtrlReg addr).plain = true := by
  simp [Op.plain, Op.startsTx, Op.stopsTx, Op.written, Op.pollsTx, haddr]

theorem plain_write {addr : UInt8} (v : UInt8) (haddr : regAddr addr ≠ 0x1F := by decide) :
    (Op.writeOp writeCtrlReg addr v).plain = true := by
  have hop : opcode writeCtrlReg = .wcr := rfl
  simp [Op.plain, Op.startsTx, Op.stopsTx, Op.written, Op.pollsTx, haddr, hop]

/-- `ECON1` is read. -/
theorem txStep_poll (w : World) (t : Tx) : txStep env rounds (.readOp readCtrlReg econ1) (w, t) =
    (if t.busy ≠ 0 then w.readReg econ1 ||| 0x08 else w.readReg econ1, w,
      { t with busy := t.busy - 1 }) := by
  have hboard : boardStep env (.readOp readCtrlReg econ1) w = (w.readReg econ1, w) := rfl
  have hafter : t.after env rounds w.node (.readOp readCtrlReg econ1) =
      { t with busy := t.busy - 1 } := by
    rw [Tx.after]
    exact congrArg (Tx.mk _ _) (List.append_nil _)
  rw [txStep, hafter, hboard]
  simp only [show (Op.readOp readCtrlReg econ1).pollsTx = true from rfl, true_and]
  rfl

end Plain

/-! ## Sending -/

section Sending

variable {env : Env} {rounds : ℕ → ℕ} {n m : Node} {t u : Tx} {α : Type}

namespace LogReturns

/-- A plain program. -/
theorem plain {p : DriverProg α} {a : α} (h : Returns env p n a m)
    (hp : Prog.Only (fun o => o.plain = true) p) : LogReturns (txStep env rounds) p n t a m t :=
  of_returns ignores_plain h hp

/-- `ECON1.TXRTS` is read. -/
theorem testBits_txrts :
    LogReturns (txStep env rounds) (Enc28j60.testBits econ1 0x08) n t (t.busy != 0) n
      { t with busy := t.busy - 1 } := by
  rintro w rfl hw
  obtain ⟨w₁, hr, hn, hbank, hbsel⟩ := run_setBank env (hw.usable econ1)
  refine ⟨w₁, ?_, hn, _, hbank, hbsel⟩
  have hset : Prog.run (txStep env rounds) (setBank econ1) (w, t) = (some (), w₁, t) := by
    rw [ignores_plain.run (plain_selectsBank.only_setBank econ1), hr]
  have hread : Prog.run (txStep env rounds) (Enc28j60.read econ1) (w, t) =
      (some (if t.busy ≠ 0 then w₁.readReg econ1 ||| 0x08 else w₁.readReg econ1), w₁,
        { t with busy := t.busy - 1 }) := by
    rw [Enc28j60.read, Prog.run_bind_of _ hset, readOp, Enc28j60.perform, Prog.run_lift,
      txStep_poll]
  have hlow : w₁.readReg econ1 &&& 0x08 = 0 := by
    rw [World.readReg, if_pos (by decide), and_of_high (econ1Bits_high _ _) 0x08 rfl]
    cases w₁.node.rxen <;> rfl
  rw [Enc28j60.testBits, Prog.run_bind_of _ hread, Prog.run_pure]
  by_cases hbusy : t.busy = 0
  · simp [hbusy, hlow]
  · simp [hbusy, or_and_distrib, hlow]

/-- The wait for the transmission that is going on. -/
theorem wait (fuel : ℕ) (hbusy : t.busy ≤ fuel) :
    LogReturns (txStep env rounds)
      (Prog.whileDo (Enc28j60.testBits econ1 0x08) (Pure.pure ()) fuel) n t () n
      { t with busy := 0 } := by
  induction fuel generalizing t with
  | zero =>
    have h : LogReturns (txStep env rounds) (Enc28j60.testBits econ1 0x08) n t _ n _ :=
      testBits_txrts
    have hzero : t.busy = 0 := Nat.le_zero.mp hbusy
    rw [hzero] at h
    exact .bind h (pure ())
  | succ fuel ih =>
    have h : LogReturns (txStep env rounds) (Enc28j60.testBits econ1 0x08) n t _ n _ :=
      testBits_txrts
    refine .bind h ?_
    by_cases hzero : t.busy = 0
    · rw [hzero]
      exact pure ()
    · rw [if_pos (by simpa using hzero)]
      exact .bind (pure ()) (ih (t := { t with busy := t.busy - 1 }) (Nat.sub_le_of_le_add hbusy))

/-- Bytes are written to buffer memory. -/
theorem writeBuf (data : List UInt8) :
    LogReturns (txStep env rounds) (Enc28j60.writeBuf data) n t () (n.writeMem data)
      { t with
        touched := t.touched ++ Ring.slice (2 ^ 13) id (n.word 1 % 2 ^ 13) data.length } :=
  perform fun w hn => by rw [← hn]; rfl

theorem writeOp_buffer (data : UInt8) :
    LogReturns (txStep env rounds) (Enc28j60.writeOp writeBufMem 0 data) n t () (n.writeMem [data])
      { t with touched := t.touched ++ Ring.slice (2 ^ 13) id (n.word 1 % 2 ^ 13) 1 } :=
  perform fun w hn => by rw [← hn]; rfl

/-- `ECON1.TXRTS` is set. -/
theorem writeOp_txrts : LogReturns (txStep env rounds) (Enc28j60.writeOp bitFieldSet econ1 0x08) n t
    () (n.transmit env) (t.start env rounds n) := by
  rintro w rfl hw
  have hset : Returns env _ w.node () _ := .writeOp_txrts
  obtain ⟨w', hr, hn', hw'⟩ := hset w rfl hw
  have hstep : (boardStep env (.writeOp bitFieldSet econ1 0x08) w).2 = w' :=
    congrArg Prod.snd hr
  refine ⟨w', ?_, hn', hw'⟩
  rw [← hstep]
  rfl

/-- `ECON1.TXRTS` is cleared. -/
theorem writeOp_clear_txrts :
    LogReturns (txStep env rounds) (Enc28j60.writeOp bitFieldClr econ1 0x08) n t () n t.cancel := by
  rintro w rfl hw
  have hclear : Returns env _ w.node () _ := .writeOp_clear_txrts
  obtain ⟨w', hr, hn', hw'⟩ := hclear w rfl hw
  have hstep : (boardStep env (.writeOp bitFieldClr econ1 0x08) w).2 = w' :=
    congrArg Prod.snd hr
  refine ⟨w', ?_, hn', hw'⟩
  rw [← hstep]
  rfl

/-- `EIR.TXERIF` is read. -/
theorem testBits_txerif :
    LogReturns (txStep env rounds) (Enc28j60.testBits eir 0x02) n t n.txerif n t := by
  have hbit : (n.readReg (flatIndex eir) &&& 0x02 != 0) = n.txerif := by
    refine (congrArg (· != 0) n.eirBits_and.2.2.1).trans ?_
    cases n.txerif <;> rfl
  rw [← hbit]
  exact plain (.testBits eir 0x02) (plain_selectsBank.only_testBits plain_read _)

/-- The check for an error, which ends the function. -/
theorem finish (env : Env) (rounds : ℕ → ℕ) (n : Node) (t : Tx) :
    LogReturns (txStep env rounds) (do
      let error ← Enc28j60.testBits eir 0x02
      Prog.when error (Enc28j60.writeOp bitFieldClr econ1 0x08)
      Enc28j60.perform (.intx true)) n t () n (if n.txerif then t.cancel else t) := by
  refine .bind testBits_txerif (.bind (a := ()) ?_ (plain (.intx true) (.lift rfl)))
  cases n.txerif with
  | false => exact pure ()
  | true => exact writeOp_clear_txrts

end LogReturns

end Sending

/-! ## `ENC28J60_Packet_Send` -/

namespace Node

theorem mem_writeMem (n : Node) (bs : List UInt8) :
    (n.writeMem bs).mem = Ring.store (2 ^ 13) n.mem (n.word 1) bs := by
  induction bs generalizing n with
  | nil => rfl
  | cons b bs ih =>
    have hlt : (n.word 1 + 1) % 2 ^ 13 < 2 ^ 16 := by omega
    rw [writeMem, ih, word_setWord_self, Nat.mod_eq_of_lt hlt, Ring.store, setWord_mem]

/-- Writing leaves the flags and the surroundings alone. -/
theorem writeMem_keeps (n : Node) (bs : List UInt8) :
    (n.writeMem bs).txerif = n.txerif ∧ (n.writeMem bs).clock = n.clock := by
  induction bs generalizing n with
  | nil => exact ⟨rfl, rfl⟩
  | cons b bs ih => exact ih _

section Loaded

variable (n : Node) {packet : List UInt8}

theorem undisturbed_loaded {env : Env} {rounds : ℕ → ℕ} :
    Undisturbed env rounds (n.loaded packet) ↔ Undisturbed env rounds n := by
  obtain ⟨htxerif, hclock⟩ := writeMem_keeps
    ((n.setWord 1 txstartInit).setWord 3 (txstartInit + packet.length)) (0 :: packet)
  rw [Undisturbed, loaded, htxerif, hclock]
  exact Iff.rfl

theorem word_two_loaded : (n.loaded packet).word 2 = n.word 2 := by
  rw [loaded, word_writeMem _ _ (by omega), word_setWord_of_ne _ _ (by omega),
    word_setWord_of_ne _ _ (by omega)]

theorem mem_loaded :
    (n.loaded packet).mem = Ring.store (2 ^ 13) n.mem txstartInit (0 :: packet) := by
  rw [loaded, mem_writeMem, word_setWord_of_ne _ _ (by omega), word_setWord_self]
  rfl

variable (hlen : packet.length ≤ maxFramelen)

include hlen

theorem length_txBytes_loaded : (n.loaded packet).txBytes.length =
    (txstartInit + packet.length + 2 ^ 13 - n.word 2 % 2 ^ 13) % 2 ^ 13 := by
  rw [txBytes, Ring.length_slice, n.word_three_loaded hlen, word_two_loaded]

theorem txBytes_loaded (htxst : n.word 2 % 2 ^ 13 = txstartInit) :
    (n.loaded packet).txBytes = packet := by
  have hfirst : (n.word 2 + 1) % 2 ^ 13 = txstartInit + 1 := by
    rw [Nat.add_mod, htxst]
    rfl
  have hcount : (txstartInit + packet.length + 2 ^ 13 - txstartInit) % 2 ^ 13 = packet.length := by
    unfold txstartInit maxFramelen at *
    omega
  rw [txBytes, n.word_three_loaded hlen, word_two_loaded, htxst, hfirst, hcount, mem_loaded,
    Ring.store]
  exact Ring.slice_store_self (by omega) (by unfold maxFramelen at hlen; omega)

end Loaded

end Node

section Send

variable {env : Env} {rounds : ℕ → ℕ} {n : Node} {t : Tx} {packet : List UInt8}

/-- The control byte, the packet and the status vector lie one behind the other. -/
theorem slice_touched (len : ℕ) : Ring.slice (2 ^ 13) id txstartInit (len + 8) =
    Ring.slice (2 ^ 13) id txstartInit 1 ++ Ring.slice (2 ^ 13) id (txstartInit + 1) len ++
      Ring.slice (2 ^ 13) id ((txstartInit + len + 1) % 2 ^ 13) 7 := by
  have hlt : txstartInit < 2 ^ 13 := by decide
  have hone : (txstartInit + 1) % 2 ^ 13 = txstartInit + 1 := rfl
  rw [show len + 8 = 1 + (len + 7) by omega, Ring.slice_add hlt, hone,
    Ring.slice_add (by omega), List.append_assoc, Nat.add_right_comm]

/-- A transmission is started, and `TXRTS` cleared if there is an error then. -/
theorem Tx.start_cancel (t : Tx) (env : Env) (rounds : ℕ → ℕ) (n : Node) :
    ∃ busy, (if (n.transmit env).txerif then (t.start env rounds n).cancel
        else t.start env rounds n) =
      { busy := busy
        sent := if Undisturbed env rounds n then t.sent ++ [n.txBytes] else t.sent
        touched := t.touched ++ Ring.slice (2 ^ 13) id ((n.word 3 + 1) % 2 ^ 13) 7 } := by
  have herror : (n.transmit env).txerif = (n.txerif || (env.transmit n.clock).txerif) := rfl
  rw [herror, start, (env.transmit n.clock).length_vector]
  cases haborted : (env.transmit n.clock).txerif with
  | true =>
    have hnot : ¬Undisturbed env rounds n := fun h => by simp [h.1] at haborted
    exact ⟨0, by simp [hnot, cancel]⟩
  | false =>
    cases hearlier : n.txerif with
    | false => exact ⟨rounds n.clock, by simp [Undisturbed, haborted, hearlier]⟩
    | true =>
      refine ⟨0, ?_⟩
      by_cases hover : rounds n.clock = 0 <;> simp [Undisturbed, cancel, haborted, hearlier, hover]

theorem LogReturns.packetSend (env : Env) (rounds : ℕ → ℕ) (n : Node) (fuel : ℕ)
    (hbusy : t.busy ≤ fuel) (hlen : packet.length ≤ maxFramelen) :
    ∃ busy, LogReturns (txStep env rounds) (Enc28j60.packetSend fuel packet) n t ()
      ((n.loaded packet).transmit env)
      { busy := busy
        sent := if Undisturbed env rounds n then t.sent ++ [(n.loaded packet).txBytes] else t.sent
        touched := t.touched ++ Ring.slice (2 ^ 13) id txstartInit (packet.length + 8) } := by
  let N := (n.setWord 1 txstartInit).setWord 3 (txstartInit + packet.length)
  let u : Tx :=
    { busy := 0
      sent := t.sent
      touched := t.touched ++ Ring.slice (2 ^ 13) id txstartInit 1 ++
        Ring.slice (2 ^ 13) id (txstartInit + 1) packet.length }
  have hstart : N.word 1 = txstartInit := by
    rw [Node.word_setWord_of_ne _ _ (by omega), Node.word_setWord_self]
    rfl
  have hnext : (N.writeMem [0]).word 1 = txstartInit + 1 := by
    have h : (N.writeMem [0]).word 1 = (N.word 1 + 1) % 2 ^ 13 % 2 ^ 16 :=
      Node.word_setWord_self _ _ _
    rw [h, hstart]
    rfl
  have hload : (N.writeMem [0]).writeMem packet = n.loaded packet := N.writeMem_append [0] packet
  have hend := LogReturns.finish env rounds ((n.loaded packet).transmit env)
    (u.start env rounds (n.loaded packet))
  obtain ⟨busy, hlog⟩ := u.start_cancel env rounds (n.loaded packet)
  have htouched : u.touched ++
      Ring.slice (2 ^ 13) id ((txstartInit + packet.length + 1) % 2 ^ 13) 7 =
      t.touched ++ Ring.slice (2 ^ 13) id txstartInit (packet.length + 8) := by
    dsimp only [u]
    rw [slice_touched, List.append_assoc, List.append_assoc, List.append_assoc]
  rw [hlog, n.word_three_loaded hlen, htouched, if_congr n.undisturbed_loaded rfl rfl] at hend
  refine ⟨busy, .bind (.plain (.intx false) (.lift rfl)) (.bind (.wait fuel hbusy) ?_)⟩
  refine .writeWord ignores_plain plain_selectsBank 1 txstartInit ?_
    fun v => ⟨plain_write v, plain_write v⟩
  refine .writeWord ignores_plain plain_selectsBank 3 (txstartInit + packet.length) ?_
    fun v => ⟨plain_write v, plain_write v⟩
  rw [writeControl, if_neg (by omega)]
  refine .bind (.writeOp_buffer 0) (.bind (.writeBuf packet) ?_)
  rw [hload, hnext, hstart]
  exact .bind .writeOp_txrts hend

/-- `ENC28J60_Packet_Send` returns, and the packet is sent. -/
def Sends (env : Env) (rounds : ℕ → ℕ) (fuel : ℕ) (packet : List UInt8) (s : World × Tx) : Prop :=
  ∃ s', Prog.run (txStep env rounds) (Enc28j60.packetSend fuel packet) s = (some (), s') ∧
    Delivered packet s s'

namespace Sends

variable {fuel : ℕ} {w : World} (h : Sends env rounds fuel packet (w, t)) (hw : w.Coh)
  (hbusy : t.busy ≤ fuel) (hlen : packet.length ≤ maxFramelen)

include h hw hbusy hlen

/-- The transmission takes place, and what is sent, and what is written, are the packet and no byte
of the receive buffer. -/
theorem packet_eq : Undisturbed env rounds w.node ∧ (w.node.loaded packet).txBytes = packet ∧
    ∀ a ∈ Ring.slice (2 ^ 13) id txstartInit (packet.length + 8), rxstopInit < a := by
  obtain ⟨busy, hsend⟩ := LogReturns.packetSend env rounds w.node fuel hbusy hlen
  obtain ⟨w', hrun, -⟩ := hsend w rfl hw
  obtain ⟨s, hs, hsent, ⟨l, hl, hout⟩, -⟩ := h
  obtain rfl : _ = s := congrArg Prod.snd (hrun.symm.trans hs)
  obtain rfl := List.append_cancel_left hl
  dsimp only at hsent
  have hsome : Undisturbed env rounds w.node := by
    by_contra hnot
    rw [if_neg hnot] at hsent
    exact List.cons_ne_nil packet [] (List.self_eq_append_right.mp hsent)
  rw [if_pos hsome] at hsent
  refine ⟨hsome, List.singleton_inj.mp (List.append_cancel_left hsent), fun a ha => ?_⟩
  exact Nat.lt_of_not_le fun hle => hout a ha ⟨Nat.zero_le a, hle⟩

theorem txst_eq : w.node.word 2 % 2 ^ 13 = txstartInit := by
  have hcount := w.node.length_txBytes_loaded hlen
  rw [(h.packet_eq hw hbusy hlen).2.1] at hcount
  have hlt := Nat.mod_lt (w.node.word 2) (Nat.two_pow_pos 13)
  have hstart : txstartInit + 1519 = 2 ^ 13 := rfl
  unfold maxFramelen at hlen
  omega

theorem length_le : packet.length ≤ 1511 := by
  by_contra hlong
  have hzero : 0 ∈ Ring.slice (2 ^ 13) id txstartInit (packet.length + 8) :=
    (Ring.mem_slice_id (by decide)).mpr ⟨1519, by omega, rfl⟩
  exact Nat.not_lt_zero _ ((h.packet_eq hw hbusy hlen).2.2 0 hzero)

end Sends

/-- `ENC28J60_Init` sets `ETXST`, and leaves no error. -/
theorem run_init_txst (env : Env) {w : World} (hw : w.Coh) :
    ∃ w', Prog.run (boardStep env) Enc28j60.init w = (some 0, w') ∧ w'.Coh ∧
      w'.node.word 2 = txstartInit ∧ w'.node.txerif = false := by
  obtain ⟨m, hm, hstarted, htxst⟩ := Returns.init env w.node
  obtain ⟨w', hrun, rfl, hcoh⟩ := hm w rfl hw
  exact ⟨w', hrun, hcoh, htxst, hstarted.flags.2.1⟩

end Send

end Enc28j60

end Enc28j60Udp
