import Enc28j60Udp.Enc28j60.Flat

/-!
# Packets on the board

The effect of `ENC28J60_Packet_Receive` and `ENC28J60_Packet_Send` on the node. `Node.receive` is
that of receiving a pending packet, whatever the buffer memory holds. Sending leaves everything
alone that receiving depends on (`SameRx`), as far as the packet is short: the transmit buffer is
not part of the receive buffer, but it has room for the status vector behind at most 1511 bytes
only.
-/

namespace Enc28j60Udp

namespace Enc28j60

/-! ## Pointer registers -/

namespace Node

variable (n : Node)

theorem word_lt (k : ℕ) : n.word k < 2 ^ 16 := by
  have h₁ := (n.regs (2 * k)).toNat_lt
  have h₂ := (n.regs (2 * k + 1)).toNat_lt
  unfold word
  omega

theorem word_setWord_self (k v : ℕ) : (n.setWord k v).word k = v % 2 ^ 16 := by
  have hne : 2 * k ≠ 2 * k + 1 := by omega
  simp only [word, setWord, Function.update_self, Function.update_of_ne hne, lowByte, highByte,
    UInt8.toNat_ofNat', Nat.shiftRight_eq_div_pow]
  omega

theorem word_setWord_of_ne {k j : ℕ} (v : ℕ) (h : k ≠ j) : (n.setWord j v).word k = n.word k := by
  have h₁ : 2 * k ≠ 2 * j := by omega
  have h₂ : 2 * k ≠ 2 * j + 1 := by omega
  have h₃ : 2 * k + 1 ≠ 2 * j := by omega
  have h₄ : 2 * k + 1 ≠ 2 * j + 1 := by omega
  simp only [word, setWord, Function.update_of_ne h₁, Function.update_of_ne h₂,
    Function.update_of_ne h₃, Function.update_of_ne h₄]

@[simp] theorem setWord_mem (k v : ℕ) : (n.setWord k v).mem = n.mem := rfl

theorem setWord_setWord (k u v : ℕ) : (n.setWord k u).setWord k v = n.setWord k v := by
  have hne : 2 * k ≠ 2 * k + 1 := by omega
  simp only [setWord]
  refine congrArg (fun r => { n with regs := r }) ?_
  rw [Function.update_comm hne, Function.update_idem, Function.update_comm hne.symm,
    Function.update_idem]

theorem rxNext_lt (a : ℕ) : n.rxNext a < 2 ^ 16 := by
  have := n.word_lt 4
  unfold rxNext
  split <;> omega

theorem load_add (a i j : ℕ) : n.load a (i + j) = n.load a i ++ n.load (n.rxNext^[i] a) j := by
  induction i generalizing a with
  | zero => simp [load]
  | succ i ih =>
    rw [Nat.add_right_comm, load, load, ih, Function.iterate_succ_apply, List.cons_append]

/-! ## Reading a packet -/

theorem rxNext_iterate_lt {a : ℕ} (ha : a < 2 ^ 16) (i : ℕ) : n.rxNext^[i] a < 2 ^ 16 := by
  cases i with
  | zero => exact ha
  | succ i =>
    rw [Function.iterate_succ_apply']
    exact n.rxNext_lt _

variable {n}

theorem rxNext_congr {m : Node} (h₄ : m.word 4 = n.word 4) (h₅ : m.word 5 = n.word 5) :
    m.rxNext = n.rxNext := by
  funext a
  rw [rxNext, rxNext, h₄, h₅]

theorem load_congr {m : Node} (hmem : m.mem = n.mem) (hnext : m.rxNext = n.rxNext) :
    m.load = n.load := by
  funext a len
  induction len generalizing a with
  | zero => rfl
  | succ len ih => rw [load, load, ih, hmem, hnext]

variable (n)

@[simp] theorem rxNext_setWord_zero (v : ℕ) : (n.setWord 0 v).rxNext = n.rxNext :=
  rxNext_congr (word_setWord_of_ne _ _ (by omega)) (word_setWord_of_ne _ _ (by omega))

@[simp] theorem load_setWord_zero (v : ℕ) : (n.setWord 0 v).load = n.load :=
  load_congr rfl (n.rxNext_setWord_zero v)

@[simp] theorem rxNext_readMem (len : ℕ) : (n.readMem len).rxNext = n.rxNext :=
  rxNext_setWord_zero _ _

@[simp] theorem load_readMem (len : ℕ) : (n.readMem len).load = n.load :=
  load_congr rfl (n.rxNext_readMem len)

theorem word_zero_readMem (len : ℕ) : (n.readMem len).word 0 = n.rxNext^[len] (n.word 0) := by
  rw [readMem, word_setWord_self, Nat.mod_eq_of_lt (n.rxNext_iterate_lt (n.word_lt 0) len)]

theorem readMem_readMem (i j : ℕ) : (n.readMem i).readMem j = n.readMem (i + j) := by
  have hread : (n.readMem i).readOut = n.readOut ++ n.load (n.word 0) i := rfl
  conv_lhs => rw [readMem, word_zero_readMem, load_readMem, rxNext_readMem, hread,
    ← Function.iterate_add_apply, List.append_assoc, ← load_add, Nat.add_comm j]
  exact setWord_setWord { n with readOut := n.readOut ++ n.load (n.word 0) (i + j) } 0
    (n.rxNext^[i] (n.word 0)) _

/-- Two bytes of buffer memory, `i` bytes after `ERDPT`. -/
def wordAt (i : ℕ) : ℕ :=
  (n.mem (n.rxNext^[i] (n.word 0))).toNat ||| (n.mem (n.rxNext^[i + 1] (n.word 0))).toNat <<< 8

theorem wordAt_readMem (i j : ℕ) : (n.readMem i).wordAt j = n.wordAt (j + i) := by
  rw [wordAt, wordAt, word_zero_readMem, rxNext_readMem, ← Function.iterate_add_apply,
    ← Function.iterate_add_apply, Nat.add_right_comm]
  rfl

/-- Two bytes of the pending packet. -/
def rxWord (i : ℕ) : ℕ := (n.setWord 0 n.nextPacketPtr).wordAt i

/-- How many bytes of its data are read. -/
def rxCount (maxlen : ℕ) : ℕ :=
  if n.rxWord 4 &&& 0x80 = 0 then 0 else receiveLen maxlen (n.rxWord 2)

/-- The data of the pending packet, behind its header. -/
def rxData (len : ℕ) : List UInt8 := n.load (n.rxNext^[6] (n.nextPacketPtr % 2 ^ 16)) len

/-- What `ENC28J60_Packet_Receive` returns, and what it stores at `packet`. -/
def received (maxlen : ℕ) : ℕ × List UInt8 :=
  (n.rxCount maxlen,
    if n.rxWord 4 &&& 0x80 = 0 then [] else n.rxData (n.rxCount maxlen) ++ [0])

variable {n} in
/-- The pending packet is in the buffer memory. -/
theorem received_congr {m : Node} (hmem : m.mem = n.mem) (hnext : m.rxNext = n.rxNext)
    (hptr : m.nextPacketPtr = n.nextPacketPtr) (maxlen : ℕ) :
    m.received maxlen = n.received maxlen := by
  have hword (i : ℕ) : m.rxWord i = n.rxWord i := by
    rw [rxWord, rxWord, wordAt, wordAt, rxNext_setWord_zero, rxNext_setWord_zero, setWord_mem,
      setWord_mem, word_setWord_self, word_setWord_self, hmem, hnext, hptr]
  have hdata (len : ℕ) : m.rxData len = n.rxData len := by
    rw [rxData, rxData, load_congr hmem hnext, hnext, hptr]
  rw [received, received, rxCount, rxCount, hword, hword, hdata]

/-- `ENC28J60_Packet_Receive` has read the pending packet, but not yet freed its memory. -/
def readPacket (maxlen : ℕ) : Node :=
  ({ n with nextPacketPtr := n.rxWord 0 }.setWord 0 n.nextPacketPtr).readMem (6 + n.rxCount maxlen)

/-- The read pointer stands at the pending packet, and the pointer to the next one is known. -/
def atPacket : Node := { n with nextPacketPtr := n.rxWord 0 }.setWord 0 n.nextPacketPtr

theorem load_atPacket : n.atPacket.load = n.load :=
  (load_setWord_zero _ _).trans (load_congr rfl rfl)

theorem rxNext_atPacket : n.atPacket.rxNext = n.rxNext := (rxNext_setWord_zero _ _).trans rfl

theorem word_zero_atPacket : n.atPacket.word 0 = n.nextPacketPtr % 2 ^ 16 := word_setWord_self _ _ _

theorem wordAt_atPacket (i : ℕ) : (n.atPacket.readMem i).wordAt 0 = n.rxWord i := by
  rw [wordAt_readMem, Nat.zero_add]
  rfl

/-- Behind the header the read pointer stands at the data. -/
theorem load_readMem_atPacket :
    (n.atPacket.readMem 6).load ((n.atPacket.readMem 6).word 0) = n.rxData := by
  funext len
  rw [word_zero_readMem, load_readMem, load_atPacket, rxNext_atPacket, word_zero_atPacket]
  rfl

theorem readOut_readPacket (maxlen : ℕ) : (n.readPacket maxlen).readOut =
    n.readOut ++ n.load (n.nextPacketPtr % 2 ^ 16) (6 + n.rxCount maxlen) := by
  rw [← n.load_atPacket, ← n.word_zero_atPacket]
  rfl

/-- `ENC28J60_Packet_Receive` on a pending packet. -/
def receive (maxlen : ℕ) : Node := ((n.readPacket maxlen).setWord 6 (n.rxWord 0)).pktdec

theorem word_receive {k : ℕ} (h₀ : k ≠ 0) (h₆ : k ≠ 6) (maxlen : ℕ) :
    (n.receive maxlen).word k = n.word k := by
  have hdec : (n.receive maxlen).word k =
      ((n.readPacket maxlen).setWord 6 (n.rxWord 0)).word k := rfl
  rw [hdec, word_setWord_of_ne _ _ h₆, readPacket, readMem, word_setWord_of_ne _ _ h₀]
  exact word_setWord_of_ne _ _ h₀

/-- `ERXRDPT` is moved to the next packet. -/
theorem word_receive_six (maxlen : ℕ) : (n.receive maxlen).word 6 = n.rxWord 0 % 2 ^ 16 :=
  word_setWord_self (n.readPacket maxlen) 6 _

end Node

/-- The two registers of a pointer. -/
theorem Node.setReg_setReg (n : Node) {k : ℕ} (v : ℕ) {low high : UInt8}
    (hk : k < 8 ∧ flatIndex low = 2 * k ∧ flatIndex high = 2 * k + 1) :
    (n.setReg (flatIndex low) (lowByte v)).setReg (flatIndex high) (highByte v) =
      n.setWord k v := by
  have hset {i : ℕ} (n : Node) (v : UInt8) (hi : i < 0x1C) :
      n.setReg i v = { n with regs := Function.update n.regs i v } := by
    rw [setReg, if_neg (by omega), if_neg (by omega), if_neg (by omega)]
  rw [hk.2.1, hk.2.2, hset _ _ (by omega), hset _ _ (by omega)]
  rfl

section Receive

variable {env : Env} {n : Node} {α : Type}

namespace Returns

/-- Writing a pointer register, low byte first. -/
theorem writeWord (k v : ℕ) {low high : UInt8} {f : Unit → DriverProg α} {a : α} {m : Node}
    (hf : Returns env (f ()) (n.setWord k v) a m)
    (hregs : regAddr low ≠ 0x1F ∧ regAddr high ≠ 0x1F := by decide)
    (hk : k < 8 ∧ flatIndex low = 2 * k ∧ flatIndex high = 2 * k + 1 := by decide) :
    Returns env (Enc28j60.write low (lowByte v) >>= fun _ =>
      Enc28j60.write high (highByte v) >>= f) n a m := by
  refine .bind (write low _ hregs.1) (.bind (write high _ hregs.2) ?_)
  rw [Node.setReg_setReg n v hk]
  exact hf

theorem readBufWord : Returns env Enc28j60.readBufWord n (n.wordAt 0) (n.readMem 2) := by
  have h := Node.word_zero_readMem n 1
  refine .bind readOp_buffer (.bind readOp_buffer ?_)
  rw [Node.readMem_readMem, h]
  exact pure _

theorem readData (env : Env) (n : Node) (maxlen field rxstat : ℕ) :
    Returns env (Enc28j60.readData maxlen field rxstat) n
      (if rxstat &&& 0x80 = 0 then (0, []) else (receiveLen maxlen field,
        n.load (n.word 0) (receiveLen maxlen field) ++ [0]))
      (if rxstat &&& 0x80 = 0 then n else n.readMem (receiveLen maxlen field)) := by
  unfold Enc28j60.readData
  split
  · exact pure _
  · exact .bind (readBuf _) (pure _)

/-- A word of the header. -/
theorem readBufWord_header (i : ℕ) : Returns env Enc28j60.readBufWord (n.atPacket.readMem i)
    (n.rxWord i) (n.atPacket.readMem (i + 2)) := by
  rw [← n.wordAt_atPacket i, ← Node.readMem_readMem]
  exact readBufWord

/-- The data behind the header. -/
theorem readData_packet (env : Env) (n : Node) (maxlen : ℕ) :
    Returns env (Enc28j60.readData maxlen (n.rxWord 2) (n.rxWord 4)) (n.atPacket.readMem 6)
      (n.received maxlen) (n.readPacket maxlen) := by
  have h := readData env (n.atPacket.readMem 6) maxlen (n.rxWord 2) (n.rxWord 4)
  rw [Node.load_readMem_atPacket] at h
  by_cases hok : n.rxWord 4 &&& 0x80 = 0
  · simp only [if_pos hok] at h
    simp only [Node.received, Node.readPacket, Node.rxCount, if_pos hok]
    exact h
  · simp only [if_neg hok, Node.readMem_readMem] at h
    simp only [Node.received, Node.readPacket, Node.rxCount, if_neg hok]
    exact h

theorem readEpktcnt : Returns env (Enc28j60.read epktcnt) n n.epktcnt n := read epktcnt

/-- No packet is being received. -/
theorem testRxbusy : Returns env (Enc28j60.testBits estat 0x04) n false n := by
  have h : n.readReg (flatIndex estat) = 0x01 := rfl
  have htest : Returns env (Enc28j60.testBits estat 0x04) n _ n := testBits estat 0x04
  rw [h] at htest
  exact htest

theorem getNext : Returns env (Enc28j60.perform .getNext) n n.nextPacketPtr n :=
  perform fun w hw => by rw [← hw]; rfl

/-- `ECON2.PKTDEC` is set. -/
theorem pktdec : Returns env (Enc28j60.writeOp bitFieldSet econ2 0x40) n () n.pktdec := by
  have hset : n.setReg (regAddr econ2)
      ((opcode bitFieldSet).apply (n.readReg (regAddr econ2)) 0x40) = n.pktdec := by
    rw [Node.setReg, if_neg (by decide), if_pos (by decide)]
    exact if_pos (by decide : (0x80 ||| 0x40 : UInt8) &&& 0x40 ≠ 0)
  rw [← hset]
  exact writeOp econ2 0x40 (.inl rfl)

theorem setNext (ptr : ℕ) :
    Returns env (Enc28j60.perform (.setNext ptr)) n () { n with nextPacketPtr := ptr } :=
  perform fun w hw => by rw [← hw]; rfl

end Returns

/-- Writing a pointer register on a board whose log takes no note of it. -/
theorem LogReturns.writeWord {τ : Type} {step : (o : Op) → World × τ → o.Res × World × τ}
    {A : Op → Prop} (h : Ignores env step A) (hbank : SelectsBank A) (k v : ℕ) {low high : UInt8}
    {f : Unit → DriverProg α} {t u : τ} {a : α} {m : Node}
    (hf : LogReturns step (f ()) (n.setWord k v) t a m u)
    (hA : ∀ v, A (.writeOp writeCtrlReg low v) ∧ A (.writeOp writeCtrlReg high v))
    (hregs : regAddr low ≠ 0x1F ∧ regAddr high ≠ 0x1F := by decide)
    (hk : k < 8 ∧ flatIndex low = 2 * k ∧ flatIndex high = 2 * k + 1 := by decide) :
    LogReturns step (Enc28j60.write low (lowByte v) >>= fun _ =>
      Enc28j60.write high (highByte v) >>= f) n t a m u := by
  refine .bind (.of_returns h (.write low _ hregs.1) (hbank.only_write (hA _).1)) ?_
  refine .bind (.of_returns h (.write high _ hregs.2) (hbank.only_write (hA _).2)) ?_
  rw [Node.setReg_setReg n v hk]
  exact hf

/-! ### `ENC28J60_Packet_Receive` -/

/-- `ECON2.PKTDEC` is set. -/
def Op.setsPktdec : Op → Bool
  | .writeOp op addr data =>
    (opcode op = .wcr || opcode op = .bfs) && regAddr addr = 0x1E && data &&& 0x40 != 0
  | _ => false

theorem uncounted_selectsBank : SelectsBank fun o => o.setsPktdec = false where
  getBank := rfl
  clear := rfl
  set _ := rfl
  setBank _ := rfl

/-- `ENC28J60_Packet_Receive` on a pending packet; `ECON2.PKTDEC` is set once. -/
theorem LogReturns.packetReceive (env : Env) (n : Node) (fuel maxlen : ℕ) (hn : n.epktcnt ≠ 0) :
    LogReturns (Prog.counted (boardStep env) Op.setsPktdec) (Enc28j60.packetReceive fuel maxlen)
      n 0 (n.received maxlen) (n.receive maxlen) 1 := by
  have uncounted {β : Type} {p : DriverProg β} {b : β} {l m : Node} (h : Returns env p l b m)
      (hp : Prog.Only (fun o => o.setsPktdec = false) p) :
      LogReturns (Prog.counted (boardStep env) Op.setsPktdec) p l 0 b m 0 :=
    .of_returns ignores_counted h hp
  have hdec : LogReturns (Prog.counted (boardStep env) Op.setsPktdec)
      (Enc28j60.writeOp bitFieldSet econ2 0x40) ((n.readPacket maxlen).setWord 6 (n.rxWord 0)) 0 ()
      (n.receive maxlen) 1 :=
    Returns.counted (c := 0) (k := 1) .pktdec fun _ => rfl
  refine .bind (uncounted (.intx false) (.lift rfl)) ?_
  refine .bind (uncounted .readEpktcnt (uncounted_selectsBank.only_read rfl)) ?_
  rw [if_neg hn]
  refine .bind (uncounted (.whileDo fuel .testRxbusy)
    (.whileDo (uncounted_selectsBank.only_testBits rfl _) (.pure ()) fuel)) ?_
  refine .bind (uncounted .getNext (.lift rfl)) ?_
  refine .writeWord ignores_counted uncounted_selectsBank 0 n.nextPacketPtr ?_ fun _ => ⟨rfl, rfl⟩
  refine .bind (uncounted .readBufWord (only_readBufWord rfl)) ?_
  refine .bind (uncounted (.setNext _) (.lift rfl)) ?_
  refine .bind (uncounted (.readBufWord_header 2) (only_readBufWord rfl)) ?_
  refine .bind (uncounted (.readBufWord_header 4) (only_readBufWord rfl)) ?_
  refine .bind (uncounted (.readData_packet env n maxlen) (only_readData (fun _ => rfl) _ _ _)) ?_
  refine .writeWord ignores_counted uncounted_selectsBank 6 (n.rxWord 0) ?_ fun _ => ⟨rfl, rfl⟩
  exact .bind hdec (.bind (.of_returns ignores_counted (.intx true) (.lift rfl)) (.pure _))

/-- `ENC28J60_Packet_Receive` on a pending packet. -/
theorem Returns.packetReceive (env : Env) (fuel maxlen : ℕ) (hn : n.epktcnt ≠ 0) :
    Returns env (Enc28j60.packetReceive fuel maxlen) n (n.received maxlen) (n.receive maxlen) :=
  (LogReturns.packetReceive env n fuel maxlen hn).of_counted.1

end Receive

/-! ## Sending a packet -/

/-- Everything but the transmission flags, the pointers `EWRPT` and `ETXND` and the buffer memory is
the same; the receive buffer is, if what is sent is `short`. -/
structure SameRx (short : Prop) (n m : Node) : Prop where
  regs : ∀ i, i ≠ 2 → i ≠ 3 → i ≠ 6 → i ≠ 7 → m.regs i = n.regs i
  mem : short → ∀ a < txstartInit, m.mem a = n.mem a
  epktcnt : m.epktcnt = n.epktcnt
  rxen : m.rxen = n.rxen
  rxerif : m.rxerif = n.rxerif
  nextPacketPtr : m.nextPacketPtr = n.nextPacketPtr
  memmap : m.memmap = n.memmap
  readOut : m.readOut = n.readOut

namespace SameRx

variable {short : Prop} {n m l : Node}

theorem refl (n : Node) : SameRx short n n :=
  ⟨fun _ _ _ _ _ => rfl, fun _ _ _ => rfl, rfl, rfl, rfl, rfl, rfl, rfl⟩

theorem mono {short' : Prop} (h : SameRx short n m) (hs : short' → short) : SameRx short' n m :=
  { h with mem := fun hs' => h.mem (hs hs') }

theorem trans (h : SameRx short n m) (h' : SameRx short m l) : SameRx short n l where
  regs i h₂ h₃ h₆ h₇ := (h'.regs i h₂ h₃ h₆ h₇).trans (h.regs i h₂ h₃ h₆ h₇)
  mem hs a ha := (h'.mem hs a ha).trans (h.mem hs a ha)
  epktcnt := h'.epktcnt.trans h.epktcnt
  rxen := h'.rxen.trans h.rxen
  rxerif := h'.rxerif.trans h.rxerif
  nextPacketPtr := h'.nextPacketPtr.trans h.nextPacketPtr
  memmap := h'.memmap.trans h.memmap
  readOut := h'.readOut.trans h.readOut

theorem word (h : SameRx short n m) {k : ℕ} (h₁ : k ≠ 1) (h₃ : k ≠ 3) : m.word k = n.word k := by
  rw [Node.word, Node.word, h.regs, h.regs] <;> omega

theorem setWord {k : ℕ} (hk : k = 1 ∨ k = 3) (v : ℕ) : SameRx short n (n.setWord k v) where
  regs i h₂ h₃ h₆ h₇ := by
    have h₁ : i ≠ 2 * k := by omega
    have h₂ : i ≠ 2 * k + 1 := by omega
    simp only [Node.setWord, Function.update_of_ne h₁, Function.update_of_ne h₂]
  mem _ _ _ := rfl
  epktcnt := rfl
  rxen := rfl
  rxerif := rfl
  nextPacketPtr := rfl
  memmap := rfl
  readOut := rfl

/-- The status vector stays behind the receive buffer when there is room for it. -/
theorem transmit (env : Env) (hfit : short → txstartInit ≤ n.word 3 + 1 ∧ n.word 3 + 8 ≤ 2 ^ 13) :
    SameRx short n (n.transmit env) where
  regs _ _ _ _ _ := rfl
  mem hs a ha := by
    obtain ⟨h₁, h₂⟩ := hfit hs
    refine Ring.store_of_outside (Nat.mod_lt _ (Nat.two_pow_pos 13)) fun i hi => ?_
    rw [(env.transmit n.clock).length_vector] at hi
    rw [Nat.mod_add_mod, Nat.mod_eq_of_lt (by omega)]
    omega
  epktcnt := rfl
  rxen := rfl
  rxerif := rfl
  nextPacketPtr := rfl
  memmap := rfl
  readOut := rfl

/-- Bytes written to the transmit buffer. -/
theorem writeMem {bs : List UInt8}
    (h : bs ≠ [] → txstartInit ≤ n.word 1 ∧ n.word 1 + bs.length ≤ 2 ^ 13) :
    SameRx short n (n.writeMem bs) := by
  induction bs generalizing n with
  | nil => exact refl n
  | cons b bs ih =>
    obtain ⟨h₁, h₂⟩ := h (List.cons_ne_nil b bs)
    rw [List.length_cons] at h₂
    rw [Node.writeMem]
    refine trans (trans ?_ (setWord (.inl rfl) ((n.word 1 + 1) % 2 ^ 13))) (ih fun hne => ?_)
    · refine ⟨fun _ _ _ _ _ => rfl, fun _ a ha => ?_, rfl, rfl, rfl, rfl, rfl, rfl⟩
      exact Function.update_of_ne (by omega) _ _
    · have hlen := List.length_pos_iff.mpr hne
      rw [Node.word_setWord_self]
      omega

end SameRx

namespace Node

theorem writeMem_append (n : Node) (xs ys : List UInt8) :
    (n.writeMem xs).writeMem ys = n.writeMem (xs ++ ys) := by
  induction xs generalizing n with
  | nil => rfl
  | cons x xs ih => exact ih _

theorem word_writeMem (n : Node) (bs : List UInt8) {k : ℕ} (hk : k ≠ 1) :
    (n.writeMem bs).word k = n.word k := by
  induction bs generalizing n with
  | nil => rfl
  | cons b bs ih =>
    rw [writeMem, ih, word_setWord_of_ne _ _ hk]
    rfl

/-- A packet is in the transmit buffer, behind its control byte. -/
def loaded (n : Node) (packet : List UInt8) : Node :=
  ((n.setWord 1 txstartInit).setWord 3 (txstartInit + packet.length)).writeMem (0 :: packet)

theorem word_three_loaded (n : Node) {packet : List UInt8} (hlen : packet.length ≤ maxFramelen) :
    (n.loaded packet).word 3 = txstartInit + packet.length := by
  rw [loaded, word_writeMem _ _ (by omega), word_setWord_self, Nat.mod_eq_of_lt]
  unfold txstartInit maxFramelen at *
  omega

end Node

/-- A packet is put in the transmit buffer. -/
theorem SameRx.loaded {short : Prop} {n : Node} {packet : List UInt8}
    (hlen : packet.length ≤ maxFramelen) : SameRx short n (n.loaded packet) := by
  have h₁ : SameRx short n (n.setWord 1 txstartInit) := .setWord (.inl rfl) _
  have h₃ : SameRx short _ ((n.setWord 1 txstartInit).setWord 3 (txstartInit + packet.length)) :=
    .setWord (.inr rfl) _
  refine (h₁.trans h₃).trans (SameRx.writeMem fun _ => ?_)
  rw [Node.word_setWord_of_ne _ _ (by decide), Node.word_setWord_self, List.length_cons]
  unfold txstartInit maxFramelen at *
  omega

/-- `ENC28J60_Packet_Send` of a packet that fits in the transmit buffer. -/
theorem Returns.packetSend (env : Env) (n : Node) (fuel : ℕ) {packet : List UInt8}
    (hlen : packet.length ≤ maxFramelen) :
    Returns env (Enc28j60.packetSend fuel packet) n () ((n.loaded packet).transmit env) := by
  let n₁ := (n.setWord 1 txstartInit).setWord 3 (txstartInit + packet.length)
  have hload : (n₁.writeMem [0]).writeMem packet = n.loaded packet :=
    n₁.writeMem_append [0] packet
  refine .bind (.intx false) (.bind (.whileDo fuel .testBits_txrts) ?_)
  refine .writeWord 1 txstartInit ?_
  refine .writeWord 3 (txstartInit + packet.length) ?_
  rw [writeControl, if_neg (by omega)]
  refine .bind (.writeOp_buffer 0) (.bind (.writeBuf packet) ?_)
  rw [hload]
  refine .bind .writeOp_txrts (.bind (.testBits eir 0x02) (.bind (a := ()) ?_ (.intx true)))
  exact .when (fun _ => .writeOp_clear_txrts) fun _ => rfl

/-- Sending leaves the receive side as it was. -/
theorem SameRx.packetSend (env : Env) (n : Node) {packet : List UInt8}
    (hlen : packet.length ≤ maxFramelen) :
    SameRx (packet.length ≤ 1511) n ((n.loaded packet).transmit env) := by
  refine (SameRx.loaded hlen).trans (SameRx.transmit env fun hshort => ?_)
  rw [n.word_three_loaded hlen]
  unfold txstartInit
  omega

end Enc28j60

end Enc28j60Udp
