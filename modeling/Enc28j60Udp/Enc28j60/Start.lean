import Enc28j60Udp.Enc28j60.Fifo
import Enc28j60Udp.Enc28j60.Handler

/-!
# After initialisation

What `ENC28J60_Init` leaves, from any state of the chip in which cache and chip agree: it returns 0,
the receive buffer is empty and its bounds are set, and the interrupts are enabled. The reset clears
the bank bits but not the cache, so the first access after it is dealt with by hand.
-/

namespace Enc28j60Udp

namespace Enc28j60

/-- `ENC28J60_Init` has set up the chip and the driver. -/
structure Started (n m : Node) : Prop where
  ring : m.RxRing
  rdpt : m.word 6 = rxstartInit
  wrpt : m.word 7 = rxstartInit
  eie : m.regs 0x1B = 0xCB
  next : m.nextPacketPtr = rxstartInit
  epktcnt : m.epktcnt = 0
  rxen : m.rxen = true
  flags : m.txif = false ∧ m.txerif = false ∧ m.rxerif = false
  memmap : m.memmap = n.memmap
  mem : m.mem = n.mem

/-- The node after `writeAll`. -/
def Node.setAll (n : Node) (regs : List (UInt8 × UInt8)) : Node :=
  regs.foldl (fun n r => n.setReg (flatIndex r.1) r.2) n

/-- Only registers of the banks 1 to 3 differ. -/
structure SameLow (n m : Node) : Prop where
  eq : m = { n with regs := m.regs }
  regs : ∀ i < 0x20, m.regs i = n.regs i

namespace SameLow

variable {n m l : Node}

theorem trans (h : SameLow n m) (h' : SameLow m l) : SameLow n l where
  eq := by rw [h'.eq, h.eq]
  regs i hi := (h'.regs i hi).trans (h.regs i hi)

theorem word (h : SameLow n m) {k : ℕ} (hk : k ≤ 7) : m.word k = n.word k := by
  rw [Node.word, Node.word, h.regs _ (by omega), h.regs _ (by omega)]

theorem setReg (i : ℕ) (v : UInt8) (hi : 0x20 ≤ i := by decide) : SameLow n (n.setReg i v) := by
  rw [Node.setReg, if_neg (by omega), if_neg (by omega)]
  split
  · exact ⟨rfl, fun _ _ => rfl⟩
  · exact ⟨rfl, fun j hj => Function.update_of_ne (by omega) _ _⟩

theorem setAll {regs : List (UInt8 × UInt8)}
    (h : (regs.all fun r => 0x20 ≤ flatIndex r.1) = true) : SameLow n (n.setAll regs) := by
  induction regs generalizing n with
  | nil => exact ⟨rfl, fun _ _ => rfl⟩
  | cons r regs ih =>
    rw [List.all_cons, Bool.and_eq_true, decide_eq_true_iff] at h
    exact (setReg _ r.2 h.1).trans (ih h.2)

end SameLow

theorem Node.setAll_initRegs (n : Node) :
    (n.setAll initRegs).RxRing ∧ (n.setAll initRegs).word 6 = rxstartInit ∧
      (n.setAll initRegs).word 7 = n.word 7 ∧ (n.setAll initRegs).regs 0x1B = n.regs 0x1B ∧
      n.setAll initRegs = { n with regs := (n.setAll initRegs).regs } :=
  ⟨⟨rfl, rfl⟩, rfl, rfl, rfl, rfl⟩

section Init

variable {env : Env} {n m : Node}

namespace Returns

theorem writeAll {regs : List (UInt8 × UInt8)}
    (hregs : (regs.all fun r => regAddr r.1 != 0x1F) = true) :
    Returns env (Enc28j60.writeAll regs) n () (n.setAll regs) := by
  induction regs generalizing n with
  | nil => exact pure ()
  | cons r regs ih =>
    rw [List.all_cons, Bool.and_eq_true, bne_iff_ne] at hregs
    exact .bind (write r.1 r.2 hregs.1) (ih hregs.2)

/-- The PHY is not busy. -/
theorem retryMistat : Returns env
    (Prog.retryWhile (Enc28j60.testBits mistat 0x01) 0xFFFF 0xFFFF) n 0 n := by
  have hread : n.readReg (flatIndex mistat) = 0 := rfl
  have htest : Returns env (Enc28j60.testBits mistat 0x01) n _ n := testBits mistat 0x01
  rw [hread] at htest
  exact retryWhile 0xFFFF 0xFFFE htest

theorem phyWrite (env : Env) (n : Node) (addr : UInt8) (data : UInt16) :
    ∃ m, Returns env (Enc28j60.phyWrite addr data) n () m ∧ SameLow n m := by
  let n₁ := n.setReg (flatIndex miregadr) addr
  let n₂ := n₁.setReg (flatIndex miwrl) data.toUInt8
  let n₃ := n₂.setReg (flatIndex miwrh) (data >>> 8).toUInt8
  have h₁ : SameLow n n₁ := .setReg _ _
  have h₂ : SameLow n₁ n₂ := .setReg _ _
  have h₃ : SameLow n₂ n₃ := .setReg _ _
  refine ⟨n₃, .bind (write _ _) (.bind (write _ _) ?_), h₁.trans (h₂.trans h₃)⟩
  exact .bind (write _ _) (.bind retryMistat (pure ()))

theorem phyRead (env : Env) (n : Node) (addr : UInt8) :
    ∃ r m, Returns env (Enc28j60.phyRead addr) n r m ∧ SameLow n m := by
  let temp := n.readReg (flatIndex micmd)
  let n₁ := n.setReg (flatIndex miregadr) addr
  let n₂ := n₁.setReg (flatIndex micmd) (temp ||| 0x01)
  let n₃ := n₂.setReg (flatIndex micmd) (temp &&& ~~~0x01)
  have h₁ : SameLow n n₁ := .setReg _ _
  have h₂ : SameLow n₁ n₂ := .setReg _ _
  have h₃ : SameLow n₂ n₃ := .setReg _ _
  let value := (n₃.readReg (flatIndex mirdl)).toUInt16 |||
    (n₃.readReg (flatIndex mirdh)).toUInt16 <<< 8
  refine ⟨value, n₃, .bind (read micmd) ?_, h₁.trans (h₂.trans h₃)⟩
  refine .bind (write _ _) ?_
  refine .bind (write _ _) (.bind retryMistat (.bind (write _ _) ?_))
  exact .bind (read mirdl) (.bind (read mirdh) (pure _))

theorem setBank (addr : UInt8) : Returns env (Enc28j60.setBank addr) n () n := by
  rintro w rfl hw
  obtain ⟨w', hr, hn, h⟩ := run_setBank env (hw.usable addr)
  exact ⟨w', hr, hn, addr, h⟩

/-- The reset, and the wait for the clock. -/
theorem reset {α : Type} {f : ℕ → DriverProg α} {a : α} (hf : Returns env (f 0) n.reset a m) :
    Returns env (Enc28j60.perform .rst >>= fun _ =>
      Enc28j60.writeOp softReset 0 softReset >>= fun _ =>
      Prog.retryWhile (do let v ← Enc28j60.read estat; Pure.pure (v &&& 0x01 == 0)) 250 250 >>= f)
      n a m := by
  rintro w rfl hw
  have hzero : w.reset.bselByte = 0 := rfl
  have hfresh : Usable World.bank World.bselByte estat w.reset :=
    ⟨by rw [hzero]; rfl, fun _ => hzero.trans (by decide)⟩
  obtain ⟨w₁, hr, hn, hw₁⟩ := run_read env (by decide) hfresh
  obtain ⟨w', hrun, h⟩ := hf w₁ hn hw₁
  have hready : w.reset.node.readReg (flatIndex estat) = 0x01 := rfl
  rw [hready] at hr
  have hwait : Prog.run (boardStep env) (Prog.retryWhile (do
      let v ← Enc28j60.read estat
      Pure.pure (v &&& 0x01 == 0)) 250 250) w.reset = (some 0, w₁) :=
    (Prog.run_bind_of _ ((Prog.run_bind_of _ hr _).trans rfl) _).trans rfl
  exact ⟨w', (Prog.run_bind_of _ hwait f).trans hrun, h⟩

theorem getUid : Returns env (Enc28j60.perform .getUid) n env.uid n :=
  perform fun w hw => by rw [← hw]; rfl

theorem setMacaddr (mac : List UInt8) :
    Returns env (Enc28j60.perform (.setMacaddr mac)) n () { n with macaddr := mac } :=
  perform fun w hw => by rw [← hw]; rfl

/-- `ECON1.RXEN` is set. -/
theorem writeOp_rxen :
    Returns env (Enc28j60.writeOp bitFieldSet econ1 0x04) n () { n with rxen := true } := by
  refine writeOp_econ1 (.inl rfl) rfl fun b => ?_
  have hv : (n.econ1Bits b ||| 0x04) &&& 0x0C = 0x04 := by
    rw [or_and_distrib, econ1Bits_high]
    cases n.rxen <;> rfl
  have h₈ : (n.econ1Bits b ||| 0x04) &&& 0x08 = 0 := and_of_high hv 0x08 rfl
  have h₄ : (n.econ1Bits b ||| 0x04) &&& 0x04 = 0x04 := and_of_high hv 0x04 rfl
  refine (if_neg (not_not.mpr h₈)).trans ?_
  have happly : (opcode bitFieldSet).apply (n.econ1Bits b) 0x04 = n.econ1Bits b ||| 0x04 := rfl
  rw [happly, h₄]
  rfl

/-- `ENC28J60_Init`; it also sets `ETXST`. -/
theorem init (env : Env) (n : Node) :
    ∃ m, Returns env Enc28j60.init n 0 m ∧ Started n m ∧ m.word 2 = txstartInit := by
  let mac := macaddrOf env.uid
  let n₁ : Node := { { n with macaddr := mac }.reset with nextPacketPtr := rxstartInit }
  let n₂ := n₁.setAll initRegs
  let n₃ := n₂.setAll (macRegs mac)
  have h₃ : SameLow n₂ n₃ := .setAll (macRegs_all (q := fun a => 0x20 ≤ flatIndex a) rfl mac)
  have hmac := macRegs_all (q := fun a => regAddr a != 0x1F) rfl mac
  obtain ⟨n₄, hr₄, h₄⟩ := phyWrite env n₃ phcon1 0x0100
  obtain ⟨n₅, hr₅, h₅⟩ := phyWrite env n₄ phcon2 0x0100
  have h₂₅ : SameLow n₂ n₅ := h₃.trans (h₄.trans h₅)
  let n₆ : Node := { n₅.setEie 0xCB with rxen := true }
  obtain ⟨r, n₇, hr₇, h₇⟩ := phyRead env n₆ phcon1
  obtain ⟨⟨hst, hnd⟩, hrdpt, hwrpt, heie, h₂⟩ := n₁.setAll_initRegs
  have heie₅ : n₅.regs 0x1B = 0 := (h₂₅.regs 0x1B (by omega)).trans heie
  have hword {k : ℕ} (hk : k ≤ 7) : n₇.word k = n₂.word k :=
    (h₇.word hk).trans ((n₅.word_setEie hk 0xCB).trans (h₂₅.word hk))
  have h₂ : n₂ = { n₁ with regs := n₂.regs } := h₂
  have hn₇ : n₇ = { n₁ with regs := n₇.regs, rxen := true } := by
    calc n₇ = { n₆ with regs := n₇.regs } := h₇.eq
      _ = { n₅ with regs := n₇.regs, rxen := true } := rfl
      _ = { n₂ with regs := n₇.regs, rxen := true } := by rw [h₂₅.eq]
      _ = { n₁ with regs := n₇.regs, rxen := true } := by rw [h₂]
  have hmemmap := congrArg Node.memmap hn₇
  have hmem := congrArg Node.mem hn₇
  refine ⟨n₇, ?_, ?_⟩
  · refine .bind getUid (.bind (setMacaddr _) (reset ?_))
    refine .bind (.bind (read erevid) (pure _)) (.bind (setNext _) ?_)
    refine .bind (writeAll rfl) (.bind (writeAll hmac) ?_)
    refine .bind hr₄ (.bind hr₅ (.bind (setBank _) ?_))
    refine .bind (setEie (.inl rfl) (by rw [heie₅])) (.bind writeOp_rxen ?_)
    exact .bind (.bind hr₇ (pure _)) (pure 0)
  · refine ⟨⟨⟨(hword (by omega)).trans hst, (hword (by omega)).trans hnd⟩,
      (hword (by omega)).trans hrdpt, (hword (by omega)).trans hwrpt, ?_,
      congrArg Node.nextPacketPtr hn₇, congrArg Node.epktcnt hn₇, congrArg Node.rxen hn₇,
      ⟨congrArg Node.txif hn₇, congrArg Node.txerif hn₇, congrArg Node.rxerif hn₇⟩,
      hmemmap, hmem⟩, (hword (by omega)).trans rfl⟩
    exact (h₇.regs 0x1B (by omega)).trans (Function.update_self 0x1B 0xCB n₅.regs)

end Returns

/-- `ENC28J60_Init` returns 0. -/
theorem run_init (env : Env) {w : World} (hw : w.Coh) :
    ∃ w', Prog.run (boardStep env) Enc28j60.init w = (some 0, w') ∧ w'.Coh ∧
      Started w.node w'.node := by
  obtain ⟨m, hm, hstarted, -⟩ := Returns.init env w.node
  obtain ⟨w', hrun, rfl, hcoh⟩ := hm w rfl hw
  exact ⟨w', hrun, hcoh, hstarted⟩

end Init

end Enc28j60

end Enc28j60Udp
