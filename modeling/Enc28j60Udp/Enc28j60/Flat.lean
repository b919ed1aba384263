import Enc28j60Udp.Enc28j60.Bank

/-!
# The driver without banks

From a coherent board the driver works as if the registers of the four banks were numbered from one
end to the other: `Returns env p n a m` says that `p`, from any coherent board with node `n`,
returns `a` and leaves a coherent board with node `m`. There is one lemma for each way the driver
accesses the chip; `Returns.bind` puts them together.

`LogReturns` is the same for a board with something beside it that takes note of some operations.
A program without such operations works as on the board alone.
-/

namespace Enc28j60Udp

namespace Enc28j60

/-- A coherent board. -/
abbrev World.Coh (w : World) : Prop := Coherent World.bank World.bselByte w

/-- The number of the register that an address names. -/
def flatIndex (addr : UInt8) : ℕ := regIndex (bankOf addr).toNat addr

/-- From a coherent board with node `n` the program returns `a`, and leaves a coherent board with
node `m`. -/
def Returns {α : Type} (env : Env) (p : DriverProg α) (n : Node) (a : α) (m : Node) : Prop :=
  ∀ w : World, w.node = n → w.Coh →
    ∃ w', Prog.run (boardStep env) p w = (some a, w') ∧ w'.node = m ∧ w'.Coh

section Registers

variable {env : Env} {n m l : Node} {α β : Type}

/-! ### `ECON1` -/

theorem econ1Bits_high (n : Node) (b : Fin 4) :
    n.econ1Bits b &&& 0x0C = if n.rxen then 0x04 else 0 := by
  unfold Node.econ1Bits
  cases n.rxen
  · revert b
    decide
  · revert b
    decide

/-- The effect of a value of `ECON1` that keeps `RXEN`. -/
theorem setEcon1_eq {v : UInt8} (hv : (v &&& 0x04 != 0) = n.rxen) :
    n.setEcon1 env v = if v &&& 0x08 ≠ 0 then n.transmit env else n := by
  rw [Node.setEcon1, hv]

theorem and_of_high {v x : UInt8} (hv : v &&& 0x0C = x) (m : UInt8) (hm : 0x0C &&& m = m) :
    v &&& m = x &&& m := by
  rw [← hv, UInt8.and_assoc, hm]

/-- A command without `TXRTS` and `RXEN` has no effect but on the bank. -/
theorem node_writeReg_econ1 (w : World) {c : Opcode} (hc : c ≠ .wcr) {data : UInt8}
    (hd : data &&& 0x0C = 0) : (w.writeReg env c econ1 data).node = w.node := by
  rw [World.writeReg, if_pos (by decide)]
  have hv := (apply_of_disjoint c hc hd (w.node.econ1Bits w.bsel)).trans (econ1Bits_high _ _)
  refine (setEcon1_eq ?_).trans (if_neg ?_)
  · rw [and_of_high hv 0x04 rfl]
    cases w.node.rxen <;> rfl
  · rw [and_of_high hv 0x08 rfl]
    cases w.node.rxen <;> decide

/-! ### Bank selection -/

theorem World.bsel_of_coherent {w : World} {addr : UInt8} (h : w.bselByte = bankOf addr) :
    (w.bsel : ℕ) = (bankOf addr).toNat := by
  have hb : ∀ b : Fin 4, (b : ℕ) = (UInt8.ofNat b).toNat := by decide
  rw [← h, bselByte, ← hb]

/-- `ENC28J60_Set_Bank` changes nothing but the bank. -/
theorem run_setBank (env : Env) {addr : UInt8} {w : World}
    (hw : Usable World.bank World.bselByte addr w) :
    ∃ w', Prog.run (boardStep env) (setBank addr) w = (some (), w') ∧ w'.node = w.node ∧
      w'.bank = addr &&& bankMask ∧ w'.bselByte = bankOf addr := by
  have hb : bankOf addr &&& 0x0C = 0 :=
    forall_byte (p := fun a => bankOf a &&& 0x0C = 0) (by decide +kernel) addr
  have hrun : ∃ w', Prog.run (boardStep env) (setBank addr) w = (some (), w') ∧
      w'.node = w.node := by
    by_cases hc : addr &&& bankMask ≠ w.bank
    · refine ⟨_, (Prog.run_ite _ _ _ _ w).trans (if_pos hc), ?_⟩
      exact (node_writeReg_econ1 _ (by decide) hb).trans
        (node_writeReg_econ1 w (by decide) (by decide))
    · exact ⟨w, (Prog.run_ite _ _ _ _ w).trans (if_neg hc), rfl⟩
  obtain ⟨w', hr, hn⟩ := hrun
  exact ⟨w', hr, hn, (setBank_meets (boardStep_banked env) hw).of_run hr⟩

/-- `ENC28J60_Read`, when the cache is right about the bank of the address. -/
theorem run_read (env : Env) {addr : UInt8} (haddr : regAddr addr ≠ 0x1F) {w : World}
    (hw : Usable World.bank World.bselByte addr w) :
    ∃ w', Prog.run (boardStep env) (read addr) w = (some (w.node.readReg (flatIndex addr)), w') ∧
      w'.node = w.node ∧ w'.Coh := by
  obtain ⟨w₁, hr, hn, hbank, hbsel⟩ := run_setBank env hw
  refine ⟨w₁, ?_, hn, addr, hbank, hbsel⟩
  have hval : (boardStep env (.readOp readCtrlReg addr) w₁).1 = w₁.readReg addr := rfl
  rw [read, Prog.run_bind_of _ hr, readOp, perform, Prog.run_lift, hval, World.readReg,
    if_neg haddr, World.bsel_of_coherent hbsel, hn]
  rfl

end Registers

/-! ## Programs -/

section Programs

variable {env : Env} {n m l : Node} {α β : Type}

namespace Returns

theorem pure (a : α) : Returns env (Pure.pure a) n a n := fun w hn hw => ⟨w, rfl, hn, hw⟩

theorem bind {p : DriverProg α} {f : α → DriverProg β} {a : α} {b : β}
    (hp : Returns env p n a m) (hf : Returns env (f a) m b l) : Returns env (p >>= f) n b l := by
  intro w hn hw
  obtain ⟨w₁, hr, hn₁, hw₁⟩ := hp w hn hw
  obtain ⟨w₂, hr₂, h⟩ := hf w₁ hn₁ hw₁
  exact ⟨w₂, by rw [Prog.run_bind_of _ hr, hr₂], h⟩

theorem when {c : Prop} [Decidable c] {p : DriverProg Unit} (hp : c → Returns env p n () m)
    (hn : ¬c → m = n) : Returns env (Prog.when c p) n () m := by
  unfold Prog.when
  split
  · exact hp ‹_›
  · rw [hn ‹_›]
    exact pure ()

/-- A loop whose condition does not hold. -/
theorem whileDo {cond : DriverProg Bool} {body : DriverProg Unit} (fuel : ℕ)
    (hc : Returns env cond n false m) : Returns env (Prog.whileDo cond body fuel) n () m := by
  cases fuel with
  | zero => exact .bind hc (pure ())
  | succ k => exact .bind hc (pure ())

/-- A bounded loop whose condition does not hold. -/
theorem retryWhile {cond : DriverProg Bool} (limit k : ℕ) (hc : Returns env cond n false m) :
    Returns env (Prog.retryWhile cond limit (k + 1)) n (limit - (k + 1)) m :=
  .bind hc (pure _)

/-- An operation that does not touch the bank. -/
theorem perform {o : Op} {r : o.Res}
    (h : ∀ w : World, w.node = n → boardStep env o w = (r, { w with node := m })) :
    Returns env (Enc28j60.perform o) n r m :=
  fun w hn hw => ⟨{ w with node := m }, by rw [Enc28j60.perform, Prog.run_lift, h w hn], rfl, hw⟩

/-! ### Registers -/

theorem read (addr : UInt8) (haddr : regAddr addr ≠ 0x1F := by decide) :
    Returns env (Enc28j60.read addr) n (n.readReg (flatIndex addr)) n := by
  rintro w rfl hw
  exact run_read env haddr (hw.usable addr)

theorem testBits (addr mask : UInt8) (haddr : regAddr addr ≠ 0x1F := by decide) :
    Returns env (Enc28j60.testBits addr mask) n (n.readReg (flatIndex addr) &&& mask != 0) n :=
  .bind (read addr haddr) (pure _)

/-- No transmission is going on. -/
theorem testBits_txrts : Returns env (Enc28j60.testBits econ1 0x08) n false n := by
  rintro w rfl hw
  obtain ⟨w₁, hr, hn, hbank, hbsel⟩ := run_setBank env (hw.usable econ1)
  refine ⟨w₁, ?_, hn, _, hbank, hbsel⟩
  have hbit : (w₁.readReg econ1 &&& 0x08 != 0) = false := by
    rw [World.readReg, if_pos (by decide), and_of_high (econ1Bits_high _ _) 0x08 rfl]
    cases w₁.node.rxen <;> rfl
  rw [← hbit]
  exact (Prog.run_bind_of _ ((Prog.run_bind_of _ hr _).trans rfl) _).trans rfl

theorem write (addr v : UInt8) (haddr : regAddr addr ≠ 0x1F := by decide) :
    Returns env (Enc28j60.write addr v) n () (n.setReg (flatIndex addr) v) := by
  rintro w rfl hw
  obtain ⟨w₁, hr, hn, hbank, hbsel⟩ := run_setBank env (hw.usable addr)
  refine ⟨w₁.writeReg env .wcr addr v, (Prog.run_bind_of _ hr _).trans rfl, ?_, ?_⟩
  · rw [World.writeReg, if_neg haddr, World.bsel_of_coherent hbsel, hn]
    rfl
  · rw [World.writeReg, if_neg haddr]
    exact ⟨addr, hbank, hbsel⟩

/-- Setting or clearing bits of a register of all banks. -/
theorem writeOp {op : UInt8} (addr data : UInt8) (hop : opcode op = .bfs ∨ opcode op = .bfc)
    (haddr : 0x1B ≤ regAddr addr ∧ regAddr addr ≠ 0x1F := by decide) :
    Returns env (Enc28j60.writeOp op addr data) n ()
      (n.setReg (regAddr addr) ((opcode op).apply (n.readReg (regAddr addr)) data)) := by
  refine perform fun w hn => ?_
  have hw : boardStep env (.writeOp op addr data) w =
      ((), w.writeReg env (opcode op) addr data) := by
    rw [boardStep]
    rcases hop with h | h <;> rw [h]
  rw [hw, World.writeReg, if_neg haddr.2, regIndex, if_pos haddr.1, hn]

/-- A command on `ECON1` without bank bits. -/
theorem writeOp_econ1 {op data : UInt8} (hop : opcode op = .bfs ∨ opcode op = .bfc)
    (hdata : data &&& 0x03 = 0)
    (hm : ∀ b, n.setEcon1 env ((opcode op).apply (n.econ1Bits b) data) = m) :
    Returns env (Enc28j60.writeOp op econ1 data) n () m := by
  rintro w rfl hw
  have hstep : boardStep env (.writeOp op econ1 data) w =
      ((), w.writeReg env (opcode op) econ1 data) := by
    rw [boardStep]
    rcases hop with h | h <;> rw [h]
  have hrun : Prog.run (boardStep env) (Enc28j60.writeOp op econ1 data) w =
      (some (), w.writeReg env (opcode op) econ1 data) := by
    rw [Enc28j60.writeOp, Enc28j60.perform, Prog.run_lift, hstep]
  have hkeeps : Keeps (boardStep env) World.bank World.bselByte
      (Enc28j60.writeOp op econ1 data) := by
    refine .writeOp_econ1 (boardStep_banked env) ?_ (beq_iff_eq.mpr hdata)
    rcases hop with h | h <;> rw [h] <;> rfl
  refine ⟨_, hrun, ?_, (hkeeps w hw).of_run hrun⟩
  rw [World.writeReg, if_pos (by decide)]
  exact hm w.bsel

/-- `ECON1.TXRTS` is set. -/
theorem writeOp_txrts : Returns env (Enc28j60.writeOp bitFieldSet econ1 0x08) n ()
    (n.transmit env) := by
  refine writeOp_econ1 (.inl rfl) rfl fun b => ?_
  have hv : (n.econ1Bits b ||| 0x08) &&& 0x0C = if n.rxen then 0x0C else 0x08 := by
    rw [or_and_distrib, econ1Bits_high]
    cases n.rxen <;> rfl
  refine (setEcon1_eq ?_).trans (if_pos ?_)
  · refine congrArg (· != 0) (and_of_high hv 0x04 rfl) |>.trans ?_
    cases n.rxen <;> rfl
  · refine ne_of_eq_of_ne (and_of_high hv 0x08 rfl) ?_
    cases n.rxen <;> decide

/-- `ECON1.TXRTS` is cleared; it was not set. -/
theorem writeOp_clear_txrts : Returns env (Enc28j60.writeOp bitFieldClr econ1 0x08) n () n := by
  refine writeOp_econ1 (.inr rfl) rfl fun b => ?_
  have hv : (n.econ1Bits b &&& ~~~0x08) &&& 0x0C = if n.rxen then 0x04 else 0 := by
    have := econ1Bits_high n b
    rw [UInt8.and_assoc, UInt8.and_comm (~~~0x08), ← UInt8.and_assoc, this]
    cases n.rxen <;> rfl
  refine (setEcon1_eq ?_).trans (if_neg ?_)
  · refine congrArg (· != 0) (and_of_high hv 0x04 rfl) |>.trans ?_
    cases n.rxen <;> rfl
  · refine not_not.mpr ((and_of_high hv 0x08 rfl).trans ?_)
    cases n.rxen <;> rfl

/-! ### Buffer memory and the rest -/

theorem readOp_buffer : Returns env (Enc28j60.readOp readBufMem 0) n (n.mem (n.word 0))
    (n.readMem 1) :=
  perform fun w hn => by rw [← hn]; rfl

theorem readBuf (len : ℕ) :
    Returns env (Enc28j60.readBuf len) n (n.load (n.word 0) len ++ [0]) (n.readMem len) :=
  .bind (perform fun w hn => by rw [← hn]; rfl) (pure _)

theorem writeOp_buffer (data : UInt8) :
    Returns env (Enc28j60.writeOp writeBufMem 0 data) n () (n.writeMem [data]) :=
  perform fun w hn => by rw [← hn]; rfl

theorem writeBuf (data : List UInt8) :
    Returns env (Enc28j60.writeBuf data) n () (n.writeMem data) :=
  perform fun w hn => by rw [← hn]; rfl

theorem intx (enable : Bool) : Returns env (Enc28j60.perform (.intx enable)) n () n :=
  perform fun w hn => by rw [← hn]; rfl

end Returns

end Programs

/-! ## Boards with a log -/

section Log

variable {τ O α β : Type} {R : O → Type}

/-- From a coherent board with node `n` and log `t` the program returns `a`, and leaves a coherent
board with node `m` and log `u`. -/
def LogReturns (step : (o : O) → World × τ → R o × World × τ) (p : Prog O R α) (n : Node) (t : τ)
    (a : α) (m : Node) (u : τ) : Prop :=
  ∀ w : World, w.node = n → w.Coh →
    ∃ w', Prog.run step p (w, t) = (some a, w', u) ∧ w'.node = m ∧ w'.Coh

namespace LogReturns

variable {step : (o : O) → World × τ → R o × World × τ} {n m l : Node} {t u v : τ}

theorem pure (a : α) : LogReturns step (Pure.pure a) n t a n t := fun w hn hw => ⟨w, rfl, hn, hw⟩

theorem bind {p : Prog O R α} {f : α → Prog O R β} {a : α} {b : β}
    (hp : LogReturns step p n t a m u) (hf : LogReturns step (f a) m u b l v) :
    LogReturns step (p >>= f) n t b l v := by
  intro w hn hw
  obtain ⟨w₁, hr, hn₁, hw₁⟩ := hp w hn hw
  obtain ⟨w₂, hr₂, h⟩ := hf w₁ hn₁ hw₁
  exact ⟨w₂, by rw [Prog.run_bind_of _ hr, hr₂], h⟩

end LogReturns

variable (env : Env) (step : (o : Op) → World × τ → o.Res × World × τ)

/-- The log takes no note of the operations in `A`. -/
def Ignores (A : Op → Prop) : Prop :=
  ∀ o, A o → ∀ w t, step o (w, t) = ((boardStep env o w).1, (boardStep env o w).2, t)

variable {env step} {n m : Node} {t u : τ}

theorem Ignores.run {A : Op → Prop} (h : Ignores env step A) {p : DriverProg α}
    (hp : Prog.Only A p) (w : World) (t : τ) : Prog.run step p (w, t) =
      ((Prog.run (boardStep env) p w).1, (Prog.run (boardStep env) p w).2, t) :=
  hp.run_map (f := fun w => (w, t)) (fun o w ho => h o ho w t) w

namespace LogReturns

/-- A program of which the log takes no note. -/
theorem of_returns {A : Op → Prop} (h : Ignores env step A) {p : DriverProg α} {a : α}
    (hr : Returns env p n a m) (hp : Prog.Only A p) : LogReturns step p n t a m t := by
  intro w hn hw
  obtain ⟨w', hr, h'⟩ := hr w hn hw
  exact ⟨w', by rw [h.run hp, hr], h'⟩

/-- An operation that does not touch the bank. -/
theorem perform {o : Op} {r : o.Res}
    (h : ∀ w : World, w.node = n → step o (w, t) = (r, { w with node := m }, u)) :
    LogReturns step (Enc28j60.perform o) n t r m u :=
  fun w hn hw => ⟨{ w with node := m }, by rw [Enc28j60.perform, Prog.run_lift, h w hn], rfl, hw⟩

end LogReturns

/-! ### Counting operations -/

/-- How many operations of a run are in `A`. -/
def issued (env : Env) (A : Op → Bool) (p : DriverProg α) (w : World) : ℕ :=
  (Prog.performed (boardStep env) p w).countP fun o => A o.1

section Counted

variable {A : Op → Bool} {p : DriverProg α} {a : α} {c k : ℕ}

theorem ignores_counted :
    Ignores env (Prog.counted (boardStep env) A) fun o => A o = false := by
  intro o ho w t
  rw [Prog.counted, ho]
  rfl

theorem Returns.counted (h : Returns env p n a m) (hk : ∀ w, issued env A p w = k) :
    LogReturns (Prog.counted (boardStep env) A) p n c a m (c + k) := by
  intro w hn hw
  obtain ⟨w', hr, h'⟩ := h w hn hw
  exact ⟨w', by rw [Prog.run_counted, hr, ← hk w]; rfl, h'⟩

theorem LogReturns.of_counted
    (h : LogReturns (Prog.counted (boardStep env) A) p n 0 a m k) :
    Returns env p n a m ∧ ∀ w : World, w.node = n → w.Coh → issued env A p w = k := by
  have hrun (w : World) (hn : w.node = n) (hw : w.Coh) :
      ∃ w', Prog.run (boardStep env) p w = (some a, w') ∧ issued env A p w = k ∧
        w'.node = m ∧ w'.Coh := by
    obtain ⟨w', hr, h'⟩ := h w hn hw
    rw [Prog.run_counted, Nat.zero_add, Prod.mk.injEq, Prod.mk.injEq] at hr
    exact ⟨w', Prod.ext hr.1 hr.2.1, hr.2.2, h'⟩
  constructor
  · intro w hn hw
    obtain ⟨w', hr, -, h'⟩ := hrun w hn hw
    exact ⟨w', hr, h'⟩
  · intro w hn hw
    obtain ⟨-, -, hk, -⟩ := hrun w hn hw
    exact hk

end Counted

end Log

end Enc28j60

end Enc28j60Udp
