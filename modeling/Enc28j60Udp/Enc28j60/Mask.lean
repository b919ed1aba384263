import Enc28j60Udp.Enc28j60.Driver
import Enc28j60Udp.Foundations.Runs

/-!
# The global interrupt mask

`ENC28J60_Packet_Send` and `ENC28J60_Packet_Receive` open a critical section with `INTX_DISABLE`
and close it with `INTX_ENABLE`. The chip is left open here: `answers` gives the value of every
SPI read and of everything else the driver asks for, so a theorem about all `answers` covers every
reply, that of an SPI transfer that has timed out too.

`ENC28J60_Packet_Receive` does not close its section when it reads `EPKTCNT` as zero.
`mask_clear_iff` says that this is the only way in which the mask stays set, and
`notLeftEmpty_packetReceive_iff` which reply it is.
-/

namespace Enc28j60Udp

namespace Enc28j60

/-! ## Critical sections -/

/-- The last critical section of a call: none is open, one is open, or one was left when `EPKTCNT`
was read as zero in it. -/
inductive Sect
  | closed
  | opened
  | leftEmpty
  deriving DecidableEq

/-- What an operation with its result does to the section. -/
def Sect.next (s : Sect) : (o : Op) → o.Res → Sect
  | .intx false, _ => .opened
  | .intx true, _ => .closed
  | .readOp op addr, v =>
    if s = .opened ∧ op = readCtrlReg ∧ addr = epktcnt ∧ v = 0 then .leftEmpty else s
  | _, _ => s

/-- The processor, as far as the mask is concerned; `time` counts the operations. -/
structure Cpu where
  time : ℕ
  masked : Bool
  sect : Sect
  deriving DecidableEq

section Model

variable (answers : ℕ → (o : Op) → o.Res)

/-- The meaning of an operation, when everything asked for is answered by `answers`. -/
def cpuStep (o : Op) (s : Cpu) : o.Res × Cpu :=
  let r := answers s.time o
  (r,
    { time := s.time + 1
      masked :=
        match o with
        | .intx enable => !enable
        | _ => s.masked
      sect := s.sect.next o r })

/-- The calls of the driver that use critical sections. -/
inductive MaskCall
  | packetSend (packet : List UInt8)
  | packetReceive (maxlen : ℕ)
  | isrHandler

/-- The program of a call. -/
def MaskCall.program (fuel : ℕ) : MaskCall → DriverProg Unit
  | .packetSend packet => Enc28j60.packetSend fuel packet
  | .packetReceive maxlen => do let _ ← Enc28j60.packetReceive fuel maxlen
  | .isrHandler => Enc28j60.isrHandler fuel

/-- A call, with no section of its own at the start. -/
def runCall (fuel : ℕ) (s : Cpu) (c : MaskCall) : Option Unit × Cpu :=
  Prog.run (cpuStep answers) (c.program fuel) { s with sect := .closed }

/-- The processor after a call. -/
def maskStep (fuel : ℕ) (s : Cpu) (c : MaskCall) : Cpu := (runCall answers fuel s c).2

/-- The busy-wait loops of the call end. -/
def LoopsEnd (fuel : ℕ) (s : Cpu) (c : MaskCall) : Prop := (runCall answers fuel s c).1 = some ()

/-- The last critical section of the call is not one that `ENC28J60_Packet_Receive` left because it
read `EPKTCNT` as zero. -/
def NotLeftEmpty (fuel : ℕ) (s : Cpu) (c : MaskCall) : Prop :=
  (maskStep answers fuel s c).sect ≠ .leftEmpty

end Model

/-! ## The programs -/

section Programs

variable {answers : ℕ → (o : Op) → o.Res} {s : Cpu}

/-- Inside a section. -/
def Cpu.Inside (s : Cpu) : Prop := s.masked = true ∧ s.sect = .opened

/-- Behind a section that was closed. -/
def Cpu.Closed (s : Cpu) : Prop := s.masked = false ∧ s.sect = .closed

/-- Behind a section that was left without closing it. -/
def Cpu.LeftEmpty (s : Cpu) : Prop := s.masked = true ∧ s.sect = .leftEmpty

/-- Outside of sections. -/
def Cpu.Outside (s : Cpu) : Prop := s.Closed ∨ s.LeftEmpty

/-- An operation that neither opens nor closes a section, nor looks at `EPKTCNT`. -/
def Quiet : Op → Prop
  | .intx _ => False
  | .readOp _ addr => addr ≠ epktcnt
  | _ => True

@[simp] theorem cpuStep_fst (o : Op) (s : Cpu) : (cpuStep answers o s).1 = answers s.time o := rfl

@[simp] theorem cpuStep_time (o : Op) (s : Cpu) : (cpuStep answers o s).2.time = s.time + 1 := rfl

theorem cpuStep_of_quiet {o : Op} (ho : Quiet o) (s : Cpu) :
    (cpuStep answers o s).2 = { s with time := s.time + 1 } := by
  cases o with
  | intx enable => exact ho.elim
  | readOp op addr =>
    have hsect : s.sect.next (.readOp op addr) (answers s.time (.readOp op addr)) = s.sect :=
      if_neg fun h => ho h.2.2.1
    simp only [cpuStep, hsect]
  | _ => rfl

theorem quiet_bank : SelectsBank Quiet where
  getBank := trivial
  clear := trivial
  set _ := trivial
  setBank _ := trivial

/-- A quiet program keeps what holds of the mask and the section. -/
theorem meets_quiet {α : Type} {p : DriverProg α} (hp : Prog.Only Quiet p) {I : Cpu → Prop}
    (hI : ∀ s t, I s → I { s with time := t }) (hs : I s) :
    Prog.Meets (cpuStep answers) (fun _ _ => True) p (fun _ => I) s := by
  refine hp.meets (fun o s ho hs => ⟨trivial, ?_⟩) hs
  rw [cpuStep_of_quiet ho]
  exact hI s _ hs

/-- A quiet program inside a section, and what follows it. -/
theorem meets_inside_bind {α β : Type} {p : DriverProg α} {f : α → DriverProg β}
    {Q : β → Cpu → Prop} (hp : Prog.Only Quiet p) (hs : s.Inside)
    (hf : ∀ a s, s.Inside → Prog.Meets (cpuStep answers) (fun _ _ => True) (f a) Q s) :
    Prog.Meets (cpuStep answers) (fun _ _ => True) (p >>= f) Q s :=
  (meets_quiet hp (fun _ _ => id) hs).bind hf

/-- `INTX_DISABLE` opens a section. -/
theorem meets_intx_false {α : Type} {f : Unit → DriverProg α} {Q : α → Cpu → Prop}
    (hf : ∀ s, s.Inside → Prog.Meets (cpuStep answers) (fun _ _ => True) (f ()) Q s) :
    Prog.Meets (cpuStep answers) (fun _ _ => True) (perform (.intx false) >>= f) Q s :=
  .lift_bind trivial (hf _ ⟨rfl, rfl⟩)

/-- `INTX_ENABLE` closes it. -/
theorem meets_intx_true {α : Type} {f : Unit → DriverProg α} {Q : α → Cpu → Prop}
    (hf : ∀ s, s.Closed → Prog.Meets (cpuStep answers) (fun _ _ => True) (f ()) Q s) :
    Prog.Meets (cpuStep answers) (fun _ _ => True) (perform (.intx true) >>= f) Q s :=
  .lift_bind trivial (hf _ ⟨rfl, rfl⟩)

theorem quiet_write (addr data : UInt8) : Prog.Only Quiet (write addr data) :=
  quiet_bank.only_write trivial

/-- A busy-wait on a register other than `EPKTCNT`. -/
theorem quiet_wait {addr : UInt8} (h : addr ≠ epktcnt) (mask : UInt8) (fuel : ℕ) :
    Prog.Only Quiet (Prog.whileDo (testBits addr mask) (pure ()) fuel) :=
  .whileDo (quiet_bank.only_testBits h mask) (.pure ()) fuel

theorem quiet_readBufWord : Prog.Only Quiet readBufWord :=
  only_readBufWord (show (0 : UInt8) ≠ epktcnt by decide)

theorem quiet_writeControl (len : ℕ) : Prog.Only Quiet (writeControl len) :=
  .ite (.bind (quiet_write _ _) fun _ => .lift trivial) (.lift trivial)

/-- `ENC28J60_Packet_Send` closes its section. -/
theorem meets_packetSend (fuel : ℕ) (packet : List UInt8) (s : Cpu) :
    Prog.Meets (cpuStep answers) (fun _ _ => True) (packetSend fuel packet)
      (fun _ => Cpu.Closed) s := by
  refine meets_intx_false fun s hs => ?_
  refine meets_inside_bind (quiet_wait (by decide) _ fuel) hs fun _ s hs => ?_
  refine meets_inside_bind (quiet_write ewrptl _) hs fun _ s hs => ?_
  refine meets_inside_bind (quiet_write ewrpth _) hs fun _ s hs => ?_
  refine meets_inside_bind (quiet_write etxndl _) hs fun _ s hs => ?_
  refine meets_inside_bind (quiet_write etxndh _) hs fun _ s hs => ?_
  refine meets_inside_bind (quiet_writeControl _) hs fun _ s hs => ?_
  refine meets_inside_bind (.lift trivial) hs fun _ s hs => ?_
  refine meets_inside_bind (.lift trivial) hs fun _ s hs => ?_
  refine meets_inside_bind (quiet_bank.only_testBits (show eir ≠ epktcnt by decide) _) hs
    fun error s hs => ?_
  refine meets_inside_bind (.ite (.lift trivial) (.pure ())) hs fun _ s hs => ?_
  exact .lift trivial ⟨rfl, rfl⟩

variable (answers) in
/-- The value that `ENC28J60_Packet_Receive`, started at time `t`, reads from `EPKTCNT`; where it
stands among the replies depends on the bank that is cached. -/
def countReply (t : ℕ) : UInt8 :=
  let t' := if epktcnt &&& bankMask ≠ answers (t + 1) .getBank then t + 5 else t + 2
  answers t' (.readOp readCtrlReg epktcnt)

/-- The read of `EPKTCNT` in a section: zero leaves it. -/
theorem meets_read_epktcnt (hs : s.Inside) {t : ℕ} (ht : s.time = t + 1) :
    Prog.Meets (cpuStep answers) (fun _ _ => True) (read epktcnt)
      (fun v s' => v = countReply answers t ∧ if v = 0 then s'.LeftEmpty else s'.Inside) s := by
  have hread {s' : Cpu} (hs' : s'.Inside)
      (hreply : answers s'.time (.readOp readCtrlReg epktcnt) = countReply answers t) :
      Prog.Meets (cpuStep answers) (fun _ _ => True) (readOp readCtrlReg epktcnt)
        (fun v s' => v = countReply answers t ∧ if v = 0 then s'.LeftEmpty else s'.Inside) s' := by
    refine .lift trivial ⟨hreply, ?_⟩
    split
    · exact ⟨hs'.1, if_pos ⟨hs'.2, rfl, rfl, ‹_›⟩⟩
    · exact ⟨hs'.1, (if_neg fun h => ‹¬_› h.2.2.2).trans hs'.2⟩
  have hbank : Prog.Meets (cpuStep answers) (fun _ _ => True) (setBank epktcnt)
      (fun _ s' => s'.Inside ∧
        answers s'.time (.readOp readCtrlReg epktcnt) = countReply answers t) s := by
    refine .lift_bind trivial (.ite (fun hne => ?_) fun heq => ?_)
    · refine .lift_bind trivial (.lift_bind trivial (.lift trivial ⟨hs, ?_⟩))
      rw [cpuStep_fst, ht] at hne
      simp only [countReply, if_pos hne, cpuStep_time, ht]
    · refine ⟨hs, ?_⟩
      rw [cpuStep_fst, ht] at heq
      simp only [countReply, if_neg heq, cpuStep_time, ht]
  exact hbank.bind fun _ s' h => hread h.1 h.2

/-- `ENC28J60_Packet_Receive` closes its section, or leaves it. -/
theorem meets_packetReceive (fuel maxlen : ℕ) (s : Cpu) :
    Prog.Meets (cpuStep answers) (fun _ _ => True) (packetReceive fuel maxlen)
      (fun _ s' => if countReply answers s.time = 0 then s'.LeftEmpty else s'.Closed) s := by
  refine .lift_bind trivial ?_
  refine (meets_read_epktcnt ⟨rfl, rfl⟩ rfl).bind fun count s' hs => ?_
  obtain ⟨rfl, hs⟩ := hs
  by_cases hcount : countReply answers s.time = 0
  · rw [if_pos hcount] at hs ⊢
    simp only [if_pos hcount]
    exact hs
  · rw [if_neg hcount] at hs ⊢
    simp only [if_neg hcount]
    refine meets_inside_bind (quiet_wait (by decide) _ fuel) hs fun _ s hs => ?_
    refine meets_inside_bind (.lift trivial) hs fun ptr s hs => ?_
    refine meets_inside_bind (quiet_write erdptl _) hs fun _ s hs => ?_
    refine meets_inside_bind (quiet_write erdpth _) hs fun _ s hs => ?_
    refine meets_inside_bind quiet_readBufWord hs fun next s hs => ?_
    refine meets_inside_bind (.lift trivial) hs fun _ s hs => ?_
    refine meets_inside_bind quiet_readBufWord hs fun field s hs => ?_
    refine meets_inside_bind quiet_readBufWord hs fun rxstat s hs => ?_
    refine meets_inside_bind (only_readData (fun _ => trivial) maxlen field rxstat) hs
      fun received s hs => ?_
    refine meets_inside_bind (quiet_write erxrdptl _) hs fun _ s hs => ?_
    refine meets_inside_bind (quiet_write erxrdpth _) hs fun _ s hs => ?_
    refine meets_inside_bind (.lift trivial) hs fun _ s hs => ?_
    exact meets_intx_true fun s hs => hs

/-! ### The handler -/

/-- The programs that stay outside of sections, or come back there. -/
def KeepsOutside {α : Type} (answers : ℕ → (o : Op) → o.Res) (p : DriverProg α) : Prop :=
  ∀ s : Cpu, s.Outside →
    Prog.Meets (cpuStep answers) (fun _ _ => True) p (fun _ => Cpu.Outside) s

namespace KeepsOutside

variable {α β : Type}

theorem quiet {p : DriverProg α} (hp : Prog.Only Quiet p) : KeepsOutside answers p :=
  fun _ hs => meets_quiet hp (fun _ _ => id) hs

theorem perform {o : Op} (ho : Quiet o := by trivial) :
    KeepsOutside answers (Enc28j60.perform o) := quiet (.lift ho)

theorem bind {p : DriverProg α} {f : α → DriverProg β} (hp : KeepsOutside answers p)
    (hf : ∀ a, KeepsOutside answers (f a)) : KeepsOutside answers (p >>= f) :=
  fun s hs => (hp s hs).bind fun a s' hs' => hf a s' hs'

theorem ite {c : Prop} [Decidable c] {p q : DriverProg α} (hp : KeepsOutside answers p)
    (hq : KeepsOutside answers q) : KeepsOutside answers (if c then p else q) :=
  fun s hs => .ite (fun _ => hp s hs) fun _ => hq s hs

theorem when {c : Prop} [Decidable c] {p : DriverProg Unit} (hp : KeepsOutside answers p) :
    KeepsOutside answers (Prog.when c p) := ite hp (quiet (.pure ()))

/-- Outside of a section the value of `EPKTCNT` does not matter. -/
theorem read (addr : UInt8) : KeepsOutside answers (Enc28j60.read addr) := by
  refine bind (quiet (quiet_bank.only_setBank addr)) fun _ s hs => .lift trivial ?_
  have hne : s.sect ≠ .opened := by
    rcases hs with hs | hs <;> simp [hs.2]
  have hsect : s.sect.next (.readOp readCtrlReg addr)
      (answers s.time (.readOp readCtrlReg addr)) = s.sect := if_neg fun h => hne h.1
  exact hs.imp (fun hs => ⟨hs.1, hsect.trans hs.2⟩) fun hs => ⟨hs.1, hsect.trans hs.2⟩

theorem packetReceive (fuel maxlen : ℕ) :
    KeepsOutside answers (Enc28j60.packetReceive fuel maxlen) := by
  refine fun s _ => (meets_packetReceive fuel maxlen s).imp fun _ s' h => ?_
  split at h
  · exact Or.inr h
  · exact Or.inl h

theorem packetSend (fuel : ℕ) (packet : List UInt8) :
    KeepsOutside answers (Enc28j60.packetSend fuel packet) :=
  fun s _ => (meets_packetSend fuel packet s).imp fun _ _ h => Or.inl h

theorem lowLevelOutput (fuel : ℕ) (packet : List UInt8) :
    KeepsOutside answers (Enc28j60.lowLevelOutput fuel packet) :=
  bind perform fun _ => ite (fun _ _ => trivial) (bind (packetSend fuel packet) fun _ => perform)

theorem lowLevelInput (fuel : ℕ) : KeepsOutside answers (Enc28j60.lowLevelInput fuel) :=
  bind perform fun _ => ite (quiet (.pure _)) (bind (packetReceive fuel maxFramelen) fun _ =>
    bind perform fun _ => bind perform fun _ => quiet (.pure _))

theorem ethernetifInput (fuel : ℕ) : KeepsOutside answers (Enc28j60.ethernetifInput fuel) := by
  refine bind (lowLevelInput fuel) fun packet => ?_
  cases packet with
  | none => exact quiet (.pure ())
  | some packet =>
    refine bind perform fun reply s hs => ?_
    exact .forM (fun frame _ => lowLevelOutput fuel frame) hs

theorem receiveError : KeepsOutside answers Enc28j60.receiveError :=
  bind perform fun _ => bind (read epktcnt) fun _ => bind (read _) fun _ => bind (read _) fun _ =>
    bind (quiet (quiet_write _ _)) fun _ => bind (quiet (quiet_write _ _)) fun _ => perform

theorem isrHandler (fuel : ℕ) : KeepsOutside answers (Enc28j60.isrHandler fuel) := by
  refine bind perform fun _ => bind (read eir) fun status => ?_
  refine bind (when (bind perform fun _ => ethernetifInput fuel)) fun _ => ?_
  refine bind (when perform) fun _ => bind (when receiveError) fun _ => ?_
  exact bind (when (bind perform fun _ => perform)) fun _ => perform

/-- Every call comes back outside of sections. -/
theorem call (fuel : ℕ) (c : MaskCall) : KeepsOutside answers (c.program fuel) := by
  cases c with
  | packetSend packet => exact packetSend fuel packet
  | packetReceive maxlen =>
    exact bind (packetReceive fuel maxlen) fun _ => quiet (.pure _)
  | isrHandler => exact isrHandler fuel

end KeepsOutside

end Programs

/-! ## Runs of calls -/

section Runs

variable (answers : ℕ → (o : Op) → o.Res) (fuel : ℕ)

/-- A call that starts with the mask clear and returns leaves it clear, unless it left its last
section on an empty `EPKTCNT`. -/
theorem maskStep_clear_iff {s : Cpu} {c : MaskCall} (hret : LoopsEnd answers fuel s c)
    (hs : s.masked = false) :
    (maskStep answers fuel s c).masked = false ↔ NotLeftEmpty answers fuel s c := by
  have hstart : Cpu.Outside { s with sect := .closed } := Or.inl ⟨hs, rfl⟩
  have hrun : Prog.run (cpuStep answers) (c.program fuel) { s with sect := .closed } =
      (some (), maskStep answers fuel s c) := Prod.ext hret rfl
  have hout : (maskStep answers fuel s c).Outside :=
    ((KeepsOutside.call fuel c) _ hstart).of_run hrun
  rw [NotLeftEmpty]
  rcases hout with ⟨hmask, hsect⟩ | ⟨hmask, hsect⟩ <;> simp [hmask, hsect]

/-- `ENC28J60_Packet_Send` never leaves a section. -/
theorem notLeftEmpty_packetSend (s : Cpu) {packet : List UInt8}
    (hret : LoopsEnd answers fuel s (.packetSend packet)) :
    NotLeftEmpty answers fuel s (.packetSend packet) := by
  have hclosed : (maskStep answers fuel s (.packetSend packet)).Closed :=
    (meets_packetSend fuel packet _).of_run (a := ()) (Prod.ext hret rfl)
  rw [NotLeftEmpty, hclosed.2]
  decide

/-- `ENC28J60_Packet_Receive` leaves its section exactly when its read of `EPKTCNT` gives zero. -/
theorem notLeftEmpty_packetReceive_iff (s : Cpu) {maxlen : ℕ}
    (hret : LoopsEnd answers fuel s (.packetReceive maxlen)) :
    NotLeftEmpty answers fuel s (.packetReceive maxlen) ↔ countReply answers s.time ≠ 0 := by
  have hmeets : Prog.Meets (cpuStep answers) (fun _ _ => True)
      (MaskCall.program fuel (.packetReceive maxlen))
      (fun _ s' => if countReply answers s.time = 0 then s'.LeftEmpty else s'.Closed)
      { s with sect := .closed } :=
    (meets_packetReceive fuel maxlen _).bind fun _ _ h => h
  have hrun : Prog.run (cpuStep answers) (MaskCall.program fuel (.packetReceive maxlen))
      { s with sect := .closed } =
        (some (), maskStep answers fuel s (.packetReceive maxlen)) := Prod.ext hret rfl
  have hafter := hmeets.of_run hrun
  rw [NotLeftEmpty]
  split at hafter
  · exact iff_of_false (fun h => h hafter.2) (fun h => h ‹_›)
  · exact iff_of_true (by rw [hafter.2]; decide) ‹_›

/-- **The interrupt mask.** For all replies and every sequence of calls that starts with interrupts
enabled and whose busy-wait loops end, the mask is clear between the calls exactly when no call
leaves its last critical section because `EPKTCNT` reads as zero there. -/
theorem mask_clear_iff {s : Cpu} (hs : s.masked = false) {calls : List MaskCall}
    (hret : Runs.Along (maskStep answers fuel) (LoopsEnd answers fuel) s calls) :
    Runs.Always (maskStep answers fuel) (fun s => s.masked = false) s calls ↔
      Runs.Along (maskStep answers fuel) (NotLeftEmpty answers fuel) s calls :=
  Runs.always_iff_along_of_along (P := fun s => s.masked = false)
    (fun _ _ hret hs => maskStep_clear_iff answers fuel hret hs) hret hs

/-- Replies in which every read gives `v`, as a timed out transfer gives `0`; there is no memory
for a buffer. -/
def sameReplies (v : UInt8) (_ : ℕ) : (o : Op) → o.Res
  | .rst => ()
  | .readOp _ _ => v
  | .writeOp _ _ _ => ()
  | .readBuf len => List.replicate len v
  | .writeBuf _ => ()
  | .getBank => 0
  | .setBank _ => ()
  | .getNext => 0
  | .setNext _ => ()
  | .getUid => 0
  | .setMacaddr _ => ()
  | .intx _ => ()
  | .intPin => true
  | .mymalloc _ => 0
  | .myfree _ => ()
  | .pbufAlloc _ => false
  | .netifInput _ => ([], true)

/-- Interrupts are enabled. -/
def enabledCpu : Cpu := ⟨0, false, .closed⟩

/-- A packet is sent and one is received, where all reads give `0x10`. -/
theorem mask_clear_sendReceive :
    Runs.Always (maskStep (sameReplies 0x10) 0) (fun s => s.masked = false) enabledCpu
        [.packetSend [0x55], .packetReceive 1518] ↔
      Runs.Along (maskStep (sameReplies 0x10) 0) (NotLeftEmpty (sameReplies 0x10) 0) enabledCpu
        [.packetSend [0x55], .packetReceive 1518] :=
  mask_clear_iff (sameReplies 0x10) 0 rfl
    (Runs.along_cons.mpr ⟨rfl, Runs.along_cons.mpr ⟨rfl, Runs.along_nil⟩⟩)

/-- The transfers time out: `ENC28J60_Packet_Receive` returns with the mask set. -/
theorem mask_not_clear_timeout :
    Runs.Along (maskStep (sameReplies 0) 0) (LoopsEnd (sameReplies 0) 0) enabledCpu
        [.packetReceive 1518] ∧
      ¬Runs.Always (maskStep (sameReplies 0) 0) (fun s => s.masked = false) enabledCpu
        [.packetReceive 1518] := by
  refine ⟨Runs.along_cons.mpr ⟨rfl, Runs.along_nil⟩, fun h => ?_⟩
  have hlast := h [.packetReceive 1518] [] rfl
  revert hlast
  decide

end Runs

end Enc28j60

end Enc28j60Udp
