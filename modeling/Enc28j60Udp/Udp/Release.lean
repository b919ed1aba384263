import Enc28j60Udp.Foundations.Leads
import Enc28j60Udp.Udp.Lifecycle

/-!
# What a session gives back

Interrupts keep the table of the pool, `udp_demo_sendbuf` and bit 5 of `udp_demo_flag`, and call no
function of the PCB, so these are what `udp_demo_test` is judged by (`Held`). `Leads.udpDemoTest` is
all that it does to them, and `clean_iff_getsPcb` says exactly when it gives back what it took: the
exit path closes the connection also when `udp_new` has returned `NULL`.

What holds of a send of the session holds without interrupts of a call of `udp_demo_senddata`
(`memmap_udpDemoSenddata`).
-/

namespace Enc28j60Udp

namespace Lifecycle

/-! ## What the session holds -/

/-- The part of a session that no interrupt changes. -/
structure Held where
  map : ℕ → ℕ
  sendbuf : ℕ
  bit5 : UInt8
  log : List PcbCall

def Session.held (s : Session) : Held :=
  ⟨s.pool.memmap, s.sendbuf, s.demo.flag &&& 0x20, s.log⟩

/-- A session is judged by this part, and may wait for keys forever. -/
def testScope (P : Placement) (r : Outcome) : Prog.Scope TestOp TestOp.Res Session Held where
  step := testStep P r
  inv s := s.pool.memrdy = true
  view := Session.held
  mayHang := True

theorem set_bit6_bit5 (f : UInt8) : (f ||| 0x40) &&& 0x20 = f &&& 0x20 := by
  have h : ∀ v : BitVec 8, (UInt8.ofBitVec v ||| 0x40) &&& 0x20 = UInt8.ofBitVec v &&& 0x20 := by
    decide
  exact h f.toBitVec

/-- A datagram leaves what is held alone. -/
theorem receive_keeps (s : Session) (g : Datagram) :
    (receive s g).pool = s.pool ∧ (receive s g).held = s.held := by
  unfold receive
  split
  · split
    · rename_i demo ws hrecv
      have hflag : demo.flag = s.demo.flag ||| 0x40 := by
        simp only [udpDemoRecv, Option.bind_eq_bind, Option.bind_eq_some_iff] at hrecv
        obtain ⟨buf, -, sendrecv, -, hrecv⟩ := hrecv
        obtain ⟨rfl, -⟩ := Prod.mk.inj (Option.some.inj hrecv)
        rfl
      refine ⟨rfl, ?_⟩
      simp only [Session.held, hflag, set_bit6_bit5]
    · exact ⟨rfl, rfl⟩
  · exact ⟨rfl, rfl⟩

/-- An interrupt leaves what is held alone. -/
theorem allows_irq (P : Placement) (r : Outcome) (i : TestIrq) (s : Session) :
    (testScope P r).Allows s (i.apply P s) := by
  intro hrdy
  have hrdy : s.pool.memrdy = true := hrdy
  have hpool : handler P .sramin i.input s.pool = s.pool := handler_fit hrdy i.input
  have hfold : ∀ (gs : List Datagram) (s : Session),
      (gs.foldl receive s).pool = s.pool ∧ (gs.foldl receive s).held = s.held := by
    intro gs
    induction gs with
    | nil => exact fun s => ⟨rfl, rfl⟩
    | cons g gs ih =>
      intro s
      obtain ⟨hp, hh⟩ := receive_keeps s g
      obtain ⟨ihp, ihh⟩ := ih (receive s g)
      exact ⟨ihp.trans hp, ihh.trans hh⟩
  obtain ⟨hp, hh⟩ := hfold i.datagrams
    { s with pool := handler P .sramin i.input s.pool, outside := i.outside }
  have hheld : (i.apply P s).held = s.held := by
    refine hh.trans ?_
    simp only [Session.held, hpool]
  refine ⟨?_, hheld⟩
  change (i.apply P s).pool.memrdy = true
  rw [TestIrq.apply, hp, hpool]
  exact hrdy

/-- The table `m'` is `m` with the block `ptr` of `size` bytes granted. -/
def Granted (P : Placement) (m : ℕ → ℕ) (size ptr : ℕ) (m' : ℕ → ℕ) : Prop :=
  ∃ o, grant .sramin m size = some o ∧ ptr = blockAddr P .sramin o ∧
    m' = fill m o (nmembOf .sramin size) (nmembOf .sramin size)

theorem Granted.ne_null {P : Placement} {m m' : ℕ → ℕ} {size ptr : ℕ}
    (h : Granted P m size ptr m') : ptr ≠ null := by
  obtain ⟨o, -, rfl, -⟩ := h
  exact blockAddr_ne_null P .sramin o

namespace Leads

variable {P : Placement} {r : Outcome} {w : Held}

/-- An operation that keeps the pool ready, and what is held. -/
theorem keeps {o : TestOp} (hpool : ∀ s, (testStep P r o s).2.pool.memrdy = s.pool.memrdy)
    (hheld : ∀ s, (testStep P r o s).2.held = s.held) :
    Prog.Leads (testScope P r) (call o) w fun _ w' => w' = w :=
  .keeps fun s hs => ⟨(hpool s).trans hs, hheld s⟩

/-- An operation outside the pool. -/
theorem does {o : TestOp} (g : Held → Held)
    (hpool : ∀ s, (testStep P r o s).2.pool.memrdy = s.pool.memrdy)
    (hheld : ∀ s, (testStep P r o s).2.held = g s.held) :
    Prog.Leads (testScope P r) (call o) w fun _ w' => w' = g w :=
  .does g fun s hs => ⟨(hpool s).trans hs, hheld s⟩

theorem mymalloc (size : ℕ) :
    Prog.Leads (testScope P r) (call (.mymalloc size)) w fun ptr w' =>
      (grant .sramin w.map size = none ∧ ptr = null ∧ w' = w) ∨
        ∃ m, Granted P w.map size ptr m ∧ w' = { w with map := m } := by
  apply Prog.Leads.lift
  rintro s hs rfl
  have hs : s.pool.memrdy = true := hs
  cases hg : grant .sramin s.pool.memmap size with
  | none =>
    have hstep : (testScope P r).step (.mymalloc size) s = (null, s) := by
      simp only [testScope, testStep, run_mymalloc_of_none P .sramin hs hg, Option.getD_some]
    rw [hstep]
    exact ⟨hs, Or.inl ⟨hg, rfl, rfl⟩⟩
  | some o =>
    have hstep := run_mymalloc_of_some P .sramin hs hg
    simp only [testScope, testStep, hstep]
    exact ⟨hs, Or.inr ⟨_, ⟨o, hg, rfl, rfl⟩, rfl⟩⟩

theorem myfree_null : Prog.Leads (testScope P r) (call (.myfree null)) w fun _ w' => w' = w :=
  keeps (fun _ => rfl) fun _ => rfl

/-- Freeing what was granted restores the table. -/
theorem myfree {m : ℕ → ℕ} {size ptr : ℕ} (hsize : size ≤ maxRequest)
    (hg : Granted P m size ptr w.map) :
    Prog.Leads (testScope P r) (call (.myfree ptr)) w fun _ w' => w' = { w with map := m } := by
  obtain ⟨o, hg, rfl, hmap⟩ := hg
  apply Prog.Leads.lift
  rintro s hs rfl
  have hs : s.pool.memrdy = true := hs
  have hrun := run_myfree P .sramin hs (grant_lt .sramin hg)
  have hback := Overlay.fill_grant_restore hsize hg hmap
  change _ = true ∧ _
  simp only [testScope, testStep, hrun]
  exact ⟨hs, congrArg (fun m => Held.mk m _ _ _) hback⟩

theorem setRemoteip (i : Fin 4) (v : UInt8) :
    Prog.Leads (testScope P r) (call (.wrRemoteip i v)) w fun _ w' => w' = w :=
  keeps (fun _ => rfl) fun _ => rfl

theorem copyIp (i : Fin 4) : Prog.Leads (testScope P r) (copyIp i) w fun _ w' => w' = w := by
  refine (keeps (fun _ => rfl) fun _ => rfl).seq fun v => ?_
  exact setRemoteip i _

theorem remoteipLoop (fuel : ℕ) :
    Prog.Leads (testScope P r) (remoteipLoop fuel) w fun _ w' => w' = w := by
  have hwhen : ∀ (k key : ℕ) (g : Vector UInt8 4 → UInt8), Prog.Leads (testScope P r)
      (Prog.when (key = k) (do let v ← call .rdRemoteip; call (.wrRemoteip 3 (g v)))) w
      fun _ w' => w' = w := by
    intro k key g
    refine .when (fun _ => ?_) fun _ => rfl
    refine (keeps (fun _ => rfl) fun _ => rfl).seq fun v => ?_
    exact setRemoteip 3 _
  induction fuel with
  | zero => exact .hang trivial
  | succ fuel ih =>
    refine (keeps (fun _ => rfl) fun _ => rfl).seq fun key => ?_
    refine .ite (fun _ => .pure rfl) fun _ => ?_
    refine (hwhen key1Pres key fun v => v[3]! + 1).seq fun _ => ?_
    refine (hwhen key0Pres key fun v => v[3]! - 1).seq fun _ => ?_
    exact ih

/-- `udp_demo_set_remoteip` gives back its buffer. -/
theorem udpDemoSetRemoteip (fuel : ℕ) :
    Prog.Leads (testScope P r) (udpDemoSetRemoteip fuel) w fun _ w' => w' = w := by
  refine (mymalloc 100).bind ?_
  rintro tbuf w' (⟨-, rfl, rfl⟩ | ⟨m, hg, rfl⟩)
  · exact .ite (fun _ => .pure rfl) fun h => absurd rfl h
  · refine .ite (fun h => absurd h hg.ne_null) fun _ => ?_
    refine (copyIp 0).seq fun _ => ?_
    refine (copyIp 1).seq fun _ => ?_
    refine (copyIp 2).seq fun _ => ?_
    refine (setRemoteip 3 1).seq fun _ => ?_
    refine (keeps (fun _ => rfl) fun _ => rfl).seq fun v => ?_
    refine (keeps (fun _ => rfl) fun _ => rfl).seq fun _ => ?_
    refine (remoteipLoop fuel).seq fun _ => ?_
    exact myfree (by decide) hg

theorem sendbufLen : Prog.Leads (testScope P r) sendbufLen w fun _ w' => w' = w := by
  refine (keeps (fun _ => rfl) fun _ => rfl).seq fun n => ?_
  cases n with
  | none => exact .hang trivial
  | some n => exact .pure rfl

theorem readSensor : Prog.Leads (testScope P r) (call .readSensor) w fun _ w' => w' = w := by
  refine keeps (fun s => ?_) fun s => ?_
  all_goals
    simp only [testStep, Session.readSensor]
    split <;> rfl

theorem output {o : TestOp} (ho : ∀ s, (testStep P r o s).2 = s.output P) :
    Prog.Leads (testScope P r) (call o) w fun _ w' => w' = w := by
  refine .keeps fun s hs => ?_
  have hpool : handler P .sramin s.outside.output s.pool = s.pool := handler_fit hs _
  have hstep : ((testScope P r).step o s).2 = s.output P := ho s
  rw [hstep, Session.output, hpool]
  exact ⟨hs, rfl⟩

theorem rdSendbuf : Prog.Leads (testScope P r) (call .rdSendbuf) w fun buf w' =>
    buf = w.sendbuf ∧ w' = w :=
  .lift fun _ hs hw => ⟨hs, congrArg Held.sendbuf hw, hw⟩

/-- From the store of the pointer to its `myfree`, only the block changes hands. -/
theorem sendAndFree (pcb : ℕ) {w' : Held}
    (hfree : Prog.Leads (testScope P r) (call (.myfree w.sendbuf)) w fun _ w₁ => w₁ = w') :
    Prog.Leads (testScope P r) (do
      call .setdata
      call .setsendbuf
      let _ ← Lifecycle.sendbufLen
      let n ← Lifecycle.sendbufLen
      call (.udpSend pcb n)
      let buf ← call .rdSendbuf
      call (.myfree buf)) w fun _ w₁ => w₁ = w' := by
  refine (keeps (fun _ => rfl) fun _ => rfl).seq fun _ => ?_
  refine (keeps (fun _ => rfl) fun _ => rfl).seq fun _ => ?_
  refine sendbufLen.seq fun _ => ?_
  refine sendbufLen.seq fun n => ?_
  refine (output fun _ => rfl).seq fun _ => ?_
  refine rdSendbuf.bind ?_
  rintro buf _ ⟨rfl, rfl⟩
  exact hfree

/-- `udp_demo_senddata` gives back its buffer, if it got one. -/
theorem udpDemoSenddata (pcb : ℕ) : Prog.Leads (testScope P r) (udpDemoSenddata pcb) w
    fun _ w' => ∃ b, w' = { w with sendbuf := b } := by
  refine sendbufLen.seq fun len => ?_
  refine (keeps (fun _ => rfl) fun _ => rfl).seq fun ptr => ?_
  refine .when (fun _ => ?_) fun _ => ⟨_, rfl⟩
  refine readSensor.seq fun _ => ?_
  refine (keeps (fun _ => rfl) fun _ => rfl).seq fun length => ?_
  have hsize : length.toNat + 1 ≤ maxRequest := by
    have := length.toNat_lt
    unfold maxRequest
    omega
  refine (mymalloc _).bind ?_
  rintro buf w' h
  refine (does (fun w => { w with sendbuf := buf }) (fun _ => rfl) fun _ => rfl).seq fun _ => ?_
  obtain ⟨-, rfl, rfl⟩ | ⟨m, hg, rfl⟩ := h
  · exact (sendAndFree pcb myfree_null).imp fun _ _ h => ⟨_, h⟩
  · exact (sendAndFree pcb (myfree hsize hg)).imp fun _ _ h => ⟨buf, h⟩

theorem wrFlag (v : UInt8) : Prog.Leads (testScope P r) (call (.wrFlag v)) w fun _ w' =>
    w' = { w with bit5 := v &&& 0x20 } :=
  does (fun w => { w with bit5 := v &&& 0x20 }) (fun _ => rfl) fun _ => rfl

theorem setFlag (bits : UInt8) : Prog.Leads (testScope P r) (setFlag bits) w fun _ w' =>
    ∃ b, w' = { w with bit5 := b } := by
  refine (keeps (fun _ => rfl) fun _ => rfl).seq fun v => ?_
  exact (wrFlag _).imp fun _ _ h => ⟨_, h⟩

/-- What is read from the flag has the bit 5 that is held. -/
theorem clearFlag (bits : UInt8) : Prog.Leads (testScope P r) (clearFlag bits) w fun _ w' =>
    ∃ v, v &&& 0x20 = w.bit5 ∧ w' = { w with bit5 := (v &&& ~~~bits) &&& 0x20 } := by
  have hread : Prog.Leads (testScope P r) (call .rdFlag) w fun v w' =>
      v &&& 0x20 = w.bit5 ∧ w' = w :=
    .lift fun s hs hw => ⟨hs, congrArg Held.bit5 hw, hw⟩
  refine hread.bind ?_
  rintro v _ ⟨hv, rfl⟩
  exact (wrFlag _).imp fun _ _ h => ⟨v, hv, h⟩

theorem connectPcb (pcb : ℕ) : Prog.Leads (testScope P r) (connectPcb pcb) w fun _ w' =>
    ∃ b, w' = { w with bit5 := b } := by
  refine .ite (fun _ => .pure ⟨_, rfl⟩) fun _ => ?_
  refine (keeps (fun _ => rfl) fun _ => rfl).seq fun v => ?_
  refine (keeps (fun s => ?_) fun s => ?_).bind ?_
  · simp only [testStep]
    split <;> rfl
  · simp only [testStep]
    split <;> rfl
  rintro err _ rfl
  refine .ite (fun _ => ?_) fun _ => .pure ⟨_, rfl⟩
  refine (keeps (fun _ => rfl) fun _ => rfl).seq fun err => ?_
  refine .ite (fun _ => ?_) fun _ => .pure ⟨_, rfl⟩
  refine (keeps (fun _ => rfl) fun _ => rfl).seq fun _ => ?_
  exact (setFlag 0x20).bind fun _ _ h => .pure h

theorem clear_bit6_bit5 (f : UInt8) : (f &&& ~~~0x40) &&& 0x20 = f &&& 0x20 := by
  rw [UInt8.and_assoc]
  rfl

/-- The loop's answer to a datagram. -/
theorem answer (pcb : ℕ) : Prog.Leads (testScope P r) (do
      Lifecycle.udpDemoSenddata pcb
      call .rearm
      Lifecycle.clearFlag 0x40) w fun _ w' => ∃ b, w' = { w with sendbuf := b } := by
  refine (udpDemoSenddata pcb).bind ?_
  rintro - _ ⟨b, rfl⟩
  refine (keeps (fun _ => rfl) fun _ => rfl).seq fun _ => ?_
  refine (clearFlag 0x40).imp ?_
  rintro - _ ⟨v, hv, rfl⟩
  refine ⟨b, ?_⟩
  rw [clear_bit6_bit5, hv]

/-- The loop changes `udp_demo_sendbuf` only. -/
theorem testLoop (pcb fuel : ℕ) : Prog.Leads (testScope P r) (testLoop pcb fuel) w fun _ w' =>
    ∃ b, w' = { w with sendbuf := b } := by
  induction fuel generalizing w with
  | zero => exact .hang trivial
  | succ fuel ih =>
    refine (keeps (fun _ => rfl) fun _ => rfl).seq fun key => ?_
    refine .ite (fun _ => .pure ⟨_, rfl⟩) fun _ => ?_
    refine (Prog.Leads.when (fun _ => udpDemoSenddata pcb) fun _ => ⟨_, rfl⟩).bind ?_
    rintro - _ ⟨b₁, rfl⟩
    refine (keeps (fun _ => rfl) fun _ => rfl).seq fun flag => ?_
    refine (Prog.Leads.when (fun _ => answer pcb) fun _ => ⟨b₁, rfl⟩).bind ?_
    rintro - _ ⟨b₂, rfl⟩
    refine (output fun _ => rfl).seq fun _ => ?_
    exact ih.imp fun _ _ h => h

/-- Closing the connection clears bit 5. -/
theorem udpDemoConnectionClose (pcb : ℕ) :
    Prog.Leads (testScope P r) (udpDemoConnectionClose pcb) w fun _ w' =>
      w' = { w with bit5 := 0, log := w.log ++ [.disconnect pcb, .remove pcb] } := by
  refine (does (fun w => { w with log := w.log ++ [.disconnect pcb] }) (fun _ => rfl)
    fun _ => rfl).seq fun _ => ?_
  refine (does (fun w => { w with log := w.log ++ [.remove pcb] }) (fun _ => rfl)
    fun _ => rfl).seq fun _ => ?_
  refine (clearFlag 0x20).imp ?_
  rintro - _ ⟨v, -, rfl⟩
  have hclear : (v &&& ~~~0x20) &&& 0x20 = 0 := by
    rw [UInt8.and_assoc]
    exact UInt8.and_zero
  simp [hclear]

theorem udpNew : Prog.Leads (testScope P r) (call .udpNew) w fun pcb w' =>
    pcb = r.pcb ∧ w' = { w with log := w.log ++ [.new r.pcb] } := by
  apply Prog.Leads.lift
  rintro s hs rfl
  exact ⟨hs, rfl, rfl⟩

/-- All that `udp_demo_test` does to what is held. -/
theorem udpDemoTest (fuel : ℕ) : Prog.Leads (testScope P r) (udpDemoTest fuel) w fun _ w' =>
    (grant .sramin w.map 200 = none ∧ w' = w) ∨ ((grant .sramin w.map 200).isSome ∧ ∃ b,
      w' = ⟨w.map, b, 0, w.log ++ [.new r.pcb, .disconnect r.pcb, .remove r.pcb]⟩) := by
  refine (udpDemoSetRemoteip fuel).seq fun _ => ?_
  refine (mymalloc 200).bind ?_
  rintro tbuf w' (⟨hnone, rfl, rfl⟩ | ⟨m, hg, rfl⟩)
  · exact .ite (fun _ => .pure (Or.inl ⟨hnone, rfl⟩)) fun h => absurd rfl h
  refine .ite (fun h => absurd h hg.ne_null) fun _ => ?_
  refine (keeps (fun _ => rfl) fun _ => rfl).seq fun v => ?_
  refine (keeps (fun _ => rfl) fun _ => rfl).seq fun _ => ?_
  refine (keeps (fun _ => rfl) fun _ => rfl).seq fun v => ?_
  refine (keeps (fun _ => rfl) fun _ => rfl).seq fun _ => ?_
  refine (keeps (fun _ => rfl) fun _ => rfl).seq fun _ => ?_
  refine udpNew.bind ?_
  rintro pcb _ ⟨rfl, rfl⟩
  refine (keeps (fun _ => rfl) fun _ => rfl).seq fun _ => ?_
  refine (connectPcb r.pcb).bind ?_
  rintro res _ ⟨b₅, rfl⟩
  refine (Prog.Leads.when (fun _ => testLoop r.pcb fuel) fun _ => ⟨_, rfl⟩).bind ?_
  rintro - _ ⟨b, rfl⟩
  refine (udpDemoConnectionClose r.pcb).seq fun _ => ?_
  refine (myfree (by decide) hg).imp ?_
  rintro - _ rfl
  obtain ⟨o, ho, -⟩ := hg
  exact Or.inr ⟨by simp [ho], b, by simp⟩

end Leads

/-! ## What is given back -/

/-- A call of `udp_demo_senddata` leaves the table as it was: without interrupts it is the send of a
session, which gives back its buffer. -/
theorem memmap_udpDemoSenddata {P : Placement} {s : Session} {t : SendState}
    (hrdy : s.pool.memrdy = true)
    (ht : (Enc28j60Udp.udpDemoSenddata P s.send s.outside.pbufOk s.outside.sensor).final = some t) :
    t.pool.memmap = s.pool.memmap := by
  let r : Outcome := ⟨null, errOk, errOk⟩
  have hresult : sendResult P r (udpDemoSenddata null) s = some t :=
    (sendResult_udpDemoSenddata null hrdy).trans ht
  obtain ⟨a, hreturned, hsend⟩ := Option.map_eq_some_iff.mp hresult
  have hirq : Prog.runIrq (testStep P r) (fun _ => id) 0 (udpDemoSenddata null) s =
      Prog.run (testStep P r) (udpDemoSenddata null) s :=
    Prog.runIrq_eq_run (I := fun _ => True) (fun _ _ _ => trivial) (fun _ _ _ => rfl) 0 _ trivial
  have hallows (t : ℕ) (s : Session) : (testScope P r).Allows s (id s) := fun hs => ⟨hs, rfl⟩
  obtain ⟨_, s', hrun, -, b, hheld⟩ | ⟨-, hnone⟩ :=
    (Leads.udpDemoSenddata (P := P) (r := r) null).runIrq hallows hrdy rfl 0
  · have hs' : (Prog.run (testStep P r) (udpDemoSenddata null) s).2 = s' :=
      congrArg Prod.snd (hirq.symm.trans hrun)
    rw [← hsend, hs']
    exact congrArg Held.map hheld
  · have hreturns := (congrArg Prod.fst hirq).trans hreturned
    exact absurd (hreturns.symm.trans hnone) nofun

/-- A session before `udp_demo_test`: no callback is registered, and no PCB exists. -/
def Session.entry (s : Session) : Session := { s with registered := false, log := [] }

/-- `udp_demo_test`, interrupted before every operation. -/
def runTest (P : Placement) (r : Outcome) (irq : ℕ → TestIrq) (fuel : ℕ) (s : Session) :
    Option Unit × Session :=
  Prog.runIrq (testStep P r) (fun t => (irq t).apply P) 0 (udpDemoTest fuel) s.entry

/-- From `s` to `s'`, everything that was taken was given back. -/
@[mk_iff]
structure Clean (s s' : Session) : Prop where
  map : s'.pool.memmap = s.pool.memmap
  removed : ∀ p ≠ null, .new p ∈ s'.log → s'.log.count (.remove p) = 1
  bit5 : s'.demo.flag &&& 0x20 = 0
  disconnect_null : .disconnect null ∉ s'.log
  remove_null : .remove null ∉ s'.log

/-- The buffer of `udp_demo_test` is granted and `udp_new` returns a PCB; or the buffer is refused,
and no connection is marked on entry. -/
def GetsPcb (r : Outcome) (s : Session) : Prop :=
  ((grant .sramin s.pool.memmap 200).isSome ∧ r.pcb ≠ null) ∨
    (grant .sramin s.pool.memmap 200 = none ∧ s.demo.flag &&& 0x20 = 0)

/-- **The session gives back what it took.** Whatever the calls return, and under all keys,
datagrams and interrupts, an `udp_demo_test` that returns has restored the table, removed its PCB
once, cleared bit 5 and disconnected and removed no `NULL`, exactly when it gets its PCB. -/
theorem clean_iff_getsPcb (P : Placement) (r : Outcome) (irq : ℕ → TestIrq) (fuel : ℕ)
    {s : Session} (hrdy : s.pool.memrdy = true) (hret : (runTest P r irq fuel s).1 = some ()) :
    Clean s (runTest P r irq fuel s).2 ↔ GetsPcb r s := by
  have hleads : Prog.Leads (testScope P r) (udpDemoTest fuel) s.entry.held _ :=
    Leads.udpDemoTest fuel
  have hirq : ∀ t s, (testScope P r).Allows s ((irq t).apply P s) := fun t s =>
    allows_irq P r (irq t) s
  obtain ⟨_, s', hrun, -, hcase⟩ | ⟨-, hhang⟩ := hleads.runIrq (s := s.entry) hirq hrdy rfl 0
  · have hstate : (runTest P r irq fuel s).2 = s' := congrArg Prod.snd hrun
    rw [hstate]
    have hmap : s'.pool.memmap = s'.held.map := rfl
    have hlog : s'.log = s'.held.log := rfl
    have hbit : s'.demo.flag &&& 0x20 = s'.held.bit5 := rfl
    have hheld : (testScope P r).view s' = s'.held := rfl
    rw [hheld] at hcase
    rw [clean_iff, hmap, hlog, hbit, GetsPcb]
    obtain ⟨hnone, hsame⟩ | ⟨hsome, b, hsame⟩ := hcase
    · have hnone : grant .sramin s.pool.memmap 200 = none := hnone
      rw [hsame]
      simp [hnone, Session.entry, Session.held]
    · obtain ⟨o, ho⟩ := Option.isSome_iff_exists.mp hsome
      have ho : grant .sramin s.pool.memmap 200 = some o := ho
      have honce : ∀ p ≠ null, p = r.pcb →
          [PcbCall.remove r.pcb].count (.remove p) = 1 := by
        rintro p - rfl
        simp
      rw [hsame]
      simp only [ho, Session.entry, Session.held, true_and]
      constructor
      · rintro ⟨-, hdisc, -⟩
        exact Or.inl ⟨rfl, fun h => hdisc (by simp [h])⟩
      · rintro (⟨-, hpcb⟩ | ⟨h, -⟩)
        · exact ⟨by simpa using honce, by simp [hpcb.symm], by simp [hpcb.symm]⟩
        · cases h
  · exact absurd (hret.symm.trans hhang) (by simp)

/-- `KEY_UP`, then `KEY0` in the first round of the loop, then `KEY_UP`; a packet that comes in, and
each one that goes out, takes a buffer. -/
def quickSession (t : ℕ) : TestIrq where
  input := ⟨if t = 26 then [.malloc 1600] else [], by
    split <;> simp [ScriptFits, maxRequest]⟩
  datagrams := []
  outside :=
    ⟨if t = 26 then key0Pres else wkupPres, true, some (0x19, 0x43),
      ⟨[.malloc 60, .free 0], by simp [ScriptFits, maxRequest]⟩⟩

/-- A pool on which nothing is allocated, and the state that the loader leaves. -/
def bootSession : Session where
  pool := ⟨fun _ => 0, true, fun _ => 0⟩
  demo := ⟨bufOf [], demoState, ⟨⟨false, false, false, false, false, false, false, 0, 0⟩, 1⟩, 0,
    ⟨0, 0, false⟩, Dhcp.octets 0x0101A8C0⟩
  ip := Dhcp.octets 0x1E01A8C0
  sendbuf := null
  temp1 := 0
  humi1 := 0
  registered := false
  outside := ⟨0, true, none, ⟨[], by simp [ScriptFits]⟩⟩
  log := []

/-- With a PCB, the session is clean. -/
theorem clean_quickSession : Clean bootSession
    (runTest imagePlacement ⟨0x20001000, errOk, errOk⟩ quickSession 5 bootSession).2 :=
  (clean_iff_getsPcb imagePlacement ⟨0x20001000, errOk, errOk⟩ quickSession 5 rfl
    (by decide +kernel)).mpr (Or.inl ⟨by decide, by decide⟩)

/-- When `udp_new` returns `NULL`, `NULL` is disconnected and removed. -/
theorem not_clean_udpNew_null :
    (runTest imagePlacement ⟨null, errOk, errOk⟩ quickSession 5 bootSession).1 = some () ∧
      ¬Clean bootSession
        (runTest imagePlacement ⟨null, errOk, errOk⟩ quickSession 5 bootSession).2 := by
  refine ⟨by decide +kernel, fun h => ?_⟩
  have hlog : (runTest imagePlacement ⟨null, errOk, errOk⟩ quickSession 5 bootSession).2.log =
      [.new null, .disconnect null, .remove null] := by decide +kernel
  have hdisc := h.disconnect_null
  rw [hlog] at hdisc
  simp at hdisc

end Lifecycle

end Enc28j60Udp
