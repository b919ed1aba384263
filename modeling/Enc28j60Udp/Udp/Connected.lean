import Enc28j60Udp.Foundations.Runs
import Enc28j60Udp.Udp.Receive

/-!
# The connected loop

The loop of `udp_demo_test` answers a datagram when it finds bit 6 of `udp_demo_flag` set: it
sends, sets the latch and clears the bit. `udp_demo_recv` sets the bit from the interrupt handler
and may run between any two statements of the loop; the clearing is a read and a write.

A datagram that comes in after the send has started and before the bit is cleared is lost: the
write clears its notification. `answered_iff` shows that these are all the losses.
-/

namespace Enc28j60Udp

/-- `KEY0_PRES` of `key.h`. -/
def key0Pres : ℕ := 1

/-- `WKUP_PRES` of `key.h`. -/
def wkupPres : ℕ := 3

/-- The statement of the loop that comes next. -/
inductive LoopPc
  /-- `key=KEY_Scan(0)`. -/
  | scan
  /-- `if(key==WKUP_PRES)break`. -/
  | testWkup (key : ℕ)
  /-- `if(key==KEY0_PRES)`. -/
  | testKey0 (key : ℕ)
  /-- The call of `udp_demo_senddata` for `KEY0`. -/
  | callSend0
  | inSend0
  /-- `if(udp_demo_flag&1<<6)`. -/
  | testFlag
  /-- The call of `udp_demo_senddata` for the flag. -/
  | callSend
  | inSend
  /-- `elengine_wyx = 1`. -/
  | rearm
  /-- The read of `udp_demo_flag&=~(1<<6)`. -/
  | readFlag
  /-- Its write, of the value `v`. -/
  | writeFlag (v : UInt8)
  /-- `lwip_periodic_handle()`. -/
  | periodic
  /-- `delay_ms(2)`. -/
  | delay
  /-- The loop was left. -/
  | closed
  deriving DecidableEq

/-- From the start of the send for the flag to the write that clears it. -/
def LoopPc.inWindow : LoopPc → Bool
  | .inSend => true
  | .rearm => true
  | .readFlag => true
  | .writeFlag _ => true
  | _ => false

/-- A session in the loop, with what has happened to the datagrams. -/
structure Connected where
  pc : LoopPc
  demo : UdpDemo
  /-- A datagram was received in this session. -/
  received : Bool
  /-- A call of `udp_demo_senddata` started after the last datagram. -/
  answered : Bool
  /-- A datagram was received since the last send for the flag started, and before the bit was
  cleared. -/
  disturbed : Bool

/-- What a statement gets from outside: the value of `KEY_Scan`, and what a send that goes
through has put in `sendrecv.data`. -/
structure LoopInput where
  key : ℕ
  data : Option (Vector UInt8 4)

/-- What `udp_demo_senddata` leaves in the session. -/
def UdpDemo.sent (d : UdpDemo) (data : Option (Vector UInt8 4)) : UdpDemo :=
  { d with sendrecv := { d.sendrecv with data := data.getD d.sendrecv.data } }

/-- The next statement of the loop. -/
def mainStep (s : Connected) (i : LoopInput) : Connected :=
  match s.pc with
  | .scan => { s with pc := .testWkup i.key }
  | .testWkup key => { s with pc := if key = wkupPres then .closed else .testKey0 key }
  | .testKey0 key => { s with pc := if key = key0Pres then .callSend0 else .testFlag }
  | .callSend0 => { s with pc := .inSend0, answered := true }
  | .inSend0 => { s with pc := .testFlag, demo := s.demo.sent i.data }
  | .testFlag => { s with pc := if s.demo.flag &&& 0x40 ≠ 0 then .callSend else .periodic }
  | .callSend => { s with pc := .inSend, answered := true, disturbed := false }
  | .inSend => { s with pc := .rearm, demo := s.demo.sent i.data }
  | .rearm =>
    { s with
      pc := .readFlag
      demo := { s.demo with board := { s.demo.board with elengineWyx := 1 } } }
  | .readFlag => { s with pc := .writeFlag (s.demo.flag &&& ~~~0x40) }
  | .writeFlag v => { s with pc := .periodic, demo := { s.demo with flag := v } }
  | .periodic => { s with pc := .delay }
  | .delay => { s with pc := .scan }
  | .closed => s

/-- A statement of the loop, or a datagram between two statements. -/
inductive LoopEvent
  | main (i : LoopInput)
  | recv (p : List Pbuf) (addr : UInt32) (port : UInt16)

/-- One event. The callback always has a result (`exists_udpDemoRecv`). -/
def connectedStep (s : Connected) : LoopEvent → Connected
  | .main i => mainStep s i
  | .recv p addr port =>
    match udpDemoRecv s.demo (some p) addr port with
    | some (d, _) =>
      { s with
        demo := d, received := true, answered := false
        disturbed := s.disturbed || s.pc.inWindow }
    | none => s

/-- With bit 6 clear, no datagram was received, or a send started after the last one. -/
def Answered (s : Connected) : Prop :=
  s.demo.flag &&& 0x40 = 0 → s.received = false ∨ s.answered = true

/-- The write that clears bit 6 finds that no datagram came in since the send started. -/
def ClearsUndisturbed (s : Connected) : LoopEvent → Prop
  | .main _ => (∃ v, s.pc = .writeFlag v) → s.disturbed = false
  | .recv .. => True

/-- The invariant of the loop. -/
structure LoopInv (s : Connected) : Prop where
  length_eq : s.demo.sendrecv.length = 15
  disturbed_iff : s.pc.inWindow = true →
    (s.disturbed = true ↔ s.received = true ∧ s.answered = false)
  write_clear : ∀ v, s.pc = .writeFlag v → v &&& 0x40 = 0

/-- The entry of the loop, with the session that `udp_demo_test` has set up and no datagram
received in it. -/
def loopStart (d : UdpDemo) : Connected where
  pc := .scan
  demo := { d with sendrecv := initsardata d.sendrecv, flag := d.flag ||| 0x20 }
  received := false
  answered := false
  disturbed := false

variable {s : Connected}

theorem set_bit6 (f : UInt8) : (f ||| 0x40) &&& 0x40 ≠ 0 := by
  intro h
  have hnat := congrArg UInt8.toNat h
  simp [Nat.and_or_distrib_right] at hnat

theorem clear_bit6 (f : UInt8) : (f &&& ~~~0x40) &&& 0x40 = 0 := by
  rw [UInt8.and_assoc]
  exact UInt8.and_zero

/-- What a datagram does to the session. -/
theorem exists_connectedStep_recv (h : s.demo.sendrecv.length = 15) (p : List Pbuf)
    (addr : UInt32) (port : UInt16) :
    ∃ d, connectedStep s (.recv p addr port) =
        { s with
          demo := d, received := true, answered := false
          disturbed := s.disturbed || s.pc.inWindow } ∧
      d.sendrecv.length = 15 ∧ d.flag = s.demo.flag ||| 0x40 := by
  obtain ⟨d, hrecv, -, hlen, hflag, -⟩ := exists_udpDemoRecv h p addr port
  exact ⟨d, by simp only [connectedStep, hrecv], hlen, hflag⟩

/-- The invariant at a statement outside the window. -/
theorem LoopInv.of_not_inWindow (hlen : s.demo.sendrecv.length = 15)
    (hw : s.pc.inWindow = false) : LoopInv s := by
  refine ⟨hlen, fun h => absurd h (by simp [hw]), fun v hv => ?_⟩
  rw [hv] at hw
  exact absurd hw Bool.noConfusion

/-- Every event keeps the invariant. -/
theorem LoopInv.step (h : LoopInv s) (e : LoopEvent) : LoopInv (connectedStep s e) := by
  cases e with
  | recv p addr port =>
    obtain ⟨d, hstep, hlen, -⟩ := exists_connectedStep_recv h.length_eq p addr port
    rw [hstep]
    exact ⟨hlen, fun hw => by simp [hw], h.write_clear⟩
  | main i =>
    obtain ⟨pc, demo, received, answered, disturbed⟩ := s
    obtain ⟨hlen, hdist, hclear⟩ := h
    cases pc with
    | scan => exact .of_not_inWindow hlen rfl
    | testWkup key =>
      refine .of_not_inWindow hlen ?_
      simp only [connectedStep, mainStep]
      split <;> rfl
    | testKey0 key =>
      refine .of_not_inWindow hlen ?_
      simp only [connectedStep, mainStep]
      split <;> rfl
    | callSend0 => exact .of_not_inWindow hlen rfl
    | inSend0 => exact .of_not_inWindow hlen rfl
    | testFlag =>
      refine .of_not_inWindow hlen ?_
      simp only [connectedStep, mainStep]
      split <;> rfl
    | callSend =>
      refine ⟨hlen, fun _ => ?_, fun v hv => LoopPc.noConfusion hv⟩
      simp [connectedStep, mainStep]
    | inSend => exact ⟨hlen, fun _ => hdist rfl, fun v hv => LoopPc.noConfusion hv⟩
    | rearm => exact ⟨hlen, fun _ => hdist rfl, fun v hv => LoopPc.noConfusion hv⟩
    | readFlag =>
      refine ⟨hlen, fun _ => hdist rfl, fun v hv => ?_⟩
      obtain rfl := LoopPc.writeFlag.inj hv
      exact clear_bit6 _
    | writeFlag v => exact .of_not_inWindow hlen rfl
    | periodic => exact .of_not_inWindow hlen rfl
    | delay => exact .of_not_inWindow hlen rfl
    | closed => exact .of_not_inWindow hlen rfl

/-- A statement other than the write of the flag leaves the flag alone, and no answer is undone. -/
theorem mainStep_of_not_write (hw : ∀ v, s.pc ≠ .writeFlag v) (i : LoopInput) :
    (mainStep s i).demo.flag = s.demo.flag ∧ (mainStep s i).received = s.received ∧
      (s.answered = true → (mainStep s i).answered = true) := by
  obtain ⟨pc, demo, received, answered, disturbed⟩ := s
  cases pc with
  | writeFlag v => exact absurd rfl (hw v)
  | callSend0 => exact ⟨rfl, rfl, fun _ => rfl⟩
  | callSend => exact ⟨rfl, rfl, fun _ => rfl⟩
  | _ => exact ⟨rfl, rfl, id⟩

/-- The step lemma: an event keeps `Answered` exactly when it meets the guard. -/
theorem answered_step_iff (h : LoopInv s) (ha : Answered s) (e : LoopEvent) :
    Answered (connectedStep s e) ↔ ClearsUndisturbed s e := by
  cases e with
  | recv p addr port =>
    obtain ⟨d, hstep, -, hflag⟩ := exists_connectedStep_recv h.length_eq p addr port
    rw [hstep]
    refine iff_of_true (fun h0 => absurd h0 ?_) trivial
    rw [hflag]
    exact set_bit6 _
  | main i =>
    by_cases hw : ∃ v, s.pc = .writeFlag v
    · obtain ⟨v, hv⟩ := hw
      have hstep : connectedStep s (.main i) =
          { s with pc := .periodic, demo := { s.demo with flag := v } } := by
        simp only [connectedStep, mainStep, hv]
      have hdist := h.disturbed_iff (by rw [hv]; rfl)
      rw [hstep]
      constructor
      · intro hans _
        have hor := hans (h.write_clear v hv)
        rw [Bool.eq_false_iff]
        intro hd
        obtain ⟨hr, ha'⟩ := hdist.mp hd
        simp [hr, ha'] at hor
      · intro hclear _
        have hd := hclear ⟨v, hv⟩
        by_contra hno
        obtain ⟨hr, ha'⟩ := not_or.mp hno
        have hd' := hdist.mpr ⟨Bool.not_eq_false _ ▸ hr, Bool.eq_false_iff.mpr ha'⟩
        exact absurd (hd.symm.trans hd') Bool.false_ne_true
    · have hw' : ∀ v, s.pc ≠ .writeFlag v := fun v hv => hw ⟨v, hv⟩
      obtain ⟨hflag, hrecv, hansw⟩ := mainStep_of_not_write hw' i
      refine iff_of_true (fun h0 => ?_) fun hv => absurd hv hw
      rw [connectedStep, hflag] at h0
      exact (ha h0).imp (fun hr => hrecv.trans hr) hansw

theorem loopInv_loopStart (d : UdpDemo) : LoopInv (loopStart d) := .of_not_inWindow rfl rfl

/-- **No datagram goes unanswered.** In the loop, bit 6 is never clear with a datagram unanswered
exactly in the runs in which no datagram comes in between the start of a send for the flag and the
write that clears it. -/
theorem answered_iff (d : UdpDemo) (es : List LoopEvent) :
    Runs.Always connectedStep Answered (loopStart d) es ↔
      Runs.Along connectedStep ClearsUndisturbed (loopStart d) es :=
  Runs.always_iff_along_of_inv (fun _ e h => h.step e) (fun _ e h ha => answered_step_iff h ha e)
    (loopInv_loopStart d) fun _ => Or.inl rfl

/-- The statements of the loop, one after the other, on a `KEY_Scan` that returns `0`. -/
def statements (n : ℕ) : List LoopEvent := List.replicate n (.main ⟨0, none⟩)

/-- A set bit leads the loop into the send. -/
theorem exec_to_inSend (hpc : s.pc = .scan) (hset : s.demo.flag &&& 0x40 ≠ 0) :
    Runs.exec connectedStep s (statements 5) =
      { s with pc := .inSend, answered := true, disturbed := false } := by
  simp [statements, List.replicate, connectedStep, mainStep, hpc, hset, wkupPres, key0Pres]

/-- From the send on, the loop clears the bit. -/
theorem exec_from_inSend (hpc : s.pc = .inSend) :
    (Runs.exec connectedStep s (statements 4)).demo.flag &&& 0x40 = 0 ∧
      (Runs.exec connectedStep s (statements 4)).received = s.received ∧
      (Runs.exec connectedStep s (statements 4)).answered = s.answered := by
  simp only [statements, List.replicate, Runs.exec_cons, Runs.exec_nil, connectedStep, mainStep,
    hpc, and_true]
  exact clear_bit6 _

/-- A datagram, the loop up to the send for it, a second datagram during this send, and the rest
of the round. -/
def lostRun (p : List Pbuf) : List LoopEvent :=
  let datagram : LoopEvent := .recv p 0x0101A8C0 8099
  datagram :: (statements 5 ++ datagram :: statements 4)

/-- The second datagram goes unanswered. -/
theorem not_always_answered_lostRun (d : UdpDemo) (p : List Pbuf) :
    ¬Runs.Always connectedStep Answered (loopStart d) (lostRun p) := by
  intro h
  have hlast := h.last
  obtain ⟨d₁, hrecv₁, hlen₁, hflag₁⟩ :=
    exists_connectedStep_recv (loopInv_loopStart d).length_eq p 0x0101A8C0 8099
  have hset : d₁.flag &&& 0x40 ≠ 0 := hflag₁ ▸ set_bit6 _
  rw [lostRun, Runs.exec_cons, hrecv₁, Runs.exec_append, exec_to_inSend rfl hset,
    Runs.exec_cons] at hlast
  obtain ⟨d₂, hrecv₂, -, -⟩ := exists_connectedStep_recv
    (s := ⟨.inSend, d₁, true, true, false⟩) hlen₁ p 0x0101A8C0 8099
  obtain ⟨hclear, hreceived, hanswered⟩ :=
    exec_from_inSend (s := ⟨.inSend, d₂, true, false, true⟩) rfl
  have hstate : connectedStep ⟨.inSend, d₁, true, true, false⟩ (.recv p 0x0101A8C0 8099) =
      ⟨.inSend, d₂, true, false, true⟩ := hrecv₂
  simp only at hlast
  rw [hstate] at hlast
  rcases hlast hclear with hr | ha
  · exact absurd (hr.symm.trans hreceived) Bool.false_ne_true
  · exact absurd (hanswered.symm.trans ha) Bool.false_ne_true

/-- A session with the outputs off, and a datagram of one byte. -/
theorem lostRun_not_answered :
    ¬Runs.Always connectedStep Answered
      (loopStart ⟨bufOf [], demoState, ⟨⟨false, false, false, false, false, false, false, 0, 0⟩, 1⟩,
        0, ⟨0x0101A8C0, 8099, true⟩, #v[192, 168, 1, 1]⟩) (lostRun [⟨[0x5A], by decide⟩]) :=
  not_always_answered_lostRun _ _

end Enc28j60Udp
