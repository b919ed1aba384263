import Enc28j60Udp.Foundations.Runs
import Enc28j60Udp.Udp.Receive

/-!
# The outputs and datagrams that are not frames

A datagram without the marker leaves `sendrecv` alone, but `udp_demo_recv` runs
`Message_processing` on it all the same, on the state of the last frame. That is harmless as long
as processing this state again starts no motor: `Settled` outputs stay as they are. It is not when
motor 2 is switched on, or when the main loop has set the latch `elengine_wyx` since the frame
that turned motor 1.

`noEffect_iff` is the analysis of one datagram, `junk_noEffect_iff` that of every run of datagrams
and re-arms.
-/

namespace Enc28j60Udp

/-- A call of a function that starts a motor. -/
def Write.IsOpen : Write → Prop
  | .openElengine1 _ => True
  | .openElengine2 => True
  | _ => False

/-- `Message_processing` turns motor 1 when `humi[0]` is `1`. -/
def Turns (s : Sardata) (b : Board) : Prop :=
  b.elengineWyx ≠ 0 ∧ (s.Elengine 0x31 0x31 ∨ s.Elengine 0x31 0x30)

instance (s : Sardata) (b : Board) : Decidable (Turns s b) :=
  inferInstanceAs (Decidable (_ ∧ _))

/-- `Message_processing` starts a motor. -/
def Starts (s : Sardata) (b : Board) : Prop :=
  s.Elengine 0x30 0x31 ∨ s.humi[0]! = 1 ∧ Turns s b

/-- The outputs agree with the state that was processed last. -/
structure Settled (s : Sardata) (b : Board) : Prop where
  led0 : b.led0 = (s.led[0]! == 0x31)
  led1 : b.led1 = (s.led[1]! == 0x31)
  led2 : b.led2 = (s.led[2]! == 0x31)
  motor1 : s.humi[0]! ≠ 1 → b.pb12 = false ∧ b.pb13 = false ∧ b.ccr4 = 0
  motor2 : s.Elengine 0x30 0x30 → b.pb14 = false ∧ b.pb15 = false ∧ b.ccr1 = 0

/-! ## One run of `Message_processing` -/

@[simp] theorem perform_nil (b : Board) : b.perform [] = b := rfl

@[simp] theorem perform_cons (b : Board) (w : Write) (ws : List Write) :
    b.perform (w :: ws) = (b.apply w).perform ws := rfl

@[simp] theorem perform_append (b : Board) (ws vs : List Write) :
    b.perform (ws ++ vs) = (b.perform ws).perform vs := List.foldl_append

/-- The board after motor 1 was turned. -/
def Board.turned (b : Board) : Board :=
  { b with pb12 := false, pb13 := false, ccr4 := 3000, elengineWyx := 0 }

/-- The board after motor 1 was closed. -/
def Board.closed1 (b : Board) : Board := { b with pb12 := false, pb13 := false, ccr4 := 0 }

/-- The board after motor 2 was opened. -/
def Board.opened2 (b : Board) : Board := { b with pb14 := true, pb15 := false, ccr1 := 2000 }

/-- The board after motor 2 was closed. -/
def Board.closed2 (b : Board) : Board := { b with pb14 := false, pb15 := false, ccr1 := 0 }

/-- The board with the LEDs of `s`. -/
def Board.lit (b : Board) (s : Sardata) : Board :=
  { b with led0 := s.led[0]! == 0x31, led1 := s.led[1]! == 0x31, led2 := s.led[2]! == 0x31 }

theorem not_elengine_of_elengine {s : Sardata} {c₀ c₁ c₁' : UInt8} (h : s.Elengine c₀ c₁)
    (hne : c₁ ≠ c₁') : ¬s.Elengine c₀ c₁' :=
  fun h' => hne (h.2.symm.trans h'.2)

/-- Motor 1 turns at most once: the two comparisons exclude each other. -/
theorem turnElengine1_eq (s : Sardata) (b : Board) :
    turnElengine1 s b =
      if Turns s b then
        if s.Elengine 0x31 0x31 then
          openElengine1 true ++ [.pin .pb12 false, .pin .pb13 false, .elengineWyx 0]
        else openElengine1 false ++ [.elengineWyx 0]
      else [] := by
  unfold turnElengine1 Turns
  by_cases hw : b.elengineWyx = 0
  · simp [hw, Board.perform]
  · by_cases h₁ : s.Elengine 0x31 0x31
    · have h₂ : ¬s.Elengine 0x31 0x30 := not_elengine_of_elengine h₁ (by decide)
      simp [hw, h₁, h₂]
    · by_cases h₂ : s.Elengine 0x31 0x30 <;> simp [hw, h₁, h₂, Board.perform]

theorem perform_turnElengine1 (s : Sardata) (b b' : Board) :
    b'.perform (turnElengine1 s b) = if Turns s b then b'.turned else b' := by
  rw [turnElengine1_eq]
  split_ifs <;> simp [openElengine1, Board.apply, Board.turned]

@[simp] theorem perform_closeElengine1 (b : Board) : b.perform closeElengine1 = b.closed1 := rfl

@[simp] theorem perform_openElengine2 (b : Board) : b.perform openElengine2 = b.opened2 := rfl

@[simp] theorem perform_closeElengine2 (b : Board) : b.perform closeElengine2 = b.closed2 := rfl

/-- What `Message_processing` does to the outputs. -/
theorem perform_messageProcessing (s : Sardata) (b : Board) :
    b.perform (messageProcessing s b) =
      let b₁ := if s.humi[0]! = 1 then if Turns s b then (b.lit s).turned else b.lit s
        else (b.lit s).closed1
      if s.Elengine 0x30 0x31 then b₁.opened2
      else if s.Elengine 0x30 0x30 then b₁.closed2 else b₁ := by
  have hlit : b.perform [.led0 (s.led[0]! == 0x31), .led1 (s.led[1]! == 0x31),
      .led2 (s.led[2]! == 0x31)] = b.lit s := rfl
  have hmotor : (b.lit s).perform (if s.humi[0]! = 1 then turnElengine1 s b else closeElengine1) =
      if s.humi[0]! = 1 then if Turns s b then (b.lit s).turned else b.lit s
        else (b.lit s).closed1 := by
    split
    · exact perform_turnElengine1 s b _
    · exact perform_closeElengine1 _
  rw [messageProcessing, perform_append, perform_append, perform_append, hlit, hmotor]
  by_cases h₁ : s.Elengine 0x30 0x31
  · have h₂ : ¬s.Elengine 0x30 0x30 := not_elengine_of_elengine h₁ (by decide)
    simp only [if_pos h₁, if_neg h₂, perform_openElengine2, perform_nil]
  · by_cases h₂ : s.Elengine 0x30 0x30
    · simp only [if_neg h₁, if_pos h₂, perform_closeElengine2, perform_nil]
    · simp only [if_neg h₁, if_neg h₂, perform_nil]

/-- `Message_processing` leaves the outputs in agreement with the state. -/
theorem settled_perform (s : Sardata) (b : Board) :
    Settled s (b.perform (messageProcessing s b)) := by
  rw [perform_messageProcessing]
  constructor
  · split_ifs <;> rfl
  · split_ifs <;> rfl
  · split_ifs <;> rfl
  · intro hu
    rw [if_neg hu]
    split_ifs <;> exact ⟨rfl, rfl, rfl⟩
  · intro he
    have hne : ¬s.Elengine 0x30 0x31 := not_elengine_of_elengine he (by decide)
    rw [if_neg hne, if_pos he]
    exact ⟨rfl, rfl, rfl⟩

theorem Settled.lit {s : Sardata} {b : Board} (h : Settled s b) : b.lit s = b := by
  rw [Board.lit, ← h.led0, ← h.led1, ← h.led2]

theorem Settled.closed1 {s : Sardata} {b : Board} (h : Settled s b) (hu : s.humi[0]! ≠ 1) :
    b.closed1 = b := by
  obtain ⟨h12, h13, h4⟩ := h.motor1 hu
  apply Board.ext <;> simp [Board.closed1, h12, h13, h4]

theorem Settled.closed2 {s : Sardata} {b : Board} (h : Settled s b)
    (he : s.Elengine 0x30 0x30) : b.closed2 = b := by
  obtain ⟨h14, h15, h1⟩ := h.motor2 he
  apply Board.ext <;> simp [Board.closed2, h14, h15, h1]

/-- Processing the state of settled outputs again changes nothing, if it starts no motor. -/
theorem Settled.perform_eq {s : Sardata} {b : Board} (h : Settled s b) (hs : ¬Starts s b) :
    b.perform (messageProcessing s b) = b := by
  obtain ⟨h01, hturn⟩ := not_or.mp hs
  have hmotor : (if s.humi[0]! = 1 then if Turns s b then (b.lit s).turned else b.lit s
      else (b.lit s).closed1) = b := by
    rw [h.lit]
    split_ifs with hu ht
    · exact absurd ⟨hu, ht⟩ hturn
    · rfl
    · exact h.closed1 hu
  rw [perform_messageProcessing, hmotor]
  simp only [if_neg h01]
  split_ifs with he
  · exact h.closed2 he
  · rfl

/-- A motor function is called. -/
def HasOpen (ws : List Write) : Prop := ∃ w ∈ ws, w.IsOpen

theorem hasOpen_append (ws vs : List Write) : HasOpen (ws ++ vs) ↔ HasOpen ws ∨ HasOpen vs := by
  simp only [HasOpen, List.mem_append, or_and_right, exists_or]

theorem hasOpen_turnElengine1 (s : Sardata) (b : Board) :
    HasOpen (turnElengine1 s b) ↔ Turns s b := by
  rw [turnElengine1_eq]
  split_ifs with ht he
  · exact iff_of_true ⟨.openElengine1 true, by simp [openElengine1], trivial⟩ ht
  · exact iff_of_true ⟨.openElengine1 false, by simp [openElengine1], trivial⟩ ht
  · exact iff_of_false (by simp [HasOpen]) ht

/-- `Message_processing` calls a motor function exactly when it starts a motor. -/
theorem hasOpen_messageProcessing (s : Sardata) (b : Board) :
    HasOpen (messageProcessing s b) ↔ Starts s b := by
  have hlit : ¬HasOpen [.led0 (s.led[0]! == 0x31), .led1 (s.led[1]! == 0x31),
      .led2 (s.led[2]! == 0x31)] := by simp [HasOpen, Write.IsOpen]
  have hmotor : HasOpen (if s.humi[0]! = 1 then turnElengine1 s b else closeElengine1) ↔
      s.humi[0]! = 1 ∧ Turns s b := by
    split_ifs with hu
    · rw [hasOpen_turnElengine1, and_iff_right hu]
    · exact iff_of_false (by simp [HasOpen, closeElengine1, Write.IsOpen]) fun h => hu h.1
  have hopen₂ : HasOpen (if s.Elengine 0x30 0x31 then openElengine2 else []) ↔
      s.Elengine 0x30 0x31 := by
    split_ifs with he
    · exact iff_of_true ⟨.openElengine2, by simp [openElengine2], trivial⟩ he
    · exact iff_of_false (by simp [HasOpen]) he
  have hclose₂ : ¬HasOpen (if s.Elengine 0x30 0x30 then closeElengine2 else []) := by
    split_ifs <;> simp [HasOpen, closeElengine2, Write.IsOpen]
  rw [messageProcessing, hasOpen_append, hasOpen_append, hasOpen_append, hmotor, hopen₂, Starts]
  tauto

/-! ## One datagram -/

/-- The marker does not start at one of the first 15 positions of the datagram. -/
def Junk (p : List Pbuf) : Prop := ∀ k < 15, ¬MarkerAt (chainBytes p) k

instance (p : List Pbuf) : Decidable (Junk p) := inferInstanceAs (Decidable (∀ k < 15, _))

/-- What happens to a session: datagrams, and the main loop setting the latch. -/
inductive DemoEvent
  | datagram (p : List Pbuf) (addr : UInt32) (port : UInt16)
  | rearm

/-- A session, and the outputs as its last frame left them. -/
structure Watched where
  demo : UdpDemo
  asLeft : Outputs

/-- One event. The callback always has a result (`exists_udpDemoRecv`). -/
def watchStep (s : Watched) : DemoEvent → Watched
  | .datagram p addr port =>
    match udpDemoRecv s.demo (some p) addr port with
    | some (d, _) => ⟨d, if Junk p then s.asLeft else d.board.toOutputs⟩
    | none => s
  | .rearm => ⟨{ s.demo with board := { s.demo.board with elengineWyx := 1 } }, s.asLeft⟩

/-- A datagram that is not a frame calls no motor function, leaves the outputs as the last frame
left them and the latch as it is. -/
def NoEffect (s : Watched) : DemoEvent → Prop
  | .datagram p addr port => Junk p →
    ∃ d ws, udpDemoRecv s.demo (some p) addr port = some (d, ws) ∧ ¬HasOpen ws ∧
      d.board.toOutputs = s.asLeft ∧ d.board.elengineWyx = s.demo.board.elengineWyx
  | .rearm => True

/-- A datagram that is not a frame arrives when processing `sendrecv` again starts no motor. -/
def Quiet (s : Watched) : DemoEvent → Prop
  | .datagram p _ _ => Junk p → ¬Starts s.demo.sendrecv s.demo.board
  | .rearm => True

/-- What holds between two events as long as all datagrams that are not frames had no effect. -/
structure Consistent (s : Watched) : Prop where
  length_eq : s.demo.sendrecv.length = 15
  settled : Settled s.demo.sendrecv s.demo.board
  asLeft_eq : s.asLeft = s.demo.board.toOutputs

variable {s : Watched}

/-- The callback on a datagram that is not a frame processes the old state again. -/
theorem exists_udpDemoRecv_junk {d : UdpDemo} (hs : d.sendrecv.length = 15) {p : List Pbuf}
    (hp : Junk p) (addr : UInt32) (port : UInt16) :
    ∃ d', udpDemoRecv d (some p) addr port = some (d', messageProcessing d.sendrecv d.board) ∧
      d'.sendrecv = d.sendrecv ∧
      d'.board = d.board.perform (messageProcessing d.sendrecv d.board) := by
  obtain ⟨d', hrecv, hread, -, -, hboard⟩ := exists_udpDemoRecv hs p addr port
  have hsame : d'.sendrecv = d.sendrecv := by
    rw [readrecv_of_none hs fun k hk hm => hp k hk (markerAt_of_bufOf hm)] at hread
    exact (Option.some.inj hread).symm
  rw [hsame] at hrecv hboard
  exact ⟨d', hrecv, hsame, hboard⟩

/-- The step lemma: a datagram that is not a frame has no effect exactly when processing
`sendrecv` again starts no motor. -/
theorem noEffect_iff (h : Consistent s) (e : DemoEvent) : NoEffect s e ↔ Quiet s e := by
  cases e with
  | rearm => exact Iff.rfl
  | datagram p addr port =>
    refine forall_congr' fun hp => ?_
    obtain ⟨d, hrecv, -, hboard⟩ := exists_udpDemoRecv_junk h.length_eq hp addr port
    constructor
    · rintro ⟨d', ws, hrecv', hopen, -⟩
      rw [hrecv] at hrecv'
      obtain ⟨rfl, rfl⟩ := Prod.mk.inj (Option.some.inj hrecv')
      exact fun hs => hopen ((hasOpen_messageProcessing _ _).mpr hs)
    · intro hs
      rw [h.settled.perform_eq hs] at hboard
      refine ⟨d, _, hrecv, fun ho => hs ((hasOpen_messageProcessing _ _).mp ho), ?_, ?_⟩
      · rw [hboard, h.asLeft_eq]
      · rw [hboard]

/-- An event without effect keeps the session consistent. -/
theorem Consistent.step (h : Consistent s) (e : DemoEvent) (hq : Quiet s e) :
    Consistent (watchStep s e) := by
  cases e with
  | rearm =>
    have hset := h.settled
    exact ⟨h.length_eq, ⟨hset.led0, hset.led1, hset.led2, hset.motor1, hset.motor2⟩, h.asLeft_eq⟩
  | datagram p addr port =>
    by_cases hp : Junk p
    · obtain ⟨d, hrecv, hsame, hboard⟩ := exists_udpDemoRecv_junk h.length_eq hp addr port
      rw [h.settled.perform_eq (hq hp)] at hboard
      simp only [watchStep, hrecv, if_pos hp]
      exact ⟨hsame ▸ h.length_eq, hsame ▸ hboard ▸ h.settled, hboard ▸ h.asLeft_eq⟩
    · obtain ⟨d, hrecv, -, hlen, -, hboard⟩ := exists_udpDemoRecv h.length_eq p addr port
      simp only [watchStep, hrecv, if_neg hp]
      exact ⟨hlen, hboard ▸ settled_perform _ _, rfl⟩

/-- A session that starts with the outputs off and the latch set. -/
def watchStart (s₀ : Sardata) (pcb : UdpPcb) (remoteip : Vector UInt8 4) : Watched :=
  let off : Outputs := ⟨false, false, false, false, false, false, false, 0, 0⟩
  ⟨⟨bufOf [], initsardata s₀, ⟨off, 1⟩, 0x20, pcb, remoteip⟩, off⟩

theorem consistent_watchStart (s₀ : Sardata) (pcb : UdpPcb) (remoteip : Vector UInt8 4) :
    Consistent (watchStart s₀ pcb remoteip) :=
  ⟨rfl, ⟨rfl, rfl, rfl, fun _ => ⟨rfl, rfl, rfl⟩, fun _ => ⟨rfl, rfl, rfl⟩⟩, rfl⟩

/-- **Datagrams that are not frames.** In every run of datagrams and re-arms, those without the
marker have no effect exactly when each arrives at a moment when processing `sendrecv` again starts
no motor. -/
theorem junk_noEffect_iff (s₀ : Sardata) (pcb : UdpPcb) (remoteip : Vector UInt8 4)
    (es : List DemoEvent) :
    Runs.Along watchStep NoEffect (watchStart s₀ pcb remoteip) es ↔
      Runs.Along watchStep Quiet (watchStart s₀ pcb remoteip) es :=
  Runs.along_iff_along (fun _ e h => noEffect_iff h e)
    (fun _ e h he => h.step e ((noEffect_iff h e).mp he)) (consistent_watchStart s₀ pcb remoteip)

/-- A datagram that is the frame of a state hands over its fields. -/
theorem sendrecv_watchStep_frame (h : Consistent s) {r : Sardata} (hr : FromInit r) {q : Pbuf}
    (hq : q.payload = frame r) (addr : UInt32) (port : UInt16) :
    (watchStep s (.datagram [q] addr port)).demo.sendrecv =
      { s.demo.sendrecv with led := r.led, elengine := r.elengine, humi := r.humi } := by
  obtain ⟨d, hrecv, hread, -⟩ := exists_udpDemoRecv h.length_eq [q] addr port
  have hchain : (chainBytes [q]).take udpDemoRxBufsize = frame r := by
    rw [chainBytes, List.flatMap_singleton, hq, List.take_of_length_le]
    rw [length_frame]
    decide
  have hframe : readrecv s.demo.sendrecv (bufOf (frame r)) =
      some { s.demo.sendrecv with led := r.led, elengine := r.elengine, humi := r.humi } :=
    readrecv_of_frame (g := []) hr h.length_eq (by decide)
      (toList_bufOf (by rw [length_frame]; decide)) (by simp)
  rw [hchain, hframe] at hread
  simp only [watchStep, hrecv]
  exact (Option.some.inj hread).symm

/-- A frame that turns motor 1, the re-arm, and any datagram that is not a frame. -/
theorem not_noEffect_of_rearm (h : Consistent s) {r : Sardata} (hr : FromInit r) {q : Pbuf}
    (hq : q.payload = frame r) (hu : r.humi[0]! = 1) (he : r.Elengine 0x31 0x31)
    (hframe : ¬Junk [q]) {p : List Pbuf} (hp : Junk p) (addr : UInt32) (port : UInt16) :
    ¬Runs.Along watchStep NoEffect s
      [.datagram [q] addr port, .rearm, .datagram p addr port] := by
  intro hrun
  obtain ⟨-, hrun⟩ := Runs.along_cons.mp hrun
  obtain ⟨-, hrun⟩ := Runs.along_cons.mp hrun
  obtain ⟨hjunk, -⟩ := Runs.along_cons.mp hrun
  have h₁ := h.step (.datagram [q] addr port) fun hj => absurd hj hframe
  have hs := sendrecv_watchStep_frame h hr hq addr port
  have hquiet := (noEffect_iff (h₁.step .rearm trivial) _).mp hjunk hp
  refine hquiet (Or.inr ⟨?_, (by decide : (1 : UInt8) ≠ 0), Or.inl ?_⟩)
  · exact (congrArg (fun r : Sardata => r.humi[0]!) hs).trans hu
  · exact ⟨(congrArg (fun r : Sardata => r.elengine[0]!) hs).trans he.1,
      (congrArg (fun r : Sardata => r.elengine[1]!) hs).trans he.2⟩

/-- The frame of `demoState` and an empty datagram. -/
def restartRun : List DemoEvent :=
  [.datagram [⟨frame demoState, by decide⟩] 0x0101A8C0 8099, .rearm,
    .datagram [⟨[], by decide⟩] 0x0101A8C0 8099]

/-- The empty datagram turns motor 1 again. -/
theorem restartRun_not_noEffect :
    ¬Runs.Along watchStep NoEffect
      (watchStart demoState ⟨0x0101A8C0, 8099, true⟩ #v[192, 168, 1, 1]) restartRun :=
  not_noEffect_of_rearm (consistent_watchStart _ _ _) (r := demoState) ⟨rfl, rfl⟩ rfl (by decide)
    (by decide) (by decide) (by decide) _ _

end Enc28j60Udp
