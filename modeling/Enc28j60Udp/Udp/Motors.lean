import Enc28j60Udp.Udp.Actuator
import Enc28j60Udp.Udp.Connected

/-!
# The two motors

Each motor hangs on an H-bridge with two inputs, and `Open_Elengine_1` and `Open_Elengine_2` raise
one input before they lower the other one. That this never drives both inputs together depends on
what all earlier calls have left: motor 1 off and `PB15` low (`Board.Idle`). `Drives` lists of
writes keep this and are safe after each write; `messageProcessing` is composed of such lists.

The latch `elengine_wyx` makes motor 1 turn at most once between two executions of
`elengine_wyx = 1`. A session is watched with the calls of `Open_Elengine_1` since the last one;
`OneShotInv` relates them to the latch.
-/

namespace Enc28j60Udp

/-! ## The H-bridges -/

/-- No H-bridge has both inputs high. -/
def Board.BridgeSafe (b : Board) : Prop :=
  ¬(b.pb12 = true ∧ b.pb13 = true) ∧ ¬(b.pb14 = true ∧ b.pb15 = true)

/-- Motor 1 is off, and motor 2 is off or turns forwards. -/
@[mk_iff]
structure Board.Idle (b : Board) : Prop where
  pb12 : b.pb12 = false
  pb13 : b.pb13 = false
  pb15 : b.pb15 = false

theorem Board.Idle.bridgeSafe {b : Board} (h : b.Idle) : b.BridgeSafe := by
  simp [Board.BridgeSafe, h.pb12, h.pb15]

/-- From idle motors, the H-bridges are safe after each write, and the motors are idle in the
end. -/
def Drives (ws : List Write) : Prop :=
  ∀ b : Board, b.Idle → Runs.Always Board.apply Board.BridgeSafe b ws ∧ (b.perform ws).Idle

namespace Drives

theorem nil : Drives [] := fun _ h => ⟨Runs.always_nil.mpr h.bridgeSafe, h⟩

theorem append {ws vs : List Write} (hw : Drives ws) (hv : Drives vs) : Drives (ws ++ vs) := by
  intro b h
  obtain ⟨hw₁, hw₂⟩ := hw b h
  obtain ⟨hv₁, hv₂⟩ := hv _ hw₂
  rw [perform_append]
  exact ⟨Runs.always_append.mpr ⟨hw₁, hv₁⟩, hv₂⟩

theorem ite {c : Prop} [Decidable c] {ws vs : List Write} (hw : Drives ws) (hv : Drives vs) :
    Drives (if c then ws else vs) := by
  split
  · exact hw
  · exact hv

/-- A list of writes with fixed values is checked write by write, on the three pins that are low at
the start. -/
theorem of_pins {ws : List Write} (h : ∀ b : Board, b.pb12 = false → b.pb13 = false →
    b.pb15 = false → Runs.Always Board.apply Board.BridgeSafe b ws ∧ (b.perform ws).Idle) :
    Drives ws := fun b hb => h b hb.pb12 hb.pb13 hb.pb15

/-- The LEDs are no inputs of a bridge. -/
theorem leds (b₀ b₁ b₂ : Bool) : Drives [.led0 b₀, .led1 b₁, .led2 b₂] := by
  refine of_pins fun b h12 h13 h15 => ?_
  simp [Runs.always_cons, Runs.always_nil, Board.perform, Board.apply, Board.BridgeSafe,
    Board.idle_iff, h12, h13, h15]

theorem latch (v : UInt8) : Drives [.elengineWyx v] := by
  refine of_pins fun b h12 h13 h15 => ?_
  simp [Runs.always_cons, Runs.always_nil, Board.perform, Board.apply, Board.BridgeSafe,
    Board.idle_iff, h12, h13, h15]

theorem pins : Drives [.pin .pb12 false, .pin .pb13 false] := by
  refine of_pins fun b h12 h13 h15 => ?_
  simp [Runs.always_cons, Runs.always_nil, Board.perform, Board.apply, Board.BridgeSafe,
    Board.idle_iff, h12, h15]

theorem openElengine1 (dir : Bool) : Drives (openElengine1 dir) := by
  refine of_pins fun b h12 h13 h15 => ?_
  cases dir <;>
  simp [Enc28j60Udp.openElengine1, Runs.always_cons, Runs.always_nil, Board.perform, Board.apply,
    Board.BridgeSafe, Board.idle_iff, h12, h13, h15]

theorem closeElengine1 : Drives closeElengine1 := by
  refine of_pins fun b h12 h13 h15 => ?_
  simp [Enc28j60Udp.closeElengine1, Runs.always_cons, Runs.always_nil, Board.perform, Board.apply,
    Board.BridgeSafe, Board.idle_iff, h12, h15]

theorem openElengine2 : Drives openElengine2 := by
  refine of_pins fun b h12 h13 h15 => ?_
  simp [Enc28j60Udp.openElengine2, Runs.always_cons, Runs.always_nil, Board.perform, Board.apply,
    Board.BridgeSafe, Board.idle_iff, h12, h13, h15]

theorem closeElengine2 : Drives closeElengine2 := by
  refine of_pins fun b h12 h13 h15 => ?_
  simp [Enc28j60Udp.closeElengine2, Runs.always_cons, Runs.always_nil, Board.perform, Board.apply,
    Board.BridgeSafe, Board.idle_iff, h12, h13, h15]

theorem turnElengine1 (s : Sardata) (b : Board) : Drives (turnElengine1 s b) := by
  unfold Enc28j60Udp.turnElengine1
  refine append (ite ?_ nil) (ite ?_ nil)
  · exact (openElengine1 true).append (pins.append (latch 0))
  · exact (openElengine1 false).append (latch 0)

theorem messageProcessing (s : Sardata) (b : Board) : Drives (messageProcessing s b) :=
  (((leds _ _ _).append (ite (turnElengine1 s b) closeElengine1)).append
    (ite openElengine2 nil)).append (ite closeElengine2 nil)

end Drives

/-- What a datagram does to the H-bridges: they are safe after each write that the callback makes,
and `PB12` and `PB13` are low when `Message_processing` returns. -/
def BridgesKept (s : Connected) : LoopEvent → Prop
  | .recv p addr port => ∃ d ws, udpDemoRecv s.demo (some p) addr port = some (d, ws) ∧
      Runs.Always Board.apply Board.BridgeSafe s.demo.board ws ∧
      d.board = s.demo.board.perform ws ∧ d.board.pb12 = false ∧ d.board.pb13 = false
  | .main _ => True

variable {s : Connected}

/-- The statements of the loop do not touch the outputs. -/
theorem toOutputs_mainStep (i : LoopInput) :
    (mainStep s i).demo.board.toOutputs = s.demo.board.toOutputs := by
  obtain ⟨pc, demo, received, answered, disturbed⟩ := s
  cases pc <;> rfl

/-- Idle motors make each event keep the H-bridges, and stay idle. -/
theorem bridgesKept_of_idle (h : LoopInv s) (hb : s.demo.board.Idle) (e : LoopEvent) :
    BridgesKept s e ∧ (connectedStep s e).demo.board.Idle := by
  cases e with
  | main i =>
    have hout := toOutputs_mainStep (s := s) i
    refine ⟨trivial, ?_, ?_, ?_⟩
    · exact (congrArg Outputs.pb12 hout).trans hb.pb12
    · exact (congrArg Outputs.pb13 hout).trans hb.pb13
    · exact (congrArg Outputs.pb15 hout).trans hb.pb15
  | recv p addr port =>
    obtain ⟨d, hrecv, -, -, -, hboard⟩ := exists_udpDemoRecv h.length_eq p addr port
    obtain ⟨hsafe, hidle⟩ := Drives.messageProcessing d.sendrecv s.demo.board _ hb
    rw [← hboard] at hidle
    refine ⟨⟨d, _, hrecv, hsafe, hboard, hidle.pb12, hidle.pb13⟩, ?_⟩
    simp only [connectedStep, hrecv]
    exact hidle

/-- **The H-bridges.** From low motor pins, no sequence of datagrams, interleaved with the
statements of the loop in any way, makes a write after which an H-bridge has both inputs high, and
motor 1 is off after each datagram. -/
theorem bridges_kept (d : UdpDemo) (hd : d.board.pb12 = false ∧ d.board.pb13 = false ∧
      d.board.pb14 = false ∧ d.board.pb15 = false) (es : List LoopEvent) :
    Runs.Along connectedStep BridgesKept (loopStart d) es := by
  obtain ⟨h12, h13, -, h15⟩ := hd
  exact Runs.along_of_inv (P := fun s => LoopInv s ∧ s.demo.board.Idle)
    (fun _ e h => ⟨h.1.step e, (bridgesKept_of_idle h.1 h.2 e).2⟩)
    (fun _ e h => (bridgesKept_of_idle h.1 h.2 e).1) ⟨loopInv_loopStart d, h12, h13, h15⟩ es

/-- The H-bridges over a frame that turns motor 1. -/
theorem bridges_kept_demoState : Runs.Along connectedStep BridgesKept
    (loopStart ⟨bufOf [], demoState, ⟨⟨false, false, false, false, false, false, false, 0, 0⟩, 1⟩,
      0, ⟨0x0101A8C0, 8099, true⟩, #v[192, 168, 1, 1]⟩)
    [.recv [⟨frame demoState, by decide⟩] 0x0101A8C0 8099] :=
  bridges_kept _ ⟨rfl, rfl, rfl, rfl⟩ _

/-! ## The latch -/

/-- The directions of the calls of `Open_Elengine_1` in a list of writes. -/
def openings (ws : List Write) : List Bool :=
  ws.filterMap fun
    | .openElengine1 dir => some dir
    | _ => none

/-- `Message_processing` calls `Open_Elengine_1` once when it turns motor 1, and else never. -/
theorem openings_messageProcessing (s : Sardata) (b : Board) :
    openings (messageProcessing s b) =
      if s.humi[0]! = 1 ∧ Turns s b then [decide (s.Elengine 0x31 0x31)] else [] := by
  have hmotor : openings (if s.humi[0]! = 1 then turnElengine1 s b else closeElengine1) =
      if s.humi[0]! = 1 ∧ Turns s b then [decide (s.Elengine 0x31 0x31)] else [] := by
    rw [turnElengine1_eq]
    by_cases hu : s.humi[0]! = 1
    · rw [if_pos hu]
      by_cases ht : Turns s b
      · rw [if_pos ht, if_pos (And.intro hu ht)]
        by_cases he : s.Elengine 0x31 0x31 <;> simp [he, openings, openElengine1]
      · rw [if_neg ht, if_neg fun h => ht h.2]
        rfl
    · rw [if_neg hu, if_neg fun h => hu h.1]
      rfl
  have hopen₂ : openings (if s.Elengine 0x30 0x31 then openElengine2 else []) = [] := by
    split <;> rfl
  have hclose₂ : openings (if s.Elengine 0x30 0x30 then closeElengine2 else []) = [] := by
    split <;> rfl
  have happ : ∀ ws vs, openings (ws ++ vs) = openings ws ++ openings vs := fun ws vs =>
    List.filterMap_append
  rw [messageProcessing, happ, happ, happ, hmotor, hopen₂, hclose₂, List.append_nil,
    List.append_nil]
  rfl

/-- Turning motor 1 clears the latch. -/
theorem elengineWyx_messageProcessing {s : Sardata} {b : Board} (hu : s.humi[0]! = 1)
    (ht : Turns s b) : (b.perform (messageProcessing s b)).elengineWyx = 0 := by
  rw [perform_messageProcessing, if_pos hu, if_pos ht]
  dsimp only
  split_ifs <;> rfl

/-- Nothing in `Message_processing` sets the latch. -/
theorem elengineWyx_messageProcessing_of_clear {s : Sardata} {b : Board}
    (hb : b.elengineWyx = 0) : (b.perform (messageProcessing s b)).elengineWyx = 0 := by
  have ht : ¬Turns s b := fun h => h.1 hb
  rw [perform_messageProcessing, if_neg ht]
  dsimp only
  split_ifs <;> exact hb

/-- A session with the calls of `Open_Elengine_1` since the last `elengine_wyx = 1`: their
directions, and what `sendrecv` held. -/
structure Latched where
  session : Connected
  calls : List (Bool × Sardata)

/-- What happens: an event of the loop, or, after the loop was left, the next call of
`udp_demo_test`. -/
inductive LatchEvent
  | loop (e : LoopEvent)
  | enter

/-- The calls of `Open_Elengine_1` that an event of the loop adds or forgets. -/
def callsAfter (s : Latched) : LoopEvent → List (Bool × Sardata)
  | .main _ => if s.session.pc = .rearm then [] else s.calls
  | .recv p addr port =>
    match udpDemoRecv s.session.demo (some p) addr port with
    | some (d, ws) => s.calls ++ (openings ws).map fun dir => (dir, d.sendrecv)
    | none => s.calls

def latchStep (s : Latched) : LatchEvent → Latched
  | .loop e => ⟨connectedStep s.session e, callsAfter s e⟩
  | .enter => if s.session.pc = .closed then ⟨loopStart s.session.demo, s.calls⟩ else s

/-- What a call of `Open_Elengine_1` finds in `sendrecv`. -/
def CallOk (dir : Bool) (s : Sardata) : Prop :=
  s.humi[0]! = 1 ∧ s.elengine[0]! = 0x31 ∧ (dir = true ↔ s.elengine[1]! = 0x31) ∧
    (dir = false ↔ s.elengine[1]! = 0x30)

/-- Since the last `elengine_wyx = 1`, motor 1 has turned at most once, and as `sendrecv` says. -/
def OneShot (s : Latched) : Prop :=
  s.calls.length ≤ 1 ∧ ∀ c ∈ s.calls, CallOk c.1 c.2

/-- The invariant: once motor 1 has turned, the latch is clear. -/
structure OneShotInv (s : Latched) : Prop where
  loopInv : LoopInv s.session
  oneShot : OneShot s
  latch : s.calls ≠ [] → s.session.demo.board.elengineWyx = 0

/-- The direction is the second character. -/
theorem callOk_of_turns {s : Sardata} {b : Board} (hu : s.humi[0]! = 1) (ht : Turns s b) :
    CallOk (decide (s.Elengine 0x31 0x31)) s := by
  obtain ⟨-, he | he⟩ := ht
  · refine ⟨hu, he.1, ?_, ?_⟩ <;> rw [he.2, decide_eq_true he] <;> decide
  · have hne : ¬s.Elengine 0x31 0x31 := not_elengine_of_elengine he (by decide)
    refine ⟨hu, he.1, ?_, ?_⟩ <;> rw [he.2, decide_eq_false hne] <;> decide

/-- A statement of the loop keeps the latch, but for `elengine_wyx = 1`. -/
theorem elengineWyx_mainStep {s : Connected} (h : s.pc ≠ .rearm) (i : LoopInput) :
    (mainStep s i).demo.board.elengineWyx = s.demo.board.elengineWyx := by
  obtain ⟨pc, demo, received, answered, disturbed⟩ := s
  cases pc with
  | rearm => exact absurd rfl h
  | _ => rfl

/-- A statement of the loop; the re-arming forgets the calls. -/
theorem OneShotInv.main {s : Latched} (h : OneShotInv s) (i : LoopInput) :
    OneShotInv (latchStep s (.loop (.main i))) := by
  have hloop := h.loopInv.step (.main i)
  by_cases hr : s.session.pc = .rearm
  · have hcalls : callsAfter s (.main i) = [] := if_pos hr
    refine ⟨hloop, ?_, ?_⟩ <;> rw [latchStep, hcalls]
    · simp [OneShot]
    · simp
  · have hcalls : callsAfter s (.main i) = s.calls := if_neg hr
    refine ⟨hloop, ?_, ?_⟩ <;> rw [latchStep, hcalls]
    · exact h.oneShot
    · exact fun hne => (elengineWyx_mainStep hr i).trans (h.latch hne)

/-- A datagram; one that turns motor 1 finds the latch set and clears it. -/
theorem OneShotInv.recv {s : Latched} (h : OneShotInv s) (p : List Pbuf) (addr : UInt32)
    (port : UInt16) : OneShotInv (latchStep s (.loop (.recv p addr port))) := by
  have hloop := h.loopInv.step (.recv p addr port)
  obtain ⟨d, hrecv, -, -, -, hboard⟩ := exists_udpDemoRecv h.loopInv.length_eq p addr port
  have hsession : (connectedStep s.session (.recv p addr port)).demo = d := by
    simp only [connectedStep, hrecv]
  have hcalls : callsAfter s (.recv p addr port) =
      s.calls ++ if d.sendrecv.humi[0]! = 1 ∧ Turns d.sendrecv s.session.demo.board then
        [(decide (d.sendrecv.Elengine 0x31 0x31), d.sendrecv)] else [] := by
    simp only [callsAfter, hrecv, openings_messageProcessing]
    split <;> rfl
  by_cases ht : d.sendrecv.humi[0]! = 1 ∧ Turns d.sendrecv s.session.demo.board
  · have hnone : s.calls = [] := by
      by_contra hne
      exact ht.2.1 (h.latch hne)
    rw [if_pos ht, hnone, List.nil_append] at hcalls
    refine ⟨hloop, ?_, fun _ => ?_⟩
    · rw [latchStep, hcalls]
      simpa [OneShot] using callOk_of_turns ht.1 ht.2
    · rw [latchStep, hsession, hboard]
      exact elengineWyx_messageProcessing ht.1 ht.2
  · rw [if_neg ht, List.append_nil] at hcalls
    refine ⟨hloop, ?_, fun hne => ?_⟩
    · rw [latchStep, hcalls]
      exact h.oneShot
    · rw [latchStep, hcalls] at hne
      rw [latchStep, hsession, hboard]
      exact elengineWyx_messageProcessing_of_clear (h.latch hne)

/-- The step lemma. -/
theorem OneShotInv.step {s : Latched} (h : OneShotInv s) (e : LatchEvent) :
    OneShotInv (latchStep s e) := by
  cases e with
  | enter =>
    simp only [latchStep]
    split
    · exact ⟨loopInv_loopStart _, h.oneShot, h.latch⟩
    · exact h
  | loop e =>
    cases e with
    | main i => exact h.main i
    | recv p addr port => exact h.recv p addr port

/-- **Motor 1 turns at most once per re-arm.** For every interleaving of datagrams with the
statements of the loop, over any number of sessions, `Open_Elengine_1` is called at most once since
the last `elengine_wyx = 1`, or since start-up, and each call is what `sendrecv` asks for. -/
theorem oneShot_always (d : UdpDemo) (es : List LatchEvent) :
    Runs.Always latchStep OneShot ⟨loopStart d, []⟩ es := by
  have hstart : OneShotInv ⟨loopStart d, []⟩ :=
    ⟨loopInv_loopStart d, by simp [OneShot], fun h => absurd rfl h⟩
  have hinv : Runs.Always latchStep OneShotInv ⟨loopStart d, []⟩ es :=
    Runs.always_of_inv (fun _ e h => h.step e) hstart es
  exact hinv.imp fun _ h => h.oneShot

end Enc28j60Udp
