import Enc28j60Udp.Malloc.Interrupt
import Enc28j60Udp.Comm.Dhcp
import Enc28j60Udp.Udp.Connected
import Enc28j60Udp.Udp.Senddata

/-!
# The life of a session

`udp_demo_test` takes a buffer from the pool and a PCB from lwIP, sets up the connection, answers
datagrams and keys, each send with a buffer of its own, and leaves by one path, whatever of this it
got. The program below has as operations the calls that take and give back, and the accesses to
what interrupts share with it; the pool, the callback and what comes from outside may change between
any two of them.

Without interrupts, its sends are the calls of `udp_demo_senddata` that `Udp/Senddata.lean` is about
(`sendResult_udpDemoSenddata`).
-/

namespace Enc28j60Udp

namespace Lifecycle

/-! ## The state -/

/-- The calls of the session that create, disconnect and remove a PCB. -/
inductive PcbCall
  | new (pcb : ℕ)
  | disconnect (pcb : ℕ)
  | remove (pcb : ℕ)
  deriving DecidableEq

/-- Calls of the allocator whose block counts fit. -/
abbrev FitScript := { script : List Call // ScriptFits script }

/-- What the calls out of the session find: the keys, whether `pbuf_alloc` succeeds, the sensor, and
the calls of the allocator that lwIP makes to send packets. -/
structure Outside where
  key : ℕ
  pbufOk : Bool
  sensor : Option (UInt8 × UInt8)
  output : FitScript

/-- What the calls that set up the connection return. -/
structure Outcome where
  /-- `udp_new`. -/
  pcb : ℕ
  /-- `udp_connect`. -/
  connect : Int8
  /-- `udp_bind`. -/
  bind : Int8

/-- `ERR_OK`. -/
def errOk : Int8 := 0

/-- A session: the data that `udp_demo_test` and the callback work on, whether the callback is
registered, and the calls on PCBs so far. -/
structure Session where
  pool : MallcoDev
  demo : UdpDemo
  /-- `lwipdev.ip`. -/
  ip : Vector UInt8 4
  /-- `udp_demo_sendbuf`. -/
  sendbuf : ℕ
  temp1 : UInt8
  humi1 : UInt8
  registered : Bool
  outside : Outside
  log : List PcbCall

/-- The operations of `udp_demo_test`. -/
inductive TestOp
  | mymalloc (size : ℕ)
  | myfree (ptr : ℕ)
  /-- `sprintf` of a text to a buffer. -/
  | sprintf (ptr : ℕ) (text : String)
  | keyScan
  | rdIp
  | rdRemoteip
  | wrRemoteip (i : Fin 4) (v : UInt8)
  | rdFlag
  | wrFlag (v : UInt8)
  /-- `elengine_wyx = 1`. -/
  | rearm
  | initsardata
  | udpNew
  | udpConnect (pcb : ℕ) (addr : UInt32) (port : UInt16)
  | udpBind (pcb : ℕ) (port : UInt16)
  /-- `udp_recv(pcb, udp_demo_recv, NULL)`. -/
  | udpRecv (pcb : ℕ)
  | udpDisconnect (pcb : ℕ)
  | udpRemove (pcb : ℕ)
  /-- `strlen(udp_demo_sendbuf)`. -/
  | strlenSendbuf
  | pbufAlloc (len : ℕ)
  | readSensor
  | rdLength
  | rdSendbuf
  | wrSendbuf (ptr : ℕ)
  | setdata
  | setsendbuf
  /-- `udp_send` of the first `n` bytes of the buffer. -/
  | udpSend (pcb n : ℕ)
  | periodic

/-- What each operation returns. -/
abbrev TestOp.Res : TestOp → Type
  | .mymalloc _ => ℕ
  | .keyScan => ℕ
  | .rdIp => Vector UInt8 4
  | .rdRemoteip => Vector UInt8 4
  | .rdFlag => UInt8
  | .udpNew => ℕ
  | .udpConnect _ _ _ => Int8
  | .udpBind _ _ => Int8
  | .strlenSendbuf => Option ℕ
  | .pbufAlloc _ => Bool
  | .rdLength => UInt16
  | .rdSendbuf => ℕ
  | _ => Unit

/-- The stores of a text and its terminator. -/
def textStores (text : String) : List (ℕ × UInt8) :=
  (text.toUTF8.toList ++ [0]).zipIdx.map Prod.swap

/-- The state after stores through `ptr`. -/
def Session.store (s : Session) (ptr : ℕ) (stores : List (ℕ × UInt8)) : Session :=
  { s with pool := { s.pool with mem := performStores ptr stores s.pool.mem } }

/-- `DHT11_Read_Data1`. -/
def Session.readSensor (s : Session) : Session :=
  match s.outside.sensor with
  | some (t, h) => { s with temp1 := t, humi1 := h }
  | none => s

/-- The state after lwIP has sent packets. -/
def Session.output (P : Placement) (s : Session) : Session :=
  { s with pool := handler P .sramin s.outside.output s.pool }

/-- The meaning of an operation. -/
def testStep (P : Placement) (r : Outcome) : (o : TestOp) → Session → o.Res × Session
  | .mymalloc size, s =>
    let (ptr, pool) := Prog.run memStep (mymalloc P .sramin size) s.pool
    (ptr.getD null, { s with pool := pool })
  | .myfree ptr, s =>
    ((), { s with pool := (Prog.run memStep (myfree P .sramin ptr) s.pool).2 })
  | .sprintf ptr text, s => ((), s.store ptr (textStores text))
  | .keyScan, s => (s.outside.key, s)
  | .rdIp, s => (s.ip, s)
  | .rdRemoteip, s => (s.demo.remoteip, s)
  | .wrRemoteip i v, s =>
    ((), { s with demo := { s.demo with remoteip := s.demo.remoteip.set i v } })
  | .rdFlag, s => (s.demo.flag, s)
  | .wrFlag v, s => ((), { s with demo := { s.demo with flag := v } })
  | .rearm, s =>
    ((), { s with demo := { s.demo with board := { s.demo.board with elengineWyx := 1 } } })
  | .initsardata, s =>
    ((), { s with demo := { s.demo with sendrecv := initsardata s.demo.sendrecv } })
  | .udpNew, s =>
    (r.pcb, { s with
      demo := { s.demo with pcb := ⟨0, 0, false⟩ }
      log := s.log ++ [.new r.pcb] })
  | .udpConnect _ addr port, s =>
    (r.connect, if r.connect = errOk then
      { s with demo := { s.demo with pcb := ⟨addr, port, true⟩ } } else s)
  | .udpBind _ _, s => (r.bind, s)
  | .udpRecv _, s => ((), { s with registered := true })
  | .udpDisconnect pcb, s =>
    ((), { s with
      demo := { s.demo with pcb := udpDisconnect s.demo.pcb }
      log := s.log ++ [.disconnect pcb] })
  | .udpRemove pcb, s => ((), { s with registered := false, log := s.log ++ [.remove pcb] })
  | .strlenSendbuf, s => (strlen s.pool.mem s.sendbuf, s)
  | .pbufAlloc _, s => (s.outside.pbufOk, s)
  | .readSensor, s => ((), s.readSensor)
  | .rdLength, s => (s.demo.sendrecv.length, s)
  | .rdSendbuf, s => (s.sendbuf, s)
  | .wrSendbuf ptr, s => ((), { s with sendbuf := ptr })
  | .setdata, s =>
    ((), { s with
      demo := { s.demo with sendrecv := setdata s.temp1 s.humi1 s.demo.sendrecv } })
  | .setsendbuf, s => ((), s.store s.sendbuf (setsendbuf s.demo.sendrecv))
  | .udpSend _ _, s => ((), s.output P)
  | .periodic, s => ((), s.output P)

/-- Programs of `udp_demo.c`. -/
abbrev TestProg := Prog TestOp TestOp.Res

/-- A single operation. -/
def call (o : TestOp) : TestProg o.Res := Prog.lift o

/-! ## The code -/

/-- `KEY1_PRES` of `key.h`. -/
def key1Pres : ℕ := 2

/-- `UDP_DEMO_PORT`. -/
def udpDemoPort : UInt16 := 8099

/-- The loop of `udp_demo_set_remoteip`, with the keys of `fuel` rounds. -/
def remoteipLoop : ℕ → TestProg Unit
  | 0 => .hang
  | fuel + 1 => do
    let key ← call .keyScan
    if key = wkupPres then pure () else do
      Prog.when (key = key1Pres) (do
        let v ← call .rdRemoteip
        call (.wrRemoteip 3 (v[3]! + 1)))
      Prog.when (key = key0Pres) (do
        let v ← call .rdRemoteip
        call (.wrRemoteip 3 (v[3]! - 1)))
      remoteipLoop fuel

/-- `lwipdev.remoteip[i] = lwipdev.ip[i]`. -/
def copyIp (i : Fin 4) : TestProg Unit := do
  let v ← call .rdIp
  call (.wrRemoteip i v[i]!)

/-- `udp_demo_set_remoteip`. -/
def udpDemoSetRemoteip (fuel : ℕ) : TestProg Unit := do
  let tbuf ← call (.mymalloc 100)
  if tbuf = null then pure () else do
    copyIp 0
    copyIp 1
    copyIp 2
    call (.wrRemoteip 3 1)
    let v ← call .rdRemoteip
    call (.sprintf tbuf s!"Remote IP:{v[0]!}.{v[1]!}.{v[2]!}.")
    remoteipLoop fuel
    call (.myfree tbuf)

/-- `strlen(udp_demo_sendbuf)`, which hangs when there is no terminator. -/
def sendbufLen : TestProg ℕ := do
  match ← call .strlenSendbuf with
  | some n => pure n
  | none => .hang

/-- `udp_demo_senddata`. -/
def udpDemoSenddata (pcb : ℕ) : TestProg Unit := do
  let len ← sendbufLen
  let ptr ← call (.pbufAlloc len)
  Prog.when (ptr = true) (do
    call .readSensor
    let length ← call .rdLength
    let buf ← call (.mymalloc (length.toNat + 1))
    call (.wrSendbuf buf)
    call .setdata
    call .setsendbuf
    -- once for `printf`, once for `pbuf_take`
    let _ ← sendbufLen
    let n ← sendbufLen
    call (.udpSend pcb n)
    let buf ← call .rdSendbuf
    call (.myfree buf))

/-- `udp_demo_flag |= bits`. -/
def setFlag (bits : UInt8) : TestProg Unit := do
  let v ← call .rdFlag
  call (.wrFlag (v ||| bits))

/-- `udp_demo_flag &= ~bits`. -/
def clearFlag (bits : UInt8) : TestProg Unit := do
  let v ← call .rdFlag
  call (.wrFlag (v &&& ~~~bits))

/-- `udp_demo_connection_close`. -/
def udpDemoConnectionClose (pcb : ℕ) : TestProg Unit := do
  call (.udpDisconnect pcb)
  call (.udpRemove pcb)
  clearFlag 0x20

/-- The part of `udp_demo_test` that sets up the connection; the result is `res`. -/
def connectPcb (pcb : ℕ) : TestProg ℕ :=
  if pcb = null then pure 1 else do
    let v ← call .rdRemoteip
    let err ← call (.udpConnect pcb (Dhcp.ip4Addr v) udpDemoPort)
    if err = errOk then do
      let err ← call (.udpBind pcb udpDemoPort)
      if err = errOk then do
        call (.udpRecv pcb)
        setFlag 0x20
        pure 0
      else pure 1
    else pure 1

/-- The loop `while(res==0)` of `udp_demo_test`, with the keys of `fuel` rounds. -/
def testLoop (pcb : ℕ) : ℕ → TestProg Unit
  | 0 => .hang
  | fuel + 1 => do
    let key ← call .keyScan
    if key = wkupPres then pure () else do
      Prog.when (key = key0Pres) (udpDemoSenddata pcb)
      let flag ← call .rdFlag
      Prog.when (flag &&& 0x40 ≠ 0) (do
        udpDemoSenddata pcb
        call .rearm
        clearFlag 0x40)
      call .periodic
      testLoop pcb fuel

/-- An address in dotted notation. -/
def dotted (v : Vector UInt8 4) : String := s!"{v[0]!}.{v[1]!}.{v[2]!}.{v[3]!}"

/-- `udp_demo_test`. -/
def udpDemoTest (fuel : ℕ) : TestProg Unit := do
  udpDemoSetRemoteip fuel
  let tbuf ← call (.mymalloc 200)
  if tbuf = null then pure () else do
    let v ← call .rdIp
    call (.sprintf tbuf ("Local IP:" ++ dotted v))
    let v ← call .rdRemoteip
    call (.sprintf tbuf ("Remote IP:" ++ dotted v))
    call (.sprintf tbuf s!"Remote Port:{udpDemoPort}")
    let pcb ← call .udpNew
    call .initsardata
    let res ← connectPcb pcb
    Prog.when (res = 0) (testLoop pcb fuel)
    udpDemoConnectionClose pcb
    call (.myfree tbuf)

/-! ## Interrupts -/

/-- A datagram that lwIP hands to the callback. -/
structure Datagram where
  payload : List Pbuf
  addr : UInt32
  port : UInt16

/-- What an interrupt brings: the calls of the allocator that it makes, datagrams, and what the next
calls out of the session will find. -/
structure TestIrq where
  input : FitScript
  datagrams : List Datagram
  outside : Outside

/-- A datagram reaches the callback while it is registered; the callback then has a result, by
`exists_udpDemoRecv`. -/
def receive (s : Session) (g : Datagram) : Session :=
  if s.registered then
    match udpDemoRecv s.demo (some g.payload) g.addr g.port with
    | some (demo, _) => { s with demo := demo }
    | none => s
  else s

def TestIrq.apply (P : Placement) (i : TestIrq) (s : Session) : Session :=
  i.datagrams.foldl receive
    { s with pool := handler P .sramin i.input s.pool, outside := i.outside }

/-! ## A send without interrupts -/

@[simp] theorem handler_fit {P : Placement} {pool : MallcoDev} (hrdy : pool.memrdy = true)
    (script : FitScript) : handler P .sramin script pool = pool :=
  handler_eq script.2 hrdy

/-- The data of a send. -/
def Session.send (s : Session) : SendState :=
  ⟨s.pool, s.sendbuf, s.demo.sendrecv, s.temp1, s.humi1⟩

theorem Session.readSensor_send (s : Session) :
    s.readSensor.send = s.send.readSensor s.outside.sensor ∧
      s.readSensor.outside = s.outside := by
  unfold Session.readSensor SendState.readSensor
  cases s.outside.sensor <;> exact ⟨rfl, rfl⟩

/-- What the uninterrupted run of a send leaves, if it returns. -/
def sendResult (P : Placement) (r : Outcome) (p : TestProg Unit) (s : Session) :
    Option SendState :=
  let x := Prog.run (testStep P r) p s
  x.1.map fun _ => x.2.send

section Send

variable {P : Placement} {r : Outcome} {s : Session}

theorem sendResult_call {o : TestOp} {f : o.Res → TestProg Unit} :
    sendResult P r (call o >>= f) s =
      sendResult P r (f (testStep P r o s).1) (testStep P r o s).2 := rfl

theorem sendResult_sendbufLen {f : ℕ → TestProg Unit} :
    sendResult P r (sendbufLen >>= f) s =
      (strlen s.pool.mem s.sendbuf).bind fun n => sendResult P r (f n) s := by
  rw [sendbufLen, bind_assoc, sendResult_call]
  have hres : (testStep P r .strlenSendbuf s).1 = strlen s.pool.mem s.sendbuf := rfl
  have hst : (testStep P r .strlenSendbuf s).2 = s := rfl
  rw [hst]
  revert hres
  generalize (testStep P r .strlenSendbuf s).1 = n
  rintro rfl
  cases strlen s.pool.mem s.sendbuf <;> rfl

theorem exists_run_mymalloc {pool : MallcoDev} (hrdy : pool.memrdy = true) (size : ℕ) :
    ∃ ptr pool', Prog.run memStep (mymalloc P .sramin size) pool = (some ptr, pool') ∧
      pool'.memrdy = true := by
  cases hg : grant .sramin pool.memmap size with
  | none => exact ⟨_, _, run_mymalloc_of_none P .sramin hrdy hg, hrdy⟩
  | some o => exact ⟨_, _, run_mymalloc_of_some P .sramin hrdy hg, hrdy⟩

/-- The part of `udp_demo_senddata` behind the sensor. -/
theorem sendResult_sendFrame (pcb len : ℕ) (hrdy : s.pool.memrdy = true) :
    sendResult P r (do
      let length ← call .rdLength
      let buf ← call (.mymalloc (length.toNat + 1))
      call (.wrSendbuf buf)
      call .setdata
      call .setsendbuf
      let _ ← sendbufLen
      let n ← sendbufLen
      call (.udpSend pcb n)
      let buf ← call .rdSendbuf
      call (.myfree buf)) s = (sendFrame P s.send len).final := by
  obtain ⟨ptr, pool, hrun, hready⟩ :=
    exists_run_mymalloc (P := P) hrdy (s.demo.sendrecv.length.toNat + 1)
  have hstep : testStep P r (.mymalloc (s.demo.sendrecv.length.toNat + 1)) s =
      (ptr, { s with pool := pool }) := by
    simp only [testStep, hrun, Option.getD_some]
  have hsend : Prog.run memStep (mymalloc P .sramin (s.send.sendrecv.length.toNat + 1))
      s.send.pool = (some ptr, pool) := hrun
  have hlength : testStep P r .rdLength s = (s.demo.sendrecv.length, s) := rfl
  rw [sendResult_call, hlength, sendResult_call, hstep, sendResult_call, sendResult_call,
    sendResult_call, sendResult_sendbufLen, sendFrame, hsend]
  dsimp only [testStep, Session.store, Session.send]
  cases hn : strlen (performStores ptr
      (setsendbuf (setdata s.temp1 s.humi1 s.demo.sendrecv)) pool.mem) ptr with
  | none => rfl
  | some n =>
    rw [Option.bind_some, sendResult_sendbufLen, hn, Option.bind_some, sendResult_call]
    have hout : ∀ s : Session, s.pool.memrdy = true → s.output P = s := fun s hs => by
      rw [Session.output, handler_fit hs]
    dsimp only [testStep]
    rw [hout _ hready]
    rfl

/-- Without interrupts, `udp_demo_senddata` leaves what a call of it leaves. -/
theorem sendResult_udpDemoSenddata (pcb : ℕ) (hrdy : s.pool.memrdy = true) :
    sendResult P r (udpDemoSenddata pcb) s =
      (Enc28j60Udp.udpDemoSenddata P s.send s.outside.pbufOk s.outside.sensor).final := by
  have hstr : strlen s.send.pool.mem s.send.sendbuf = strlen s.pool.mem s.sendbuf := rfl
  rw [udpDemoSenddata, sendResult_sendbufLen, Enc28j60Udp.udpDemoSenddata, hstr]
  cases strlen s.pool.mem s.sendbuf with
  | none => rfl
  | some len =>
    rw [Option.bind_some, sendResult_call]
    cases hp : s.outside.pbufOk with
    | false =>
      have hstep : testStep P r (.pbufAlloc len) s = (false, s) := congrArg (·, s) hp
      rw [hstep]
      rfl
    | true =>
      have hstep : testStep P r (.pbufAlloc len) s = (true, s) := congrArg (·, s) hp
      obtain ⟨hsend, hout⟩ := s.readSensor_send
      have hready : s.readSensor.pool.memrdy = true := by
        have := congrArg (fun s : SendState => s.pool.memrdy) hsend
        simpa [Session.send] using this.trans (by simpa [Session.send] using hrdy)
      dsimp only
      rw [if_pos rfl, ← hsend, hstep, Prog.when, if_pos rfl, sendResult_call]
      exact sendResult_sendFrame pcb len hready

end Send

end Lifecycle

end Enc28j60Udp
