import Enc28j60Udp.Udp.Frame

/-!
# Received datagrams

`udp_demo_recv` copies a `pbuf` chain into the receive buffer, lets `readrecv` take over the
fields of a frame, and runs `Message_processing`, which drives the LEDs and the two motors.

What `Message_processing` and the motor functions do to the outputs is the list of their writes,
in order; the list also records at which points a motor function is entered. The main results on
the copy are `copyLoop_eq` and `recvCopy_eq`: the buffer holds the first 2000 bytes of the datagram
and zeros behind them.
-/

namespace Enc28j60Udp

/-! ## The copy -/

/-- A segment of a `pbuf` chain; `len` is a `u16`. -/
structure Pbuf where
  payload : List UInt8
  len_lt : payload.length < 2 ^ 16

/-- `q->len`. -/
def Pbuf.len (q : Pbuf) : ℕ := q.payload.length

/-- The bytes of a chain. -/
def chainBytes (p : List Pbuf) : List UInt8 := p.flatMap Pbuf.payload

/-- `UDP_DEMO_RX_BUFSIZE - data_len`, an unsigned subtraction of 32 bits. -/
def remaining (dataLen : ℕ) : ℕ := (udpDemoRxBufsize + 2 ^ 32 - dataLen) % 2 ^ 32

/-- `memcpy` to the offset `off` of the receive buffer; no result when it leaves the buffer. -/
def memcpyRecvbuf (buf : RecvBuf) (off : ℕ) (src : List UInt8) : Option RecvBuf :=
  if off + src.length ≤ udpDemoRxBufsize then
    some (Vector.ofFn fun i : Fin udpDemoRxBufsize =>
      if off ≤ i.val ∧ i.val < off + src.length then src.getD (i.val - off) 0 else buf[i.val])
  else none

/-- The copy loop of `udp_demo_recv`. -/
def copyLoop : List Pbuf → ℕ → RecvBuf → Option RecvBuf
  | [], _, buf => some buf
  | q :: qs, dataLen, buf => do
    let n := if remaining dataLen < q.len then remaining dataLen else q.len
    let buf ← memcpyRecvbuf buf dataLen (q.payload.take n)
    let dataLen := (dataLen + q.len) % 2 ^ 32
    if udpDemoRxBufsize < dataLen then some buf else copyLoop qs dataLen buf

/-- The receive buffer after `memset` and the copy loop. -/
def recvCopy (p : List Pbuf) : Option RecvBuf := copyLoop p 0 (bufOf [])

theorem remaining_eq {n : ℕ} (h : n ≤ udpDemoRxBufsize) : remaining n = udpDemoRxBufsize - n := by
  unfold remaining udpDemoRxBufsize at *
  omega

theorem memcpyRecvbuf_bufOf {l src : List UInt8} (h : l.length + src.length ≤ udpDemoRxBufsize) :
    memcpyRecvbuf (bufOf l) l.length src = some (bufOf (l ++ src)) := by
  rw [memcpyRecvbuf, if_pos h]
  refine congrArg some (Vector.ext fun i hi => ?_)
  rw [Vector.getElem_ofFn]
  simp only [getElem_bufOf, List.getElem?_append]
  by_cases hl : i < l.length
  · rw [if_neg (by omega), if_pos hl]
  · rw [if_neg hl, List.getElem?_eq_none (l := l) (by omega)]
    split
    · rfl
    · rw [List.getElem?_eq_none (by omega)]

/-- The copy loop appends the segments, up to the size of the buffer. -/
theorem copyLoop_eq {p : List Pbuf} {l : List UInt8} (hl : l.length ≤ udpDemoRxBufsize) :
    copyLoop p l.length (bufOf l) = some (bufOf ((l ++ chainBytes p).take udpDemoRxBufsize)) := by
  induction p generalizing l with
  | nil => simp [copyLoop, chainBytes, List.take_of_length_le hl]
  | cons q qs ih =>
    have hq := q.len_lt
    have hbytes : chainBytes (q :: qs) = q.payload ++ chainBytes qs := rfl
    have hmod : (l.length + q.len) % 2 ^ 32 = l.length + q.len := by
      rw [Pbuf.len]
      unfold udpDemoRxBufsize at hl
      omega
    rw [copyLoop, remaining_eq hl, hmod, hbytes, ← List.append_assoc]
    by_cases hfull : udpDemoRxBufsize < l.length + q.len
    · -- the segment does not fit: its front fills the buffer
      have htake : (l ++ q.payload ++ chainBytes qs).take udpDemoRxBufsize =
          l ++ q.payload.take (udpDemoRxBufsize - l.length) := by
        rw [List.append_assoc, List.take_append, List.take_of_length_le hl,
          List.take_append_of_le_length (by rw [Pbuf.len] at hfull; omega)]
      rw [if_pos (by omega), memcpyRecvbuf_bufOf (by simp; omega), htake]
      exact if_pos hfull
    · have htake : q.payload.take q.len = q.payload := List.take_length
      rw [if_neg (by omega), htake, memcpyRecvbuf_bufOf (by rw [Pbuf.len] at hfull; omega)]
      refine (if_neg hfull).trans ?_
      rw [Pbuf.len, ← List.length_append]
      exact ih (by rw [List.length_append]; rw [Pbuf.len] at hfull; omega)

/-- The buffer holds the first 2000 bytes of the datagram, and zeros behind them. -/
theorem recvCopy_eq (p : List Pbuf) :
    recvCopy p = some (bufOf ((chainBytes p).take udpDemoRxBufsize)) := by
  have h : ([] : List UInt8).length ≤ udpDemoRxBufsize := Nat.zero_le _
  exact copyLoop_eq h

/-- `memset` on the first `n` bytes of the receive buffer. -/
def memsetRecvbuf (buf : RecvBuf) (c : UInt8) (n : ℕ) : RecvBuf :=
  Vector.ofFn fun i => if i.val < n then c else buf[i.val]

/-- The copy loop with the values of `data_len` at its heads, in order. -/
def copyTrace : List Pbuf → ℕ → RecvBuf → List ℕ × Option RecvBuf
  | [], _, buf => ([], some buf)
  | q :: qs, dataLen, buf =>
    let n := if remaining dataLen < q.len then remaining dataLen else q.len
    match memcpyRecvbuf buf dataLen (q.payload.take n) with
    | none => ([dataLen], none)
    | some buf =>
      if udpDemoRxBufsize < (dataLen + q.len) % 2 ^ 32 then ([dataLen], some buf)
      else
        let rest := copyTrace qs ((dataLen + q.len) % 2 ^ 32) buf
        (dataLen :: rest.1, rest.2)

theorem memsetRecvbuf_zero (buf : RecvBuf) :
    memsetRecvbuf buf 0 udpDemoRxBufsize = bufOf [] := by
  ext i hi
  simp [memsetRecvbuf, getElem_bufOf]

theorem copyTrace_snd (p : List Pbuf) (dataLen : ℕ) (buf : RecvBuf) :
    (copyTrace p dataLen buf).2 = copyLoop p dataLen buf := by
  induction p generalizing dataLen buf with
  | nil => rfl
  | cons q qs ih =>
    rw [copyTrace, copyLoop]
    dsimp only
    split
    · rename_i h
      rw [h]
      rfl
    · rename_i buf' h
      rw [h, Option.bind_eq_bind, Option.bind_some]
      split_ifs with hfull
      · rfl
      · exact ih _ _

/-- The callback's copy, which does not depend on the old contents of the buffer. -/
theorem copyTrace_memset (p : List Pbuf) (old : RecvBuf) :
    (copyTrace p 0 (memsetRecvbuf old 0 udpDemoRxBufsize)).2 = recvCopy p := by
  rw [copyTrace_snd, memsetRecvbuf_zero, recvCopy]

/-- The `break` keeps `data_len` at most 2000 at every loop head. -/
theorem copyTrace_fst_le {p : List Pbuf} {dataLen : ℕ} {buf : RecvBuf}
    (h : dataLen ≤ udpDemoRxBufsize) :
    ∀ n ∈ (copyTrace p dataLen buf).1, n ≤ udpDemoRxBufsize := by
  induction p generalizing dataLen buf with
  | nil => simp [copyTrace]
  | cons q qs ih =>
    rw [copyTrace]
    dsimp only
    split
    · simpa using h
    · split_ifs with hfull
      · simpa using h
      · intro n hn
        rcases List.mem_cons.mp hn with rfl | hn
        · exact h
        · exact ih (not_lt.mp hfull) n hn

/-- **The copied datagram.** Whatever the buffer held, the loop makes no write outside it, the
space it computes is never negative, and the buffer ends as the first 2000 bytes of the datagram
with zeros behind them. -/
theorem recvbuf_holds_datagram (p : List Pbuf) (old : RecvBuf) :
    (∀ n ∈ (copyTrace p 0 (memsetRecvbuf old 0 udpDemoRxBufsize)).1,
      n ≤ udpDemoRxBufsize ∧ remaining n = udpDemoRxBufsize - n) ∧
    ∃ buf, (copyTrace p 0 (memsetRecvbuf old 0 udpDemoRxBufsize)).2 = some buf ∧
      buf.toList = (chainBytes p).take udpDemoRxBufsize ++
        List.replicate (udpDemoRxBufsize - (chainBytes p).length) 0 := by
  constructor
  · intro n hn
    have hle := copyTrace_fst_le (Nat.zero_le _) n hn
    exact ⟨hle, remaining_eq hle⟩
  · refine ⟨_, (copyTrace_memset p old).trans (recvCopy_eq p), ?_⟩
    rw [toList_bufOf (List.length_take_le _ _), List.length_take]
    congr 2
    omega

/-- A marker in the buffer is one of the datagram. -/
theorem markerAt_of_bufOf {l : List UInt8} {k : ℕ}
    (h : MarkerAt (bufOf (l.take udpDemoRxBufsize)).toList k) : MarkerAt l k := by
  rw [MarkerAt, List.prefix_iff_getElem?] at h ⊢
  intro i hi
  have hne : znjj[i] ≠ 0 := by
    have hall : ∀ b ∈ znjj, b ≠ 0 := by simp [znjj]
    exact hall _ (List.getElem_mem hi)
  have hb := h i hi
  rw [toList_bufOf (List.length_take_le _ _), List.getElem?_drop, List.getElem?_append] at hb
  split at hb
  · rw [List.getElem?_drop]
    rw [List.getElem?_take] at hb
    split at hb
    · exact hb
    · simp at hb
  · rw [List.getElem?_replicate] at hb
    split at hb
    · exact absurd (Option.some.inj hb).symm hne
    · simp at hb

/-! ## The outputs -/

/-- The pins of the two H-bridges. -/
inductive Pin
  | pb12
  | pb13
  | pb14
  | pb15
  deriving DecidableEq

/-- The LEDs, the motor pins and the PWM compare values. -/
@[ext]
structure Outputs where
  led0 : Bool
  led1 : Bool
  led2 : Bool
  pb12 : Bool
  pb13 : Bool
  pb14 : Bool
  pb15 : Bool
  ccr1 : ℕ
  ccr4 : ℕ
  deriving DecidableEq

/-- The outputs and the latch `elengine_wyx`. -/
@[ext]
structure Board extends Outputs where
  elengineWyx : UInt8
  deriving DecidableEq

/-- The writes of the output functions, and the calls of the motor functions. -/
inductive Write
  | led0 (b : Bool)
  | led1 (b : Bool)
  | led2 (b : Bool)
  /-- `GPIO_SetBits` and `GPIO_ResetBits`. -/
  | pin (p : Pin) (b : Bool)
  | ccr1 (v : ℕ)
  | ccr4 (v : ℕ)
  | elengineWyx (v : UInt8)
  /-- A call of `Open_Elengine_1`. -/
  | openElengine1 (dir : Bool)
  /-- A call of `Open_Elengine_2`. -/
  | openElengine2
  deriving DecidableEq

/-- What a write does. -/
def Board.apply (b : Board) : Write → Board
  | .led0 v => { b with led0 := v }
  | .led1 v => { b with led1 := v }
  | .led2 v => { b with led2 := v }
  | .pin .pb12 v => { b with pb12 := v }
  | .pin .pb13 v => { b with pb13 := v }
  | .pin .pb14 v => { b with pb14 := v }
  | .pin .pb15 v => { b with pb15 := v }
  | .ccr1 v => { b with ccr1 := v }
  | .ccr4 v => { b with ccr4 := v }
  | .elengineWyx v => { b with elengineWyx := v }
  | .openElengine1 _ => b
  | .openElengine2 => b

/-- What a list of writes does. -/
def Board.perform (b : Board) (ws : List Write) : Board := ws.foldl Board.apply b

/-- `Open_Elengine_1`. -/
def openElengine1 (dir : Bool) : List Write :=
  .openElengine1 dir ::
    (if dir then [.pin .pb13 true, .pin .pb12 false, .ccr4 3000]
    else [.pin .pb12 true, .pin .pb13 false, .ccr4 3000]) ++
  [.pin .pb12 false, .pin .pb13 false]

/-- `Open_Elengine_2`. -/
def openElengine2 : List Write :=
  [.openElengine2, .pin .pb14 true, .pin .pb15 false, .ccr1 2000]

/-- `Close_Elengine_1`. -/
def closeElengine1 : List Write := [.pin .pb12 false, .pin .pb13 false, .ccr4 0]

/-- `Close_Elengine_2`. -/
def closeElengine2 : List Write := [.pin .pb14 false, .pin .pb15 false, .ccr1 0]

/-- `sendrecv.elengine` holds the two characters. -/
def Sardata.Elengine (s : Sardata) (c₀ c₁ : UInt8) : Prop :=
  s.elengine[0]! = c₀ ∧ s.elengine[1]! = c₁

instance (s : Sardata) (c₀ c₁ : UInt8) : Decidable (s.Elengine c₀ c₁) :=
  inferInstanceAs (Decidable (_ ∧ _))

/-- The branch of `Message_processing` for `humi[0] == 1`: both comparisons are made, the second
with the latch the first one left. -/
def turnElengine1 (s : Sardata) (b : Board) : List Write :=
  let ws₁ := if s.Elengine 0x31 0x31 ∧ b.elengineWyx ≠ 0 then
    openElengine1 true ++ [.pin .pb12 false, .pin .pb13 false, .elengineWyx 0] else []
  let ws₂ := if s.Elengine 0x31 0x30 ∧ (b.perform ws₁).elengineWyx ≠ 0 then
    openElengine1 false ++ [.elengineWyx 0] else []
  ws₁ ++ ws₂

/-- `Message_processing`: the writes it makes on `b`. -/
def messageProcessing (s : Sardata) (b : Board) : List Write :=
  [.led0 (s.led[0]! == 0x31), .led1 (s.led[1]! == 0x31), .led2 (s.led[2]! == 0x31)] ++
  (if s.humi[0]! = 1 then turnElengine1 s b else closeElengine1) ++
  (if s.Elengine 0x30 0x31 then openElengine2 else []) ++
  (if s.Elengine 0x30 0x30 then closeElengine2 else [])

/-! ## The callback -/

/-- The fields of `struct udp_pcb` that the callback uses. -/
structure UdpPcb where
  remoteIp : UInt32
  remotePort : UInt16
  connected : Bool

/-- `udp_disconnect`. -/
def udpDisconnect (pcb : UdpPcb) : UdpPcb :=
  { pcb with remoteIp := 0, remotePort := 0, connected := false }

/-- The data of a session. -/
structure UdpDemo where
  recvbuf : RecvBuf
  sendrecv : Sardata
  board : Board
  /-- `udp_demo_flag`. -/
  flag : UInt8
  pcb : UdpPcb
  /-- `lwipdev.remoteip`. -/
  remoteip : Vector UInt8 4

/-- `udp_demo_recv`, with the writes it makes to the outputs. -/
def udpDemoRecv (d : UdpDemo) (p : Option (List Pbuf)) (addr : UInt32) (port : UInt16) :
    Option (UdpDemo × List Write) :=
  match p with
  | some p => do
    let buf ← recvCopy p
    let s ← readrecv d.sendrecv buf
    let ws := messageProcessing s d.board
    some
      ({ recvbuf := buf
         sendrecv := s
         board := d.board.perform ws
         flag := d.flag ||| 0x40
         pcb := { d.pcb with remoteIp := addr, remotePort := port }
         remoteip := #v[(addr &&& 0xff).toUInt8, (addr >>> 8 &&& 0xff).toUInt8,
           (addr >>> 16 &&& 0xff).toUInt8, (addr >>> 24 &&& 0xff).toUInt8] }, ws)
  | none => some ({ d with pcb := udpDisconnect d.pcb, flag := d.flag &&& ~~~0x20 }, [])

/-- The callback has a result: the copied datagram goes through `readrecv`, and the state it
leaves through `Message_processing`. -/
theorem exists_udpDemoRecv {d : UdpDemo} (hs : d.sendrecv.length = 15) (p : List Pbuf)
    (addr : UInt32) (port : UInt16) :
    ∃ d', udpDemoRecv d (some p) addr port =
        some (d', messageProcessing d'.sendrecv d.board) ∧
      readrecv d.sendrecv (bufOf ((chainBytes p).take udpDemoRxBufsize)) = some d'.sendrecv ∧
      d'.sendrecv.length = 15 ∧ d'.flag = d.flag ||| 0x40 ∧
      d'.board = d.board.perform (messageProcessing d'.sendrecv d.board) := by
  obtain ⟨s, hread, -, hlen⟩ :=
    exists_readrecv hs (bufOf ((chainBytes p).take udpDemoRxBufsize))
  rw [udpDemoRecv, recvCopy_eq, Option.bind_eq_bind, Option.bind_some, hread]
  exact ⟨_, rfl, rfl, hlen.trans hs, rfl, rfl⟩

end Enc28j60Udp
