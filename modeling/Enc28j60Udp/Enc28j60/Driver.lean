import Enc28j60Udp.Foundations.Prog
import Mathlib.Algebra.GroupWithZero.Nat

/-!
# The ENC28J60 driver

`enc28j60.c`, with the parts of `ethernetif.c` that its interrupt handler calls. The functions are
programs over SPI transactions with the chip, the fields of `enc28j60_dev`, and what the driver
uses of the rest of the system; no chip is assumed here.

A busy-wait loop hangs when it still waits after `fuel` rounds. The set-up of the pins, of the SPI
and of the external interrupt in `ENC28J60_Init` is left out. `netif->input` is the stack: what
matters of it is which frames it sends while it works on a packet.
-/

namespace Enc28j60Udp

namespace Enc28j60

/-! ## Registers -/

def addrMask : UInt8 := 0x1F
def bankMask : UInt8 := 0x60

-- all banks
def eie : UInt8 := 0x1B
def eir : UInt8 := 0x1C
def estat : UInt8 := 0x1D
def econ2 : UInt8 := 0x1E
def econ1 : UInt8 := 0x1F

-- bank 0
def erdptl : UInt8 := 0x00
def erdpth : UInt8 := 0x01
def ewrptl : UInt8 := 0x02
def ewrpth : UInt8 := 0x03
def etxstl : UInt8 := 0x04
def etxsth : UInt8 := 0x05
def etxndl : UInt8 := 0x06
def etxndh : UInt8 := 0x07
def erxstl : UInt8 := 0x08
def erxsth : UInt8 := 0x09
def erxndl : UInt8 := 0x0A
def erxndh : UInt8 := 0x0B
def erxrdptl : UInt8 := 0x0C
def erxrdpth : UInt8 := 0x0D

-- bank 1
def epmm0 : UInt8 := 0x28
def epmm1 : UInt8 := 0x29
def epmcsl : UInt8 := 0x30
def epmcsh : UInt8 := 0x31
def erxfcon : UInt8 := 0x38
def epktcnt : UInt8 := 0x39

-- bank 2; bit 7 marks the MAC and MII registers
def macon1 : UInt8 := 0xC0
def macon2 : UInt8 := 0xC1
def macon3 : UInt8 := 0xC2
def mabbipg : UInt8 := 0xC4
def maipgl : UInt8 := 0xC6
def maipgh : UInt8 := 0xC7
def mamxfll : UInt8 := 0xCA
def mamxflh : UInt8 := 0xCB
def micmd : UInt8 := 0xD2
def miregadr : UInt8 := 0xD4
def miwrl : UInt8 := 0xD6
def miwrh : UInt8 := 0xD7
def mirdl : UInt8 := 0xD8
def mirdh : UInt8 := 0xD9

-- bank 3
def maadr1 : UInt8 := 0xE0
def maadr0 : UInt8 := 0xE1
def maadr3 : UInt8 := 0xE2
def maadr2 : UInt8 := 0xE3
def maadr5 : UInt8 := 0xE4
def maadr4 : UInt8 := 0xE5
def mistat : UInt8 := 0xEA
def erevid : UInt8 := 0x72

-- PHY
def phcon1 : UInt8 := 0x00
def phcon2 : UInt8 := 0x10

-- SPI commands
def readCtrlReg : UInt8 := 0x00
def readBufMem : UInt8 := 0x3A
def writeCtrlReg : UInt8 := 0x40
def writeBufMem : UInt8 := 0x7A
def bitFieldSet : UInt8 := 0x80
def bitFieldClr : UInt8 := 0xA0
def softReset : UInt8 := 0xFF

def rxstartInit : ℕ := 0x0
def rxstopInit : ℕ := 0x1FFF - 1518 - 1
def txstartInit : ℕ := 0x1FFF - 1518
def txstopInit : ℕ := 0x1FFF
def maxFramelen : ℕ := 1518

/-- The low byte of a value, as an argument of type `u8` takes it. -/
def lowByte (v : ℕ) : UInt8 := UInt8.ofNat v

/-- The second byte of a value. -/
def highByte (v : ℕ) : UInt8 := UInt8.ofNat (v >>> 8)

/-! ## Operations -/

/-- What the driver asks of its surroundings. -/
inductive Op
  /-- `ENC28J60_RST=0` and then `1`. -/
  | rst
  /-- The SPI transaction of `ENC28J60_Read_Op`. -/
  | readOp (op addr : UInt8)
  /-- The SPI transaction of `ENC28J60_Write_Op`. -/
  | writeOp (op addr data : UInt8)
  /-- Read `len` bytes of buffer memory. -/
  | readBuf (len : ℕ)
  /-- Write buffer memory. -/
  | writeBuf (data : List UInt8)
  /-- Read and write `enc28j60_dev.enc28j60bank`. -/
  | getBank
  | setBank (bank : UInt8)
  /-- Read and write `enc28j60_dev.NextPacketPtr`. -/
  | getNext
  | setNext (ptr : ℕ)
  /-- The unique identifier of the controller. -/
  | getUid
  /-- Write `enc28j60_dev.macaddr`. -/
  | setMacaddr (mac : List UInt8)
  /-- `INTX_DISABLE` and `INTX_ENABLE`. -/
  | intx (enable : Bool)
  /-- `ENC28J60_INT`. -/
  | intPin
  /-- `mymalloc(SRAMIN, size)` and `myfree(SRAMIN, ptr)`. -/
  | mymalloc (size : ℕ)
  | myfree (ptr : ℕ)
  /-- `pbuf_alloc(PBUF_RAW, len, PBUF_POOL)`: whether it succeeds. -/
  | pbufAlloc (len : ℕ)
  /-- `netif->input`: the frames it sends, and whether it returns `ERR_OK`. -/
  | netifInput (packet : List UInt8)

/-- What each operation returns. -/
abbrev Op.Res : Op → Type
  | .rst => Unit
  | .readOp _ _ => UInt8
  | .writeOp _ _ _ => Unit
  | .readBuf _ => List UInt8
  | .writeBuf _ => Unit
  | .getBank => UInt8
  | .setBank _ => Unit
  | .getNext => ℕ
  | .setNext _ => Unit
  | .getUid => ℕ
  | .setMacaddr _ => Unit
  | .intx _ => Unit
  | .intPin => Bool
  | .mymalloc _ => ℕ
  | .myfree _ => Unit
  | .pbufAlloc _ => Bool
  | .netifInput _ => List (List UInt8) × Bool

/-- Programs of the driver. -/
abbrev DriverProg := Prog Op Op.Res

/-- A single operation. -/
def perform (o : Op) : DriverProg o.Res := Prog.lift o

/-! ## Register access -/

/-- `ENC28J60_Read_Op`. -/
def readOp (op addr : UInt8) : DriverProg UInt8 := perform (.readOp op addr)

/-- `ENC28J60_Write_Op`. -/
def writeOp (op addr data : UInt8) : DriverProg Unit := perform (.writeOp op addr data)

/-- `ENC28J60_Set_Bank`. -/
def setBank (bank : UInt8) : DriverProg Unit := do
  let enc28j60bank ← perform .getBank
  if bank &&& bankMask ≠ enc28j60bank then do
    writeOp bitFieldClr econ1 0x03
    writeOp bitFieldSet econ1 ((bank &&& bankMask) >>> 5)
    perform (.setBank (bank &&& bankMask))
  else pure ()

/-- `ENC28J60_Read`. -/
def read (addr : UInt8) : DriverProg UInt8 := do
  setBank addr
  readOp readCtrlReg addr

/-- `ENC28J60_Write`. -/
def write (addr data : UInt8) : DriverProg Unit := do
  setBank addr
  writeOp writeCtrlReg addr data

/-- `ENC28J60_Write` for each pair of a register and a value. -/
def writeAll (regs : List (UInt8 × UInt8)) : DriverProg Unit := regs.forM fun r => write r.1 r.2

/-- A register has a bit of `mask` set. -/
def testBits (addr mask : UInt8) : DriverProg Bool := do
  let v ← read addr
  pure (v &&& mask != 0)

/-- `ENC28J60_Read_Buf`: the bytes it stores at `data`, the terminator included. -/
def readBuf (len : ℕ) : DriverProg (List UInt8) := do
  let data ← perform (.readBuf len)
  pure (data ++ [0])

/-- `ENC28J60_Write_Buf`. -/
def writeBuf (data : List UInt8) : DriverProg Unit := perform (.writeBuf data)

/-- `ENC28J60_PHY_Write`. -/
def phyWrite (addr : UInt8) (data : UInt16) : DriverProg Unit := do
  write miregadr addr
  write miwrl data.toUInt8
  write miwrh (data >>> 8).toUInt8
  let _ ← Prog.retryWhile (testBits mistat 0x01) 0xFFFF 0xFFFF
  pure ()

/-- `ENC28J60_PHY_Read`. -/
def phyRead (addr : UInt8) : DriverProg UInt16 := do
  let temp ← read micmd
  write miregadr addr
  write micmd (temp ||| 0x01)
  let _ ← Prog.retryWhile (testBits mistat 0x01) 0xFFFF 0xFFFF
  write micmd (temp &&& ~~~0x01)
  let low ← read mirdl
  let high ← read mirdh
  pure (low.toUInt16 ||| high.toUInt16 <<< 8)

/-- `ENC28J60_Get_EREVID`. -/
def getErevid : DriverProg UInt8 := do
  let v ← read erevid
  pure (v &&& 0x1F)

/-- `ENC28J60_Get_Duplex`. -/
def getDuplex : DriverProg UInt16 := do
  let temp ← phyRead phcon1
  pure ((temp &&& 0x0100) >>> 8)

/-! ## Initialisation -/

/-- The MAC address, with the low bytes of the identifier. -/
def macaddrOf (temp : ℕ) : List UInt8 :=
  [2, 0, 0, lowByte (temp >>> 16), lowByte (temp >>> 8), lowByte temp]

/-- The registers `ENC28J60_Init` writes before the MAC address, in order. -/
def initRegs : List (UInt8 × UInt8) :=
  [(erxstl, lowByte rxstartInit), (erxsth, highByte rxstartInit),
    (erxndl, lowByte rxstopInit), (erxndh, highByte rxstopInit),
    (etxstl, lowByte txstartInit), (etxsth, highByte txstartInit),
    (etxndl, lowByte txstopInit), (etxndh, highByte txstopInit),
    (erxrdptl, lowByte rxstartInit), (erxrdpth, highByte rxstartInit),
    (erxfcon, 0), (epmm0, 0x3F), (epmm1, 0x30), (epmcsl, 0xF9), (epmcsh, 0xF7),
    (macon1, 0x0D), (macon2, 0x00), (macon3, 0x33),
    (mamxfll, lowByte maxFramelen), (mamxflh, highByte maxFramelen),
    (mabbipg, 0x15), (maipgl, 0x12), (maipgh, 0x0C)]

/-- The registers of the MAC address. -/
def macRegs (mac : List UInt8) : List (UInt8 × UInt8) :=
  [maadr5, maadr4, maadr3, maadr2, maadr1, maadr0].zip mac

/-- `ENC28J60_Init`. -/
def init : DriverProg ℕ := do
  let temp ← perform .getUid
  perform (.setMacaddr (macaddrOf temp))
  perform .rst
  writeOp softReset 0 softReset
  let retry ← Prog.retryWhile (do let v ← read estat; pure (v &&& 0x01 == 0)) 250 250
  if 250 ≤ retry then pure 1
  else do
    let _ ← getErevid
    perform (.setNext rxstartInit)
    writeAll initRegs
    writeAll (macRegs (macaddrOf temp))
    phyWrite phcon1 0x0100
    phyWrite phcon2 0x0100
    setBank econ1
    writeOp bitFieldSet eie 0xCB
    writeOp bitFieldSet econ1 0x04
    let _ ← getDuplex
    pure 0

/-! ## Packets -/

section Packets

variable (fuel : ℕ)

/-- The control byte of a packet of `len` bytes. -/
def writeControl (len : ℕ) : DriverProg Unit :=
  if maxFramelen < len then do
    write macon3 0x04
    writeOp writeBufMem 0 0x09
  else writeOp writeBufMem 0 0x00

/-- `ENC28J60_Packet_Send`. -/
def packetSend (packet : List UInt8) : DriverProg Unit := do
  perform (.intx false)
  Prog.whileDo (testBits econ1 0x08) (pure ()) fuel
  write ewrptl (lowByte txstartInit)
  write ewrpth (highByte txstartInit)
  write etxndl (lowByte (txstartInit + packet.length))
  write etxndh (highByte (txstartInit + packet.length))
  writeControl packet.length
  writeBuf packet
  writeOp bitFieldSet econ1 0x08
  let error ← testBits eir 0x02
  Prog.when error (writeOp bitFieldClr econ1 0x08)
  perform (.intx true)

/-- The length `ENC28J60_Packet_Receive` makes of the length field and `maxlen`: the subtraction of
the CRC is one of `u32`. -/
def receiveLen (maxlen field : ℕ) : ℕ :=
  let len := (field + 2 ^ 32 - 4) % 2 ^ 32
  let limit := (maxlen + 2 ^ 32 - 1) % 2 ^ 32
  if limit < len then limit else len

/-- Two bytes of buffer memory, read one by one. -/
def readBufWord : DriverProg ℕ := do
  let low ← readOp readBufMem 0
  let high ← readOp readBufMem 0
  pure (low.toNat ||| high.toNat <<< 8)

/-- The data of a packet: nothing when the status has no `Received Ok`. -/
def readData (maxlen field rxstat : ℕ) : DriverProg (ℕ × List UInt8) :=
  if rxstat &&& 0x80 = 0 then pure (0, [])
  else do
    let data ← readBuf (receiveLen maxlen field)
    pure (receiveLen maxlen field, data)

/-- `ENC28J60_Packet_Receive`: the length, and the bytes stored at `packet`. -/
def packetReceive (maxlen : ℕ) : DriverProg (ℕ × List UInt8) := do
  perform (.intx false)
  let count ← read epktcnt
  if count = 0 then pure (0, [])
  else do
    Prog.whileDo (testBits estat 0x04) (pure ()) fuel
    let ptr ← perform .getNext
    write erdptl (lowByte ptr)
    write erdpth (highByte ptr)
    let next ← readBufWord
    perform (.setNext next)
    let field ← readBufWord
    let rxstat ← readBufWord
    let received ← readData maxlen field rxstat
    write erxrdptl (lowByte next)
    write erxrdpth (highByte next)
    writeOp bitFieldSet econ2 0x40
    perform (.intx true)
    pure received

/-- `low_level_output`, for a chain with the bytes `packet`. When `mymalloc` fails only a message
is printed, and the copy goes through `NULL`: the model hangs there. -/
def lowLevelOutput (packet : List UInt8) : DriverProg Unit := do
  let buffer ← perform (.mymalloc packet.length)
  if buffer = 0 ∧ packet ≠ [] then .hang
  else do
    packetSend fuel packet
    perform (.myfree buffer)

/-- `low_level_input`: the bytes of the chain it returns. -/
def lowLevelInput : DriverProg (Option (List UInt8)) := do
  let buffer ← perform (.mymalloc 1600)
  if buffer = 0 then pure none
  else do
    let received ← packetReceive fuel maxFramelen
    let ok ← perform (.pbufAlloc received.1)
    perform (.myfree buffer)
    pure (if ok then some (received.2.take received.1) else none)

/-- `ethernetif_input`; `lwip_pkt_handle` calls nothing else. -/
def ethernetifInput : DriverProg Unit := do
  match ← lowLevelInput fuel with
  | none => pure ()
  | some packet => do
    let reply ← perform (.netifInput packet)
    reply.1.forM fun frame => lowLevelOutput fuel frame

/-- The branch of `ENC28J60_ISRHandler` for a receive error. -/
def receiveError : DriverProg Unit := do
  writeOp bitFieldClr eir 0x01
  let _ ← read epktcnt
  let high ← read erxrdpth
  let low ← read erxrdptl
  let temp := ((high.toNat <<< 8 ||| low.toNat) + 1) % 2 ^ 16
  write erxrdptl (lowByte temp)
  write erxrdpth (highByte temp)
  writeOp bitFieldSet econ2 0x40

/-- `ENC28J60_ISRHandler`. -/
def isrHandler : DriverProg Unit := do
  writeOp bitFieldClr eie 0x80
  let status ← read eir
  Prog.when (status &&& 0x40 ≠ 0) do
    writeOp bitFieldClr eir 0x40
    ethernetifInput fuel
  Prog.when (status &&& 0x08 ≠ 0) (writeOp bitFieldClr eir 0x08)
  Prog.when (status &&& 0x01 ≠ 0) receiveError
  Prog.when (status &&& 0x02 ≠ 0) do
    writeOp bitFieldClr eir 0x02
    writeOp bitFieldClr estat 0x12
  writeOp bitFieldSet eie 0x80

/-- `EXTI1_IRQHandler`, at most `rounds` rounds of its loop. -/
def exti1IrqHandler (rounds : ℕ) : DriverProg Unit :=
  Prog.whileDo (do let level ← perform .intPin; pure (level == false)) (isrHandler fuel) rounds

end Packets

/-! ## Which operations the functions issue -/

/-- The operations of `ENC28J60_Set_Bank`. -/
structure SelectsBank (A : Op → Prop) : Prop where
  getBank : A .getBank
  clear : A (.writeOp bitFieldClr econ1 0x03)
  set : ∀ bank : UInt8, A (.writeOp bitFieldSet econ1 ((bank &&& bankMask) >>> 5))
  setBank : ∀ bank, A (.setBank bank)

namespace SelectsBank

variable {A : Op → Prop} (h : SelectsBank A)

include h

theorem only_setBank (addr : UInt8) : Prog.Only A (Enc28j60.setBank addr) :=
  .bind (.lift h.getBank) fun _ =>
    .ite (.bind (.lift h.clear) fun _ => .bind (.lift (h.set addr)) fun _ => .lift (h.setBank _))
      (.pure ())

theorem only_read {addr : UInt8} (hread : A (.readOp readCtrlReg addr)) :
    Prog.Only A (Enc28j60.read addr) :=
  .bind (h.only_setBank addr) fun _ => .lift hread

theorem only_testBits {addr : UInt8} (hread : A (.readOp readCtrlReg addr)) (mask : UInt8) :
    Prog.Only A (Enc28j60.testBits addr mask) :=
  .bind (h.only_read hread) fun _ => .pure _

theorem only_write {addr v : UInt8} (hwrite : A (.writeOp writeCtrlReg addr v)) :
    Prog.Only A (Enc28j60.write addr v) :=
  .bind (h.only_setBank addr) fun _ => .lift hwrite

end SelectsBank

theorem only_readBufWord {A : Op → Prop} (h : A (.readOp readBufMem 0)) :
    Prog.Only A Enc28j60.readBufWord :=
  .bind (.lift h) fun _ => .bind (.lift h) fun _ => .pure _

theorem only_readData {A : Op → Prop} (h : ∀ len, A (.readBuf len)) (maxlen field rxstat : ℕ) :
    Prog.Only A (Enc28j60.readData maxlen field rxstat) :=
  .ite (.pure _) (.bind (.bind (.lift (h _)) fun _ => .pure _) fun _ => .pure _)

end Enc28j60

end Enc28j60Udp
