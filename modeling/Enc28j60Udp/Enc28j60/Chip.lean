import Enc28j60Udp.Enc28j60.Driver
import Enc28j60Udp.Foundations.Ring
import Enc28j60Udp.Malloc.Model
import Mathlib.Logic.Function.Iterate

/-!
# The chip and the rest of the board

What the operations of the driver do on a board: the ENC28J60 as its datasheet describes it, as far
as the driver uses it, the fields of `enc28j60_dev`, the table of the pool `SRAMIN`, and a network
stack that answers as `Env` says.

`Node` is all of this but the bank: its registers are numbered over the four banks. `World` adds the
bank that the driver believes to be selected and the one that is. A transmission is over before the
next SPI transaction, with its status vector written behind `ETXND`; the PHY is never busy, and a
packet that is counted is complete.
-/

namespace Enc28j60Udp

namespace Enc28j60

/-! ## Commands and registers -/

/-- The SPI instructions. -/
inductive Opcode
  | rcr
  | rbm
  | wcr
  | wbm
  | bfs
  | bfc
  | src
  | unused
  deriving DecidableEq

/-- The instruction, in the top three bits of a command byte. -/
def opcode (op : UInt8) : Opcode :=
  match (op >>> 5).toNat with
  | 0 => .rcr
  | 1 => .rbm
  | 2 => .wcr
  | 3 => .wbm
  | 4 => .bfs
  | 5 => .bfc
  | 7 => .src
  | _ => .unused

/-- The new value of a register. -/
def Opcode.apply : Opcode → UInt8 → UInt8 → UInt8
  | .wcr, _, data => data
  | .bfs, old, data => old ||| data
  | .bfc, old, data => old &&& ~~~data
  | _, old, _ => old

/-- The register address in a command byte. -/
def regAddr (addr : UInt8) : ℕ := (addr &&& addrMask).toNat

/-- The bank of an address. -/
def bankOf (addr : UInt8) : UInt8 := (addr &&& bankMask) >>> 5

/-- The number of a register: the registers from `EIE` on are the same in all banks. -/
def regIndex (bank : ℕ) (addr : UInt8) : ℕ :=
  if 0x1B ≤ regAddr addr then regAddr addr else 32 * bank + regAddr addr

/-! ## The board -/

/-- A frame the stack sends. -/
structure Frame where
  bytes : List UInt8
  length_le : bytes.length ≤ maxFramelen

/-- How a transmission ends: its status vector, and whether it sets `TXIF` and `TXERIF`. -/
structure Outcome where
  vector : List UInt8
  txif : Bool
  txerif : Bool
  length_vector : vector.length = 7

/-- What the board does not determine; the answers of the stack and of the line depend on how often
they were asked for before. -/
structure Env where
  placement : Placement
  uid : ℕ
  /-- `pbuf_alloc` succeeds. -/
  pbufAlloc : ℕ → Bool
  /-- The frames `netif->input` sends, and whether it returns `ERR_OK`. -/
  input : ℕ → List UInt8 → List Frame × Bool
  transmit : ℕ → Outcome

/-- The board, but for the bank. -/
structure Node where
  /-- The registers that only store what is written. -/
  regs : ℕ → UInt8
  /-- The buffer memory. -/
  mem : ℕ → UInt8
  epktcnt : UInt8
  rxen : Bool
  txif : Bool
  txerif : Bool
  rxerif : Bool
  nextPacketPtr : ℕ
  macaddr : List UInt8
  /-- `memmap` of the pool `SRAMIN`, which is ready. -/
  memmap : ℕ → ℕ
  /-- The bytes of buffer memory read so far. -/
  readOut : List UInt8
  /-- How often the stack and the line were asked. -/
  clock : ℕ

/-- The board. -/
structure World where
  node : Node
  /-- `enc28j60_dev.enc28j60bank`. -/
  bank : UInt8
  /-- `ECON1.BSEL1:BSEL0`. -/
  bsel : Fin 4

namespace Node

/-- `EIR`: `PKTIF` is set while `EPKTCNT` is not zero. -/
def eirBits (n : Node) : UInt8 :=
  (if n.epktcnt ≠ 0 then 0x40 else 0) ||| (if n.txif then 0x08 else 0) |||
    (if n.txerif then 0x02 else 0) ||| (if n.rxerif then 0x01 else 0)

/-- `INT` is low while `INTIE` is set and an enabled flag of `EIR` is. -/
def intLow (n : Node) : Bool :=
  n.regs 0x1B &&& 0x80 != 0 && n.regs 0x1B &&& n.eirBits &&& 0x7F != 0

/-- Read a register other than `ECON1`. In `ESTAT` the clock is ready, in `ECON2` `AUTOINC` is
set; number `0x39` is `EPKTCNT` and `0x6A` is `MISTAT`. -/
def readReg (n : Node) (i : ℕ) : UInt8 :=
  if i = 0x1C then n.eirBits
  else if i = 0x1D then 0x01
  else if i = 0x1E then 0x80
  else if i = 0x39 then n.epktcnt
  else if i = 0x6A then 0
  else n.regs i

/-- `ECON2.PKTDEC`: the counter stops at zero. -/
def pktdec (n : Node) : Node := { n with epktcnt := if n.epktcnt = 0 then 0 else n.epktcnt - 1 }

/-- Write a register other than `ECON1`. -/
def setReg (n : Node) (i : ℕ) (v : UInt8) : Node :=
  if i = 0x1C then
    { n with txif := v &&& 0x08 != 0, txerif := v &&& 0x02 != 0, rxerif := v &&& 0x01 != 0 }
  else if i = 0x1E then if v &&& 0x40 ≠ 0 then n.pktdec else n
  else if i = 0x1D ∨ i = 0x39 ∨ i = 0x6A then n
  else { n with regs := Function.update n.regs i v }

/-- Pointer register number `k`: `ERDPT`, `EWRPT`, `ETXST`, `ETXND`, `ERXST`, `ERXND`, `ERXRDPT`
and `ERXWRPT`, in this order. -/
def word (n : Node) (k : ℕ) : ℕ := (n.regs (2 * k)).toNat + 256 * (n.regs (2 * k + 1)).toNat

/-- `ECON1.TXRTS`. The addresses of the status vector are taken modulo the size of the memory. -/
def transmit (n : Node) (env : Env) : Node :=
  { n with
    mem := Ring.store (2 ^ 13) n.mem ((n.word 3 + 1) % 2 ^ 13) (env.transmit n.clock).vector
    txif := n.txif || (env.transmit n.clock).txif
    txerif := n.txerif || (env.transmit n.clock).txerif
    clock := n.clock + 1 }

/-- `ECON1`, with the bank bits `bsel`. -/
def econ1Bits (n : Node) (bsel : Fin 4) : UInt8 :=
  (if n.rxen then 0x04 else 0) ||| UInt8.ofNat bsel

/-- The effect of a new value of `ECON1`, but for the bank bits. -/
def setEcon1 (n : Node) (env : Env) (v : UInt8) : Node :=
  if v &&& 0x08 ≠ 0 then { n with rxen := v &&& 0x04 != 0 }.transmit env
  else { n with rxen := v &&& 0x04 != 0 }

/-! ### Buffer memory -/

/-- Set a pointer register. -/
def setWord (n : Node) (k v : ℕ) : Node :=
  { n with
    regs := Function.update (Function.update n.regs (2 * k) (lowByte v)) (2 * k + 1) (highByte v) }

/-- The address after `a` in the receive buffer. -/
def rxNext (n : Node) (a : ℕ) : ℕ := if a = n.word 5 then n.word 4 else (a + 1) % 2 ^ 13

/-- `len` bytes of buffer memory, from address `a`. -/
def load (n : Node) : ℕ → ℕ → List UInt8
  | _, 0 => []
  | a, len + 1 => n.mem a :: load n (n.rxNext a) len

/-- `len` bytes are read at `ERDPT`, which moves on. -/
def readMem (n : Node) (len : ℕ) : Node :=
  { n with readOut := n.readOut ++ n.load (n.word 0) len }.setWord 0 (n.rxNext^[len] (n.word 0))

/-- Bytes are written at `EWRPT`, which moves on. -/
def writeMem (n : Node) : List UInt8 → Node
  | [] => n
  | b :: bs =>
    ({ n with mem := Function.update n.mem (n.word 1) b }.setWord 1
      ((n.word 1 + 1) % 2 ^ 13)).writeMem bs

/-- The state after a reset; the buffer memory is not cleared. -/
def reset (n : Node) : Node :=
  { n with
    regs := fun _ => 0
    epktcnt := 0
    rxen := false
    txif := false
    txerif := false
    rxerif := false }

/-- The pool `SRAMIN`, as the allocator sees it. -/
def pool (n : Node) : MallcoDev := ⟨n.memmap, true, fun _ => 0⟩

end Node

namespace World

/-- The bank bits of a value of `ECON1`. -/
def bselOf (v : UInt8) : Fin 4 := ⟨v.toNat % 4, Nat.mod_lt _ (Nat.zero_lt_succ 3)⟩

/-- A reset of the chip clears the bank bits. -/
def reset (w : World) : World := ⟨w.node.reset, w.bank, bselOf 0⟩

/-- Read a register in the selected bank. -/
def readReg (w : World) (addr : UInt8) : UInt8 :=
  if regAddr addr = 0x1F then w.node.econ1Bits w.bsel
  else w.node.readReg (regIndex w.bsel addr)

/-- Write a register in the selected bank. -/
def writeReg (w : World) (env : Env) (c : Opcode) (addr data : UInt8) : World :=
  if regAddr addr = 0x1F then
    let v := c.apply (w.node.econ1Bits w.bsel) data
    ⟨w.node.setEcon1 env v, w.bank, bselOf v⟩
  else
    let i := regIndex w.bsel addr
    { w with node := w.node.setReg i (c.apply (w.node.readReg i) data) }

end World

/-- The meaning of an operation of the driver on the board. -/
def boardStep (env : Env) : (o : Op) → World → o.Res × World
  | .rst, w => ((), w.reset)
  | .readOp op addr, w =>
    match opcode op with
    | .rbm => (w.node.mem (w.node.word 0), { w with node := w.node.readMem 1 })
    | _ => (w.readReg addr, w)
  | .writeOp op addr data, w =>
    match opcode op with
    | .src => ((), w.reset)
    | .wbm => ((), { w with node := w.node.writeMem [data] })
    | .wcr => ((), w.writeReg env .wcr addr data)
    | .bfs => ((), w.writeReg env .bfs addr data)
    | .bfc => ((), w.writeReg env .bfc addr data)
    | _ => ((), w)
  | .readBuf len, w => (w.node.load (w.node.word 0) len, { w with node := w.node.readMem len })
  | .writeBuf data, w => ((), { w with node := w.node.writeMem data })
  | .getBank, w => (w.bank, w)
  | .setBank bank, w => ((), { w with bank := bank })
  | .getNext, w => (w.node.nextPacketPtr, w)
  | .setNext ptr, w => ((), { w with node := { w.node with nextPacketPtr := ptr } })
  | .getUid, w => (env.uid, w)
  | .setMacaddr mac, w => ((), { w with node := { w.node with macaddr := mac } })
  | .intx _, w => ((), w)
  | .intPin, w => (!w.node.intLow, w)
  | .mymalloc size, w =>
    let r := Prog.run memStep (mymalloc env.placement .sramin size) w.node.pool
    (r.1.getD null, { w with node := { w.node with memmap := r.2.memmap } })
  | .myfree ptr, w =>
    let r := Prog.run memStep (myfree env.placement .sramin ptr) w.node.pool
    ((), { w with node := { w.node with memmap := r.2.memmap } })
  | .pbufAlloc _, w =>
    (env.pbufAlloc w.node.clock, { w with node := { w.node with clock := w.node.clock + 1 } })
  | .netifInput packet, w =>
    let r := env.input w.node.clock packet
    ((r.1.map Frame.bytes, r.2), { w with node := { w.node with clock := w.node.clock + 1 } })

/-- The chip and the driver at power on. -/
def powerOn : World where
  node :=
    { regs := fun _ => 0, mem := fun _ => 0, epktcnt := 0, rxen := false, txif := false
      txerif := false, rxerif := false, nextPacketPtr := 0, macaddr := [], memmap := fun _ => 0
      readOut := [], clock := 0 }
  bank := 0
  bsel := World.bselOf 0

/-- A transmission that raises no flag. -/
def quietOutcome : Outcome := ⟨List.replicate 7 0, false, false, rfl⟩

/-- Surroundings in which nothing is sent and `pbuf_alloc` succeeds. -/
def quietEnv : Env where
  placement := imagePlacement
  uid := 0
  pbufAlloc _ := true
  input _ _ := ([], true)
  transmit _ := quietOutcome

end Enc28j60

end Enc28j60Udp
