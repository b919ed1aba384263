import Enc28j60Udp.Enc28j60.Packet
import Enc28j60Udp.Foundations.Ring

/-!
# The receive FIFO of the chip

How the chip stores an accepted packet: at `ERXWRPT` a header of six bytes, the address of the next
packet, the length and the status, and behind it the data. It accepts a packet when the counter
does not overflow and the space up to `ERXRDPT` suffices, and sets `RXERIF` when it does not.

With the bounds that `ENC28J60_Init` sets the receive buffer is a circular memory, and the packets
in it are a queue in the sense of `Ring.Queued`.
-/

namespace Enc28j60Udp

namespace Enc28j60

/-- A packet that the chip receives: its data with the CRC, the receive status, and how many bytes
are left out behind it. -/
structure Packet where
  data : List UInt8
  status : UInt16
  pad : ℕ
  crc_le : 4 ≤ data.length

/-- The bytes a packet takes up in the buffer. -/
def Packet.size (p : Packet) : ℕ := 6 + p.data.length + p.pad

/-- The header and the data, with `next` as the address of the next packet. -/
def Packet.image (p : Packet) (next : ℕ) : List UInt8 :=
  [lowByte next, highByte next, lowByte p.data.length, highByte p.data.length,
    lowByte p.status.toNat, highByte p.status.toNat] ++ p.data

/-- A packet in the buffer, with its address and that of the next. -/
structure Stored where
  start : ℕ
  next : ℕ
  packet : Packet

def Stored.image (q : Stored) : List UInt8 := q.packet.image q.next

/-- How packets lie in the buffer. -/
def rxFormat : Ring.Format Stored UInt8 where
  start := Stored.start
  after := Stored.next
  size q := q.packet.size
  image := Stored.image
  length_image_le q := by
    simp only [Stored.image, Packet.image, Packet.size, List.length_append, List.length_cons,
      List.length_nil]
    omega

namespace Node

variable (n : Node)

/-- The free space in the buffer, as the datasheet computes it. -/
def rxFree : ℕ :=
  if n.word 6 < n.word 7 then (n.word 5 - n.word 4) - (n.word 7 - n.word 6)
  else if n.word 7 = n.word 6 then n.word 5 - n.word 4
  else n.word 6 - n.word 7 - 1

/-- The buffer memory after bytes are received at address `a`. -/
def storeRx (mem : ℕ → UInt8) : ℕ → List UInt8 → ℕ → UInt8
  | _, [] => mem
  | a, b :: bs => storeRx (Function.update mem a b) (n.rxNext a) bs

/-- The packet is accepted. -/
def Accepts (p : Packet) : Prop := n.rxen = true ∧ n.epktcnt ≠ 255 ∧ p.size ≤ n.rxFree

instance (p : Packet) : Decidable (n.Accepts p) := inferInstanceAs (Decidable (_ ∧ _ ∧ _))

/-- Where the chip stores a packet. -/
def placed (p : Packet) : Stored := ⟨n.word 7, n.rxNext^[p.size] (n.word 7), p⟩

/-- A packet arrives. -/
def arrive (p : Packet) : Node :=
  if n.Accepts p then
    { n with
      mem := n.storeRx n.mem (n.word 7) (n.placed p).image
      epktcnt := n.epktcnt + 1 }.setWord 7 (n.placed p).next
  else if n.rxen then { n with rxerif := true }
  else n

namespace Accepts

variable {n} {p : Packet} (h : n.Accepts p)

include h

theorem arrive_word {k : ℕ} (hk : k ≠ 7) : (n.arrive p).word k = n.word k := by
  rw [arrive, if_pos h, word_setWord_of_ne _ _ hk]
  rfl

/-- `ERXWRPT` moves on to the place for the next packet. -/
theorem arrive_word_seven (hlt : (n.placed p).next < 2 ^ 16) :
    (n.arrive p).word 7 = (n.placed p).next := by
  rw [arrive, if_pos h, word_setWord_self, Nat.mod_eq_of_lt hlt]

theorem arrive_mem : (n.arrive p).mem = n.storeRx n.mem (n.word 7) (n.placed p).image := by
  rw [arrive, if_pos h, setWord_mem]

theorem arrive_driver :
    (n.arrive p).nextPacketPtr = n.nextPacketPtr ∧ (n.arrive p).readOut = n.readOut := by
  rw [arrive, if_pos h]
  exact ⟨rfl, rfl⟩

theorem arrive_epktcnt : (n.arrive p).epktcnt.toNat = n.epktcnt.toNat + 1 := by
  have hne : n.epktcnt.toNat ≠ 255 := fun he => h.2.1 (UInt8.toNat_inj.mp he)
  have hlt := n.epktcnt.toNat_lt
  rw [arrive, if_pos h]
  exact toNat_add_one (by omega)

end Accepts

end Node

/-! ## The buffer as a circular memory -/

/-- The size of the receive buffer. -/
def rxSize : ℕ := rxstopInit + 1

/-- `ERXST` and `ERXND` are as `ENC28J60_Init` sets them. -/
def Node.RxRing (n : Node) : Prop := n.word 4 = rxstartInit ∧ n.word 5 = rxstopInit

namespace Node.RxRing

variable {n : Node} (h : n.RxRing)

include h

theorem rxNext {a : ℕ} (ha : a < rxSize) : n.rxNext a = (a + 1) % rxSize := by
  rw [Node.rxNext, h.1, h.2]
  unfold rxSize rxstopInit rxstartInit at *
  split <;> omega

theorem rxNext_iterate {a : ℕ} (ha : a < rxSize) (i : ℕ) : n.rxNext^[i] a = (a + i) % rxSize := by
  induction i with
  | zero => exact (Nat.mod_eq_of_lt ha).symm
  | succ i ih =>
    rw [Function.iterate_succ_apply', ih, h.rxNext (Nat.mod_lt _ (Nat.succ_pos _)), Nat.mod_add_mod]
    rfl

theorem load {a : ℕ} (ha : a < rxSize) (len : ℕ) :
    n.load a len = Ring.slice rxSize n.mem a len := by
  induction len generalizing a with
  | zero => rfl
  | succ len ih => rw [Node.load, Ring.slice, h.rxNext ha, ih (Nat.mod_lt _ (Nat.succ_pos _))]

theorem storeRx {a : ℕ} (ha : a < rxSize) (mem : ℕ → UInt8) (bs : List UInt8) :
    n.storeRx mem a bs = Ring.store rxSize mem a bs := by
  induction bs generalizing a mem with
  | nil => rfl
  | cons b bs ih => rw [Node.storeRx, Ring.store, h.rxNext ha, ih (Nat.mod_lt _ (Nat.succ_pos _))]

/-- The free space is what it is in a circular memory; with `ERXRDPT` one behind the end, too. -/
theorem rxFree (hr : n.word 6 ≤ rxSize) (hw : n.word 7 < rxSize) :
    n.rxFree = Ring.free rxSize (n.word 7) (n.word 6) := by
  rw [Node.rxFree, h.1, h.2, Ring.free]
  unfold rxSize rxstopInit rxstartInit at *
  split_ifs <;> omega

end Node.RxRing

/-! ## Reading a stored packet -/

theorem bytes_word {v : ℕ} (hv : v < 2 ^ 16) :
    (lowByte v).toNat ||| (highByte v).toNat <<< 8 = v := by
  have hlow : (lowByte v).toNat = v % 256 := UInt8.toNat_ofNat'
  have hhigh : (highByte v).toNat = (v >>> 8) % 256 := UInt8.toNat_ofNat'
  rw [Nat.or_comm, ← Nat.shiftLeft_add_eq_or_of_lt (lowByte v).toNat_lt, hlow, hhigh,
    Nat.shiftLeft_eq, Nat.shiftRight_eq_div_pow]
  omega

/-- How many bytes of the data `ENC28J60_Packet_Receive` reads: not the CRC, at most 1517, and
nothing when the status has no `Received Ok`. -/
def Packet.readLen (p : Packet) : ℕ :=
  if p.status.toNat &&& 0x80 = 0 then 0 else min (p.data.length - 4) (maxFramelen - 1)

/-- What `ENC28J60_Packet_Receive` reads of a stored packet. -/
def Stored.read (q : Stored) : List UInt8 := q.image.take (6 + q.packet.readLen)

/-- The header is always read. -/
theorem Stored.read_ne_nil (q : Stored) : q.read ≠ [] := by
  rw [read, image, Packet.image, Nat.add_comm, List.cons_append, List.take_succ_cons]
  exact List.cons_ne_nil _ _

theorem Node.load_getElem? (n : Node) (a : ℕ) {i len : ℕ} (hi : i < len) :
    (n.load a len)[i]? = some (n.mem (n.rxNext^[i] a)) := by
  induction len generalizing a i with
  | zero => omega
  | succ len ih =>
    cases i with
    | zero => rfl
    | succ i =>
      rw [Node.load, List.getElem?_cons_succ, ih (n.rxNext a) (by omega),
        Function.iterate_succ_apply]

theorem Node.length_load (n : Node) (a len : ℕ) : (n.load a len).length = len := by
  induction len generalizing a with
  | zero => rfl
  | succ len ih => rw [Node.load, List.length_cons, ih]

theorem Node.load_take (n : Node) (a : ℕ) {i len : ℕ} (hi : i ≤ len) :
    (n.load a len).take i = n.load a i := by
  obtain ⟨j, rfl⟩ := Nat.exists_eq_add_of_le hi
  exact (congrArg _ (n.load_add a i j)).trans (List.take_left' (n.length_load a i))

theorem Node.rxWord_eq {n : Node} (hptr : n.nextPacketPtr < 2 ^ 16) {i len : ℕ} {b c : UInt8}
    (hlen : i + 1 < len) (hb : (n.load n.nextPacketPtr len)[i]? = some b)
    (hc : (n.load n.nextPacketPtr len)[i + 1]? = some c) :
    n.rxWord i = b.toNat ||| c.toNat <<< 8 := by
  rw [n.load_getElem? _ (by omega)] at hb hc
  rw [rxWord, wordAt, rxNext_setWord_zero, word_setWord_self, Nat.mod_eq_of_lt hptr,
    ← Option.some.inj hb, ← Option.some.inj hc]
  rfl

theorem receiveLen_eq {maxlen len : ℕ} (h₁ : 1 ≤ maxlen) (hmax : maxlen < 2 ^ 32) (h₄ : 4 ≤ len)
    (hlen : len < 2 ^ 16) : receiveLen maxlen len = min (len - 4) (maxlen - 1) := by
  unfold receiveLen
  simp only
  split <;> omega

/-- The clamp holds when the subtraction wraps, too. -/
theorem receiveLen_le {maxlen : ℕ} (h₁ : 1 ≤ maxlen) (hmax : maxlen < 2 ^ 32) (len : ℕ) :
    receiveLen maxlen len ≤ maxlen - 1 := by
  unfold receiveLen
  simp only
  split <;> omega

/-- What `ENC28J60_Packet_Receive` finds at a stored packet. -/
theorem Node.receive_stored {n : Node} {q : Stored} (hptr : n.nextPacketPtr < 2 ^ 16)
    (hnext : q.next < 2 ^ 16) (hlen : q.packet.data.length < 2 ^ 16)
    (hload : n.load n.nextPacketPtr q.image.length = q.image) :
    n.rxWord 0 = q.next ∧ (n.receive maxFramelen).readOut = n.readOut ++ q.read := by
  have hword {i v : ℕ} (hv : v < 2 ^ 16) (hi : i + 1 < q.image.length)
      (hb : q.image[i]? = some (lowByte v)) (hc : q.image[i + 1]? = some (highByte v)) :
      n.rxWord i = v := by
    rw [← hload] at hb hc
    rw [n.rxWord_eq hptr hi hb hc, bytes_word hv]
  have hsize : q.image.length = 6 + q.packet.data.length := by
    simp only [Stored.image, Packet.image, List.length_append, List.length_cons, List.length_nil]
  have h₀ := hword (i := 0) hnext (by omega) rfl rfl
  have h₂ := hword (i := 2) hlen (by omega) rfl rfl
  have h₄ := hword (i := 4) q.packet.status.toNat_lt (by omega) rfl rfl
  have hcount : n.rxCount maxFramelen = q.packet.readLen := by
    rw [rxCount, h₂, h₄, receiveLen_eq (by decide) (by decide) q.packet.crc_le hlen]
    rfl
  have hread : (n.receive maxFramelen).readOut = (n.readPacket maxFramelen).readOut := rfl
  refine ⟨h₀, ?_⟩
  have hle : 6 + q.packet.readLen ≤ q.image.length := by
    rw [hsize, Packet.readLen]
    split <;> omega
  rw [hread, readOut_readPacket, Nat.mod_eq_of_lt hptr, hcount, Stored.read, ← n.load_take _ hle,
    hload]

end Enc28j60

end Enc28j60Udp
