import Enc28j60Udp.Malloc.Session
import Enc28j60Udp.Udp.Frame

/-!
# Sending a frame

`udp_demo_senddata` takes a `pbuf` of `strlen(udp_demo_sendbuf)` bytes before it has allocated the
buffer, so the length is that of whatever the pointer of the last call (`NULL` at first) points
to; it then copies `strlen` bytes of a binary frame without a terminator.

A byte of the `pbuf` that nothing has written is `none`. `senddata_ok_iff` says for which states
the peer gets the frame: both lengths are 15 as `u16` values, which takes a frame without zero
bytes and a zero byte behind it.
-/

namespace Enc28j60Udp

/-! ## `strlen` -/

/-- The bytes from `a` up to the first zero, `n` of which were counted; `fuel` bytes are left. -/
def strlenFrom (mem : ℕ → UInt8) (a : ℕ) : ℕ → ℕ → Option ℕ
  | 0, _ => none
  | fuel + 1, n => if mem (a + n) = 0 then some n else strlenFrom mem a fuel (n + 1)

/-- `strlen`; no result when there is no zero byte up to the end of the address space. -/
def strlen (mem : ℕ → UInt8) (a : ℕ) : Option ℕ := strlenFrom mem a (2 ^ 32 - a) 0

theorem strlenFrom_eq_some {mem : ℕ → UInt8} {a fuel n m : ℕ} :
    strlenFrom mem a fuel n = some m ↔
      n ≤ m ∧ m < n + fuel ∧ mem (a + m) = 0 ∧ ∀ i, n ≤ i → i < m → mem (a + i) ≠ 0 := by
  induction fuel generalizing n with
  | zero =>
    simp only [strlenFrom]
    constructor
    · intro h
      cases h
    · rintro ⟨h₁, h₂, -⟩
      omega
  | succ fuel ih =>
    rw [strlenFrom]
    split_ifs with h0
    · constructor
      · intro h
        obtain rfl := Option.some.inj h
        exact ⟨Nat.le_refl _, by omega, h0, fun i h₁ h₂ => by omega⟩
      · rintro ⟨h₁, -, -, h₄⟩
        by_contra hne
        have hlt : n < m := lt_of_le_of_ne h₁ fun he => hne (congrArg some he)
        exact h₄ n (Nat.le_refl n) hlt h0
    · rw [ih]
      constructor
      · rintro ⟨h₁, h₂, h₃, h₄⟩
        refine ⟨by omega, by omega, h₃, fun i hi hm => ?_⟩
        rcases Nat.eq_or_lt_of_le hi with rfl | hi
        · exact h0
        · exact h₄ i hi hm
      · rintro ⟨h₁, h₂, h₃, h₄⟩
        have hne : n ≠ m := fun he => h0 (he ▸ h₃)
        exact ⟨by omega, by omega, h₃, fun i hi hm => h₄ i (by omega) hm⟩

theorem strlen_eq_some {mem : ℕ → UInt8} {a n : ℕ} :
    strlen mem a = some n ↔
      a + n < 2 ^ 32 ∧ mem (a + n) = 0 ∧ ∀ i < n, mem (a + i) ≠ 0 := by
  rw [strlen, strlenFrom_eq_some]
  constructor
  · rintro ⟨-, h₂, h₃, h₄⟩
    exact ⟨by omega, h₃, fun i hi => h₄ i (Nat.zero_le i) hi⟩
  · rintro ⟨h₂, h₃, h₄⟩
    exact ⟨Nat.zero_le n, by omega, h₃, fun i _ hi => h₄ i hi⟩

/-- A string behind `k` bytes that are not zero. -/
theorem strlen_add {mem : ℕ → UInt8} {a k m : ℕ} :
    strlen mem a = some (k + m) ↔ (∀ i < k, mem (a + i) ≠ 0) ∧ strlen mem (a + k) = some m := by
  rw [strlen_eq_some, strlen_eq_some, ← Nat.add_assoc]
  constructor
  · rintro ⟨h₁, h₂, h₃⟩
    refine ⟨fun i hi => h₃ i (by omega), h₁, h₂, fun i hi => ?_⟩
    rw [Nat.add_assoc]
    exact h₃ (k + i) (by omega)
  · rintro ⟨h₁, h₂, h₃, h₄⟩
    refine ⟨h₂, h₃, fun i hi => ?_⟩
    by_cases hik : i < k
    · exact h₁ i hik
    · have h := h₄ (i - k) (by omega)
      rwa [Nat.add_assoc, Nat.add_sub_of_le (by omega)] at h

/-- `strlen` depends on the memory from its argument on. -/
theorem strlen_congr {mem mem' : ℕ → UInt8} {a : ℕ} (h : ∀ i, mem (a + i) = mem' (a + i)) :
    strlen mem a = strlen mem' a := by
  apply Option.ext
  intro n
  rw [strlen_eq_some, strlen_eq_some]
  simp only [h]

/-! ## The model -/

/-- The character of a high nibble in `setdata`; from ten on the nibble is not shifted. -/
def highDigit (b : UInt8) : UInt8 :=
  if (b &&& 0xF0) >>> 4 < 0x0A then ((b &&& 0xF0) >>> 4) + 0x30 else (b &&& 0xF0) + 0x37

/-- The character of a low nibble in `setdata`. -/
def lowDigit (b : UInt8) : UInt8 :=
  if b &&& 0x0F < 0x0A then (b &&& 0x0F) + 0x30 else (b &&& 0x0F) + 0x37

/-- `setdata`. -/
def setdata (temp1 humi1 : UInt8) (s : Sardata) : Sardata :=
  { s with data := #v[highDigit temp1, lowDigit temp1, highDigit humi1, lowDigit humi1] }

/-- `pbuf_take`: the bytes of the chain after the call. -/
def pbufTake (mem : ℕ → UInt8) (payload : List (Option UInt8)) (dataptr len : ℕ) :
    List (Option UInt8) :=
  if dataptr = null ∨ payload.length < len then payload
  else (List.range len).map (fun i => some (mem (dataptr + i))) ++ payload.drop len

/-- The data `udp_demo_senddata` works on. -/
structure SendState where
  pool : MallcoDev
  /-- `udp_demo_sendbuf`. -/
  sendbuf : ℕ
  sendrecv : Sardata
  temp1 : UInt8
  humi1 : UInt8

/-- A call of `udp_demo_senddata`: the pointer `setsendbuf` stored through, the payload `udp_send`
was given, and the state at the return of the call, if these were reached. -/
structure SendTrace where
  wroteAt : Option ℕ
  sent : Option (List (Option UInt8))
  final : Option SendState

section Model

variable (P : Placement)

/-- `DHT11_Read_Data1`, where the sensor gives `sensor`. -/
def SendState.readSensor (s : SendState) (sensor : Option (UInt8 × UInt8)) : SendState :=
  match sensor with
  | some (t, h) => { s with temp1 := t, humi1 := h }
  | none => s

/-- The part of `udp_demo_senddata` behind a successful `pbuf_alloc` of `len` bytes. -/
def sendFrame (s : SendState) (len : ℕ) : SendTrace :=
  match Prog.run memStep (mymalloc P .sramin (s.sendrecv.length.toNat + 1)) s.pool with
  | (none, _) => ⟨none, none, none⟩
  | (some ptr, pool) =>
    let sendrecv := setdata s.temp1 s.humi1 s.sendrecv
    let mem := performStores ptr (setsendbuf sendrecv) pool.mem
    match strlen mem ptr with
    | none => ⟨some ptr, none, none⟩
    | some n =>
      let payload := pbufTake mem (List.replicate (len % 2 ^ 16) none) ptr (n % 2 ^ 16)
      let pool := (Prog.run memStep (myfree P .sramin ptr) { pool with mem := mem }).2
      ⟨some ptr, some payload, some ⟨pool, ptr, sendrecv, s.temp1, s.humi1⟩⟩

/-- `udp_demo_senddata`; `pbufOk` says whether `pbuf_alloc` succeeds. -/
def udpDemoSenddata (s : SendState) (pbufOk : Bool) (sensor : Option (UInt8 × UInt8)) :
    SendTrace :=
  match strlen s.pool.mem s.sendbuf with
  | none => ⟨none, none, none⟩
  | some len =>
    if pbufOk then sendFrame P (s.readSensor sensor) len else ⟨none, none, some s⟩

/-- The call gets its `pbuf`. -/
def GetsPbuf (s : SendState) (pbufOk : Bool) : Prop :=
  pbufOk = true ∧ ∃ len, strlen s.pool.mem s.sendbuf = some len

/-- The block `mymalloc` grants the call. -/
def sendBlock (s : SendState) : Option ℕ :=
  grant .sramin s.pool.memmap (s.sendrecv.length.toNat + 1)

/-- The frame the call is to send. -/
def sendingFrame (s : SendState) (sensor : Option (UInt8 × UInt8)) : List UInt8 :=
  let s := s.readSensor sensor
  frame (setdata s.temp1 s.humi1 s.sendrecv)

/-- A call that gets its `pbuf` sends exactly the frame, if it gets the buffer, and otherwise
stores nothing through `NULL`. -/
def SendsFrame (s : SendState) (pbufOk : Bool) (sensor : Option (UInt8 × UInt8)) : Prop :=
  GetsPbuf s pbufOk →
    ((sendBlock s).isSome →
      (udpDemoSenddata P s pbufOk sensor).sent = some ((sendingFrame s sensor).map some)) ∧
    (sendBlock s = none → (udpDemoSenddata P s pbufOk sensor).wroteAt ≠ some null)

/-- No field that goes into the frame makes a zero byte of it. -/
structure NoZeroField (s : Sardata) : Prop where
  led : ∀ b ∈ s.led.toList, b ≠ 0
  elengine : ∀ b ∈ s.elengine.toList, b ≠ 0
  humi : ∀ b ∈ s.humi.toList, b ≠ 0xD0

/-- The lengths come out right: there is a buffer, the string the old pointer addresses has 15
bytes, no byte of the frame is zero, and the byte behind the frame is; the lengths are taken
modulo `2 ^ 16`. -/
def LengthsFit (s : SendState) : Prop :=
  ∃ o len rest, sendBlock s = some o ∧
    strlen s.pool.mem s.sendbuf = some len ∧ len % 2 ^ 16 = 15 ∧ NoZeroField s.sendrecv ∧
    strlen s.pool.mem (blockAddr P .sramin o + 15) = some rest ∧ rest % 2 ^ 16 = 0

end Model

/-! ## The analysis of a call -/

theorem highDigit_ne_zero (b : UInt8) : highDigit b ≠ 0 := by
  have h : ∀ v : BitVec 8, highDigit (UInt8.ofBitVec v) ≠ 0 := by decide
  exact h b.toBitVec

theorem lowDigit_ne_zero (b : UInt8) : lowDigit b ≠ 0 := by
  have h : ∀ v : BitVec 8, lowDigit (UInt8.ofBitVec v) ≠ 0 := by decide
  exact h b.toBitVec

theorem add_48_ne_zero (b : UInt8) : b + 0x30 ≠ 0 ↔ b ≠ 0xD0 := by
  refine not_congr ⟨fun h => ?_, fun h => ?_⟩
  · have hb := congrArg (· - 0x30) h
    simp only [UInt8.add_sub_cancel] at hb
    exact hb
  · rw [h]
    rfl

/-- The frame has no zero byte exactly when no field makes one. -/
theorem frame_setdata_ne_zero {s : Sardata} (hs : FromInit s) (t h : UInt8) :
    (∀ b ∈ frame (setdata t h s), b ≠ 0) ↔ NoZeroField s := by
  obtain ⟨u₀, u₁, hu⟩ := exists_eq_two s.humi
  have hhead : ∀ b ∈ s.head.toList, b ≠ 0 := by
    simp [hs.head_eq]
  have hdata : ∀ b ∈ (setdata t h s).data.toList, b ≠ 0 := by
    intro b hb
    simp only [setdata, Vector.toList_mk, List.mem_cons, List.not_mem_nil, or_false] at hb
    rcases hb with rfl | rfl | rfl | rfl
    exacts [highDigit_ne_zero _, lowDigit_ne_zero _, highDigit_ne_zero _, lowDigit_ne_zero _]
  have hhumi : (∀ b ∈ [s.humi[0]! + 0x30, s.humi[1]! + 0x30], b ≠ 0) ↔
      ∀ b ∈ s.humi.toList, b ≠ 0xD0 := by
    simp [hu, ← add_48_ne_zero]
  have hframe : frame (setdata t h s) = s.head.toList ++ s.led.toList ++ s.elengine.toList ++
      [s.humi[0]! + 0x30, s.humi[1]! + 0x30] ++ (setdata t h s).data.toList := rfl
  rw [hframe]
  simp only [List.forall_mem_append, hhumi]
  constructor
  · rintro ⟨⟨⟨⟨-, h₁⟩, h₂⟩, h₃⟩, -⟩
    exact ⟨h₁, h₂, h₃⟩
  · rintro ⟨h₁, h₂, h₃⟩
    exact ⟨⟨⟨⟨hhead, h₁⟩, h₂⟩, h₃⟩, hdata⟩

/-- `pbuf_take` into unwritten bytes gives the frame exactly when both lengths are 15. -/
theorem pbufTake_eq_frame {s : Sardata} {mem : ℕ → UInt8} {ptr len n : ℕ} (hptr : ptr ≠ null) :
    pbufTake (performStores ptr (setsendbuf s) mem) (List.replicate len none) ptr n =
        (frame s).map some ↔ len = 15 ∧ n = 15 := by
  have hframe : (List.range 15).map (fun i =>
      some (performStores ptr (setsendbuf s) mem (ptr + i))) = (frame s).map some := by
    rw [← sentBytes_eq s ptr mem, sentBytes, List.map_map]
    rfl
  have hsome : ∀ x ∈ (frame s).map some, x ≠ none := by simp
  constructor
  · intro h
    have hlen := congrArg List.length h
    unfold pbufTake at h hlen
    split_ifs at h hlen with hc
    · rw [List.length_replicate, List.length_map, length_frame] at hlen
      exact absurd rfl (hsome none (h ▸ by simp [hlen]))
    · obtain ⟨-, hle⟩ := not_or.mp hc
      simp only [List.length_append, List.length_map, List.length_range, List.length_drop,
        List.length_replicate, length_frame] at hlen hle
      refine ⟨by omega, ?_⟩
      by_contra hne
      -- a byte behind the copied ones is unwritten
      refine hsome none (h ▸ ?_) rfl
      rw [List.drop_replicate, List.mem_append, List.mem_replicate]
      exact Or.inr ⟨by omega, rfl⟩
  · rintro ⟨rfl, rfl⟩
    rw [pbufTake, if_neg (by simp [hptr]), hframe]
    simp

theorem strlen_performStores {s : Sardata} (mem : ℕ → UInt8) (ptr n : ℕ) :
    strlen (performStores ptr (setsendbuf s) mem) ptr = some (15 + n) ↔
      (∀ b ∈ frame s, b ≠ 0) ∧ strlen mem (ptr + 15) = some n := by
  have hbehind : strlen (performStores ptr (setsendbuf s) mem) (ptr + 15) =
      strlen mem (ptr + 15) := by
    refine strlen_congr fun i => performStores_of_not_mem mem fun st hst => ?_
    have hlt : st.1 < 15 := by
      have := (perm_setsendbuf s).mem_iff.mp (List.mem_map_of_mem hst)
      simpa using this
    omega
  rw [strlen_add, hbehind]
  refine and_congr_left' ?_
  rw [← sentBytes_eq s ptr mem, sentBytes]
  simp

section Call

variable {P : Placement} {s : SendState} {sensor : Option (UInt8 × UInt8)}

@[simp] theorem readSensor_pool (s : SendState) (sensor : Option (UInt8 × UInt8)) :
    (s.readSensor sensor).pool = s.pool := by
  cases sensor <;> rfl

@[simp] theorem readSensor_sendrecv (s : SendState) (sensor : Option (UInt8 × UInt8)) :
    (s.readSensor sensor).sendrecv = s.sendrecv := by
  cases sensor <;> rfl

/-- Without a buffer, `setsendbuf` stores through `NULL`. -/
theorem wroteAt_sendFrame (hrdy : s.pool.memrdy = true) (hg : sendBlock s = none) (len : ℕ) :
    (sendFrame P s len).wroteAt = some null := by
  rw [sendFrame, run_mymalloc_of_none P .sramin hrdy hg]
  dsimp only
  split <;> rfl

/-- With a buffer, the payload is what `pbuf_take` makes of the buffer. -/
theorem sent_sendFrame (hrdy : s.pool.memrdy = true) {o : ℕ} (hg : sendBlock s = some o)
    (len : ℕ) :
    let ptr := blockAddr P .sramin o
    let mem := performStores ptr (setsendbuf (setdata s.temp1 s.humi1 s.sendrecv)) s.pool.mem
    (sendFrame P s len).sent = (strlen mem ptr).map fun n =>
      pbufTake mem (List.replicate (len % 2 ^ 16) none) ptr (n % 2 ^ 16) := by
  rw [sendFrame, run_mymalloc_of_some P .sramin hrdy hg]
  dsimp only
  split
  · rename_i h
    rw [h]
    rfl
  · rename_i n h
    rw [h]
    rfl

/-- The payload is the frame exactly when both lengths are 15. -/
theorem sent_sendFrame_iff (hrdy : s.pool.memrdy = true) (hs : FromInit s.sendrecv) {o : ℕ}
    (hg : sendBlock s = some o) (len : ℕ) :
    (sendFrame P s len).sent =
        some ((frame (setdata s.temp1 s.humi1 s.sendrecv)).map some) ↔
      len % 2 ^ 16 = 15 ∧ NoZeroField s.sendrecv ∧
        ∃ rest, strlen s.pool.mem (blockAddr P .sramin o + 15) = some rest ∧
          rest % 2 ^ 16 = 0 := by
  have hptr := blockAddr_ne_null P .sramin o
  rw [sent_sendFrame hrdy hg, Option.map_eq_some_iff, ← frame_setdata_ne_zero hs s.temp1 s.humi1]
  constructor
  · rintro ⟨n, hn, htake⟩
    obtain ⟨hlen, hmod⟩ := (pbufTake_eq_frame hptr).mp htake
    obtain ⟨rest, rfl⟩ := Nat.exists_eq_add_of_le (show 15 ≤ n by omega)
    obtain ⟨hz, hrest⟩ := (strlen_performStores _ _ _).mp hn
    exact ⟨hlen, hz, rest, hrest, by omega⟩
  · rintro ⟨hlen, hz, rest, hrest, hmod⟩
    exact ⟨15 + rest, (strlen_performStores _ _ _).mpr ⟨hz, hrest⟩,
      (pbufTake_eq_frame hptr).mpr ⟨hlen, by omega⟩⟩

end Call

/-- **Sending a frame.** A call that gets its `pbuf` hands `udp_send` exactly the frame, and stores
nothing through `NULL`, exactly when the lengths come out right. -/
theorem senddata_ok_iff (P : Placement) {s : SendState} (hrdy : s.pool.memrdy = true)
    (hs : FromInit s.sendrecv) (pbufOk : Bool) (sensor : Option (UInt8 × UInt8)) :
    SendsFrame P s pbufOk sensor ↔ (GetsPbuf s pbufOk → LengthsFit P s) := by
  refine forall_congr' ?_
  rintro ⟨rfl, len, hlen⟩
  have hcall : udpDemoSenddata P s true sensor = sendFrame P (s.readSensor sensor) len := by
    rw [udpDemoSenddata, hlen]
    rfl
  have hblock : sendBlock (s.readSensor sensor) = sendBlock s := by simp [sendBlock]
  rw [hcall]
  cases hg : sendBlock s with
  | none =>
    refine iff_of_false (fun h => h.2 rfl ?_) ?_
    · exact wroteAt_sendFrame (by simpa using hrdy) (hblock.trans hg) len
    · rintro ⟨o, -, -, ho, -⟩
      rw [hg] at ho
      cases ho
  | some o =>
    have hiff := sent_sendFrame_iff (P := P) (s := s.readSensor sensor) (by simpa using hrdy)
      (by simpa using hs) (hblock.trans hg) len
    simp only [readSensor_pool, readSensor_sendrecv] at hiff
    simp only [Option.isSome_some, forall_true_left, reduceCtorEq, false_implies, and_true,
      sendingFrame, readSensor_sendrecv, hiff, LengthsFit, hg, hlen]
    constructor
    · rintro ⟨h₁, h₂, rest, h₃, h₄⟩
      exact ⟨o, len, rest, rfl, rfl, h₁, h₂, h₃, h₄⟩
    · rintro ⟨o', len', rest, ho, hl, h₁, h₂, h₃, h₄⟩
      obtain rfl := Option.some.inj ho
      obtain rfl := Option.some.inj hl
      exact ⟨h₁, h₂, rest, h₃, h₄⟩

/-- The pointer of the last call addresses the top block, with 15 bytes that are not zero. -/
def staleSend : SendState where
  pool :=
    ⟨fun _ => 0, true, fun a =>
      if blockAddr imagePlacement .sramin 1279 ≤ a ∧
        a < blockAddr imagePlacement .sramin 1279 + 15 then 0x31 else 0⟩
  sendbuf := blockAddr imagePlacement .sramin 1279
  sendrecv := demoState
  temp1 := 0x19
  humi1 := 0x43

/-- The block is granted again, and the frame goes out. -/
theorem senddata_ok_stale : SendsFrame imagePlacement staleSend true none := by
  refine (senddata_ok_iff imagePlacement rfl ⟨rfl, rfl⟩ true none).mpr fun _ => ?_
  refine ⟨1279, 15, 0, by decide, strlen_eq_some.mpr (by decide), rfl, ?_,
    strlen_eq_some.mpr (by decide), rfl⟩
  constructor <;> simp [staleSend, demoState]

/-- The first send after `initsardata`, with a zero byte at `NULL`. -/
def firstSend : SendState where
  pool := ⟨fun _ => 0, true, fun _ => 0⟩
  sendbuf := null
  sendrecv := initsardata demoState
  temp1 := 0
  humi1 := 0

/-- The fields of the initial state make zero bytes, so the frame does not go out. -/
theorem senddata_not_ok_first : ¬SendsFrame imagePlacement firstSend true none := by
  intro h
  have hlen : strlen firstSend.pool.mem firstSend.sendbuf = some 0 :=
    strlen_eq_some.mpr (by decide)
  have hg : sendBlock firstSend = some 1279 := by decide
  have hsent := (h ⟨rfl, 0, hlen⟩).1 (by rw [hg]; rfl)
  rw [udpDemoSenddata, hlen] at hsent
  obtain ⟨-, hz, -⟩ := (sent_sendFrame_iff (P := imagePlacement) (s := firstSend) rfl
    (fromInit_initsardata _) hg 0).mp hsent
  exact hz.led 0 (by decide) rfl

end Enc28j60Udp
