import Enc28j60Udp.Enc28j60.Chip
import Enc28j60Udp.Foundations.Bytes

/-!
# Register banks

The driver keeps the selected bank in `enc28j60bank` and changes it only when an address asks for
another one. `Banked` is what this relies on, for any chip: how a reset and the commands on `ECON1`
change the bank bits. `Coherent` says that cache and chip agree. It is lost when `ENC28J60_Init`
resets the chip, and regained by the first access after that, to `ESTAT`.
-/

namespace Enc28j60Udp

namespace Enc28j60

/-! ## What the driver relies on -/

/-- The bank bits after an operation. -/
def Op.bselAfter : Op → UInt8 → UInt8
  | .rst, _ => 0
  | .writeOp op addr data, b =>
    if opcode op = .src then 0
    else if regAddr addr = 0x1F then (opcode op).apply b data &&& 0x03
    else b
  | _, b => b

/-- The cached bank after an operation. -/
def Op.cacheAfter : Op → UInt8 → UInt8
  | .setBank bank, _ => bank
  | _, c => c

/-- The operations that are neither on the bank nor SPI commands on registers. -/
def Op.neutral : Op → Bool
  | .rst | .setBank _ | .readOp _ _ | .writeOp _ _ _ => false
  | _ => true

section Law

variable {σ : Type} (h : (o : Op) → σ → o.Res × σ) (cache bsel : σ → UInt8)

/-- A chip that selects the bank by `ECON1.BSEL1:BSEL0`, and a driver that caches it. -/
structure Banked : Prop where
  bsel_step : ∀ o s, bsel (h o s).2 = o.bselAfter (bsel s)
  cache_step : ∀ o s, cache (h o s).2 = o.cacheAfter (cache s)
  getBank : ∀ s, (h .getBank s).1 = cache s

/-- The address names a register of all banks, or one of the bank that is selected and cached. -/
def Selected (addr : UInt8) (s : σ) : Prop :=
  0x1B ≤ regAddr addr ∨ bsel s = bankOf addr ∧ cache s = addr &&& bankMask

/-- A register command reaches the register that its address names. -/
def Reaches : Op → σ → Prop
  | .readOp op addr, s => opcode op = .rcr → Selected cache bsel addr s
  | .writeOp op addr _, s =>
    opcode op = .wcr ∨ opcode op = .bfs ∨ opcode op = .bfc → Selected cache bsel addr s
  | _, _ => True

/-- The selected bank is the cached one. -/
def Coherent (s : σ) : Prop := ∃ addr, cache s = addr &&& bankMask ∧ bsel s = bankOf addr

/-- If the cache says that the bank of `addr` is selected, it is. -/
def Usable (addr : UInt8) (s : σ) : Prop :=
  bsel s &&& ~~~0x03 = 0 ∧ (cache s = addr &&& bankMask → bsel s = bankOf addr)

end Law

/-! ## Bytes -/

theorem bankOf_high (addr : UInt8) : bankOf addr &&& ~~~0x03 = 0 := by
  revert addr
  exact forall_byte (by decide +kernel)

theorem bankOf_low (addr : UInt8) : bankOf addr &&& 0x03 = bankOf addr := by
  revert addr
  exact forall_byte (by decide +kernel)

/-- What a command does to some bits of a register depends only on these bits. -/
theorem apply_congr (c : Opcode) {a b m : UInt8} (hab : a &&& m = b &&& m) (data : UInt8) :
    c.apply a data &&& m = c.apply b data &&& m := by
  have hcomm (x y : UInt8) : x &&& y &&& m = x &&& m &&& y := by
    rw [UInt8.and_assoc, UInt8.and_assoc, UInt8.and_comm y]
  cases c with
  | wcr => rfl
  | bfs => rw [Opcode.apply, Opcode.apply, or_and_distrib, or_and_distrib, hab]
  | bfc => rw [Opcode.apply, Opcode.apply, hcomm, hcomm, hab]
  | _ => exact hab

/-- The bits that are not set in the data stay as they are. -/
theorem apply_of_disjoint (c : Opcode) (hc : c ≠ .wcr) {data m : UInt8} (hd : data &&& m = 0)
    (b : UInt8) : c.apply b data &&& m = b &&& m := by
  cases c with
  | wcr => exact absurd rfl hc
  | bfs => rw [Opcode.apply, or_and_distrib, hd, UInt8.or_zero]
  | bfc => rw [Opcode.apply, and_not_of_disjoint hd]
  | _ => rfl

/-- The commands of `ENC28J60_Set_Bank`. -/
theorem select_bits (b c : UInt8) (hb : b &&& ~~~0x03 = 0) (hc : c &&& 0x03 = c) :
    ((b &&& ~~~0x03) &&& 0x03 ||| c) &&& 0x03 = c := by
  rw [hb, UInt8.zero_and, UInt8.zero_or, hc]

/-! ## The board -/

/-- `ECON1.BSEL1:BSEL0` as a byte. -/
def World.bselByte (w : World) : UInt8 := UInt8.ofNat w.bsel

theorem econ1Bits_low (n : Node) (b : Fin 4) :
    n.econ1Bits b &&& 0x03 = UInt8.ofNat b &&& 0x03 := by
  unfold Node.econ1Bits
  cases n.rxen
  · revert b
    decide
  · revert b
    decide

theorem World.bselByte_and (w : World) : w.bselByte &&& 0x03 = w.bselByte := by
  unfold bselByte
  generalize w.bsel = b
  revert b
  decide

theorem bselByte_writeReg (w : World) (env : Env) (c : Opcode) (addr data : UInt8) :
    (w.writeReg env c addr data).bselByte =
      if regAddr addr = 0x1F then c.apply w.bselByte data &&& 0x03 else w.bselByte := by
  have hlow (v : UInt8) : UInt8.ofNat (World.bselOf v).val = v &&& 0x03 :=
    forall_byte (p := fun v => UInt8.ofNat (World.bselOf v).val = v &&& 0x03)
      (by decide +kernel) v
  unfold World.writeReg
  split
  · exact (hlow _).trans (apply_congr c (econ1Bits_low _ _) data)
  · rfl

theorem bank_writeReg (w : World) (env : Env) (c : Opcode) (addr data : UInt8) :
    (w.writeReg env c addr data).bank = w.bank := by
  unfold World.writeReg
  split <;> rfl

/-- The board selects banks as the driver relies on. -/
theorem boardStep_banked (env : Env) : Banked (boardStep env) World.bank World.bselByte where
  bsel_step o w := by
    cases o with
    | writeOp op addr data =>
      have hself : (if regAddr addr = 0x1F then w.bselByte &&& 0x03 else w.bselByte) =
          w.bselByte := by rw [w.bselByte_and, ite_self]
      simp only [boardStep, Op.bselAfter]
      cases opcode op with
      | wcr | bfs | bfc => exact bselByte_writeReg w env _ addr data
      | src => rfl
      | _ => exact hself.symm
    | readOp op addr =>
      simp only [boardStep]
      split <;> rfl
    | _ => rfl
  cache_step o w := by
    cases o with
    | writeOp op addr data =>
      simp only [boardStep]
      cases opcode op with
      | wcr | bfs | bfc => exact bank_writeReg w env _ addr data
      | _ => rfl
    | readOp op addr =>
      simp only [boardStep]
      split <;> rfl
    | _ => rfl
  getBank _ := rfl

/-! ## The calls of the driver -/

section Calls

variable {σ : Type} {h : (o : Op) → σ → o.Res × σ} {cache bsel : σ → UInt8} {s : σ}

theorem Coherent.usable (hs : Coherent cache bsel s) (addr : UInt8) :
    Usable cache bsel addr s := by
  obtain ⟨a, hc, hb⟩ := hs
  refine ⟨?_, fun he => ?_⟩
  · rw [hb, bankOf_high]
  · rw [hb, bankOf, bankOf, ← hc, he]

/-- An operation that leaves the bank alone. -/
theorem perform_keeps (L : Banked h cache bsel) {o : Op} (hb : ∀ b, o.bselAfter b = b)
    (hc : ∀ c, o.cacheAfter c = c) (hr : Reaches cache bsel o s) (hs : Coherent cache bsel s) :
    Prog.Meets h (Reaches cache bsel) (perform o) (fun _ => Coherent cache bsel) s := by
  obtain ⟨a, ha, hb'⟩ := hs
  refine .lift hr ⟨a, ?_, ?_⟩
  · rw [L.cache_step, hc, ha]
  · rw [L.bsel_step, hb, hb']

/-- `ENC28J60_Set_Bank` selects the bank of its address. -/
theorem setBank_meets (L : Banked h cache bsel) {addr : UInt8} (hs : Usable cache bsel addr s) :
    Prog.Meets h (Reaches cache bsel) (setBank addr)
      (fun _ s => cache s = addr &&& bankMask ∧ bsel s = bankOf addr) s := by
  have hcommon (op data : UInt8) (s : σ) : Reaches cache bsel (.writeOp op econ1 data) s :=
    fun _ => Or.inl (by decide)
  have hb : bsel (h .getBank s).2 = bsel s := L.bsel_step _ _
  have hc : cache (h .getBank s).2 = cache s := L.cache_step _ _
  refine .lift_bind trivial ?_
  rw [L.getBank]
  refine .ite (fun _ => ?_) fun he => ?_
  · refine .lift_bind (hcommon _ _ _) (.lift_bind (hcommon _ _ _) (.lift trivial ⟨?_, ?_⟩))
    · rw [L.cache_step, Op.cacheAfter]
    · rw [L.bsel_step, L.bsel_step, L.bsel_step, hb]
      exact select_bits _ _ hs.1 (bankOf_low addr)
  · have hc' : cache s = addr &&& bankMask := (not_ne_iff.mp he).symm
    exact ⟨hc.trans hc', hb.trans (hs.2 hc')⟩

/-- `ENC28J60_Read`, when the cache is right about the bank of the address. -/
theorem read_meets_of_usable (L : Banked h cache bsel) {addr : UInt8}
    (hs : Usable cache bsel addr s) :
    Prog.Meets h (Reaches cache bsel) (read addr) (fun _ => Coherent cache bsel) s := by
  refine (setBank_meets L hs).bind fun _ s₁ h₁ => ?_
  exact perform_keeps L (fun _ => rfl) (fun _ => rfl) (fun _ => Or.inr h₁.symm) ⟨addr, h₁⟩

/-- The registers of the MAC address are known, whatever the address is. -/
theorem macRegs_all {q : UInt8 → Bool}
    (hq : [maadr5, maadr4, maadr3, maadr2, maadr1, maadr0].all q = true) (mac : List UInt8) :
    ((macRegs mac).all fun r => q r.1) = true := by
  rw [List.all_eq_true] at hq ⊢
  exact fun r hr => hq r.1 (List.of_mem_zip hr).1

/-- A write does not select another bank than that of its address. -/
def KeepsBank (addr data : UInt8) : Prop := regAddr addr = 0x1F → data &&& 0x03 = bankOf addr

/-- From a coherent state every register command of the program reaches its register, and the
state is coherent again at the end. -/
def Keeps {α : Type} (h : (o : Op) → σ → o.Res × σ) (cache bsel : σ → UInt8)
    (p : DriverProg α) : Prop :=
  ∀ s, Coherent cache bsel s →
    Prog.Meets h (Reaches cache bsel) p (fun _ => Coherent cache bsel) s

namespace Keeps

variable {α β : Type}

theorem pure (a : α) : Keeps h cache bsel (Pure.pure a : DriverProg α) := fun _ hs => hs

theorem hang : Keeps h cache bsel (.hang : DriverProg α) := fun _ _ => trivial

theorem bind {p : DriverProg α} {f : α → DriverProg β} (hp : Keeps h cache bsel p)
    (hf : ∀ a, Keeps h cache bsel (f a)) : Keeps h cache bsel (p >>= f) :=
  fun s hs => (hp s hs).bind fun a s' hs' => hf a s' hs'

theorem ite {c : Prop} [Decidable c] {p q : DriverProg α} (hp : Keeps h cache bsel p)
    (hq : Keeps h cache bsel q) : Keeps h cache bsel (if c then p else q) :=
  fun s hs => .ite (fun _ => hp s hs) fun _ => hq s hs

theorem when {c : Prop} [Decidable c] {p : DriverProg Unit} (hp : Keeps h cache bsel p) :
    Keeps h cache bsel (Prog.when c p) :=
  ite hp (pure ())

theorem forM {γ : Type} {f : γ → DriverProg PUnit} {xs : List γ}
    (hf : ∀ x ∈ xs, Keeps h cache bsel (f x)) : Keeps h cache bsel (xs.forM f) :=
  fun _ hs => .forM hf hs

theorem whileDo {cond : DriverProg Bool} {body : DriverProg Unit}
    (hc : Keeps h cache bsel cond) (hb : Keeps h cache bsel body) (fuel : ℕ) :
    Keeps h cache bsel (Prog.whileDo cond body fuel) :=
  fun _ hs => .whileDo hc hb fuel hs

theorem retryWhile {cond : DriverProg Bool} (hc : Keeps h cache bsel cond) (limit k : ℕ) :
    Keeps h cache bsel (Prog.retryWhile cond limit k) :=
  fun _ hs => .retryWhile hc (fun _ => id) limit k hs

/-- An operation that leaves the bank alone. -/
theorem perform (L : Banked h cache bsel) {o : Op} (hb : ∀ b, o.bselAfter b = b)
    (hc : ∀ c, o.cacheAfter c = c) (hr : ∀ s, Reaches cache bsel o s) :
    Keeps h cache bsel (Enc28j60.perform o) :=
  fun s hs => perform_keeps L hb hc (hr s) hs

theorem neutral (L : Banked h cache bsel) {o : Op} (ho : o.neutral = true) :
    Keeps h cache bsel (Enc28j60.perform o) := by
  cases o with
  | rst | setBank | readOp | writeOp => cases ho
  | _ => exact perform L (fun _ => rfl) (fun _ => rfl) fun _ => trivial

/-- A command on a register of all banks other than `ECON1`. -/
theorem writeOp (L : Banked h cache bsel) {op addr : UInt8} (data : UInt8)
    (hop : (opcode op != .src) = true)
    (haddr : (0x1B ≤ regAddr addr && regAddr addr != 0x1F) = true) :
    Keeps h cache bsel (Enc28j60.writeOp op addr data) := by
  simp only [bne_iff_ne, ne_eq, Bool.and_eq_true, decide_eq_true_eq] at hop haddr
  refine perform L (fun b => ?_) (fun c => ?_) fun s _ => Or.inl haddr.1
  · rw [Op.bselAfter, if_neg hop, if_neg haddr.2]
  · simp only [Op.cacheAfter]

/-- A command on `ECON1` without bank bits. -/
theorem writeOp_econ1 (L : Banked h cache bsel) {op data : UInt8}
    (hop : (opcode op != .src && opcode op != .wcr) = true)
    (hdata : (data &&& 0x03 == 0) = true) :
    Keeps h cache bsel (Enc28j60.writeOp op econ1 data) := by
  simp only [Bool.and_eq_true, bne_iff_ne] at hop
  obtain ⟨hsrc, hwcr⟩ := hop
  rintro s ⟨a, hc, hb⟩
  refine .lift (fun _ => Or.inl (by decide)) ⟨a, ?_, ?_⟩
  · rw [L.cache_step, ← hc]
    simp only [Op.cacheAfter]
  · rw [L.bsel_step, Op.bselAfter, if_neg hsrc, if_pos (by decide), hb,
      apply_of_disjoint _ hwcr (eq_of_beq hdata), bankOf_low]

theorem read (L : Banked h cache bsel) (addr : UInt8) :
    Keeps h cache bsel (Enc28j60.read addr) :=
  fun _ hs => read_meets_of_usable L (hs.usable addr)

theorem testBits (L : Banked h cache bsel) (addr mask : UInt8) :
    Keeps h cache bsel (Enc28j60.testBits addr mask) :=
  (read L addr).bind fun _ => .pure _

theorem write (L : Banked h cache bsel) {addr data : UInt8} (hk : KeepsBank addr data) :
    Keeps h cache bsel (Enc28j60.write addr data) := by
  intro s hs
  refine (setBank_meets L (hs.usable addr)).bind fun _ s₁ h₁ => ?_
  refine .lift (fun _ => Or.inr h₁.symm) ⟨addr, ?_, ?_⟩
  · rw [L.cache_step, ← h₁.1]
    simp only [Op.cacheAfter]
  · rw [L.bsel_step, Op.bselAfter, if_neg (by decide), h₁.2]
    split
    · exact hk ‹_›
    · rfl

/-- A write to a register other than `ECON1`. -/
theorem write_of_ne (L : Banked h cache bsel) {addr : UInt8} (data : UInt8)
    (haddr : (regAddr addr != 0x1F) = true) : Keeps h cache bsel (Enc28j60.write addr data) :=
  write L fun he => absurd he (bne_iff_ne.mp haddr)

theorem writeAll (L : Banked h cache bsel) {regs : List (UInt8 × UInt8)}
    (hk : (regs.all fun r => regAddr r.1 != 0x1F) = true) :
    Keeps h cache bsel (Enc28j60.writeAll regs) := by
  refine forM fun r hr => write L fun he => ?_
  have := List.all_eq_true.mp hk r hr
  simp [he] at this

theorem phyWrite (L : Banked h cache bsel) (addr : UInt8) (data : UInt16) :
    Keeps h cache bsel (Enc28j60.phyWrite addr data) := by
  refine .bind (write_of_ne L _ rfl) fun _ => ?_
  refine .bind (write_of_ne L _ rfl) fun _ => ?_
  refine .bind (write_of_ne L _ rfl) fun _ => ?_
  exact .bind (retryWhile (testBits L _ _) _ _) fun _ => .pure ()

theorem phyRead (L : Banked h cache bsel) (addr : UInt8) :
    Keeps h cache bsel (Enc28j60.phyRead addr) := by
  refine .bind (read L _) fun temp => .bind (write_of_ne L _ rfl) fun _ => ?_
  refine .bind (write_of_ne L _ rfl) fun _ => ?_
  refine .bind (retryWhile (testBits L _ _) _ _) fun _ => ?_
  refine .bind (write_of_ne L _ rfl) fun _ => ?_
  exact .bind (read L _) fun _ => .bind (read L _) fun _ => .pure _

/-- `ENC28J60_Init`: the reset clears the bank bits but not the cache; the first access after it
is to `ESTAT`, in bank 0. -/
theorem init (L : Banked h cache bsel) : Keeps h cache bsel Enc28j60.init := by
  have hfresh {s : σ} (hs : bsel s = 0) : Usable cache bsel estat s :=
    ⟨by rw [hs]; rfl, fun _ => hs.trans (by decide)⟩
  have hestat : ∀ s, Usable cache bsel estat s → Prog.Meets h (Reaches cache bsel)
      (do let v ← Enc28j60.read estat; Pure.pure (v &&& 0x01 == 0))
      (fun _ => Coherent cache bsel) s :=
    fun s hs => (read_meets_of_usable L hs).bind fun _ _ h' => h'
  have hsel : Keeps h cache bsel (Enc28j60.setBank econ1) :=
    fun s hs => (setBank_meets L (hs.usable _)).imp fun _ _ h' => ⟨_, h'⟩
  refine .bind (neutral L rfl) fun temp => .bind (neutral L rfl) fun _ => fun s hs => ?_
  refine .lift_bind trivial (.lift_bind (by rintro (h | h | h) <;> cases h) ?_)
  refine .bind (Prog.Meets.retryWhile hestat (fun s h' => h'.usable _) 250 250
    (hfresh (by rw [L.bsel_step]; rfl))) fun retry s' hs' => ite (.pure 1) ?_ s' hs'
  refine .bind (.bind (read L erevid) fun _ => .pure _) fun _ => .bind (neutral L rfl) fun _ => ?_
  have hmac := macRegs_all (q := fun a => regAddr a != 0x1F) rfl (macaddrOf temp)
  refine .bind (writeAll L rfl) fun _ => .bind (writeAll L hmac) fun _ => ?_
  refine .bind (phyWrite L _ _) fun _ => .bind (phyWrite L _ _) fun _ => ?_
  refine .bind hsel fun _ => .bind (writeOp L _ rfl rfl) fun _ => ?_
  refine .bind (writeOp_econ1 L rfl rfl) fun _ => ?_
  exact .bind (.bind (phyRead L _) fun _ => .pure _) fun _ => .pure 0

/-- A command on the buffer memory. -/
theorem writeOp_buffer (L : Banked h cache bsel) (data : UInt8) :
    Keeps h cache bsel (Enc28j60.writeOp writeBufMem 0 data) :=
  perform L (fun _ => rfl) (fun _ => rfl) fun _ h => by rcases h with h | h | h <;> cases h

theorem writeControl (L : Banked h cache bsel) (len : ℕ) :
    Keeps h cache bsel (Enc28j60.writeControl len) :=
  .ite (.bind (write_of_ne L _ rfl) fun _ => writeOp_buffer L _) (writeOp_buffer L _)

theorem readBufWord (L : Banked h cache bsel) : Keeps h cache bsel Enc28j60.readBufWord := by
  have hop : Keeps h cache bsel (Enc28j60.readOp readBufMem 0) :=
    perform L (fun _ => rfl) (fun _ => rfl) fun _ h => by cases h
  exact .bind hop fun _ => .bind hop fun _ => .pure _

theorem readData (L : Banked h cache bsel) (maxlen field rxstat : ℕ) :
    Keeps h cache bsel (Enc28j60.readData maxlen field rxstat) :=
  .ite (.pure _) (.bind (.bind (neutral L rfl) fun _ => .pure _) fun _ => .pure _)

section Packets

variable (fuel : ℕ)

theorem packetSend (L : Banked h cache bsel) (packet : List UInt8) :
    Keeps h cache bsel (Enc28j60.packetSend fuel packet) := by
  refine .bind (neutral L rfl) fun _ => ?_
  refine .bind (whileDo (testBits L _ _) (.pure ()) fuel) fun _ => ?_
  refine .bind (write_of_ne L _ rfl) fun _ => ?_
  refine .bind (write_of_ne L _ rfl) fun _ => ?_
  refine .bind (write_of_ne L _ rfl) fun _ => ?_
  refine .bind (write_of_ne L _ rfl) fun _ => ?_
  refine .bind (writeControl L _) fun _ => .bind (neutral L rfl) fun _ => ?_
  refine .bind (writeOp_econ1 L rfl rfl) fun _ => ?_
  refine .bind (testBits L _ _) fun error => ?_
  refine .bind (when (writeOp_econ1 L rfl rfl)) fun _ => ?_
  exact neutral L rfl

theorem packetReceive (L : Banked h cache bsel) (maxlen : ℕ) :
    Keeps h cache bsel (Enc28j60.packetReceive fuel maxlen) := by
  refine .bind (neutral L rfl) fun _ => .bind (read L _) fun count => .ite (.pure _) ?_
  refine .bind (whileDo (testBits L _ _) (.pure ()) fuel) fun _ => ?_
  refine .bind (neutral L rfl) fun ptr => ?_
  refine .bind (write_of_ne L _ rfl) fun _ => ?_
  refine .bind (write_of_ne L _ rfl) fun _ => ?_
  refine .bind (readBufWord L) fun next => .bind (neutral L rfl) fun _ => ?_
  refine .bind (readBufWord L) fun field => .bind (readBufWord L) fun rxstat => ?_
  refine .bind (readData L _ _ _) fun received => ?_
  refine .bind (write_of_ne L _ rfl) fun _ => ?_
  refine .bind (write_of_ne L _ rfl) fun _ => ?_
  refine .bind (writeOp L _ rfl rfl) fun _ => ?_
  exact .bind (neutral L rfl) fun _ => .pure _

theorem lowLevelOutput (L : Banked h cache bsel) (packet : List UInt8) :
    Keeps h cache bsel (Enc28j60.lowLevelOutput fuel packet) :=
  .bind (neutral L rfl) fun _ =>
    .ite .hang (.bind (packetSend fuel L packet) fun _ => neutral L rfl)

theorem lowLevelInput (L : Banked h cache bsel) :
    Keeps h cache bsel (Enc28j60.lowLevelInput fuel) := by
  refine .bind (neutral L rfl) fun buffer => .ite (.pure _) ?_
  refine .bind (packetReceive fuel L _) fun received => .bind (neutral L rfl) fun ok => ?_
  exact .bind (neutral L rfl) fun _ => .pure _

theorem ethernetifInput (L : Banked h cache bsel) :
    Keeps h cache bsel (Enc28j60.ethernetifInput fuel) := by
  refine .bind (lowLevelInput fuel L) fun p => ?_
  cases p with
  | none => exact .pure ()
  | some packet =>
    exact .bind (neutral L rfl) fun reply => .forM fun frame _ => lowLevelOutput fuel L frame

theorem receiveError (L : Banked h cache bsel) : Keeps h cache bsel Enc28j60.receiveError := by
  refine .bind (writeOp L _ rfl rfl) fun _ => .bind (read L _) fun _ => ?_
  refine .bind (read L _) fun high => .bind (read L _) fun low => ?_
  refine .bind (write_of_ne L _ rfl) fun _ => ?_
  exact .bind (write_of_ne L _ rfl) fun _ => writeOp L _ rfl rfl

theorem isrHandler (L : Banked h cache bsel) :
    Keeps h cache bsel (Enc28j60.isrHandler fuel) := by
  refine .bind (writeOp L _ rfl rfl) fun _ => .bind (read L _) fun status => ?_
  refine .bind (when (.bind (writeOp L _ rfl rfl) fun _ =>
    ethernetifInput fuel L)) fun _ => ?_
  refine .bind (when (writeOp L _ rfl rfl)) fun _ => ?_
  refine .bind (when (receiveError L)) fun _ => ?_
  refine .bind (when (.bind (writeOp L _ rfl rfl) fun _ =>
    writeOp L _ rfl rfl)) fun _ => ?_
  exact writeOp L _ rfl rfl

end Packets

end Keeps

/-! ## Sequences of calls -/

/-- A call of the driver. -/
inductive DriverCall
  | init
  | read (addr : UInt8)
  | write (addr data : UInt8)
  | phyRead (addr : UInt8)
  | phyWrite (addr : UInt8) (data : UInt16)
  | packetSend (packet : List UInt8)
  | packetReceive (maxlen : ℕ)
  | isrHandler

/-- The program of a call. -/
def DriverCall.prog (fuel : ℕ) : DriverCall → DriverProg Unit
  | .init => do let _ ← Enc28j60.init
  | .read addr => do let _ ← Enc28j60.read addr
  | .write addr data => Enc28j60.write addr data
  | .phyRead addr => do let _ ← Enc28j60.phyRead addr
  | .phyWrite addr data => Enc28j60.phyWrite addr data
  | .packetSend packet => Enc28j60.packetSend fuel packet
  | .packetReceive maxlen => do let _ ← Enc28j60.packetReceive fuel maxlen
  | .isrHandler => Enc28j60.isrHandler fuel

/-- A sequence of calls. -/
def callsProg (fuel : ℕ) (calls : List DriverCall) : DriverProg Unit :=
  calls.forM fun c => c.prog fuel

/-- A write of the sequence that reaches `ECON1` keeps the bank. -/
def WritesKeepBank (calls : List DriverCall) : Prop :=
  ∀ addr data, DriverCall.write addr data ∈ calls → KeepsBank addr data

theorem Keeps.prog (L : Banked h cache bsel) (fuel : ℕ) (c : DriverCall)
    (hc : ∀ addr data, c = .write addr data → KeepsBank addr data) :
    Keeps h cache bsel (c.prog fuel) := by
  cases c with
  | init => exact .bind (.init L) fun _ => .pure ()
  | read addr => exact .bind (.read L addr) fun _ => .pure ()
  | write addr data => exact .write L (hc addr data rfl)
  | phyRead addr => exact .bind (.phyRead L addr) fun _ => .pure ()
  | phyWrite addr data => exact .phyWrite L addr data
  | packetSend packet => exact .packetSend fuel L packet
  | packetReceive maxlen => exact .bind (.packetReceive fuel L maxlen) fun _ => .pure ()
  | isrHandler => exact .isrHandler fuel L

/-- Every register command of the calls reaches the register that its address names. -/
def RegistersReached (h : (o : Op) → σ → o.Res × σ) (cache bsel : σ → UInt8) (fuel : ℕ)
    (calls : List DriverCall) (s : σ) : Prop :=
  ∀ x ∈ Prog.performed h (callsProg fuel calls) s, Reaches cache bsel x.1 x.2

/-- In every sequence of calls from a coherent state, every register command reaches the register
that its address names, provided no `ENC28J60_Write` to `ECON1` selects another bank. -/
theorem registers_reached (L : Banked h cache bsel) (fuel : ℕ) {calls : List DriverCall}
    (hcalls : WritesKeepBank calls) {s : σ} (hs : Coherent cache bsel s) :
    RegistersReached h cache bsel fuel calls s := by
  have hkeeps : Keeps h cache bsel (callsProg fuel calls) :=
    .forM fun c hc => .prog L fuel c fun addr data he => hcalls addr data (he ▸ hc)
  exact (hkeeps s hs).of_performed

end Calls

theorem registers_reached_reinit :
    RegistersReached (boardStep quietEnv) World.bank World.bselByte 3
      [.init, .read maadr5, .init, .write eie 0xCB, .packetReceive 1518, .isrHandler] powerOn :=
  registers_reached (boardStep_banked quietEnv) 3 (by
    intro addr data h
    obtain ⟨rfl, rfl⟩ : addr = eie ∧ data = 0xCB := by simpa using h
    exact fun he => absurd he (by decide)) ⟨0, by decide, by decide⟩

/-- `ENC28J60_Write(ECON1, 3)` selects bank 3 behind the back of the cache; the next
`ENC28J60_Read(ERDPTL)` reads in bank 3. -/
theorem registers_not_reached_econ1 :
    ¬RegistersReached (boardStep quietEnv) World.bank World.bselByte 0
      [.write econ1 0x03, .read erdptl] powerOn := by
  intro h
  have hlast : (Prog.performed (boardStep quietEnv)
      (callsProg 0 [.write econ1 0x03, .read erdptl]) powerOn)[3]? =
      some (.readOp readCtrlReg erdptl, ⟨powerOn.node, 0, 3⟩) := rfl
  obtain h | ⟨h, -⟩ := h _ (List.mem_of_getElem? hlast) rfl
  · exact absurd h (by decide)
  · exact absurd h (by decide)

end Enc28j60

end Enc28j60Udp
