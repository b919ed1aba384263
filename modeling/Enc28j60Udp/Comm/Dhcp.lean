import Enc28j60Udp.Foundations.Leads
import Enc28j60Udp.Foundations.Runs
import Mathlib.Data.Vector.Basic
import Mathlib.Data.Nat.Bitwise
import Mathlib.Tactic.IntervalCases

/-!
# The network configuration

`lwipdev` holds a copy of the address, netmask and gateway of `lwip_netif`. The polls of
`lwip_periodic_handle` copy them once: from the netif when DHCP has set an address, into the netif
when it has tried too often. lwIP's DHCP client goes on in both cases.

What lwIP does inside the calls that a poll makes is a function on the netif, any one for each
call. An interrupt may run between any two accesses; it may bring in packets, and so change the
netif, and advances the clock. `PollCase` says all that a poll can do to the copy, and
`agrees_iff_of_copy` for which states of the netif the copy is right.
-/

namespace Enc28j60Udp

namespace Dhcp

/-! ## Addresses -/

/-- The macro `IP4_ADDR`. -/
def ip4Addr (v : Vector UInt8 4) : UInt32 :=
  (v[3].toUInt32 &&& 0xff) <<< 24 ||| (v[2].toUInt32 &&& 0xff) <<< 16 |||
    (v[1].toUInt32 &&& 0xff) <<< 8 ||| (v[0].toUInt32 &&& 0xff)

/-- The four octets of an address, in the order in which `lwip_dhcp_process_handle` stores them. -/
def octets (a : UInt32) : Vector UInt8 4 :=
  #v[a.toUInt8, (a >>> 8).toUInt8, (a >>> 16).toUInt8, (a >>> 24).toUInt8]

theorem toNat_ip4Addr (v : Vector UInt8 4) : (ip4Addr v).toNat =
    v[0].toNat + 256 * v[1].toNat + 65536 * v[2].toNat + 16777216 * v[3].toNat := by
  have h₀ := v[0].toNat_lt
  have h₁ := v[1].toNat_lt
  have h₂ := v[2].toNat_lt
  have h₃ := v[3].toNat_lt
  have hand : ∀ b : UInt8, b.toNat &&& 255 = b.toNat := fun b => by
    rw [show 255 = 2 ^ 8 - 1 from rfl, Nat.and_two_pow_sub_one_eq_mod]
    exact Nat.mod_eq_of_lt b.toNat_lt
  have hmod : ∀ k ≤ 24, ∀ b : UInt8, b.toNat <<< k % 2 ^ 32 = b.toNat <<< k := by
    intro k hk b
    apply Nat.mod_eq_of_lt
    rw [Nat.shiftLeft_eq]
    calc b.toNat * 2 ^ k < 2 ^ 8 * 2 ^ k :=
          Nat.mul_lt_mul_of_pos_right b.toNat_lt (Nat.two_pow_pos k)
      _ = 2 ^ (8 + k) := (Nat.pow_add 2 8 k).symm
      _ ≤ 2 ^ 32 := Nat.pow_le_pow_right (by omega) (by omega)
  have hor : ∀ a b k : ℕ, b < 2 ^ k → a <<< k ||| b = a <<< k + b := fun a b k h =>
    (Nat.shiftLeft_add_eq_or_of_lt h a).symm
  simp only [ip4Addr, UInt32.toNat_or, UInt32.toNat_shiftLeft, UInt32.toNat_and,
    UInt8.toNat_toUInt32]
  change ((v[3].toNat &&& 255) <<< 24 % 2 ^ 32 ||| (v[2].toNat &&& 255) <<< 16 % 2 ^ 32 |||
    (v[1].toNat &&& 255) <<< 8 % 2 ^ 32 ||| (v[0].toNat &&& 255)) = _
  rw [hand, hand, hand, hand, hmod 24 (by omega), hmod 16 (by omega), hmod 8 (by omega),
    Nat.or_assoc, Nat.or_assoc, hor _ _ 8 (by omega), hor _ _ 16, hor _ _ 24]
  all_goals simp only [Nat.shiftLeft_eq]
  all_goals omega

@[simp] theorem ip4Addr_octets (a : UInt32) : ip4Addr (octets a) = a := by
  have ha := a.toNat_lt
  apply UInt32.toNat_inj.mp
  rw [toNat_ip4Addr]
  simp [octets, Nat.shiftRight_eq_div_pow]
  omega

@[simp] theorem octets_ip4Addr (v : Vector UInt8 4) : octets (ip4Addr v) = v := by
  have h₀ := v[0].toNat_lt
  have h₁ := v[1].toNat_lt
  have h₂ := v[2].toNat_lt
  have h₃ := v[3].toNat_lt
  have hv := toNat_ip4Addr v
  ext i hi
  interval_cases i <;> simp [octets, hv, Nat.shiftRight_eq_div_pow] <;> omega

theorem octets_injective : Function.Injective octets := fun a b h => by
  rw [← ip4Addr_octets a, h, ip4Addr_octets]

/-! ## The data -/

/-- The three addresses of a configuration: `ip`, `netmask` and `gateway` of `lwipdev`, and
`ip_addr`, `netmask` and `gw` of `lwip_netif`. -/
inductive AddrField
  | ip
  | netmask
  | gw
  deriving DecidableEq

/-- `lwipdev`. -/
structure LwipDev where
  mac : Vector UInt8 6
  remoteip : Vector UInt8 4
  config : AddrField → Vector UInt8 4
  dhcpstatus : UInt8

/-- The fields of `lwip_netif` that are used here; `tries` is `dhcp->tries`. -/
structure Netif where
  addr : AddrField → UInt32
  tries : UInt8

/-- `TCPTimer`, `ARPTimer`, `DHCPfineTimer` and `DHCPcoarseTimer`. -/
inductive LwipTimer
  | tcp
  | arp
  | dhcpFine
  | dhcpCoarse
  deriving DecidableEq

/-- The state that the polls work on. -/
structure Comm where
  dev : LwipDev
  netif : Netif
  /-- `lwip_localtime`. -/
  localtime : UInt32
  timer : LwipTimer → UInt32
  /-- What `lwip_comm_init` and `lwip_dhcp_process_handle` last read from each address of the netif,
  or wrote to it. -/
  accessed : AddrField → UInt32

/-- The calls into lwIP. -/
inductive LwipCall
  | tcpTmr
  | etharpTmr
  | dhcpFineTmr
  | dhcpCoarseTmr
  | dhcpStart

/-- The accesses of `lwip_comm.c` to the data. -/
inductive CommOp
  | rdLocaltime
  | rdTimer (t : LwipTimer)
  | wrTimer (t : LwipTimer) (v : UInt32)
  | call (c : LwipCall)
  | rdStatus
  | wrStatus (v : UInt8)
  | wrMac (v : Vector UInt8 6)
  | wrRemoteip (v : Vector UInt8 4)
  | rdConfig (f : AddrField)
  | wrConfig (f : AddrField) (v : Vector UInt8 4)
  | rdNetif (f : AddrField)
  | wrNetif (f : AddrField) (a : UInt32)
  | rdTries

/-- What each access returns. -/
abbrev CommOp.Res : CommOp → Type
  | .rdLocaltime => UInt32
  | .rdTimer _ => UInt32
  | .wrTimer _ _ => Unit
  | .call _ => Unit
  | .rdStatus => UInt8
  | .wrStatus _ => Unit
  | .wrMac _ => Unit
  | .wrRemoteip _ => Unit
  | .rdConfig _ => Vector UInt8 4
  | .wrConfig _ _ => Unit
  | .rdNetif _ => UInt32
  | .wrNetif _ _ => Unit
  | .rdTries => UInt8

/-- The meaning of an access, when the calls into lwIP do `lwip` to the netif. -/
def commStep (lwip : LwipCall → Netif → Netif) : (o : CommOp) → Comm → o.Res × Comm
  | .rdLocaltime, s => (s.localtime, s)
  | .rdTimer t, s => (s.timer t, s)
  | .wrTimer t v, s => ((), { s with timer := Function.update s.timer t v })
  | .call c, s => ((), { s with netif := lwip c s.netif })
  | .rdStatus, s => (s.dev.dhcpstatus, s)
  | .wrStatus v, s => ((), { s with dev := { s.dev with dhcpstatus := v } })
  | .wrMac v, s => ((), { s with dev := { s.dev with mac := v } })
  | .wrRemoteip v, s => ((), { s with dev := { s.dev with remoteip := v } })
  | .rdConfig f, s => (s.dev.config f, s)
  | .wrConfig f v, s =>
    ((), { s with dev := { s.dev with config := Function.update s.dev.config f v } })
  | .rdNetif f, s =>
    (s.netif.addr f, { s with accessed := Function.update s.accessed f (s.netif.addr f) })
  | .wrNetif f a, s =>
    ((), { s with
      netif := { s.netif with addr := Function.update s.netif.addr f a }
      accessed := Function.update s.accessed f a })
  | .rdTries, s => (s.netif.tries, s)

/-- Programs of `lwip_comm.c`. -/
abbrev CommProg := Prog CommOp CommOp.Res

/-- A single access. -/
def access (o : CommOp) : CommProg o.Res := Prog.lift o

/-! ## The code -/

/-- `LWIP_MAX_DHCP_TRIES`. -/
def lwipMaxDhcpTries : UInt8 := 4

/-- `lwip_comm_default_ip_set`. -/
def lwipCommDefaultIpSet (macaddr : Vector UInt8 6) : CommProg Unit := do
  access (.wrRemoteip #v[192, 168, 1, 100])
  access (.wrMac macaddr)
  access (.wrConfig .ip #v[192, 168, 1, 30])
  access (.wrConfig .netmask #v[255, 255, 255, 0])
  access (.wrConfig .gw #v[192, 168, 1, 1])
  access (.wrStatus 0)

/-- The configuration in `lwip_comm_init`: the default addresses, `netif_add` with the address `0`,
and the start of DHCP. -/
def lwipCommInit (macaddr : Vector UInt8 6) : CommProg Unit := do
  lwipCommDefaultIpSet macaddr
  access (.wrNetif .ip 0)
  access (.wrNetif .netmask 0)
  access (.wrNetif .gw 0)
  access (.wrStatus 0)
  access (.call .dhcpStart)

/-- `IP4_ADDR` of an address of `lwipdev` into the netif. -/
def setNetif (f : AddrField) : CommProg Unit := do
  let v ← access (.rdConfig f)
  access (.wrNetif f (ip4Addr v))

/-- `lwip_dhcp_process_handle`. -/
def lwipDhcpProcessHandle : CommProg Unit := do
  let status ← access .rdStatus
  if status = 0 then do
    access (.call .dhcpStart)
    access (.wrStatus 1)
  else if status = 1 then do
    let ip ← access (.rdNetif .ip)
    let netmask ← access (.rdNetif .netmask)
    let gw ← access (.rdNetif .gw)
    if ip ≠ 0 then do
      access (.wrStatus 2)
      access (.wrConfig .ip (octets ip))
      access (.wrConfig .netmask (octets netmask))
      access (.wrConfig .gw (octets gw))
    else do
      let tries ← access .rdTries
      if lwipMaxDhcpTries < tries then do
        access (.wrStatus 0xFF)
        setNetif .ip
        setNetif .netmask
        setNetif .gw
      else pure ()
  else pure ()

/-- A timer of `lwip_periodic_handle`: when it is due, set it to the clock and go on. -/
def whenDue (t : LwipTimer) (interval : UInt32) (body : CommProg Unit) : CommProg Unit := do
  let now ← access .rdLocaltime
  let last ← access (.rdTimer t)
  Prog.when (interval ≤ now - last) (do
    let now ← access .rdLocaltime
    access (.wrTimer t now)
    body)

/-- `lwip_periodic_handle`. -/
def lwipPeriodicHandle : CommProg Unit := do
  whenDue .tcp 250 (access (.call .tcpTmr))
  whenDue .arp 5000 (access (.call .etharpTmr))
  whenDue .dhcpFine 500 (do
    access (.call .dhcpFineTmr)
    let status ← access .rdStatus
    Prog.when (status ≠ 2) (do
      let status ← access .rdStatus
      Prog.when (status ≠ 0xFF) lwipDhcpProcessHandle))
  whenDue .dhcpCoarse 60000 (access (.call .dhcpCoarseTmr))

/-! ## What a poll can do -/

/-- The part of the state that no interrupt and no call into lwIP changes. -/
structure Own where
  status : UInt8
  config : AddrField → Vector UInt8 4
  accessed : AddrField → UInt32

def Comm.own (s : Comm) : Own := ⟨s.dev.dhcpstatus, s.dev.config, s.accessed⟩

/-- A poll always returns, and is judged by this part. -/
def commScope (lwip : LwipCall → Netif → Netif) : Prog.Scope CommOp CommOp.Res Comm Own where
  step := commStep lwip
  inv _ := True
  view := Comm.own
  mayHang := False

namespace Leads

variable {lwip : LwipCall → Netif → Netif} {w : Own}

theorem does {o : CommOp} (g : Own → Own) (h : ∀ s, (commStep lwip o s).2.own = g s.own) :
    Prog.Leads (commScope lwip) (access o) w fun _ w' => w' = g w :=
  .does g fun s _ => ⟨trivial, h s⟩

theorem keeps {o : CommOp} (h : ∀ s, (commStep lwip o s).2.own = s.own) :
    Prog.Leads (commScope lwip) (access o) w fun _ w' => w' = w :=
  does id h

theorem rdStatus : Prog.Leads (commScope lwip) (access .rdStatus) w fun v w' =>
    v = w.status ∧ w' = w :=
  .lift fun _ _ hw => ⟨trivial, congrArg Own.status hw, hw⟩

theorem rdNetif (f : AddrField) : Prog.Leads (commScope lwip) (access (.rdNetif f)) w fun a w' =>
    w' = { w with accessed := Function.update w.accessed f a } := by
  apply Prog.Leads.lift
  rintro s - rfl
  exact ⟨trivial, rfl⟩

theorem wrStatus (v : UInt8) : Prog.Leads (commScope lwip) (access (.wrStatus v)) w fun _ w' =>
    w' = { w with status := v } :=
  does (fun w => { w with status := v }) fun _ => rfl

theorem wrConfig (f : AddrField) (v : Vector UInt8 4) :
    Prog.Leads (commScope lwip) (access (.wrConfig f v)) w fun _ w' =>
      w' = { w with config := Function.update w.config f v } :=
  does (fun w => { w with config := Function.update w.config f v }) fun _ => rfl

theorem setNetif (f : AddrField) : Prog.Leads (commScope lwip) (setNetif f) w fun _ w' =>
    w' = { w with accessed := Function.update w.accessed f (ip4Addr (w.config f)) } := by
  have hread : Prog.Leads (commScope lwip) (access (.rdConfig f)) w fun v w' =>
      v = w.config f ∧ w' = w :=
    .lift fun _ _ hw => ⟨trivial, congrArg (fun w : Own => w.config f) hw, hw⟩
  refine hread.bind ?_
  rintro v w' ⟨rfl, rfl⟩
  exact does (fun w => { w with accessed := Function.update w.accessed f _ }) fun _ => rfl

/-- A timer keeps the part, but for what its body does. -/
theorem whenDue {t : LwipTimer} {interval : UInt32} {body : CommProg Unit}
    {Q : Unit → Own → Prop} (hbody : Prog.Leads (commScope lwip) body w Q) (hw : Q () w) :
    Prog.Leads (commScope lwip) (whenDue t interval body) w Q := by
  refine (keeps fun _ => rfl).seq fun now => ?_
  refine (keeps fun _ => rfl).seq fun last => ?_
  refine .when (fun _ => ?_) fun _ => hw
  refine (keeps fun _ => rfl).seq fun now => ?_
  refine (keeps fun _ => rfl).seq fun _ => ?_
  exact hbody

end Leads

/-- All that a poll can do: nothing; start to wait for an address; look at the netif while it
waits; take over the addresses `a`; or set the netif to the configuration. -/
inductive PollCase (w : Own) : Own → Prop
  | keep : PollCase w w
  | start (h : w.status = 0) : PollCase w { w with status := 1 }
  | wait (h : w.status = 1) (a : AddrField → UInt32) : PollCase w { w with accessed := a }
  | bound (h : w.status = 1) (a : AddrField → UInt32) : PollCase w ⟨2, fun f => octets (a f), a⟩
  | fallback (h : w.status = 1) :
    PollCase w { w with status := 0xFF, accessed := fun f => ip4Addr (w.config f) }

/-- The three addresses `a`, `b` and `c`. -/
def fields {β : Type} (a b c : β) : AddrField → β
  | .ip => a
  | .netmask => b
  | .gw => c

theorem update_fields {β : Type} (g : AddrField → β) (a b c : β) :
    Function.update (Function.update (Function.update g .ip a) .netmask b) .gw c =
      fields a b c := by
  funext f
  cases f <;> rfl

theorem fields_map {β γ : Type} (g : β → γ) (a b c : β) :
    fields (g a) (g b) (g c) = fun f => g (fields a b c f) := by
  funext f
  cases f <;> rfl

theorem fields_eta {β : Type} (g : AddrField → β) : fields (g .ip) (g .netmask) (g .gw) = g := by
  funext f
  cases f <;> rfl

variable {lwip : LwipCall → Netif → Netif} {w : Own}

theorem leads_lwipDhcpProcessHandle :
    Prog.Leads (commScope lwip) lwipDhcpProcessHandle w fun _ w' => PollCase w w' := by
  refine Leads.rdStatus.bind ?_
  rintro status w' ⟨rfl, rfl⟩
  refine .ite (fun h₀ => ?_) fun _ => .ite (fun h₁ => ?_) fun _ => .pure .keep
  · refine (Leads.keeps fun _ => rfl).seq fun _ => ?_
    refine (Leads.wrStatus 1).imp ?_
    rintro - _ rfl
    exact .start h₀
  · refine (Leads.rdNetif .ip).seq fun ip => ?_
    refine (Leads.rdNetif .netmask).seq fun netmask => ?_
    refine (Leads.rdNetif .gw).seq fun gw => ?_
    dsimp only
    rw [update_fields]
    refine .ite (fun _ => ?_) fun _ => ?_
    · refine (Leads.wrStatus 2).seq fun _ => ?_
      refine (Leads.wrConfig .ip _).seq fun _ => ?_
      refine (Leads.wrConfig .netmask _).seq fun _ => ?_
      refine (Leads.wrConfig .gw _).imp ?_
      rintro - _ rfl
      dsimp only
      rw [update_fields, fields_map]
      exact .bound h₁ _
    · refine (Leads.keeps fun _ => rfl).seq fun tries => ?_
      refine .ite (fun _ => ?_) fun _ => .pure (.wait h₁ _)
      refine (Leads.wrStatus 0xFF).seq fun _ => ?_
      refine (Leads.setNetif .ip).seq fun _ => ?_
      refine (Leads.setNetif .netmask).seq fun _ => ?_
      refine (Leads.setNetif .gw).imp ?_
      rintro - _ rfl
      dsimp only
      rw [update_fields, fields_map ip4Addr, fields_eta]
      exact .fallback h₁

/-- DHCP has succeeded, or was given up. -/
def Own.Final (w : Own) : Prop := w.status = 2 ∨ w.status = 0xFF

/-- The configuration is the copy of the addresses that were accessed last. -/
def Own.Copy (w : Own) : Prop := ∀ f, w.config f = octets (w.accessed f)

namespace PollCase

variable {w' : Own}

/-- The status stays, or moves from `0` to `1` or from `1` to a final status. -/
theorem moves (h : PollCase w w') : w'.status = w.status ∨ (w.status = 0 ∧ w'.status = 1) ∨
    (w.status = 1 ∧ w'.Final) := by
  cases h with
  | keep => exact Or.inl rfl
  | start h => exact Or.inr (Or.inl ⟨h, rfl⟩)
  | wait h a => exact Or.inl rfl
  | bound h a => exact Or.inr (Or.inr ⟨h, Or.inl rfl⟩)
  | fallback h => exact Or.inr (Or.inr ⟨h, Or.inr rfl⟩)

/-- A final status is left alone. -/
theorem stays (h : PollCase w w') (hw : w.Final) : w' = w := by
  have h₀ : w.status ≠ 0 := by rcases hw with hw | hw <;> simp [hw]
  have h₁ : w.status ≠ 1 := by rcases hw with hw | hw <;> simp [hw]
  cases h with
  | keep => rfl
  | start h => exact absurd h h₀
  | wait h a => exact absurd h h₁
  | bound h a => exact absurd h h₁
  | fallback h => exact absurd h h₁

/-- A final status is reached with the copy made. -/
theorem copy (h : PollCase w w') (hw : w.Final → w.Copy) (hw' : w'.Final) : w'.Copy := by
  cases h with
  | keep => exact hw hw'
  | start h => simp [Own.Final] at hw'
  | wait h a => simp [Own.Final, h] at hw'
  | bound h a => exact fun f => rfl
  | fallback h => exact fun f => (octets_ip4Addr _).symm

end PollCase

/-- What a poll does to the copy. -/
theorem leads_lwipPeriodicHandle :
    Prog.Leads (commScope lwip) lwipPeriodicHandle w fun _ w' => PollCase w w' := by
  have hcall : ∀ (c : LwipCall) w,
      Prog.Leads (commScope lwip) (access (.call c)) w fun _ w' => w' = w :=
    fun c w => Leads.keeps fun _ => rfl
  refine (Leads.whenDue (hcall .tcpTmr w) rfl).seq fun _ => ?_
  refine (Leads.whenDue (hcall .etharpTmr _) rfl).bind ?_
  rintro - w rfl
  refine (Leads.whenDue (Q := fun _ => PollCase w) ?_ .keep).bind fun _ w' h => ?_
  · refine (hcall .dhcpFineTmr w).seq fun _ => ?_
    refine Leads.rdStatus.bind ?_
    rintro status _ ⟨rfl, rfl⟩
    refine .when (fun _ => ?_) fun _ => .keep
    refine Leads.rdStatus.bind ?_
    rintro status _ ⟨rfl, rfl⟩
    exact .when (fun _ => leads_lwipDhcpProcessHandle) fun _ => .keep
  · refine (Leads.whenDue (hcall .dhcpCoarseTmr w') rfl).imp ?_
    rintro - _ rfl
    exact h

/-! ## Runs -/

/-- What an interrupt does between two accesses: packets change the netif and `remoteip`, the timer
advances the clock. -/
structure Irq where
  netif : Netif → Netif
  remoteip : Vector UInt8 4 → Vector UInt8 4
  localtime : UInt32 → UInt32

def Irq.apply (i : Irq) (s : Comm) : Comm :=
  { s with
    dev := { s.dev with remoteip := i.remoteip s.dev.remoteip }
    netif := i.netif s.netif
    localtime := i.localtime s.localtime }

/-- The state after `lwip_comm_init`. -/
def afterCommInit (macaddr : Vector UInt8 6) (lwip : LwipCall → Netif → Netif) (irq : ℕ → Irq)
    (s : Comm) : Comm :=
  (Prog.runIrq (commStep lwip) (fun t => (irq t).apply) 0 (lwipCommInit macaddr) s).2

/-- A poll, with what lwIP does in its calls and what interrupts do, or interrupts between two
polls. -/
inductive CommEvent
  | poll (lwip : LwipCall → Netif → Netif) (irq : ℕ → Irq)
  | input (i : Irq)

def pollStep (s : Comm) : CommEvent → Comm
  | .poll lwip irq =>
    (Prog.runIrq (commStep lwip) (fun t => (irq t).apply) 0 lwipPeriodicHandle s).2
  | .input i => i.apply s

/-- `lwipdev` holds the octets of the addresses of the netif. -/
def Comm.Agrees (s : Comm) : Prop := ∀ f, s.dev.config f = octets (s.netif.addr f)

/-- `dhcpstatus` stays, or moves from `0` to `1` or from `1` to `2` or `0xFF`. -/
def StatusMoves (s s' : Comm) : Prop :=
  s'.dev.dhcpstatus = s.dev.dhcpstatus ∨
    (s.dev.dhcpstatus = 0 ∧ s'.dev.dhcpstatus = 1) ∨ (s.dev.dhcpstatus = 1 ∧ s'.own.Final)

/-- The status moves forwards, and a poll that ends in a final status leaves the copies in
agreement. -/
def InAgreement (s : Comm) (e : CommEvent) : Prop :=
  StatusMoves s (pollStep s e) ∧
    ∀ lwip irq, e = .poll lwip irq → (pollStep s e).own.Final → (pollStep s e).Agrees

/-- What holds of each step instead: in a final status `lwipdev` is never changed again, and agrees
with the netif exactly when each address of the netif is the one that was read or written last. -/
structure CopyKept (s s' : Comm) : Prop where
  moves : StatusMoves s s'
  stays : s.own.Final → s'.dev.config = s.dev.config ∧ s'.accessed = s.accessed
  copy : s'.own.Final → ∀ f, s'.dev.config f = octets (s'.accessed f)
  agrees_iff : s'.own.Final → (s'.Agrees ↔ ∀ f, s'.netif.addr f = s'.accessed f)

/-- A step is a poll or keeps the part that interrupts do not change. -/
theorem pollCase_pollStep (s : Comm) (e : CommEvent) : PollCase s.own (pollStep s e).own := by
  cases e with
  | input i => exact .keep
  | poll lwip irq =>
    have hpoll : Prog.Leads (commScope lwip) lwipPeriodicHandle s.own fun _ => PollCase s.own :=
      leads_lwipPeriodicHandle
    have hirq : ∀ t s, (commScope lwip).Allows s ((irq t).apply s) := fun t s _ => ⟨trivial, rfl⟩
    obtain ⟨_, s', hrun, -, hcase⟩ | ⟨hhang, -⟩ := hpoll.runIrq hirq trivial rfl 0
    · have hstep : pollStep s (.poll lwip irq) = s' := congrArg Prod.snd hrun
      rw [hstep]
      exact hcase
    · exact hhang.elim

/-- The copy agrees with the netif exactly when the netif still has the addresses copied. -/
theorem agrees_iff_of_copy {s : Comm} (h : s.own.Copy) :
    s.Agrees ↔ ∀ f, s.netif.addr f = s.accessed f := by
  refine forall_congr' fun f => ?_
  have hf : s.dev.config f = octets (s.accessed f) := h f
  rw [hf, octets_injective.eq_iff, eq_comm]

/-- The step lemma. -/
theorem copyKept_pollStep {s : Comm} (h : s.own.Final → s.own.Copy) (e : CommEvent) :
    CopyKept s (pollStep s e) := by
  have hcase := pollCase_pollStep s e
  refine ⟨hcase.moves, fun hf => ?_, hcase.copy h, fun hf => agrees_iff_of_copy (hcase.copy h hf)⟩
  have hsame := hcase.stays hf
  exact ⟨congrArg Own.config hsame, congrArg Own.accessed hsame⟩

/-- **The network configuration.** From `lwip_comm_init` on, whatever lwIP does to the netif:
`dhcpstatus` moves from `0` over `1` to a final status and stays there, and from then on `lwipdev`
holds the octets of the addresses that `lwip_dhcp_process_handle` has read from the netif or
written to it. It agrees with the netif exactly when the netif still has these addresses. -/
theorem copyKept_run (macaddr : Vector UInt8 6) (lwip : LwipCall → Netif → Netif)
    (irq : ℕ → Irq) (s : Comm) (es : List CommEvent) :
    (afterCommInit macaddr lwip irq s).dev.dhcpstatus = 0 ∧
      Runs.Along pollStep (fun s e => CopyKept s (pollStep s e))
        (afterCommInit macaddr lwip irq s) es := by
  have hstart : (afterCommInit macaddr lwip irq s).dev.dhcpstatus = 0 := rfl
  refine ⟨hstart, Runs.along_of_inv (P := fun s => s.own.Final → s.own.Copy) ?_ ?_ ?_ es⟩
  · exact fun s e h => (pollCase_pollStep s e).copy h
  · exact fun s e h => copyKept_pollStep h e
  · simp [Own.Final, Comm.own, hstart]

/-- Interrupts that bring in no packet and set the clock to `now`. -/
def clockIrq (now : UInt32) : ℕ → Irq := fun _ => ⟨id, id, fun _ => now⟩

/-- lwIP sets `a` as the address in `dhcp_fine_tmr`. -/
def fineSets (a : UInt32) : LwipCall → Netif → Netif
  | .dhcpFineTmr, n => { n with addr := fields a 0x00FFFFFF 0x0101A8C0 }
  | _, n => n

/-- The first bind to 192.168.1.50, and a renewal to 192.168.1.51. -/
def renewal : List CommEvent :=
  [.poll (fun _ n => n) (clockIrq 500), .poll (fineSets 0x3201A8C0) (clockIrq 1000),
    .poll (fineSets 0x3301A8C0) (clockIrq 1500)]

/-- The state that the loader leaves. -/
def zeroComm : Comm :=
  ⟨⟨.replicate 6 0, .replicate 4 0, fun _ => .replicate 4 0, 0⟩, ⟨fun _ => 0, 0⟩, 0, fun _ => 0,
    fun _ => 0⟩

/-- After the renewal, `lwipdev` still has the first address. -/
theorem renewal_not_inAgreement :
    ¬Runs.Along pollStep InAgreement
      (afterCommInit (.replicate 6 0) (fun _ n => n) (clockIrq 0) zeroComm) renewal := by
  intro h
  obtain ⟨-, hlast⟩ := h (renewal.take 2) _ [] rfl
  have hagrees := hlast _ _ rfl (Or.inl (by decide +kernel)) .ip
  exact absurd hagrees (by decide +kernel)

end Dhcp

end Enc28j60Udp
