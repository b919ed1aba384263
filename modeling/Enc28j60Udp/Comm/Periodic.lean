import Enc28j60Udp.Comm.Dhcp
import Mathlib.Logic.Function.Iterate

/-!
# The timers of the polls

`TIM3_IRQHandler` advances `lwip_localtime` by 10 ms modulo `2 ^ 32`; it may come between any two
accesses of a poll. `lwip_periodic_handle` compares the clock with four timestamps and runs four
handlers of lwIP.

Beside the data of the program stands a ledger in real time: when the clock was read last, when the
value in each timer was read from it, and the tests and the calls of the handlers. `Checked` is all
that a check of a timer does to the ledger. `periodic_run` says which tests lead to a call, and
how close two calls of a handler come to each other: a tick between the store of the timestamp and
the call takes its time from the distance to the next one.
-/

namespace Enc28j60Udp

namespace Dhcp

/-! ## Real time -/

/-- A test of a timer, whose timestamp was taken at `stamp`, at the time `tested`; and a call of its
handler at the time `start`, with the new timestamp taken at `stamp`. -/
inductive Note
  | test (t : LwipTimer) (stamp tested : ℕ)
  | run (t : LwipTimer) (stamp start : ℕ)
  deriving DecidableEq

/-- What has happened so far, in milliseconds since the start. -/
structure Ledger where
  /-- The last read of `lwip_localtime`. -/
  read : ℕ
  /-- The read of `lwip_localtime` that gave the value of a timer. -/
  stamp : LwipTimer → ℕ
  /-- The tests and calls, the last one first. -/
  notes : List Note

/-- The program's data, the real time and the ledger. -/
structure Clocked where
  comm : Comm
  now : ℕ
  ledger : Ledger

/-- The timer of a handler. -/
def LwipCall.timer : LwipCall → Option LwipTimer
  | .tcpTmr => some .tcp
  | .etharpTmr => some .arp
  | .dhcpFineTmr => some .dhcpFine
  | .dhcpCoarseTmr => some .dhcpCoarse
  | .dhcpStart => none

/-- What an access at the time `now` adds to the ledger. -/
def Ledger.add (w : Ledger) (now : ℕ) : CommOp → Ledger
  | .rdLocaltime => { w with read := now }
  | .rdTimer t => { w with notes := .test t (w.stamp t) w.read :: w.notes }
  | .wrTimer t _ => { w with stamp := Function.update w.stamp t w.read }
  | .call c =>
    match c.timer with
    | some t => { w with notes := .run t (w.stamp t) now :: w.notes }
    | none => w
  | _ => w

/-- The meaning of an access. -/
def clockedStep (lwip : LwipCall → Netif → Netif) (o : CommOp) (s : Clocked) : o.Res × Clocked :=
  ((commStep lwip o s.comm).1, ⟨(commStep lwip o s.comm).2, s.now, s.ledger.add s.now o⟩)

/-- `TIM3_IRQHandler`. -/
def tim3IRQHandler (s : Clocked) : Clocked :=
  { s with comm := { s.comm with localtime := s.comm.localtime + 10 }, now := s.now + 10 }

/-- What comes in between two accesses: ticks of the clock, and packets. -/
structure Ticks where
  ticks : ℕ
  netif : Netif → Netif
  remoteip : Vector UInt8 4 → Vector UInt8 4

def Ticks.apply (i : Ticks) (s : Clocked) : Clocked :=
  tim3IRQHandler^[i.ticks]
    { s with comm := (Irq.mk i.netif i.remoteip id).apply s.comm }

/-- A poll, with what lwIP does in its calls and what interrupts do between its accesses; or
interrupts between two polls. -/
inductive ClockEvent
  | poll (lwip : LwipCall → Netif → Netif) (irq : ℕ → Ticks)
  | idle (i : Ticks)

def clockStep (s : Clocked) : ClockEvent → Clocked
  | .poll lwip irq =>
    (Prog.runIrq (clockedStep lwip) (fun t => (irq t).apply) 0 lwipPeriodicHandle s).2
  | .idle i => i.apply s

/-- The start: the clock and the timers are zero. -/
def Clocked.start (dev : LwipDev) (netif : Netif) : Clocked where
  comm := ⟨dev, netif, 0, fun _ => 0, fun _ => 0⟩
  now := 0
  ledger := ⟨0, fun _ => 0, []⟩

/-- The interval of a timer: `TCP_TMR_INTERVAL`, `ARP_TMR_INTERVAL`, `DHCP_FINE_TIMER_MSECS` and
`DHCP_COARSE_TIMER_MSECS`. -/
def LwipTimer.interval : LwipTimer → ℕ
  | .tcp => 250
  | .arp => 5000
  | .dhcpFine => 500
  | .dhcpCoarse => 60000

/-! ## What is to hold -/

/-- The calls of a handler, the last one first: the time of the timestamp and that of the call. -/
def Ledger.runs (w : Ledger) (t : LwipTimer) : List (ℕ × ℕ) :=
  w.notes.filterMap fun
    | .run t' stamp start => if t' = t then some (stamp, start) else none
    | .test _ _ _ => none

/-- All that a check of the timer `t` does: it tests, when the clock is read, whether the interval
has elapsed since the timestamp was taken; if it has, a new timestamp is taken and the handler
is called. A timestamp that is `2 ^ 32` ms old may make it wait. -/
inductive Checked (t : LwipTimer) (w : Ledger) : Ledger → Prop
  | waits {tested : ℕ} (hread : w.read ≤ tested)
      (h : tested - w.stamp t < 2 ^ 32 → tested - w.stamp t < t.interval) :
      Checked t w { w with read := tested, notes := .test t (w.stamp t) tested :: w.notes }
  | runs {tested stamp start : ℕ} (hread : w.read ≤ tested) (h : t.interval ≤ tested - w.stamp t)
      (hstamp : tested ≤ stamp) (hstart : stamp ≤ start) :
      Checked t w
        { read := stamp
          stamp := Function.update w.stamp t stamp
          notes := .run t stamp start :: .test t (w.stamp t) tested :: w.notes }

/-- A poll checks the four timers. -/
def PollChecked (w w' : Ledger) : Prop :=
  ∃ w₁ w₂ w₃, Checked .tcp w w₁ ∧ Checked .arp w₁ w₂ ∧ Checked .dhcpFine w₂ w₃ ∧
    Checked .dhcpCoarse w₃ w'

/-- A call of the handler is at least the interval behind the call before it. -/
def RunsApart (w : Ledger) : Prop :=
  ∀ t, (w.runs t).Pairwise fun new old => old.2 + t.interval ≤ new.2

/-- The timestamps of two calls are at least the interval apart, and each is taken before its call;
so the calls themselves are as far apart, less the time that passed between the earlier timestamp
and its call. -/
def StampsApart (w : Ledger) : Prop :=
  ∀ t, (∀ r ∈ w.runs t, r.1 ≤ r.2) ∧ (w.runs t).Pairwise fun new old =>
    old.1 + t.interval ≤ new.1 ∧ old.2 + t.interval ≤ new.2 + (old.2 - old.1)

/-! ## A check -/

/-- The clock and the timers are the real times modulo `2 ^ 32`. -/
structure OnTime (s : Clocked) : Prop where
  localtime : s.comm.localtime = UInt32.ofNat s.now
  timer : ∀ t, s.comm.timer t = UInt32.ofNat (s.ledger.stamp t)
  read_le : s.ledger.read ≤ s.now
  stamp_le : ∀ t, s.ledger.stamp t ≤ s.ledger.read

/-- A poll is judged by its ledger. -/
def clockScope (lwip : LwipCall → Netif → Netif) :
    Prog.Scope CommOp CommOp.Res Clocked Ledger where
  step := clockedStep lwip
  inv := OnTime
  view := Clocked.ledger
  mayHang := False

theorem onTime_start (dev : LwipDev) (netif : Netif) : OnTime (.start dev netif) :=
  ⟨rfl, fun _ => rfl, Nat.le_refl _, fun _ => Nat.le_refl _⟩

theorem onTime_tim3IRQHandler {s : Clocked} (h : OnTime s) : OnTime (tim3IRQHandler s) := by
  refine ⟨?_, h.timer, h.read_le.trans (Nat.le_add_right _ _), h.stamp_le⟩
  rw [tim3IRQHandler]
  dsimp only
  rw [h.localtime, UInt32.ofNat_add]
  rfl

/-- Interrupts keep the times and the ledger. -/
theorem allows_ticks (lwip : LwipCall → Netif → Netif) (i : Ticks) (s : Clocked) :
    (clockScope lwip).Allows s (i.apply s) := by
  intro h
  have key : ∀ n (s' : Clocked), OnTime s' ∧ s'.ledger = s.ledger →
      OnTime (tim3IRQHandler^[n] s') ∧ (tim3IRQHandler^[n] s').ledger = s.ledger := by
    intro n
    induction n with
    | zero => exact fun _ h => h
    | succ n ih => exact fun s' h => ih _ ⟨onTime_tim3IRQHandler h.1, h.2⟩
  exact key i.ticks _ ⟨⟨h.localtime, h.timer, h.read_le, h.stamp_le⟩, rfl⟩

/-- The difference of two readings of the clock is the elapsed time modulo `2 ^ 32`. -/
theorem toNat_elapsed {a b : ℕ} (h : a ≤ b) :
    (UInt32.ofNat b - UInt32.ofNat a).toNat = (b - a) % 2 ^ 32 := by
  obtain ⟨d, rfl⟩ := Nat.exists_eq_add_of_le h
  rw [UInt32.ofNat_add, UInt32.add_comm, UInt32.add_sub_cancel, Nat.add_sub_cancel_left,
    UInt32.toNat_ofNat']

section Check

variable {lwip : LwipCall → Netif → Netif} {w : Ledger}

/-- An access that is not noted. -/
theorem Clock.unnoted {o : CommOp}
    (h : ∀ s, let s' := (clockedStep lwip o s).2
      (s'.ledger, s'.comm.localtime, s'.comm.timer) =
        (s.ledger, s.comm.localtime, s.comm.timer)) :
    Prog.Leads (clockScope lwip) (access o) w fun _ w' => w' = w := by
  refine .keeps fun s hs => ?_
  obtain ⟨hledger, hlocal, htimer⟩ := Prod.mk.inj (h s) |>.imp id Prod.mk.inj
  refine ⟨⟨hlocal.trans hs.localtime, fun t => ?_, ?_, fun t => ?_⟩, hledger⟩
  · change (clockedStep lwip o s).2.comm.timer t =
      UInt32.ofNat ((clockedStep lwip o s).2.ledger.stamp t)
    rw [htimer, hledger, hs.timer]
  · change (clockedStep lwip o s).2.ledger.read ≤ s.now
    rw [hledger]
    exact hs.read_le
  · change (clockedStep lwip o s).2.ledger.stamp t ≤ (clockedStep lwip o s).2.ledger.read
    rw [hledger]
    exact hs.stamp_le t

theorem Clock.rdLocaltime : Prog.Leads (clockScope lwip) (access .rdLocaltime) w fun v w' =>
    ∃ now, w.read ≤ now ∧ v = UInt32.ofNat now ∧ w' = { w with read := now } := by
  apply Prog.Leads.lift
  rintro s hs rfl
  exact ⟨⟨hs.localtime, hs.timer, Nat.le_refl _, fun t => (hs.stamp_le t).trans hs.read_le⟩,
    s.now, hs.read_le, hs.localtime, rfl⟩

theorem Clock.rdTimer (t : LwipTimer) :
    Prog.Leads (clockScope lwip) (access (.rdTimer t)) w fun v w' =>
      w.stamp t ≤ w.read ∧ v = UInt32.ofNat (w.stamp t) ∧
        w' = { w with notes := .test t (w.stamp t) w.read :: w.notes } := by
  apply Prog.Leads.lift
  rintro s hs rfl
  exact ⟨⟨hs.localtime, hs.timer, hs.read_le, hs.stamp_le⟩, hs.stamp_le t, hs.timer t, rfl⟩

/-- The store of the clock that was just read. -/
theorem Clock.wrTimer (t : LwipTimer) :
    Prog.Leads (clockScope lwip) (access (.wrTimer t (UInt32.ofNat w.read))) w fun _ w' =>
      w' = { w with stamp := Function.update w.stamp t w.read } := by
  apply Prog.Leads.lift
  rintro s hs rfl
  refine ⟨⟨hs.localtime, fun t' => ?_, hs.read_le, fun t' => ?_⟩, rfl⟩
  · change Function.update s.comm.timer t (UInt32.ofNat s.ledger.read) t' =
      UInt32.ofNat (Function.update s.ledger.stamp t s.ledger.read t')
    rcases eq_or_ne t' t with rfl | hne
    · rw [Function.update_self, Function.update_self]
    · rw [Function.update_of_ne hne, Function.update_of_ne hne, hs.timer]
  · change Function.update s.ledger.stamp t s.ledger.read t' ≤ s.ledger.read
    rcases eq_or_ne t' t with rfl | hne
    · rw [Function.update_self]
    · rw [Function.update_of_ne hne]
      exact hs.stamp_le t'

/-- A call of the handler of `t`, some time after the last read of the clock. -/
def CallsHandler (t : LwipTimer) (w w' : Ledger) : Prop :=
  ∃ start, w.read ≤ start ∧ w' = { w with notes := .run t (w.stamp t) start :: w.notes }

theorem Clock.call {c : LwipCall} {t : LwipTimer} (hc : c.timer = some t) :
    Prog.Leads (clockScope lwip) (access (.call c)) w fun _ w' => CallsHandler t w w' := by
  apply Prog.Leads.lift
  rintro s hs rfl
  have hadd : s.ledger.add s.now (.call c) =
      { s.ledger with notes := .run t (s.ledger.stamp t) s.now :: s.ledger.notes } := by
    rw [Ledger.add, hc]
  have hview : (clockScope lwip).view ((clockScope lwip).step (.call c) s).2 =
      s.ledger.add s.now (.call c) := rfl
  refine ⟨⟨hs.localtime, fun t' => ?_, ?_, fun t' => ?_⟩, s.now, hs.read_le, hview.trans hadd⟩
  · change s.comm.timer t' = UInt32.ofNat ((s.ledger.add s.now (.call c)).stamp t')
    rw [hadd]
    exact hs.timer t'
  · change (s.ledger.add s.now (.call c)).read ≤ s.now
    rw [hadd]
    exact hs.read_le
  · change (s.ledger.add s.now (.call c)).stamp t' ≤ (s.ledger.add s.now (.call c)).read
    rw [hadd]
    exact hs.stamp_le t'

/-- A check, whose body calls the handler. -/
theorem Clock.checked {t : LwipTimer} {interval : UInt32} {body : CommProg Unit}
    (hi : interval.toNat = t.interval)
    (hbody : ∀ w, Prog.Leads (clockScope lwip) body w fun _ w' => CallsHandler t w w') :
    Prog.Leads (clockScope lwip) (whenDue t interval body) w fun _ w' => Checked t w w' := by
  refine Clock.rdLocaltime.bind ?_
  rintro now _ ⟨tested, hread, rfl, rfl⟩
  refine (Clock.rdTimer t).bind ?_
  rintro last _ ⟨hle, rfl, rfl⟩
  have hdue : interval ≤ UInt32.ofNat tested - UInt32.ofNat (w.stamp t) ↔
      t.interval ≤ (tested - w.stamp t) % 2 ^ 32 := by
    rw [UInt32.le_iff_toNat_le, hi, toNat_elapsed hle]
  refine .when (fun hrun => ?_) fun hwait => ?_
  · have helapsed : t.interval ≤ tested - w.stamp t :=
      (hdue.mp hrun).trans (Nat.mod_le _ _)
    refine Clock.rdLocaltime.bind ?_
    rintro now _ ⟨stamp, hstamp, rfl, rfl⟩
    refine (Clock.wrTimer t).seq fun _ => ?_
    refine (hbody _).imp ?_
    rintro - _ ⟨start, hstart, rfl⟩
    dsimp only
    rw [Function.update_self]
    exact .runs hread helapsed hstamp hstart
  · refine .waits hread fun hfresh => ?_
    rw [hdue, Nat.mod_eq_of_lt hfresh] at hwait
    exact not_le.mp hwait

/-- An address of `lwipdev` is set without a note. -/
theorem Clock.setNetif (f : AddrField) :
    Prog.Leads (clockScope lwip) (setNetif f) w fun _ w' => w' = w := by
  refine (unnoted fun _ => rfl).seq fun v => ?_
  exact unnoted fun _ => rfl

/-- The DHCP part of a poll is not noted. -/
theorem Clock.lwipDhcpProcessHandle :
    Prog.Leads (clockScope lwip) lwipDhcpProcessHandle w fun _ w' => w' = w := by
  refine (unnoted fun _ => rfl).seq fun status => ?_
  refine .ite (fun _ => ?_) fun _ => .ite (fun _ => ?_) fun _ => .pure rfl
  · refine (unnoted fun _ => rfl).seq fun _ => ?_
    exact unnoted fun _ => rfl
  · refine (unnoted fun _ => rfl).seq fun ip => ?_
    refine (unnoted fun _ => rfl).seq fun netmask => ?_
    refine (unnoted fun _ => rfl).seq fun gw => ?_
    refine .ite (fun _ => ?_) fun _ => ?_
    · refine (unnoted fun _ => rfl).seq fun _ => ?_
      refine (unnoted fun _ => rfl).seq fun _ => ?_
      refine (unnoted fun _ => rfl).seq fun _ => ?_
      exact unnoted fun _ => rfl
    · refine (unnoted fun _ => rfl).seq fun tries => ?_
      refine .ite (fun _ => ?_) fun _ => .pure rfl
      refine (unnoted fun _ => rfl).seq fun _ => ?_
      refine (Clock.setNetif .ip).seq fun _ => ?_
      refine (Clock.setNetif .netmask).seq fun _ => ?_
      exact Clock.setNetif .gw

/-- A poll checks the four timers, whatever the interrupts do. -/
theorem Clock.lwipPeriodicHandle :
    Prog.Leads (clockScope lwip) lwipPeriodicHandle w fun _ w' => PollChecked w w' := by
  refine (Clock.checked rfl fun _ => Clock.call rfl).bind fun _ w₁ h₁ => ?_
  refine (Clock.checked rfl fun _ => Clock.call rfl).bind fun _ w₂ h₂ => ?_
  refine (Clock.checked rfl fun _ => ?_).bind fun _ w₃ h₃ => ?_
  · refine (Clock.call rfl).bind fun _ w' hcall => ?_
    refine (unnoted fun _ => rfl).seq fun status => ?_
    refine .when (fun _ => ?_) fun _ => hcall
    refine (unnoted fun _ => rfl).seq fun status => ?_
    refine .when (fun _ => ?_) fun _ => hcall
    exact Clock.lwipDhcpProcessHandle.imp fun _ _ h => h ▸ hcall
  · exact (Clock.checked rfl fun _ => Clock.call rfl).imp fun _ _ h₄ => ⟨w₁, w₂, w₃, h₁, h₂, h₃, h₄⟩

end Check

/-! ## Runs -/

/-- What an event does to the ledger. -/
def EventChecked (s : Clocked) (e : ClockEvent) : Prop :=
  match e with
  | .poll _ _ => PollChecked s.ledger (clockStep s e).ledger
  | .idle _ => (clockStep s e).ledger = s.ledger

/-- An event keeps the times, and a poll checks the timers. -/
theorem clockStep_checked {s : Clocked} (hs : OnTime s) (e : ClockEvent) :
    OnTime (clockStep s e) ∧ EventChecked s e := by
  cases e with
  | idle i => exact allows_ticks (fun _ n => n) i s hs
  | poll lwip irq =>
    have hpoll : Prog.Leads (clockScope lwip) lwipPeriodicHandle s.ledger fun _ w' =>
        PollChecked s.ledger w' := Clock.lwipPeriodicHandle
    obtain ⟨_, s', hrun, hs', hchecked⟩ | ⟨hhang, -⟩ :=
      hpoll.runIrq (fun t s => allows_ticks lwip (irq t) s) hs rfl 0
    · have hstep : clockStep s (.poll lwip irq) = s' := congrArg Prod.snd hrun
      rw [EventChecked, hstep]
      exact ⟨hs', hchecked⟩
    · exact hhang.elim

/-- The timestamps of the calls are the interval apart, and the timer holds the last of them or a
later one. -/
def Spaced (w : Ledger) : Prop :=
  ∀ t, (∀ r ∈ w.runs t, r.1 ≤ r.2 ∧ r.1 ≤ w.stamp t) ∧
    (w.runs t).Pairwise fun new old => old.1 + t.interval ≤ new.1

theorem LwipTimer.interval_pos (t : LwipTimer) : 0 < t.interval := by
  cases t <;> decide

/-- The step lemma of the spacing: a new timestamp is taken behind a test that found the interval
elapsed since the old one. -/
theorem Checked.spaced {t : LwipTimer} {w w' : Ledger} (h : Checked t w w') (hw : Spaced w) :
    Spaced w' := by
  cases h with
  | waits => exact hw
  | @runs tested stamp start hread hdue hstamp hstart =>
    intro t'
    obtain ⟨hold, hpair⟩ := hw t'
    by_cases ht : t = t'
    · subst ht
      have hpos := t.interval_pos
      have hruns : Ledger.runs ⟨stamp, Function.update w.stamp t stamp,
          .run t stamp start :: .test t (w.stamp t) tested :: w.notes⟩ t =
          (stamp, start) :: w.runs t := by
        simp [Ledger.runs]
      rw [hruns, List.forall_mem_cons, List.pairwise_cons]
      dsimp only
      rw [Function.update_self]
      refine ⟨⟨⟨hstart, Nat.le_refl _⟩, fun r hr => ?_⟩, fun r hr => ?_, hpair⟩
      · obtain ⟨h₁, h₂⟩ := hold r hr
        exact ⟨h₁, by omega⟩
      · obtain ⟨-, h₂⟩ := hold r hr
        omega
    · have hruns : Ledger.runs ⟨stamp, Function.update w.stamp t stamp,
          .run t stamp start :: .test t (w.stamp t) tested :: w.notes⟩ t' = w.runs t' := by
        simp [Ledger.runs, ht]
      rw [hruns]
      dsimp only
      rw [Function.update_of_ne (Ne.symm ht)]
      exact ⟨hold, hpair⟩

theorem EventChecked.spaced {s : Clocked} {e : ClockEvent} (h : EventChecked s e)
    (hs : Spaced s.ledger) : Spaced (clockStep s e).ledger := by
  cases e with
  | idle i =>
    have hsame : (clockStep s (.idle i)).ledger = s.ledger := h
    rwa [hsame]
  | poll lwip irq =>
    obtain ⟨w₁, w₂, w₃, h₁, h₂, h₃, h₄⟩ := h
    exact h₄.spaced (h₃.spaced (h₂.spaced (h₁.spaced hs)))

theorem Spaced.stampsApart {w : Ledger} (h : Spaced w) : StampsApart w := by
  intro t
  obtain ⟨hruns, hpair⟩ := h t
  refine ⟨fun r hr => (hruns r hr).1, hpair.imp_of_mem fun hnew hold hle => ?_⟩
  have hnew' := (hruns _ hnew).1
  have hold' := (hruns _ hold).1
  exact ⟨hle, by omega⟩

/-- **The timers.** In every run of polls and ticks, across the wrap of the clock too, a check
calls its handler exactly when the interval has elapsed, in real time, between the timestamp and
the test, as long as the timestamp is not `2 ^ 32` ms old; and the timestamps of two calls of a
handler are at least the interval apart. -/
theorem periodic_run (dev : LwipDev) (netif : Netif) (es : List ClockEvent) :
    Runs.Along clockStep EventChecked (.start dev netif) es ∧
      Runs.Always clockStep (fun s => StampsApart s.ledger) (.start dev netif) es := by
  have hstart : Spaced (Clocked.start dev netif).ledger :=
    fun t => ⟨by simp [Ledger.runs, Clocked.start], List.Pairwise.nil⟩
  have hinv : ∀ s e, OnTime s ∧ Spaced s.ledger →
      OnTime (clockStep s e) ∧ Spaced (clockStep s e).ledger := by
    rintro s e ⟨hs, hsp⟩
    obtain ⟨hs', he⟩ := clockStep_checked hs e
    exact ⟨hs', he.spaced hsp⟩
  constructor
  · exact Runs.along_of_inv hinv (fun s e h => (clockStep_checked h.1 e).2)
      ⟨onTime_start dev netif, hstart⟩ es
  · exact (Runs.always_of_inv hinv ⟨onTime_start dev netif, hstart⟩ es).imp
      fun s h => h.2.stampsApart

/-- No timestamp is `2 ^ 32` ms old. -/
def Fresh (s : Clocked) : Prop := ∀ t, s.now - s.ledger.stamp t < 2 ^ 32

/-- Ticks in front of the accesses with the numbers given. -/
def ticksAt (k : ℕ → ℕ) (n : ℕ) : Ticks := ⟨k n, id, id⟩

/-- A poll at 250 ms, in which a tick comes between the store of `TCPTimer` and `tcp_tmr`, and a
poll at 500 ms. -/
def latePolls : List ClockEvent :=
  [.poll (fun _ n => n) (ticksAt fun n => if n = 0 then 25 else if n = 4 then 1 else 0),
    .poll (fun _ n => n) (ticksAt fun n => if n = 0 then 24 else 0)]

/-- The two calls of `tcp_tmr` are 240 ms apart. -/
theorem latePolls_not_apart :
    Runs.Always clockStep Fresh (.start zeroComm.dev zeroComm.netif) latePolls ∧
      ¬Runs.Always clockStep (fun s => RunsApart s.ledger)
        (.start zeroComm.dev zeroComm.netif) latePolls := by
  constructor
  · rw [latePolls, Runs.always_cons, Runs.always_cons, Runs.always_nil]
    refine ⟨?_, ?_, ?_⟩ <;> intro t <;> cases t <;> decide +kernel
  · intro h
    have hpair := h latePolls [] (List.append_nil _).symm .tcp
    revert hpair
    decide +kernel

end Dhcp

end Enc28j60Udp
