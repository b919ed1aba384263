import Enc28j60Udp.Usart.Receiver
import Enc28j60Udp.Usmart.Execute
import Enc28j60Udp.Usmart.Syscmd

/-!
# The console

`usmart_scan` runs the line that the receiver has completed: a call is executed, and a line that is
no call may be a system command. Bytes come in from the serial port between any two of its steps,
and those that come in before the receiver is cleared are lost.

In a session a sender types commands, and waits with the next one until the last was executed. The
console then makes the calls that were typed, each once and in the order in which they were typed,
with the arguments as they were written (`session_replies`): the receiver, the two scans of a line,
the storage of the arguments and the call work together.
-/

namespace Enc28j60Udp

namespace Usmart

open Usart (Receiver usart1IRQHandler usartRecLen bufLine word)

/-! ## The model -/

/-- What `usmart_scan` has made of a line. -/
inductive Reply
  /-- The function called, the arguments, and what `parm` holds. -/
  | call (id : UInt8) (args : List (Option UInt32)) (parm : ℕ → UInt8)
  /-- `usmart_exe` has returned without a call. -/
  | noCall
  /-- What a system command has printed, and the error that is reported, if it is one. -/
  | sys (out : List Printed) (sta : Sta)

/-- The receiver, the interpreter, and what was done so far. -/
structure Console where
  rx : Receiver
  dev : UsmartDev
  settings : Settings
  replies : List Reply

/-- What does not change: the address of `parm`, and those of the functions. -/
structure Image where
  parmAddr : UInt32
  func : ℕ → UInt32

/-- The part of `usmart_scan` between the store of the terminator and the clearing of
`USART_RX_STA`. `junk` are the values of the uninitialised variables of the functions called. -/
def runLine (im : Image) (junk : ℕ → UInt8) (s : Console) : Option Console := do
  let line := bufLine s.rx.buf usartRecLen
  let r ← usmartCmdRec line (junk 0) s.dev
  if r.sta = .ok then do
    let call ← usmartExe r.dev (junk 1) im.parmAddr
    let reply := call.elim .noCall fun args => .call r.dev.id args r.dev.parm
    some { s with dev := r.dev, replies := s.replies ++ [reply] }
  else do
    let (len, settings, out) ← usmartSysCmdExe line (junk 2) im.func r.dev s.settings
    let sta := if len ≠ .funcerr then len else r.sta
    some { s with dev := r.dev, settings := settings, replies := s.replies ++ [.sys out sta] }

/-- A byte comes in, or `usmart_scan` takes a step. -/
inductive ConsoleEvent
  | receive (res : UInt8)
  | scan (junk : ℕ → UInt8)

namespace ConsoleEvent

/-- What the receiver sees of an event. -/
def toUsart : ConsoleEvent → Usart.Event
  | .receive res => .receive res
  | .scan _ => .scan

def isScan : ConsoleEvent → Bool
  | .receive _ => false
  | .scan _ => true

end ConsoleEvent

/-- One event. There is no state when the run of a line has no result. -/
def consoleStep (im : Image) (s : Option Console) (e : ConsoleEvent) : Option Console := do
  let s ← s
  let s ← match e with
    | .scan junk => if s.rx.scan = .command then runLine im junk s else some s
    | .receive _ => some s
  some { s with rx := Usart.step s.rx e.toUsart }

/-- The bytes that come in during events. -/
def typed (es : List ConsoleEvent) : List UInt8 := es.filterMap fun e => e.toUsart.byte

/-! ## Typing a line -/

section Run

variable (im : Image) {s : Console} {es : List ConsoleEvent}

/-- Outside the run of a line, an event is one of the receiver. -/
theorem consoleStep_rx (e : ConsoleEvent) (h : s.rx.scan ≠ .command) :
    consoleStep im (some s) e = some { s with rx := Usart.step s.rx e.toUsart } := by
  cases e with
  | receive res => rfl
  | scan junk =>
    rw [consoleStep, Option.bind_eq_bind, Option.bind_some]
    simp only [if_neg h, Option.bind_some]

theorem typed_cons (e : ConsoleEvent) (es : List ConsoleEvent) :
    typed (e :: es) = e.toUsart.byte.toList ++ typed es := by
  cases e <;> rfl

/-- A word in which bit 15 is not set, and `usmart_scan` waits for it: its steps do nothing. -/
theorem consoleStep_waits (hscan : s.rx.scan = .idle) (hbit : s.rx.sta &&& 0x8000 = 0)
    (junk : ℕ → UInt8) : consoleStep im (some s) (.scan junk) = some s := by
  rw [consoleStep_rx im _ (by simp [hscan]), ConsoleEvent.toUsart, Usart.step,
    Usart.scan_waits hscan hbit]

/-- The state of a console while a line is typed: the bytes that have come in are in the buffer. -/
structure Typing (s : Console) (l : List UInt8) : Prop where
  length_lt : l.length < usartRecLen
  sta : s.rx.sta = word 0 l.length
  scan : s.rx.scan = .idle
  line : bufLine s.rx.buf l.length = l

/-- Bytes that are typed are appended to the line. -/
theorem Typing.more {l l' : List UInt8} (h : Typing s l) (hes : typed es = l')
    (hcr : 0x0D ∉ l') (hlen : (l ++ l').length < usartRecLen) :
    ∃ rx, Runs.exec (consoleStep im) (some s) es = some { s with rx := rx } ∧
      Typing { s with rx := rx } (l ++ l') := by
  induction es generalizing s l l' with
  | nil =>
    obtain rfl : [] = l' := hes
    exact ⟨s.rx, rfl, by rwa [List.append_nil]⟩
  | cons e es ih =>
    rw [typed_cons] at hes
    rw [Runs.exec_cons]
    obtain ⟨hk, hsta, hscan, hline⟩ := h
    cases e with
    | scan junk =>
      rw [consoleStep_waits im hscan (by rw [hsta]; exact (Usart.word_filling hk).1)]
      exact ih ⟨hk, hsta, hscan, hline⟩ hes hcr hlen
    | receive res =>
      obtain rfl : res :: typed es = l' := hes
      rw [List.mem_cons, not_or] at hcr
      have happ : l ++ res :: typed es = (l ++ [res]) ++ typed es := by simp
      rw [happ] at hlen ⊢
      have hroom : l.length + 1 < usartRecLen := by
        simp only [List.length_append, List.length_singleton] at hlen
        omega
      have hirq := Usart.irq_filling hk hsta res
      rw [if_neg (Ne.symm hcr.1), if_pos hroom] at hirq
      rw [consoleStep_rx im _ (by simp [hscan]), ConsoleEvent.toUsart, Usart.step, hirq]
      have hnext : Typing { s with rx := { s.rx.storeBuf l.length res with
          sta := word 0 (l.length + 1) } } (l ++ [res]) := by
        refine ⟨by simpa using hroom, by simp, hscan, ?_⟩
        rw [List.length_append, List.length_singleton]
        exact (Usart.bufLine_update_succ _ _ _).trans (by rw [hline])
      exact ih hnext rfl hcr.2 hlen

/-- As long as nothing is typed, the receiver waits. -/
theorem exec_waits (hscan : s.rx.scan = .idle) (hbit : s.rx.sta &&& 0x8000 = 0)
    (hes : typed es = []) : Runs.exec (consoleStep im) (some s) es = some s := by
  induction es with
  | nil => rfl
  | cons e es ih =>
    cases e with
    | receive res => cases hes
    | scan junk =>
      rw [Runs.exec_cons, consoleStep_waits im hscan hbit]
      exact ih hes

theorem typed_eq_cons {c : UInt8} {l : List UInt8} (h : typed es = c :: l) :
    ∃ es₁ es₂, es = es₁ ++ .receive c :: es₂ ∧ typed es₁ = [] ∧ typed es₂ = l := by
  obtain ⟨es₁, e, es₂, rfl, hnone, he, hrest⟩ := List.filterMap_eq_cons_iff.mp h
  refine ⟨es₁, es₂, ?_, List.filterMap_eq_nil_iff.mpr hnone, hrest⟩
  cases e with
  | receive res =>
    obtain rfl := Option.some_inj.mp he
    rfl
  | scan junk => cases he

/-- The receiver holds a complete line, and `usmart_scan` is at `pc`. -/
structure Complete (s : Console) (pc : Usart.ScanPc) (l : List UInt8) : Prop where
  length_lt : l.length < usartRecLen
  sta : s.rx.sta = word 0xC000 l.length
  scan : s.rx.scan = pc
  line : bufLine s.rx.buf l.length = l
  store : ∀ len, pc = .store len → len.toNat = l.length
  term : pc = .command → s.rx.buf l.length = 0

/-- A line with its carriage return and line feed is complete. -/
theorem Typing.complete {l : List UInt8} (h : Typing s []) (hes : typed es = l ++ [0x0D])
    (hcr : 0x0D ∉ l) (hlen : l.length < usartRecLen) :
    ∃ rx, Runs.exec (consoleStep im) (some s) (es ++ [.receive 0x0A]) =
        some { s with rx := rx } ∧ Complete { s with rx := rx } .idle l := by
  obtain ⟨es₁, es', rfl, hl, hes'⟩ := List.filterMap_eq_append_iff.mp hes
  obtain ⟨es₂, es₃, rfl, h₂, h₃⟩ := typed_eq_cons hes'
  obtain ⟨rx, hrun, hk, hsta, hscan, hline⟩ := h.more im hl hcr hlen
  rw [List.nil_append] at hk hsta hline
  obtain ⟨hbit, -⟩ := Usart.word_filling hk
  obtain ⟨-, hbit', -⟩ := Usart.word_sawCr hk
  have hpc : rx.scan ≠ .command := by
    rw [show rx.scan = .idle from hscan]
    simp
  have hcr' : consoleStep im (some { s with rx := rx }) (.receive 0x0D) =
      some { s with rx := { rx with sta := word 0x4000 l.length } } := by
    rw [consoleStep_rx im _ hpc, ConsoleEvent.toUsart, Usart.step,
      Usart.irq_filling hk hsta, if_pos rfl]
  have hlf : consoleStep im (some { s with rx := { rx with sta := word 0x4000 l.length } })
      (.receive 0x0A) = some { s with rx := { rx with sta := word 0xC000 l.length } } := by
    rw [consoleStep_rx im _ hpc, ConsoleEvent.toUsart, Usart.step, Usart.irq_sawCr hk rfl,
      if_pos rfl]
  have hwait : Runs.exec (consoleStep im)
      (some { s with rx := { rx with sta := word 0x4000 l.length } }) es₃ =
        some { s with rx := { rx with sta := word 0x4000 l.length } } :=
    exec_waits im hscan hbit' h₃
  refine ⟨{ rx with sta := word 0xC000 l.length }, ?_, hk, rfl, hscan, hline, by simp, by simp⟩
  rw [Runs.exec_append, Runs.exec_append, hrun, Runs.exec_append,
    exec_waits im hscan (by rw [hsta, hbit]) h₂, Runs.exec_cons _ _ (ConsoleEvent.receive 0x0D),
    hcr', hwait, Runs.exec_cons, hlf, Runs.exec_nil]

/-! ## Running the line -/

/-- The steps of `usmart_scan` before it runs the line. -/
def stepsLeft : Usart.ScanPc → ℕ
  | .idle => 3
  | .tested => 2
  | .store _ => 1
  | .command => 0

/-- A byte that comes in now is lost. -/
theorem consoleStep_lost {pc : Usart.ScanPc} {line : List UInt8} (h : Complete s pc line)
    (res : UInt8) : consoleStep im (some s) (.receive res) = some s := by
  obtain ⟨-, hbit, -⟩ := Usart.word_complete h.length_lt
  have hlost := Usart.irq_complete (r := s.rx) (by rwa [Usart.Receiver.Complete, h.sta]) res
  rw [consoleStep, Option.bind_eq_bind, Option.bind_some]
  simp only [ConsoleEvent.toUsart, Usart.step, hlost, Option.bind_some]

/-- A step of `usmart_scan` on the way to the command. -/
theorem consoleStep_scan {pc : Usart.ScanPc} {line : List UInt8} (h : Complete s pc line) {n : ℕ}
    (hn : stepsLeft pc = n + 1) (junk : ℕ → UInt8) :
    ∃ rx pc', consoleStep im (some s) (.scan junk) = some { s with rx := rx } ∧
      Complete { s with rx := rx } pc' line ∧ stepsLeft pc' = n := by
  obtain ⟨hk, hsta, hscan, hline, hstore, -⟩ := h
  obtain ⟨-, hbit, -, hcount⟩ := Usart.word_complete hk
  have hpc : s.rx.scan ≠ .command := by
    rintro hcmd
    rw [← hscan, hcmd] at hn
    cases hn
  rw [consoleStep_rx im _ hpc, ConsoleEvent.toUsart, Usart.step, Usart.usmartScan, hscan]
  cases pc with
  | idle =>
    refine ⟨{ s.rx with scan := .tested }, .tested, ?_,
      ⟨hk, hsta, rfl, hline, by simp, by simp⟩, Nat.succ.inj hn⟩
    simp only [hsta, if_pos hbit]
  | tested =>
    refine ⟨_, .store _, rfl, ⟨hk, hsta, rfl, hline, fun len h => ?_, by simp⟩, Nat.succ.inj hn⟩
    rw [← Usart.ScanPc.store.inj h, hsta, hcount]
  | store len =>
    refine ⟨_, .command, rfl, ⟨hk, hsta, rfl, ?_, by simp, fun _ => ?_⟩, Nat.succ.inj hn⟩
    · exact (Usart.bufLine_update_of_le (hstore len rfl).ge _ _).trans hline
    · rw [← hstore len rfl]
      exact Function.update_self _ _ _
  | command => cases hn

/-- The command is reached, whatever comes in before. -/
theorem exec_complete {pc : Usart.ScanPc} {line : List UInt8} (h : Complete s pc line)
    (hn : es.countP ConsoleEvent.isScan = stepsLeft pc) :
    ∃ rx pc', Runs.exec (consoleStep im) (some s) es = some { s with rx := rx } ∧
      Complete { s with rx := rx } pc' line ∧ stepsLeft pc' = 0 := by
  induction es generalizing s pc with
  | nil => exact ⟨s.rx, pc, rfl, h, hn.symm⟩
  | cons e es ih =>
    rw [Runs.exec_cons]
    cases e with
    | receive res =>
      rw [consoleStep_lost im h]
      exact ih h hn
    | scan junk =>
      rw [List.countP_cons_of_pos rfl] at hn
      obtain ⟨rx, pc', hstep, hnext, hleft⟩ := consoleStep_scan im h hn.symm junk
      rw [hstep]
      exact ih hnext hleft.symm

/-- The buffer at the command: the line, its terminator, and what was received before. -/
theorem bufLine_command {buf : ℕ → UInt8} {line : List UInt8} (hlen : line.length < usartRecLen)
    (hline : bufLine buf line.length = line) (hterm : buf line.length = 0) :
    ∃ rest, bufLine buf usartRecLen = line ++ 0 :: rest := by
  obtain ⟨m, hm⟩ := Nat.exists_eq_add_of_lt hlen
  refine ⟨(List.range m).map fun i => buf (line.length + (i + 1)), ?_⟩
  rw [hm, Nat.add_assoc, bufLine, List.range_add, List.map_append, ← bufLine, hline,
    List.range_succ_eq_map]
  simp only [List.map_cons, List.map_map, Nat.add_zero, hterm, List.append_cancel_left_eq]
  rfl

end Run

/-! ## Sessions -/

/-- The events of a session in which commands are typed one after the other: the bytes of each come
in between any steps of `usmart_scan`, and the next begins when the fourth step behind its line feed
has run it. -/
inductive Session {decls : List Decl} : List ConsoleEvent → List (Command decls) → Prop
  | done {es : List ConsoleEvent} (htyped : typed es = []) : Session es []
  | command {es₁ es₂ es₃ : List ConsoleEvent} {cmd : Command decls} {cmds : List (Command decls)}
      (htyped : typed es₁ = cmd.text ++ [0x0D])
      (hscans : es₂.countP ConsoleEvent.isScan = 3) (junk : ℕ → UInt8)
      (hrest : Session es₃ cmds) :
      Session (es₁ ++ .receive 0x0A :: (es₂ ++ .scan junk :: es₃)) (cmd :: cmds)

/-- The reply to a command is the call of its function with its arguments. -/
def Answers {decls : List Decl} (im : Image) (cmd : Command decls) (reply : Reply) : Prop :=
  ∃ id vs parm, reply = .call id (vs.map some) parm ∧ id.toNat = cmd.id ∧
    List.Forall₂ (fun a v => a.Passed im.parmAddr parm v) cmd.args vs

section Session

variable {decls : List Decl} (im : Image)

/-- The command that was typed is run. -/
theorem runLine_command {s : Console} {cmd : Command decls} (h : Complete s .command cmd.text)
    (ht : Table decls s.dev.funs) (junk : ℕ → UInt8) :
    ∃ dev reply, runLine im junk s =
        some { s with dev := dev, replies := s.replies ++ [reply] } ∧
      dev.funs = s.dev.funs ∧ Answers im cmd reply := by
  obtain ⟨rest, hline⟩ := bufLine_command h.length_lt h.line (h.term rfl)
  obtain ⟨r, vs, hr, hok, hfuns, hid, hexe, hvs⟩ :=
    cmd.usmartExe_text ht rest (junk 0) (junk 1) im.parmAddr
  refine ⟨r.dev, .call r.dev.id (vs.map some) r.dev.parm, ?_, hfuns, r.dev.id, vs, r.dev.parm,
    rfl, hid, hvs⟩
  rw [runLine, hline, hr]
  simp only [Option.bind_eq_bind, Option.bind_some, if_pos hok, hexe, Option.elim_some]

/-- **A session.** Whatever the interleaving of the bytes with the steps of `usmart_scan`, the
console makes the calls that were typed, in order and each once, with the arguments that were
written. -/
theorem session_replies {s : Console} {es : List ConsoleEvent} {cmds : List (Command decls)}
    (hs : Typing s []) (ht : Table decls s.dev.funs) (hes : Session es cmds) :
    ∃ s' replies, Runs.exec (consoleStep im) (some s) es = some s' ∧
      s'.replies = s.replies ++ replies ∧ List.Forall₂ (Answers im) cmds replies ∧
      Typing s' [] := by
  induction hes generalizing s with
  | done htyped =>
    obtain ⟨hbit, -⟩ := Usart.word_filling hs.length_lt
    rw [exec_waits im hs.scan (by rw [hs.sta, hbit]) htyped]
    exact ⟨s, [], rfl, by simp, .nil, hs⟩
  | @command es₁ es₂ es₃ cmd cmds htyped hscans junk hrest ih =>
    obtain ⟨rx₁, hrun₁, hcomplete⟩ := hs.complete im htyped cmd.cr_notMem cmd.text_lt
    obtain ⟨rx₂, pc, hrun₂, hcmd, hleft⟩ := exec_complete im hcomplete hscans
    obtain rfl : pc = .command := by cases pc <;> first | rfl | cases hleft
    obtain ⟨dev, reply, hline, hfuns, hanswers⟩ := runLine_command im hcmd ht junk
    have hlast : consoleStep im (some { s with rx := rx₂ }) (.scan junk) =
        some ⟨{ rx₂ with sta := 0, scan := .idle }, dev, s.settings, s.replies ++ [reply]⟩ := by
      rw [consoleStep, Option.bind_eq_bind, Option.bind_some]
      simp only [if_pos hcmd.scan, hline, Option.bind_some, ConsoleEvent.toUsart, Usart.step,
        Usart.usmartScan]
      rw [show rx₂.scan = .command from hcmd.scan]
    have hclear : Typing ⟨{ rx₂ with sta := 0, scan := .idle }, dev, s.settings,
        s.replies ++ [reply]⟩ [] := ⟨by decide, rfl, rfl, rfl⟩
    obtain ⟨s', replies, hrun₃, hreplies, hall, hend⟩ := ih hclear (hfuns ▸ ht)
    refine ⟨s', reply :: replies, ?_, by simp [hreplies], .cons hanswers hall, hend⟩
    rw [show es₁ ++ ConsoleEvent.receive 0x0A :: (es₂ ++ ConsoleEvent.scan junk :: es₃) =
      (es₁ ++ [.receive 0x0A]) ++ (es₂ ++ .scan junk :: es₃) by simp, Runs.exec_append, hrun₁,
      Runs.exec_append, hrun₂, Runs.exec_cons, hlast, hrun₃]

/-- `write_addr(0X10,12)`. -/
def writeCommand : Command [writeAddr] where
  id := 0
  decl := writeAddr
  args := [.number ⟨.hexUpper, [0x31, 0x30], by simp, by decide +kernel, by decide +kernel⟩,
    .number ⟨.dec, [0x31, 0x32], by simp, by decide +kernel, by decide +kernel⟩]
  decl_eq := rfl
  first _ h := (List.not_mem_nil h).elim
  plain := List.forall_mem_cons.mpr ⟨trivial, List.forall_mem_singleton.mpr trivial⟩
  length_eq := by decide +kernel
  length_le := by decide
  storage_le := by decide +kernel
  text_lt := by decide +kernel
  cr_notMem := by decide +kernel

/-- The command typed twice; a step of `usmart_scan` follows every byte, and a byte is lost while
the command runs. -/
def writeSession : List ConsoleEvent :=
  let scan := ConsoleEvent.scan fun _ => 0
  let es := (writeCommand.text ++ [0x0D]).flatMap fun c => [.receive c, scan]
  es ++ .receive 0x0A :: ([scan, .receive 0x3F, scan, scan] ++ scan ::
    (es ++ .receive 0x0A :: ([scan, scan, scan] ++ scan :: [])))

/-- The console when the board has started. -/
def writeConsole : Console := ⟨.init fun _ => 0, writeDev, ⟨1, 1⟩, []⟩

theorem session_replies_writeSession : ∃ s' replies,
    Runs.exec (consoleStep ⟨0x20000000, fun _ => 0⟩) (some writeConsole) writeSession = some s' ∧
      s'.replies = [] ++ replies ∧
      List.Forall₂ (Answers ⟨0x20000000, fun _ => 0⟩) [writeCommand, writeCommand] replies ∧
      Typing s' [] :=
  session_replies ⟨0x20000000, fun _ => 0⟩ ⟨by decide, rfl, rfl, rfl⟩ table_writeDev
    (.command (by decide +kernel) (by decide +kernel) _
      (.command (by decide +kernel) (by decide +kernel) _ (.done rfl)))

end Session

end Usmart

end Enc28j60Udp
