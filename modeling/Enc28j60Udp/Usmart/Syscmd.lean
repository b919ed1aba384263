import Enc28j60Udp.Usmart.Agree
import Enc28j60Udp.Usmart.Call
import Enc28j60Udp.Usmart.Lex

/-!
# The system commands

A line that is not a call may be a system command: `?`, `help`, `list`, `id`, `hex`, `dec` or
`runtime`. `usmart_get_cmdname` copies the first word of the line, and is told the length of the
buffer; `usmart_get_aparm`, which copies the argument of the last three, is not.

`usmartSysCmdExe_eq_none` says on which lines the buffer is left, or the line: those that have one
of these three words in front of an argument of thirty characters or more, or of a string that is
not closed.
-/

namespace Enc28j60Udp

namespace Usmart

/-! ## `usmart_get_cmdname` -/

/-- The loop of `usmart_get_cmdname`: what is returned, the bytes written without the terminator,
and `*nlen`. -/
def cmdnameLoop (maxlen : UInt8) : Str → List UInt8 → UInt8 → Option (UInt8 × List UInt8 × UInt8)
  | [], _, _ => none
  | c :: str, cmdname, nlen =>
    if c ≠ space ∧ c ≠ 0 then
      let cmdname := cmdname ++ [c]
      let nlen := nlen + 1
      if maxlen ≤ nlen then some (1, cmdname, nlen) else cmdnameLoop maxlen str cmdname nlen
    else some (0, cmdname, nlen)

/-- `usmart_get_cmdname` into a buffer of `size` bytes. The terminator is written with success
only. -/
def usmartGetCmdname (str : Str) (maxlen : UInt8) (size : ℕ) :
    Option (UInt8 × List UInt8 × UInt8) := do
  let (res, cmdname, nlen) ← cmdnameLoop maxlen str [] 0
  if (if res = 0 then cmdname.length + 1 else cmdname.length) ≤ size then some (res, cmdname, nlen)
  else none

/-! ## `usmart_sys_cmd_exe` -/

/-- The bytes of a text. -/
def ascii (s : String) : List UInt8 := s.toList.map fun c => UInt8.ofNat c.toNat

/-- `sys_cmd_tab`. -/
def sysCmdTab : List (List UInt8) :=
  [ascii "?", ascii "help", ascii "list", ascii "id", ascii "hex", ascii "dec", ascii "runtime"]

/-- The fields of `usmart_dev` that the system commands set. -/
structure Settings where
  sptype : UInt8
  runtimeflag : UInt8

/-- What a command prints. -/
inductive Printed
  | help
  | list (names : List Str)
  /-- The name of a function and its address. -/
  | id (name : List UInt8) (func : UInt32)
  | hex (res : UInt32)
  | dec (res : UInt32)
  | parmsHex
  | parmsDec
  | runtime (on : Bool)

/-- The loop of `id` over the declarations; `func` are the addresses. -/
def idLoop (func : ℕ → UInt32) : List Str → ℕ → UInt8 → Option (List Printed)
  | [], _, _ => some []
  | decl :: funs, i, rval => do
    let f ← usmartGetFname decl rval
    let out ← idLoop func funs (i + 1) f.rval
    some (.id f.fname (func i) :: out)

/-- The argument of a command: the result of `usmart_str2num`, if it is a number. -/
def sysParm (str : Str) : Option (Option (UInt8 × UInt32)) := do
  let (sfname, type, _) ← usmartGetAparm str maxFnameLen
  if type = .number then (usmartStr2num (sfname ++ [0])).map some else some none

/-- The commands `hex` and `dec`: a number is printed, and without a number the representation of
the arguments is chosen. -/
def sysConvert (sptype : UInt8) (print : UInt32 → Printed) (chosen : Printed) (str : Str)
    (st : Settings) : Option (Sta × Settings × List Printed) := do
  match ← sysParm str with
  | some (e, res) =>
    if e = 0 then some (.ok, st, [print res])
    else if e ≠ 4 then some (.parmerr, st, [])
    else some (.ok, { st with sptype := sptype }, [chosen])
  | none => some (.parmerr, st, [])

/-- The command `hex`. -/
def sysHex (str : Str) (st : Settings) : Option (Sta × Settings × List Printed) :=
  sysConvert 1 .hex .parmsHex str st

/-- The command `dec`. -/
def sysDec (str : Str) (st : Settings) : Option (Sta × Settings × List Printed) :=
  sysConvert 0 .dec .parmsDec str st

/-- The command `runtime`. -/
def sysRuntime (str : Str) (st : Settings) : Option (Sta × Settings × List Printed) := do
  match ← sysParm str with
  | some (e, res) =>
    if e = 0 then
      some (.ok, { st with runtimeflag := res.toUInt8 }, [.runtime (res.toUInt8 ≠ 0)])
    else some (.parmerr, st, [])
  | none => some (.parmerr, st, [])

/-- `usmart_sys_cmd_exe`; `rval` is what the uninitialised variable holds. -/
def usmartSysCmdExe (str : Str) (rval : UInt8) (func : ℕ → UInt32) (d : UsmartDev)
    (st : Settings) : Option (Sta × Settings × List Printed) := do
  let (res, sfname, nlen) ← usmartGetCmdname str (UInt8.ofNat maxFnameLen) maxFnameLen
  if res ≠ 0 then some (.funcerr, st, [])
  else
    let str := str.drop nlen.toNat
    match sysCmdTab.findIdx fun cmd => usmartStrcmp sfname cmd = 0 with
    | 0 => some (.ok, st, [.help])
    | 1 => some (.ok, st, [.help])
    | 2 => some (.ok, st, [.list (d.funs.map fun name => name.takeWhile (· ≠ 0))])
    | 3 => (idLoop func d.funs 0 rval).map fun out => (.ok, st, out)
    | 4 => sysHex str st
    | 5 => sysDec str st
    | 6 => sysRuntime str st
    | _ => some (.funcerr, st, [])

/-! ## The first word -/

/-- The first word of a line. -/
def cmdWord (line : List UInt8) : List UInt8 := line.takeWhile (· ≠ space)

/-- What follows the first word. -/
def behindWord (line : List UInt8) : List UInt8 := line.dropWhile (· ≠ space)

section Word

variable {line l cmdname : List UInt8}

/-- The loop copies the word, or as much of it as `maxlen` allows. -/
theorem cmdnameLoop_word {maxlen : UInt8} (h₀ : 0 ∉ l) (hroom : cmdname.length < maxlen.toNat) :
    cmdnameLoop maxlen (l ++ [0]) cmdname (UInt8.ofNat cmdname.length) =
      if cmdname.length + (cmdWord l).length < maxlen.toNat then
        some (0, cmdname ++ cmdWord l, UInt8.ofNat (cmdname ++ cmdWord l).length)
      else some (1, (cmdname ++ cmdWord l).take maxlen.toNat, maxlen) := by
  induction l generalizing cmdname with
  | nil =>
    rw [cmdWord, List.takeWhile_nil, List.append_nil, List.length_nil, Nat.add_zero, if_pos hroom]
    rfl
  | cons c l ih =>
    rw [List.mem_cons, not_or] at h₀
    rw [List.cons_append, cmdnameLoop]
    by_cases hspace : c = space
    · have hword : cmdWord (c :: l) = [] := by simp [cmdWord, hspace]
      rw [if_neg fun h => h.1 hspace, hword, List.append_nil, List.length_nil, Nat.add_zero,
        if_pos hroom]
    · have hword : cmdWord (c :: l) = c :: cmdWord l := by simp [cmdWord, hspace]
      have hlt := maxlen.toNat_lt
      have hsucc : UInt8.ofNat cmdname.length + 1 = UInt8.ofNat (cmdname ++ [c]).length := by
        rw [List.length_append, List.length_singleton, UInt8.ofNat_add]
        rfl
      have htoNat : (UInt8.ofNat (cmdname ++ [c]).length).toNat = cmdname.length + 1 := by
        rw [List.length_append, List.length_singleton]
        exact UInt8.toNat_ofNat_of_lt' (show _ < 256 by omega)
      rw [if_pos ⟨hspace, Ne.symm h₀.1⟩, hword]
      dsimp only
      rw [hsucc]
      by_cases hfull : maxlen ≤ UInt8.ofNat (cmdname ++ [c]).length
      · have hfull' := UInt8.le_iff_toNat_le.mp hfull
        have hlast : maxlen = UInt8.ofNat (cmdname ++ [c]).length := by
          rw [← UInt8.toNat_inj]
          omega
        have htake : (cmdname ++ c :: cmdWord l).take maxlen.toNat = cmdname ++ [c] := by
          rw [← List.singleton_append, ← List.append_assoc]
          exact List.take_left' (by rw [List.length_append, List.length_singleton]; omega)
        rw [if_pos hfull, List.length_cons, if_neg (by omega), htake, ← hlast]
      · have hmore := mt UInt8.le_iff_toNat_le.mpr hfull
        rw [if_neg hfull, ih h₀.2 (by rw [List.length_append, List.length_singleton]; omega),
          List.append_assoc, List.singleton_append, List.length_append, List.length_singleton,
          List.length_cons, Nat.add_assoc, Nat.add_comm 1]

/-- The buffer holds the first word of a line, or thirty characters of it. -/
theorem usmartGetCmdname_line (h₀ : 0 ∉ line) :
    usmartGetCmdname (line ++ [0]) (UInt8.ofNat maxFnameLen) maxFnameLen =
      if (cmdWord line).length < maxFnameLen then
        some (0, cmdWord line, UInt8.ofNat (cmdWord line).length)
      else some (1, (cmdWord line).take maxFnameLen, UInt8.ofNat maxFnameLen) := by
  have hmax : (UInt8.ofNat maxFnameLen).toNat = maxFnameLen := by decide
  have hrun : cmdnameLoop (UInt8.ofNat maxFnameLen) (line ++ [0]) [] 0 = _ :=
    @cmdnameLoop_word line [] (UInt8.ofNat maxFnameLen) h₀ (by decide)
  rw [List.length_nil, Nat.zero_add, List.nil_append, hmax] at hrun
  rw [usmartGetCmdname, hrun]
  by_cases hroom : (cmdWord line).length < maxFnameLen
  · simp only [if_pos hroom, Option.bind_eq_bind, Option.bind_some]
    exact if_pos hroom
  · simp only [if_neg hroom, Option.bind_eq_bind, Option.bind_some]
    exact if_pos (List.length_take_le _ _)

theorem drop_cmdWord (line : List UInt8) :
    (line ++ [0]).drop (cmdWord line).length = behindWord line ++ [0] := by
  have hsplit : line ++ [0] = cmdWord line ++ (behindWord line ++ [0]) := by
    rw [← List.append_assoc, cmdWord, behindWord, List.takeWhile_append_dropWhile]
  rw [hsplit, List.drop_left]

end Word

/-! ## The argument -/

/-- No string is left open in the first argument of a text, and its characters fit a buffer of
`MAX_FNAME_LEN` bytes. -/
def ParmFits (t : List UInt8) : Prop := ∃ x ∈ lexArg t, x.text.length < maxFnameLen

instance (t : List UInt8) : Decidable (ParmFits t) :=
  inferInstanceAs (Decidable (∃ x ∈ lexArg t, _))

/-- The commands that take an argument. -/
def parmCmds : List (List UInt8) := [ascii "hex", ascii "dec", ascii "runtime"]

/-- If the first word of the line is a command with an argument, that fits. -/
def SysFits (line : List UInt8) : Prop := cmdWord line ∈ parmCmds → ParmFits (behindWord line)

instance (line : List UInt8) : Decidable (SysFits line) := inferInstanceAs (Decidable (_ → _))

section Parm

variable {t line : List UInt8}

/-- The argument of a command is read just when it fits. -/
theorem sysParm_eq_none (h₀ : 0 ∉ t) (hlen : t.length < 200) :
    sysParm (t ++ [0]) = none ↔ ¬ParmFits t := by
  cases h : lexArg t with
  | none =>
    rw [sysParm, usmartGetAparm_none h₀ h]
    simp [ParmFits, h]
  | some x =>
    obtain ⟨i, hread, -⟩ := usmartGetAparm_some h₀ (by omega) h maxFnameLen
    have hfits : ParmFits t ↔ x.text.length < maxFnameLen := by simp [ParmFits, h]
    rw [sysParm, hread, hfits]
    by_cases hroom : x.text.length < maxFnameLen
    · obtain ⟨htext, hzero⟩ := lexArg_text h₀ h
      have hnum : ∃ r, usmartStr2num (x.text ++ [0]) = some r := by
        rcases decides x.text [] hzero (by omega) with ⟨-, hrun⟩ | ⟨-, e, -, hrun⟩
        · exact ⟨_, hrun⟩
        · exact ⟨_, hrun⟩
      obtain ⟨r, hrun⟩ := hnum
      rw [if_pos hroom, Option.bind_eq_bind, Option.bind_some]
      dsimp only
      rw [hrun]
      simp only [hroom, not_true_eq_false, iff_false]
      split_ifs <;> simp
    · rw [if_neg hroom]
      simp [hroom]

/-- What has a result for every argument has none just when the argument has none. -/
theorem bind_sysParm_eq_none {α : Type} {f : Option (UInt8 × UInt32) → Option α}
    (hf : ∀ r, f r ≠ none) (str : Str) : sysParm str >>= f = none ↔ sysParm str = none := by
  cases sysParm str with
  | none => simp
  | some r => simpa using hf r

theorem sysConvert_eq_none (sptype : UInt8) (print : UInt32 → Printed) (chosen : Printed)
    (str : Str) (st : Settings) :
    sysConvert sptype print chosen str st = none ↔ sysParm str = none := by
  refine bind_sysParm_eq_none (fun r => ?_) str
  rcases r with _ | ⟨e, res⟩
  · simp
  · dsimp only
    split_ifs <;> simp

theorem sysRuntime_eq_none (str : Str) (st : Settings) :
    sysRuntime str st = none ↔ sysParm str = none := by
  refine bind_sysParm_eq_none (fun r => ?_) str
  rcases r with _ | ⟨e, res⟩
  · simp
  · dsimp only
    split_ifs <;> simp

/-- The names of the table fit. -/
theorem exists_idLoop {decls : List Decl} {funs : List Str} (ht : Table decls funs)
    (func : ℕ → UInt32) (i : ℕ) (rval : UInt8) : ∃ out, idLoop func funs i rval = some out := by
  induction ht generalizing i rval with
  | nil => exact ⟨[], rfl⟩
  | @cons decl str decls funs hdecl ht ih =>
    obtain ⟨rest, rfl⟩ := hdecl
    obtain ⟨fp, -, hf⟩ := decl.usmartGetFname_text rest rval
    rw [idLoop, hf]
    simp only [Option.bind_eq_bind, Option.bind_some]
    obtain ⟨out, hout⟩ := ih (i + 1)
      (if fp = [] then rval else if usmartStrcmp fp voidText = 0 then 0 else 1)
    exact ⟨_, by rw [hout]; rfl⟩

/-- The place of a command in the table. -/
theorem findIdx_sysCmdTab (w : List UInt8) :
    sysCmdTab.findIdx (fun cmd => usmartStrcmp w cmd = 0) =
      if w = ascii "?" then 0 else if w = ascii "help" then 1 else if w = ascii "list" then 2
      else if w = ascii "id" then 3 else if w = ascii "hex" then 4 else if w = ascii "dec" then 5
      else if w = ascii "runtime" then 6 else 7 := by
  simp only [sysCmdTab, List.findIdx_cons, List.findIdx_nil, usmartStrcmp_eq_zero,
    Bool.cond_decide]
  split_ifs <;> rfl

/-- **The system commands.** With a table of declarations, the line or the buffer is left just when
an argument does not fit. -/
theorem usmartSysCmdExe_eq_none (h₀ : 0 ∉ line) (hlen : line.length < 200) {decls : List Decl}
    {d : UsmartDev} (ht : Table decls d.funs) (rval : UInt8) (func : ℕ → UInt32) (st : Settings) :
    usmartSysCmdExe (line ++ [0]) rval func d st = none ↔ ¬SysFits line := by
  rw [usmartSysCmdExe, usmartGetCmdname_line h₀]
  by_cases hroom : (cmdWord line).length < maxFnameLen
  · have htoNat : (UInt8.ofNat (cmdWord line).length).toNat = (cmdWord line).length :=
      UInt8.toNat_ofNat_of_lt' (show _ < 256 by unfold maxFnameLen at hroom; omega)
    have hsuffix : behindWord line <:+ line := List.dropWhile_suffix _
    have hparm : sysParm (behindWord line ++ [0]) = none ↔ ¬ParmFits (behindWord line) :=
      sysParm_eq_none (fun h => h₀ (hsuffix.subset h)) (by have := hsuffix.length_le; omega)
    have hfits (hno : cmdWord line ∉ parmCmds) : SysFits line := fun h => absurd h hno
    have hparms (hyes : cmdWord line ∈ parmCmds) : SysFits line ↔ ParmFits (behindWord line) :=
      ⟨fun h => h hyes, fun h _ => h⟩
    simp only [if_pos hroom, Option.bind_eq_bind, Option.bind_some, htoNat, drop_cmdWord,
      findIdx_sysCmdTab]
    rw [if_neg (by decide)]
    split_ifs with hask hhelp hlist hid hhex hdec hruntime
    · simpa using hfits (by rw [hask]; decide)
    · simpa using hfits (by rw [hhelp]; decide)
    · simpa using hfits (by rw [hlist]; decide)
    · obtain ⟨out, hout⟩ := exists_idLoop ht func 0 rval
      simpa [hout] using hfits (by rw [hid]; decide)
    · rw [hparms (by rw [hhex]; decide), ← hparm]
      exact sysConvert_eq_none _ _ _ _ _
    · rw [hparms (by rw [hdec]; decide), ← hparm]
      exact sysConvert_eq_none _ _ _ _ _
    · rw [hparms (by rw [hruntime]; decide), ← hparm]
      exact sysRuntime_eq_none _ _
    · simpa using hfits (by simp [parmCmds, hhex, hdec, hruntime])
  · have hshort : ∀ w ∈ parmCmds, w.length < maxFnameLen := by decide
    have hfits : SysFits line := fun h => absurd (hshort _ h) hroom
    simp only [if_neg hroom, Option.bind_eq_bind, Option.bind_some]
    rw [if_pos (by decide)]
    simpa using hfits

end Parm

end Usmart

end Enc28j60Udp
