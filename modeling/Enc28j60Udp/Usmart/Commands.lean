import Enc28j60Udp.Usmart.Syscmd
import Enc28j60Udp.Usmart.Writes

/-!
# The buffers of the command interpreter

`usmart_cmd_rec` and `usmart_sys_cmd_exe` read names and arguments into `rfname` and `sfname`, of
`MAX_FNAME_LEN` bytes, and words into `fpname`, of six. The words are cut to five characters, and
`usmart_get_cmdname` to thirty; nothing limits the names of `usmart_get_fname` and the arguments of
`usmart_get_aparm`, and where a string is not closed `usmart_get_aparm` reads over the terminator.

With a table of declarations these are the only ways to leave the buffers and the line
(`commands_safe_iff`).
-/

namespace Enc28j60Udp

namespace Usmart

open FnameState

/-! ## Calls of the table -/

/-- The line calls a function of the table, with arguments enough. -/
def Calls (decls : List Decl) (line : List UInt8) : Prop :=
  ∃ args post decl, IsCall line args post ∧
    decls.find? (fun decl => decl.name = nameOf line) = some decl ∧ decl.counted ≤ callArgs args

/-- The name of a line fits its buffer, no string of a call is left open, and the argument of a
system command fits. -/
structure LineFits (decls : List Decl) (line : List UInt8) : Prop where
  name : (nameOf line).length < maxFnameLen
  strings : Calls decls line →
    ¬((lineArgs line).2 = .opened ∧ (lineArgs line).1.length ≤ maxParm)
  parm : SysFits line

/-- The loop over a table of declarations finds the first with the name. -/
theorem exists_cmdRecLoop {decls : List Decl} {funs : List Str} (ht : Table decls funs)
    (rfname : List UInt8) (rpnum : UInt8) (i : ℕ) (rval : UInt8) :
    ∃ x, cmdRecLoop rfname rpnum funs i rval = some x ∧ ((∃ k, x = .ok k) ↔
      ∃ decl, decls.find? (fun decl => decl.name = rfname) = some decl ∧
        decl.counted ≤ rpnum.toNat) := by
  induction ht generalizing i rval with
  | nil => exact ⟨.error .nofuncfind, rfl, by simp⟩
  | @cons decl str decls funs hdecl ht ih =>
    obtain ⟨rest, rfl⟩ := hdecl
    obtain ⟨rval', hround⟩ := cmdRecLoop_text decl rest funs rfname rpnum i rval
    rw [hround]
    by_cases hname : decl.name = rfname
    · have hcounted := decl.counted_lt
      have hlt : rpnum < UInt8.ofNat decl.counted ↔ rpnum.toNat < decl.counted := by
        rw [UInt8.lt_iff_toNat_lt, UInt8.toNat_ofNat_of_lt' (show _ < 256 by omega)]
      rw [if_pos hname, List.find?_cons_of_pos (by simpa using hname)]
      by_cases hmore : rpnum < UInt8.ofNat decl.counted
      · have hmore' := hlt.mp hmore
        exact ⟨_, if_pos hmore, by simpa using hmore'⟩
      · have hmore' := mt hlt.mpr hmore
        exact ⟨_, if_neg hmore, by simpa using hmore'⟩
    · rw [if_neg hname, List.find?_cons_of_neg (by simpa using hname)]
      exact ih (i + 1) rval'

theorem usmartGetFparam_eq_none {line : List UInt8} (d : UsmartDev) (h₀ : 0 ∉ line)
    (hlen : line.length ≤ 199) (hparen : lparen ∈ line) :
    usmartGetFparam (line ++ [0]) d = none ↔
      (lineArgs line).2 = .opened ∧ (lineArgs line).1.length ≤ maxParm := by
  rw [← usmartGetFparamTraced_eq_none d h₀ hlen hparen, ← usmartGetFparamTraced_fst,
    Option.map_eq_none_iff]

theorem IsCall.lparen_mem {line args post : List UInt8} (h : IsCall line args post) :
    lparen ∈ line := by
  have hsuffix : behindName line <:+ line :=
    (copyName_suffix false _).trans (List.drop_suffix _ line)
  rw [h.1] at hsuffix
  exact hsuffix.subset List.mem_cons_self

section Line

variable {line : List UInt8} {decls : List Decl} {d : UsmartDev}

/-- **The calls.** With a table of declarations, the line or a buffer is left just when the name is
too long, or a string of a call is open. -/
theorem usmartCmdRec_eq_none (h₀ : 0 ∉ line) (hlen : line.length ≤ 199) (ht : Table decls d.funs)
    (rval : UInt8) : usmartCmdRec (line ++ [0]) rval d = none ↔
      ¬((nameOf line).length < maxFnameLen ∧ (Calls decls line →
        ¬((lineArgs line).2 = .opened ∧ (lineArgs line).1.length ≤ maxParm))) := by
  obtain ⟨sta, pnum, rval', stop, hrun, hok, hnum⟩ :=
    usmartGetFname_line h₀ (Nat.lt_succ_of_le hlen) rval
  rw [usmartCmdRec, hrun]
  by_cases hname : (nameOf line).length < maxFnameLen
  · rw [and_iff_right hname, if_pos hname, Option.bind_eq_bind, Option.bind_some]
    dsimp only
    by_cases hsta : sta = .ok
    · obtain ⟨args, post, hcall⟩ := hok.mp hsta
      obtain ⟨x, hx, hfound⟩ := exists_cmdRecLoop ht (nameOf line) pnum 0 rval'
      have hcalls : Calls decls line ↔ ∃ k, x = .ok k := by
        rw [hfound, hnum args post hcall]
        constructor
        · rintro ⟨args', post', decl, hcall', hdecl, hle⟩
          rw [← hnum args' post' hcall', hnum args post hcall] at hle
          exact ⟨decl, hdecl, hle⟩
        · rintro ⟨decl, hdecl, hle⟩
          exact ⟨args, post, decl, hcall, hdecl, hle⟩
      rw [if_neg (not_not.mpr hsta), hx, Option.bind_eq_bind, Option.bind_some, hcalls]
      cases x with
      | error sta => simp
      | ok i =>
        have hparm := usmartGetFparam_eq_none { d with id := UInt8.ofNat i } h₀ hlen
          hcall.lparen_mem
        simp only [Option.bind_eq_bind, exists_eq', Except.ok.injEq, true_imp_iff, not_not, ← hparm]
        cases usmartGetFparam (line ++ [0]) { d with id := UInt8.ofNat i } with
        | none => simp
        | some f =>
          simp only [Option.bind_some, reduceCtorEq, iff_false]
          split_ifs <;> simp
    · rw [if_pos hsta]
      simp only [reduceCtorEq, false_iff, not_not]
      rintro ⟨args, post, decl, hcall, -⟩
      exact absurd (hok.mpr ⟨args, post, hcall⟩) hsta
  · rw [if_neg hname]
    simp [hname]

end Line

/-! ## All buffers -/

/-- The words that `usmart_get_fname` collects of a return type and a first parameter fit `fpname`,
with their terminators. -/
def FpnameFits (str : Str) : Prop :=
  (∀ fp, rtypeLoop str [] = some fp → fp.length + 1 ≤ 6) ∧
    ∀ k sta s stop, fnameLoop (str.drop k) FnameState.start = some (sta, s, stop) →
      s.fpname.length + 1 ≤ 6

theorem fpnameFits (str : Str) : FpnameFits str :=
  ⟨fun _ h => Nat.succ_le_succ (rtypeLoop_length (Nat.zero_le _) h), fun _ _ _ _ h =>
    Nat.succ_le_succ (fnameLoop_fpname_length (Nat.zero_le _) h)⟩

/-- Both functions end on a line without a read behind its terminator, and write inside `rfname` and
`sfname`, as they have a result, and inside `fpname`. -/
structure CommandsSafe (line : List UInt8) (d : UsmartDev) : Prop where
  cmdRec : ∀ rval, usmartCmdRec (line ++ [0]) rval d ≠ none
  sysCmdExe : ∀ rval func st, usmartSysCmdExe (line ++ [0]) rval func d st ≠ none
  fpname : ∀ str ∈ (line ++ [0]) :: d.funs, FpnameFits str

/-- **The buffers of the commands.** On a line that the serial port can deliver, both functions stay
inside the line and their buffers just when the line fits. -/
theorem commands_safe_iff (line : List UInt8) (decls : List Decl) (d : UsmartDev) (h₀ : 0 ∉ line)
    (hlen : line.length ≤ 199) (ht : Table decls d.funs) :
    CommandsSafe line d ↔ LineFits decls line := by
  have hcmd := usmartCmdRec_eq_none h₀ hlen ht
  have hsys := usmartSysCmdExe_eq_none h₀ (Nat.lt_succ_of_le hlen) ht
  constructor
  · intro h
    obtain ⟨hname, hstrings⟩ := not_not.mp (mt (hcmd 0).mpr (h.cmdRec 0))
    exact ⟨hname, hstrings, not_not.mp (mt (hsys 0 0 ⟨0, 0⟩).mpr (h.sysCmdExe 0 0 ⟨0, 0⟩))⟩
  · rintro ⟨hname, hstrings, hparm⟩
    exact ⟨fun rval h => (hcmd rval).mp h ⟨hname, hstrings⟩,
      fun rval func st h => (hsys rval func st).mp h hparm, fun str _ => fpnameFits str⟩

/-! ## The table of the program -/

/-- A declaration without spaces behind the name. -/
def Decl.ofText (rtype name : String) (params : List Param)
    (h : (∀ c ∈ ascii rtype, c ≠ lparen ∧ c ≠ 0) ∧ 2 ≤ (ascii rtype).length ∧
      (∀ c ∈ (ascii rtype).getLast?, c = space ∨ c = star) ∧
      (∀ c ∈ ascii name, isIdentChar c = true) ∧ ascii name ≠ [] ∧
      (ascii name).length < maxFnameLen ∧
      (declText (ascii rtype) (ascii name) 0 params).length < 2 ^ 8) : Decl :=
  ⟨ascii rtype, ascii name, 0, params, h.1, h.2.1, h.2.2.1, h.2.2.2.1, h.2.2.2.2.1, h.2.2.2.2.2.1,
    h.2.2.2.2.2.2⟩

/-- The declarations of `usmart_nametab`. -/
def usmartNametab : List Decl :=
  [.ofText "u32 " "read_addr" [⟨ascii "u32 addr", by decide +kernel⟩] (by decide +kernel),
    writeAddr,
    .ofText "void " "delay_ms" [⟨ascii "u16 nms", by decide +kernel⟩] (by decide +kernel),
    .ofText "void " "delay_us" [⟨ascii "u32 nus", by decide +kernel⟩] (by decide +kernel),
    .ofText "u8 " "ENC28J60_Read" [⟨ascii "u8 addr", by decide +kernel⟩] (by decide +kernel),
    .ofText "void " "ENC28J60_Write"
      [⟨ascii "u8 addr", by decide +kernel⟩, ⟨ascii "u8 data", by decide +kernel⟩]
      (by decide +kernel),
    .ofText "u16 " "ENC28J60_PHY_Read" [⟨ascii "u8 addr", by decide +kernel⟩] (by decide +kernel),
    .ofText "void " "ENC28J60_PHY_Write"
      [⟨ascii "u8 addr", by decide +kernel⟩, ⟨ascii "u16 data", by decide +kernel⟩]
      (by decide +kernel)]

/-- `usmart_dev` with this table. -/
def usmartDev : UsmartDev :=
  freshDev (usmartNametab.map fun decl => decl.text ++ [0]) (by simp [usmartNametab])

theorem table_map (decls : List Decl) : Table decls (decls.map fun decl => decl.text ++ [0]) :=
  List.forall₂_map_right_iff.mpr (List.forall₂_same.mpr fun _ _ => ⟨[], rfl⟩)

/-- The line `ENC28J60_Write(0X1F,12)`. -/
theorem commands_safe_write : CommandsSafe (ascii "ENC28J60_Write(0X1F,12)") usmartDev :=
  (commands_safe_iff (ascii "ENC28J60_Write(0X1F,12)") usmartNametab usmartDev (by decide +kernel)
    (by decide +kernel) (table_map usmartNametab)).mpr
    ⟨by decide +kernel, fun _ => by decide +kernel, by decide +kernel⟩

/-- The serial port can deliver the line, and a function leaves it, or its buffers. -/
def LeavesBuffers (line : List UInt8) : Prop :=
  0 ∉ line ∧ line.length ≤ 199 ∧ ¬CommandsSafe line usmartDev

/-- A name and a number of thirty characters, and strings that are not closed in a system command
and in a call. -/
theorem not_commandsSafe :
    LeavesBuffers (List.replicate 30 0x61) ∧
      LeavesBuffers (ascii "hex " ++ List.replicate 30 0x31) ∧
      LeavesBuffers (ascii "hex \"") ∧ LeavesBuffers (ascii "write_addr(\"\\\",1)") := by
  have hcmd {line : List UInt8} (h : (usmartCmdRec (line ++ [0]) 0 usmartDev).isNone) :
      ¬CommandsSafe line usmartDev := fun hs => hs.cmdRec 0 (Option.isNone_iff_eq_none.mp h)
  have hsys {line : List UInt8}
      (h : (usmartSysCmdExe (line ++ [0]) 0 (fun _ => 0) usmartDev ⟨0, 0⟩).isNone) :
      ¬CommandsSafe line usmartDev := fun hs =>
    hs.sysCmdExe 0 (fun _ => 0) ⟨0, 0⟩ (Option.isNone_iff_eq_none.mp h)
  exact ⟨⟨by decide +kernel, by decide +kernel, hcmd (by decide +kernel)⟩,
    ⟨by decide +kernel, by decide +kernel, hsys (by decide +kernel)⟩,
    ⟨by decide +kernel, by decide +kernel, hsys (by decide +kernel)⟩,
    by decide +kernel, by decide +kernel, hcmd (by decide +kernel)⟩

end Usmart

end Enc28j60Udp
