import Mathlib.Algebra.GroupWithZero.Nat
import Mathlib.Data.List.Basic
import Mathlib.Logic.Function.Basic

/-!
# The command interpreter

USMART takes a line from the serial port, finds the function it names in a table of declarations,
and decodes its arguments. `usmart_get_fname` reads the name and counts the arguments of a line as
well as the parameters of a declaration; `usmart_get_fparam` decodes the arguments, each read by
`usmart_get_aparm`.

A pointer into a string is the list of the bytes from it to the end of the memory. A read behind
the end, and a write outside a buffer of fixed size, have no result. The counters of the code are
`u8` variables.
-/

namespace Enc28j60Udp

namespace Usmart

/-- A pointer to a byte: the bytes from there on. -/
abbrev Str := List UInt8

abbrev lparen : UInt8 := 0x28
abbrev rparen : UInt8 := 0x29
abbrev comma : UInt8 := 0x2C
abbrev quote : UInt8 := 0x22
abbrev backslash : UInt8 := 0x5C
abbrev space : UInt8 := 0x20
abbrev star : UInt8 := 0x2A

/-- The string `void`. -/
def voidText : List UInt8 := [0x76, 0x6F, 0x69, 0x64]

/-- `MAX_FNAME_LEN`. -/
def maxFnameLen : ℕ := 30

/-- `MAX_PARM`. -/
def maxParm : ℕ := 10

/-- `PARM_LEN`. -/
def parmLen : ℕ := 200

/-- `USMART_OK` and the error codes. -/
inductive Sta
  | ok
  | funcerr
  | parmerr
  | parmover
  | nofuncfind
  deriving DecidableEq

/-! ## Strings -/

/-- `usmart_strcmp` of two strings, given without their terminators. -/
def usmartStrcmp : List UInt8 → List UInt8 → ℕ
  | [], [] => 0
  | c :: s, d :: t => if c ≠ d then 1 else usmartStrcmp s t
  | _, _ => 1

/-- `usmart_strlen`. -/
def usmartStrlen (s : List UInt8) : UInt8 := s.foldl (fun len _ => len + 1) 0

/-- The loop of `usmart_pow`. -/
def powLoop (m : UInt8) : ℕ → UInt32 → UInt32
  | 0, result => result
  | n + 1, result => powLoop m n (result * m.toUInt32)

/-- `usmart_pow`. -/
def usmartPow (m n : UInt8) : UInt32 := powLoop m n.toNat 1

/-- `'0'` to `'9'`. -/
def isDecChar (c : UInt8) : Bool := 0x30 ≤ c && c ≤ 0x39

/-- `'A'` to `'F'`. -/
def isUpperChar (c : UInt8) : Bool := 0x41 ≤ c && c ≤ 0x46

/-- `'a'` to `'f'`. -/
def isLowerChar (c : UInt8) : Bool := 0x61 ≤ c && c ≤ 0x66

/-- The first loop of `usmart_str2num`: the number of digits and the base, or the error `1`. -/
def str2numScan : Str → UInt8 → UInt8 → Option (Except UInt8 (UInt8 × UInt8))
  | [], _, _ => none
  | c :: p, bnum, hexdec =>
    if isDecChar c || isUpperChar c || (c == 0x58 && bnum == 1) then
      str2numScan p (bnum + 1) (if 0x41 ≤ c then 16 else hexdec)
    else if c = 0 then some (.ok (bnum, hexdec))
    else some (.error 1)

/-- The second loop of `usmart_str2num`. -/
def str2numSum (hexdec : UInt8) : Str → UInt8 → UInt32 → Option UInt32
  | [], _, _ => none
  | c :: p, bnum, res =>
    let bnum := if bnum ≠ 0 then bnum - 1 else bnum
    let t := if isDecChar c then c.toUInt32 - 0x30 else c.toUInt32 - 0x41 + 10
    let res := res + t * usmartPow hexdec bnum
    match p.head? with
    | none => none
    | some d => if d = 0 then some res else str2numSum hexdec p bnum res

/-- `usmart_str2num`: the error code, and `*res`. -/
def usmartStr2num (str : Str) : Option (UInt8 × UInt32) := do
  match ← str2numScan str 0 10 with
  | .error e => some (e, 0)
  | .ok (bnum, hexdec) =>
    if hexdec = 16 then
      if bnum < 3 then some (2, 0)
      else match str with
        | c :: d :: p =>
          if c = 0x30 ∧ d = 0x58 then do
            let res ← str2numSum hexdec p (bnum - 2) 0
            some (0, res)
          else some (3, 0)
        | _ => none
    else if bnum = 0 then some (4, 0)
    else do
      let res ← str2numSum hexdec str bnum 0
      some (0, res)

/-! ## `usmart_get_fname` -/

/-- The loop that reads the return type: what is in `fpname`. -/
def rtypeLoop : Str → List UInt8 → Option (List UInt8)
  | [], _ => none
  | c :: str, fp =>
    if c = 0 then some fp
    else if c ≠ space ∧ fp.length < 5 then
      if fp.length = 4 ∧ c ≠ star then some fp else rtypeLoop str (fp ++ [c])
    else if fp.length = 5 then some fp
    else rtypeLoop str fp

/-- The character that `usmart_search_nextc` finds from its second position on. -/
def skipSpaces : Str → Option UInt8
  | [] => none
  | c :: str => if c = space then skipSpaces str else some c

/-- `usmart_search_nextc`. -/
def usmartSearchNextc (str : Str) : Option UInt8 := skipSpaces str.tail

/-- The loop that looks for the start of the name: `offset`. -/
def offsetLoop : Str → UInt8 → UInt8 → Option UInt8
  | [], _, _ => none
  | c :: str, res, offset =>
    if c = lparen ∨ c = 0 then some offset
    else
      let res := res + 1
      match str.head? with
      | none => none
      | some d =>
        if d = space ∨ d = star then do
          let nchar ← usmartSearchNextc str
          offsetLoop str res (if nchar ≠ lparen ∧ nchar ≠ star then res else offset)
        else offsetLoop str res offset

/-- The variables of the main loop of `usmart_get_fname`; `fname` and `fpname` are what was written
so far, and `fplcnt` is the length of `fpname`. -/
structure FnameState where
  fover : UInt8
  parmnum : UInt8
  temp : UInt8
  pcnt : UInt8
  nchar : Bool
  fpname : List UInt8
  fname : List UInt8

/-- The part of a round behind the tests for parentheses and quotes. -/
def FnameState.count (s : FnameState) (c : UInt8) : FnameState :=
  if s.fover = 0 then
    if c ≠ space then { s with fname := s.fname ++ [c] } else s
  else
    let s :=
      if c = comma then { s with temp := 1, pcnt := s.pcnt + 1 }
      else if c ≠ space ∧ c ≠ lparen then
        { s with
          fpname := if s.pcnt = 0 ∧ s.fpname.length < 5 then s.fpname ++ [c] else s.fpname
          temp := s.temp + 1 }
      else s
    if s.fover = 1 ∧ s.temp = 2 then { s with temp := s.temp + 1, parmnum := s.parmnum + 1 } else s

/-- The main loop of `usmart_get_fname`, with the place where it stops. -/
def fnameLoop : Str → FnameState → Option (Sta × FnameState × Str)
  | [], _ => none
  | c :: str, s =>
    if c = 0 then some (.funcerr, s, c :: str)
    else if c = lparen ∧ s.nchar = false then
      fnameLoop str ({ s with fover := s.fover + 1 }.count c)
    else if c = rparen ∧ s.nchar = false then
      if s.fover = 0 then some (.funcerr, s, c :: str)
      else if s.fover = 1 then some (.ok, { s with fover := 0 }, c :: str)
      else fnameLoop str ({ s with fover := s.fover - 1 }.count c)
    else if c = quote then fnameLoop str ({ s with nchar := !s.nchar }.count c)
    else fnameLoop str (s.count c)

/-- The state in which the main loop starts. -/
def FnameState.start : FnameState := ⟨0, 0, 1, 0, false, [], []⟩

/-- What `usmart_get_fname` leaves. -/
structure Fname where
  sta : Sta
  fname : List UInt8
  pnum : UInt8
  rval : UInt8
  /-- The place where the scan stopped. -/
  stop : Str

/-- `usmart_get_fname` into a buffer of `MAX_FNAME_LEN` bytes; `rval` is the value of `*rval`
before. -/
def usmartGetFname (str : Str) (rval : UInt8) : Option Fname := do
  let fp ← rtypeLoop str []
  let rval := if fp = [] then rval else if usmartStrcmp fp voidText = 0 then 0 else 1
  let offset ← offsetLoop str 0 0
  let (sta, s, stop) ←
    fnameLoop (if offset = 0 then str else str.drop (offset.toNat + 1)) FnameState.start
  let pnum := if s.parmnum = 1 ∧ usmartStrcmp s.fpname voidText = 0 then 0 else s.parmnum
  if s.fname.length < maxFnameLen then some ⟨sta, s.fname, pnum, rval, stop⟩ else none

/-! ## `usmart_get_aparm` -/

/-- `*ptype`: `0`, `1` and `0XFF`. -/
inductive Ptype
  | number
  | string
  | error
  deriving DecidableEq

/-- The characters of a number. -/
def isNumChar (c : UInt8) : Bool :=
  isDecChar c || isLowerChar c || isUpperChar c || c == 0x58 || c == 0x78

/-- A lower case letter is converted. -/
def toUpper (c : UInt8) : UInt8 := if 0x61 ≤ c then c - 0x20 else c

/-- The variables of `usmart_get_aparm`; `fparm` is what was written so far. -/
structure AparmState where
  i : UInt8
  enout : Bool
  type : Ptype
  string : Bool
  fparm : List UInt8

/-- The loop of `usmart_get_aparm`. -/
def aparmLoop : Str → AparmState → Option AparmState
  | [], _ => none
  | c :: str, s =>
    let s := { s with enout := s.enout || (c == comma && !s.string) }
    if (c = rparen ∨ c = 0) ∧ s.string = false then some s
    else if s.type = .number then
      if isNumChar c then
        if s.enout then some s
        else aparmLoop str { s with i := s.i + 1, fparm := s.fparm ++ [toUpper c] }
      else if c = quote then
        if s.enout then some s
        else aparmLoop str { s with i := s.i + 1, type := .string, string := true }
      else if c ≠ space ∧ c ≠ comma then some { s with type := .error }
      else aparmLoop str { s with i := s.i + 1 }
    else
      let s := if c = quote then { s with string := false } else s
      if s.enout then some s
      else if s.string then
        if c = backslash then
          match str with
          | [] => none
          | d :: str => aparmLoop str { s with i := s.i + 1 + 1, fparm := s.fparm ++ [d] }
        else aparmLoop str { s with i := s.i + 1, fparm := s.fparm ++ [c] }
      else aparmLoop str { s with i := s.i + 1 }

/-- The state in which the loop starts. -/
def AparmState.start : AparmState := ⟨0, false, .number, false, []⟩

/-- `usmart_get_aparm` into a buffer of `size` bytes: the bytes written without the terminator,
`*ptype`, and the offset. -/
def usmartGetAparm (str : Str) (size : ℕ) : Option (List UInt8 × Ptype × UInt8) := do
  let s ← aparmLoop str AparmState.start
  if s.fparm.length < size then some (s.fparm, s.type, s.i) else none

/-! ## `usmart_dev` -/

/-- The fields of `usmart_dev` that the interpreter works on; `funs` holds the declarations. -/
structure UsmartDev where
  funs : List Str
  /-- `fnum` is a `u8`. -/
  fnum_lt : funs.length < 2 ^ 8
  pnum : UInt8
  id : UInt8
  parmtype : UInt16
  /-- The bytes of `plentbl`, of `parm` behind it, and what follows. -/
  bytes : ℕ → UInt8

/-- Where `parm` starts, behind `plentbl`. -/
def parmAt : ℕ := maxParm

/-- Store bytes from `a` on. -/
def store (m : ℕ → UInt8) (a : ℕ) (l : List UInt8) : ℕ → UInt8 :=
  fun j => if h : a ≤ j ∧ j - a < l.length then l.get ⟨j - a, h.2⟩ else m j

/-- The bytes of a `u32`. -/
def le32 (v : UInt32) : List UInt8 :=
  [v.toUInt8, (v >>> 8).toUInt8, (v >>> 16).toUInt8, (v >>> 24).toUInt8]

/-- `usmart_dev` with a table of functions, and nothing decoded yet. -/
def freshDev (funs : List Str) (h : funs.length < 2 ^ 8) : UsmartDev :=
  ⟨funs, h, 0, 0, 0, fun _ => 0⟩

namespace UsmartDev

/-- `usmart_dev.plentbl[n]`. -/
def plentbl (d : UsmartDev) (n : ℕ) : UInt8 := d.bytes n

/-- `usmart_dev.parm[p]`. -/
def parm (d : UsmartDev) (p : ℕ) : UInt8 := d.bytes (parmAt + p)

/-- Bit `n` of `usmart_dev.parmtype`. -/
def isString (d : UsmartDev) (n : ℕ) : Bool := d.parmtype.toBitVec.getLsbD n

/-- `usmart_get_parmpos`. -/
def usmartGetParmpos (d : UsmartDev) : ℕ → UInt8
  | 0 => 0
  | n + 1 => d.usmartGetParmpos n + d.plentbl n

/-- The case of a number in `usmart_get_fparam`. -/
def storeNumber (d : UsmartDev) (n : UInt8) (res : UInt32) : UsmartDev :=
  let pos := (d.usmartGetParmpos n.toNat).toNat
  let d := { d with bytes := store d.bytes (parmAt + pos) (le32 res) }
  { d with
    parmtype := d.parmtype &&& ~~~(1 <<< n.toUInt16)
    bytes := Function.update d.bytes n.toNat 4 }

/-- The case of a string; `s` is the string in `tstr`. -/
def storeString (d : UsmartDev) (n : UInt8) (s : List UInt8) : UsmartDev :=
  let len := usmartStrlen s + 1
  let pos := (d.usmartGetParmpos n.toNat).toNat
  let d := { d with bytes := store d.bytes (parmAt + pos) (s ++ [0]) }
  { d with
    parmtype := d.parmtype ||| (1 <<< n.toUInt16)
    bytes := Function.update d.bytes n.toNat len }

end UsmartDev

/-! ## `usmart_get_fparam` -/

/-- What `usmart_get_fparam` leaves; `parn` is set when `sta` is `USMART_OK`. -/
structure Fparam where
  sta : Sta
  parn : UInt8
  dev : UsmartDev
  /-- The place where the scan stopped. -/
  stop : Str

/-- The loop of `usmart_get_fparam`. It has no result when it does not end within `fuel` rounds. -/
def fparamLoop : ℕ → Str → UInt8 → UsmartDev → Option Fparam
  | 0, _, _, _ => none
  | fuel + 1, str, n, d => do
    let (tstr, type, i) ← usmartGetAparm str (parmLen + 1)
    let str := str.drop i.toNat
    let next (n : UInt8) (d : UsmartDev) : Option Fparam := do
      let c ← str.head?
      if c = rparen ∨ c = 0 then some ⟨.ok, n, d, str⟩ else fparamLoop fuel str n d
    match type with
    | .number =>
      if (tstr ++ [0]).head? ≠ some (0 : UInt8) then do
        let (e, res) ← usmartStr2num (tstr ++ [0])
        if e ≠ 0 then some ⟨.parmerr, n, d, str⟩
        else
          let d := d.storeNumber n res
          if maxParm < (n + 1).toNat then some ⟨.parmover, n + 1, d, str⟩ else next (n + 1) d
      else next n d
    | .string =>
      let d := d.storeString n (tstr.takeWhile (· ≠ 0))
      if maxParm < (n + 1).toNat then some ⟨.parmover, n + 1, d, str⟩ else next (n + 1) d
    | .error => some ⟨.parmerr, n, d, str⟩

/-- The loop that looks for the first `'('`: the place behind it, if there is one. -/
def skipToParen : Str → Option (Option Str)
  | [] => none
  | c :: str =>
    if c = lparen then some (some str)
    else match str.head? with
      | none => none
      | some d => if d = 0 then some none else skipToParen str

/-- `usmart_get_fparam`. A round consumes a character or stores an argument, and at most eleven are
stored, so that the loop ends within `str.length + 12` rounds or never. -/
def usmartGetFparam (str : Str) (d : UsmartDev) : Option Fparam := do
  let d := { d with bytes := store d.bytes 0 (List.replicate maxParm 0) }
  match ← skipToParen str with
  | none => some ⟨.funcerr, 0, d, []⟩
  | some str => fparamLoop (str.length + 12) str 0 d

/-! ## `usmart_cmd_rec` -/

/-- The loop of `usmart_cmd_rec` over the declarations: the index of the function found, or the
code that is returned. -/
def cmdRecLoop (rfname : List UInt8) (rpnum : UInt8) :
    List Str → ℕ → UInt8 → Option (Except Sta ℕ)
  | [], _, _ => some (.error .nofuncfind)
  | decl :: funs, i, rval => do
    let f ← usmartGetFname decl rval
    if f.sta ≠ .ok then some (.error f.sta)
    else if usmartStrcmp f.fname rfname = 0 then
      if rpnum < f.pnum then some (.error .parmerr) else some (.ok i)
    else cmdRecLoop rfname rpnum funs (i + 1) f.rval

/-- What `usmart_cmd_rec` leaves, with the places where the two scans of the line stopped. -/
structure CmdRec where
  sta : Sta
  dev : UsmartDev
  fnameStop : Str
  fparamStop : Str

/-- `usmart_cmd_rec`; `rval` is what the uninitialised variable holds. -/
def usmartCmdRec (str : Str) (rval : UInt8) (d : UsmartDev) : Option CmdRec := do
  let r ← usmartGetFname str rval
  if r.sta ≠ .ok then some ⟨r.sta, d, r.stop, []⟩
  else match ← cmdRecLoop r.fname r.pnum d.funs 0 r.rval with
    | .error sta => some ⟨sta, d, r.stop, []⟩
    | .ok i => do
      let f ← usmartGetFparam str { d with id := UInt8.ofNat i }
      if f.sta ≠ .ok then some ⟨f.sta, f.dev, r.stop, f.stop⟩
      else some ⟨.ok, { f.dev with pnum := f.parn }, r.stop, f.stop⟩

/-! ## `usmart_exe` -/

/-- The `u32` at `a`. -/
def load32 (m : ℕ → UInt8) (a : ℕ) : UInt32 :=
  (m a).toUInt32 ||| (m (a + 1)).toUInt32 <<< 8 ||| (m (a + 2)).toUInt32 <<< 16 |||
    (m (a + 3)).toUInt32 <<< 24

/-- The value that `usmart_exe` stores in `temp[n]`; `parmAddr` is the address of `parm`. -/
def UsmartDev.argument (d : UsmartDev) (parmAddr : UInt32) (n : ℕ) : UInt32 :=
  let pos := (d.usmartGetParmpos n).toNat
  if d.isString n then parmAddr + UInt32.ofNat pos else load32 d.bytes (parmAt + pos)

/-- `usmart_exe`: the arguments with which it calls the function, if it does. A place of `temp` that
nothing was stored in has no value. -/
def usmartExe (d : UsmartDev) (rval : UInt8) (parmAddr : UInt32) :
    Option (Option (List (Option UInt32))) :=
  match d.funs[d.id.toNat]? with
  | none => some none
  | some decl => do
    let f ← usmartGetFname decl rval
    if maxParm < f.pnum.toNat then none
    else
      let temp := (List.range maxParm).map fun i =>
        if i < f.pnum.toNat then some (d.argument parmAddr i) else none
      if d.pnum.toNat ≤ maxParm then some (some (temp.take d.pnum.toNat)) else some none

end Usmart

end Enc28j60Udp
