import Enc28j60Udp.Foundations.Endian
import Enc28j60Udp.Usmart.Agree
import Enc28j60Udp.Usmart.Call
import Enc28j60Udp.Usmart.Roundtrip

/-!
# A call is executed

The text of a call is read three times: `usmart_get_fname` takes its name and counts its arguments,
`usmart_get_fparam` decodes them, and `usmart_exe` hands them to the function, a number as it is and
a string as the address of its copy in `parm`.

Where no string holds a quote or a backslash the two scans count alike, and the call of a function
of the table with as many arguments as it has parameters is made with the values that were written
(`Command.usmartCmdRec_text`, `Holds.passed`).
-/

namespace Enc28j60Udp

namespace Usmart

open FnameState

/-! ## The scan of the arguments -/

/-- Both scans read the argument alike: a string holds neither a quote nor a backslash. -/
def Arg.Plain : Arg → Prop
  | .number _ => True
  | .string s _ => quote ∉ s ∧ backslash ∉ s

instance (a : Arg) : Decidable a.Plain := by
  cases a with
  | number n => exact inferInstanceAs (Decidable True)
  | string s hs => exact inferInstanceAs (Decidable (_ ∧ _))

section Plain

variable {a : Arg} {args : List Arg}

/-- Such a string is written as it is. -/
theorem flatMap_escape {s : List UInt8} (hs : quote ∉ s ∧ backslash ∉ s) :
    s.flatMap escape = s := by
  induction s with
  | nil => rfl
  | cons c s ih =>
    simp only [List.mem_cons, not_or] at hs
    rw [List.flatMap_cons, ih ⟨hs.1.2, hs.2.2⟩, escape,
      if_neg (not_or.mpr ⟨Ne.symm hs.1.1, Ne.symm hs.2.1⟩), List.singleton_append]

/-- Between quotes nothing is nested. -/
theorem scans_quoted {s : List UInt8} (hs : quote ∉ s) :
    Scans Nest.step ⟨0, true⟩ s ⟨0, true⟩ := by
  induction s with
  | nil => exact .nil
  | cons c s ih =>
    rw [List.mem_cons, not_or] at hs
    exact .cons (by simp [Nest.step, Ne.symm hs.1]) (ih hs.2)

theorem scans_number {ds : List UInt8} (hds : ∀ c ∈ ds, isNumChar c = true) :
    Scans Nest.step ⟨0, false⟩ ds ⟨0, false⟩ := by
  induction ds with
  | nil => exact .nil
  | cons c ds ih =>
    obtain ⟨hc, hds⟩ := List.forall_mem_cons.mp hds
    have hne : c ≠ lparen ∧ c ≠ rparen ∧ c ≠ quote := by
      refine ⟨?_, ?_, ?_⟩ <;> rintro rfl <;> exact absurd hc (by decide)
    exact .cons (by simp [Nest.step, hne]) (ih hds)

/-- The text of an argument is balanced. -/
theorem Arg.Plain.scans (h : a.Plain) : Scans Nest.step ⟨0, false⟩ a.text ⟨0, false⟩ := by
  cases a with
  | number n => exact scans_number n.isNumChar_text
  | string s hs =>
    rw [Arg.text, flatMap_escape h, List.cons_append]
    exact .cons rfl ((scans_quoted h.1).append (.cons rfl .nil))

theorem countArgs_comma {n n' : Nest} {fresh : Bool} {l m : List UInt8}
    (hl : Scans Nest.step n l n') (hn : n'.step comma = some n') :
    countArgs n fresh l + countArgs n' true m ≤ countArgs n fresh (l ++ comma :: m) := by
  induction l generalizing n fresh with
  | nil =>
    obtain rfl := scans_nil.mp hl
    rw [List.nil_append, countArgs, countArgs, hn]
    simp
  | cons c l ih =>
    obtain ⟨n₁, hc, hl⟩ := scans_cons.mp hl
    rw [List.cons_append, countArgs, countArgs, hc]
    dsimp only
    split_ifs
    · exact ih hl
    · exact ih hl
    all_goals
      rw [Nat.add_assoc]
      exact Nat.add_le_add_left (ih hl) _

/-- Every argument is counted at its first character. -/
theorem Arg.one_le_countArgs (a : Arg) : 1 ≤ countArgs ⟨0, false⟩ true a.text := by
  obtain ⟨c, l, hl, hc⟩ := a.starts_text []
  rw [List.append_nil] at hl
  have hstep : ∃ q, Nest.step ⟨0, false⟩ c = some ⟨0, q⟩ ∧
      c ≠ comma ∧ ¬(c = space ∨ c = lparen) := by
    rcases hc with hc | rfl
    · have hne : c ≠ lparen ∧ c ≠ rparen ∧ c ≠ quote ∧ c ≠ comma ∧ c ≠ space := by
        refine ⟨?_, ?_, ?_, ?_, ?_⟩ <;> rintro rfl <;> exact absurd hc (by decide)
      exact ⟨false, by simp [Nest.step, hne], hne.2.2.2.1, not_or.mpr ⟨hne.2.2.2.2, hne.1⟩⟩
    · exact ⟨true, rfl, by decide, by decide⟩
  obtain ⟨q, hq, hcomma, hskip⟩ := hstep
  rw [hl, countArgs, hq]
  simp [hcomma, hskip]

/-- The arguments are balanced, and each is counted. -/
theorem balanced_argsText {args : List Arg} (h : ∀ a ∈ args, a.Plain) :
    Balanced (argsText args) := by
  match args with
  | [] => exact .nil
  | [a] => exact (h a (by simp)).scans
  | a :: b :: args =>
    have hrest : Balanced (argsText (b :: args)) :=
      balanced_argsText fun c hc => h c (List.mem_cons_of_mem a hc)
    exact (h a (by simp)).scans.append (.cons rfl hrest)

theorem length_le_countArgs {args : List Arg} (h : ∀ a ∈ args, a.Plain) :
    args.length ≤ countArgs ⟨0, false⟩ true (argsText args) := by
  match args with
  | [] => exact Nat.zero_le _
  | [a] => exact a.one_le_countArgs
  | a :: b :: args =>
    have hrest : (b :: args).length ≤ countArgs ⟨0, false⟩ true (argsText (b :: args)) :=
      length_le_countArgs fun c hc => h c (List.mem_cons_of_mem a hc)
    have hsplit :
        countArgs ⟨0, false⟩ true a.text + countArgs ⟨0, false⟩ true (argsText (b :: args)) ≤ countArgs ⟨0, false⟩ true (a.text ++ comma :: argsText (b :: args)) :=
      countArgs_comma (h a (by simp)).scans rfl
    have hone := a.one_le_countArgs
    rw [argsText, List.length_cons]
    omega

/-- No argument is taken for `void`. -/
theorem firstWord_argsText_ne : firstWord (argsText args) ≠ voidText := by
  have hstarts (l : List UInt8) (h : Starts l) : firstWord l ≠ voidText := by
    obtain ⟨c, l, rfl, hc⟩ := h
    have hne : c ≠ comma ∧ c ≠ space ∧ c ≠ lparen ∧ c ≠ 0x76 := by
      rcases hc with hc | rfl
      · refine ⟨?_, ?_, ?_, ?_⟩ <;> rintro rfl <;> exact absurd hc (by decide)
      · decide
    rw [firstWord_char ⟨hne.1, hne.2.1, hne.2.2.1⟩]
    exact fun h => hne.2.2.2 (List.cons.inj h).1
  match args with
  | [] => exact fun h => absurd h (by decide)
  | [a] => exact hstarts _ (by simpa [argsText] using a.starts_text [])
  | a :: b :: args => exact hstarts _ (a.starts_text _)

theorem length_le_callArgs (h : ∀ a ∈ args, a.Plain) : args.length ≤ callArgs (argsText args) := by
  rw [callArgs, if_neg fun hv => firstWord_argsText_ne hv.2]
  exact length_le_countArgs h

end Plain

/-! ## `usmart_get_fname` -/

section Name

variable {name : List UInt8} {args : List Arg}

theorem zero_notMem_text (a : Arg) : 0 ∉ a.text := by
  cases a with
  | number n => exact fun h => absurd (n.isNumChar_text 0 h) (by decide)
  | string s hs =>
    simp only [Arg.text, List.cons_append, List.mem_cons, List.mem_append, List.mem_flatMap,
      List.not_mem_nil, or_false, not_or, not_exists, not_and]
    refine ⟨by decide, fun c hc h => ?_, by decide⟩
    unfold escape at h
    split_ifs at h with hesc
    · rw [List.mem_cons, List.mem_singleton] at h
      rcases h with h | rfl
      · exact absurd h (by decide)
      · exact hs hc
    · rw [List.mem_singleton] at h
      exact hs (h ▸ hc)

theorem zero_notMem_argsText (args : List Arg) : 0 ∉ argsText args := by
  match args with
  | [] => simp [argsText]
  | [a] => exact zero_notMem_text a
  | a :: b :: args =>
    simp only [argsText, List.mem_append, List.mem_cons, not_or]
    exact ⟨zero_notMem_text a, by decide, zero_notMem_argsText (b :: args)⟩

/-- The name of a call starts with the line. -/
theorem offsetLoop_callText (hname : ∀ c ∈ name, isIdentChar c = true) (hne : name ≠ [])
    (str : Str) : offsetLoop (name ++ lparen :: str) 0 0 = some 0 := by
  obtain ⟨c, name, rfl⟩ := List.exists_cons_of_ne_nil hne
  obtain ⟨-, -, hparen, -, -, h₀⟩ := isIdentChar_ne (hname c (by simp))
  have hloop : offsetLoop (c :: (name ++ List.replicate 0 space ++ lparen :: str)) 0 0 = some 0 :=
    offsetLoop_name ⟨hparen, h₀⟩ (fun d hd => hname d (by simp [hd])) 0
  rwa [List.replicate_zero, List.append_nil] at hloop

/-- **The scan of a call** finds the name, and counts the arguments. -/
theorem usmartGetFname_callText (hname : ∀ c ∈ name, isIdentChar c = true) (hne : name ≠ [])
    (hroom : name.length < maxFnameLen) (hplain : ∀ a ∈ args, a.Plain)
    (hlen : (argsText args).length < 200) (rest : Str) (rval : UInt8) :
    ∃ pnum rval', usmartGetFname (callText name args ++ 0 :: rest) rval =
        some ⟨.ok, name, pnum, rval', rparen :: 0 :: rest⟩ ∧ args.length ≤ pnum.toNat := by
  have htext : callText name args ++ 0 :: rest =
      name ++ lparen :: (argsText args ++ rparen :: 0 :: rest) := by
    simp [callText]
  have hbal := balanced_argsText hplain
  have h₀ := zero_notMem_argsText args
  have hzero : 0 ∈ name ++ lparen :: (argsText args ++ rparen :: 0 :: rest) := by simp
  obtain ⟨fp, hfp⟩ := exists_rtypeLoop hzero []
  have hchar : ∀ c ∈ name, c ≠ lparen ∧ c ≠ rparen := fun c hc =>
    have h := isIdentChar_ne (hname c hc)
    ⟨h.2.2.1, h.2.2.2.1⟩
  have hfilter : name.filter (· ≠ space) = name := List.filter_eq_self.mpr fun c hc => by
    simpa using (isIdentChar_ne (hname c hc)).1
  have hrun : fnameLoop (name ++ lparen :: (argsText args ++ rparen :: 0 :: rest))
      FnameState.start =
        some (.ok, { (argsText args).foldl FnameState.step (inside name) with fover := 0 },
          rparen :: 0 :: rest) := by
    have hnaming : fnameLoop (name ++ lparen :: (argsText args ++ rparen :: 0 :: rest))
        (naming []) = fnameLoop (argsText args ++ rparen :: 0 :: rest)
          (inside ([] ++ name.filter (· ≠ space))) :=
      fnameLoop_naming hchar (fun h => (isIdentChar_ne (hname 0 h)).2.2.2.2.2 rfl)
        fun h => (isIdentChar_ne (hname quote h)).2.2.2.2.1 rfl
    rw [List.nil_append, hfilter] at hnaming
    exact hnaming.trans (fnameLoop_scans (follows_inside name) hbal h₀ (by simp; omega))
  have hfname := fname_foldl (follows_inside name) hbal (by simp; omega)
  have hpnum := pnum_foldl hbal hlen name
  rw [htext, usmartGetFname, hfp, offsetLoop_callText hname hne]
  simp only [Option.bind_eq_bind, Option.bind_some, if_pos, hrun, hfname]
  rw [if_pos (by exact hroom)]
  exact ⟨_, _, rfl, (length_le_callArgs hplain).trans hpnum.ge⟩

end Name

/-! ## `usmart_get_fparam` -/

/-- Storing an argument changes neither the table nor the function selected. -/
theorem putAll_keeps (args : List Arg) (d : UsmartDev) (k : UInt8) :
    (putAll args d k).funs = d.funs ∧ (putAll args d k).id = d.id := by
  induction args generalizing d k with
  | nil => exact ⟨rfl, rfl⟩
  | cons a args ih =>
    obtain ⟨hfuns, hid⟩ := ih (a.put d k) (k + 1)
    rw [putAll, hfuns, hid]
    cases a <;> exact ⟨rfl, rfl⟩

/-- The arguments of a call are stored. -/
theorem usmartGetFparam_holds {name : List UInt8} (hname : ∀ c ∈ name, isIdentChar c = true)
    {args : List Arg} (hn : args.length ≤ maxParm) (hlen : ∀ a ∈ args, a.text.length ≤ parmLen)
    (hfit : storage args ≤ parmLen) (rest : Str) (d : UsmartDev) :
    ∃ f, usmartGetFparam (callText name args ++ 0 :: rest) d = some f ∧ f.sta = .ok ∧
      f.parn = UInt8.ofNat args.length ∧ Holds f.dev args ∧ f.dev.funs = d.funs ∧
      f.dev.id = d.id := by
  have hline : callText name args ++ 0 :: rest =
      name ++ lparen :: (argsText args ++ rparen :: 0 :: rest) := by
    simp [callText]
  have hparen : lparen ∉ name := fun h => (isIdentChar_ne (hname _ h)).2.2.1 rfl
  have hzero : 0 ∉ name := fun h => (isIdentChar_ne (hname _ h)).2.2.2.2.2 rfl
  let d₀ : UsmartDev := { d with bytes := store d.bytes 0 (List.replicate maxParm 0) }
  have hholds : Holds (putAll args d₀ 0) ([] ++ args) := holds_putAll (Holds.nil d₀) hn hfit
  obtain ⟨hfuns, hid⟩ := putAll_keeps args d₀ 0
  refine ⟨⟨.ok, 0 + UInt8.ofNat args.length, putAll args d₀ 0, rparen :: 0 :: rest⟩, ?_, rfl,
    UInt8.zero_add _, hholds, hfuns, hid⟩
  rw [usmartGetFparam, hline, skipToParen_name hparen hzero]
  have hfuel := length_argsText args
  exact fparamLoop_argsText hlen (by simpa using hn) (by simp; omega) _ d₀

/-! ## `usmart_cmd_rec` and `usmart_exe` -/

/-- The first function with the name is found. -/
theorem cmdRecLoop_find {rfname : List UInt8} {rpnum : UInt8} {decls : List Decl}
    {funs : List Str} (ht : Table decls funs) {n : ℕ} {decl : Decl} (hn : decls[n]? = some decl)
    (hname : decl.name = rfname) (hfirst : ∀ d ∈ decls.take n, d.name ≠ rfname)
    (henough : decl.counted ≤ rpnum.toNat) (i : ℕ) (rval : UInt8) :
    cmdRecLoop rfname rpnum funs i rval = some (.ok (i + n)) := by
  induction ht generalizing i n rval with
  | nil => cases hn
  | @cons decl' str decls funs hdecl ht ih =>
    obtain ⟨rest, rfl⟩ := hdecl
    obtain ⟨rval', hround⟩ := cmdRecLoop_text decl' rest funs rfname rpnum i rval
    rw [hround]
    cases n with
    | zero =>
      obtain rfl : decl' = decl := by simpa using hn
      have hlt := decl'.counted_lt
      have hnot : ¬rpnum < UInt8.ofNat decl'.counted := by
        rw [UInt8.lt_iff_toNat_lt, UInt8.toNat_ofNat_of_lt' (show _ < 256 by omega)]
        omega
      rw [if_pos hname, if_neg hnot]
      rfl
    | succ n =>
      rw [List.take_succ_cons] at hfirst
      obtain ⟨hne, hfirst⟩ := List.forall_mem_cons.mp hfirst
      rw [if_neg hne, ih hn hfirst, Nat.add_assoc, Nat.add_comm 1]

/-- An argument is not longer than the text of all of them. -/
theorem length_text_le_argsText {args : List Arg} {a : Arg} (ha : a ∈ args) :
    a.text.length ≤ (argsText args).length := by
  match args with
  | [b] => rw [List.mem_singleton.mp ha, argsText]
  | b :: c :: args =>
    rw [argsText, List.length_append, List.length_cons]
    rcases List.mem_cons.mp ha with rfl | ha
    · omega
    · have hrest : a.text.length ≤ (argsText (c :: args)).length := length_text_le_argsText ha
      omega

/-- A call that the interpreter can make: of the first function of the table with the name, with one
argument for each parameter, and room for all of them. -/
structure Command (decls : List Decl) where
  id : ℕ
  decl : Decl
  args : List Arg
  decl_eq : decls[id]? = some decl
  first : ∀ d ∈ decls.take id, d.name ≠ decl.name
  plain : ∀ a ∈ args, a.Plain
  length_eq : args.length = decl.counted
  length_le : args.length ≤ maxParm
  storage_le : storage args ≤ parmLen
  /-- The line fits the receive buffer. -/
  text_lt : (callText decl.name args).length < 200
  cr_notMem : 0x0D ∉ callText decl.name args

namespace Command

variable {decls : List Decl}

/-- The line. -/
def text (cmd : Command decls) : List UInt8 := callText cmd.decl.name cmd.args

theorem argsText_lt (cmd : Command decls) : (argsText cmd.args).length < 200 := by
  have hlt := cmd.text_lt
  simp only [callText, List.length_append, List.length_cons] at hlt
  omega

theorem length_text_le (cmd : Command decls) : ∀ a ∈ cmd.args, a.text.length ≤ parmLen :=
  fun _ ha => (length_text_le_argsText ha).trans (Nat.le_of_lt cmd.argsText_lt)

/-- **The line of a command is accepted**: its function is selected, and its arguments are
stored. -/
theorem usmartCmdRec_text (cmd : Command decls) {d : UsmartDev} (ht : Table decls d.funs)
    (rest : Str) (rval : UInt8) :
    ∃ r, usmartCmdRec (cmd.text ++ 0 :: rest) rval d = some r ∧ r.sta = .ok ∧
      r.dev.funs = d.funs ∧ r.dev.id.toNat = cmd.id ∧ r.dev.pnum.toNat = cmd.args.length ∧
      Holds r.dev cmd.args := by
  have hid : cmd.id < 256 := by
    have hlt := (List.getElem?_eq_some_iff.mp cmd.decl_eq).1
    have hlen := ht.length_eq
    have hfnum := d.fnum_lt
    omega
  have hmax := cmd.length_le
  unfold maxParm at hmax
  obtain ⟨pnum, rval', hfname, hle⟩ := usmartGetFname_callText cmd.decl.name_char cmd.decl.name_ne
    cmd.decl.name_length cmd.plain cmd.argsText_lt rest rval
  have hfound : cmdRecLoop cmd.decl.name pnum d.funs 0 rval' = some (.ok (0 + cmd.id)) :=
    cmdRecLoop_find ht cmd.decl_eq rfl cmd.first (cmd.length_eq.ge.trans hle) 0 rval'
  rw [Nat.zero_add] at hfound
  obtain ⟨f, hf, hok, hparn, hholds, hfuns, hfid⟩ := usmartGetFparam_holds cmd.decl.name_char
    cmd.length_le cmd.length_text_le cmd.storage_le rest { d with id := UInt8.ofNat cmd.id }
  have hrun : usmartCmdRec (cmd.text ++ 0 :: rest) rval d =
      some ⟨.ok, { f.dev with pnum := f.parn }, rparen :: 0 :: rest, f.stop⟩ := by
    rw [usmartCmdRec, text, hfname]
    simp only [Option.bind_eq_bind, Option.bind_some, ne_eq, not_true_eq_false, if_false, hfound,
      hf, hok]
  refine ⟨_, hrun, rfl, hfuns, ?_, ?_, hholds.plentbl, hholds.isString, hholds.parm⟩
  · rw [hfid]
    exact UInt8.toNat_ofNat_of_lt' (show _ < 256 by omega)
  · rw [hparn]
    exact UInt8.toNat_ofNat_of_lt' (show _ < 256 by omega)

end Command

/-! ## The values of the arguments -/

/-- A `u32` is loaded as it was stored. -/
theorem load32_le32 {m : ℕ → UInt8} {a : ℕ} {v : UInt32}
    (h : ∀ j (hj : j < (le32 v).length), m (a + j) = (le32 v)[j]) : load32 m a = v := by
  have h₀ := h 0 (by simp [le32])
  have h₁ := h 1 (by simp [le32])
  have h₂ := h 2 (by simp [le32])
  have h₃ := h 3 (by simp [le32])
  simp only [le32, List.getElem_cons_zero, List.getElem_cons_succ, Nat.add_zero] at h₀ h₁ h₂ h₃
  rw [load32, h₀, h₁, h₂, h₃, word32_bytes]

/-- The function gets the argument: a number as the value `v`, and a string as an address in `parm`
where it lies with its terminator. -/
def Arg.Passed (a : Arg) (parmAddr : UInt32) (parm : ℕ → UInt8) (v : UInt32) : Prop :=
  match a with
  | .number n => v = n.value
  | .string s _ => ∃ pos, v = parmAddr + UInt32.ofNat pos ∧ pos + s.length < parmLen ∧
      ∀ j (hj : j < (s ++ [0]).length), parm (pos + j) = (s ++ [0])[j]

/-- The value that `usmart_exe` takes for a parameter is the argument that was stored. -/
theorem Holds.passed {d : UsmartDev} {args : List Arg} (h : Holds d args)
    (hfit : storage args ≤ parmLen) (parmAddr : UInt32) {i : ℕ} (hi : i < args.length) :
    args[i].Passed parmAddr d.parm (d.argument parmAddr i) := by
  have hend := (offset_le_storage hi).trans hfit
  have hpos : (d.usmartGetParmpos i).toNat = offset args i := by
    rw [h.usmartGetParmpos (Nat.le_of_lt hi)]
    unfold parmLen at hend
    exact UInt8.toNat_ofNat_of_lt' (show _ < 256 by omega)
  have hkind := h.isString i hi
  have hbytes := h.parm i hi
  rw [UsmartDev.argument, hpos, hkind]
  generalize args[i] = a at hkind hbytes hend
  cases a with
  | number n =>
    rw [Arg.isString, if_neg Bool.false_ne_true, Arg.Passed]
    refine load32_le32 fun j hj => ?_
    rw [Nat.add_assoc]
    exact hbytes j hj
  | string s hs =>
    rw [Arg.isString, if_pos rfl]
    rw [Arg.stored, List.length_append, List.length_singleton] at hend
    exact ⟨offset args i, rfl, by omega, hbytes⟩

/-- **A command is executed**: the line is accepted, and the function is called with the arguments
that were written. -/
theorem Command.usmartExe_text {decls : List Decl} (cmd : Command decls) {d : UsmartDev}
    (ht : Table decls d.funs) (rest : Str) (rval rval' : UInt8) (parmAddr : UInt32) :
    ∃ r vs, usmartCmdRec (cmd.text ++ 0 :: rest) rval d = some r ∧ r.sta = .ok ∧
      r.dev.funs = d.funs ∧ r.dev.id.toNat = cmd.id ∧
      usmartExe r.dev rval' parmAddr = some (some (vs.map some)) ∧
      List.Forall₂ (fun a v => a.Passed parmAddr r.dev.parm v) cmd.args vs := by
  obtain ⟨r, hr, hok, hfuns, hid, hpnum, hholds⟩ := cmd.usmartCmdRec_text ht rest rval
  have hle := cmd.length_le
  have hlen := cmd.length_eq
  obtain ⟨str, hfun⟩ := ht.getElem? cmd.decl_eq
  have hexe := usmartExe_eq (hid ▸ hfuns ▸ hfun) (hlen ▸ hle) (hpnum ▸ hle) rval' parmAddr
  refine ⟨r, (List.range cmd.args.length).map (r.dev.argument parmAddr), hr, hok, hfuns, hid,
    ?_, ?_⟩
  · rw [hexe, hpnum, ← hlen, List.map_take.symm, List.take_range, Nat.min_eq_left hle]
    refine congrArg (fun l => some (some l)) ?_
    rw [List.map_map]
    exact List.map_congr_left fun i hi => if_pos (List.mem_range.mp hi)
  · refine List.forall₂_iff_get.mpr ⟨by simp, fun i hi hi' => ?_⟩
    have hpassed := hholds.passed cmd.storage_le parmAddr hi
    simpa using hpassed

end Usmart

end Enc28j60Udp
