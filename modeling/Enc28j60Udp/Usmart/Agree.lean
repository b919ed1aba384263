import Enc28j60Udp.Usmart.Decl
import Enc28j60Udp.Usmart.Fparam
import Mathlib.Data.List.Forall2

/-!
# The two scans of a command

`usmart_cmd_rec` accepts a line when `usmart_get_fname` counts at least as many arguments as the
function has parameters, and stores the arguments that `usmart_get_fparam` finds. The two count and
stop by rules of their own. The first takes a comma in a string for the end of an argument, and lets
every quote begin or end a string, also behind a backslash; the second knows escapes, but nothing of
parentheses.

A line is `ReadAlike` when this does not matter: its arguments are balanced by the rules of the
first scan, and no string has a comma or there are arguments enough. These are the lines on which
the scans agree (`agrees_iff_readAlike`), provided that the declaration is not misread.
-/

namespace Enc28j60Udp

namespace Usmart

open FnameState

/-! ## Arguments counted by `usmart_get_fname` -/

/-- The steps of the scanner of arguments that pass no comma in a string. -/
theorem ArgScan.step_cases {σ σ' : ArgScan} {c : UInt8} (h : σ.step c = some σ')
    (hcommas : σ'.commas = σ.commas) :
    (σ'.mode = .start ∧ σ'.args = σ.args ∧ (c = comma ∨ σ.mode = .start ∧ c = space)) ∨
    (σ.mode = .start ∧ σ'.mode ≠ .start ∧ σ'.args = σ.args + 1 ∧
      c ≠ comma ∧ c ≠ space ∧ c ≠ lparen) ∨
    (σ.mode ≠ .start ∧ σ'.mode ≠ .start ∧ σ'.args = σ.args ∧ c ≠ comma) := by
  have hnum := @isNumChar_ne c
  unfold ArgScan.step at h
  split at h <;> split_ifs at h <;> grind

/-- What `usmart_get_fname` has counted, when the scanner of arguments is in a state. -/
structure Within (s : FnameState) (σ : ArgScan) : Prop where
  fresh : σ.mode = .start → s.temp.toNat = 1
  begun : σ.mode ≠ .start → 2 ≤ s.temp.toNat
  le : s.parmnum.toNat ≤ σ.args
  uncounted : s.temp.toNat = 2 → s.parmnum.toNat < σ.args

theorem Within.step {s : FnameState} {σ σ' : ArgScan} {n n' : Nest} {c : UInt8}
    (h : Within s σ) (hs : σ.step c = some σ') (hcommas : σ'.commas = σ.commas)
    (hfollows : s.Follows n) (hd : n.depth + 2 < 256) (hn : n.step c = some n')
    (ht : s.temp.toNat + 1 < 256) : Within (s.step c) σ' := by
  obtain ⟨htemp, hparm⟩ := hfollows.step_counts hd hn ht
  have hle : (s.parmnum + 1).toNat ≤ s.parmnum.toNat + 1 := by
    simp
    omega
  obtain ⟨hfresh, hbegun, hnum, huncounted⟩ := h
  obtain ⟨hm, ha, rfl | ⟨hm', rfl⟩⟩ | ⟨hm, hm', ha, hc⟩ | ⟨hm, hm', ha, hc⟩ :=
    ArgScan.step_cases hs hcommas
  · have hafter : tempAfter s.temp.toNat comma = 1 := rfl
    constructor <;> grind
  · have hafter : tempAfter s.temp.toNat space = s.temp.toNat := rfl
    constructor <;> grind
  · have hafter : tempAfter s.temp.toNat c = s.temp.toNat + 1 := by simp [tempAfter, hc]
    constructor <;> grind
  · have hafter : tempAfter s.temp.toNat c = s.temp.toNat ∨
        tempAfter s.temp.toNat c = s.temp.toNat + 1 := by
      unfold tempAfter
      rw [if_neg hc]
      split_ifs
      · exact .inr rfl
      · exact .inl rfl
    constructor <;> grind

/-- Without commas in strings, `usmart_get_fname` counts at most the arguments that there are. -/
theorem parmnum_foldl_le {l : List UInt8} {s : FnameState} {σ σ' : ArgScan} {n n' : Nest}
    (h : Within s σ) (hl : Scans ArgScan.step σ l σ') (hcommas : σ'.commas = σ.commas)
    (hfollows : s.Follows n) (hn : Scans Nest.step n l n') (hd : n.depth + l.length < 255)
    (ht : s.temp.toNat + l.length < 256 ∧ 3 + l.length < 256) :
    (l.foldl FnameState.step s).parmnum.toNat ≤ σ'.args := by
  induction l generalizing s σ n with
  | nil =>
    rw [← scans_nil.mp hl]
    exact h.le
  | cons c l ih =>
    obtain ⟨σ₁, hc, hl⟩ := scans_cons.mp hl
    obtain ⟨n₁, hnc, hn⟩ := scans_cons.mp hn
    rw [List.length_cons] at hd ht
    have hdepth := Nest.depth_step_le hnc
    have hle := ArgScan.commas_le hc
    have hle' : σ₁.commas ≤ σ'.commas :=
      hl.inv (P := fun σ => σ₁.commas ≤ σ.commas)
        (fun _ _ _ hstep hs => hs.trans (ArgScan.commas_le hstep)) (Nat.le_refl _)
    have htemp := (hfollows.step_counts (by omega) hnc (by omega)).1
    have hafter : tempAfter s.temp.toNat c ≤ max 1 (s.temp.toNat + 1) := by
      unfold tempAfter
      split_ifs <;> omega
    have hroom : (s.step c).temp.toNat ≤ max 3 (s.temp.toNat + 1) := by
      rw [htemp]
      split_ifs <;> omega
    rw [List.foldl_cons]
    exact ih (h.step hc (by omega) hfollows (by omega) hnc (by omega)) hl (by omega)
      (hfollows.step (by omega) hnc) hn (by omega) (by omega)

theorem within_inside (name : List UInt8) : Within (inside name) ArgScan.start :=
  ⟨fun _ => rfl, fun h => absurd rfl h, by simp [inside], by simp [inside]⟩

/-- The arguments of a call, as `usmart_get_fname` counts them. -/
theorem parmnum_inside_le {args name : List UInt8} {σ : ArgScan} (h : ArgText args σ)
    (hcommas : σ.commas = 0) (hbal : Balanced args) (hlen : args.length < 200) :
    (args.foldl FnameState.step (inside name)).parmnum.toNat ≤ σ.args :=
  parmnum_foldl_le (within_inside name) h.1 hcommas (follows_inside name) hbal (by simp; omega)
    (by simp [inside]; omega)

/-! ## The table -/

/-- The table holds these declarations. -/
def Table (decls : List Decl) (funs : List Str) : Prop :=
  List.Forall₂ (fun decl str => ∃ rest, str = decl.text ++ 0 :: rest) decls funs

/-- A round on a declaration. -/
theorem cmdRecLoop_text (decl : Decl) (rest : List UInt8) (funs : List Str) (rfname : List UInt8)
    (rpnum : UInt8) (i : ℕ) (rval : UInt8) :
    ∃ rval', cmdRecLoop rfname rpnum ((decl.text ++ 0 :: rest) :: funs) i rval =
      if decl.name = rfname then
        if rpnum < UInt8.ofNat decl.counted then some (.error .parmerr) else some (.ok i)
      else cmdRecLoop rfname rpnum funs (i + 1) rval' := by
  obtain ⟨fp, -, hf⟩ := decl.usmartGetFname_text rest rval
  refine ⟨if fp = [] then rval else if usmartStrcmp fp voidText = 0 then 0 else 1, ?_⟩
  rw [cmdRecLoop, hf]
  simp only [Option.bind_eq_bind, Option.bind_some, ne_eq, not_true_eq_false, if_false,
    usmartStrcmp_eq_zero]

/-- The function found has the name of the line, and not more parameters than the line has
arguments, as far as `usmart_get_fname` counts both. -/
theorem cmdRecLoop_ok {rfname : List UInt8} {rpnum rval : UInt8} {decls : List Decl}
    {funs : List Str} {i k : ℕ} (ht : Table decls funs)
    (h : cmdRecLoop rfname rpnum funs i rval = some (.ok k)) :
    ∃ n decl, k = i + n ∧ decls[n]? = some decl ∧ decl.name = rfname ∧
      decl.counted ≤ rpnum.toNat := by
  induction ht generalizing i rval with
  | nil =>
    rw [cmdRecLoop] at h
    cases h
  | @cons decl str decls funs hdecl ht ih =>
    obtain ⟨rest, rfl⟩ := hdecl
    obtain ⟨rval', hround⟩ := cmdRecLoop_text decl rest funs rfname rpnum i rval
    rw [hround] at h
    split_ifs at h with hname hlt
    · cases h
    · obtain rfl : i = k := by simpa using h
      refine ⟨0, decl, rfl, rfl, hname, ?_⟩
      have hcounted := decl.counted_lt
      rw [UInt8.lt_iff_toNat_lt] at hlt
      simp at hlt
      omega
    · obtain ⟨n, decl', rfl, hn, hname', hle⟩ := ih h
      exact ⟨n + 1, decl', by omega, hn, hname', hle⟩

theorem Table.getElem? {decls : List Decl} {funs : List Str} (ht : Table decls funs) {n : ℕ}
    {decl : Decl} (hn : decls[n]? = some decl) :
    ∃ rest, funs[n]? = some (decl.text ++ 0 :: rest) := by
  induction ht generalizing n with
  | nil => cases hn
  | @cons decl' str decls funs hdecl ht ih =>
    cases n with
    | zero =>
      obtain ⟨rest, rfl⟩ := hdecl
      obtain rfl : decl' = decl := by simpa using hn
      exact ⟨rest, rfl⟩
    | succ n => exact ih hn

theorem cmdRecLoop_error {rfname : List UInt8} {rpnum rval : UInt8} {funs : List Str} {i : ℕ}
    {sta : Sta} (h : cmdRecLoop rfname rpnum funs i rval = some (.error sta)) : sta ≠ .ok := by
  induction funs generalizing i rval with
  | nil =>
    rw [cmdRecLoop] at h
    cases h
    simp
  | cons decl funs ih =>
    rw [cmdRecLoop] at h
    obtain ⟨f, -, h⟩ := Option.bind_eq_some_iff.mp h
    split_ifs at h with hsta
    · cases h
      exact hsta
    · cases h
      simp
    · cases h
    · exact ih h

/-- The parts of `usmart_cmd_rec` when it returns `USMART_OK`. -/
theorem usmartCmdRec_ok {str : Str} {rval : UInt8} {d : UsmartDev} {r : CmdRec}
    (h : usmartCmdRec str rval d = some r) (hok : r.sta = .ok) :
    ∃ rf i f, usmartGetFname str rval = some rf ∧ rf.sta = .ok ∧
      cmdRecLoop rf.fname rf.pnum d.funs 0 rf.rval = some (.ok i) ∧
      usmartGetFparam str { d with id := UInt8.ofNat i } = some f ∧ f.sta = .ok ∧
      r = ⟨.ok, { f.dev with pnum := f.parn }, rf.stop, f.stop⟩ := by
  rw [usmartCmdRec] at h
  obtain ⟨rf, hrf, h⟩ := Option.bind_eq_some_iff.mp h
  by_cases hsta : rf.sta = .ok
  · rw [if_neg (not_not.mpr hsta)] at h
    obtain ⟨x, hx, h⟩ := Option.bind_eq_some_iff.mp h
    cases x with
    | error sta =>
      obtain rfl := Option.some_inj.mp h
      exact absurd hok (cmdRecLoop_error hx)
    | ok i =>
      obtain ⟨f, hf, h⟩ := Option.bind_eq_some_iff.mp h
      split_ifs at h with hfsta
      · obtain rfl := Option.some_inj.mp h
        exact absurd hok hfsta
      · obtain rfl := Option.some_inj.mp h
        exact ⟨rf, i, f, hrf, hsta, hx, hf, not_not.mp hfsta, rfl⟩
  · rw [if_pos hsta] at h
    obtain rfl := Option.some_inj.mp h
    exact absurd hok hsta

/-- The arguments of the call that `usmart_exe` makes. -/
theorem usmartExe_eq {dev : UsmartDev} {decl : Decl} {rest : Str}
    (hfun : dev.funs[dev.id.toNat]? = some (decl.text ++ 0 :: rest))
    (hcounted : decl.counted ≤ maxParm) (hpnum : dev.pnum.toNat ≤ maxParm) (rval : UInt8)
    (parmAddr : UInt32) :
    usmartExe dev rval parmAddr = some (some (((List.range maxParm).map fun i =>
      if i < decl.counted then some (dev.argument parmAddr i) else none).take dev.pnum.toNat)) := by
  obtain ⟨fp, -, hf⟩ := decl.usmartGetFname_text rest rval
  have hlt := decl.counted_lt
  have htoNat : (UInt8.ofNat decl.counted).toNat = decl.counted :=
    UInt8.toNat_ofNat_of_lt' (show _ < 256 by omega)
  rw [usmartExe, hfun]
  simp only [hf, Option.bind_eq_bind, Option.bind_some, htoNat]
  rw [if_neg (by omega), if_pos hpnum]

/-! ## Agreement -/

/-- The call of a line fits the declaration: arguments enough are stored, `usmart_exe` passes a
value for every parameter, and both scans of the line stop at the same place. -/
structure Agrees (decl : Decl) (r : CmdRec) : Prop where
  enough : decl.pnum ≤ r.dev.pnum.toNat
  set : ∀ rval parmAddr, ∃ args, usmartExe r.dev rval parmAddr = some (some args) ∧
    ∀ j < decl.pnum, ∃ v, args[j]? = some (some v)
  stop : r.fparamStop = r.fnameStop

/-- With arguments enough for a declaration that is not misread, `usmart_exe` passes them. -/
theorem Agrees.mk' {decl : Decl} {r : CmdRec} {rest : Str}
    (hfun : r.dev.funs[r.dev.id.toNat]? = some (decl.text ++ 0 :: rest))
    (hpnum : r.dev.pnum.toNat ≤ maxParm) (hmisread : ¬decl.Misread)
    (henough : decl.pnum ≤ r.dev.pnum.toNat) (hstop : r.fparamStop = r.fnameStop) :
    Agrees decl r where
  enough := henough
  set rval parmAddr := by
    have hcounted := Decl.counted_eq hmisread
    refine ⟨_, usmartExe_eq hfun (by omega) hpnum rval parmAddr, fun j hj => ?_⟩
    refine ⟨r.dev.argument parmAddr j, ?_⟩
    rw [List.getElem?_take_of_lt (by omega), List.getElem?_map,
      List.getElem?_range (by omega)]
    simp only [Option.map_some, if_pos (hcounted.symm ▸ hj)]
  stop := hstop

/-- For the parameter of a misread declaration `usmart_exe` has no value. -/
theorem Agrees.not_misread {decl : Decl} {r : CmdRec} {rest : Str} (h : Agrees decl r)
    (hfun : r.dev.funs[r.dev.id.toNat]? = some (decl.text ++ 0 :: rest))
    (hpnum : r.dev.pnum.toNat ≤ maxParm) : ¬decl.Misread := by
  intro hmisread
  have hcounted := hmisread.counted
  have henough := h.enough
  rw [hmisread.pnum] at henough
  obtain ⟨args, hexe, hset⟩ := h.set 0 0
  rw [usmartExe_eq hfun (by omega) hpnum] at hexe
  obtain rfl := Option.some_inj.mp (Option.some_inj.mp hexe)
  obtain ⟨v, hv⟩ := hset 0 (by rw [hmisread.pnum]; exact Nat.one_pos)
  rw [List.getElem?_take_of_lt (by omega), List.getElem?_map,
    List.getElem?_range (by omega), hcounted] at hv
  simp at hv

/-- Both scans read the line alike. -/
def ReadAlike (line : List UInt8) (decl : Decl) : Prop :=
  ∃ pre args post σ, line = pre ++ lparen :: (args ++ rparen :: post) ∧ lparen ∉ pre ∧
    ArgText args σ ∧ Balanced args ∧ (σ.commas = 0 ∨ decl.pnum ≤ σ.args) ∧ ¬decl.Misread

/-- A line that `usmart_cmd_rec` accepts: the function found, the arguments as `usmart_get_fname`
reads them, and what `usmart_get_fparam` leaves. -/
structure Accepted (line rest : List UInt8) (d : UsmartDev) (r : CmdRec) (n : ℕ) (decl : Decl)
    (pre args post : List UInt8) (f : Fparam) : Prop where
  n_lt : n < 2 ^ 8
  fun_eq : ∃ str, d.funs[n]? = some (decl.text ++ 0 :: str)
  line_eq : line = pre ++ lparen :: (args ++ rparen :: post)
  paren_notMem : lparen ∉ pre
  balanced : Balanced args
  counted_le : ∃ name, decl.counted ≤ (args.foldl FnameState.step (inside name)).parmnum.toNat
  fparam : usmartGetFparam (line ++ 0 :: rest) { d with id := UInt8.ofNat n } = some f
  fparam_ok : f.sta = .ok
  result : r = ⟨.ok, { f.dev with pnum := f.parn }, rparen :: (post ++ 0 :: rest), f.stop⟩

section Accept

variable {line rest : List UInt8} {d : UsmartDev} {r : CmdRec}

theorem exists_accepted (h₀ : 0 ∉ line) (hlen : line.length < 200) {decls : List Decl}
    (ht : Table decls d.funs) {rval : UInt8}
    (hrun : usmartCmdRec (line ++ 0 :: rest) rval d = some r) (hok : r.sta = .ok) :
    ∃ n decl pre args post f, decls[n]? = some decl ∧
      Accepted line rest d r n decl pre args post f := by
  obtain ⟨rf, i, f, hrf, hrfok, hloop, hf, hfok, rfl⟩ := usmartCmdRec_ok hrun hok
  obtain ⟨n, decl, hi, hdecl, hname, hcounted⟩ := cmdRecLoop_ok ht hloop
  rw [Nat.zero_add] at hi
  subst hi
  have hquote : quote ∉ rf.fname := by
    rw [← hname]
    exact fun h => (isIdentChar_ne (decl.name_char _ h)).2.2.2.2.1 rfl
  obtain ⟨pre, args, post, name, hline, hpre, hbal, hstop, hnum⟩ :=
    usmartGetFname_call h₀ hlen hrf hrfok hquote
  have hlt : i < 2 ^ 8 := by
    have hn := (List.getElem?_eq_some_iff.mp hdecl).1
    have := ht.length_eq
    have := d.fnum_lt
    omega
  exact ⟨i, decl, pre, args, post, f, hdecl, hlt, ht.getElem? hdecl, hline, hpre, hbal,
    ⟨name, hcounted.trans hnum⟩, hf, hfok, by rw [hstop]⟩

namespace Accepted

variable {n : ℕ} {decl : Decl} {pre args post : List UInt8} {f : Fparam}

theorem line_append (h : Accepted line rest d r n decl pre args post f) :
    line ++ 0 :: rest = pre ++ lparen :: (args ++ rparen :: (post ++ 0 :: rest)) := by
  simp [h.line_eq]

theorem zero_notMem (h : Accepted line rest d r n decl pre args post f) (h₀ : 0 ∉ line) :
    0 ∉ pre := fun hz => h₀ (by simp [h.line_eq, hz])

/-- The function found is the one selected. -/
theorem selected (h : Accepted line rest d r n decl pre args post f) (h₀ : 0 ∉ line) :
    r.dev.id.toNat = n ∧ r.dev.pnum.toNat ≤ maxParm ∧
      ∃ str, r.dev.funs[r.dev.id.toNat]? = some (decl.text ++ 0 :: str) := by
  have hf := h.fparam
  rw [h.line_append] at hf
  obtain ⟨hfuns, hid, hparn⟩ :=
    usmartGetFparam_keeps h.paren_notMem (h.zero_notMem h₀) hf h.fparam_ok
  have hn := h.n_lt
  have htoNat : (UInt8.ofNat n).toNat = n := UInt8.toNat_ofNat_of_lt' (show _ < 256 by omega)
  rw [h.result]
  dsimp only
  rw [hfuns, hid, htoNat]
  exact ⟨rfl, hparn, h.fun_eq⟩

/-- What `usmart_get_fparam` reads of the line, if it does not run over its counter. -/
theorem reads (h : Accepted line rest d r n decl pre args post f) (h₀ : 0 ∉ line)
    (hshort : ∀ t l s, args ++ rparen :: (post ++ 0 :: rest) = t ++ l →
      Scans ArgScan.step .start t s → t.length < 256) :
    ∃ args' σ c l, args ++ rparen :: (post ++ 0 :: rest) = args' ++ c :: l ∧
      r.fparamStop = c :: l ∧ IsEnd c ∧ ArgText args' σ ∧ r.dev.pnum.toNat = σ.args := by
  have hf := h.fparam
  rw [h.line_append] at hf
  rw [h.result]
  exact usmartGetFparam_reads h.paren_notMem (h.zero_notMem h₀) hshort hf h.fparam_ok

/-- On a line that is read alike, the scans agree. -/
theorem agrees (h : Accepted line rest d r n decl pre args post f) (h₀ : 0 ∉ line)
    (hlen : line.length < 200) (halike : ReadAlike line decl) : Agrees decl r := by
  obtain ⟨pre', args', post', σ, hline, hpre', hargs, hbal, hcount, hmisread⟩ := halike
  obtain ⟨rfl, htext⟩ := first_unique h.paren_notMem hpre' (h.line_eq.symm.trans hline)
  obtain ⟨rfl, -⟩ := h.balanced.stop_unique Nest.step_rparen hbal Nest.step_rparen htext
  have hshortArgs : args.length < 200 := by
    rw [h.line_eq] at hlen
    simp at hlen
    omega
  obtain ⟨args', σ', c, l, htext', hstop, hc, hargs', hnum⟩ :=
    h.reads h₀ (hargs.short (.inl rfl) (by omega))
  obtain ⟨rfl, hrest, rfl⟩ := hargs.unique (.inl rfl) hargs' hc htext'
  obtain ⟨-, hpnum, str, hfun⟩ := h.selected h₀
  refine .mk' hfun hpnum hmisread ?_ ?_
  · rw [hnum]
    rcases hcount with hcommas | hle
    · obtain ⟨name, hcounted⟩ := h.counted_le
      rw [← Decl.counted_eq hmisread]
      exact hcounted.trans (parmnum_inside_le hargs hcommas hbal hshortArgs)
    · exact hle
  · rw [hstop, h.result, hrest]

/-- In a buffer of 200 bytes, a line on which the scans agree is read alike. -/
theorem readAlike (h : Accepted line rest d r n decl pre args post f) (h₀ : 0 ∉ line)
    (hlen : line.length + rest.length < 200) (hagrees : Agrees decl r) : ReadAlike line decl := by
  have hshort (t l : List UInt8) (s : ArgScan) (he : args ++ rparen :: (post ++ 0 :: rest) = t ++ l)
      (_ : Scans ArgScan.step .start t s) : t.length < 256 := by
    have hlength := congrArg List.length he
    rw [h.line_eq] at hlen
    simp only [List.length_append, List.length_cons] at hlength hlen
    omega
  obtain ⟨args', σ, c, l, htext, hstop, hc, hargs, hnum⟩ := h.reads h₀ hshort
  obtain ⟨-, hpnum, str, hfun⟩ := h.selected h₀
  have hstop' : rparen :: (post ++ 0 :: rest) = c :: l := by
    rw [← hstop, hagrees.stop, h.result]
  rw [← hstop'] at htext
  obtain rfl := List.append_cancel_right htext
  exact ⟨pre, args, post, σ, h.line_eq, h.paren_notMem, hargs, h.balanced,
    .inr (hnum ▸ hagrees.enough), hagrees.not_misread hfun hpnum⟩

end Accepted

end Accept

/-- **Agreement of the two scans.** When `usmart_cmd_rec` accepts a line, the scans agree if they
read the line alike, and only then if the line lies in a buffer of 200 bytes, in front of what was
received before. -/
theorem agrees_iff_readAlike {line rest : List UInt8} (h₀ : 0 ∉ line) (hlen : line.length < 200)
    {decls : List Decl} {d : UsmartDev} (ht : Table decls d.funs) {rval : UInt8} {r : CmdRec}
    (hrun : usmartCmdRec (line ++ 0 :: rest) rval d = some r) (hok : r.sta = .ok) :
    ∃ decl, decls[r.dev.id.toNat]? = some decl ∧ (ReadAlike line decl → Agrees decl r) ∧
      (line.length + rest.length < 200 → Agrees decl r → ReadAlike line decl) := by
  obtain ⟨n, decl, pre, args, post, f, hdecl, h⟩ := exists_accepted h₀ hlen ht hrun hok
  obtain ⟨rfl, -, -⟩ := h.selected h₀
  exact ⟨decl, hdecl, h.agrees h₀ hlen, h.readAlike h₀⟩

/-! ## `write_addr` -/

/-- `void write_addr(u32 addr,u32 val)`. -/
def writeAddr : Decl where
  rtype := voidText ++ [space]
  name := [0x77, 0x72, 0x69, 0x74, 0x65, 0x5F, 0x61, 0x64, 0x64, 0x72]
  gap := 0
  params := [⟨[0x75, 0x33, 0x32, 0x20, 0x61, 0x64, 0x64, 0x72], by decide⟩,
    ⟨[0x75, 0x33, 0x32, 0x20, 0x76, 0x61, 0x6C], by decide⟩]
  rtype_char := by simp [voidText, lparen, space]
  rtype_length := by simp [voidText]
  rtype_last := by simp [voidText]
  name_char := by simp [isIdentChar, isDecChar]
  name_ne := by simp
  name_length := by simp [maxFnameLen]
  length_lt := by simp [declText, joinParams, voidText]

/-- `usmart_dev` with this function. -/
def writeDev : UsmartDev := freshDev [writeAddr.text ++ [0]] (by simp)

/-- A call of `write_addr`. -/
def writeLine (args : List UInt8) : List UInt8 := writeAddr.name ++ lparen :: (args ++ [rparen])

theorem table_writeDev : Table [writeAddr] writeDev.funs := .cons ⟨[], rfl⟩ .nil

/-- The line `write_addr(0X10,12)`. -/
theorem agrees_writeLine : ∃ r,
    usmartCmdRec (writeLine [0x30, 0x58, 0x31, 0x30, 0x2C, 0x31, 0x32] ++ [0]) 0 writeDev = some r ∧
      r.sta = .ok ∧ Agrees writeAddr r := by
  have hrun : (usmartCmdRec (writeLine [0x30, 0x58, 0x31, 0x30, 0x2C, 0x31, 0x32] ++ [0]) 0
      writeDev).map (fun r => (r.sta, r.dev.id)) = some (.ok, 0) := by decide +kernel
  obtain ⟨r, hr, hmap⟩ := Option.map_eq_some_iff.mp hrun
  obtain ⟨hok, hid⟩ := Prod.mk.inj hmap
  obtain ⟨decl, hdecl, hagrees, -⟩ :=
    agrees_iff_readAlike (by decide) (by decide) table_writeDev hr hok
  rw [hid] at hdecl
  obtain rfl : writeAddr = decl := by simpa using hdecl
  refine ⟨r, hr, hok, hagrees ⟨writeAddr.name, [0x30, 0x58, 0x31, 0x30, 0x2C, 0x31, 0x32], [],
    ⟨.number, 2, 0⟩, rfl, by decide, by decide, by decide, .inl rfl, ?_⟩⟩
  rintro ⟨p, hp, -⟩
  cases hp

/-- On the line `write_addr("a,b")` one argument is stored for two parameters. -/
theorem not_agrees_comma : ¬∀ r,
    usmartCmdRec (writeLine [0x22, 0x61, 0x2C, 0x62, 0x22] ++ [0]) 0 writeDev = some r →
      r.sta = .ok → Agrees writeAddr r := by
  intro h
  have hrun : (usmartCmdRec (writeLine [0x22, 0x61, 0x2C, 0x62, 0x22] ++ [0]) 0 writeDev).map
      (fun r => (r.sta, r.dev.pnum)) = some (.ok, 1) := by decide +kernel
  obtain ⟨r, hr, hmap⟩ := Option.map_eq_some_iff.mp hrun
  obtain ⟨hok, hpnum⟩ := Prod.mk.inj hmap
  have henough := (h r hr hok).enough
  rw [hpnum] at henough
  exact absurd henough (by decide)

end Usmart

end Enc28j60Udp
