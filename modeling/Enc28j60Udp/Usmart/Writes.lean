import Enc28j60Udp.Usmart.Fname
import Enc28j60Udp.Usmart.Lex

/-!
# Where `usmart_get_fparam` writes

`fparamTraced` is the loop of `usmart_get_fparam` with a record of its writes, each with the array
that the source names and the index. The arguments go one behind the other into `parm`; nothing
compares their total with `PARM_LEN`, and the test against `MAX_PARM` stands behind the store of
the argument, so that an eleventh is stored. A string that is not closed is read over the
terminator.

These are the only ways to leave the arrays and the line (`usmartGetFparam_safe_iff`).
-/

namespace Enc28j60Udp

namespace Usmart

/-! ## The traced loop -/

/-- A byte that is written: the array and the index. -/
inductive Write
  | tstr (i : ℕ)
  | parm (i : ℕ)
  | plentbl (i : ℕ)
  deriving DecidableEq

/-- The byte lies in `tstr[PARM_LEN+1]`, `parm[PARM_LEN]` or `plentbl[MAX_PARM]`. -/
def Write.InBounds : Write → Prop
  | tstr i => i < parmLen + 1
  | parm i => i < parmLen
  | plentbl i => i < maxParm

/-- `usmart_get_aparm` writes what it collects to `tstr`, and a terminator. -/
def tstrWrites (tstr : List UInt8) : List Write := (List.range (tstr.length + 1)).map .tstr

/-- The argument `n`, of `len` bytes, is written to `parm`, and its length to `plentbl`. -/
def UsmartDev.argWrites (d : UsmartDev) (n : UInt8) (len : ℕ) : List Write :=
  (List.range len).map (fun j => .parm ((d.usmartGetParmpos n.toNat).toNat + j)) ++
    [.plentbl n.toNat]

/-- The loop of `usmart_get_fparam`, with its writes. -/
def fparamTraced : ℕ → Str → UInt8 → UsmartDev → Option (Fparam × List Write)
  | 0, _, _, _ => none
  | fuel + 1, str, n, d => do
    let (tstr, type, i) ← usmartGetAparm str (parmLen + 1)
    let str := str.drop i.toNat
    let next (n : UInt8) (d : UsmartDev) (ws : List Write) : Option (Fparam × List Write) := do
      let c ← str.head?
      if c = rparen ∨ c = 0 then some (⟨.ok, n, d, str⟩, ws)
      else (fparamTraced fuel str n d).map fun r => (r.1, ws ++ r.2)
    match type with
    | .number =>
      if (tstr ++ [0]).head? ≠ some (0 : UInt8) then do
        let (e, res) ← usmartStr2num (tstr ++ [0])
        if e ≠ 0 then some (⟨.parmerr, n, d, str⟩, tstrWrites tstr)
        else
          let ws := tstrWrites tstr ++ d.argWrites n 4
          let d := d.storeNumber n res
          if maxParm < (n + 1).toNat then some (⟨.parmover, n + 1, d, str⟩, ws)
          else next (n + 1) d ws
      else next n d (tstrWrites tstr)
    | .string =>
      let s := tstr.takeWhile (· ≠ 0)
      let ws := tstrWrites tstr ++ d.argWrites n (s.length + 1)
      let d := d.storeString n s
      if maxParm < (n + 1).toNat then some (⟨.parmover, n + 1, d, str⟩, ws) else next (n + 1) d ws
    | .error => some (⟨.parmerr, n, d, str⟩, tstrWrites tstr)

/-- `usmart_get_fparam`, with its writes. -/
def usmartGetFparamTraced (str : Str) (d : UsmartDev) : Option (Fparam × List Write) := do
  let d := { d with bytes := store d.bytes 0 (List.replicate maxParm 0) }
  let ws := (List.range maxParm).map Write.plentbl
  match ← skipToParen str with
  | none => some (⟨.funcerr, 0, d, []⟩, ws)
  | some str => (fparamTraced (str.length + 12) str 0 d).map fun r => (r.1, ws ++ r.2)

/-- The end of a round of the traced loop. -/
def tracedNext (fuel : ℕ) (str : Str) (n : UInt8) (d : UsmartDev) (ws : List Write) :
    Option (Fparam × List Write) :=
  str.head?.bind fun c =>
    if IsEnd c then some (⟨.ok, n, d, str⟩, ws)
    else (fparamTraced fuel str n d).map fun r => (r.1, ws ++ r.2)

/-- The record changes nothing. -/
theorem fparamTraced_fst (fuel : ℕ) (str : Str) (n : UInt8) (d : UsmartDev) :
    (fparamTraced fuel str n d).map Prod.fst = fparamLoop fuel str n d := by
  induction fuel generalizing str n d with
  | zero => rfl
  | succ fuel ih =>
    have hnext (str : Str) (n : UInt8) (d : UsmartDev) (ws : List Write) :
        (tracedNext fuel str n d ws).map Prod.fst = fparamNext fuel str n d := by
      rw [tracedNext, fparamNext, Option.map_bind]
      congr 1
      funext c
      rw [Function.comp_apply]
      split_ifs
      · rfl
      · rw [Option.map_map, ← ih]
        rfl
    rw [fparamTraced, fparamLoop]
    cases hread : usmartGetAparm str (parmLen + 1) with
    | none => rfl
    | some r =>
      obtain ⟨tstr, type, i⟩ := r
      simp only [Option.bind_eq_bind, Option.bind_some]
      cases type with
      | number =>
        dsimp only
        by_cases hhead : (tstr ++ [0]).head? ≠ some (0 : UInt8)
        · rw [if_pos hhead, if_pos hhead]
          cases hnum : usmartStr2num (tstr ++ [0]) with
          | none => rfl
          | some q =>
            obtain ⟨e, res⟩ := q
            simp only [Option.bind_some]
            split_ifs
            · rfl
            · rfl
            · exact hnext _ _ _ _
        · rw [if_neg hhead, if_neg hhead]
          exact hnext _ _ _ _
      | string =>
        dsimp only
        split_ifs
        · rfl
        · exact hnext _ _ _ _
      | error => rfl

/-! ## A round -/

section Round

variable {t : List UInt8} {x : Lexed} {n : UInt8} {d : UsmartDev}

theorem tracedNext_end {l : List UInt8} (hend : AtEnd l) (fuel : ℕ) (n : UInt8) (d : UsmartDev)
    (ws : List Write) :
    tracedNext fuel (l ++ [0]) n d ws = some (⟨.ok, n, d, l ++ [0]⟩, ws) := by
  rcases hend with rfl | hhead
  · rfl
  · obtain ⟨l, rfl⟩ := List.head?_eq_some_iff.mp hhead
    rfl

theorem tracedNext_loop {l : List UInt8} (h₀ : 0 ∉ l) (hend : ¬AtEnd l) (fuel : ℕ) (n : UInt8)
    (d : UsmartDev) (ws : List Write) :
    tracedNext fuel (l ++ [0]) n d ws =
      (fparamTraced fuel (l ++ [0]) n d).map fun r => (r.1, ws ++ r.2) := by
  match l with
  | [] => exact absurd (.inl rfl) hend
  | c :: l =>
    have hc : ¬IsEnd c := by
      rintro (rfl | rfl)
      · exact hend (.inr rfl)
      · exact h₀ List.mem_cons_self
    exact if_neg hc

theorem traced_none (h₀ : 0 ∉ t) (h : lexArg t = none) (fuel : ℕ) (n : UInt8) (d : UsmartDev) :
    fparamTraced (fuel + 1) (t ++ [0]) n d = none := by
  rw [fparamTraced, usmartGetAparm_none h₀ h]
  rfl

/-- Neither argument is written beyond `tstr`. -/
theorem exists_usmartGetAparm (h₀ : 0 ∉ t) (hlen : t.length ≤ parmLen) (h : lexArg t = some x) :
    ∃ i : UInt8, usmartGetAparm (t ++ [0]) (parmLen + 1) = some (x.text, x.type, i) ∧
      (t ++ [0]).drop i.toNat = x.rest ++ [0] ∧ 0 ∉ x.text ∧ x.text.length ≤ parmLen := by
  have hshort : t.length < 256 := Nat.lt_of_le_of_lt hlen (by decide)
  obtain ⟨i, hread, hdrop⟩ := usmartGetAparm_some h₀ hshort h (parmLen + 1)
  obtain ⟨htext, hzero⟩ := lexArg_text h₀ h
  rw [if_pos (by omega)] at hread
  exact ⟨i, hread, hdrop, hzero, by omega⟩

theorem head_ne_zero {l : List UInt8} (h₀ : 0 ∉ l) :
    (l ++ [0]).head? ≠ some (0 : UInt8) ↔ l ≠ [] := by
  cases l with
  | nil => simp
  | cons c l =>
    rw [List.mem_cons, not_or] at h₀
    simpa using Ne.symm h₀.1

theorem traced_skip (h₀ : 0 ∉ t) (hlen : t.length ≤ parmLen) (h : lexArg t = some x)
    (he : x.effect = .skip) (fuel : ℕ) (n : UInt8) (d : UsmartDev) :
    fparamTraced (fuel + 1) (t ++ [0]) n d =
      tracedNext fuel (x.rest ++ [0]) n d (tstrWrites x.text) := by
  obtain ⟨i, hread, hdrop, hzero, -⟩ := exists_usmartGetAparm h₀ hlen h
  unfold Lexed.effect at he
  split at he
  · cases he
  · cases he
  · rename_i htype
    split_ifs at he with hnil
    rw [fparamTraced, hread, htype]
    simp only [Option.bind_eq_bind, Option.bind_some, hdrop]
    rw [if_neg fun hne => (head_ne_zero hzero).mp hne hnil]
    rfl

theorem traced_fail (h₀ : 0 ∉ t) (hlen : t.length ≤ parmLen) (h : lexArg t = some x)
    (he : x.effect = .fail) (fuel : ℕ) (n : UInt8) (d : UsmartDev) :
    fparamTraced (fuel + 1) (t ++ [0]) n d =
      some (⟨.parmerr, n, d, x.rest ++ [0]⟩, tstrWrites x.text) := by
  obtain ⟨i, hread, hdrop, hzero, htext⟩ := exists_usmartGetAparm h₀ hlen h
  rw [fparamTraced, hread]
  simp only [Option.bind_eq_bind, Option.bind_some, hdrop]
  unfold Lexed.effect at he
  split at he
  · rename_i htype
    rw [htype]
  · cases he
  · rename_i htype
    split_ifs at he with hnil hnum
    obtain ⟨hnum', -⟩ | ⟨-, e, hne, hrun⟩ := decides x.text [] hzero htext
    · exact absurd hnum' hnum
    · rw [htype]
      dsimp only
      rw [if_pos ((head_ne_zero hzero).mpr hnil), hrun]
      simp only [Option.bind_some]
      rw [if_pos hne]

/-- A store leaves the lengths in front of it, and adds its own. -/
theorem usmartGetParmpos_put {d' : UsmartDev} {a len : ℕ} {l : List UInt8} (hn : n.toNat < maxParm)
    (hb : d'.bytes = Function.update (store d.bytes (parmAt + a) l) n.toNat (UInt8.ofNat len)) :
    d'.usmartGetParmpos (n.toNat + 1) = d.usmartGetParmpos n.toNat + UInt8.ofNat len := by
  have hfront : ∀ k ≤ n.toNat, d'.usmartGetParmpos k = d.usmartGetParmpos k := by
    intro k hk
    induction k with
    | zero => rfl
    | succ k ih =>
      have hbyte : d'.bytes k = d.bytes k := by
        rw [hb, Function.update_of_ne (by omega), store_of_not_mem (by unfold parmAt; omega)]
      rw [UsmartDev.usmartGetParmpos, UsmartDev.usmartGetParmpos, ih (by omega),
        UsmartDev.plentbl, UsmartDev.plentbl, hbyte]
  have hlast : d'.plentbl n.toNat = UInt8.ofNat len := by
    rw [UsmartDev.plentbl, hb, Function.update_self]
  rw [UsmartDev.usmartGetParmpos, hfront _ (Nat.le_refl _), hlast]

/-- The rest of the line, behind an argument that was stored. -/
def afterStore (fuel : ℕ) (x : Lexed) (n : UInt8) (d : UsmartDev) (ws : List Write) :
    Option (Fparam × List Write) :=
  if maxParm < (n + 1).toNat then some (⟨.parmover, n + 1, d, x.rest ++ [0]⟩, ws)
  else tracedNext fuel (x.rest ++ [0]) (n + 1) d ws

theorem traced_store (h₀ : 0 ∉ t) (hlen : t.length ≤ parmLen) (h : lexArg t = some x) {len : ℕ}
    (he : x.effect = .store len) (fuel : ℕ) (n : UInt8) (d : UsmartDev) :
    ∃ d', fparamTraced (fuel + 1) (t ++ [0]) n d =
        afterStore fuel x n d' (tstrWrites x.text ++ d.argWrites n len) ∧
      (n.toNat < maxParm → d'.usmartGetParmpos (n.toNat + 1) =
        d.usmartGetParmpos n.toNat + UInt8.ofNat len) := by
  obtain ⟨i, hread, hdrop, hzero, htext⟩ := exists_usmartGetAparm h₀ hlen h
  rw [fparamTraced, hread]
  simp only [Option.bind_eq_bind, Option.bind_some, hdrop]
  unfold Lexed.effect at he
  split at he
  · cases he
  · rename_i htype
    obtain rfl := Effect.store.inj he
    have htake : x.text.takeWhile (· ≠ 0) = x.text := by
      rw [List.takeWhile_eq_self_iff]
      intro c hc
      rw [decide_eq_true_eq]
      rintro rfl
      exact hzero hc
    rw [htype]
    dsimp only
    rw [htake]
    refine ⟨d.storeString n x.text, rfl, fun hn => ?_⟩
    refine usmartGetParmpos_put (a := (d.usmartGetParmpos n.toNat).toNat) (l := x.text ++ [0]) hn ?_
    rw [UsmartDev.storeString, usmartStrlen_eq, UInt8.ofNat_add]
    rfl
  · rename_i htype
    split_ifs at he with hnil hnum
    obtain rfl := Effect.store.inj he
    obtain ⟨-, hrun⟩ | ⟨hnum', -⟩ := decides x.text [] hzero htext
    · rw [htype]
      dsimp only
      rw [if_pos ((head_ne_zero hzero).mpr hnil), hrun]
      simp only [Option.bind_some]
      rw [if_neg (by decide)]
      exact ⟨d.storeNumber n _, rfl, fun hn => usmartGetParmpos_put hn rfl⟩
    · exact absurd hnum hnum'

end Round

/-! ## The whole loop -/

section Loop

variable {t : List UInt8} {x : Lexed} {n : UInt8} {d : UsmartDev}

theorem zero_notMem_rest (h₀ : 0 ∉ t) (h : lexArg t = some x) : 0 ∉ x.rest := by
  obtain ⟨s, -, hreads⟩ := Reads.of_rel (h ▸ aparmLoop_lexArg h₀)
  exact fun hmem => h₀ (hreads.rest_suffix.subset hmem)

/-- A round in front of another one takes something off the text. -/
theorem rest_lt (h₀ : 0 ∉ t) (h : lexArg t = some x) (he : x.effect ≠ .fail)
    (hend : ¬AtEnd x.rest) : x.rest.length < t.length := by
  refine lexArg_rest_lt h₀ h (fun htype => he (Lexed.effect_error htype)) fun ht => hend ?_
  rcases ht with rfl | hhead
  · obtain rfl := Option.some_inj.mp h
    exact .inl rfl
  · obtain ⟨l, rfl⟩ := List.head?_eq_some_iff.mp hhead
    obtain rfl := Option.some_inj.mp h
    exact .inr rfl

/-- **Reading over the terminator.** The loop does so just when a string is not closed, and at most
ten arguments are stored in front of it. -/
theorem fparamTraced_eq_none {fuel fuel' : ℕ} (h₀ : 0 ∉ t) (hlen : t.length ≤ parmLen)
    (hfuel : t.length < fuel) (hfuel' : t.length < fuel') (hn : n.toNat ≤ maxParm) :
    fparamTraced fuel' (t ++ [0]) n d = none ↔
      (lexArgs fuel t).2 = .opened ∧ n.toNat + (lexArgs fuel t).1.length ≤ maxParm := by
  induction fuel' generalizing fuel t n d with
  | zero => exact absurd hfuel' (Nat.not_lt_zero _)
  | succ fuel' ih =>
    obtain ⟨fuel, rfl⟩ := Nat.exists_eq_succ_of_ne_zero (Nat.ne_zero_of_lt hfuel)
    cases h : lexArg t with
    | none =>
      rw [traced_none h₀ h, Nat.succ_eq_add_one, lexArgs_none h]
      simpa using hn
    | some x =>
      have hrest := zero_notMem_rest h₀ h
      -- the rounds behind this one
      have hnext (he : x.effect ≠ .fail) (n : UInt8) (hn : n.toNat ≤ maxParm) (d : UsmartDev)
          (ws : List Write) : tracedNext fuel' (x.rest ++ [0]) n d ws = none ↔
          (lexMore fuel x.rest).2 = .opened ∧
            n.toNat + (lexMore fuel x.rest).1.length ≤ maxParm := by
        rw [lexMore]
        by_cases hend : AtEnd x.rest
        · rw [tracedNext_end hend, if_pos hend]
          simp
        · have hlt := rest_lt h₀ h he hend
          rw [tracedNext_loop hrest hend, if_neg hend, Option.map_eq_none_iff]
          exact ih hrest (by omega) (by omega) (by omega) hn
      cases he : x.effect with
      | fail =>
        rw [traced_fail h₀ hlen h he, Nat.succ_eq_add_one, lexArgs_fail h he]
        simp
      | skip =>
        rw [traced_skip h₀ hlen h he, Nat.succ_eq_add_one, lexArgs_skip h he]
        exact hnext (by simp [he]) n hn d _
      | store len =>
        obtain ⟨d', hrun, -⟩ := traced_store h₀ hlen h he fuel' n d
        have hsucc := toNat_parm_succ hn
        rw [hrun, afterStore, Nat.succ_eq_add_one, lexArgs_store h he]
        by_cases hover : maxParm < (n + 1).toNat
        · rw [if_pos hover]
          simp only [reduceCtorEq, false_iff, not_and, List.length_cons]
          omega
        · rw [if_neg hover, hnext (by simp [he]) (n + 1) (by omega) d', hsucc, List.length_cons,
            Nat.add_right_comm, Nat.add_assoc]

/-- The loop ends, and every byte is written where it belongs. -/
def Bounded (r : Option (Fparam × List Write)) : Prop :=
  ∃ f ws, r = some (f, ws) ∧ ∀ w ∈ ws, w.InBounds

theorem bounded_some {f : Fparam} {ws : List Write} :
    Bounded (some (f, ws)) ↔ ∀ w ∈ ws, w.InBounds := by
  constructor
  · rintro ⟨f', ws', h, hws⟩
    obtain ⟨-, rfl⟩ := Prod.mk.inj (Option.some_inj.mp h)
    exact hws
  · exact fun hws => ⟨f, ws, rfl, hws⟩

theorem bounded_map {r : Option (Fparam × List Write)} {ws : List Write} :
    Bounded (r.map fun q => (q.1, ws ++ q.2)) ↔ (∀ w ∈ ws, w.InBounds) ∧ Bounded r := by
  cases r with
  | none => simp [Bounded]
  | some q =>
    rw [Option.map_some, bounded_some, bounded_some]
    simp only [List.mem_append, or_imp, forall_and]

/-- What was written before the rest of the line stays written. -/
theorem writes_of_afterStore {fuel : ℕ} {ws : List Write} (h : Bounded (afterStore fuel x n d ws)) :
    ∀ w ∈ ws, w.InBounds := by
  unfold afterStore tracedNext at h
  split at h
  · exact bounded_some.mp h
  · cases hhead : (x.rest ++ [0]).head? with
    | none => simp at hhead
    | some c =>
      rw [hhead, Option.bind_some] at h
      split at h
      · exact bounded_some.mp h
      · exact (bounded_map.mp h).1

theorem tstrWrites_inBounds {l : List UInt8} (hl : l.length ≤ parmLen) :
    ∀ w ∈ tstrWrites l, w.InBounds := by
  intro w hw
  obtain ⟨i, hi, rfl⟩ := List.mem_map.mp hw
  have hlt := List.mem_range.mp hi
  exact Nat.lt_of_lt_of_le hlt (Nat.succ_le_succ hl)

/-- An argument stays inside both arrays just when it is not the eleventh and ends in `parm`. -/
theorem argWrites_inBounds {used len : ℕ} (hpos : (d.usmartGetParmpos n.toNat).toNat = used)
    (hlen : 0 < len) :
    (∀ w ∈ d.argWrites n len, w.InBounds) ↔ n.toNat < maxParm ∧ used + len ≤ parmLen := by
  rw [UsmartDev.argWrites, hpos]
  simp only [List.mem_append, List.mem_map, List.mem_range, List.mem_singleton]
  constructor
  · intro h
    have hlast : used + (len - 1) < parmLen :=
      h (.parm (used + (len - 1))) (.inl ⟨len - 1, by omega, rfl⟩)
    exact ⟨h (.plentbl n.toNat) (.inr rfl), by omega⟩
  · rintro ⟨hn, hfit⟩ w (⟨j, hj, rfl⟩ | rfl)
    · exact Nat.lt_of_lt_of_le (Nat.add_lt_add_left hj used) hfit
    · exact hn

theorem Lexed.effect_pos {len : ℕ} (he : x.effect = .store len) : 0 < len := by
  unfold Lexed.effect at he
  split at he
  · cases he
  · obtain rfl := Effect.store.inj he
    exact Nat.succ_pos _
  · split_ifs at he
    obtain rfl := Effect.store.inj he
    decide

/-- **Writing inside the arrays.** With `used` bytes of `parm` in use, the loop ends and stays
inside the arrays just when no string is left open, there are at most ten arguments, and there is
room for all of them. -/
theorem fparamTraced_bounded {fuel fuel' used : ℕ} (h₀ : 0 ∉ t) (hlen : t.length ≤ parmLen)
    (hfuel : t.length < fuel) (hfuel' : t.length < fuel') (hn : n.toNat ≤ maxParm)
    (hpos : d.usmartGetParmpos n.toNat = UInt8.ofNat used) (hused : used ≤ parmLen) :
    Bounded (fparamTraced fuel' (t ++ [0]) n d) ↔ (lexArgs fuel t).2 ≠ .opened ∧
      n.toNat + (lexArgs fuel t).1.length ≤ maxParm ∧ used + (lexArgs fuel t).1.sum ≤ parmLen := by
  induction fuel' generalizing fuel t n d used with
  | zero => exact absurd hfuel' (Nat.not_lt_zero _)
  | succ fuel' ih =>
    obtain ⟨fuel, rfl⟩ := Nat.exists_eq_succ_of_ne_zero (Nat.ne_zero_of_lt hfuel)
    cases h : lexArg t with
    | none =>
      rw [traced_none h₀ h, Nat.succ_eq_add_one, lexArgs_none h]
      simp [Bounded]
    | some x =>
      have hrest := zero_notMem_rest h₀ h
      obtain ⟨-, -, -, -, htext⟩ := exists_usmartGetAparm h₀ hlen h
      have htstr := tstrWrites_inBounds htext
      -- the rounds behind this one
      have hnext (he : x.effect ≠ .fail) (n : UInt8) (hn : n.toNat ≤ maxParm) (d : UsmartDev)
          (used : ℕ) (hpos : d.usmartGetParmpos n.toNat = UInt8.ofNat used)
          (hused : used ≤ parmLen) (ws : List Write) (hws : ∀ w ∈ ws, w.InBounds) :
          Bounded (tracedNext fuel' (x.rest ++ [0]) n d ws) ↔
          (lexMore fuel x.rest).2 ≠ .opened ∧
            n.toNat + (lexMore fuel x.rest).1.length ≤ maxParm ∧
            used + (lexMore fuel x.rest).1.sum ≤ parmLen := by
        rw [lexMore]
        by_cases hend : AtEnd x.rest
        · rw [tracedNext_end hend, if_pos hend, bounded_some]
          simpa using ⟨fun _ => ⟨hn, hused⟩, fun _ => hws⟩
        · have hlt := rest_lt h₀ h he hend
          rw [tracedNext_loop hrest hend, if_neg hend, bounded_map]
          exact (and_iff_right hws).trans
            (ih hrest (by omega) (by omega) (by omega) hn hpos hused)
      cases he : x.effect with
      | fail =>
        rw [traced_fail h₀ hlen h he, Nat.succ_eq_add_one, lexArgs_fail h he, bounded_some]
        simpa using ⟨fun _ => ⟨hn, hused⟩, fun _ => htstr⟩
      | skip =>
        rw [traced_skip h₀ hlen h he, Nat.succ_eq_add_one, lexArgs_skip h he]
        exact hnext (by simp [he]) n hn d used hpos hused _ htstr
      | store len =>
        obtain ⟨d', hrun, hpos'⟩ := traced_store h₀ hlen h he fuel' n d
        have hsucc := toNat_parm_succ hn
        have hnat : (d.usmartGetParmpos n.toNat).toNat = used := by
          rw [hpos]
          exact UInt8.toNat_ofNat_of_lt' (show _ < 256 by unfold parmLen at hused; omega)
        have harg := argWrites_inBounds hnat (Lexed.effect_pos he)
        have hall : (∀ w ∈ tstrWrites x.text ++ d.argWrites n len, w.InBounds) ↔
            n.toNat < maxParm ∧ used + len ≤ parmLen := by
          rw [← harg]
          simp only [List.mem_append, or_imp, forall_and]
          exact and_iff_right htstr
        rw [hrun, Nat.succ_eq_add_one, lexArgs_store h he, List.length_cons, List.sum_cons]
        by_cases hfit : n.toNat < maxParm ∧ used + len ≤ parmLen
        · have hpos'' : d'.usmartGetParmpos (n + 1).toNat = UInt8.ofNat (used + len) := by
            rw [hsucc, hpos' hfit.1, hpos, UInt8.ofNat_add]
          rw [afterStore, if_neg (by omega),
            hnext (by simp [he]) (n + 1) (by omega) d' (used + len) hpos'' hfit.2 _ (hall.mpr hfit),
            hsucc, Nat.add_right_comm, Nat.add_assoc n.toNat, Nat.add_assoc used]
        · refine iff_of_false (fun hb => hfit (hall.mp (writes_of_afterStore hb))) ?_
          rintro ⟨-, hcount, hsum⟩
          exact hfit ⟨by omega, by omega⟩

end Loop

/-! ## Lines -/

/-- The text behind the first parenthesis of a line. -/
def argText (line : List UInt8) : List UInt8 := (line.dropWhile (· ≠ lparen)).tail

/-- The bytes that the arguments of a line take, up to the first that is in error, and how they
end. -/
def lineArgs (line : List UInt8) : List ℕ × Ending :=
  lexArgs ((argText line).length + 1) (argText line)

/-- No string of the line is left open, and there is room for its arguments. -/
def Storable (line : List UInt8) : Prop :=
  (lineArgs line).2 ≠ .opened ∧ (lineArgs line).1.length ≤ maxParm ∧
    (lineArgs line).1.sum ≤ parmLen

instance (line : List UInt8) : Decidable (Storable line) :=
  inferInstanceAs (Decidable (_ ∧ _))

/-- `usmart_get_fparam` ends without a read behind the terminator, writes inside the arrays, and
returns an error for more arguments than there is room for. -/
def FparamSafe (line : List UInt8) (d : UsmartDev) : Prop :=
  ∃ f ws, usmartGetFparamTraced (line ++ [0]) d = some (f, ws) ∧ (∀ w ∈ ws, w.InBounds) ∧
    (maxParm < (lineArgs line).1.length ∨ parmLen < (lineArgs line).1.sum → f.sta ≠ .ok)

theorem argText_eq {pre text : List UInt8} (hpre : lparen ∉ pre) :
    argText (pre ++ lparen :: text) = text := by
  have hskip : (pre ++ lparen :: text).dropWhile (· ≠ lparen) = lparen :: text := by
    rw [List.dropWhile_append_of_pos fun c hc => by
      simpa using fun h : c = lparen => hpre (h ▸ hc)]
    rfl
  rw [argText, hskip, List.tail_cons]

/-- The writes are those of `usmart_get_fparam`. -/
theorem usmartGetFparamTraced_fst (str : Str) (d : UsmartDev) :
    (usmartGetFparamTraced str d).map Prod.fst = usmartGetFparam str d := by
  rw [usmartGetFparamTraced, usmartGetFparam]
  cases skipToParen str with
  | none => rfl
  | some r =>
    cases r with
    | none => rfl
    | some str =>
      simp only [Option.bind_eq_bind, Option.bind_some, Option.map_map, ← fparamTraced_fst]
      rfl

/-- The table of lengths is cleared first. -/
def UsmartDev.cleared (d : UsmartDev) : UsmartDev :=
  { d with bytes := store d.bytes 0 (List.replicate maxParm 0) }

theorem usmartGetFparamTraced_eq {pre text : List UInt8} (hpre : lparen ∉ pre) (h₀ : 0 ∉ pre)
    (d : UsmartDev) :
    usmartGetFparamTraced (pre ++ lparen :: text ++ [0]) d =
      (fparamTraced ((text ++ [0]).length + 12) (text ++ [0]) 0 d.cleared).map
        fun r => (r.1, (List.range maxParm).map Write.plentbl ++ r.2) := by
  rw [usmartGetFparamTraced, List.append_assoc, List.cons_append, skipToParen_name hpre h₀]
  rfl

section Line

variable {line : List UInt8} (d : UsmartDev) (h₀ : 0 ∉ line) (hlen : line.length ≤ 199)
  (hparen : lparen ∈ line)

include h₀ hlen hparen

/-- A line is read over just when a string is left open behind at most ten arguments. -/
theorem usmartGetFparamTraced_eq_none :
    usmartGetFparamTraced (line ++ [0]) d = none ↔
      (lineArgs line).2 = .opened ∧ (lineArgs line).1.length ≤ maxParm := by
  obtain ⟨pre, text, rfl, hpre⟩ := List.eq_append_cons_of_mem hparen
  simp only [List.mem_append, List.mem_cons, not_or] at h₀
  simp only [List.length_append, List.length_cons] at hlen
  have hloop : fparamTraced ((text ++ [0]).length + 12) (text ++ [0]) 0 d.cleared = none ↔
      (lexArgs (text.length + 1) text).2 = .opened ∧
        (0 : UInt8).toNat + (lexArgs (text.length + 1) text).1.length ≤ maxParm :=
    fparamTraced_eq_none h₀.2.2 (by unfold parmLen; omega) (Nat.lt_succ_self _)
      (by rw [List.length_append]; omega) (by decide)
  rw [UInt8.toNat_zero, Nat.zero_add] at hloop
  rw [usmartGetFparamTraced_eq hpre h₀.1, Option.map_eq_none_iff, hloop, lineArgs,
    argText_eq hpre]

theorem bounded_usmartGetFparamTraced :
    Bounded (usmartGetFparamTraced (line ++ [0]) d) ↔ Storable line := by
  obtain ⟨pre, text, rfl, hpre⟩ := List.eq_append_cons_of_mem hparen
  simp only [List.mem_append, List.mem_cons, not_or] at h₀
  simp only [List.length_append, List.length_cons] at hlen
  have hzeros : ∀ w ∈ (List.range maxParm).map Write.plentbl, w.InBounds := by
    intro w hw
    obtain ⟨i, hi, rfl⟩ := List.mem_map.mp hw
    exact List.mem_range.mp hi
  have hloop : Bounded (fparamTraced ((text ++ [0]).length + 12) (text ++ [0]) 0 d.cleared) ↔
      (lexArgs (text.length + 1) text).2 ≠ .opened ∧
        (0 : UInt8).toNat + (lexArgs (text.length + 1) text).1.length ≤ maxParm ∧
          0 + (lexArgs (text.length + 1) text).1.sum ≤ parmLen :=
    fparamTraced_bounded h₀.2.2 (by unfold parmLen; omega) (Nat.lt_succ_self _)
      (by rw [List.length_append]; omega) (by decide) rfl (Nat.zero_le _)
  rw [UInt8.toNat_zero, Nat.zero_add, Nat.zero_add] at hloop
  rw [usmartGetFparamTraced_eq hpre h₀.1, bounded_map, hloop, Storable, lineArgs, argText_eq hpre]
  exact and_iff_right hzeros

end Line

/-- **The writes of `usmart_get_fparam`.** On a line with a parenthesis, as all lines have that
`usmart_get_fname` accepts, it stays inside the line and the arrays just when no string is left
open, there are at most ten arguments, and they take at most `PARM_LEN` bytes. -/
theorem usmartGetFparam_safe_iff (line : List UInt8) (d : UsmartDev) (h₀ : 0 ∉ line)
    (hlen : line.length ≤ 199) (hparen : lparen ∈ line) : FparamSafe line d ↔ Storable line := by
  have hbounded := bounded_usmartGetFparamTraced d h₀ hlen hparen
  constructor
  · rintro ⟨f, ws, hrun, hws, -⟩
    exact hbounded.mp ⟨f, ws, hrun, hws⟩
  · intro hfit
    obtain ⟨f, ws, hrun, hws⟩ := hbounded.mpr hfit
    refine ⟨f, ws, hrun, hws, fun hmuch => ?_⟩
    rcases hmuch with hmuch | hmuch
    · exact absurd hfit.2.1 (Nat.not_le_of_lt hmuch)
    · exact absurd hfit.2.2 (Nat.not_le_of_lt hmuch)

/-- A call with ten numbers, which take forty bytes. -/
theorem usmartGetFparam_safe_ten :
    FparamSafe (0x66 :: lparen :: (List.replicate 10 [0x31, comma]).flatten ++ [rparen])
      (freshDev [] (by decide)) :=
  (usmartGetFparam_safe_iff _ _ (by simp [lparen, comma, rparen]) (by simp) (by simp)).mpr
    (by decide +kernel)

/-- `f("\")`: the second quote is escaped for `usmart_get_aparm`, not for `usmart_get_fname`. -/
def openLine : List UInt8 := [0x66, lparen, quote, backslash, quote, rparen]

/-- A call with eleven numbers. -/
def elevenLine : List UInt8 :=
  0x66 :: lparen :: (List.replicate 10 [0x31, comma]).flatten ++ [0x31, rparen]

/-- A call with nine numbers and a string of 170 characters. -/
def longLine : List UInt8 :=
  0x66 :: lparen :: (List.replicate 9 [0x31, comma]).flatten ++
    quote :: List.replicate 170 0x61 ++ [quote, rparen]

/-- `usmart_get_fname` accepts the line, and `usmart_get_fparam` leaves its arrays, or the line. -/
def LeavesArrays (line : List UInt8) : Prop :=
  0 ∉ line ∧ line.length ≤ 199 ∧ (usmartGetFname (line ++ [0]) 0).map (·.sta) = some .ok ∧
    ¬FparamSafe line (freshDev [] (by decide))

/-- An open string is read over its end, an eleventh length is stored, and `parm` is too short. -/
theorem not_fparamSafe :
    LeavesArrays openLine ∧ LeavesArrays elevenLine ∧ LeavesArrays longLine := by
  have hout {line : List UInt8} (w : Write) (hw : ¬w.InBounds)
      (hrun : (usmartGetFparamTraced (line ++ [0]) (freshDev [] (by decide))).any (w ∈ ·.2)) :
      ¬FparamSafe line (freshDev [] (by decide)) := by
    rintro ⟨f, ws, h, hws, -⟩
    rw [h, Option.any_some, decide_eq_true_eq] at hrun
    exact hw (hws w hrun)
  refine ⟨⟨by decide +kernel, by decide, by decide +kernel, ?_⟩,
    ⟨by decide +kernel, by decide +kernel, by decide +kernel, ?_⟩,
    by decide +kernel, by decide +kernel, by decide +kernel, ?_⟩
  · rintro ⟨f, ws, h, -⟩
    have hnone : (usmartGetFparamTraced (openLine ++ [0]) (freshDev [] (by decide))).isNone := by
      decide +kernel
    rw [h] at hnone
    cases hnone
  · exact hout (.plentbl 10) (by simp [Write.InBounds, maxParm]) (by decide +kernel)
  · exact hout (.parm 206) (by simp [Write.InBounds, parmLen]) (by decide +kernel)

end Usmart

end Enc28j60Udp
