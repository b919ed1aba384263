import Enc28j60Udp.Usmart.Args
import Mathlib.Algebra.BigOperators.Group.List.Basic

/-!
# The round trip of the arguments

`Holds d args` says that the arguments lie in `usmart_dev` one behind the other, with their sizes in
`plentbl` and their kinds in `parmtype`. Each round of `usmart_get_fparam` adds one of them
(`Holds.put`), and so the decoder gets back what was written (`usmartGetFparam_callText`).
-/

namespace Enc28j60Udp

namespace Usmart

/-! ## What is stored -/

theorem getLsbD_bit {k : UInt8} (hk : k.toNat < 16) (i : ℕ) :
    ((1 : UInt16) <<< k.toUInt16).toBitVec.getLsbD i = decide (i = k.toNat) := by
  have hmod : k.toNat % 16 = k.toNat := Nat.mod_eq_of_lt hk
  rw [UInt16.toBitVec_shiftLeft, BitVec.shiftLeft_eq', BitVec.getLsbD_shiftLeft]
  by_cases hi : i = k.toNat
  · simp [hmod, hi, hk]
  · simp [hmod, hi]
    omega

namespace Arg

theorem bytes_put (a : Arg) (d : UsmartDev) (k : UInt8) :
    (a.put d k).bytes = Function.update
      (store d.bytes (parmAt + (d.usmartGetParmpos k.toNat).toNat) a.stored) k.toNat
      (UInt8.ofNat a.stored.length) := by
  cases a with
  | number n => rfl
  | string s hs =>
    have hlen : usmartStrlen s + 1 = UInt8.ofNat (Arg.string s hs).stored.length := by
      rw [usmartStrlen_eq, stored, List.length_append, UInt8.ofNat_add]
      rfl
    rw [← hlen]
    rfl

theorem isString_put (a : Arg) (d : UsmartDev) {k : UInt8} (hk : k.toNat < 16) (i : ℕ) :
    (a.put d k).isString i = if i = k.toNat then a.isString else d.isString i := by
  have hbit := getLsbD_bit hk i
  cases a with
  | number n =>
    change (d.parmtype &&& ~~~(1 <<< k.toUInt16)).toBitVec.getLsbD i = _
    rw [UInt16.toBitVec_and, UInt16.toBitVec_not, BitVec.getLsbD_and, BitVec.getLsbD_not, hbit]
    by_cases hi : i = k.toNat
    · simp [hi, isString]
    · have hrange : d.parmtype.toBitVec.getLsbD i = true → i < 16 := BitVec.lt_of_getLsbD
      simp only [hi, decide_false, Bool.not_false, Bool.and_true, if_false]
      change _ = d.parmtype.toBitVec.getLsbD i
      cases h : d.parmtype.toBitVec.getLsbD i with
      | false => rfl
      | true => simp [hrange h]
  | string s hs =>
    change (d.parmtype ||| (1 <<< k.toUInt16)).toBitVec.getLsbD i = _
    rw [UInt16.toBitVec_or, BitVec.getLsbD_or, hbit]
    by_cases hi : i = k.toNat
    · simp [hi, isString]
    · simp only [hi, decide_false, Bool.or_false, if_false]
      rfl

end Arg

/-- Where argument number `i` starts. -/
def offset (args : List Arg) (i : ℕ) : ℕ := ((args.take i).map fun a => a.stored.length).sum

/-- The bytes that all arguments take. -/
def storage (args : List Arg) : ℕ := offset args args.length

/-- The arguments lie in `usmart_dev`. -/
structure Holds (d : UsmartDev) (args : List Arg) : Prop where
  plentbl : ∀ i (h : i < args.length), d.plentbl i = UInt8.ofNat args[i].stored.length
  isString : ∀ i (h : i < args.length), d.isString i = args[i].isString
  parm : ∀ i (h : i < args.length) j (hj : j < args[i].stored.length),
    d.parm (offset args i + j) = args[i].stored[j]

theorem offset_succ {args : List Arg} {i : ℕ} (h : i < args.length) :
    offset args (i + 1) = offset args i + args[i].stored.length := by
  rw [offset, List.take_add_one, List.getElem?_eq_getElem h, List.map_append, List.sum_append]
  rfl

theorem offset_append {args : List Arg} (a : Arg) {i : ℕ} (h : i ≤ args.length) :
    offset (args ++ [a]) i = offset args i := by
  rw [offset, List.take_append_of_le_length h]
  rfl

theorem storage_eq_sum (args : List Arg) :
    storage args = (args.map fun a => a.stored.length).sum := by
  rw [storage, offset, List.take_length]

theorem storage_append (args : List Arg) (a : Arg) :
    storage (args ++ [a]) = storage args + a.stored.length := by
  simp [storage_eq_sum]

theorem offset_le_storage {args : List Arg} {i : ℕ} (h : i < args.length) :
    offset args i + args[i].stored.length ≤ storage args := by
  have mono : ∀ k, i + 1 + k ≤ args.length → offset args (i + 1) ≤ offset args (i + 1 + k) := by
    intro k
    induction k with
    | zero => exact fun _ => Nat.le_refl _
    | succ k ih =>
      intro hk
      have hs : offset args (i + 1 + k + 1) = _ := offset_succ (by omega)
      have := ih (by omega)
      rw [← Nat.add_assoc, hs]
      omega
  have h' := mono (args.length - (i + 1)) (by omega)
  rw [Nat.add_sub_of_le h, offset_succ h] at h'
  exact h'

namespace Holds

variable {d : UsmartDev} {args : List Arg}

theorem nil (d : UsmartDev) : Holds d [] := ⟨by simp, by simp, by simp⟩

/-- `usmart_get_parmpos` is the start of an argument. -/
theorem usmartGetParmpos (h : Holds d args) {i : ℕ} (hi : i ≤ args.length) :
    d.usmartGetParmpos i = UInt8.ofNat (offset args i) := by
  induction i with
  | zero => rfl
  | succ i ih =>
    have hi' : i < args.length := hi
    rw [UsmartDev.usmartGetParmpos, ih (by omega), h.plentbl i hi', ← UInt8.ofNat_add,
      offset_succ hi']

/-- One more argument is stored behind the others. -/
theorem put (h : Holds d args) (a : Arg) (hn : args.length < maxParm)
    (hfit : storage (args ++ [a]) ≤ parmLen) :
    Holds (a.put d (UInt8.ofNat args.length)) (args ++ [a]) := by
  unfold maxParm at hn
  unfold parmLen at hfit
  rw [storage_append] at hfit
  have hk : (UInt8.ofNat args.length).toNat = args.length :=
    UInt8.toNat_ofNat_of_lt' (show _ < 256 by omega)
  have hpos : (d.usmartGetParmpos args.length).toNat = storage args := by
    rw [h.usmartGetParmpos (Nat.le_refl _), ← storage]
    simp
    omega
  have hbytes := a.bytes_put d (UInt8.ofNat args.length)
  rw [hk, hpos] at hbytes
  have hkind := fun i => a.isString_put d (k := UInt8.ofNat args.length) (by omega) i
  rw [hk] at hkind
  generalize a.put d (UInt8.ofNat args.length) = d' at hbytes hkind
  -- the table entries lie before `parm`, the earlier arguments before the new one
  have hparm : ∀ p, d'.parm p = store d.bytes (parmAt + storage args) a.stored (parmAt + p) := by
    intro p
    rw [UsmartDev.parm, hbytes, Function.update_of_ne (by unfold parmAt maxParm; omega)]
  have hlen : ∀ i, i < (args ++ [a]).length → i < args.length ∨ i = args.length := by
    intro i hi
    rw [List.length_append, List.length_singleton] at hi
    omega
  refine ⟨fun i hi => ?_, fun i hi => ?_, fun i hi j hj => ?_⟩
  · rw [UsmartDev.plentbl, hbytes]
    rcases hlen i hi with hi' | rfl
    · rw [Function.update_of_ne (by omega), store_of_not_mem (by unfold parmAt maxParm; omega),
        List.getElem_append_left hi']
      exact h.plentbl i hi'
    · rw [Function.update_self, List.getElem_concat_length rfl]
  · rw [hkind]
    rcases hlen i hi with hi' | rfl
    · rw [if_neg (by omega), List.getElem_append_left hi']
      exact h.isString i hi'
    · rw [if_pos rfl, List.getElem_concat_length rfl]
  · rw [hparm]
    rcases hlen i hi with hi' | rfl
    · have hle := offset_le_storage hi'
      simp only [List.getElem_append_left hi'] at hj ⊢
      rw [offset_append a (by omega), store_of_not_mem (by omega)]
      exact h.parm i hi' j hj
    · simp only [List.getElem_concat_length rfl] at hj ⊢
      rw [offset_append a (Nat.le_refl _), ← Nat.add_assoc]
      exact store_of_mem hj

end Holds

/-! ## The decoder -/

/-- The arguments are stored one after the other. -/
def putAll : List Arg → UsmartDev → UInt8 → UsmartDev
  | [], d, _ => d
  | a :: args, d, k => putAll args (a.put d k) (k + 1)

/-- The loop on the text of the arguments. -/
theorem fparamLoop_argsText {args : List Arg} (hlen : ∀ a ∈ args, a.text.length ≤ parmLen)
    {k : UInt8} (hk : k.toNat + args.length ≤ maxParm) {fuel : ℕ}
    (hfuel : 2 * args.length < fuel) (str : Str) (d : UsmartDev) :
    fparamLoop fuel (argsText args ++ rparen :: str) k d =
      some ⟨.ok, k + UInt8.ofNat args.length, putAll args d k, rparen :: str⟩ := by
  induction args generalizing k fuel d with
  | nil =>
    obtain ⟨fuel, rfl⟩ := Nat.exists_eq_succ_of_ne_zero (Nat.ne_of_gt hfuel)
    have hread : usmartGetAparm (rparen :: str) (parmLen + 1) = some ([], .number, 0) := by
      have hloop : aparmLoop (rparen :: str) AparmState.start =
          some (AparmState.inNumber 0 false []) := aparmLoop_number_end (Or.inl rfl)
      rw [usmartGetAparm, hloop]
      rfl
    rw [argsText, List.nil_append, fparamLoop_empty hread]
    simp [fparamNext, IsEnd, putAll]
  | cons a args ih =>
    obtain ⟨ha, hrest⟩ := List.forall_mem_cons.mp hlen
    rw [List.length_cons] at hk hfuel
    have hk₁ : (k + 1).toNat = k.toNat + 1 := toNat_parm_succ (by omega)
    cases args with
    | nil =>
      obtain ⟨fuel, rfl⟩ := Nat.exists_eq_succ_of_ne_zero (by omega : fuel ≠ 0)
      exact fparamLoop_last a ha (by omega)
    | cons b args =>
      obtain ⟨fuel, rfl⟩ := Nat.exists_eq_add_of_le' (by omega : 2 ≤ fuel)
      have hstarts : Starts (argsText (b :: args) ++ rparen :: str) := by
        cases args with
        | nil => exact b.starts_text _
        | cons c args =>
          rw [argsText, List.append_assoc]
          exact b.starts_text _
      obtain ⟨fuel', hle, hround⟩ := fparamLoop_comma a fuel d ha
        (by omega : (k + 1).toNat ≤ maxParm) hstarts
      rw [argsText, List.append_assoc, List.cons_append, hround,
        ih hrest (by omega) (by omega), add_one_add_ofNat]
      rfl

/-- Storing the arguments one after the other. -/
theorem holds_putAll {done args : List Arg} {d : UsmartDev} (h : Holds d done)
    (hn : (done ++ args).length ≤ maxParm) (hfit : storage (done ++ args) ≤ parmLen) :
    Holds (putAll args d (UInt8.ofNat done.length)) (done ++ args) := by
  induction args generalizing done d with
  | nil =>
    rw [List.append_nil]
    exact h
  | cons a args ih =>
    have happ : done ++ a :: args = done ++ [a] ++ args := by simp
    rw [happ] at hn hfit ⊢
    have hlast : storage (done ++ [a]) ≤ storage (done ++ [a] ++ args) := by
      simp only [storage_eq_sum, List.map_append, List.sum_append]
      omega
    have hput := h.put a (by simp at hn; omega) (hlast.trans hfit)
    have hk : UInt8.ofNat done.length + 1 = UInt8.ofNat (done ++ [a]).length := by
      rw [List.length_append, UInt8.ofNat_add]
      rfl
    rw [putAll, hk]
    exact ih hput hn hfit

theorem length_argsText (args : List Arg) : 2 * args.length ≤ (argsText args).length + 1 := by
  match args with
  | [] => simp
  | [a] =>
    have := a.length_text_pos
    simp only [argsText, List.length_singleton]
    omega
  | a :: b :: args =>
    have ih := length_argsText (b :: args)
    have := a.length_text_pos
    simp only [argsText, List.length_cons, List.length_append] at ih ⊢
    omega

/-- **The round trip of the arguments.** On the text of a call with at most ten arguments, each of
at most 200 characters and all together of at most 200 bytes, `usmart_get_fparam` returns
`USMART_OK` and the number of arguments, and each argument has its kind in `parmtype` and its bytes
in `parm`, where `usmart_get_parmpos` says. -/
theorem usmartGetFparam_callText {name : List UInt8} (hparen : lparen ∉ name) (hzero : 0 ∉ name)
    {args : List Arg} (hn : args.length ≤ maxParm)
    (hlen : ∀ a ∈ args, a.text.length ≤ parmLen) (hfit : storage args ≤ parmLen) (rest : Str)
    (d : UsmartDev) :
    ∃ f, usmartGetFparam (callText name args ++ 0 :: rest) d = some f ∧ f.sta = .ok ∧
      f.parn.toNat = args.length ∧ ∀ i (h : i < args.length),
        f.dev.isString i = args[i].isString ∧
        ∀ j (hj : j < args[i].stored.length),
          f.dev.parm ((f.dev.usmartGetParmpos i).toNat + j) = args[i].stored[j] := by
  have hline : callText name args ++ 0 :: rest =
      name ++ lparen :: (argsText args ++ rparen :: 0 :: rest) := by
    simp [callText]
  generalize hd : ({ d with bytes := store d.bytes 0 (List.replicate maxParm 0) } : UsmartDev) = d₀
  have hholds : Holds (putAll args d₀ 0) args := by
    have h : Holds (putAll args d₀ 0) ([] ++ args) := holds_putAll (Holds.nil d₀) hn hfit
    exact h
  refine ⟨⟨.ok, 0 + UInt8.ofNat args.length, putAll args d₀ 0, rparen :: 0 :: rest⟩, ?_, rfl,
    ?_, ?_⟩
  · rw [usmartGetFparam, hline, skipToParen_name hparen hzero]
    dsimp only [Option.bind_eq_bind, Option.bind_some]
    rw [hd]
    have hfuel := length_argsText args
    exact fparamLoop_argsText hlen (by simpa using hn) (by simp; omega) _ d₀
  · unfold maxParm at hn
    simp
    omega
  · intro i h
    have hle := offset_le_storage h
    have hpos : ((putAll args d₀ 0).usmartGetParmpos i).toNat = offset args i := by
      unfold parmLen at hfit
      rw [hholds.usmartGetParmpos (by omega)]
      simp
      omega
    refine ⟨hholds.isString i h, fun j hj => ?_⟩
    rw [hpos]
    exact hholds.parm i h j hj

/-- The arguments `0xFf`, `"a\",)"` and `012`. -/
def mixedArgs : List Arg :=
  [.number ⟨.hexLower, [0x46, 0x66], by simp, by decide +kernel, by decide +kernel⟩,
    .string [0x61, 0x22, 0x2C, 0x29] (by simp),
    .number ⟨.dec, [0x30, 0x31, 0x32], by simp, by decide +kernel, by decide +kernel⟩]

/-- A call of `f` with these arguments. -/
theorem usmartGetFparam_mixedArgs :
    ∃ f, usmartGetFparam (callText [0x66] mixedArgs ++ [0]) (freshDev [] (by decide)) = some f ∧
      f.sta = .ok ∧ f.parn.toNat = 3 := by
  have hname : lparen ∉ [(0x66 : UInt8)] ∧ 0 ∉ [(0x66 : UInt8)] := by simp [lparen]
  have hn : mixedArgs.length ≤ maxParm := by decide +kernel
  obtain ⟨f, hf, hsta, hparn, -⟩ := usmartGetFparam_callText hname.1 hname.2 hn
    (by decide +kernel) (by decide +kernel) [] (freshDev [] (by decide))
  exact ⟨f, hf, hsta, hparn⟩

end Usmart

end Enc28j60Udp
