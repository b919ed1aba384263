import Enc28j60Udp.Foundations.Runs
import Mathlib.Data.UInt
import Mathlib.Logic.Function.Basic

/-!
# Lines from the serial port

`USART1_IRQHandler` collects a line in `USART_RX_BUF`. The word `USART_RX_STA` holds the number of
its bytes, in bit 14 that a carriage return has come in, and in bit 15 that the line is complete;
`usmart_scan` waits for bit 15, stores a terminator behind the line, runs the command and clears
the word. Bytes come in between any two of its steps.

The word and the buffer follow the bytes received so far (`Follows`): they are what came in last,
or the line has stayed complete since the line feed. `receiver_sound` says what follows for every
run.
-/

namespace Enc28j60Udp

namespace Usart

/-! ## The model -/

/-- `USART_REC_LEN`. -/
def usartRecLen : ℕ := 200

/-- The place of `usmart_scan`: in front of the test of bit 15, behind it, behind the read of
`len`, and behind the store of the terminator, where the command runs. -/
inductive ScanPc
  | idle
  | tested
  | store (len : UInt8)
  | command
  deriving DecidableEq

/-- The data of the receiver, with a record of the indices into `USART_RX_BUF` that were used. The
memory is that from the start of the buffer on, in which an index may also lie behind its end. -/
structure Receiver where
  /-- `USART_RX_STA`. -/
  sta : UInt16
  /-- `USART_RX_BUF`. -/
  buf : ℕ → UInt8
  scan : ScanPc
  used : List ℕ

/-- At the start, whatever the buffer holds. -/
def Receiver.init (buf : ℕ → UInt8) : Receiver := ⟨0, buf, .idle, []⟩

/-- `USART_RX_BUF[i] = b`. -/
def Receiver.storeBuf (r : Receiver) (i : ℕ) (b : UInt8) : Receiver :=
  { r with buf := Function.update r.buf i b, used := i :: r.used }

/-- `USART1_IRQHandler`, when the byte `res` has been received. -/
def usart1IRQHandler (r : Receiver) (res : UInt8) : Receiver :=
  if r.sta &&& 0x8000 = 0 then
    if r.sta &&& 0x4000 ≠ 0 then
      if res ≠ 0x0A then { r with sta := 0 } else { r with sta := r.sta ||| 0x8000 }
    else if res = 0x0D then { r with sta := r.sta ||| 0x4000 }
    else
      let r := r.storeBuf (r.sta &&& 0x3FFF).toNat res
      let r := { r with sta := r.sta + 1 }
      if usartRecLen - 1 < r.sta.toNat then { r with sta := 0 } else r
  else r

/-- The next step of `usmart_scan`, which the main program calls again and again. -/
def usmartScan (r : Receiver) : Receiver :=
  match r.scan with
  | .idle => if r.sta &&& 0x8000 ≠ 0 then { r with scan := .tested } else r
  | .tested => { r with scan := .store (r.sta &&& 0x3FFF).toUInt8 }
  | .store len => { r.storeBuf len.toNat 0 with scan := .command }
  | .command => { r with sta := 0, scan := .idle }

/-- A byte comes in, or `usmart_scan` takes a step. -/
inductive Event
  | receive (res : UInt8)
  | scan
  deriving DecidableEq

/-- One event. -/
def step (r : Receiver) : Event → Receiver
  | .receive res => usart1IRQHandler r res
  | .scan => usmartScan r

/-- The byte of an event. -/
def Event.byte : Event → Option UInt8
  | .receive res => some res
  | .scan => none

/-- The bytes received during events. -/
def received (es : List Event) : List UInt8 := es.filterMap Event.byte

/-- Bit 15 of `USART_RX_STA` is set. -/
def Receiver.Complete (r : Receiver) : Prop := r.sta &&& 0x8000 ≠ 0

instance (r : Receiver) : Decidable r.Complete := inferInstanceAs (Decidable (_ ≠ _))

/-- The low 14 bits of `USART_RX_STA`. -/
def Receiver.count (r : Receiver) : ℕ := (r.sta &&& 0x3FFF).toNat

/-- The bytes of the line: `USART_RX_BUF[0]` to `USART_RX_BUF[n-1]`. -/
def Receiver.line (r : Receiver) : List UInt8 := (List.range r.count).map r.buf

/-- The first events of the run ended in a line feed that set bit 15, which has been set since; the
bytes in front of it were the line and a carriage return. -/
def SetByCrLf (r₀ : Receiver) (es : List Event) (line : List UInt8) : Prop :=
  ∃ es₁ es₂ pre, es = es₁ ++ .receive 0x0A :: es₂ ∧
    received es₁ = pre ++ line ++ [0x0D] ∧ ¬(Runs.exec step r₀ es₁).Complete ∧
    ∀ es', es' <+: es₂ → (Runs.exec step r₀ (es₁ ++ .receive 0x0A :: es')).Complete

/-! ## The word -/

/-- A count below 200 with the bits of `flags`. -/
def word (flags : UInt16) (k : ℕ) : UInt16 := UInt16.ofNat k ||| flags

section Word

variable {k : ℕ} (hk : k < usartRecLen)

include hk

theorem word_filling :
    word 0 k &&& 0x8000 = 0 ∧ word 0 k &&& 0x4000 = 0 ∧ (word 0 k &&& 0x3FFF).toNat = k ∧
      word 0 k + 1 = word 0 (k + 1) ∧ (word 0 (k + 1)).toNat = k + 1 := by
  revert hk
  revert k
  decide +kernel

theorem word_sawCr :
    word 0 k ||| 0x4000 = word 0x4000 k ∧ word 0x4000 k &&& 0x8000 = 0 ∧
      word 0x4000 k &&& 0x4000 ≠ 0 ∧ (word 0x4000 k &&& 0x3FFF).toNat = k := by
  revert hk
  revert k
  decide +kernel

theorem word_complete :
    word 0x4000 k ||| 0x8000 = word 0xC000 k ∧ word 0xC000 k &&& 0x8000 ≠ 0 ∧
      (word 0xC000 k &&& 0x3FFF).toNat = k ∧ (word 0xC000 k &&& 0x3FFF).toUInt8.toNat = k := by
  revert hk
  revert k
  decide +kernel

end Word

/-! ## The invariant -/

/-- The first `k` bytes of a buffer. -/
def bufLine (buf : ℕ → UInt8) (k : ℕ) : List UInt8 := (List.range k).map buf

theorem bufLine_update_of_le {k i : ℕ} (h : k ≤ i) (buf : ℕ → UInt8) (b : UInt8) :
    bufLine (Function.update buf i b) k = bufLine buf k := by
  refine List.map_congr_left fun j hj => Function.update_of_ne ?_ _ _
  have hlt := List.mem_range.mp hj
  omega

theorem bufLine_update_succ (k : ℕ) (buf : ℕ → UInt8) (b : UInt8) :
    bufLine (Function.update buf k b) (k + 1) = bufLine buf k ++ [b] := by
  have hfront := bufLine_update_of_le (Nat.le_refl k) buf b
  rw [bufLine, List.range_succ, List.map_append, ← bufLine, hfront, List.map_singleton,
    Function.update_self]

theorem received_snoc (es : List Event) (e : Event) :
    received (es ++ [e]) = received es ++ e.byte.toList := by
  rw [received, List.filterMap_append, ← received]
  cases e <;> rfl

/-- The word and the buffer of `r` follow the bytes of the run: the line is being filled, or its
carriage return has come in, or it has been complete since its line feed. -/
inductive Follows (r₀ : Receiver) (es : List Event) (r : Receiver) : Prop
  | filling {k : ℕ} {pre : List UInt8} (hk : k < usartRecLen) (hsta : r.sta = word 0 k)
      (hscan : r.scan = .idle) (hcr : 0x0D ∉ bufLine r.buf k)
      (hrec : received es = pre ++ bufLine r.buf k) : Follows r₀ es r
  | sawCr {k : ℕ} {pre : List UInt8} (hk : k < usartRecLen) (hsta : r.sta = word 0x4000 k)
      (hscan : r.scan = .idle) (hcr : 0x0D ∉ bufLine r.buf k)
      (hrec : received es = pre ++ bufLine r.buf k ++ [0x0D]) : Follows r₀ es r
  | complete {k : ℕ} (hk : k < usartRecLen) (hsta : r.sta = word 0xC000 k)
      (hscan : ∀ len, r.scan = .store len → len.toNat = k) (hcr : 0x0D ∉ bufLine r.buf k)
      (hset : SetByCrLf r₀ es (bufLine r.buf k)) : Follows r₀ es r

/-- A cleared word follows every run. -/
theorem Follows.cleared {r₀ r : Receiver} (es : List Event) (hsta : r.sta = 0)
    (hscan : r.scan = .idle) : Follows r₀ es r :=
  .filling (k := 0) (by decide) hsta hscan (by simp [bufLine])
    (show received es = received es ++ bufLine r.buf 0 by simp [bufLine])

/-- A word that is still complete was set by the same line feed. -/
theorem SetByCrLf.snoc {r₀ : Receiver} {es : List Event} {line : List UInt8} {e : Event}
    (h : SetByCrLf r₀ es line) (hc : (step (Runs.exec step r₀ es) e).Complete) :
    SetByCrLf r₀ (es ++ [e]) line := by
  obtain ⟨es₁, es₂, pre, rfl, hrec, hclear, hset⟩ := h
  refine ⟨es₁, es₂ ++ [e], pre, by simp, hrec, hclear, fun es' hes' => ?_⟩
  rcases List.prefix_concat_iff.mp hes' with rfl | hes'
  · rw [show es₁ ++ Event.receive 0x0A :: (es₂ ++ [e]) = es₁ ++ Event.receive 0x0A :: es₂ ++ [e]
      by simp, Runs.exec_append]
    exact hc
  · exact hset es' hes'

section Step

variable {r₀ : Receiver} {es : List Event}

/-- What a byte does to the word, by the place in the line. -/
theorem irq_filling {r : Receiver} {k : ℕ} (hk : k < usartRecLen) (hsta : r.sta = word 0 k)
    (res : UInt8) :
    usart1IRQHandler r res =
      if res = 0x0D then { r with sta := word 0x4000 k }
      else { r.storeBuf k res with sta := if k + 1 < usartRecLen then word 0 (k + 1) else 0 } := by
  obtain ⟨h₈, h₄, hcount, hsucc, hnat⟩ := word_filling hk
  obtain ⟨hor, -⟩ := word_sawCr hk
  rw [usart1IRQHandler, hsta, if_pos h₈, if_neg (not_not.mpr h₄), hor, hcount]
  split_ifs with hres hnext
  · rfl
  all_goals
    simp only [Receiver.storeBuf, hsta, hsucc, hnat]
    unfold usartRecLen at *
  · rw [if_neg (by omega)]
  · rw [if_pos (by omega)]

theorem irq_sawCr {r : Receiver} {k : ℕ} (hk : k < usartRecLen) (hsta : r.sta = word 0x4000 k)
    (res : UInt8) :
    usart1IRQHandler r res = { r with sta := if res = 0x0A then word 0xC000 k else 0 } := by
  obtain ⟨-, h₈, h₄, -⟩ := word_sawCr hk
  obtain ⟨hor, -⟩ := word_complete hk
  rw [usart1IRQHandler, hsta, if_pos h₈, if_pos h₄, hor]
  split_ifs <;> first | rfl | contradiction

/-- A complete line is left alone. -/
theorem irq_complete {r : Receiver} (h : r.Complete) (res : UInt8) :
    usart1IRQHandler r res = r := if_neg h

/-- A received byte keeps the invariant. -/
theorem follows_receive (h : Follows r₀ es (Runs.exec step r₀ es)) (res : UInt8) :
    Follows r₀ (es ++ [.receive res]) (usart1IRQHandler (Runs.exec step r₀ es) res) := by
  have hbytes : received (es ++ [.receive res]) = received es ++ [res] := received_snoc es _
  rcases h with ⟨hk, hsta, hscan, hcr, hrec⟩ | ⟨hk, hsta, hscan, hcr, hrec⟩ |
    ⟨hk, hsta, hscan, hcr, hset⟩
  · rename_i k pre
    rw [irq_filling hk hsta]
    split_ifs with hres hnext
    · exact .sawCr hk rfl hscan hcr (by rw [hbytes, hrec, hres])
    · have hline := bufLine_update_succ k (Runs.exec step r₀ es).buf res
      have hrec' : received (es ++ [.receive res]) = pre ++
          bufLine (Function.update (Runs.exec step r₀ es).buf k res) (k + 1) := by
        rw [hbytes, hrec, List.append_assoc, ← hline]
      refine .filling hnext rfl hscan (hline ▸ fun hmem => ?_) hrec'
      rcases List.mem_append.mp hmem with hmem | hmem
      · exact hcr hmem
      · exact hres (List.mem_singleton.mp hmem).symm
    · exact .cleared _ rfl hscan
  · rename_i k pre
    rw [irq_sawCr hk hsta]
    split_ifs with hres
    · obtain ⟨-, hclear, -⟩ := word_sawCr hk
      obtain ⟨-, hset, -⟩ := word_complete hk
      refine .complete hk rfl (by simp [hscan]) hcr ?_
      refine ⟨es, [], pre, by rw [hres], hrec, ?_, fun es' hes' => ?_⟩
      · rw [Receiver.Complete, hsta]
        exact not_not.mpr hclear
      · rw [List.prefix_nil.mp hes', Runs.exec_append]
        change (usart1IRQHandler (Runs.exec step r₀ es) 0x0A).Complete
        rw [irq_sawCr hk hsta]
        exact hset
    · exact .cleared _ rfl hscan
  · obtain ⟨-, hbit, -⟩ := word_complete hk
    have hc : (Runs.exec step r₀ es).Complete := by rwa [Receiver.Complete, hsta]
    have hsame := irq_complete hc res
    rw [hsame]
    exact .complete hk hsta hscan hcr (hset.snoc (by rw [step, hsame]; exact hc))

theorem received_scan (es : List Event) : received (es ++ [.scan]) = received es := by
  rw [received_snoc, Event.byte, Option.toList_none, List.append_nil]

/-- `usmart_scan` waits for bit 15. -/
theorem scan_waits {r : Receiver} (hscan : r.scan = .idle) (hbit : r.sta &&& 0x8000 = 0) :
    usmartScan r = r := by
  rw [usmartScan, hscan]
  exact if_neg (not_not.mpr hbit)

/-- A step of `usmart_scan` keeps the invariant. -/
theorem follows_scan (h : Follows r₀ es (Runs.exec step r₀ es)) :
    Follows r₀ (es ++ [.scan]) (usmartScan (Runs.exec step r₀ es)) := by
  rcases h with ⟨hk, hsta, hscan, hcr, hrec⟩ | ⟨hk, hsta, hscan, hcr, hrec⟩ |
    ⟨hk, hsta, hscan, hcr, hset⟩
  · obtain ⟨hbit, -⟩ := word_filling hk
    rw [scan_waits hscan (by rw [hsta, hbit])]
    exact .filling hk hsta hscan hcr ((received_scan es).trans hrec)
  · obtain ⟨-, hbit, -⟩ := word_sawCr hk
    rw [scan_waits hscan (by rw [hsta, hbit])]
    exact .sawCr hk hsta hscan hcr ((received_scan es).trans hrec)
  · rename_i k
    obtain ⟨-, hbit, -, hlen⟩ := word_complete hk
    have hkept : ∀ r : Receiver, usmartScan (Runs.exec step r₀ es) = r → r.sta = word 0xC000 k →
        SetByCrLf r₀ (es ++ [.scan]) (bufLine (Runs.exec step r₀ es).buf k) := by
      intro r hr hr'
      refine hset.snoc ?_
      rw [step, hr, Receiver.Complete, hr']
      exact hbit
    rw [usmartScan] at hkept ⊢
    cases hpc : (Runs.exec step r₀ es).scan with
    | idle =>
      simp only [hpc, hsta, if_pos hbit] at hkept ⊢
      exact .complete hk rfl (by simp) hcr (hkept _ rfl rfl)
    | tested =>
      simp only [hpc, hsta] at hkept ⊢
      refine .complete hk rfl (fun len h => ?_) hcr (hkept _ rfl rfl)
      obtain rfl := ScanPc.store.inj h
      exact hlen
    | store len =>
      simp only [hpc] at hkept ⊢
      have hline := bufLine_update_of_le (hscan len hpc).ge (Runs.exec step r₀ es).buf 0
      exact .complete hk hsta (by simp) (hline ▸ hcr) (hline ▸ hkept _ rfl hsta)
    | command => exact .cleared _ rfl rfl

end Step

/-- Every run from the start keeps the invariant. -/
theorem follows_run (buf : ℕ → UInt8) (es : List Event) :
    Follows (.init buf) es (Runs.exec step (.init buf) es) := by
  induction es using List.reverseRecOn with
  | nil => exact .cleared [] rfl rfl
  | append_singleton es e ih =>
    rw [Runs.exec_append]
    cases e with
    | receive res => exact follows_receive ih res
    | scan => exact follows_scan ih

/-! ## The results -/

theorem mem_used_usart1IRQHandler {r₀ r : Receiver} {es : List Event} (h : Follows r₀ es r)
    (res : UInt8) : ∀ i ∈ (usart1IRQHandler r res).used, i ∈ r.used ∨ i < usartRecLen := by
  intro i hi
  rcases h with ⟨hk, hsta, -⟩ | ⟨hk, hsta, -⟩ | ⟨hk, hsta, -⟩
  · rw [irq_filling hk hsta] at hi
    split_ifs at hi
    · exact Or.inl hi
    all_goals
      rcases List.mem_cons.mp hi with rfl | hi
      · exact Or.inr hk
      · exact Or.inl hi
  · rw [irq_sawCr hk hsta] at hi
    exact Or.inl hi
  · obtain ⟨-, hbit, -⟩ := word_complete hk
    rw [irq_complete (by rwa [Receiver.Complete, hsta])] at hi
    exact Or.inl hi

theorem mem_used_usmartScan {r₀ r : Receiver} {es : List Event} (h : Follows r₀ es r) :
    ∀ i ∈ (usmartScan r).used, i ∈ r.used ∨ i < usartRecLen := by
  intro i hi
  rw [usmartScan] at hi
  cases hpc : r.scan with
  | idle =>
    rw [hpc] at hi
    dsimp only at hi
    split_ifs at hi <;> exact Or.inl hi
  | tested =>
    rw [hpc] at hi
    exact Or.inl hi
  | store len =>
    rw [hpc] at hi
    rcases List.mem_cons.mp hi with rfl | hi
    · rcases h with ⟨-, -, hscan, -⟩ | ⟨-, -, hscan, -⟩ | ⟨hk, -, hscan, -⟩
      · cases hpc.symm.trans hscan
      · cases hpc.symm.trans hscan
      · exact Or.inr (hscan len hpc ▸ hk)
    · exact Or.inl hi
  | command =>
    rw [hpc] at hi
    exact Or.inl hi

/-- Every index that is used lies in the buffer. -/
theorem used_lt (buf : ℕ → UInt8) (es : List Event) :
    ∀ i ∈ (Runs.exec step (.init buf) es).used, i < usartRecLen := by
  induction es using List.reverseRecOn with
  | nil => simp [Receiver.init]
  | append_singleton es e ih =>
    intro i hi
    rw [Runs.exec_append] at hi
    have hold : i ∈ (Runs.exec step (.init buf) es).used ∨ i < usartRecLen := by
      cases e with
      | receive res => exact mem_used_usart1IRQHandler (follows_run buf es) res i hi
      | scan => exact mem_used_usmartScan (follows_run buf es) i hi
    rcases hold with hi | hi
    · exact ih i hi
    · exact hi

/-- A complete line is the one in front of the line feed. -/
theorem Follows.of_complete {r₀ r : Receiver} {es : List Event} (h : Follows r₀ es r)
    (hc : r.Complete) : r.count ≤ 199 ∧ 0x0D ∉ r.line ∧ SetByCrLf r₀ es r.line := by
  rcases h with ⟨hk, hsta, -⟩ | ⟨hk, hsta, -⟩ | ⟨hk, hsta, -, hcr, hset⟩
  · obtain ⟨hbit, -⟩ := word_filling hk
    rw [Receiver.Complete, hsta, hbit] at hc
    exact absurd rfl hc
  · obtain ⟨-, hbit, -⟩ := word_sawCr hk
    rw [Receiver.Complete, hsta, hbit] at hc
    exact absurd rfl hc
  · rename_i k
    obtain ⟨-, -, hcount, -⟩ := word_complete hk
    have hr : r.count = k := by rw [Receiver.count, hsta, hcount]
    have hline : r.line = bufLine r.buf k := by rw [Receiver.line, hr, bufLine]
    rw [hline, hr]
    exact ⟨Nat.le_of_lt_succ hk, hcr, hset⟩

/-- **The receiver.** In every run the indices used lie in the buffer, and a complete line consists
of the bytes in front of the carriage return and line feed that set bit 15, with no carriage
return among them; as long as bit 15 is set a received byte changes nothing. -/
theorem receiver_sound (buf : ℕ → UInt8) (es : List Event) :
    let r := Runs.exec step (.init buf) es
    (∀ i ∈ r.used, i < usartRecLen) ∧
    (r.Complete → r.count ≤ 199 ∧ 0x0D ∉ r.line ∧ SetByCrLf (.init buf) es r.line ∧
      ∀ res, usart1IRQHandler r res = r) := by
  refine ⟨used_lt buf es, fun hc => ?_⟩
  obtain ⟨hcount, hcr, hset⟩ := (follows_run buf es).of_complete hc
  exact ⟨hcount, hcr, hset, irq_complete hc⟩

end Usart

end Enc28j60Udp
