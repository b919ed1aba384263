import Enc28j60Udp.Usart.Receiver

/-!
# Where a delivered line starts

`USART1_IRQHandler` knows nothing of the line it is in but the word `USART_RX_STA`. It clears the
word when the 200th byte of a line comes in, and when a carriage return is not followed by a line
feed, and receives from there on as from the start. What it delivers is all that came in since the
word was last zero for one of three reasons: the start, a step of `usmart_scan` that cleared it
behind a delivered line, or such a reset (`line_since`). So the rest of a line that was given up is
delivered as a line of its own.
-/

namespace Enc28j60Udp

namespace Usart

/-- The byte `res` completes a line. -/
def Delivers (r : Receiver) (res : UInt8) : Prop :=
  ¬r.Complete ∧ (usart1IRQHandler r res).Complete

instance (r : Receiver) (res : UInt8) : Decidable (Delivers r res) :=
  inferInstanceAs (Decidable (_ ∧ _))

/-- The byte `res` makes the receiver give up the line: it does not follow a carriage return as it
should, or it is the last that the buffer takes. -/
def Resets (r : Receiver) (res : UInt8) : Prop :=
  ¬r.Complete ∧ if r.sta &&& 0x4000 ≠ 0 then res ≠ 0x0A else res ≠ 0x0D ∧ r.count = usartRecLen - 1

/-- `usmart_scan` has just cleared the word behind a delivered line. -/
def Consumed (r₀ : Receiver) (es : List Event) : Prop :=
  ∃ es', es = es' ++ [.scan] ∧ (Runs.exec step r₀ es').scan = .command

/-- The receiver has just given up a line. -/
def ResetStart (r₀ : Receiver) (es : List Event) : Prop :=
  ∃ es' res, es = es' ++ [.receive res] ∧ Resets (Runs.exec step r₀ es') res

/-- A line of the stream starts behind the events `es`: at the start-up, when a delivered line has
been consumed, or behind a carriage return and a line feed. -/
def CleanStart (r₀ : Receiver) (es : List Event) : Prop :=
  es = [] ∨ Consumed r₀ es ∨ [0x0D, 0x0A] <:+ received es

/-- The receiver starts afresh behind the events `es`. -/
def Restarts (r₀ : Receiver) (es : List Event) : Prop :=
  es = [] ∨ Consumed r₀ es ∨ ResetStart r₀ es

/-- What has been received since a place that satisfies `start` is `text`. -/
def ReceivedSince (start : List Event → Prop) (es : List Event) (text : List UInt8) : Prop :=
  ∃ es₀ es₁, es = es₀ ++ es₁ ∧ received es₁ = text ∧ start es₀

/-- What has been received since the last place that satisfies `start` is `text`. -/
def ReceivedSinceLast (start : List Event → Prop) (es : List Event) (text : List UInt8) : Prop :=
  ∃ es₀ es₁, es = es₀ ++ es₁ ∧ received es₁ = text ∧ start es₀ ∧
    ∀ es', es' <+: es₁ → es' ≠ [] → ¬start (es₀ ++ es')

theorem ReceivedSinceLast.refl {start : List Event → Prop} {es : List Event} (h : start es) :
    ReceivedSinceLast start es [] :=
  ⟨es, [], (List.append_nil es).symm, rfl, h,
    fun _ hpre hne => absurd (List.prefix_nil.mp hpre) hne⟩

theorem ReceivedSinceLast.snoc {start : List Event → Prop} {es : List Event} {text : List UInt8}
    (h : ReceivedSinceLast start es text) {e : Event} (he : ¬start (es ++ [e])) :
    ReceivedSinceLast start (es ++ [e]) (text ++ e.byte.toList) := by
  obtain ⟨es₀, es₁, rfl, htext, hstart, hlast⟩ := h
  refine ⟨es₀, es₁ ++ [e], List.append_assoc .., by rw [received_snoc, htext], hstart, ?_⟩
  intro es' hpre hne
  rcases List.prefix_concat_iff.mp hpre with rfl | hpre
  · rwa [← List.append_assoc]
  · exact hlast es' hpre hne

section Restarts

variable {r₀ : Receiver} {es : List Event}

/-- With a byte the receiver starts afresh only when it gives up a line. -/
theorem restarts_receive {res : UInt8} :
    Restarts r₀ (es ++ [.receive res]) ↔ Resets (Runs.exec step r₀ es) res := by
  constructor
  · rintro (hnil | ⟨es', hes, -⟩ | ⟨es', res', hes, h⟩)
    · exact absurd hnil (List.append_ne_nil_of_right_ne_nil es (List.cons_ne_nil _ _))
    · cases (List.append_inj' hes rfl).2
    · obtain ⟨rfl, hlast⟩ := List.append_inj' hes rfl
      cases hlast
      exact h
  · exact fun h => .inr (.inr ⟨es, res, rfl, h⟩)

/-- With a step of `usmart_scan` it starts afresh only when the command has run. -/
theorem restarts_scan :
    Restarts r₀ (es ++ [.scan]) ↔ (Runs.exec step r₀ es).scan = .command := by
  constructor
  · rintro (hnil | ⟨es', hes, h⟩ | ⟨es', res', hes, -⟩)
    · exact absurd hnil (List.append_ne_nil_of_right_ne_nil es (List.cons_ne_nil _ _))
    · obtain ⟨rfl, -⟩ := List.append_inj' hes rfl
      exact h
    · cases (List.append_inj' hes rfl).2
  · exact fun h => .inr (.inl ⟨es, rfl, h⟩)

end Restarts

/-- The line in the buffer is all that was received since the receiver last started afresh, unless
it is complete. -/
inductive Since (r₀ : Receiver) (es : List Event) (r : Receiver) : Prop
  | filling {k : ℕ} (hk : k < usartRecLen) (hsta : r.sta = word 0 k) (hscan : r.scan = .idle)
      (hrec : ReceivedSinceLast (Restarts r₀) es (bufLine r.buf k)) : Since r₀ es r
  | sawCr {k : ℕ} (hk : k < usartRecLen) (hsta : r.sta = word 0x4000 k) (hscan : r.scan = .idle)
      (hrec : ReceivedSinceLast (Restarts r₀) es (bufLine r.buf k ++ [0x0D])) : Since r₀ es r
  | complete (hc : r.Complete) : Since r₀ es r

section Since

variable {r₀ : Receiver} {es : List Event}

/-- A cleared word is right where the receiver starts afresh. -/
theorem Since.cleared {r : Receiver} (hstart : Restarts r₀ es) (hsta : r.sta = 0)
    (hscan : r.scan = .idle) : Since r₀ es r :=
  .filling (k := 0) (by decide) hsta hscan (by simpa [bufLine] using .refl hstart)

/-- While a line is being filled, the receiver gives it up with the byte that makes the count
200. -/
theorem resets_filling {r : Receiver} {k : ℕ} (hk : k < usartRecLen) (hsta : r.sta = word 0 k)
    (res : UInt8) : Resets r res ↔ res ≠ 0x0D ∧ k + 1 = usartRecLen := by
  obtain ⟨h₈, h₄, hcount, -⟩ := word_filling hk
  rw [Resets, Receiver.Complete, Receiver.count, hsta, h₈, h₄, hcount,
    if_neg (not_not.mpr rfl), and_iff_right (not_not.mpr rfl)]
  refine and_congr_right fun _ => ?_
  unfold usartRecLen at *
  omega

/-- Behind a carriage return it gives the line up with anything but a line feed. -/
theorem resets_sawCr {r : Receiver} {k : ℕ} (hk : k < usartRecLen) (hsta : r.sta = word 0x4000 k)
    (res : UInt8) : Resets r res ↔ res ≠ 0x0A := by
  obtain ⟨-, h₈, h₄, -⟩ := word_sawCr hk
  rw [Resets, Receiver.Complete, hsta, h₈, if_pos h₄, and_iff_right (not_not.mpr rfl)]

/-- A received byte keeps the invariant. -/
theorem since_receive (h : Since r₀ es (Runs.exec step r₀ es)) (res : UInt8) :
    Since r₀ (es ++ [.receive res]) (usart1IRQHandler (Runs.exec step r₀ es) res) := by
  rcases h with ⟨hk, hsta, hscan, hrec⟩ | ⟨hk, hsta, hscan, hrec⟩ | hc
  · rename_i k
    have hresets : Restarts r₀ (es ++ [.receive res]) ↔ res ≠ 0x0D ∧ k + 1 = usartRecLen :=
      restarts_receive.trans (resets_filling hk hsta res)
    rw [irq_filling hk hsta]
    split_ifs with hres hnext
    · exact .sawCr hk rfl hscan (hres ▸ hrec.snoc fun h => (hresets.mp h).1 hres)
    · refine .filling hnext rfl hscan ?_
      rw [Receiver.storeBuf, bufLine_update_succ]
      exact hrec.snoc fun h => Nat.ne_of_lt hnext (hresets.mp h).2
    · -- the last byte the buffer takes
      exact .cleared (hresets.mpr ⟨hres, by omega⟩) rfl hscan
  · rename_i k
    obtain ⟨-, hset, -⟩ := word_complete hk
    rw [irq_sawCr hk hsta]
    split_ifs with hres
    · exact .complete hset
    · -- a carriage return without its line feed
      exact .cleared (restarts_receive.mpr ((resets_sawCr hk hsta res).mpr hres)) rfl hscan
  · rw [irq_complete hc]
    exact .complete hc

/-- A step of `usmart_scan` keeps the invariant. -/
theorem since_scan (h : Since r₀ es (Runs.exec step r₀ es)) :
    Since r₀ (es ++ [.scan]) (usmartScan (Runs.exec step r₀ es)) := by
  have hwaits (hscan : (Runs.exec step r₀ es).scan = .idle) : ¬Restarts r₀ (es ++ [.scan]) := by
    rw [restarts_scan, hscan]
    exact nofun
  rcases h with ⟨hk, hsta, hscan, hrec⟩ | ⟨hk, hsta, hscan, hrec⟩ | hc
  · obtain ⟨hbit, -⟩ := word_filling hk
    rw [scan_waits hscan (by rw [hsta, hbit])]
    exact .filling hk hsta hscan (by simpa [Event.byte] using hrec.snoc (hwaits hscan))
  · obtain ⟨-, hbit, -⟩ := word_sawCr hk
    rw [scan_waits hscan (by rw [hsta, hbit])]
    exact .sawCr hk hsta hscan (by simpa [Event.byte] using hrec.snoc (hwaits hscan))
  · rw [usmartScan]
    cases hpc : (Runs.exec step r₀ es).scan with
    | idle =>
      have hbit : (Runs.exec step r₀ es).sta &&& 0x8000 ≠ 0 := hc
      dsimp only
      rw [if_pos hbit]
      exact .complete hc
    | tested => exact .complete hc
    | store len => exact .complete hc
    | command => exact .cleared (restarts_scan.mpr hpc) rfl rfl

end Since

/-- Every run from the start keeps the invariant. -/
theorem since_run (buf : ℕ → UInt8) (es : List Event) :
    Since (.init buf) es (Runs.exec step (.init buf) es) := by
  induction es using List.reverseRecOn with
  | nil => exact .cleared (.inl rfl) rfl rfl
  | append_singleton es e ih =>
    rw [Runs.exec_append]
    cases e with
    | receive res => exact since_receive ih res
    | scan => exact since_scan ih

theorem cleared_bit : (0 : UInt16) &&& 0x8000 = 0 := by decide

/-- A byte of the line, or its carriage return, does not complete it. -/
theorem irq_filling_not_complete {r : Receiver} {k : ℕ} (hk : k < usartRecLen)
    (hsta : r.sta = word 0 k) (res : UInt8) : ¬(usart1IRQHandler r res).Complete := by
  rw [irq_filling hk hsta]
  split_ifs with hres hnext
  · exact not_not.mpr (word_sawCr hk).2.1
  · exact not_not.mpr (word_filling hnext).1
  · exact not_not.mpr cleared_bit

/-- **Delivered lines.** A line is completed by a line feed, and it is, with its carriage return,
all that was received since the receiver last started afresh. -/
theorem line_since (buf : ℕ → UInt8) (es : List Event) (res : UInt8)
    (h : Delivers (Runs.exec step (.init buf) es) res) :
    res = 0x0A ∧
    ReceivedSinceLast (Restarts (.init buf)) es
      ((usart1IRQHandler (Runs.exec step (.init buf) es) res).line ++ [0x0D]) := by
  obtain ⟨hbefore, hafter⟩ := h
  rcases since_run buf es with ⟨hk, hsta, -, -⟩ | ⟨hk, hsta, -, hrec⟩ | hc
  · exact absurd hafter (irq_filling_not_complete hk hsta res)
  · rename_i k
    have hirq := irq_sawCr hk hsta res
    by_cases hres : res = 0x0A
    · rw [if_pos hres] at hirq
      refine ⟨hres, ?_⟩
      have hcount : (usart1IRQHandler (Runs.exec step (.init buf) es) res).count = k := by
        rw [hirq, Receiver.count]
        exact (word_complete hk).2.2.1
      rw [Receiver.line, hcount, hirq]
      exact hrec
    · rw [if_neg hres] at hirq
      rw [hirq] at hafter
      exact absurd cleared_bit hafter
  · exact absurd hc hbefore

/-- A carriage return that is not followed by a line feed, and the bytes 0A 78 behind it as a
line. -/
theorem line_since_reset :
    let es : List Event := [0x0D, 0x0D, 0x0A, 0x78, 0x0D].map .receive
    (usart1IRQHandler (Runs.exec step (.init fun _ => 0) es) 0x0A).line = [0x0A, 0x78] ∧
      (0x0A : UInt8) = 0x0A ∧
      ReceivedSinceLast (Restarts (.init fun _ => 0)) es
        ((usart1IRQHandler (Runs.exec step (.init fun _ => 0) es) 0x0A).line ++ [0x0D]) :=
  ⟨by decide, line_since (fun _ => 0) _ 0x0A (by decide)⟩

/-- The bytes come in while `usmart_scan` is busy elsewhere. -/
def bytesOf (text : List UInt8) : List Event := text.map .receive

/-- Among bytes without a line feed only the start-up starts a line of the stream. -/
theorem ReceivedSince.eq_of_bytesOf {r₀ : Receiver} {text line : List UInt8}
    (h : ReceivedSince (CleanStart r₀) (bytesOf text) line) (hlf : 0x0A ∉ text) : line = text := by
  obtain ⟨es₀, es₁, hes, rfl, hstart⟩ := h
  obtain ⟨pre, post, rfl, rfl, rfl⟩ := List.map_eq_append_iff.1 hes
  have hbytes : ∀ l : List UInt8, received (l.map .receive) = l := fun l => by
    simp [received, List.filterMap_map, Function.comp_def, Event.byte]
  rw [hbytes]
  rcases hstart with hnil | ⟨es', hes', -⟩ | hcrlf
  · rw [List.map_eq_nil_iff.1 hnil, List.nil_append]
  · have hmem : Event.scan ∈ pre.map .receive := by simp [hes']
    simp at hmem
  · rw [hbytes] at hcrlf
    exact absurd (List.mem_append_left post (hcrlf.subset (by simp))) hlf

/-- A line whose carriage return is not followed by a line feed, and the next carriage return. -/
def badCr : List UInt8 := [0x61, 0x0D, 0x61, 0x62, 0x0D]

/-- A line of 201 bytes and its carriage return. -/
def overlong : List UInt8 := List.replicate 200 0x61 ++ [0x62, 0x0D]

/-- The receiver when these bytes have come in since the start. -/
def receiverAt (text : List UInt8) : Receiver :=
  Runs.exec step (.init fun _ => 0) (bytesOf text)

/-- A line feed delivers the tail of either line, which is no line of the stream. -/
theorem line_tail_delivered :
    (Delivers (receiverAt badCr) 0x0A ∧ (usart1IRQHandler (receiverAt badCr) 0x0A).line = [0x62] ∧
      ¬ReceivedSince (CleanStart (.init fun _ => 0)) (bytesOf badCr) ([0x62] ++ [0x0D])) ∧
    (Delivers (receiverAt overlong) 0x0A ∧
      (usart1IRQHandler (receiverAt overlong) 0x0A).line = [0x62] ∧
      ¬ReceivedSince (CleanStart (.init fun _ => 0)) (bytesOf overlong) ([0x62] ++ [0x0D])) := by
  refine ⟨⟨by decide, by decide, fun h => ?_⟩, by decide +kernel, by decide +kernel, fun h => ?_⟩
  · exact absurd (h.eq_of_bytesOf (by decide)) (by decide)
  · exact absurd (h.eq_of_bytesOf (by decide +kernel)) (by decide +kernel)

end Usart

end Enc28j60Udp
