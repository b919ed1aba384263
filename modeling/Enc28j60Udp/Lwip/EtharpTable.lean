import Mathlib.Algebra.BigOperators.Group.Finset.Piecewise
import Mathlib.Algebra.Order.Group.Multiset
import Mathlib.Tactic.Abel
import Enc28j60Udp.Lwip.Etharp

/-!
# The table of ARP

What each function of the module keeps (`Etharp.Inv`): an address has one entry, a packet waits in
an entry without a hardware address only, and an entry with one has the address that was announced
last. The packets that were sent, that wait and that were freed are together the packets that were
taken (`Etharp.ledger`), so that none is lost and none is sent twice.

The invariant has a parameter for what the functions may do, `A`, and one for the addresses that are
known.
-/

namespace Enc28j60Udp

namespace Lwip

/-! ## Fields -/

namespace Etharp

variable {s : Etharp} {i j : ℕ} {f g : EtharpEntry → EtharpEntry} {a : EtharpAct}

@[simp] theorem set_cached : (s.set i f).cached = s.cached := rfl

@[simp] theorem set_acts : (s.set i f).acts = s.acts := rfl

@[simp] theorem set_table_self : (s.set i f).table i = f (s.table i) := Function.update_self ..

theorem set_table_of_ne (hj : j ≠ i) : (s.set i f).table j = s.table j :=
  Function.update_of_ne hj ..

theorem set_set : (s.set i f).set i g = s.set i fun e => g (f e) := by
  rw [set, set_table_self, set, set, Function.update_idem]

@[simp] theorem act_table : (s.act a).table = s.table := rfl

@[simp] theorem act_cached : (s.act a).cached = s.cached := rfl

@[simp] theorem act_acts : (s.act a).acts = s.acts ++ [a] := rfl

@[simp] theorem dropQ_table : (s.dropQ i).table = s.table := by
  rw [dropQ]
  cases (s.table i).q <;> rfl

@[simp] theorem dropQ_cached : (s.dropQ i).cached = s.cached := by
  rw [dropQ]
  cases (s.table i).q <;> rfl

end Etharp

section Free

variable {s : Etharp} {i j : ℕ}

theorem etharpFreeEntry_table_self :
    (etharpFreeEntry s i).table i = { s.table i with q := none, state := .empty } := by
  rw [etharpFreeEntry, Etharp.set_table_self, Etharp.dropQ_table]

theorem etharpFreeEntry_table_of_ne (hj : j ≠ i) : (etharpFreeEntry s i).table j = s.table j := by
  rw [etharpFreeEntry, Etharp.set_table_of_ne hj, Etharp.dropQ_table]

end Free

/-! ## Packets -/

/-- A packet and the address for which it is. -/
abbrev Parcel := UInt32 × List UInt8

/-- The packet that waits. -/
def EtharpEntry.parcels (e : EtharpEntry) : Multiset Parcel := e.q.elim 0 fun p => {(e.ipaddr, p)}

/-- The packet that is sent. -/
def EtharpAct.sent : EtharpAct → Multiset Parcel
  | sendIp ipaddr p _ => {(ipaddr, p)}
  | link _ | drop _ _ => 0

/-- The packet that is freed. -/
def EtharpAct.dropped : EtharpAct → Multiset Parcel
  | drop ipaddr p => {(ipaddr, p)}
  | sendIp _ _ _ | link _ => 0

namespace Etharp

/-- The packets that wait. -/
def waiting (s : Etharp) : Multiset Parcel :=
  ∑ i ∈ Finset.range arpTableSize, (s.table i).parcels

/-- The packets that were sent. -/
def sent (s : Etharp) : Multiset Parcel := (s.acts.map EtharpAct.sent).sum

/-- The packets that were freed. -/
def dropped (s : Etharp) : Multiset Parcel := (s.acts.map EtharpAct.dropped).sum

/-- All the packets that were taken. -/
def ledger (s : Etharp) : Multiset Parcel := s.sent + s.waiting + s.dropped

section Ledger

variable {s : Etharp} {i : ℕ} {f : EtharpEntry → EtharpEntry} {a : EtharpAct}

theorem ledger_act : (s.act a).ledger = s.ledger + (a.sent + a.dropped) := by
  have hwaiting : (s.act a).waiting = s.waiting := rfl
  simp only [ledger, sent, dropped, act_acts, List.map_append, List.sum_append, List.map_cons,
    List.map_nil, List.sum_cons, List.sum_nil, add_zero, hwaiting]
  abel

theorem ledger_set (hi : i < arpTableSize) :
    (s.set i f).ledger + (s.table i).parcels = s.ledger + (f (s.table i)).parcels := by
  have hmem : i ∈ Finset.range arpTableSize := Finset.mem_range.mpr hi
  have hrest : ∑ j ∈ (Finset.range arpTableSize).erase i, ((s.set i f).table j).parcels =
      ∑ j ∈ (Finset.range arpTableSize).erase i, (s.table j).parcels :=
    Finset.sum_congr rfl fun j hj => by rw [set_table_of_ne (Finset.ne_of_mem_erase hj)]
  have hwaiting : (s.set i f).waiting + (s.table i).parcels =
      s.waiting + (f (s.table i)).parcels := by
    rw [waiting, waiting, ← Finset.add_sum_erase _ _ hmem, ← Finset.add_sum_erase _ _ hmem, hrest,
      set_table_self]
    abel
  have hsent : (s.set i f).sent = s.sent := rfl
  have hdropped : (s.set i f).dropped = s.dropped := rfl
  rw [ledger, ledger, hsent, hdropped, add_right_comm, add_assoc s.sent, hwaiting]
  abel

end Ledger

end Etharp

/-! ## The invariant -/

/-- The entry is for an address. -/
def EtharpEntry.Used (e : EtharpEntry) : Prop := e.state ≠ .empty

/-- The table is as the functions leave it; behind `base` only what `A` allows was done, and
`total` are the packets that were taken. -/
structure Etharp.Inv (A : EtharpAct → Prop) (known : UInt32 → Option (List UInt8))
    (base : List EtharpAct) (total : Multiset Parcel) (s : Etharp) : Prop where
  cached_lt : s.cached < arpTableSize
  unique : ∀ i < arpTableSize, ∀ j < arpTableSize, (s.table i).Used → (s.table j).Used →
    (s.table i).ipaddr = (s.table j).ipaddr → i = j
  waits : ∀ i < arpTableSize, (s.table i).q ≠ none → (s.table i).state = .pending
  learned : ∀ i < arpTableSize, (s.table i).state.geStable = true →
    known (s.table i).ipaddr = some (s.table i).ethaddr
  acts : ∃ l, s.acts = base ++ l ∧ ∀ a ∈ l, A a
  ledger : s.ledger = total

theorem EtharpState.geStable_iff {st : EtharpState} :
    st.geStable = true ↔ st ≠ .empty ∧ st ≠ .pending := by
  cases st <;> simp [geStable]

theorem EtharpState.geStable_ne_empty {st : EtharpState} (h : st.geStable = true) :
    st ≠ .empty :=
  (geStable_iff.mp h).1

namespace Etharp.Inv

variable {A : EtharpAct → Prop} {known : UInt32 → Option (List UInt8)} {base : List EtharpAct}
  {total : Multiset Parcel} {s : Etharp} {i : ℕ}

/-- Fields of an entry are set, and other addresses may be known then. -/
theorem set_known (h : s.Inv A known base total) (hi : i < arpTableSize)
    (f : EtharpEntry → EtharpEntry) {known' : UInt32 → Option (List UInt8)}
    (hknown : ∀ j < arpTableSize, j ≠ i → (s.table j).Used →
      known' (s.table j).ipaddr = known (s.table j).ipaddr)
    (halone : (f (s.table i)).Used → ∀ j < arpTableSize, j ≠ i → (s.table j).Used →
      (s.table j).ipaddr ≠ (f (s.table i)).ipaddr)
    (hwaits : (f (s.table i)).q ≠ none → (f (s.table i)).state = .pending)
    (hlearned : (f (s.table i)).state.geStable = true →
      known' (f (s.table i)).ipaddr = some (f (s.table i)).ethaddr)
    {total' : Multiset Parcel}
    (htotal : total' + (s.table i).parcels = total + (f (s.table i)).parcels) :
    (s.set i f).Inv A known' base total' := by
  have hentry (P : EtharpEntry → Prop) (j : ℕ) (hself : P (f (s.table i)))
      (hother : j ≠ i → P (s.table j)) : P ((s.set i f).table j) := by
    by_cases hj : j = i
    · rw [hj, set_table_self]
      exact hself
    · rw [set_table_of_ne hj]
      exact hother hj
  refine ⟨h.cached_lt, fun j hj k hk hused hused' hip => ?_, fun j hj => ?_, fun j hj => ?_, h.acts,
    ?_⟩
  · by_cases hji : j = i <;> by_cases hki : k = i
    · rw [hji, hki]
    · rw [hji, set_table_self] at hused hip
      rw [set_table_of_ne hki] at hused' hip
      exact absurd hip.symm (halone hused k hk hki hused')
    · rw [hki, set_table_self] at hused' hip
      rw [set_table_of_ne hji] at hused hip
      exact absurd hip (halone hused' j hj hji hused)
    · rw [set_table_of_ne hji] at hused hip
      rw [set_table_of_ne hki] at hused' hip
      exact h.unique j hj k hk hused hused' hip
  · exact hentry (fun e => e.q ≠ none → e.state = .pending) j hwaits fun _ => h.waits j hj
  · refine hentry (fun e => e.state.geStable = true → known' e.ipaddr = some e.ethaddr) j hlearned
      fun hne hst => ?_
    rw [hknown j hj hne (EtharpState.geStable_ne_empty hst)]
    exact h.learned j hj hst
  · have hset := ledger_set (s := s) (f := f) hi
    rw [h.ledger, ← htotal] at hset
    exact add_right_cancel hset

/-- Fields of an entry are set. -/
theorem set (h : s.Inv A known base total) (hi : i < arpTableSize) (f : EtharpEntry → EtharpEntry)
    (halone : (f (s.table i)).Used → ∀ j < arpTableSize, j ≠ i → (s.table j).Used →
      (s.table j).ipaddr ≠ (f (s.table i)).ipaddr)
    (hwaits : (f (s.table i)).q ≠ none → (f (s.table i)).state = .pending)
    (hlearned : (f (s.table i)).state.geStable = true →
      known (f (s.table i)).ipaddr = some (f (s.table i)).ethaddr)
    {total' : Multiset Parcel}
    (htotal : total' + (s.table i).parcels = total + (f (s.table i)).parcels) :
    (s.set i f).Inv A known base total' :=
  h.set_known hi f (fun _ _ _ _ => rfl) halone hwaits hlearned htotal

/-- An entry that is in use is alone with its address. -/
theorem alone (h : s.Inv A known base total) (hi : i < arpTableSize) (hused : (s.table i).Used) :
    ∀ j < arpTableSize, j ≠ i → (s.table j).Used → (s.table j).ipaddr ≠ (s.table i).ipaddr :=
  fun j hj hne hused' hip => hne (h.unique j hj i hi hused' hused hip)

/-- No packet waits in an entry that is not in use. -/
theorem q_eq_none (h : s.Inv A known base total) (hi : i < arpTableSize)
    (hstate : (s.table i).state ≠ .pending) : (s.table i).q = none := by
  by_contra hq
  exact hstate (h.waits i hi hq)

/-- Something is done that is allowed. -/
theorem act (h : s.Inv A known base total) {a : EtharpAct} (ha : A a) :
    (s.act a).Inv A known base (total + (a.sent + a.dropped)) := by
  obtain ⟨l, hl, hA⟩ := h.acts
  refine ⟨h.cached_lt, h.unique, h.waits, h.learned, ⟨l ++ [a], ?_, ?_⟩, ?_⟩
  · rw [act_acts, hl, List.append_assoc]
  · rw [List.forall_mem_append, List.forall_mem_singleton]
    exact ⟨hA, ha⟩
  · rw [ledger_act, h.ledger]

/-- An ARP packet is sent. -/
theorem link (h : s.Inv A known base total) {frame : List UInt8} (ha : A (.link frame)) :
    (s.act (.link frame)).Inv A known base total :=
  (add_zero total ▸ h.act ha :)

/-- The packet that waits is freed, or there is none. -/
theorem dropQ (h : s.Inv A known base total)
    (hdrop : ∀ p, (s.table i).q = some p → A (.drop (s.table i).ipaddr p)) :
    (s.dropQ i).Inv A known base (total + (s.table i).parcels) := by
  rw [Etharp.dropQ, EtharpEntry.parcels]
  cases hq : (s.table i).q with
  | none => exact (add_zero total).symm ▸ h
  | some p =>
    have hact := h.act (hdrop p hq)
    rw [EtharpAct.sent, zero_add] at hact
    exact hact

theorem etharpFreeEntry (h : s.Inv A known base total) (hi : i < arpTableSize)
    (hdrop : ∀ p, (s.table i).q = some p → A (.drop (s.table i).ipaddr p)) :
    (Lwip.etharpFreeEntry s i).Inv A known base total := by
  refine (h.dropQ hdrop).set hi _ ?_ ?_ ?_ ?_
  · exact fun hused => absurd rfl hused
  · exact fun hq => absurd rfl hq
  · exact fun hstable => absurd hstable Bool.false_ne_true
  · rw [dropQ_table]
    exact (add_zero _).symm

/-- The entry is for the same packet and the same addresses as before. -/
theorem renew (h : s.Inv A known base total) (hi : i < arpTableSize)
    (f : EtharpEntry → EtharpEntry) (hq : (f (s.table i)).q = (s.table i).q)
    (hip : (f (s.table i)).ipaddr = (s.table i).ipaddr)
    (heth : (f (s.table i)).ethaddr = (s.table i).ethaddr)
    (hused : (f (s.table i)).Used → (s.table i).Used)
    (hpending : (s.table i).state = .pending → (f (s.table i)).state = .pending)
    (hstable : (f (s.table i)).state.geStable = true → (s.table i).state.geStable = true) :
    (s.set i f).Inv A known base total := by
  refine h.set hi f (fun hu => ?_) (fun hne => ?_) (fun hst => ?_) ?_
  · rw [hip]
    exact h.alone hi (hused hu)
  · exact hpending (h.waits i hi (hq ▸ hne))
  · rw [hip, heth]
    exact h.learned i hi (hstable hst)
  · rw [EtharpEntry.parcels, EtharpEntry.parcels, hq, hip]

/-! ## The timer -/

theorem etharpTmrEntry (h : s.Inv A known base total) (hi : i < arpTableSize)
    (hA : ∀ a p, A (.drop a p)) : (Lwip.etharpTmrEntry s i).Inv A known base total := by
  rw [Lwip.etharpTmrEntry]
  split_ifs with hempty
  · exact h
  have htick : (s.set i fun e => { e with ctime := (e.ctime + 1) % 2 ^ 8 }).Inv A known base
      total := h.renew hi _ rfl rfl rfl id id id
  dsimp only
  split_ifs with hold hagain
  · exact htick.etharpFreeEntry hi fun p _ => hA _ p
  · refine htick.renew hi _ rfl rfl rfl ?_ ?_ ?_
    · intro _ hstate
      rw [hagain] at hstate
      cases hstate
    · intro hstate
      rw [hagain] at hstate
      cases hstate
    · intro _
      rw [hagain]
      rfl
  · exact htick

/-- A loop over the table whose body keeps the invariant. -/
theorem foldl {f : Etharp → ℕ → Etharp} (h : s.Inv A known base total)
    (hf : ∀ (s : Etharp) (i : ℕ), i < arpTableSize → s.Inv A known base total →
      (f s i).Inv A known base total) :
    ((List.range arpTableSize).foldl f s).Inv A known base total := by
  refine List.foldlRecOn (motive := fun s => s.Inv A known base total) _ f h fun s hs i hi => ?_
  exact hf s i (List.mem_range.mp hi) hs

theorem etharpTmr (h : s.Inv A known base total) (hA : ∀ a p, A (.drop a p)) :
    (Lwip.etharpTmr s).Inv A known base total :=
  h.foldl fun _ _ hi hs => hs.etharpTmrEntry hi hA

theorem etharpCleanupNetif (h : s.Inv A known base total) (hA : ∀ a p, A (.drop a p)) :
    (Lwip.etharpCleanupNetif s).Inv A known base total := by
  refine h.foldl fun s i hi hs => ?_
  rw [cleanupEntry]
  split_ifs
  · exact hs.etharpFreeEntry hi fun p _ => hA _ p
  · exact hs

end Etharp.Inv

/-! ## The search -/

section Search

variable {table : ℕ → EtharpEntry}

/-- The candidates are right, and there is one without a packet if there was such an entry. -/
structure Candidates.For (c : Candidates) (table : ℕ → EtharpEntry) (seen : List ℕ) : Prop where
  empty : c.empty ≠ arpTableSize → c.empty < arpTableSize ∧ (table c.empty).state = .empty
  stable : c.oldStable < arpTableSize → (table c.oldStable).state.geStable = true
  pending : c.oldPending < arpTableSize → (table c.oldPending).q = none
  ageStable : c.ageStable ≠ 0 → c.oldStable < arpTableSize
  agePending : c.agePending ≠ 0 → c.oldPending < arpTableSize
  spare : ∀ j ∈ seen, (table j).q = none →
    c.empty < arpTableSize ∨ c.oldStable < arpTableSize ∨ c.oldPending < arpTableSize

namespace Candidates.For

variable {c : Candidates} {seen : List ℕ} {i : ℕ}

/-- Before the search there are no candidates. -/
theorem start : Candidates.For
    ⟨arpTableSize, arpTableSize, arpTableSize, arpTableSize, 0, 0, 0⟩ table [] :=
  ⟨fun hne => absurd rfl hne, fun hlt => absurd hlt (lt_irrefl _),
    fun hlt => absurd hlt (lt_irrefl _), fun hne => absurd rfl hne, fun hne => absurd rfl hne,
    fun _ hj => absurd hj List.not_mem_nil⟩

/-- An entry that is no candidate. -/
theorem cons (h : c.For table seen) (hi : (table i).q = none → c.empty < arpTableSize ∨
    c.oldStable < arpTableSize ∨ c.oldPending < arpTableSize) : c.For table (i :: seen) :=
  ⟨h.empty, h.stable, h.pending, h.ageStable, h.agePending,
    List.forall_mem_cons.mpr ⟨hi, h.spare⟩⟩

theorem see (h : c.For table seen) (hi : i < arpTableSize) :
    (c.see i (table i)).For table (i :: seen) := by
  rw [Candidates.see]
  split_ifs with hstate hempty hpending hq hage hage hage
  · exact ⟨fun _ => ⟨hi, hstate⟩, h.stable, h.pending, h.ageStable, h.agePending,
      fun _ _ _ => .inl hi⟩
  · exact h.cons fun _ => .inl (h.empty hempty).1
  · have hc := h.cons fun hnone => absurd hq (by rw [hnone]; exact Bool.false_ne_true)
    exact ⟨hc.empty, hc.stable, hc.pending, hc.ageStable, hc.agePending, hc.spare⟩
  · exact h.cons fun hnone => absurd hq (by rw [hnone]; exact Bool.false_ne_true)
  · have hnone : (table i).q = none := Option.not_isSome_iff_eq_none.mp hq
    exact ⟨h.empty, h.stable, fun _ => hnone, h.ageStable, fun _ => hi,
      fun _ _ _ => .inr (.inr hi)⟩
  · exact h.cons fun _ => .inr (.inr (h.agePending (by omega)))
  · have hst : (table i).state.geStable = true := EtharpState.geStable_iff.mpr ⟨hstate, hpending⟩
    exact ⟨h.empty, fun _ => hst, h.pending, fun _ => hi, h.agePending,
      fun _ _ _ => .inr (.inl hi)⟩
  · exact h.cons fun _ => .inr (.inl (h.ageStable (by omega)))

/-- The entry that is recycled; a packet waits in it only if one waits in every entry. -/
theorem recycle {A : EtharpAct → Prop} {known : UInt32 → Option (List UInt8)}
    {base : List EtharpAct} {total : Multiset Parcel} {s : Etharp}
    (h : c.For s.table seen) (hs : s.Inv A known base total) (hempty : ¬c.empty < arpTableSize)
    (hi : c.recycle = some i) : i < arpTableSize ∧
      ((s.table i).q ≠ none → ∀ j ∈ seen, (s.table j).q ≠ none) := by
  rw [Candidates.recycle] at hi
  split_ifs at hi with hstable hpending hqueue <;> cases hi
  · have hst := EtharpState.geStable_iff.mp (h.stable hstable)
    exact ⟨hstable, fun hq => absurd (hs.q_eq_none hstable hst.2) hq⟩
  · exact ⟨hpending, fun hq => absurd (h.pending hpending) hq⟩
  · refine ⟨hqueue, fun _ j hj hq => ?_⟩
    rcases h.spare j hj hq with h | h | h <;> contradiction

end Candidates.For

/-- The search finds an entry with the address, or there is none and the candidates are right. -/
theorem findLoop_cases (ipaddr : UInt32) (l seen : List ℕ) {c : Candidates} (hc : c.For table seen)
    (hl : ∀ j ∈ l, j < arpTableSize) :
    (∃ i ∈ l, findLoop table ipaddr l c = .inl i ∧ (table i).Used ∧ (table i).ipaddr = ipaddr) ∨
      ∃ c', findLoop table ipaddr l c = .inr c' ∧ c'.For table (l.reverse ++ seen) ∧
        ∀ j ∈ l, (table j).Used → (table j).ipaddr ≠ ipaddr := by
  induction l generalizing seen c with
  | nil => exact .inr ⟨c, rfl, hc, fun j hj => absurd hj List.not_mem_nil⟩
  | cons i l ih =>
    obtain ⟨hi, hl⟩ := List.forall_mem_cons.mp hl
    rw [findLoop, List.reverse_cons, List.append_assoc, List.singleton_append]
    split_ifs with hfound
    · exact .inl ⟨i, List.mem_cons_self, rfl, hfound.1, hfound.2.symm⟩
    have hne (hused : (table i).Used) : (table i).ipaddr ≠ ipaddr :=
      fun hip => hfound ⟨hused, hip.symm⟩
    rcases ih (i :: seen) (hc.see hi) hl with ⟨j, hj, hj'⟩ | ⟨c', hloop, hfor, hall⟩
    · exact .inl ⟨j, List.mem_cons_of_mem i hj, hj'⟩
    · exact .inr ⟨c', hloop, hfor, List.forall_mem_cons.mpr ⟨hne, hall⟩⟩

end Search

/-- What an error code says of the packet that was given. -/
def taken (err : Err) (x : Parcel) : Multiset Parcel := if err = .ok then {x} else 0

/-- `A` allows to ask for `ipaddr`, to send a packet for a known address to it, and to free packets
when one waits in every entry of `s`. -/
structure Allows (A : EtharpAct → Prop) (known : UInt32 → Option (List UInt8)) (netif : Netif)
    (s : Etharp) (ipaddr : UInt32) : Prop where
  full : (∀ j < arpTableSize, (s.table j).q ≠ none) → ∀ a p, A (.drop a p)
  request : A (.link (requestPacket netif ipaddr))
  send : ∀ a p dst, known a = some dst → A (.sendIp a p (ethHdr dst netif.hwaddr 0x0800 ++ p))

/-- Entry `i` is the one for `ipaddr`. -/
structure Found (s : Etharp) (ipaddr : UInt32) (i : ℕ) : Prop where
  lt : i < arpTableSize
  ipaddr_eq : (s.table i).ipaddr = ipaddr
  alone : ∀ j < arpTableSize, j ≠ i → (s.table j).Used → (s.table j).ipaddr ≠ ipaddr

namespace Etharp.Inv

variable {A : EtharpAct → Prop} {known : UInt32 → Option (List UInt8)} {base : List EtharpAct}
  {total : Multiset Parcel} {s : Etharp} {ipaddr : UInt32} {i : ℕ}

/-- An entry that is not in use is taken for an address. -/
theorem claim (h : s.Inv A known base total) (hi : i < arpTableSize)
    (hstate : (s.table i).state = .empty)
    (hnone : ∀ j < arpTableSize, (s.table j).Used → (s.table j).ipaddr ≠ ipaddr) :
    (s.set i fun e => { e with ipaddr, ctime := 0 }).Inv A known base total ∧
      Found (s.set i fun e => { e with ipaddr, ctime := 0 }) ipaddr i := by
  have hq : (s.table i).q = none := h.q_eq_none hi (by rw [hstate]; exact nofun)
  constructor
  · refine h.set hi _ ?_ ?_ ?_ ?_
    · exact fun hused => absurd hstate hused
    · exact fun hne => absurd hq hne
    · intro hst
      exact absurd hstate (EtharpState.geStable_ne_empty hst)
    · rw [EtharpEntry.parcels, EtharpEntry.parcels, hq]
      rfl
  · refine ⟨hi, by rw [set_table_self], fun j hj hne => ?_⟩
    rw [set_table_of_ne hne]
    exact hnone j hj

/-- `etharp_find_entry` returns the entry for the address, or there is none; it frees a packet only
when one waits in every entry. -/
theorem etharpFindEntry (h : s.Inv A known base total) (ipaddr : UInt32) (tryHard : Bool)
    (hdrop : (∀ j < arpTableSize, (s.table j).q ≠ none) → ∀ a p, A (.drop a p)) :
    (Lwip.etharpFindEntry s ipaddr tryHard = (none, s) ∧
        ∀ j < arpTableSize, (s.table j).Used → (s.table j).ipaddr ≠ ipaddr) ∨
      ∃ i s', Lwip.etharpFindEntry s ipaddr tryHard = (some i, s') ∧
        s'.Inv A known base total ∧ Found s' ipaddr i := by
  rw [Lwip.etharpFindEntry]
  rcases findLoop_cases ipaddr (List.range arpTableSize) [] Candidates.For.start
    fun j hj => List.mem_range.mp hj with
    ⟨i, hi, hloop, hused, hip⟩ | ⟨c, hloop, hc, hall⟩
  · rw [hloop]
    have hi := List.mem_range.mp hi
    exact .inr ⟨i, s, rfl, h, hi, hip, hip ▸ h.alone hi hused⟩
  have hnone : ∀ j < arpTableSize, (s.table j).Used → (s.table j).ipaddr ≠ ipaddr :=
    fun j hj => hall j (List.mem_range.mpr hj)
  rw [hloop]
  dsimp only
  split_ifs with hfind hempty
  · exact .inl ⟨rfl, hnone⟩
  · exact .inr ⟨_, _, rfl, h.claim hempty (hc.empty (Nat.ne_of_lt hempty)).2 hnone⟩
  · cases hrec : c.recycle with
    | none => exact .inl ⟨rfl, hnone⟩
    | some i =>
      obtain ⟨hi, hwait⟩ := hc.recycle h hempty hrec
      have hfreed : (Lwip.etharpFreeEntry s i).Inv A known base total := by
        refine h.etharpFreeEntry hi fun p hp => hdrop (fun j hj => ?_) _ p
        refine hwait (by rw [hp]; exact nofun) j ?_
        rw [List.append_nil, List.mem_reverse]
        exact List.mem_range.mpr hj
      refine .inr ⟨_, _, rfl, hfreed.claim hi ?_ ?_⟩
      · rw [etharpFreeEntry_table_self]
      · intro j hj hused
        by_cases hji : j = i
        · rw [hji, etharpFreeEntry_table_self] at hused
          exact absurd rfl hused
        · rw [etharpFreeEntry_table_of_ne hji] at hused ⊢
          exact hnone j hj hused

/-- The entry of an address is found. -/
theorem etharpFindEntry_used (h : s.Inv A known base total) (hi : i < arpTableSize)
    (hused : (s.table i).Used) (tryHard : Bool) :
    Lwip.etharpFindEntry s (s.table i).ipaddr tryHard = (some i, s) := by
  have hall : ∀ j ∈ List.range arpTableSize, j < arpTableSize := fun j hj => List.mem_range.mp hj
  rw [Lwip.etharpFindEntry]
  obtain ⟨j, hj, hloop, hused', hip⟩ | ⟨c, hloop, hc, hnone⟩ := findLoop_cases
    (s.table i).ipaddr (List.range arpTableSize) [] Candidates.For.start hall
  · rw [hloop, h.unique j (hall j hj) i hi hused' hused hip]
  · exact absurd rfl (hnone i (List.mem_range.mpr hi) hused)

/-! ## Input -/

theorem sendIp (h : s.Inv A known base total) {netif : Netif} {p dst : List UInt8}
    (hsend : A (.sendIp ipaddr p (ethHdr dst netif.hwaddr 0x0800 ++ p))) :
    (etharpSendIp s netif ipaddr p dst).Inv A known base (total + {(ipaddr, p)}) := by
  have hact := h.act hsend
  rw [EtharpAct.sent, EtharpAct.dropped, add_zero] at hact
  exact hact

/-- An address is learned: its entry has it now, if there is one, and the packet that waits there is
sent. -/
theorem etharpUpdateArpEntry (h : s.Inv A known base total) {netif : Netif}
    (ethaddr : List UInt8) (tryHard : Bool) (hunicast : nonUnicast ipaddr netif = false)
    (hdrop : (∀ j < arpTableSize, (s.table j).q ≠ none) → ∀ a p, A (.drop a p))
    (hsend : ∀ p, A (.sendIp ipaddr p (ethHdr ethaddr netif.hwaddr 0x0800 ++ p))) :
    (Lwip.etharpUpdateArpEntry s netif ipaddr ethaddr tryHard).Inv A
      (Function.update known ipaddr (some ethaddr)) base total := by
  have hother {a : UInt32} (ha : a ≠ ipaddr) :
      Function.update known ipaddr (some ethaddr) a = known a := Function.update_of_ne ha ..
  rw [Lwip.etharpUpdateArpEntry, hunicast, if_neg Bool.false_ne_true]
  obtain ⟨hfind, hnone⟩ | ⟨i, s', hfind, hinv, hfound⟩ := h.etharpFindEntry ipaddr tryHard hdrop
  · rw [hfind]
    refine ⟨h.cached_lt, h.unique, h.waits, fun j hj hst => ?_, h.acts, h.ledger⟩
    rw [hother (hnone j hj (EtharpState.geStable_ne_empty hst))]
    exact h.learned j hj hst
  rw [hfind]
  obtain ⟨hi, hip, halone⟩ := hfound
  have hknown : ∀ j < arpTableSize, j ≠ i → (s'.table j).Used →
      Function.update known ipaddr (some ethaddr) (s'.table j).ipaddr =
        known (s'.table j).ipaddr := fun j hj hne hused => hother (halone j hj hne hused)
  dsimp only
  rw [set_table_self]
  cases hq : (s'.table i).q with
  | none =>
    refine hinv.set_known hi _ hknown ?_ ?_ ?_ ?_
    · exact fun _ => hip.symm ▸ halone
    · exact fun hne => absurd hq hne
    · exact fun _ => hip.symm ▸ Function.update_self ..
    · rw [EtharpEntry.parcels, EtharpEntry.parcels, hq]
  | some p =>
    -- it makes no difference when the packet goes out
    have hsent := hinv.sendIp (hsend p)
    rw [set_set]
    change ((etharpSendIp s' netif ipaddr p ethaddr).set i fun e => { e with
      q := none, state := .stable, netif := true, ethaddr, ctime := 0 }).Inv _ _ _ _
    refine hsent.set_known hi _ hknown ?_ ?_ ?_ ?_
    · exact fun _ => hip.symm ▸ halone
    · exact fun hne => absurd rfl hne
    · exact fun _ => hip.symm ▸ Function.update_self ..
    · have hparcels : (s'.table i).parcels = {(ipaddr, p)} := by
        rw [EtharpEntry.parcels, hq, hip]
        rfl
      have htable : ((etharpSendIp s' netif ipaddr p ethaddr).table i).parcels =
          {(ipaddr, p)} := hparcels
      rw [htable]
      exact (add_zero _).symm

/-- The packet that waits for an address is sent when the address is learned. -/
theorem etharpUpdateArpEntry_acts (h : s.Inv A known base total) {netif : Netif}
    {p : List UInt8} (ethaddr : List UInt8) (tryHard : Bool)
    (hunicast : nonUnicast ipaddr netif = false)
    (hi : i < arpTableSize) (hq : (s.table i).q = some p) (hip : (s.table i).ipaddr = ipaddr) :
    (Lwip.etharpUpdateArpEntry s netif ipaddr ethaddr tryHard).acts =
      s.acts ++ [.sendIp ipaddr p (ethHdr ethaddr netif.hwaddr 0x0800 ++ p)] := by
  have hpending : (s.table i).state = .pending := h.waits i hi (by rw [hq]; exact nofun)
  have hused : (s.table i).Used := by
    rw [EtharpEntry.Used, hpending]
    exact nofun
  have hfind := h.etharpFindEntry_used hi hused tryHard
  rw [hip] at hfind
  rw [Lwip.etharpUpdateArpEntry, hunicast, if_neg Bool.false_ne_true, hfind]
  dsimp only
  rw [set_table_self, hq]
  rfl

/-! ## Output -/

theorem etharpRequest (h : s.Inv A known base total) {netif : Netif} (alloc : Bool)
    (hrequest : A (.link (requestPacket netif ipaddr))) :
    (Lwip.etharpRequest s netif ipaddr alloc).2.Inv A known base total ∧
      (Lwip.etharpRequest s netif ipaddr alloc).2.table = s.table := by
  cases alloc with
  | true => exact ⟨h.link hrequest, rfl⟩
  | false => exact ⟨h, rfl⟩

theorem markPending (h : s.Inv A known base total) (hf : Found s ipaddr i) :
    (Lwip.markPending s i).Inv A known base total ∧ Found (Lwip.markPending s i) ipaddr i ∧
      ((Lwip.markPending s i).table i).Used := by
  obtain ⟨hi, hip, halone⟩ := hf
  rw [Lwip.markPending]
  split_ifs with hempty
  · have hq : (s.table i).q = none := h.q_eq_none hi (by rw [hempty]; exact nofun)
    refine ⟨h.set hi _ ?_ ?_ ?_ ?_, ⟨hi, ?_, fun j hj hne => ?_⟩, ?_⟩
    · exact fun _ => hip.symm ▸ halone
    · exact fun _ => rfl
    · exact fun hst => absurd hst Bool.false_ne_true
    · rw [EtharpEntry.parcels, EtharpEntry.parcels, hq]
    · rw [set_table_self]
      exact hip
    · rw [set_table_of_ne hne]
      exact halone j hj hne
    · rw [EtharpEntry.Used, set_table_self]
      exact nofun
  · exact ⟨h, ⟨hi, hip, halone⟩, hempty⟩

theorem etharpQueue (h : s.Inv A known base total) {netif : Netif} {p : List UInt8} {copy : Bool}
    (hf : Found s ipaddr i) (hused : (s.table i).Used)
    (hdrop : ∀ p, A (.drop ipaddr p))
    (hsend : ∀ dst, known ipaddr = some dst →
      A (.sendIp ipaddr p (ethHdr dst netif.hwaddr 0x0800 ++ p))) :
    (Lwip.etharpQueue s netif ipaddr i p copy).2.Inv A known base
      (total + taken (Lwip.etharpQueue s netif ipaddr i p copy).1 (ipaddr, p)) := by
  obtain ⟨hi, hip, halone⟩ := hf
  rw [Lwip.etharpQueue]
  split_ifs with hst hcopy
  · have hcached : Etharp.Inv A known base total { s with cached := i } :=
      ⟨hi, h.unique, h.waits, h.learned, h.acts, h.ledger⟩
    exact hcached.sendIp (hsend _ (hip ▸ h.learned i hi hst))
  · have hpending : (s.table i).state = .pending := by
      by_contra hne
      exact hst (EtharpState.geStable_iff.mpr ⟨hused, hne⟩)
    have hfreed := h.dropQ (i := i) fun p _ => hip.symm ▸ hdrop p
    change ((s.dropQ i).set i fun e => { e with q := some p }).Inv A known base
      (total + {(ipaddr, p)})
    refine hfreed.set hi _ ?_ ?_ ?_ ?_ <;> rw [dropQ_table]
    · exact fun _ => hip.symm ▸ halone
    · exact fun _ => hpending
    · exact fun hst' => absurd hst' hst
    · have hnew : EtharpEntry.parcels { s.table i with q := some p } = {(ipaddr, p)} := by
        rw [← hip]
        rfl
      rw [hnew]
      exact add_right_comm ..
  · exact (add_zero total).symm ▸ h

section Query

variable {netif : Netif} {alloc copy : Bool} (hA : Allows A known netif s ipaddr)

include hA

/-- `etharp_query` without a packet. -/
theorem etharpQuery_none (h : s.Inv A known base total) :
    (Lwip.etharpQuery s netif ipaddr none alloc copy).2.Inv A known base total := by
  rw [Lwip.etharpQuery]
  split_ifs
  · exact h
  obtain ⟨hfind, -⟩ | ⟨i, s', hfind, hinv, hfound⟩ := h.etharpFindEntry ipaddr true hA.full
  · rw [hfind]
    exact h
  · rw [hfind]
    exact ((hinv.markPending hfound).1.etharpRequest alloc hA.request).1

/-- `etharp_query` with a packet, which may replace one for the same address. -/
theorem etharpQuery_some (h : s.Inv A known base total) {p : List UInt8}
    (hreplace : ∀ p, A (.drop ipaddr p)) :
    (Lwip.etharpQuery s netif ipaddr (some p) alloc copy).2.Inv A known base
      (total + taken (Lwip.etharpQuery s netif ipaddr (some p) alloc copy).1 (ipaddr, p)) := by
  have hnot : s.Inv A known base (total + 0) := (add_zero total).symm ▸ h
  rw [Lwip.etharpQuery]
  split_ifs
  · exact hnot
  obtain ⟨hfind, -⟩ | ⟨i, s', hfind, hinv, hfound⟩ := h.etharpFindEntry ipaddr true hA.full
  · rw [hfind]
    exact hnot
  rw [hfind]
  obtain ⟨hmarked, hfound, hused⟩ := hinv.markPending hfound
  dsimp only
  split_ifs with hpending
  · obtain ⟨hasked, htable⟩ := hmarked.etharpRequest alloc hA.request
    refine hasked.etharpQueue ⟨hfound.lt, ?_, ?_⟩ ?_ hreplace (hA.send ipaddr p)
    · exact htable ▸ hfound.ipaddr_eq
    · exact htable ▸ hfound.alone
    · exact htable ▸ hused
  · exact hmarked.etharpQueue hfound hused hreplace (hA.send ipaddr p)

omit hA in
theorem etharpOutputToArpIndex (h : s.Inv A known base total) (p : List UInt8) (alloc : Bool)
    (hA : Allows A known netif s (s.table i).ipaddr) (hi : i < arpTableSize)
    (hst : (s.table i).state.geStable = true) :
    (Lwip.etharpOutputToArpIndex s netif p i alloc).Inv A known base
      (total + {((s.table i).ipaddr, p)}) := by
  rw [Lwip.etharpOutputToArpIndex]
  dsimp only
  refine Etharp.Inv.sendIp ?_ (hA.send _ p _ (h.learned i hi hst))
  split_ifs with hold hok
  · obtain ⟨hasked, htable⟩ := h.etharpRequest alloc hA.request
    refine hasked.renew hi _ rfl rfl rfl ?_ ?_ ?_ <;> rw [htable]
    · exact fun _ => EtharpState.geStable_ne_empty hst
    · intro hpending
      rw [hold.1] at hpending
      cases hpending
    · exact fun _ => hst
  · exact (h.etharpRequest alloc hA.request).1
  · exact h

theorem etharpOutputUnicast (h : s.Inv A known base total) {p : List UInt8}
    (hreplace : ∀ p, A (.drop ipaddr p)) :
    (Lwip.etharpOutputUnicast s netif p ipaddr alloc copy).2.Inv A known base
      (total + taken (Lwip.etharpOutputUnicast s netif p ipaddr alloc copy).1 (ipaddr, p)) := by
  have hresolved {j : ℕ} (hr : (s.table j).resolves ipaddr = true) :
      (s.table j).state.geStable = true ∧ (s.table j).ipaddr = ipaddr := by
    rw [EtharpEntry.resolves, Bool.and_eq_true, beq_iff_eq] at hr
    exact ⟨hr.1, hr.2.symm⟩
  rw [Lwip.etharpOutputUnicast]
  split_ifs with hcached
  · obtain ⟨hst, hip⟩ := hresolved hcached
    have hout := h.etharpOutputToArpIndex p alloc (hip.symm ▸ hA) h.cached_lt hst
    rw [hip] at hout
    exact hout
  cases hfind : (List.range arpTableSize).find? fun i => (s.table i).resolves ipaddr with
  | none => exact h.etharpQuery_some hA hreplace
  | some i =>
    obtain ⟨hst, hip⟩ := hresolved
      (List.find?_some (p := fun i => (s.table i).resolves ipaddr) hfind)
    have hi := List.mem_range.mp (List.mem_of_find?_eq_some hfind)
    have hhint : Etharp.Inv A known base total { s with cached := i } :=
      ⟨hi, h.unique, h.waits, h.learned, h.acts, h.ledger⟩
    have hout := hhint.etharpOutputToArpIndex p alloc
      ⟨hA.full, hip.symm ▸ hA.request, hA.send⟩ hi hst
    rw [hip] at hout
    exact hout

end Query

end Etharp.Inv

end Lwip

end Enc28j60Udp
