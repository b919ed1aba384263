import Enc28j60Udp.Foundations.Bytes
import Mathlib.Algebra.GroupWithZero.Nat
import Mathlib.Data.List.Basic
import Mathlib.Data.Nat.Find
import Mathlib.Logic.Function.Basic

/-!
# Protocol frames

`udp_demo.c` keeps the state it exchanges with the peer in `sendrecv`. `setsendbuf` writes it as a
frame of 15 bytes that starts with the marker `ZNJJ`; `judge` looks for the marker at the first
`sendrecv.length` positions of the receive buffer and `readrecv` takes seven bytes from behind it.

`readrecv_setsendbuf` is the round trip. A read outside the 2000 bytes of the buffer has no result,
so a result also says that no such read was made.
-/

namespace Enc28j60Udp

/-- `struct sardata`. -/
structure Sardata where
  head : Vector UInt8 4
  length : UInt16
  humi : Vector UInt8 2
  data : Vector UInt8 4
  elengine : Vector UInt8 2
  led : Vector UInt8 3
  deriving DecidableEq

/-- The marker `ZNJJ`. -/
def znjj : List UInt8 := [0x5A, 0x4E, 0x4A, 0x4A]

/-- `sendrecv.data[i] = b`: behind `data` the structure has `elengine`, then `led`. -/
def Sardata.storeData (s : Sardata) (i : ℕ) (b : UInt8) : Sardata :=
  { s with
    data := s.data.setIfInBounds i b
    elengine := if 4 ≤ i then s.elengine.setIfInBounds (i - 4) b else s.elengine
    led := if 6 ≤ i then s.led.setIfInBounds (i - 6) b else s.led }

/-- `initsardata`. Its loop clears eight bytes from `data` on, which has four. -/
def initsardata (s : Sardata) : Sardata :=
  let s := { s with head := #v[0x5A, 0x4E, 0x4A, 0x4A], length := 15 }
  let s := (List.range 8).foldl (fun s i => s.storeData i 0) s
  { s with humi := #v[0, 0], elengine := #v[0, 0], led := #v[0, 0, 0] }

/-- `UDP_DEMO_RX_BUFSIZE`. -/
def udpDemoRxBufsize : ℕ := 2000

/-- `udp_demo_recvbuf`. -/
abbrev RecvBuf := Vector UInt8 udpDemoRxBufsize

/-- The buffer that holds `l` and zeros behind it. -/
def bufOf (l : List UInt8) : RecvBuf := Vector.ofFn fun i => l.getD i 0

/-- The nested comparisons of `judge`: the bytes from `i` on are `cs`. -/
def matchAt (buf : RecvBuf) : ℕ → List UInt8 → Option Bool
  | _, [] => some true
  | i, c :: cs => do
    let b ← buf[i]?
    if b = c then matchAt buf (i + 1) cs else some false

/-- The loop of `judge`, from `position` on. It has no result when it never ends. -/
def judgeLoop (buf : RecvBuf) (length : UInt16) : ℕ → UInt8 → Option UInt8
  | 0, _ => none
  | fuel + 1, position =>
    if position.toNat < length.toNat then do
      if ← matchAt buf position.toNat znjj then some position
      else judgeLoop buf length fuel (position + 1)
    else some position

/-- `judge`: the position behind the first marker, or `0`. The counter is a `u8`, so the loop
ends within 257 rounds or never. -/
def judge (s : Sardata) (buf : RecvBuf) : Option UInt8 := do
  let position ← judgeLoop buf s.length 257 0
  if s.length.toNat ≤ position.toNat then some 0 else some (position + 4)

/-- `readrecv`. -/
def readrecv (s : Sardata) (buf : RecvBuf) : Option Sardata := do
  if (← judge s buf) = 0 then some s
  else
    let position ← judge s buf
    let led₀ ← buf[position.toNat]?
    let led₁ ← buf[(position + 1).toNat]?
    let led₂ ← buf[(position + 2).toNat]?
    let elengine₀ ← buf[(position + 3).toNat]?
    let elengine₁ ← buf[(position + 4).toNat]?
    let humi₀ ← buf[(position + 5).toNat]?
    let humi₁ ← buf[(position + 6).toNat]?
    some { s with
      led := #v[led₀, led₁, led₂]
      elengine := #v[elengine₀, elengine₁]
      humi := #v[humi₀ - 0x30, humi₁ - 0x30] }

/-- The stores of `setsendbuf`, by their index in `udp_demo_sendbuf`. -/
def setsendbuf (s : Sardata) : List (ℕ × UInt8) :=
  [(0, s.head[0]!), (1, s.head[1]!), (2, s.head[2]!), (3, s.head[3]!),
    (9, s.humi[0]! + 0x30), (10, s.humi[1]! + 0x30)] ++
  (List.finRange 4).map (fun i => (i.val + 11, s.data[i]!)) ++
  [(7, s.elengine[0]!), (8, s.elengine[1]!), (4, s.led[0]!), (5, s.led[1]!), (6, s.led[2]!)]

/-- Perform stores into the buffer that starts at the address `p`. -/
def performStores (p : ℕ) (stores : List (ℕ × UInt8)) (mem : ℕ → UInt8) : ℕ → UInt8 :=
  stores.foldl (fun m st => Function.update m (p + st.1) st.2) mem

/-- The first 15 bytes of the buffer at `p` after `setsendbuf`. -/
def sentBytes (s : Sardata) (p : ℕ) (mem : ℕ → UInt8) : List UInt8 :=
  (List.range 15).map fun i => performStores p (setsendbuf s) mem (p + i)

/-- The protocol frame of a state. -/
def frame (s : Sardata) : List UInt8 :=
  s.head.toList ++ s.led.toList ++ s.elengine.toList ++ [s.humi[0]! + 0x30, s.humi[1]! + 0x30] ++
    s.data.toList

/-- The head and the length are those `initsardata` sets. -/
structure FromInit (s : Sardata) : Prop where
  head_eq : s.head = #v[0x5A, 0x4E, 0x4A, 0x4A]
  length_eq : s.length = 15

theorem fromInit_initsardata (s : Sardata) : FromInit (initsardata s) := ⟨rfl, rfl⟩

/-! ## The encoder -/

theorem exists_eq_two (v : Vector UInt8 2) : ∃ a b, v = #v[a, b] := by
  obtain ⟨⟨l⟩, h⟩ := v
  obtain ⟨a, b, rfl⟩ := List.length_eq_two.mp h
  exact ⟨a, b, rfl⟩

theorem exists_eq_three (v : Vector UInt8 3) : ∃ a b c, v = #v[a, b, c] := by
  obtain ⟨⟨l⟩, h⟩ := v
  obtain ⟨a, b, c, rfl⟩ := List.length_eq_three.mp h
  exact ⟨a, b, c, rfl⟩

theorem exists_eq_four (v : Vector UInt8 4) : ∃ a b c d, v = #v[a, b, c, d] := by
  obtain ⟨⟨l⟩, h⟩ := v
  obtain _ | ⟨a, l⟩ := l
  · simp at h
  · obtain ⟨b, c, d, rfl⟩ := List.length_eq_three.mp (Nat.succ.inj h)
    exact ⟨a, b, c, d, rfl⟩

/-- Each store of `setsendbuf` writes a byte of the frame. -/
theorem getElem?_frame {s : Sardata} {st : ℕ × UInt8} (h : st ∈ setsendbuf s) :
    (frame s)[st.1]? = some st.2 := by
  obtain ⟨head, length, humi, data, elengine, led⟩ := s
  obtain ⟨h₀, h₁, h₂, h₃, rfl⟩ := exists_eq_four head
  obtain ⟨u₀, u₁, rfl⟩ := exists_eq_two humi
  obtain ⟨d₀, d₁, d₂, d₃, rfl⟩ := exists_eq_four data
  obtain ⟨e₀, e₁, rfl⟩ := exists_eq_two elengine
  obtain ⟨l₀, l₁, l₂, rfl⟩ := exists_eq_three led
  simp [setsendbuf, List.finRange_succ] at h
  rcases h with rfl | rfl | rfl | rfl | rfl | rfl | rfl | rfl | rfl | rfl | rfl | rfl | rfl |
    rfl | rfl <;> rfl

/-- `setsendbuf` writes the indices below 15, each once. -/
theorem perm_setsendbuf (s : Sardata) : ((setsendbuf s).map Prod.fst).Perm (List.range 15) := by
  have h : (setsendbuf s).map Prod.fst = [0, 1, 2, 3, 9, 10, 11, 12, 13, 14, 7, 8, 4, 5, 6] := rfl
  rw [h]
  decide

@[simp] theorem length_frame (s : Sardata) : (frame s).length = 15 := by simp [frame]

theorem performStores_of_not_mem {p a : ℕ} {stores : List (ℕ × UInt8)} (mem : ℕ → UInt8)
    (h : ∀ st ∈ stores, a ≠ p + st.1) : performStores p stores mem a = mem a := by
  induction stores generalizing mem with
  | nil => rfl
  | cons st sts ih =>
    have htail := ih (Function.update mem (p + st.1) st.2) fun st' hm =>
      h st' (List.mem_cons_of_mem _ hm)
    exact htail.trans (Function.update_of_ne (h st List.mem_cons_self) _ _)

/-- Stores to different places: each of them is what is found afterwards. -/
theorem performStores_of_mem {p : ℕ} {stores : List (ℕ × UInt8)} {st : ℕ × UInt8}
    (mem : ℕ → UInt8) (hn : (stores.map Prod.fst).Nodup) (h : st ∈ stores) :
    performStores p stores mem (p + st.1) = st.2 := by
  induction stores generalizing mem with
  | nil => simp at h
  | cons st' sts ih =>
    rw [List.map_cons, List.nodup_cons] at hn
    rcases List.mem_cons.mp h with rfl | hm
    · have hne : ∀ st' ∈ sts, p + st.1 ≠ p + st'.1 := by
        intro st' hm he
        rw [Nat.add_left_cancel he] at hn
        exact hn.1 (List.mem_map_of_mem hm)
      exact (performStores_of_not_mem (Function.update mem (p + st.1) st.2) hne).trans
        (Function.update_self _ _ _)
    · exact ih _ hn.2 hm

theorem performStores_setsendbuf (s : Sardata) (p : ℕ) (mem : ℕ → UInt8) {i : ℕ} (hi : i < 15) :
    some (performStores p (setsendbuf s) mem (p + i)) = (frame s)[i]? := by
  have hperm := perm_setsendbuf s
  obtain ⟨st, hst, rfl⟩ := List.mem_map.mp (hperm.mem_iff.mpr (List.mem_range.mpr hi))
  rw [performStores_of_mem mem (hperm.nodup_iff.mpr List.nodup_range) hst, getElem?_frame hst]

theorem sentBytes_eq (s : Sardata) (p : ℕ) (mem : ℕ → UInt8) : sentBytes s p mem = frame s := by
  apply List.ext_getElem?
  intro i
  by_cases hi : i < 15
  · rw [← performStores_setsendbuf s p mem hi, sentBytes, List.getElem?_map,
      List.getElem?_range hi]
    rfl
  · rw [List.getElem?_eq_none (by simp [sentBytes]; omega),
      List.getElem?_eq_none (by simp; omega)]

/-! ## The parser -/

theorem getElem_bufOf (l : List UInt8) {i : ℕ} (hi : i < udpDemoRxBufsize) :
    (bufOf l)[i] = l[i]?.getD 0 := by
  rw [bufOf, Vector.getElem_ofFn, List.getD_eq_getElem?_getD]

theorem toList_bufOf {l : List UInt8} (h : l.length ≤ udpDemoRxBufsize) :
    (bufOf l).toList = l ++ List.replicate (udpDemoRxBufsize - l.length) 0 := by
  apply List.ext_getElem
  · simp only [Vector.length_toList, List.length_append, List.length_replicate]
    omega
  · intro i hi hi'
    simp only [Vector.getElem_toList, getElem_bufOf, List.getElem_append]
    split
    · rw [List.getElem?_eq_getElem, Option.getD_some]
    · rw [List.getElem?_eq_none (by omega), Option.getD_none, List.getElem_replicate]

theorem matchAt_eq (buf : RecvBuf) {i : ℕ} {cs : List UInt8}
    (h : i + cs.length ≤ udpDemoRxBufsize) :
    matchAt buf i cs = some (decide (cs <+: buf.toList.drop i)) := by
  induction cs generalizing i with
  | nil => simp [matchAt]
  | cons c cs ih =>
    have hi : i < udpDemoRxBufsize := by
      rw [List.length_cons] at h
      omega
    have hdrop : buf.toList.drop i = buf[i] :: buf.toList.drop (i + 1) := by
      rw [List.drop_eq_getElem_cons (by simpa using hi), Vector.getElem_toList]
    rw [matchAt, Vector.getElem?_eq_getElem hi, hdrop, Option.bind_eq_bind, Option.bind_some]
    by_cases hb : buf[i] = c
    · rw [if_pos hb, ih (by rw [List.length_cons] at h; omega)]
      simp [hb]
    · rw [if_neg hb]
      simp [Ne.symm hb]

/-- The marker starts at position `k` of `l`. -/
def MarkerAt (l : List UInt8) (k : ℕ) : Prop := znjj <+: l.drop k

instance (l : List UInt8) (k : ℕ) : Decidable (MarkerAt l k) :=
  inferInstanceAs (Decidable (znjj <+: l.drop k))

theorem matchAt_znjj (buf : RecvBuf) {k : ℕ} (hk : k < 256) :
    matchAt buf k znjj = some (decide (MarkerAt buf.toList k)) :=
  matchAt_eq buf (by simp [znjj, udpDemoRxBufsize]; omega)

/-- The loop runs over positions without the marker. -/
theorem judgeLoop_skip {buf : RecvBuf} {length : UInt16} {fuel n : ℕ} {position : UInt8}
    (hlen : length.toNat < 256) (hn : position.toNat + n ≤ length.toNat)
    (hnone : ∀ k < position.toNat + n, ¬MarkerAt buf.toList k) :
    judgeLoop buf length (fuel + n) position =
      judgeLoop buf length fuel (position + UInt8.ofNat n) := by
  induction n generalizing position with
  | zero => simp
  | succ n ih =>
    have hp : (position + 1).toNat = position.toNat + 1 := toNat_add_one (by omega)
    have hm : matchAt buf position.toNat znjj = some false := by
      rw [matchAt_znjj buf position.toNat_lt, decide_eq_false (hnone _ (by omega))]
    have hnext : position + UInt8.ofNat (n + 1) = position + 1 + UInt8.ofNat n := by
      rw [UInt8.ofNat_add, UInt8.add_assoc, UInt8.add_comm 1]
      rfl
    rw [← Nat.add_assoc, judgeLoop, if_pos (by omega), hm, hnext,
      ← ih (by omega) fun k hk => hnone k (by omega)]
    rfl

/-- `judge` finds the first marker. -/
theorem judge_of_first {s : Sardata} {buf : RecvBuf} (hs : s.length = 15) {k : ℕ} (hk : k < 15)
    (hm : MarkerAt buf.toList k) (hfirst : ∀ i < k, ¬MarkerAt buf.toList i) :
    judge s buf = some (UInt8.ofNat (k + 4)) := by
  have hpos : (UInt8.ofNat k).toNat = k := UInt8.toNat_ofNat_of_lt' (show _ < 256 by omega)
  have hlt : (UInt8.ofNat k).toNat < s.length.toNat := by
    rw [hpos, hs]
    exact hk
  have hloop : judgeLoop buf s.length 257 0 = some (UInt8.ofNat k) := by
    obtain ⟨fuel, hfuel⟩ : ∃ fuel, 257 = fuel + 1 + k := ⟨256 - k, by omega⟩
    rw [hfuel, judgeLoop_skip (by rw [hs]; decide) (by simp [hs]; omega) (by simpa using hfirst),
      UInt8.zero_add, judgeLoop, if_pos hlt, hpos, matchAt_znjj buf (by omega),
      decide_eq_true hm]
    rfl
  rw [judge, hloop, Option.bind_eq_bind, Option.bind_some, if_neg (by omega), UInt8.ofNat_add]
  rfl

/-- `judge` returns `0` when there is no marker at its positions. -/
theorem judge_of_none {s : Sardata} {buf : RecvBuf} (hs : s.length = 15)
    (hnone : ∀ k < 15, ¬MarkerAt buf.toList k) : judge s buf = some 0 := by
  have hloop : judgeLoop buf s.length 257 0 = some 15 := by
    rw [hs, show 257 = 241 + 1 + 15 from rfl,
      judgeLoop_skip (by decide) (by decide) (by simpa using hnone), judgeLoop]
    rfl
  rw [judge, hloop, hs]
  rfl

/-- `readrecv` behind a marker at `k`: the seven bytes that follow it. -/
theorem readrecv_of_first {s : Sardata} {buf : RecvBuf} (hs : s.length = 15) {k : ℕ} (hk : k < 15)
    (hm : MarkerAt buf.toList k) (hfirst : ∀ i < k, ¬MarkerAt buf.toList i)
    {l₀ l₁ l₂ e₀ e₁ u₀ u₁ : UInt8} {rest : List UInt8}
    (hbytes : buf.toList.drop (k + 4) = l₀ :: l₁ :: l₂ :: e₀ :: e₁ :: u₀ :: u₁ :: rest) :
    readrecv s buf = some { s with
      led := #v[l₀, l₁, l₂], elengine := #v[e₀, e₁], humi := #v[u₀ - 0x30, u₁ - 0x30] } := by
  have hne : UInt8.ofNat (k + 4) ≠ 0 := by
    intro h
    have hnat := congrArg UInt8.toNat h
    simp at hnat
    omega
  have hget : ∀ i < 7, buf[(UInt8.ofNat (k + 4) + UInt8.ofNat i).toNat]? =
      (l₀ :: l₁ :: l₂ :: e₀ :: e₁ :: u₀ :: u₁ :: rest)[i]? := by
    intro i hi
    rw [← hbytes, List.getElem?_drop, Vector.getElem?_toList, ← UInt8.ofNat_add,
      UInt8.toNat_ofNat', Nat.mod_eq_of_lt (by omega)]
  have h₀ : buf[(UInt8.ofNat (k + 4)).toNat]? = some l₀ := by
    simpa using hget 0 (by omega)
  have h₁ : buf[(UInt8.ofNat (k + 4) + 1).toNat]? = some l₁ := hget 1 (by omega)
  have h₂ : buf[(UInt8.ofNat (k + 4) + 2).toNat]? = some l₂ := hget 2 (by omega)
  have h₃ : buf[(UInt8.ofNat (k + 4) + 3).toNat]? = some e₀ := hget 3 (by omega)
  have h₄ : buf[(UInt8.ofNat (k + 4) + 4).toNat]? = some e₁ := hget 4 (by omega)
  have h₅ : buf[(UInt8.ofNat (k + 4) + 5).toNat]? = some u₀ := hget 5 (by omega)
  have h₆ : buf[(UInt8.ofNat (k + 4) + 6).toNat]? = some u₁ := hget 6 (by omega)
  rw [readrecv, judge_of_first hs hk hm hfirst]
  simp only [Option.bind_eq_bind, Option.bind_some, if_neg hne, h₀, h₁, h₂, h₃, h₄, h₅, h₆]

theorem exists_eq_seven {l : List UInt8} (h : 7 ≤ l.length) :
    ∃ a b c d e f g rest, l = a :: b :: c :: d :: e :: f :: g :: rest :=
  ⟨l[0], l[1], l[2], l[3], l[4], l[5], l[6], l.drop 7, by
    simp only [List.getElem_cons_drop, List.drop_zero]⟩

/-- `readrecv` without a marker at the positions of `judge`. -/
theorem readrecv_of_none {s : Sardata} {buf : RecvBuf} (hs : s.length = 15)
    (hnone : ∀ k < 15, ¬MarkerAt buf.toList k) : readrecv s buf = some s := by
  rw [readrecv, judge_of_none hs hnone]
  rfl

/-- `readrecv` has a result, and changes neither the head nor the length. -/
theorem exists_readrecv {s : Sardata} (hs : s.length = 15) (buf : RecvBuf) :
    ∃ s', readrecv s buf = some s' ∧ s'.head = s.head ∧ s'.length = s.length := by
  by_cases h : ∃ k < 15, MarkerAt buf.toList k
  · obtain ⟨k, ⟨hk, hm⟩, hmin⟩ : ∃ k, (k < 15 ∧ MarkerAt buf.toList k) ∧
        ∀ i < k, ¬(i < 15 ∧ MarkerAt buf.toList i) :=
      ⟨Nat.find h, Nat.find_spec h, fun _ => Nat.find_min h⟩
    have hfirst : ∀ i < k, ¬MarkerAt buf.toList i := fun i hi hmi => hmin i hi ⟨by omega, hmi⟩
    have hlen : 7 ≤ (buf.toList.drop (k + 4)).length := by
      rw [List.length_drop, Vector.length_toList]
      unfold udpDemoRxBufsize
      omega
    obtain ⟨l₀, l₁, l₂, e₀, e₁, u₀, u₁, rest, hbytes⟩ := exists_eq_seven hlen
    exact ⟨_, readrecv_of_first hs hk hm hfirst hbytes, rfl, rfl⟩
  · exact ⟨s, readrecv_of_none hs fun k hk hm => h ⟨k, hk, hm⟩, rfl, rfl⟩

/-! ## The round trip -/

/-- The frame of a state with the initial head, field by field. -/
theorem frame_eq {s : Sardata} (hs : FromInit s) :
    frame s = znjj ++ ([s.led[0]!, s.led[1]!, s.led[2]!, s.elengine[0]!, s.elengine[1]!,
      s.humi[0]! + 0x30, s.humi[1]! + 0x30] ++ s.data.toList) := by
  obtain ⟨e₀, e₁, he⟩ := exists_eq_two s.elengine
  obtain ⟨l₀, l₁, l₂, hl⟩ := exists_eq_three s.led
  rw [frame, hs.head_eq, he, hl]
  rfl

/-- `readrecv` on a buffer with a frame behind at most 14 other bytes. -/
theorem readrecv_of_frame {s r : Sardata} {buf : RecvBuf} {g suffix : List UInt8}
    (hs : FromInit s) (hr : r.length = 15) (hg : g.length ≤ 14)
    (hbuf : buf.toList = g ++ frame s ++ suffix)
    (hfirst : ∀ k < g.length, ¬MarkerAt (g ++ frame s) k) :
    readrecv r buf = some { r with led := s.led, elengine := s.elengine, humi := s.humi } := by
  have hm : MarkerAt buf.toList g.length := by
    rw [MarkerAt, hbuf, List.append_assoc, List.drop_left, frame_eq hs, List.append_assoc]
    exact List.prefix_append _ _
  have hearlier : ∀ k < g.length, ¬MarkerAt buf.toList k := by
    intro k hk hmk
    -- the four bytes of such a marker lie in front of the suffix
    have hdrop : buf.toList.drop k = (g ++ frame s).drop k ++ suffix := by
      rw [hbuf, List.drop_append_of_le_length]
      simp only [List.length_append]
      omega
    refine hfirst k hk (List.prefix_of_prefix_length_le hmk ?_ ?_)
    · exact hdrop ▸ List.prefix_append _ _
    · simp [znjj]
      omega
  have hbytes : buf.toList.drop (g.length + 4) = s.led[0]! :: s.led[1]! :: s.led[2]! ::
      s.elengine[0]! :: s.elengine[1]! :: (s.humi[0]! + 0x30) :: (s.humi[1]! + 0x30) ::
        (s.data.toList ++ suffix) := by
    rw [hbuf, List.append_assoc, ← List.drop_drop, List.drop_left, frame_eq hs]
    rfl
  rw [readrecv_of_first hr (by omega) hm hearlier hbytes, UInt8.add_sub_cancel,
    UInt8.add_sub_cancel]
  obtain ⟨e₀, e₁, he⟩ := exists_eq_two s.elengine
  obtain ⟨u₀, u₁, hu⟩ := exists_eq_two s.humi
  obtain ⟨l₀, l₁, l₂, hl⟩ := exists_eq_three s.led
  rw [he, hu, hl]
  rfl

/-- **The parser undoes the encoder.** With at most 14 bytes in front of the frame and no marker
that starts earlier, `readrecv` takes over `led`, `elengine` and `humi`; without a marker at the
first 15 positions it changes nothing. -/
theorem readrecv_setsendbuf :
    (∀ (s r : Sardata) (p : ℕ) (mem : ℕ → UInt8) (buf : RecvBuf) (g suffix : List UInt8),
      FromInit s → FromInit r → g.length ≤ 14 →
      buf.toList = g ++ sentBytes s p mem ++ suffix →
      (∀ k < g.length, ¬MarkerAt (g ++ sentBytes s p mem) k) →
      readrecv r buf = some { r with led := s.led, elengine := s.elengine, humi := s.humi }) ∧
    ∀ (r : Sardata) (buf : RecvBuf), FromInit r → (∀ k < 15, ¬MarkerAt buf.toList k) →
      readrecv r buf = some r := by
  constructor
  · intro s r p mem buf g suffix hs hr hg hbuf hfirst
    rw [sentBytes_eq] at hbuf hfirst
    exact readrecv_of_frame hs hr.length_eq hg hbuf hfirst
  · exact fun r buf hr hnone => readrecv_of_none hr.length_eq hnone

/-- A state with the LEDs and motor 1 switched on. -/
def demoState : Sardata :=
  ⟨#v[0x5A, 0x4E, 0x4A, 0x4A], 15, #v[1, 0], #v[0x31, 0x39, 0x34, 0x33], #v[0x31, 0x31],
    #v[0x31, 0x31, 0x31]⟩

/-- A prefix that ends in a part of the marker. -/
theorem readrecv_setsendbuf_partialMarker :
    readrecv (initsardata demoState)
        (bufOf ([0x5A, 0x4E, 0x4A] ++ sentBytes demoState 0 fun _ => 0)) =
      some { initsardata demoState with
        led := demoState.led, elengine := demoState.elengine, humi := demoState.humi } :=
  readrecv_setsendbuf.1 demoState (initsardata demoState) 0 (fun _ => 0) _ [0x5A, 0x4E, 0x4A]
    (List.replicate 1982 0) ⟨rfl, rfl⟩ (fromInit_initsardata demoState) (by decide)
    (toList_bufOf (by decide)) (by decide)

end Enc28j60Udp
