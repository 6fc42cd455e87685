import Mathlib
import SepExtract.TransitionRuns

/- The packet queue of bcmutils.c, a list for every precedence with a count over all of them,
   and the enqueueing of dhd_common.c that refuses or evicts a packet when it is full. -/
namespace PacketQueue

variable {P : Type}

/-- struct pktq; q holds the packets of a precedence from head to tail, and qmax its limit. -/
structure Pktq (P : Type) where
  numPrec : Nat
  hiPrec : Nat
  max : Nat
  len : Nat
  q : Nat → List P
  qmax : Nat → Nat

namespace Pktq

def empty (numPrec max : Nat) (qmax : Nat → Nat) : Pktq P := ⟨numPrec, 0, max, 0, fun _ => [], qmax⟩

def pfull (pq : Pktq P) (prec : Nat) : Bool := pq.qmax prec ≤ (pq.q prec).length

def full (pq : Pktq P) : Bool := pq.max ≤ pq.len

def penq (pq : Pktq P) (prec : Nat) (p : P) : Pktq P :=
  { pq with
    q := Function.update pq.q prec (pq.q prec ++ [p])
    len := pq.len + 1
    hiPrec := if pq.hiPrec < prec then prec else pq.hiPrec }

def pdeq (pq : Pktq P) (prec : Nat) : Option P × Pktq P :=
  match pq.q prec with
  | [] => (none, pq)
  | p :: rest => (some p, { pq with q := Function.update pq.q prec rest, len := pq.len - 1 })

def pdeqTail (pq : Pktq P) (prec : Nat) : Option P × Pktq P :=
  match (pq.q prec).getLast? with
  | none => (none, pq)
  | some p => (some p, { pq with q := Function.update pq.q prec (pq.q prec).dropLast, len := pq.len - 1 })

def peekTail (pq : Pktq P) : Option Nat :=
  if pq.len = 0 then none
  else some (((List.range pq.hiPrec).find? fun prec => !(pq.q prec).isEmpty).getD pq.hiPrec)

def mlen (pq : Pktq P) (precBmp : BitVec 32) : Nat :=
  ((List.range (pq.hiPrec + 1)).map fun prec => if precBmp.getLsbD prec then (pq.q prec).length else 0).sum

/-- The first loop of pktq_mdeq. -/
def lowered (q : Nat → List P) : Nat → Nat
  | 0 => 0
  | prec + 1 => if (q (prec + 1)).isEmpty then lowered q prec else prec + 1

/-- The second one. -/
def admitted (q : Nat → List P) (precBmp : BitVec 32) : Nat → Option Nat
  | 0 => if precBmp.getLsbD 0 = false ∨ (q 0).isEmpty then none else some 0
  | prec + 1 =>
    if precBmp.getLsbD (prec + 1) = false ∨ (q (prec + 1)).isEmpty then admitted q precBmp prec else some (prec + 1)

def mdeq (pq : Pktq P) (precBmp : BitVec 32) : Option P × Pktq P :=
  if pq.len = 0 then (none, pq)
  else
    let pq := { pq with hiPrec := lowered pq.q pq.hiPrec }
    match admitted pq.q precBmp pq.hiPrec with
    | none => (none, pq)
    | some prec => pq.pdeq prec

def eprec (pq : Pktq P) (prec : Nat) : Option Nat :=
  if pq.pfull prec then some prec else pq.peekTail.filter (· ≤ prec)

end Pktq

structure Enqueued (P : Type) where
  accepted : Bool
  evicted : Option P
  queue : Pktq P

def dhdPrecEnq (wmeDp : BitVec 8) (pq : Pktq P) (pkt : P) (prec : Nat) : Enqueued P :=
  if !pq.pfull prec && !pq.full then ⟨true, none, pq.penq prec pkt⟩
  else
    match pq.eprec prec with
    | none => ⟨false, none, pq⟩
    | some eprec =>
      let discardOldest := wmeDp.getLsbD eprec
      if eprec = prec && !discardOldest then ⟨false, none, pq⟩
      else
        let freed := if discardOldest then pq.pdeq eprec else pq.pdeqTail eprec
        ⟨true, freed.1, freed.2.penq prec pkt⟩

/-- The count is that of the lists, and no packet lies above hi_prec. -/
structure Sound (pq : Pktq P) : Prop where
  len : pq.len = ∑ i ∈ Finset.range pq.numPrec, (pq.q i).length
  inside : ∀ i, pq.q i ≠ [] → i < pq.numPrec
  top : ∀ i, pq.q i ≠ [] → i ≤ pq.hiPrec

namespace Pktq
variable {pq : Pktq P} {prec : Nat}

theorem sound_empty (numPrec max : Nat) (qmax : Nat → Nat) : Sound (empty (P := P) numPrec max qmax) := by
  constructor <;> simp [empty]

theorem sound_update {l : List P} {len hi : Nat} (sound : Sound pq) (bound : prec < pq.numPrec)
    (counted : len + (pq.q prec).length = pq.len + l.length) (above : pq.hiPrec ≤ hi) (new : l ≠ [] → prec ≤ hi) :
    Sound { pq with q := Function.update pq.q prec l, len := len, hiPrec := hi } := by
  have moved := TransitionRuns.sum_update List.length pq.q l (Finset.mem_range.mpr bound)
  rw [← sound.len] at moved
  refine ⟨by dsimp only; omega, fun i filled => ?_, fun i filled => ?_⟩ <;> dsimp only at filled ⊢
  · by_cases here : i = prec
    · exact here ▸ bound
    · rw [Function.update_of_ne here] at filled
      exact sound.inside i filled
  · by_cases here : i = prec
    · subst here
      rw [Function.update_self] at filled
      exact new filled
    · rw [Function.update_of_ne here] at filled
      exact Nat.le_trans (sound.top i filled) above

theorem len_pos (sound : Sound pq) (filled : pq.q prec ≠ []) : (pq.q prec).length ≤ pq.len := by
  rw [sound.len]
  exact Finset.single_le_sum (f := fun i => (pq.q i).length) (fun _ _ => Nat.zero_le _)
    (Finset.mem_range.mpr (sound.inside prec filled))

theorem sound_penq (sound : Sound pq) (bound : prec < pq.numPrec) (p : P) : Sound (pq.penq prec p) := by
  refine sound_update sound bound ?_ ?_ ?_
  · simp only [List.length_append, List.length_singleton]
    omega
  · split <;> omega
  · intro _
    split <;> omega

structure Taken (pq : Pktq P) (taken : Option P × Pktq P) : Prop where
  sound : Sound taken.2
  numPrec : taken.2.numPrec = pq.numPrec
  qmax : taken.2.qmax = pq.qmax
  count : taken.2.len + (if taken.1.isSome then 1 else 0) = pq.len

theorem taken_pdeq (sound : Sound pq) (prec : Nat) : Taken pq (pq.pdeq prec) := by
  unfold pdeq
  split
  · exact ⟨sound, rfl, rfl, rfl⟩
  · rename_i p rest list
    have filled : pq.q prec ≠ [] := by simp [list]
    have counted := len_pos sound filled
    simp only [list, List.length_cons] at counted
    refine ⟨sound_update sound (sound.inside prec filled) ?_ (Nat.le_refl _) fun _ => sound.top prec filled, rfl, rfl, ?_⟩
    · simp only [list, List.length_cons]
      omega
    · simp only [Option.isSome_some, if_true]
      omega

theorem taken_pdeqTail (sound : Sound pq) (prec : Nat) : Taken pq (pq.pdeqTail prec) := by
  unfold pdeqTail
  split
  · exact ⟨sound, rfl, rfl, rfl⟩
  · rename_i p last
    have filled : pq.q prec ≠ [] := by
      intro none
      simp [none] at last
    have counted := len_pos sound filled
    have nonempty := List.length_pos_iff.mpr filled
    refine ⟨sound_update sound (sound.inside prec filled) ?_ (Nat.le_refl _) fun _ => sound.top prec filled, rfl, rfl, ?_⟩
    · rw [List.length_dropLast]
      omega
    · simp only [Option.isSome_some, if_true]
      omega

theorem le_lowered {q : Nat → List P} {hi i : Nat} (filled : q i ≠ []) (below : i ≤ hi) : i ≤ lowered q hi := by
  induction hi with
  | zero => exact below
  | succ hi ih =>
    simp only [lowered]
    split
    · rename_i none
      refine ih (Nat.le_of_lt_succ (Nat.lt_of_le_of_ne below ?_))
      rintro rfl
      exact filled (List.isEmpty_iff.mp none)
    · exact below

theorem taken_mdeq (sound : Sound pq) (precBmp : BitVec 32) : Taken pq (pq.mdeq precBmp) := by
  unfold mdeq
  split
  · exact ⟨sound, rfl, rfl, rfl⟩
  · have after : Sound { pq with hiPrec := lowered pq.q pq.hiPrec } :=
      ⟨sound.len, sound.inside, fun i filled => le_lowered filled (sound.top i filled)⟩
    dsimp only
    split
    · exact ⟨after, rfl, rfl, rfl⟩
    · rename_i prec _
      have taken := taken_pdeq after prec
      exact ⟨taken.sound, taken.numPrec, taken.qmax, taken.count⟩

end Pktq

structure Accounted (pq : Pktq P) (done : Enqueued P) : Prop where
  sound : Sound done.queue
  numPrec : done.queue.numPrec = pq.numPrec
  qmax : done.queue.qmax = pq.qmax
  count : done.queue.len + (if done.accepted then 0 else 1) + (if done.evicted.isSome then 1 else 0) = pq.len + 1

theorem accounted_dhdPrecEnq {pq : Pktq P} {prec : Nat} (sound : Sound pq) (bound : prec < pq.numPrec)
    (wmeDp : BitVec 8) (pkt : P) : Accounted pq (dhdPrecEnq wmeDp pq pkt prec) := by
  have refused : Accounted pq ⟨false, none, pq⟩ := ⟨sound, rfl, rfl, rfl⟩
  unfold dhdPrecEnq
  split
  · exact ⟨Pktq.sound_penq sound bound pkt, rfl, rfl, rfl⟩
  · split
    · exact refused
    · rename_i eprec _
      dsimp only
      split
      · exact refused
      · have freed : Pktq.Taken pq (if wmeDp.getLsbD eprec then pq.pdeq eprec else pq.pdeqTail eprec) := by
          split
          · exact Pktq.taken_pdeq sound eprec
          · exact Pktq.taken_pdeqTail sound eprec
        refine ⟨Pktq.sound_penq freed.sound (by rw [freed.numPrec]; exact bound) pkt, freed.numPrec, freed.qmax, ?_⟩
        have count := freed.count
        simp only [Pktq.penq, if_true]
        omega

theorem scan_least {f : Nat → Bool} {n j : Nat} (below : j ≤ n) (before : ∀ i < j, f i = false)
    (here : j < n → f j = true) : ((List.range n).find? f).getD n = j := by
  rcases Nat.lt_or_eq_of_le below with inside | rfl
  · have found : (List.range n).find? f = some j := by
      rw [List.find?_range_eq_some]
      exact ⟨here inside, List.mem_range.mpr inside, fun i earlier => by simp [before i earlier]⟩
    rw [found, Option.getD_some]
  · have missing : (List.range j).find? f = none := by
      rw [List.find?_eq_none]
      intro i inside
      simp [before i (List.mem_range.mp inside)]
    rw [missing, Option.getD_none]

def Lowest (pq : Pktq P) (prec : Nat) : Prop := pq.q prec ≠ [] ∧ ∀ i < prec, pq.q i = []

section
variable {pq : Pktq P} {prec e : Nat}

theorem lowest_unique (one : Lowest pq prec) (other : Lowest pq e) : prec = e := by
  rcases Nat.lt_trichotomy prec e with lower | same | higher
  · exact absurd (other.2 prec lower) one.1
  · exact same
  · exact absurd (one.2 e higher) other.1

theorem exists_lowest (sound : Sound pq) (nonempty : pq.len ≠ 0) : ∃ prec, Lowest pq prec := by
  have filled : ∃ i, pq.q i ≠ [] := by
    by_contra none
    push Not at none
    exact nonempty (by simp [sound.len, none])
  classical
  refine ⟨Nat.find filled, Nat.find_spec filled, fun i earlier => ?_⟩
  simpa using Nat.find_min filled earlier

theorem peekTail_lowest (sound : Sound pq) (nonempty : pq.len ≠ 0) (lowest : Lowest pq prec) :
    pq.peekTail = some prec := by
  rw [Pktq.peekTail, if_neg nonempty]
  congr 1
  refine scan_least (sound.top prec lowest.1) (fun i earlier => by simp [lowest.2 i earlier]) fun _ => ?_
  simpa using lowest.1

theorem filled_of_eprec (sound : Sound pq) (limit : 0 < pq.qmax prec) (found : pq.eprec prec = some e) :
    pq.q e ≠ [] := by
  unfold Pktq.eprec at found
  split at found
  case isTrue full =>
    obtain rfl := Option.some.inj found
    rw [Pktq.pfull, decide_eq_true_eq] at full
    exact List.ne_nil_of_length_pos (Nat.lt_of_lt_of_le limit full)
  · obtain ⟨peeked, _⟩ := Option.filter_eq_some_iff.mp found
    have nonempty : pq.len ≠ 0 := by
      intro none
      rw [Pktq.peekTail, if_pos none] at peeked
      cases peeked
    obtain ⟨low, lowest⟩ := exists_lowest sound nonempty
    rw [peekTail_lowest sound nonempty lowest] at peeked
    exact Option.some.inj peeked ▸ lowest.1

theorem untroubled_iff (sound : Sound pq) (limit : 0 < pq.qmax prec) (wmeDp : BitVec 8) (pkt : P) :
    ((dhdPrecEnq wmeDp pq pkt prec).accepted = true ∧ (dhdPrecEnq wmeDp pq pkt prec).evicted.isSome = false) ↔
      pq.pfull prec = false ∧ pq.full = false := by
  have room : (!pq.pfull prec && !pq.full) = true ↔ pq.pfull prec = false ∧ pq.full = false := by
    rw [Bool.and_eq_true, Bool.not_eq_true', Bool.not_eq_true']
  rw [← room]
  unfold dhdPrecEnq
  split
  case isTrue free => exact iff_of_true ⟨rfl, rfl⟩ free
  case isFalse blocked =>
    refine iff_of_false ?_ blocked
    split
    · exact fun done => Bool.false_ne_true done.1
    case h_2 e found =>
      dsimp only
      split
      · exact fun done => Bool.false_ne_true done.1
      · rintro ⟨_, none⟩
        have filled := filled_of_eprec sound limit found
        split at none
        · obtain ⟨p, rest, list⟩ := List.exists_cons_of_ne_nil filled
          simp [Pktq.pdeq, list] at none
        · simp [Pktq.pdeqTail, List.getLast?_eq_some_getLast filled] at none

end

end PacketQueue
