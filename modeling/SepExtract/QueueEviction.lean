import Mathlib
import SepExtract.LinkedLists
import SepExtract.PacketQueue

/- The packet queue of bcmutils.c as it lies in memory: a head, a tail and a count for every
   precedence, and the packets of a precedence linked through PKTLINK. -/
namespace QueueEviction
open PacketQueue LinkedLists

variable {P : Type}

structure Prec (P : Type) where
  head : Option P
  tail : Option P
  len : Nat
  max : Nat

structure Queue (P : Type) where
  numPrec : Nat
  hiPrec : Nat
  max : Nat
  len : Nat
  q : Nat → Prec P
  link : P → Option P

namespace Queue

def pfull (pq : Queue P) (prec : Nat) : Bool := (pq.q prec).max ≤ (pq.q prec).len

def full (pq : Queue P) : Bool := pq.max ≤ pq.len

def peekTail (pq : Queue P) : Option Nat :=
  if pq.len = 0 then none
  else some (((List.range pq.hiPrec).find? fun prec => (pq.q prec).head.isSome).getD pq.hiPrec)

def eprec (pq : Queue P) (prec : Nat) : Option Nat :=
  if pq.pfull prec then some prec else pq.peekTail.filter (· ≤ prec)

end Queue

structure Represents (s : Queue P) (pq : Pktq P) : Prop where
  numPrec : s.numPrec = pq.numPrec
  hiPrec : s.hiPrec = pq.hiPrec
  max : s.max = pq.max
  len : s.len = pq.len
  linked : ∀ i < pq.numPrec, Seg s.link (s.q i).head (pq.q i) none
  tail : ∀ i < pq.numPrec, (s.q i).tail = (pq.q i).getLast?
  counted : ∀ i < pq.numPrec, (s.q i).len = (pq.q i).length
  limit : ∀ i < pq.numPrec, (s.q i).max = pq.qmax i
  apart : ∀ i j p, p ∈ pq.q i → p ∈ pq.q j → i = j
  loose : ∀ p, (∀ i, p ∉ pq.q i) → s.link p = none

/-- The representation invariant; every precedence has the limit that pktq_init gives it. -/
structure Invariant (s : Queue P) (pq : Pktq P) : Prop where
  represents : Represents s pq
  sound : Sound pq
  room : pq.numPrec ≤ 16
  bounded : pq.len ≤ pq.max
  positive : 1 ≤ pq.max
  width : pq.max < 2 ^ 16
  limits : ∀ i < pq.numPrec, pq.qmax i = pq.max

namespace Represents
variable {s : Queue P} {pq : Pktq P} {prec : Nat}

theorem update (rep : Represents s pq) {c : Prec P} {l : List P} {len hi : Nat} {link : P → Option P}
    (linked : Seg link c.head l none) (tail : c.tail = l.getLast?) (counted : c.len = l.length)
    (limit : c.max = (s.q prec).max) (frame : ∀ i ≠ prec, ∀ p ∈ pq.q i, link p = s.link p)
    (apart : ∀ p ∈ l, ∀ i ≠ prec, p ∉ pq.q i) (loose : ∀ p ∉ l, (∀ i ≠ prec, p ∉ pq.q i) → link p = none) :
    Represents { s with q := Function.update s.q prec c, len := len, hiPrec := hi, link := link }
      { pq with q := Function.update pq.q prec l, len := len, hiPrec := hi } := by
  refine ⟨rep.numPrec, rfl, rep.max, rfl, fun i below => ?_, fun i below => ?_, fun i below => ?_, fun i below => ?_,
    fun i j p first second => ?_, fun p outside => ?_⟩ <;> dsimp only at *
  · by_cases here : i = prec
    · subst here
      simpa using linked
    · simp only [Function.update_of_ne here]
      exact (seg_congr (frame i here)).mpr (rep.linked i below)
  · by_cases here : i = prec
    · subst here
      simpa using tail
    · simpa only [Function.update_of_ne here] using rep.tail i below
  · by_cases here : i = prec
    · subst here
      simpa using counted
    · simpa only [Function.update_of_ne here] using rep.counted i below
  · by_cases here : i = prec
    · subst here
      simpa using limit.trans (rep.limit i below)
    · simpa only [Function.update_of_ne here] using rep.limit i below
  · by_cases here : i = prec
    · by_cases there : j = prec
      · rw [here, there]
      · subst here
        rw [Function.update_self] at first
        rw [Function.update_of_ne there] at second
        exact absurd second (apart p first j there)
    · rw [Function.update_of_ne here] at first
      by_cases there : j = prec
      · subst there
        rw [Function.update_self] at second
        exact absurd first (apart p second i here)
      · rw [Function.update_of_ne there] at second
        exact rep.apart i j p first second
  · refine loose p ?_ fun i here => ?_
    · simpa using outside prec
    · simpa only [Function.update_of_ne here] using outside i

theorem head_isSome (rep : Represents s pq) (below : prec < pq.numPrec) :
    (s.q prec).head.isSome = !(pq.q prec).isEmpty := by
  rw [seg_head (rep.linked prec below)]
  cases pq.q prec <;> rfl

theorem pfull_eq (rep : Represents s pq) (below : prec < pq.numPrec) : s.pfull prec = pq.pfull prec := by
  simp only [Queue.pfull, Pktq.pfull, rep.limit prec below, rep.counted prec below]

theorem full_eq (rep : Represents s pq) : s.full = pq.full := by
  simp only [Queue.full, Pktq.full, rep.max, rep.len]

theorem link_none (rep : Represents s pq) {x : P} (here : x ∉ pq.q prec) (others : ∀ i ≠ prec, x ∉ pq.q i) :
    s.link x = none := by
  refine rep.loose x fun i => ?_
  by_cases same : i = prec
  · exact same ▸ here
  · exact others i same

end Represents

/-- When a packet is taken: there is room, or the lowest precedence that holds a packet is lower than the new packet's,
    or is the same and gives up its oldest one. -/
def Admits (wmeDp : BitVec 8) (pq : Pktq P) (prec : Nat) : Prop :=
  pq.len < pq.max ∨ ∃ e ≤ prec, Lowest pq e ∧ (e = prec → wmeDp.getLsbD e = true)

section
variable {s : Queue P} {pq : Pktq P} {prec e : Nat}

theorem length_le (sound : Sound pq) (prec : Nat) : (pq.q prec).length ≤ pq.len := by
  by_cases none : pq.q prec = []
  · simp [none]
  · exact Pktq.len_pos sound none

theorem Represents.peekTail (rep : Represents s pq) (sound : Sound pq) : s.peekTail = pq.peekTail := by
  by_cases empty : pq.len = 0
  · rw [Queue.peekTail, Pktq.peekTail, rep.len, if_pos empty, if_pos empty]
  · obtain ⟨prec, lowest⟩ := exists_lowest sound empty
    have inside := sound.inside prec lowest.1
    rw [peekTail_lowest sound empty lowest, Queue.peekTail, rep.len, if_neg empty, rep.hiPrec]
    congr 1
    refine scan_least (sound.top prec lowest.1) (fun i earlier => ?_) fun _ => ?_
    · simp [rep.head_isSome (Nat.lt_trans earlier inside), lowest.2 i earlier]
    · simpa [rep.head_isSome inside] using lowest.1

theorem Represents.eprec (rep : Represents s pq) (sound : Sound pq) (below : prec < pq.numPrec) :
    s.eprec prec = pq.eprec prec := by
  rw [Queue.eprec, Pktq.eprec, rep.pfull_eq below, rep.peekTail sound]

namespace Invariant

theorem alone (inv : Invariant s pq) (below : prec < pq.numPrec) (full : pq.pfull prec) :
    pq.len = pq.max ∧ Lowest pq prec := by
  simp only [Pktq.pfull, inv.limits prec below, decide_eq_true_eq] at full
  have filled : pq.q prec ≠ [] := by
    intro none
    have := inv.positive
    simp only [none, List.length_nil] at full
    omega
  have most := length_le inv.sound prec
  have bounded := inv.bounded
  refine ⟨by omega, filled, fun i earlier => ?_⟩
  -- a packet elsewhere would be one more than the queue takes
  by_contra other
  have pair : (pq.q i).length + (pq.q prec).length ≤ pq.len := by
    have distinct : i ≠ prec := Nat.ne_of_lt earlier
    rw [inv.sound.len, ← Finset.sum_pair (f := fun i => (pq.q i).length) distinct]
    refine Finset.sum_le_sum_of_subset fun j member => ?_
    rcases Finset.mem_insert.mp member with rfl | member
    · exact Finset.mem_range.mpr (inv.sound.inside j other)
    · rw [Finset.mem_singleton.mp member]
      exact Finset.mem_range.mpr below
  have := List.length_pos_iff.mpr other
  omega

theorem len_of_blocked (inv : Invariant s pq) (below : prec < pq.numPrec)
    (blocked : ¬ (!pq.pfull prec && !pq.full) = true) : pq.len = pq.max := by
  cases full : pq.pfull prec with
  | true => exact (inv.alone below full).1
  | false =>
    have bounded := inv.bounded
    simp only [full, Pktq.full, Bool.not_false, Bool.true_and, Bool.not_eq_true', decide_eq_false_iff_not, not_le,
      not_lt] at blocked
    omega

theorem eprec_lowest (inv : Invariant s pq) (below : prec < pq.numPrec) (nonempty : pq.len ≠ 0)
    (lowest : Lowest pq e) : pq.eprec prec = if e ≤ prec then some e else none := by
  unfold Pktq.eprec
  split
  case isTrue full =>
    obtain rfl := lowest_unique lowest (inv.alone below full).2
    exact (if_pos (Nat.le_refl e)).symm
  · rw [peekTail_lowest inv.sound nonempty lowest, Option.filter_some]
    simp only [decide_eq_true_eq]

theorem evicts (inv : Invariant s pq) (below : prec < pq.numPrec) (found : pq.eprec prec = some e)
    (blocked : ¬ (!pq.pfull prec && !pq.full) = true) :
    pq.len = pq.max ∧ e ≤ prec ∧ Lowest pq e := by
  have total := inv.len_of_blocked below blocked
  have positive := inv.positive
  have nonempty : pq.len ≠ 0 := by omega
  obtain ⟨low, lowest⟩ := exists_lowest inv.sound nonempty
  rw [inv.eprec_lowest below nonempty lowest] at found
  obtain ⟨under, same⟩ := Option.ite_none_right_eq_some.mp found
  obtain rfl := Option.some.inj same
  exact ⟨total, under, lowest⟩

end Invariant

def removed (pq : Pktq P) (e : Nat) (rest : List P) : Pktq P :=
  { pq with q := Function.update pq.q e rest, len := pq.len - 1 }

theorem evicted_eq (filled : pq.q e ≠ []) (wmeDp : BitVec 8) :
    ∃ p rest, pq.q e = (if wmeDp.getLsbD e then p :: rest else rest ++ [p]) ∧
      (if wmeDp.getLsbD e then pq.pdeq e else pq.pdeqTail e) = (some p, removed pq e rest) := by
  cases wmeDp.getLsbD e with
  | true =>
    obtain ⟨p, rest, list⟩ := List.exists_cons_of_ne_nil filled
    exact ⟨p, rest, list, by simp only [if_true, Pktq.pdeq, list, removed]⟩
  | false =>
    obtain ⟨rest, p, list⟩ := (List.eq_nil_or_concat (pq.q e)).resolve_left filled
    rw [List.concat_eq_append] at list
    refine ⟨p, rest, list, ?_⟩
    simp only [Bool.false_eq_true, if_false, Pktq.pdeqTail, list, List.getLast?_concat, List.dropLast_concat, removed]

theorem removed_sound (sound : Sound pq) (wmeDp : BitVec 8) {p : P} {rest : List P}
    (step : (if wmeDp.getLsbD e then pq.pdeq e else pq.pdeqTail e) = (some p, removed pq e rest)) :
    Sound (removed pq e rest) := by
  have taken : Pktq.Taken pq (if wmeDp.getLsbD e then pq.pdeq e else pq.pdeqTail e) := by
    split
    · exact Pktq.taken_pdeq sound e
    · exact Pktq.taken_pdeqTail sound e
  rw [step] at taken
  exact taken.sound

theorem not_mem_removed {pkt p : P} {rest : List P} (new : ∀ i, pkt ∉ pq.q i) (wmeDp : BitVec 8)
    (list : pq.q e = if wmeDp.getLsbD e then p :: rest else rest ++ [p]) (i : Nat) :
    pkt ∉ (removed pq e rest).q i := by
  by_cases here : i = e
  · subst here
    have outside := new i
    rw [list] at outside
    intro inside
    simp only [removed, Function.update_self] at inside
    split at outside <;> simp [inside] at outside
  · simpa only [removed, Function.update_of_ne here] using new i

theorem dhdPrecEnq_cases (inv : Invariant s pq) (below : prec < pq.numPrec) (pkt : P) (wmeDp : BitVec 8) :
    (pq.len < pq.max ∧ PacketQueue.dhdPrecEnq wmeDp pq pkt prec = ⟨true, none, pq.penq prec pkt⟩) ∨
    (¬ Admits wmeDp pq prec ∧ PacketQueue.dhdPrecEnq wmeDp pq pkt prec = ⟨false, none, pq⟩) ∨
    ∃ e p rest, pq.len = pq.max ∧ e ≤ prec ∧ Lowest pq e ∧ (e = prec → wmeDp.getLsbD e = true) ∧
      pq.q e = (if wmeDp.getLsbD e then p :: rest else rest ++ [p]) ∧
      PacketQueue.dhdPrecEnq wmeDp pq pkt prec = ⟨true, some p, (removed pq e rest).penq prec pkt⟩ := by
  unfold PacketQueue.dhdPrecEnq
  split
  case isTrue free =>
    simp only [Pktq.full, Bool.and_eq_true, Bool.not_eq_true', decide_eq_false_iff_not, not_le] at free
    exact .inl ⟨free.2, rfl⟩
  case isFalse blocked =>
    have total := inv.len_of_blocked below blocked
    have positive := inv.positive
    have nonempty : pq.len ≠ 0 := by omega
    obtain ⟨e, lowest⟩ := exists_lowest inv.sound nonempty
    have refused : (e ≤ prec → e = prec ∧ wmeDp.getLsbD e = false) → ¬ Admits wmeDp pq prec := by
      rintro stays (free | ⟨i, under, other, gives⟩)
      · omega
      · obtain rfl := lowest_unique lowest other
        obtain ⟨same, keeps⟩ := stays under
        exact absurd (gives same) (Bool.eq_false_iff.mp keeps)
    rw [inv.eprec_lowest below nonempty lowest]
    split
    case h_1 none =>
      refine .inr (.inl ⟨refused fun under => ?_, rfl⟩)
      rw [if_pos under] at none
      cases none
    case h_2 i found =>
      obtain ⟨under, same⟩ := Option.ite_none_right_eq_some.mp found
      obtain rfl := Option.some.inj same
      dsimp only
      split
      case isTrue stays =>
        simp only [Bool.and_eq_true, decide_eq_true_eq, Bool.not_eq_true'] at stays
        exact .inr (.inl ⟨refused fun _ => stays, rfl⟩)
      case isFalse gives =>
        obtain ⟨p, rest, list, step⟩ := evicted_eq lowest.1 wmeDp
        refine .inr (.inr ⟨e, p, rest, total, under, lowest, fun own => ?_, list, by rw [step]⟩)
        simpa [own] using gives

def Spared (wmeDp : BitVec 8) (pq : Pktq P) (prec : Nat) (freed : Option P) (q : Nat → List P) : Prop :=
  (freed = none ∧ pq.len < pq.max ∧ q = pq.q) ∨
    ∃ e p rest, freed = some p ∧ pq.len = pq.max ∧ e ≤ prec ∧ Lowest pq e ∧
      pq.q e = (if wmeDp.getLsbD e then p :: rest else rest ++ [p]) ∧ q = Function.update pq.q e rest

theorem Invariant.carries {s' : Queue P} {pq' : Pktq P} (inv : Invariant s pq) (rep : Represents s' pq')
    (sound : Sound pq') (numPrec : pq'.numPrec = pq.numPrec) (max : pq'.max = pq.max) (qmax : pq'.qmax = pq.qmax)
    (bounded : pq'.len ≤ pq'.max) : Invariant s' pq' := by
  refine ⟨rep, sound, numPrec ▸ inv.room, bounded, max ▸ inv.positive, max ▸ inv.width, fun i below => ?_⟩
  rw [qmax, max]
  exact inv.limits i (numPrec ▸ below)

theorem spared_sublist {wmeDp : BitVec 8} {freed : Option P} {q : Nat → List P}
    (spared : Spared wmeDp pq prec freed q) (i : Nat) : (q i).Sublist (pq.q i) := by
  obtain ⟨_, _, rfl⟩ | ⟨e, p, rest, _, _, _, _, list, rfl⟩ := spared
  · exact List.Sublist.refl _
  · by_cases here : i = e
    · subst here
      rw [Function.update_self, list]
      split
      · exact List.sublist_cons_self p rest
      · exact List.sublist_append_left rest [p]
    · rw [Function.update_of_ne here]

end

variable [DecidableEq P]

def incr (n : Nat) : Nat := (n + 1) % 2 ^ 16

def decr (n : Nat) : Nat := (n + (2 ^ 16 - 1)) % 2 ^ 16

namespace Queue

/-- PKTSETLINK, which faults on a null pointer. -/
def setLink (pq : Queue P) (p v : Option P) : Option (Queue P) :=
  p.map fun p => { pq with link := Function.update pq.link p v }

def penq (pq : Queue P) (prec : Nat) (p : P) : Option (Queue P) := do
  let q := pq.q prec
  let pq ← if q.head.isSome then pq.setLink q.tail (some p) else some pq
  let head := if q.head.isSome then q.head else some p
  some { pq with
    q := Function.update pq.q prec { q with head := head, tail := some p, len := incr q.len }
    len := incr pq.len
    hiPrec := if pq.hiPrec < prec then prec % 2 ^ 8 else pq.hiPrec }

def pdeq (pq : Queue P) (prec : Nat) : Option P × Queue P :=
  let q := pq.q prec
  match q.head with
  | none => (none, pq)
  | some p =>
    let head := pq.link p
    (some p, { pq with
      q := Function.update pq.q prec
        { q with head := head, tail := if head.isNone then none else q.tail, len := decr q.len }
      len := decr pq.len
      link := Function.update pq.link p none })

/-- The loop of pktq_pdeq_tail, with prev and p where it stops; none if it follows a null pointer. -/
def walk (link : P → Option P) (tail : Option P) : Nat → Option P → Option P → Option (Option P × Option P)
  | 0, _, _ => none
  | fuel + 1, prev, p =>
    if p = tail then some (prev, p)
    else
      match p with
      | none => none
      | some x => walk link tail fuel (some x) (link x)

def pdeqTail (pq : Queue P) (prec : Nat) : Option (Option P × Queue P) :=
  let q := pq.q prec
  if q.head.isNone then some (none, pq)
  else do
    let (prev, p) ← walk pq.link q.tail q.len none q.head
    let link := match prev with
      | some prev => Function.update pq.link prev none
      | none => pq.link
    some (p, { pq with
      q := Function.update pq.q prec
        { q with head := if prev.isSome then q.head else none, tail := prev, len := decr q.len }
      len := decr pq.len
      link := link })

end Queue

structure Outcome (P : Type) where
  accepted : Bool
  freed : Option P
  queue : Queue P

def dhdPrecEnq (wmeDp : BitVec 8) (pq : Queue P) (pkt : P) (prec : Nat) : Option (Outcome P) :=
  if !pq.pfull prec && !pq.full then (pq.penq prec pkt).map (⟨true, none, ·⟩)
  else
    match pq.eprec prec with
    | none => some ⟨false, none, pq⟩
    | some eprec =>
      let discardOldest := wmeDp.getLsbD eprec
      if eprec = prec && !discardOldest then some ⟨false, none, pq⟩
      else do
        let freed ← (if discardOldest then some (pq.pdeq eprec) else pq.pdeqTail eprec)
        let after ← freed.2.penq prec pkt
        some ⟨true, freed.1, after⟩

theorem incr_eq {n max : Nat} (below : n < max) (width : max < 2 ^ 16) : incr n = n + 1 :=
  Nat.mod_eq_of_lt (by omega)

theorem decr_eq {n max : Nat} (positive : n ≠ 0) (bounded : n ≤ max) (width : max < 2 ^ 16) :
    decr n = n - 1 := by
  unfold decr
  omega

namespace Represents
variable {s : Queue P} {pq : Pktq P} {prec : Nat} {p : P}

theorem penq (rep : Represents s pq) (below : prec < pq.numPrec) (new : ∀ i, p ∉ pq.q i)
    (room : pq.numPrec ≤ 16) (free : pq.len < 2 ^ 16 - 1) (short : (pq.q prec).length < 2 ^ 16 - 1) :
    ∃ s', s.penq prec p = some s' ∧ Represents s' (pq.penq prec p) := by
  have total : incr s.len = pq.len + 1 := by
    rw [rep.len]
    exact incr_eq free (by omega)
  have own : incr (s.q prec).len = (pq.q prec).length + 1 := by
    rw [rep.counted prec below]
    exact incr_eq short (by omega)
  have hi : (if s.hiPrec < prec then prec % 2 ^ 8 else s.hiPrec) = if pq.hiPrec < prec then prec else pq.hiPrec := by
    rw [rep.hiPrec, Nat.mod_eq_of_lt (by omega)]
  have apart : ∀ x ∈ pq.q prec ++ [p], ∀ i ≠ prec, x ∉ pq.q i := by
    intro x inside i other again
    rcases List.mem_append.mp inside with old | fresh
    · exact other (rep.apart i prec x again old)
    · rw [List.mem_singleton.mp fresh] at again
      exact new i again
  rcases List.eq_nil_or_concat (pq.q prec) with none | ⟨front, last, list⟩
  · -- the first packet of its precedence
    have head : (s.q prec).head = .none := by
      simpa [none] using seg_head (rep.linked prec below)
    refine ⟨_, by simp only [Queue.penq, head]; rfl, ?_⟩
    simp only [total, own, hi]
    refine rep.update ?_ ?_ ?_ rfl (fun _ _ _ _ => rfl) apart fun x outside others => ?_
    · simpa [none, Seg] using rep.loose p new
    · simp
    · simp
    · exact rep.link_none (by simp [none]) others
  · -- the old tail is linked to it
    rw [List.concat_eq_append] at list
    have segment := rep.linked prec below
    have head : (s.q prec).head.isSome := by simp [rep.head_isSome below, list]
    have tail : (s.q prec).tail = some last := by simp [rep.tail prec below, list]
    rw [list] at segment
    have once : last ∉ front := seg_once segment
    refine ⟨_, by simp only [Queue.penq, head, tail, Queue.setLink]; rfl, ?_⟩
    simp only [total, own, hi]
    refine rep.update ?_ ?_ ?_ rfl (fun i other x inside => ?_) apart fun x outside others => ?_
    · rw [list]
      refine seg_concat.mpr ⟨seg_relink segment once (some p), ?_⟩
      rw [Function.update_of_ne]
      · exact rep.loose p new
      · rintro rfl
        exact new prec (by simp [list])
    · simp
    · simp
    · refine Function.update_of_ne ?_ _ _
      rintro rfl
      exact other (rep.apart i prec x inside (by simp [list]))
    · have elsewhere : x ∉ pq.q prec := fun inside => outside (List.mem_append_left _ inside)
      rw [Function.update_of_ne]
      · exact rep.link_none elsewhere others
      · rintro rfl
        exact elsewhere (by simp [list])

theorem pdeq (rep : Represents s pq) (below : prec < pq.numPrec) (free : pq.len < 2 ^ 16)
    (counted : (pq.q prec).length ≤ pq.len) :
    (s.pdeq prec).1 = (pq.pdeq prec).1 ∧ Represents (s.pdeq prec).2 (pq.pdeq prec).2 := by
  have segment := rep.linked prec below
  cases list : pq.q prec with
  | nil =>
    rw [list] at segment
    simp only [Queue.pdeq, seg_head segment, List.head?_nil, Pktq.pdeq, list]
    exact ⟨trivial, rep⟩
  | cons x rest =>
    rw [list] at segment
    obtain ⟨head, others⟩ := segment
    have distinct := seg_nodup (rep.linked prec below)
    rw [list, List.nodup_cons] at distinct
    have total : decr s.len = pq.len - 1 := by
      rw [rep.len]
      simp only [list, List.length_cons] at counted
      exact decr_eq (by omega) (Nat.le_refl _) free
    have own : decr (s.q prec).len = rest.length := by
      rw [rep.counted prec below, list]
      simp only [list, List.length_cons] at counted ⊢
      exact decr_eq (by omega) counted free
    simp only [Queue.pdeq, head, Pktq.pdeq, list, total, own, rep.hiPrec]
    refine ⟨trivial, rep.update ?_ ?_ rfl rfl (fun i other y inside => ?_) (fun y inside i other again => ?_)
      fun y outside elsewhere => ?_⟩
    · exact (seg_update distinct.1 none).mpr others
    · rw [seg_head others, rep.tail prec below, list]
      cases rest with
      | nil => rfl
      | cons y rest => simp
    · refine Function.update_of_ne ?_ _ _
      rintro rfl
      exact other (rep.apart i prec y inside (by simp [list]))
    · exact other (rep.apart i prec y again (by simp [list, inside]))
    · by_cases same : y = x
      · rw [same, Function.update_self]
      · rw [Function.update_of_ne same]
        exact rep.link_none (by simp [list, same, outside]) elsewhere

end Represents

theorem walk_last {link : P → Option P} {last : P} {front : List P} {p q : Option P}
    (segment : Seg link p (front ++ [last]) none) (once : last ∉ front) :
    Queue.walk link (some last) (front.length + 1) q p = some (front.getLast?.or q, some last) := by
  induction front generalizing p q with
  | nil =>
    obtain ⟨rfl, _⟩ := segment
    simp [Queue.walk]
  | cons x front ih =>
    obtain ⟨rfl, rest⟩ := segment
    have other : x ≠ last := fun same => once (by simp [same])
    have later : last ∉ front := fun inside => once (List.mem_cons_of_mem x inside)
    rw [List.length_cons, Queue.walk, if_neg (by simpa using other)]
    rw [ih rest later, List.getLast?_cons]
    cases front.getLast? <;> rfl

namespace Represents
variable {s : Queue P} {pq : Pktq P} {prec : Nat} {p : P}

theorem pdeqTail (rep : Represents s pq) (below : prec < pq.numPrec) (free : pq.len < 2 ^ 16)
    (counted : (pq.q prec).length ≤ pq.len) :
    ∃ s', s.pdeqTail prec = some ((pq.pdeqTail prec).1, s') ∧ Represents s' (pq.pdeqTail prec).2 := by
  have segment := rep.linked prec below
  rcases List.eq_nil_or_concat (pq.q prec) with list | ⟨front, last, list⟩
  · rw [list] at segment
    refine ⟨s, ?_, ?_⟩
    · simp only [Queue.pdeqTail, seg_head segment, List.head?_nil, Pktq.pdeqTail, list]
      rfl
    · simpa only [Pktq.pdeqTail, list, List.getLast?_nil] using rep
  · rw [List.concat_eq_append] at list
    rw [list] at segment
    have head : (s.q prec).head.isNone = false := by
      rw [seg_head segment]
      cases front <;> rfl
    have once : last ∉ front := seg_once segment
    have total : decr s.len = pq.len - 1 := by
      rw [rep.len]
      simp only [list, List.length_append, List.length_singleton] at counted
      exact decr_eq (by omega) (Nat.le_refl _) free
    have own : decr (s.q prec).len = front.length := by
      rw [rep.counted prec below, list]
      simp only [list, List.length_append, List.length_singleton] at counted ⊢
      exact decr_eq (by omega) counted free
    have stops : Queue.walk s.link (s.q prec).tail (s.q prec).len none (s.q prec).head =
        some (front.getLast?, some last) := by
      rw [rep.tail prec below, rep.counted prec below, list]
      simpa using walk_last (q := none) segment once
    have apart : ∀ x ∈ front, ∀ i ≠ prec, x ∉ pq.q i :=
      fun x inside i other again => other (rep.apart i prec x again (by simp [list, inside]))
    simp only [Queue.pdeqTail, head, stops, Pktq.pdeqTail, list, List.getLast?_concat, List.dropLast_concat, total,
      own, rep.hiPrec]
    refine ⟨_, rfl, ?_⟩
    rcases List.eq_nil_or_concat front with none | ⟨before, prev, rfl⟩
    · subst none
      refine rep.update rfl rfl rfl rfl (fun _ _ _ _ => rfl) apart fun x outside elsewhere => ?_
      by_cases same : x = last
      · subst same
        exact (seg_concat.mp segment).2
      · exact rep.link_none (by simp [list, same]) elsewhere
    · simp only [List.concat_eq_append, List.getLast?_concat] at segment once apart list ⊢
      have first : prev ∉ before := seg_once (by simpa using segment)
      have inside : prev ∈ before ++ [prev] := by simp
      refine rep.update ?_ (by simp) (by simp) rfl (fun i other x again => ?_) apart fun x outside elsewhere => ?_
      · exact seg_relink (seg_concat.mp segment).1 first none
      · refine Function.update_of_ne ?_ _ _
        rintro rfl
        exact apart x inside i other again
      · rw [Function.update_of_ne (ne_of_mem_of_not_mem inside outside).symm]
        by_cases same : x = last
        · subst same
          exact (seg_concat.mp segment).2
        · exact rep.link_none (by simpa [list, same] using outside) elsewhere

end Represents

section
variable {s : Queue P} {pq : Pktq P} {prec e : Nat} {pkt : P}

theorem evicted_refines (inv : Invariant s pq) (below : e < pq.numPrec) (wmeDp : BitVec 8) :
    ∃ s', (if wmeDp.getLsbD e then some (s.pdeq e) else s.pdeqTail e) =
        some ((if wmeDp.getLsbD e then pq.pdeq e else pq.pdeqTail e).1, s') ∧
      Represents s' (if wmeDp.getLsbD e then pq.pdeq e else pq.pdeqTail e).2 := by
  have free : pq.len < 2 ^ 16 := Nat.lt_of_le_of_lt inv.bounded inv.width
  have counted := length_le inv.sound e
  cases wmeDp.getLsbD e with
  | true =>
    obtain ⟨same, rep⟩ := inv.represents.pdeq below free counted
    exact ⟨(s.pdeq e).2, by simp only [if_true, ← same], rep⟩
  | false => exact inv.represents.pdeqTail below free counted

theorem dhdPrecEnq_refines (inv : Invariant s pq) (below : prec < pq.numPrec) (new : ∀ i, pkt ∉ pq.q i)
    (wmeDp : BitVec 8) :
    ∃ after, dhdPrecEnq wmeDp s pkt prec = some ⟨(PacketQueue.dhdPrecEnq wmeDp pq pkt prec).accepted,
        (PacketQueue.dhdPrecEnq wmeDp pq pkt prec).evicted, after⟩ ∧
      Represents after (PacketQueue.dhdPrecEnq wmeDp pq pkt prec).queue ∧
      ((PacketQueue.dhdPrecEnq wmeDp pq pkt prec).accepted = false → after = s) := by
  have rep := inv.represents
  have width := inv.width
  have bounded := inv.bounded
  unfold dhdPrecEnq PacketQueue.dhdPrecEnq
  rw [rep.pfull_eq below, rep.full_eq, rep.eprec inv.sound below]
  by_cases blocked : (!pq.pfull prec && !pq.full) = true
  · have free := blocked
    simp only [Pktq.full, Pktq.pfull, Bool.and_eq_true, Bool.not_eq_true', decide_eq_false_iff_not, not_le,
      inv.limits prec below] at free
    obtain ⟨after, step, rep⟩ := rep.penq below new inv.room (by omega) (by omega)
    rw [if_pos blocked, if_pos blocked]
    exact ⟨after, by simp [step], rep, fun refused => absurd refused (by simp)⟩
  · rw [if_neg blocked, if_neg blocked]
    cases found : pq.eprec prec with
    | none => exact ⟨s, rfl, rep, fun _ => rfl⟩
    | some e =>
      dsimp only
      by_cases refused : (decide (e = prec) && !wmeDp.getLsbD e) = true
      · rw [if_pos refused, if_pos refused]
        exact ⟨s, rfl, rep, fun _ => rfl⟩
      · rw [if_neg refused, if_neg refused]
        obtain ⟨total, under, lowest⟩ := inv.evicts below found blocked
        have inside := inv.sound.inside e lowest.1
        obtain ⟨p, rest, list, step⟩ := evicted_eq lowest.1 wmeDp
        obtain ⟨middle, freed, rep⟩ := evicted_refines inv inside wmeDp
        rw [step] at freed rep ⊢
        have positive := inv.positive
        have shorter : (removed pq e rest).len < 2 ^ 16 - 1 := by
          simp only [removed]
          omega
        have short : ((removed pq e rest).q prec).length < 2 ^ 16 - 1 :=
          Nat.lt_of_le_of_lt (length_le (removed_sound inv.sound wmeDp step) prec) shorter
        obtain ⟨after, queued, rep⟩ := rep.penq below (not_mem_removed new wmeDp list) inv.room shorter short
        exact ⟨after, by rw [freed]; simp [queued], rep, fun refused => absurd refused (by simp)⟩

theorem appended_sublist {wmeDp : BitVec 8} {freed : Option P} {q : Nat → List P}
    (spared : Spared wmeDp pq prec freed q) (i : Nat) :
    ((Function.update q prec (q prec ++ [pkt]) i).filter (· ≠ pkt)).Sublist (pq.q i) := by
  by_cases here : i = prec
  · subst here
    rw [Function.update_self, List.filter_append]
    simp only [ne_eq, decide_not, List.filter_singleton, decide_true, Bool.not_true, cond_false, List.append_nil]
    exact List.filter_sublist.trans (spared_sublist spared i)
  · rw [Function.update_of_ne here]
    exact List.filter_sublist.trans (spared_sublist spared i)

theorem dhd_prec_enq_contract (inv : Invariant s pq) (below : prec < pq.numPrec) (new : ∀ i, pkt ∉ pq.q i)
    (wmeDp : BitVec 8) :
    ∃ done after, dhdPrecEnq wmeDp s pkt prec = some done ∧ Invariant done.queue after ∧
      (done.accepted = true ↔ Admits wmeDp pq prec) ∧
      (done.accepted = true ↔ (after.q prec).getLast? = some pkt) ∧
      (done.accepted = false → done.freed = none ∧ done.queue = s ∧ after = pq) ∧
      (done.accepted = true → ∃ q, Spared wmeDp pq prec done.freed q ∧
        after.q = Function.update q prec (q prec ++ [pkt])) ∧
      ∀ i, ((after.q i).filter (· ≠ pkt)).Sublist (pq.q i) := by
  obtain ⟨queue, step, rep, same⟩ := dhdPrecEnq_refines inv below new wmeDp
  have accounted := accounted_dhdPrecEnq inv.sound below wmeDp pkt
  refine ⟨_, (PacketQueue.dhdPrecEnq wmeDp pq pkt prec).queue, step, ?_⟩
  rcases dhdPrecEnq_cases inv below pkt wmeDp with ⟨free, done⟩ | ⟨refused, done⟩ |
    ⟨e, p, rest, total, under, low, gives, list, done⟩
  · rw [done] at rep accounted ⊢
    have spared : Spared wmeDp pq prec none pq.q := .inl ⟨rfl, free, rfl⟩
    refine ⟨inv.carries rep accounted.sound rfl rfl rfl free, iff_of_true rfl (.inl free), ?_,
      fun refused => absurd refused (by simp), fun _ => ⟨_, spared, rfl⟩, ?_⟩
    · simp [Pktq.penq]
    · exact appended_sublist spared
  · rw [done] at rep accounted same ⊢
    refine ⟨inv.carries rep accounted.sound rfl rfl rfl inv.bounded, iff_of_false (by simp) refused, ?_,
      fun _ => ⟨rfl, same rfl, rfl⟩,
      fun taken => absurd taken (by simp), ?_⟩
    · have absent := new prec
      simp only [Bool.false_eq_true, false_iff]
      exact fun last => absent (List.mem_of_getLast? last)
    · exact fun i => List.filter_sublist
  · rw [done] at rep accounted ⊢
    have spared : Spared wmeDp pq prec (some p) (removed pq e rest).q :=
      .inr ⟨e, p, rest, rfl, total, under, low, list, rfl⟩
    have bounded : ((removed pq e rest).penq prec pkt).len ≤ pq.max := by
      have positive := inv.positive
      simp only [Pktq.penq, removed]
      omega
    refine ⟨inv.carries rep accounted.sound rfl rfl rfl bounded, iff_of_true rfl (.inr ⟨e, under, low, gives⟩), ?_,
      fun refused => absurd refused (by simp), fun _ => ⟨_, spared, rfl⟩, ?_⟩
    · simp [Pktq.penq]
    · exact appended_sublist spared

end

def crowdedLists : Pktq Nat :=
  ⟨2, 1, 2, 2, fun i => if i = 0 then [10] else if i = 1 then [11] else [], fun _ => 2⟩

def crowded : Queue Nat :=
  ⟨2, 1, 2, 2, fun i => ⟨some (10 + i), some (10 + i), 1, 2⟩, fun _ => none⟩

theorem crowded_invariant : Invariant crowded crowdedLists := by
  have two : ∀ i < 2, crowdedLists.q i = [10 + i] := by decide
  have rest : ∀ i, crowdedLists.q i ≠ [] → i < 2 := by
    intro i filled
    by_contra above
    exact filled (by simp only [crowdedLists]; rw [if_neg (by omega), if_neg (by omega)])
  refine ⟨⟨rfl, rfl, rfl, rfl, fun i below => ?_, fun i below => ?_, fun i below => ?_, fun i below => rfl, ?_,
      fun _ _ => rfl⟩, ⟨by decide, rest, fun i filled => Nat.le_of_lt_succ (rest i filled)⟩,
    by decide, by decide, by decide, by decide, fun _ _ => rfl⟩
  · rw [two i below]
    exact ⟨rfl, rfl⟩
  · rw [two i below]
    rfl
  · rw [two i below]
    rfl
  · intro i j p first second
    rw [two i (rest i (List.ne_nil_of_mem first)), List.mem_singleton] at first
    rw [two j (rest j (List.ne_nil_of_mem second)), List.mem_singleton] at second
    omega

theorem dhd_prec_enq_contract_crowded :
    ∃ done after, dhdPrecEnq 0 crowded 12 1 = some done ∧ Invariant done.queue after ∧ done.accepted = true ∧
      done.freed = some 10 ∧ after.q 0 = [] ∧ after.q 1 = [11, 12] := by
  have new : ∀ i, 12 ∉ crowdedLists.q i := by
    intro i inside
    simp only [crowdedLists] at inside
    split at inside
    · simp at inside
    · split at inside <;> simp at inside
  have low : Lowest crowdedLists 0 := ⟨List.cons_ne_nil 10 [], nofun⟩
  obtain ⟨done, after, step, inv, admitted, _, _, contents, _⟩ :=
    dhd_prec_enq_contract crowded_invariant (show 1 < crowdedLists.numPrec by decide) new 0
  have accepted := admitted.mpr (.inr ⟨0, Nat.zero_le 1, low, nofun⟩)
  obtain ⟨q, ⟨_, room, _⟩ | ⟨e, p, rest, freed, _, _, lowest, list, rfl⟩, lists⟩ := contents accepted
  · exact absurd room (by decide)
  · obtain rfl := lowest_unique low lowest
    obtain ⟨rfl, rfl⟩ : rest = [] ∧ p = 10 := by
      have single : [10] = rest ++ [p] := list
      cases rest with
      | nil => exact ⟨rfl, (List.cons.inj single).1.symm⟩
      | cons first others => simp at single
    exact ⟨done, after, step, inv, accepted, freed, by rw [lists]; rfl, by rw [lists]; rfl⟩

end QueueEviction
