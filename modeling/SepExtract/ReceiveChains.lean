import Mathlib
import SepExtract.LinkedLists

/- dhd_rx_frame of dhd_linux.c, which hands a chain of packets linked through PKTNEXT upwards,
   and osl_pktfree, which frees a packet with all that is linked behind it. -/
namespace ReceiveChains
open LinkedLists

variable {P : Type}

/-- What happens to a packet; touch is any access to its fields. -/
inductive Event (P : Type) where
  | touch (p : P)
  | netifRx (p : P)
  | netifRxNi (p : P)
  | free (p : P)
deriving DecidableEq

namespace Event

def pkt : Event P → P
  | .touch p | .netifRx p | .netifRxNi p | .free p => p

def handsOver : Event P → Bool
  | .touch _ => false
  | _ => true

end Event

inductive Handled : List P → List (Event P) → Prop
  | nil : Handled [] []
  | cons {p : P} {e : Event P} {l : List P} {log : List (Event P)} (pkt : e.pkt = p) (gone : e.handsOver = true)
      (rest : Handled l log) : Handled (p :: l) (.touch p :: e :: log)

section
variable {l : List P} {log : List (Event P)} {p : P}

theorem handled_freed (l : List P) : Handled l (l.flatMap fun x => [.touch x, .free x]) := by
  induction l with
  | nil => exact .nil
  | cons x l ih => exact .cons rfl rfl ih

theorem Handled.mem (handled : Handled l log) {e : Event P} (inside : e ∈ log) : e.pkt ∈ l := by
  induction handled with
  | nil => cases inside
  | cons pkt gone rest ih =>
    rcases List.mem_cons.mp inside with rfl | later
    · exact List.mem_cons_self
    · rcases List.mem_cons.mp later with rfl | later
      · rw [pkt]
        exact List.mem_cons_self
      · exact List.mem_cons_of_mem _ (ih later)

theorem Handled.gone (handled : Handled l log) (inside : p ∈ l) : ∃ e ∈ log, e.handsOver = true ∧ e.pkt = p := by
  induction handled with
  | nil => cases inside
  | cons pkt gone rest ih =>
    rcases List.mem_cons.mp inside with rfl | later
    · exact ⟨_, by simp, gone, pkt⟩
    · obtain ⟨e, member, found⟩ := ih later
      exact ⟨e, by simp [member], found⟩

theorem Handled.unused (handled : Handled l log) (distinct : l.Nodup) :
    log.Pairwise fun e f => e.handsOver = true → f.pkt ≠ e.pkt := by
  induction handled with
  | nil => exact List.Pairwise.nil
  | cons pkt gone rest ih =>
    obtain ⟨fresh, distinct⟩ := List.nodup_cons.mp distinct
    refine List.pairwise_cons.mpr ⟨fun _ _ => nofun, ?_⟩
    refine List.pairwise_cons.mpr ⟨fun f later _ same => fresh ?_, ih distinct⟩
    rw [← pkt, ← same]
    exact rest.mem later

end

structure Memory (P : Type) where
  next : P → Option P
  log : List (Event P)

structure Interface where
  /-- The net device, and whether its reg_state is NETREG_REGISTERED. -/
  net : Option Bool

structure World (P : Type) where
  iflist : Nat → Nat → Option Interface
  up : Nat → Bool
  inInterrupt : Nat → Bool
  /-- The protocol of the packet is ETHER_TYPE_BRCM. -/
  brcm : P → Bool
  /-- The index that dhd_wl_host_event leaves. -/
  hostEvent : Nat → Nat → Nat
  /-- The link found in a packet that has been handed over. -/
  stale : P → Option P

namespace World

def drops (w : World P) (i ifidx : Nat) : Bool :=
  match w.iflist i ifidx with
  | none => true
  | some ifp => ifp.net != some true || !w.up i

def ifidxAfter (w : World P) (i ifidx : Nat) (p : P) : Nat :=
  if w.brcm p then w.hostEvent i ifidx else ifidx

def delivery (w : World P) (i : Nat) (p : P) : Event P :=
  if w.inInterrupt i then .netifRx p else .netifRxNi p

theorem delivery_pkt (w : World P) (i : Nat) (x : P) :
    (w.delivery i x).pkt = x ∧ (w.delivery i x).handsOver = true := by
  unfold delivery
  split <;> exact ⟨rfl, rfl⟩

end World

def firstDrop (w : World P) : Nat → Nat → Nat → List P → Option Nat
  | 0, _, _, _ => none
  | _ + 1, _, _, [] => none
  | left + 1, i, ifidx, p :: chain =>
    if w.drops i ifidx then some i else firstDrop w left (i + 1) (w.ifidxAfter i ifidx p) chain

theorem firstDrop_ge {w : World P} {left i ifidx j : Nat} {l : List P} (found : firstDrop w left i ifidx l = some j) :
    i ≤ j := by
  induction left generalizing i ifidx l with
  | zero => cases found
  | succ left ih =>
    cases l with
    | nil => cases found
    | cons x l =>
      simp only [firstDrop] at found
      split at found
      · exact Nat.le_of_eq (Option.some.inj found)
      · exact Nat.le_of_succ_le (ih found)

variable [DecidableEq P]

def Memory.handOver (m : Memory P) (w : World P) (p : P) (e : Event P) : Memory P :=
  ⟨Function.update m.next p (w.stale p), m.log ++ [.touch p, e]⟩

def pktfree (w : World P) : Nat → Option P → Memory P → Memory P
  | _, none, m => m
  | 0, some _, m => m
  | fuel + 1, some p, m => pktfree w fuel (m.next p) (m.handOver w p (.free p))

def rxLoop (w : World P) (fuel : Nat) : Nat → Nat → Nat → Option P → Option P → Memory P → Memory P
  | 0, _, _, _, _, m => m
  | _ + 1, _, _, none, _, m => m
  | left + 1, i, ifidx, some p, pnext, m =>
    -- the drop leaves pnext as it was
    if w.drops i ifidx then rxLoop w fuel left (i + 1) ifidx pnext pnext (pktfree w fuel (some p) m)
    else
      let pnext := m.next p
      rxLoop w fuel left (i + 1) (w.ifidxAfter i ifidx p) pnext pnext (m.handOver w p (w.delivery i p))

def dhdRxFrame (w : World P) (fuel : Nat) (next : P → Option P) (ifidx : Nat) (pktbuf : Option P) (numpkt : Int) :
    List (Event P) :=
  (rxLoop w fuel numpkt.toNat 0 ifidx pktbuf none ⟨next, []⟩).log

structure Released (log : List (Event P)) (chain : List P) (n : Nat) : Prop where
  once : ∀ p ∈ chain.take n, (log.filter fun e => e.handsOver && e.pkt = p).length = 1
  unused : log.Pairwise fun e f => e.handsOver = true → f.pkt ≠ e.pkt
  kept : ∀ p ∈ chain.drop n, ∀ e ∈ log, e.handsOver = true → e.pkt ≠ p

section
variable {l : List P} {log : List (Event P)} {p : P}

theorem Handled.once (handled : Handled l log) (distinct : l.Nodup) (inside : p ∈ l) :
    (log.filter fun e => e.handsOver && e.pkt = p).length = 1 := by
  induction handled with
  | nil => cases inside
  | @cons q e l log pkt gone rest ih =>
    obtain ⟨fresh, distinct⟩ := List.nodup_cons.mp distinct
    have touched : (Event.touch q).handsOver = false := rfl
    rw [List.filter_cons_of_neg (by simp [touched])]
    by_cases here : q = p
    · subst here
      have others : log.filter (fun e => e.handsOver && e.pkt = q) = [] := by
        refine List.filter_eq_nil_iff.mpr fun f later => ?_
        have other : f.pkt ≠ q := fun same => fresh (same ▸ rest.mem later)
        simp [other]
      rw [List.filter_cons_of_pos (by simp [gone, pkt]), others]
      rfl
    · rw [List.filter_cons_of_neg (by simp [pkt, here])]
      exact ih distinct ((List.mem_cons.mp inside).resolve_left fun same => here same.symm)

theorem Handled.released {n : Nat} (distinct : l.Nodup) (handled : Handled (l.take n) log) : Released log l n := by
  refine ⟨fun p inside => handled.once (distinct.sublist (List.take_sublist n l)) inside,
    handled.unused (distinct.sublist (List.take_sublist n l)), fun p behind e member _ same => ?_⟩
  have front := handled.mem member
  rw [same] at front
  exact (List.disjoint_take_drop distinct (Nat.le_refl n)) front behind

theorem Handled.released_iff {n : Nat} (distinct : l.Nodup) (handled : Handled l log) :
    Released log l n ↔ l.length ≤ n := by
  constructor
  · intro released
    by_contra short
    have behind : l.drop n ≠ [] := by
      rw [Ne, List.drop_eq_nil_iff]
      exact short
    obtain ⟨p, inside⟩ := List.exists_mem_of_ne_nil _ behind
    obtain ⟨e, member, gone, pkt⟩ := handled.gone (List.mem_of_mem_drop inside)
    exact released.kept p inside e member gone pkt
  · intro all
    exact Handled.released distinct (by rwa [List.take_of_length_le all])

theorem Handled.not_released {n : Nat} {whole : List (Event P)} (handled : Handled l log) (inside : p ∈ l)
    (used : log ++ [.touch p] <+: whole) : ¬ Released whole l n := by
  intro released
  obtain ⟨e, member, gone, pkt⟩ := handled.gone inside
  have apart := (List.pairwise_append.mp (released.unused.sublist used.sublist)).2.2
  exact apart e member (.touch p) List.mem_cons_self gone pkt.symm

end

section
variable {w : World P} {fuel left i ifidx : Nat} {l : List P} {p q : Option P} {m : Memory P} {x : P} {e : Event P}

theorem seg_handOver (chain : Seg m.next (some x) (x :: l) none) (w : World P) (e : Event P) :
    Seg (m.handOver w x e).next (m.next x) l none :=
  (seg_update (List.nodup_cons.mp (seg_nodup chain)).1 (w.stale x)).mpr chain.2

theorem handled_turn {after : Memory P} {log : List (Event P)} (pkt : e.pkt = x) (gone : e.handsOver = true)
    (later : after.log = (m.handOver w x e).log ++ log) (handled : Handled l log) :
    after.log = m.log ++ .touch x :: e :: log ∧ Handled (x :: l) (.touch x :: e :: log) :=
  ⟨by simp [later, Memory.handOver], .cons pkt gone handled⟩

/-- osl_pktfree frees a packet together with everything linked behind it. -/
theorem pktfree_log (chain : Seg m.next p l none) (enough : l.length ≤ fuel) :
    (pktfree w fuel p m).log = m.log ++ l.flatMap fun x => [.touch x, .free x] := by
  induction l generalizing p m fuel with
  | nil =>
    obtain rfl := chain
    simp [pktfree]
  | cons x l ih =>
    cases fuel with
    | zero => cases enough
    | succ fuel =>
      obtain rfl := chain.1
      rw [pktfree, ih (seg_handOver chain w (.free x)) (Nat.le_of_succ_le_succ enough)]
      simp [Memory.handOver]

theorem pktfree_grows (w : World P) (fuel : Nat) (p : Option P) (m : Memory P) :
    m.log <+: (pktfree w fuel p m).log := by
  induction fuel generalizing p m with
  | zero => cases p <;> exact List.prefix_rfl
  | succ fuel ih =>
    cases p with
    | none => exact List.prefix_rfl
    | some x => exact (List.prefix_append m.log _).trans (ih (m.next x) (m.handOver w x (.free x)))

theorem rxLoop_grows (w : World P) (fuel left i ifidx : Nat) (p q : Option P) (m : Memory P) :
    m.log <+: (rxLoop w fuel left i ifidx p q m).log := by
  induction left generalizing i ifidx p q m with
  | zero => exact List.prefix_rfl
  | succ left ih =>
    cases p with
    | none => exact List.prefix_rfl
    | some x =>
      simp only [rxLoop]
      split
      · exact (pktfree_grows w fuel (some x) m).trans (ih _ _ _ _ _)
      · exact (List.prefix_append m.log _).trans (ih _ _ _ _ (m.handOver w x (w.delivery i x)))

theorem rxLoop_touches (w : World P) (fuel left i ifidx : Nat) (x : P) (q : Option P) (m : Memory P) :
    m.log ++ [.touch x] <+: (rxLoop w (fuel + 1) (left + 1) i ifidx (some x) q m).log := by
  have used : ∀ e, m.log ++ [.touch x] <+: (m.handOver w x e).log :=
    fun e => by simp [Memory.handOver, List.prefix_append_right_inj]
  simp only [rxLoop]
  split
  · exact ((used _).trans (pktfree_grows w fuel (m.next x) _)).trans (rxLoop_grows _ _ _ _ _ _ _ _)
  · exact (used _).trans (rxLoop_grows _ _ _ _ _ _ _ _)

theorem rxLoop_undropped (chain : Seg m.next p l none) (quiet : firstDrop w left i ifidx l = none) :
    ∃ log, (rxLoop w fuel left i ifidx p q m).log = m.log ++ log ∧ Handled (l.take left) log := by
  induction left generalizing l i ifidx p q m with
  | zero => exact ⟨[], by simp [rxLoop], .nil⟩
  | succ left ih =>
    cases l with
    | nil =>
      obtain rfl := chain
      exact ⟨[], by simp [rxLoop], .nil⟩
    | cons x l =>
      obtain rfl := chain.1
      simp only [firstDrop] at quiet
      split at quiet
      · cases quiet
      · rename_i kept
        obtain ⟨log, later, handled⟩ := ih (seg_handOver chain w (w.delivery i x)) quiet
        obtain ⟨pkt, gone⟩ := w.delivery_pkt i x
        simp only [rxLoop, kept]
        exact ⟨_, handled_turn pkt gone later handled⟩

/-- From a turn on where pnext is the packet of the turn, a drop frees the rest of the chain, and the turn after it
    is that of a packet that was freed. -/
theorem rxLoop_dropped {j : Nat} (chain : Seg m.next p l none) (enough : l.length ≤ fuel)
    (dropped : firstDrop w left i ifidx l = some j) :
    ∃ log, Handled l log ∧
      (j + 1 = i + left → (rxLoop w fuel left i ifidx p p m).log = m.log ++ log) ∧
      (j + 1 ≠ i + left → ∃ x ∈ l, m.log ++ log ++ [.touch x] <+: (rxLoop w fuel left i ifidx p p m).log) := by
  induction left generalizing l i ifidx p m with
  | zero => cases dropped
  | succ left ih =>
    cases l with
    | nil => cases dropped
    | cons x l =>
      obtain rfl := chain.1
      simp only [firstDrop] at dropped
      split at dropped
      · rename_i now
        obtain rfl := Option.some.inj dropped
        have freed := pktfree_log (w := w) chain enough
        refine ⟨_, handled_freed _, fun last => ?_, fun more => ?_⟩
        · obtain rfl : left = 0 := by omega
          simpa [rxLoop, now] using freed
        · obtain ⟨left, rfl⟩ := Nat.exists_eq_add_one_of_ne_zero (show left ≠ 0 by omega)
          cases fuel with
          | zero => cases enough
          | succ fuel =>
            refine ⟨x, List.mem_cons_self, ?_⟩
            rw [rxLoop, if_pos now, ← freed]
            exact rxLoop_touches w fuel left (i + 1) ifidx x (some x) _
      · rename_i kept
        obtain ⟨log, handled, last, more⟩ :=
          ih (seg_handOver chain w (w.delivery i x)) (Nat.le_of_succ_le enough) dropped
        obtain ⟨pkt, gone⟩ := w.delivery_pkt i x
        refine ⟨.touch x :: w.delivery i x :: log, .cons pkt gone handled, fun ends => ?_, fun goes => ?_⟩
        · rw [rxLoop, if_neg kept, last (by omega)]
          simp [Memory.handOver]
        · obtain ⟨y, inside, used⟩ := more (by omega)
          refine ⟨y, List.mem_cons_of_mem x inside, ?_⟩
          rw [rxLoop, if_neg kept]
          simpa [Memory.handOver] using used

end

theorem chains_released_iff (w : World P) {fuel : Nat} {next : P → Option P} {pktbuf : Option P} {l : List P}
    (chain : Seg next pktbuf l none) (enough : l.length ≤ fuel) (ifidx : Nat) (numpkt : Int) :
    ((pktfree w fuel pktbuf ⟨next, []⟩).log = l.flatMap fun x => [.touch x, .free x]) ∧
    (Released (dhdRxFrame w fuel next ifidx pktbuf numpkt) l numpkt.toNat ↔
      ∀ j, firstDrop w numpkt.toNat 0 ifidx l = some j →
        l.length ≤ numpkt.toNat ∧ (j = 0 ∨ j + 1 = numpkt.toNat)) := by
  have distinct := seg_nodup chain
  refine ⟨by simpa using pktfree_log (w := w) (m := ⟨next, []⟩) chain enough, ?_⟩
  unfold dhdRxFrame
  generalize numpkt.toNat = n
  cases found : firstDrop w n 0 ifidx l with
  | none =>
    obtain ⟨log, whole, handled⟩ := rxLoop_undropped (m := ⟨next, []⟩) (q := none) chain found
    rw [whole]
    simpa using handled.released distinct
  | some j =>
    simp only [Option.some.injEq, forall_eq']
    cases n with
    | zero => cases found
    | succ n =>
      cases l with
      | nil => cases found
      | cons x l =>
        obtain rfl := chain.1
        simp only [firstDrop] at found
        split at found
        · -- the first packet is dropped, and pnext is still NULL
          rename_i now
          obtain rfl := Option.some.inj found
          have stops : (rxLoop w fuel (n + 1) 0 ifidx (some x) none ⟨next, []⟩).log =
              (x :: l).flatMap fun x => [.touch x, .free x] := by
            rw [rxLoop, if_pos now]
            cases n <;> simpa [rxLoop] using pktfree_log (w := w) (m := ⟨next, []⟩) chain enough
          rw [stops, (handled_freed (x :: l)).released_iff distinct]
          simp
        · rename_i kept
          have positive := firstDrop_ge found
          obtain ⟨log, handled, last, more⟩ := rxLoop_dropped
            (m := (⟨next, []⟩ : Memory P).handOver w x (w.delivery 0 x)) (seg_handOver chain w (w.delivery 0 x))
            (Nat.le_of_succ_le enough) found
          obtain ⟨pkt, gone⟩ := w.delivery_pkt 0 x
          have whole : Handled (x :: l) (.touch x :: w.delivery 0 x :: log) := .cons pkt gone handled
          rw [rxLoop, if_neg kept]
          by_cases ends : j + 1 = n + 1
          · rw [last (by omega), ← whole.released_iff distinct]
            simp [Memory.handOver, ends]
          · obtain ⟨y, inside, used⟩ := more (by omega)
            refine iff_of_false (whole.not_released (List.mem_cons_of_mem x inside) ?_) (by omega)
            simpa [Memory.handOver] using used

def unregisteredOnce : World Nat :=
  ⟨fun i _ => some ⟨some (i != 1)⟩, fun _ => true, fun _ => false, fun _ => false, fun _ ifidx => ifidx,
    fun _ => none⟩

def linked (p : Nat) : Option Nat := if p < 2 then some (p + 1) else none

theorem linked_chain : Seg linked (some 0) [0, 1, 2] none := ⟨rfl, rfl, rfl, rfl⟩

theorem chains_released_iff_three :
    ((pktfree unregisteredOnce 3 (some 0) ⟨linked, []⟩).log = [0, 1, 2].flatMap fun x => [.touch x, .free x]) ∧
    (Released (dhdRxFrame unregisteredOnce 3 linked 0 (some 0) 1) [0, 1, 2] 1 ↔
      ∀ j, firstDrop unregisteredOnce 1 0 0 [0, 1, 2] = some j → 3 ≤ 1 ∧ (j = 0 ∨ j + 1 = 1)) :=
  chains_released_iff unregisteredOnce linked_chain (by decide) 0 1

theorem dropped_packet_used_again :
    dhdRxFrame unregisteredOnce 3 linked 0 (some 0) 3 =
        [.touch 0, .netifRxNi 0, .touch 1, .free 1, .touch 2, .free 2, .touch 1, .netifRxNi 1] ∧
      ¬ Released (dhdRxFrame unregisteredOnce 3 linked 0 (some 0) 3) [0, 1, 2] 3 := by
  have log : dhdRxFrame unregisteredOnce 3 linked 0 (some 0) 3 =
      [.touch 0, .netifRxNi 0, .touch 1, .free 1, .touch 2, .free 2, .touch 1, .netifRxNi 1] := by decide
  refine ⟨log, fun released => ?_⟩
  have once := released.once 1 (by decide)
  rw [log] at once
  revert once
  decide

end ReceiveChains
