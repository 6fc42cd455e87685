import SepExtract.PacketQueue
import SepExtract.TransitionRuns

/- The driver transmit queue and the backlog of every CPU with the events traced for them. The
   locked sections of dhd_prec_enq, dhdsdio_sendfromq, enqueue_to_backlog and process_backlog
   are the steps, in any order that the loops of the two dequeueing functions allow. -/
namespace QueueEvents
open PacketQueue

inductive Queue where
  | ipBacklog | bcm4329Txq
  deriving DecidableEq, Repr

inductive Operation where
  | enqueue | dequeue
  deriving DecidableEq, Repr

inductive EventType where
  | pktqueue | pktqueuen
  deriving DecidableEq, Repr

structure Event where
  type : EventType
  op : Operation
  queue : Queue
  deriving DecidableEq, Repr

/-- probe_sepext_pktqueue, for the extractors registered: the first one of the queue traces a
    PKTQUEUE and the others a PKTQUEUEN each; without one the pointer is traced. -/
def probePktqueue (piEntries : List Queue) (queue : Queue) (op : Operation) : List Event :=
  match piEntries.filter (· = queue) with
  | [] => [⟨.pktqueue, op, queue⟩]
  | _ :: more => ⟨.pktqueue, op, queue⟩ :: more.map fun _ => ⟨.pktqueuen, op, queue⟩

inductive Sending where
  | idle
  | looping (cnt maxframes : Nat) (txPrecMap : BitVec 8)
  deriving DecidableEq, Repr

/-- process_backlog: at the inner dequeue, in __netif_receive_skb, or at the splice. -/
inductive Polling where
  | idle
  | looping (work quota : Nat)
  | receiving (work quota : Nat)
  | splicing (work quota : Nat)
  deriving DecidableEq, Repr

structure Softnet (P : Type) where
  inputPktQueue : List P
  processQueue : List P
  dropped : Nat

def Softnet.length {P : Type} (sd : Softnet P) : Nat := sd.inputPktQueue.length + sd.processQueue.length

variable {C P : Type} [DecidableEq C]

structure Host (C P : Type) where
  txq : Pktq P
  sending : C → Sending
  netdevMaxBacklog : Nat
  softnet : C → Softnet P
  polling : C → Polling
  piEntries : List Queue
  events : List Event
  /-- the calls of dhd_prec_enq that returned FALSE, and the packets it has freed -/
  refused : Nat
  evicted : Nat

def Host.initial (numPrec max : Nat) (qmax : Nat → Nat) (netdevMaxBacklog : Nat) (piEntries : List Queue) : Host C P :=
  { txq := .empty numPrec max qmax
    sending := fun _ => .idle
    netdevMaxBacklog := netdevMaxBacklog
    softnet := fun _ => ⟨[], [], 0⟩
    polling := fun _ => .idle
    piEntries := piEntries
    events := []
    refused := 0
    evicted := 0 }

namespace Host

def trace (s : Host C P) (queue : Queue) (op : Operation) : Host C P :=
  { s with events := s.events ++ probePktqueue s.piEntries queue op }

def precEnq (s : Host C P) (wmeDp : BitVec 8) (pkt : P) (prec : Nat) : Host C P :=
  let done := dhdPrecEnq wmeDp s.txq pkt prec
  { s.trace .bcm4329Txq .enqueue with
    txq := done.queue
    refused := s.refused + if done.accepted then 0 else 1
    evicted := s.evicted + if done.evicted.isSome then 1 else 0 }

def setSending (s : Host C P) (c : C) (p : Sending) : Host C P := { s with sending := Function.update s.sending c p }

def setPolling (s : Host C P) (c : C) (p : Polling) : Host C P := { s with polling := Function.update s.polling c p }

def setSoftnet (s : Host C P) (c : C) (sd : Softnet P) : Host C P :=
  { s with softnet := Function.update s.softnet c sd }

/-- One pass of the loop of dhdsdio_sendfromq; dataok is DATAOK at its head, and regfail the
    break in poll mode after the frame is sent. -/
def sendfromq (s : Host C P) (c : C) (cnt maxframes : Nat) (txPrecMap : BitVec 8) (dataok regfail : Bool) : Host C P :=
  if cnt < maxframes ∧ dataok then
    match s.txq.mdeq (txPrecMap.setWidth 32) with
    | (none, txq) => { s with txq := txq }.setSending c .idle
    | (some _, txq) =>
      let s := { s with txq := txq }.trace .bcm4329Txq .dequeue
      s.setSending c (if regfail ∧ cnt ≠ 0 then .idle else .looping (cnt + 1) maxframes txPrecMap)
  else s.setSending c .idle

def enqueueToBacklog (s : Host C P) (c : C) (skb : P) : Host C P :=
  let s := s.trace .ipBacklog .enqueue
  let sd := s.softnet c
  if sd.inputPktQueue.length ≤ s.netdevMaxBacklog then
    s.setSoftnet c { sd with inputPktQueue := sd.inputPktQueue ++ [skb] }
  else s.setSoftnet c { sd with dropped := sd.dropped + 1 }

def pollAgain (work quota : Nat) : Polling := if work < quota then .looping work quota else .idle

/-- The next section of process_backlog. -/
def processBacklog (s : Host C P) (c : C) : Host C P :=
  let sd := s.softnet c
  match s.polling c with
  | .idle => s
  | .looping work quota =>
    match sd.processQueue with
    | [] => s.setPolling c (.splicing work quota)
    | _ :: rest =>
      ((s.setSoftnet c { sd with processQueue := rest }).trace .ipBacklog .dequeue).setPolling c (.receiving work quota)
  | .receiving work quota => s.setPolling c (if work + 1 ≥ quota then .idle else .looping (work + 1) quota)
  | .splicing work quota =>
    let qlen := sd.inputPktQueue.length
    let s := s.setSoftnet c { sd with inputPktQueue := [], processQueue := sd.processQueue ++ sd.inputPktQueue }
    s.setPolling c (pollAgain work (if qlen < quota - work then work + qlen else quota))

end Host

inductive Action (C P : Type) where
  | precEnq (wmeDp : BitVec 8) (pkt : P) (prec : Nat)
  | sendfromq (c : C) (maxframes : Nat) (flowcontrol : BitVec 8)
  | send (c : C) (dataok regfail : Bool)
  | enqueueToBacklog (c : C) (skb : P)
  | processBacklog (c : C) (quota : Nat)
  | poll (c : C)
  deriving DecidableEq, Repr

def step (s : Host C P) : Action C P → Option (Host C P)
  | .precEnq wmeDp pkt prec => if prec < s.txq.numPrec then some (s.precEnq wmeDp pkt prec) else none
  | .sendfromq c maxframes flowcontrol =>
    if s.sending c = .idle then some (s.setSending c (.looping 0 maxframes (~~~ flowcontrol))) else none
  | .send c dataok regfail =>
    match s.sending c with
    | .idle => none
    | .looping cnt maxframes txPrecMap => some (s.sendfromq c cnt maxframes txPrecMap dataok regfail)
  | .enqueueToBacklog c skb => some (s.enqueueToBacklog c skb)
  | .processBacklog c quota =>
    if s.polling c = .idle then some (s.setPolling c (Host.pollAgain 0 quota)) else none
  | .poll c => if s.polling c = .idle then none else some (s.processBacklog c)

def Host.count (s : Host C P) (queue : Queue) (op : Operation) : Nat := s.events.count ⟨.pktqueue, op, queue⟩

def Host.traced (s : Host C P) (queue : Queue) : Int := s.count queue .enqueue - s.count queue .dequeue

def Host.backlog [Fintype C] (s : Host C P) : Nat := ∑ c, (s.softnet c).length

def Host.dropped [Fintype C] (s : Host C P) : Nat := ∑ c, (s.softnet c).dropped

structure Balanced [Fintype C] (s : Host C P) : Prop where
  sound : Sound s.txq
  txq : s.count .bcm4329Txq .enqueue = s.count .bcm4329Txq .dequeue + s.txq.len + s.refused + s.evicted
  backlog : s.count .ipBacklog .enqueue = s.count .ipBacklog .dequeue + s.backlog + s.dropped

def Host.rejected (s : Host C P) : Nat := s.refused + s.evicted

def RoomLeft (s : Host C P) : Action C P → Prop
  | .precEnq _ _ prec => s.txq.pfull prec = false ∧ s.txq.full = false
  | _ => True

def BacklogLeft (s : Host C P) : Action C P → Prop
  | .enqueueToBacklog c _ => (s.softnet c).inputPktQueue.length ≤ s.netdevMaxBacklog
  | _ => True

structure Limited (s : Host C P) : Prop where
  sound : Sound s.txq
  positive : ∀ prec < s.txq.numPrec, 0 < s.txq.qmax prec

theorem count_probe (piEntries : List Queue) (queue other : Queue) (op op' : Operation) :
    (probePktqueue piEntries queue op).count ⟨.pktqueue, op', other⟩ = if queue = other ∧ op = op' then 1 else 0 := by
  have none : ∀ more : List Queue,
      (more.map fun _ => (⟨.pktqueuen, op, queue⟩ : Event)).count ⟨.pktqueue, op', other⟩ = 0 := by
    intro more
    simp [List.count_eq_zero]
  unfold probePktqueue
  split
  · cases queue <;> cases other <;> cases op <;> cases op' <;> rfl
  · rw [List.count_cons, none]
    cases queue <;> cases other <;> cases op <;> cases op' <;> rfl

omit [DecidableEq C] in
theorem count_trace (s : Host C P) (queue other : Queue) (op op' : Operation) :
    (s.trace queue op).count other op' = s.count other op' + if queue = other ∧ op = op' then 1 else 0 := by
  simp only [Host.count, Host.trace, List.count_append, count_probe]

section Steps
variable [Fintype C] {s : Host C P} {c : C}

theorem backlog_setSoftnet (s : Host C P) (c : C) (sd : Softnet P) :
    (s.setSoftnet c sd).backlog + (s.softnet c).length = s.backlog + sd.length :=
  TransitionRuns.sum_update Softnet.length s.softnet sd (Finset.mem_univ c)

theorem dropped_setSoftnet (s : Host C P) (c : C) (sd : Softnet P) :
    (s.setSoftnet c sd).dropped + (s.softnet c).dropped = s.dropped + sd.dropped :=
  TransitionRuns.sum_update Softnet.dropped s.softnet sd (Finset.mem_univ c)

theorem balanced_setSending (balanced : Balanced s) (p : Sending) : Balanced (s.setSending c p) :=
  ⟨balanced.sound, balanced.txq, balanced.backlog⟩

theorem balanced_setPolling (balanced : Balanced s) (p : Polling) : Balanced (s.setPolling c p) :=
  ⟨balanced.sound, balanced.txq, balanced.backlog⟩

theorem balanced_setSoftnet (balanced : Balanced s) (sd : Softnet P) (events : List Event)
    (tx : ∀ op, events.count ⟨.pktqueue, op, .bcm4329Txq⟩ = 0)
    (moved : (s.softnet c).length + (s.softnet c).dropped + events.count ⟨.pktqueue, .enqueue, .ipBacklog⟩ =
      sd.length + sd.dropped + events.count ⟨.pktqueue, .dequeue, .ipBacklog⟩) :
    Balanced { s.setSoftnet c sd with events := s.events ++ events } := by
  have txq := balanced.txq
  have backlog := balanced.backlog
  have length := backlog_setSoftnet s c sd
  have dropped := dropped_setSoftnet s c sd
  refine ⟨balanced.sound, ?_, ?_⟩
  · simp only [Host.count, List.count_append, tx] at txq ⊢
    exact txq
  · change _ = _ + (s.setSoftnet c sd).backlog + (s.setSoftnet c sd).dropped
    simp only [Host.count, List.count_append] at backlog ⊢
    omega

omit [DecidableEq C] in
theorem balanced_precEnq {wmeDp : BitVec 8} {pkt : P} {prec : Nat} (balanced : Balanced s)
    (bound : prec < s.txq.numPrec) : Balanced (s.precEnq wmeDp pkt prec) := by
  have done := accounted_dhdPrecEnq balanced.sound bound wmeDp pkt
  have txq := balanced.txq
  have count := done.count
  refine ⟨done.sound, ?_, ?_⟩
  · change (s.trace .bcm4329Txq .enqueue).count _ _ = (s.trace .bcm4329Txq .enqueue).count _ _ + _ + _ + _
    rw [count_trace, count_trace]
    simp only [Host.precEnq, reduceCtorEq, and_true, and_false, if_true, if_false]
    omega
  · change (s.trace .bcm4329Txq .enqueue).count _ _ = (s.trace .bcm4329Txq .enqueue).count _ _ + s.backlog + s.dropped
    rw [count_trace, count_trace]
    exact balanced.backlog

theorem balanced_sendfromq {cnt maxframes : Nat} {txPrecMap : BitVec 8} {dataok regfail : Bool}
    (balanced : Balanced s) : Balanced (s.sendfromq c cnt maxframes txPrecMap dataok regfail) := by
  have txq := balanced.txq
  have taken := Pktq.taken_mdeq balanced.sound (txPrecMap.setWidth 32)
  have sound := taken.sound
  have count := taken.count
  unfold Host.sendfromq
  split
  · split
    · rename_i after none
      rw [none] at sound count
      have kept : Balanced { s with txq := after } := by
        refine ⟨sound, ?_, balanced.backlog⟩
        change s.count _ _ = s.count _ _ + after.len + s.refused + s.evicted
        simp only [Option.isSome_none, Bool.false_eq_true, if_false, Nat.add_zero] at count
        rw [count]
        exact txq
      exact balanced_setSending kept _
    · rename_i p after some
      rw [some] at sound count
      simp only [Option.isSome_some, if_true] at count
      refine balanced_setSending ⟨sound, ?_, ?_⟩ _
      · rw [count_trace, count_trace]
        change s.count _ _ + _ = s.count _ _ + _ + after.len + s.refused + s.evicted
        simp only [reduceCtorEq, and_true, and_false, if_true, if_false]
        omega
      · rw [count_trace, count_trace]
        exact balanced.backlog
  · exact balanced_setSending balanced _

theorem balanced_enqueueToBacklog (balanced : Balanced s) (skb : P) : Balanced (s.enqueueToBacklog c skb) := by
  unfold Host.enqueueToBacklog
  have tx : ∀ op, (probePktqueue s.piEntries .ipBacklog .enqueue).count ⟨.pktqueue, op, .bcm4329Txq⟩ = 0 := by
    simp [count_probe]
  dsimp only
  split
  · refine balanced_setSoftnet balanced { s.softnet c with inputPktQueue := (s.softnet c).inputPktQueue ++ [skb] } _
      tx ?_
    simp only [count_probe, Softnet.length, List.length_append, List.length_singleton, reduceCtorEq, and_true, and_false,
      if_true, if_false]
    omega
  · refine balanced_setSoftnet balanced { s.softnet c with dropped := (s.softnet c).dropped + 1 } _ tx ?_
    simp only [count_probe, Softnet.length, reduceCtorEq, and_true, and_false, if_true, if_false]
    omega

theorem balanced_processBacklog (balanced : Balanced s) : Balanced (s.processBacklog c) := by
  unfold Host.processBacklog
  dsimp only
  split
  · exact balanced
  · split
    · exact balanced_setPolling balanced _
    · rename_i skb rest list
      refine balanced_setPolling (balanced_setSoftnet balanced { s.softnet c with processQueue := rest } _ ?_ ?_) _
      · simp [count_probe, Host.setSoftnet]
      · simp only [count_probe, Softnet.length, list, List.length_cons, reduceCtorEq, and_true, and_false, if_true,
          if_false]
        omega
  · exact balanced_setPolling balanced _
  · refine balanced_setPolling ?_ _
    have spliced := balanced_setSoftnet (c := c) balanced { s.softnet c with
      inputPktQueue := [], processQueue := (s.softnet c).processQueue ++ (s.softnet c).inputPktQueue } []
      (fun _ => rfl) (by simp [Softnet.length]; omega)
    rw [List.append_nil] at spliced
    exact spliced

theorem balanced_step {a : Action C P} {t : Host C P} (balanced : Balanced s) (done : step s a = some t) :
    Balanced t := by
  cases a with
  | precEnq wmeDp pkt prec =>
    simp only [step, Option.ite_none_right_eq_some, Option.some.injEq] at done
    obtain ⟨bound, rfl⟩ := done
    exact balanced_precEnq balanced bound
  | sendfromq c maxframes flowcontrol =>
    simp only [step, Option.ite_none_right_eq_some, Option.some.injEq] at done
    exact done.2 ▸ balanced_setSending balanced _
  | send c dataok regfail =>
    simp only [step] at done
    split at done
    · cases done
    · exact Option.some.inj done ▸ balanced_sendfromq balanced
  | enqueueToBacklog c skb => exact Option.some.inj done ▸ balanced_enqueueToBacklog balanced skb
  | processBacklog c quota =>
    simp only [step, Option.ite_none_right_eq_some, Option.some.injEq] at done
    exact done.2 ▸ balanced_setPolling balanced _
  | poll c =>
    simp only [step, Option.ite_none_left_eq_some, Option.some.injEq] at done
    exact done.2 ▸ balanced_processBacklog balanced

omit [DecidableEq C] in
theorem balanced_initial (numPrec max : Nat) (qmax : Nat → Nat) (netdevMaxBacklog : Nat) (piEntries : List Queue) :
    Balanced (Host.initial (C := C) (P := P) numPrec max qmax netdevMaxBacklog piEntries) := by
  refine ⟨Pktq.sound_empty numPrec max qmax, rfl, ?_⟩
  simp [Host.initial, Host.count, Host.backlog, Host.dropped, Softnet.length]

end Steps

section Conditions
variable {s t : Host C P} {c : C}

def Leaves (s t : Host C P) : Prop := t.rejected = s.rejected ∧ (Limited s → Limited t)

omit [DecidableEq C] in
theorem leaves_of_txq (txq : t.txq = s.txq) (refused : t.refused = s.refused) (evicted : t.evicted = s.evicted) :
    Leaves s t := by
  refine ⟨by rw [Host.rejected, Host.rejected, refused, evicted], fun limited => ?_⟩
  exact ⟨txq ▸ limited.sound, txq ▸ limited.positive⟩

theorem leaves_sendfromq (cnt maxframes : Nat) (txPrecMap : BitVec 8) (dataok regfail : Bool) :
    Leaves s (s.sendfromq c cnt maxframes txPrecMap dataok regfail) := by
  have taken : ∀ pkt after, s.txq.mdeq (txPrecMap.setWidth 32) = (pkt, after) → Limited s →
      Sound after ∧ ∀ prec < after.numPrec, 0 < after.qmax prec := by
    intro pkt after found limited
    have taken := Pktq.taken_mdeq limited.sound (txPrecMap.setWidth 32)
    rw [found] at taken
    refine ⟨taken.sound, fun prec below => ?_⟩
    rw [taken.qmax]
    exact limited.positive prec (taken.numPrec ▸ below)
  unfold Host.sendfromq
  split
  · split
    case h_1 after found =>
      refine ⟨rfl, fun limited => ?_⟩
      obtain ⟨sound, positive⟩ := taken _ _ found limited
      exact ⟨sound, positive⟩
    case h_2 pkt after found =>
      refine ⟨rfl, fun limited => ?_⟩
      obtain ⟨sound, positive⟩ := taken _ _ found limited
      exact ⟨sound, positive⟩
  · exact leaves_of_txq rfl rfl rfl

theorem leaves_enqueueToBacklog (skb : P) : Leaves s (s.enqueueToBacklog c skb) := by
  unfold Host.enqueueToBacklog
  dsimp only
  split <;> exact leaves_of_txq rfl rfl rfl

theorem leaves_processBacklog : Leaves s (s.processBacklog c) := by
  unfold Host.processBacklog
  dsimp only
  split
  · exact leaves_of_txq rfl rfl rfl
  · split <;> exact leaves_of_txq rfl rfl rfl
  · exact leaves_of_txq rfl rfl rfl
  · exact leaves_of_txq rfl rfl rfl

omit [DecidableEq C] in
theorem rejected_precEnq {wmeDp : BitVec 8} {pkt : P} {prec : Nat} (limited : Limited s)
    (bound : prec < s.txq.numPrec) :
    Limited (s.precEnq wmeDp pkt prec) ∧ s.rejected ≤ (s.precEnq wmeDp pkt prec).rejected ∧
      ((s.precEnq wmeDp pkt prec).rejected = s.rejected ↔ s.txq.pfull prec = false ∧ s.txq.full = false) := by
  have done := accounted_dhdPrecEnq limited.sound bound wmeDp pkt
  refine ⟨⟨done.sound, fun i below => ?_⟩, ?_, ?_⟩
  · change 0 < (dhdPrecEnq wmeDp s.txq pkt prec).queue.qmax i
    rw [done.qmax]
    exact limited.positive i (done.numPrec ▸ below)
  · simp only [Host.rejected, Host.precEnq]
    omega
  · rw [← untroubled_iff limited.sound (limited.positive prec bound) wmeDp pkt]
    simp only [Host.rejected, Host.precEnq]
    cases (dhdPrecEnq wmeDp s.txq pkt prec).accepted <;>
      cases (dhdPrecEnq wmeDp s.txq pkt prec).evicted.isSome <;> simp
    omega

theorem rejected_step {a : Action C P} (limited : Limited s) (done : step s a = some t) :
    Limited t ∧ s.rejected ≤ t.rejected ∧ (t.rejected = s.rejected ↔ RoomLeft s a) := by
  have quiet : Leaves s t → Limited t ∧ s.rejected ≤ t.rejected ∧ (t.rejected = s.rejected ↔ True) :=
    fun leaves => ⟨leaves.2 limited, Nat.le_of_eq leaves.1.symm, iff_of_true leaves.1 trivial⟩
  cases a with
  | precEnq wmeDp pkt prec =>
    simp only [step, Option.ite_none_right_eq_some, Option.some.injEq] at done
    obtain ⟨bound, rfl⟩ := done
    exact rejected_precEnq limited bound
  | sendfromq c maxframes flowcontrol =>
    simp only [step, Option.ite_none_right_eq_some, Option.some.injEq] at done
    exact quiet (done.2 ▸ leaves_of_txq rfl rfl rfl)
  | send c dataok regfail =>
    simp only [step] at done
    split at done
    · cases done
    · exact quiet (Option.some.inj done ▸ leaves_sendfromq ..)
  | enqueueToBacklog c skb => exact quiet (Option.some.inj done ▸ leaves_enqueueToBacklog skb)
  | processBacklog c quota =>
    simp only [step, Option.ite_none_right_eq_some, Option.some.injEq] at done
    exact quiet (done.2 ▸ leaves_of_txq rfl rfl rfl)
  | poll c =>
    simp only [step, Option.ite_none_left_eq_some, Option.some.injEq] at done
    exact quiet (done.2 ▸ leaves_processBacklog)

variable [Fintype C]

theorem dropped_processBacklog : (s.processBacklog c).dropped = s.dropped := by
  have same : ∀ sd : Softnet P, sd.dropped = (s.softnet c).dropped → (s.setSoftnet c sd).dropped = s.dropped := by
    intro sd equal
    have moved := dropped_setSoftnet s c sd
    omega
  unfold Host.processBacklog
  dsimp only
  split
  · rfl
  · split
    · rfl
    · exact same _ rfl
  · rfl
  · exact same _ rfl

theorem dropped_enqueueToBacklog (skb : P) :
    (s.enqueueToBacklog c skb).dropped =
      s.dropped + if (s.softnet c).inputPktQueue.length ≤ s.netdevMaxBacklog then 0 else 1 := by
  unfold Host.enqueueToBacklog
  dsimp only
  split
  case isTrue room =>
    have moved := dropped_setSoftnet (s.trace .ipBacklog .enqueue) c
      { s.softnet c with inputPktQueue := (s.softnet c).inputPktQueue ++ [skb] }
    rw [if_pos (show (s.softnet c).inputPktQueue.length ≤ s.netdevMaxBacklog from room)]
    exact Nat.add_right_cancel moved
  case isFalse full =>
    have moved := dropped_setSoftnet (s.trace .ipBacklog .enqueue) c
      { s.softnet c with dropped := (s.softnet c).dropped + 1 }
    rw [if_neg (show ¬ (s.softnet c).inputPktQueue.length ≤ s.netdevMaxBacklog from full)]
    have one : s.dropped + ((s.softnet c).dropped + 1) = s.dropped + 1 + (s.softnet c).dropped := by omega
    exact Nat.add_right_cancel (moved.trans one)

theorem dropped_step {a : Action C P} (done : step s a = some t) :
    s.dropped ≤ t.dropped ∧ (t.dropped = s.dropped ↔ BacklogLeft s a) := by
  have quiet : t.dropped = s.dropped → s.dropped ≤ t.dropped ∧ (t.dropped = s.dropped ↔ True) :=
    fun same => ⟨Nat.le_of_eq same.symm, iff_of_true same trivial⟩
  cases a with
  | precEnq wmeDp pkt prec =>
    simp only [step, Option.ite_none_right_eq_some, Option.some.injEq] at done
    exact quiet (done.2 ▸ rfl)
  | sendfromq c maxframes flowcontrol =>
    simp only [step, Option.ite_none_right_eq_some, Option.some.injEq] at done
    exact quiet (done.2 ▸ rfl)
  | send c dataok regfail =>
    simp only [step] at done
    split at done
    · cases done
    · refine quiet (Option.some.inj done ▸ ?_)
      unfold Host.sendfromq
      split
      · split <;> rfl
      · rfl
  | enqueueToBacklog c skb =>
    obtain rfl := Option.some.inj done
    rw [dropped_enqueueToBacklog]
    refine ⟨Nat.le_add_right _ _, ?_⟩
    rw [Nat.add_eq_left]
    exact ite_eq_left_iff.trans (by simp [BacklogLeft])
  | processBacklog c quota =>
    simp only [step, Option.ite_none_right_eq_some, Option.some.injEq] at done
    exact quiet (done.2 ▸ rfl)
  | poll c =>
    simp only [step, Option.ite_none_left_eq_some, Option.some.injEq] at done
    exact quiet (done.2 ▸ dropped_processBacklog)

end Conditions

/-- In every state that the calls can reach, the events traced for the transmit queue give its
    length exactly when no call of dhd_prec_enq has refused or evicted a packet, that is, when each of them found room,
    and those of the backlog the length of all its lists exactly when no packet was dropped. -/
theorem queues_traced_iff [Fintype C] {numPrec max netdevMaxBacklog : Nat} {qmax : Nat → Nat} {piEntries : List Queue}
    {acts : List (Action C P)} {s : Host C P}
    (reached : TransitionRuns.run step (.initial numPrec max qmax netdevMaxBacklog piEntries) acts = some s) :
    s.txq.len = ∑ prec ∈ Finset.range s.txq.numPrec, (s.txq.q prec).length ∧
    (s.traced .bcm4329Txq = s.txq.len ↔ s.refused = 0 ∧ s.evicted = 0) ∧
    ((∀ prec < numPrec, 0 < qmax prec) → (s.refused = 0 ∧ s.evicted = 0 ↔
      TransitionRuns.Guarded step RoomLeft (.initial numPrec max qmax netdevMaxBacklog piEntries) acts)) ∧
    (s.traced .ipBacklog = (∑ c, ((s.softnet c).inputPktQueue.length + (s.softnet c).processQueue.length) : Nat) ↔
      ∀ c, (s.softnet c).dropped = 0) ∧
    ((∀ c, (s.softnet c).dropped = 0) ↔
      TransitionRuns.Guarded step BacklogLeft (.initial numPrec max qmax netdevMaxBacklog piEntries) acts) := by
  have balanced : Balanced s := TransitionRuns.invariant_of_run Balanced (fun _ _ _ => balanced_step)
    (balanced_initial numPrec max qmax netdevMaxBacklog piEntries) reached
  have txq := balanced.txq
  have backlog := balanced.backlog
  have none : s.dropped = 0 ↔ ∀ c, (s.softnet c).dropped = 0 := by
    simp [Host.dropped, Finset.sum_eq_zero_iff]
  refine ⟨balanced.sound.len, ?_, fun positive => ?_, ?_, ?_⟩
  · unfold Host.traced
    omega
  · have limited : Limited (Host.initial (C := C) (P := P) numPrec max qmax netdevMaxBacklog piEntries) :=
      ⟨Pktq.sound_empty numPrec max qmax, positive⟩
    rw [← Nat.add_eq_zero_iff]
    exact (TransitionRuns.guarded_iff_unmoved Limited Host.rejected (fun _ _ _ => rejected_step) limited reached).2
  · change s.traced .ipBacklog = s.backlog ↔ _
    rw [← none]
    unfold Host.traced
    omega
  · have start : (Host.initial (C := C) (P := P) numPrec max qmax netdevMaxBacklog piEntries).dropped = 0 := by
      simp [Host.dropped, Host.initial]
    rw [← none, ← start]
    exact (TransitionRuns.guarded_iff_unmoved (fun _ => True) Host.dropped
      (fun _ _ _ _ done => ⟨trivial, dropped_step done⟩) trivial reached).2

theorem queues_traced_passing : ∃ s : Host (Fin 2) Nat,
    TransitionRuns.run step (.initial 8 1 (fun _ => 1) 1 [.ipBacklog, .ipBacklog])
      [.precEnq 0 70 3, .sendfromq 0 4 0, .send 0 true false, .enqueueToBacklog 1 71, .enqueueToBacklog 1 72,
       .enqueueToBacklog 0 73, .processBacklog 1 64, .poll 1, .poll 1, .poll 1, .poll 1, .poll 1] = some s ∧
    s.traced .bcm4329Txq = s.txq.len ∧
    s.traced .ipBacklog = (∑ c, ((s.softnet c).inputPktQueue.length + (s.softnet c).processQueue.length) : Nat) := by
  have ends : ∃ s : Host (Fin 2) Nat,
      TransitionRuns.run step (.initial 8 1 (fun _ => 1) 1 [.ipBacklog, .ipBacklog])
        [.precEnq 0 70 3, .sendfromq 0 4 0, .send 0 true false, .enqueueToBacklog 1 71, .enqueueToBacklog 1 72,
         .enqueueToBacklog 0 73, .processBacklog 1 64, .poll 1, .poll 1, .poll 1, .poll 1, .poll 1] = some s ∧
      (s.refused = 0 ∧ s.evicted = 0) ∧ ∀ c, (s.softnet c).dropped = 0 := ⟨_, rfl, by decide, by decide⟩
  obtain ⟨s, reached, none, kept⟩ := ends
  obtain ⟨_, txq, _, backlog, _⟩ := queues_traced_iff reached
  exact ⟨s, reached, txq.mpr none, backlog.mpr kept⟩

theorem refused_packet_is_traced : ¬ ∀ (max : Nat) (acts : List (Action (Fin 1) Nat)) (s : Host (Fin 1) Nat),
    TransitionRuns.run step (.initial 8 max (fun _ => max) 1 []) acts = some s → s.traced .bcm4329Txq = s.txq.len := by
  intro every
  have wrong := every 1 [.precEnq 0 70 3, .precEnq 0 71 3] _ rfl
  revert wrong
  decide

end QueueEvents
