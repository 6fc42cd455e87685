import Mathlib
import SepExtract.LoopControl

/- process_backlog of net/core/dev.c in its two versions, the loop rewritten for tracing and the
   original one, with the packets that enqueue_to_backlog accepts while interrupts are enabled. -/
namespace BacklogLoops
open LoopControl

variable {P : Type}

/-- struct softnet_data, and the packets accepted and delivered since the call. -/
structure Softnet (P : Type) where
  inputPktQueue : List P
  processQueue : List P
  inputQueueHead : UInt32
  inputQueueTail : UInt32
  /-- NAPI_STATE_SCHED of the backlog. -/
  sched : Bool
  /-- The backlog is on the poll list. -/
  polled : Bool
  rpsIpiList : Bool
  irqs : Bool
  dropped : Nat
  accepted : List P
  delivered : List P

inductive Interrupt (P : Type) where
  | packet (skb : P) (remote : Bool)
  | ipi

structure World (P : Type) where
  netdevMaxBacklog : Nat
  /-- The interrupts during the n-th delivery. -/
  arrivals : Nat → List (Interrupt P)

namespace Softnet

/-- enqueue_to_backlog; rps_ipi_queued is true for the backlog of another CPU. -/
def enqueueToBacklog (w : World P) (sd : Softnet P) (skb : P) (remote : Bool) : Softnet P :=
  if sd.inputPktQueue.length ≤ w.netdevMaxBacklog then
    let sd :=
      if sd.inputPktQueue.isEmpty && !sd.sched then { sd with sched := true, polled := sd.polled || !remote } else sd
    { sd with
      inputPktQueue := sd.inputPktQueue ++ [skb]
      inputQueueTail := sd.inputQueueTail + 1
      accepted := sd.accepted ++ [skb] }
  else { sd with dropped := sd.dropped + 1 }

def interrupt (w : World P) (sd : Softnet P) : Interrupt P → Softnet P
  | .packet skb remote => sd.enqueueToBacklog w skb remote
  | .ipi => { sd with polled := true }

/-- local_irq_enable, __netif_receive_skb, local_irq_disable and input_queue_head_incr. -/
def receive (w : World P) (sd : Softnet P) (skb : P) (rest : List P) : Softnet P :=
  let sd := { sd with processQueue := rest, irqs := true, delivered := sd.delivered ++ [skb] }
  let sd := (w.arrivals sd.delivered.length).foldl (interrupt w) sd
  { sd with irqs := false, inputQueueHead := sd.inputQueueHead + 1 }

end Softnet

structure Call (P : Type) where
  sd : Softnet P
  work : Int
  quota : Int

namespace Call

def enable (c : Call P) : Call P := { c with sd := { c.sd with irqs := true } }

def start (sd : Softnet P) (quota : Int) : Call P :=
  ⟨{ sd with rpsIpiList := false, irqs := false, accepted := [], delivered := [] }, 0, quota⟩

def receive (w : World P) (c : Call P) (skb : P) (rest : List P) : Call P :=
  { c with sd := c.sd.receive w skb rest, work := c.work + 1 }

/-- The section under rps_lock behind the inner loop. -/
def splice (c : Call P) : Call P :=
  let qlen := c.sd.inputPktQueue.length
  let sd := { c.sd with processQueue := c.sd.processQueue ++ c.sd.inputPktQueue, inputPktQueue := [] }
  if (qlen : Int) < c.quota - c.work then
    ⟨{ sd with polled := false, sched := false }, c.work, c.work + qlen⟩
  else { c with sd := sd }

end Call

inductive Event (P : Type) where
  | loopstart (quota : Int)
  | looprestart
  | pktqueue (skb : P)
  | loopstop

structure Traced (P : Type) where
  call : Call P
  events : List (Event P)

def Traced.trace (t : Traced P) (e : Event P) : Traced P := { t with events := t.events ++ [e] }

def Traced.update (t : Traced P) (f : Call P → Call P) : Traced P := { t with call := f t.call }

def forBody (w : World P) (t : Traced P) : Option (Control (Traced P)) :=
  let t := t.trace .looprestart
  match t.call.sd.processQueue with
  | [] => some (.brk t)
  | skb :: rest =>
    let t := (t.trace (.pktqueue skb)).update (·.receive w skb rest)
    if t.call.quota ≤ t.call.work then some (.ret ((t.update Call.enable).trace .loopstop)) else some (.next t)

def whileBody (w : World P) (c : Call P) : Option (Control (Call P)) :=
  match c.sd.processQueue with
  | [] => some (.brk c)
  | skb :: rest =>
    let c := c.receive w skb rest
    if c.quota ≤ c.work then some (.ret c.enable) else some (.next c)

def rewrittenBody (w : World P) (t : Traced P) : Option (Control (Traced P)) :=
  if t.call.work < t.call.quota then
    (loop (forBody w) (t.call.sd.processQueue.length + 1) (t.trace (.loopstart t.call.quota))).bind fun
      | .brk t => some (.next ((t.trace .loopstop).update Call.splice))
      | .ret t => some (.ret t)
      | .next _ => none
  else some (.brk t)

def originalBody (w : World P) (c : Call P) : Option (Control (Call P)) :=
  if c.work < c.quota then
    (loop (whileBody w) (c.sd.processQueue.length + 1) c).bind fun
      | .brk c => some (.next c.splice)
      | .ret c => some (.ret c)
      | .next _ => none
  else some (.brk c)

def turns (quota : Int) : Nat := 2 * quota.toNat + 2

def processBacklog (w : World P) (sd : Softnet P) (quota : Int) : Option (Traced P) :=
  (loop (rewrittenBody w) (turns quota) ⟨.start sd quota, []⟩).bind fun
    | .brk t => some (t.update Call.enable)
    | .ret t => some t
    | .next _ => none

def processBacklogOriginal (w : World P) (sd : Softnet P) (quota : Int) : Option (Call P) :=
  (loop (originalBody w) (turns quota) (.start sd quota)).bind fun
    | .brk c => some c.enable
    | .ret c => some c
    | .next _ => none

theorem while_simulates (w : World P) (t : Traced P) :
    whileBody w t.call = (forBody w t).map (Control.map Traced.call) := by
  unfold whileBody forBody
  dsimp only [Traced.trace, Traced.update]
  cases t.call.sd.processQueue with
  | nil => rfl
  | cons skb rest =>
    dsimp only
    split <;> rfl

theorem original_simulates (w : World P) (t : Traced P) :
    originalBody w t.call = (rewrittenBody w t).map (Control.map Traced.call) := by
  unfold originalBody rewrittenBody
  split
  · have inner := loop_simulates (while_simulates w) (t.call.sd.processQueue.length + 1)
      (t.trace (.loopstart t.call.quota))
    have same : (t.trace (.loopstart t.call.quota)).call = t.call := rfl
    rw [same] at inner
    rw [inner]
    cases loop (forBody w) (t.call.sd.processQueue.length + 1) (t.trace (.loopstart t.call.quota)) with
    | none => rfl
    | some c => cases c <;> rfl
  · rfl

theorem processBacklog_simulates (w : World P) (sd : Softnet P) (quota : Int) :
    processBacklogOriginal w sd quota = (processBacklog w sd quota).map Traced.call := by
  have outer := loop_simulates (original_simulates w) (turns quota) ⟨.start sd quota, []⟩
  unfold processBacklogOriginal processBacklog
  dsimp only at outer
  rw [outer]
  cases loop (rewrittenBody w) (turns quota) ⟨.start sd quota, []⟩ with
  | none => rfl
  | some c => cases c <;> rfl

structure Fed (sd sd' : Softnet P) : Prop where
  more : ∃ l, sd'.inputPktQueue = sd.inputPktQueue ++ l ∧ sd'.accepted = sd.accepted ++ l
  process : sd'.processQueue = sd.processQueue
  delivered : sd'.delivered = sd.delivered

theorem fed_interrupt (w : World P) (sd : Softnet P) (i : Interrupt P) : Fed sd (sd.interrupt w i) := by
  cases i with
  | ipi => exact ⟨⟨[], by simp [Softnet.interrupt]⟩, rfl, rfl⟩
  | packet skb remote =>
    simp only [Softnet.interrupt, Softnet.enqueueToBacklog]
    split
    · split <;> exact ⟨⟨[skb], rfl, rfl⟩, rfl, rfl⟩
    · exact ⟨⟨[], by simp⟩, rfl, rfl⟩

theorem fed_interrupts (w : World P) (sd : Softnet P) (l : List (Interrupt P)) :
    Fed sd (l.foldl (Softnet.interrupt w) sd) := by
  induction l generalizing sd with
  | nil => exact ⟨⟨[], by simp⟩, rfl, rfl⟩
  | cons i l ih =>
    obtain ⟨⟨a, input, accepted⟩, process, delivered⟩ := fed_interrupt w sd i
    obtain ⟨⟨b, input', accepted'⟩, process', delivered'⟩ := ih (sd.interrupt w i)
    refine ⟨⟨a ++ b, ?_, ?_⟩, process'.trans process, delivered'.trans delivered⟩
    · rw [List.foldl_cons, input', input, List.append_assoc]
    · rw [List.foldl_cons, accepted', accepted, List.append_assoc]

structure Ordered (old : List P) (c : Call P) : Prop where
  order : c.sd.delivered ++ (c.sd.processQueue ++ c.sd.inputPktQueue) = old ++ c.sd.accepted
  work : c.work = c.sd.delivered.length

theorem Ordered.receive {old : List P} {c : Call P} {skb : P} {rest : List P} (ordered : Ordered old c)
    (queue : c.sd.processQueue = skb :: rest) (w : World P) :
    Ordered old (c.receive w skb rest) ∧ (c.receive w skb rest).sd.processQueue = rest := by
  have fed := fed_interrupts w { c.sd with processQueue := rest, irqs := true, delivered := c.sd.delivered ++ [skb] }
    (w.arrivals (c.sd.delivered ++ [skb]).length)
  obtain ⟨⟨l, input, accepted⟩, process, delivered⟩ := fed
  refine ⟨⟨?_, ?_⟩, process⟩
  · have order := ordered.order
    simp only [Call.receive, Softnet.receive, input, accepted, process, delivered]
    rw [queue] at order
    rw [← List.append_assoc old, ← order]
    simp
  · have one := congrArg List.length delivered
    simp only [List.length_append, List.length_singleton] at one
    simp only [Call.receive, Softnet.receive, ordered.work, List.length_append, List.length_singleton, one]
    omega

section
variable (c : Call P)

theorem splice_process : c.splice.sd.processQueue = c.sd.processQueue ++ c.sd.inputPktQueue := by
  simp only [Call.splice]
  split <;> rfl

theorem splice_work : c.splice.work = c.work := by
  simp only [Call.splice]
  split <;> rfl

theorem splice_irqs : c.splice.sd.irqs = c.sd.irqs := by
  simp only [Call.splice]
  split <;> rfl

theorem splice_quota : c.splice.quota =
    if (c.sd.inputPktQueue.length : Int) < c.quota - c.work then c.work + c.sd.inputPktQueue.length else c.quota := by
  simp only [Call.splice]
  split <;> rfl

end

theorem Ordered.splice {old : List P} {c : Call P} (ordered : Ordered old c) : Ordered old c.splice := by
  have order := ordered.order
  unfold Call.splice
  dsimp only
  split
  · exact ⟨by simpa using order, ordered.work⟩
  · exact ⟨by simpa using order, ordered.work⟩

structure Inner (old : List P) (quota total : Int) (c : Call P) : Prop where
  ordered : Ordered old c
  quota : c.quota = quota
  left : c.work + c.sd.processQueue.length = total
  below : c.work < c.quota
  irqs : c.sd.irqs = false

theorem inner_turn (w : World P) {old : List P} {quota total : Int} {c : Call P} (going : Inner old quota total c) :
    ∃ r, whileBody w c = some r ∧
      r.After (fun c' => Inner old quota total c' ∧ c'.sd.processQueue.length < c.sd.processQueue.length)
        (fun c' => Inner old quota total c' ∧ c'.sd.processQueue = [])
        (fun c' => Ordered old c' ∧ c'.sd.irqs = true ∧ c'.work = quota) := by
  unfold whileBody
  split
  · rename_i empty
    exact ⟨_, rfl, going, empty⟩
  · rename_i skb rest queue
    obtain ⟨after, process⟩ := going.ordered.receive queue w
    have left := going.left
    have less := going.below
    have same := going.quota
    dsimp only
    split
    · rename_i full
      refine ⟨_, rfl, ⟨after.order, after.work⟩, rfl, ?_⟩
      simp only [Call.receive] at full
      simp only [Call.enable, Call.receive]
      omega
    · rename_i room
      rw [queue] at left ⊢
      simp only [List.length_cons, Nat.cast_add, Nat.cast_one] at left
      refine ⟨_, rfl, ⟨after, same, ?_, not_le.mp room, rfl⟩, ?_⟩
      · rw [process]
        simp only [Call.receive]
        omega
      · simp [process]

structure Outer (old : List P) (quota : Int) (c : Call P) : Prop where
  ordered : Ordered old c
  limit : c.quota ≤ quota
  within : 0 ≤ quota → c.work ≤ c.quota
  irqs : c.sd.irqs = false

def outerLeft (c : Call P) : Nat := 2 * (c.quota - c.work).toNat + if c.sd.processQueue = [] then 1 else 0

theorem outer_splice {old : List P} {quota : Int} {c c' : Call P} (going : Outer old quota c)
    (below : c.work < c.quota) (inner : Inner old c.quota (c.work + c.sd.processQueue.length) c')
    (empty : c'.sd.processQueue = []) : Outer old quota c'.splice ∧ outerLeft c'.splice < outerLeft c := by
  have same := inner.quota
  have left := inner.left
  have less := inner.below
  have limit := going.limit
  rw [empty, List.length_nil] at left
  have reached : c'.work ≤ c'.splice.quota ∧ c'.splice.quota ≤ c'.quota := by
    rw [splice_quota]
    split <;> omega
  refine ⟨⟨inner.ordered.splice, by omega, fun _ => ?_, ?_⟩, ?_⟩
  · rw [splice_work]
    exact reached.1
  · rw [splice_irqs]
    exact inner.irqs
  · unfold outerLeft
    rw [splice_work, splice_process, empty, List.nil_append]
    by_cases none : c'.sd.inputPktQueue = []
    · -- nothing has arrived: the quota becomes the work done
      have ends : c'.splice.quota = c'.work := by
        rw [splice_quota, none, List.length_nil, if_pos (by omega)]
        omega
      rw [if_pos none, ends]
      split <;> omega
    · rw [if_neg none]
      split
      · omega
      · rename_i delivers
        have some := List.length_pos_iff.mpr delivers
        omega

theorem outer_turn (w : World P) {old : List P} {quota : Int} {c : Call P} (going : Outer old quota c) :
    ∃ r, originalBody w c = some r ∧
      r.After (fun c' => Outer old quota c' ∧ outerLeft c' < outerLeft c)
        (fun c' => Ordered old c' ∧ (0 ≤ quota → c'.work ≤ quota))
        (fun c' => Ordered old c' ∧ c'.sd.irqs = true ∧ (0 ≤ quota → c'.work ≤ quota)) := by
  have limit := going.limit
  unfold originalBody
  split
  · rename_i below
    have start : Inner old c.quota (c.work + c.sd.processQueue.length) c :=
      ⟨going.ordered, rfl, rfl, below, going.irqs⟩
    obtain ⟨r, inner, after⟩ := loop_total (fun c => c.sd.processQueue.length) (fun _ => inner_turn w) start
      (Nat.lt_succ_self _)
    rw [inner, Option.bind_some]
    cases r with
    | next c' => exact after.elim
    | brk c' => exact ⟨_, rfl, outer_splice going below after.1 after.2⟩
    | ret c' => exact ⟨_, rfl, after.1, after.2.1, fun _ => after.2.2 ▸ limit⟩
  · refine ⟨_, rfl, going.ordered, fun positive => ?_⟩
    have within := going.within positive
    omega

theorem original_returns (w : World P) (sd : Softnet P) (quota : Int) :
    ∃ c, processBacklogOriginal w sd quota = some c ∧ Ordered (sd.processQueue ++ sd.inputPktQueue) c ∧
      c.sd.irqs = true ∧ (0 ≤ quota → c.work ≤ quota) := by
  have start : Outer (sd.processQueue ++ sd.inputPktQueue) quota (.start sd quota) :=
    ⟨⟨by simp [Call.start], rfl⟩, Int.le_refl _, fun positive => positive, rfl⟩
  have enough : outerLeft (.start sd quota) < turns quota := by
    unfold outerLeft turns
    by_cases empty : sd.processQueue = [] <;> simp [Call.start, empty]
  obtain ⟨r, outer, after⟩ := loop_total outerLeft (fun _ => outer_turn w) start enough
  unfold processBacklogOriginal
  rw [outer, Option.bind_some]
  cases r with
  | next c => exact after.elim
  | brk c => exact ⟨_, rfl, ⟨after.1.order, after.1.work⟩, rfl, after.2⟩
  | ret c => exact ⟨_, rfl, after.1, after.2⟩

theorem backlog_loops_equivalent (w : World P) (sd : Softnet P) (quota : Int) :
    ∃ t, processBacklog w sd quota = some t ∧ processBacklogOriginal w sd quota = some t.call ∧
      t.call.sd.irqs = true ∧
      t.call.sd.delivered ++ (t.call.sd.processQueue ++ t.call.sd.inputPktQueue) =
        sd.processQueue ++ sd.inputPktQueue ++ t.call.sd.accepted ∧
      t.call.work = t.call.sd.delivered.length ∧ (0 ≤ quota → t.call.work ≤ quota) := by
  obtain ⟨c, original, ordered, irqs, within⟩ := original_returns w sd quota
  have simulates := processBacklog_simulates w sd quota
  rw [original] at simulates
  obtain ⟨t, rewritten, rfl⟩ := Option.map_eq_some_iff.mp simulates.symm
  exact ⟨t, rewritten, original, irqs, ordered.order, ordered.work, within⟩

theorem negative_quota_exceeded :
    ∃ t, processBacklog ⟨1000, fun _ => []⟩ (⟨[7], [], 0, 0, true, true, false, true, 0, [], []⟩ : Softnet Nat) (-1) =
      some t ∧ ¬ t.call.work ≤ -1 :=
  ⟨_, rfl, by decide⟩

end BacklogLoops
