import Mathlib
import SepExtract.TransitionRuns

/- The softirqs of one CPU: kernel/softirq.c from raise_softirq to ksoftirqd, with the interrupts, the sections with
   softirqs disabled and the rounds of __do_softirq on a stack. What runs with interrupts off is one step. The handler
   of BLOCK_IOPOLL_SOFTIRQ is followed to its end, where it raises its own softirq. -/
namespace SoftirqDelivery
open TransitionRuns

inductive Softirq where
  | hi | timer | netTx | netRx | block | blockIopoll | tasklet | sched | hrtimer | rcu
deriving DecidableEq

def softirqVec : List Softirq :=
  [.hi, .timer, .netTx, .netRx, .block, .blockIopoll, .tasklet, .sched, .hrtimer, .rcu]

/-- What is counted in preempt_count: an interrupt, a section with softirqs disabled, local_bh_enable behind its
    sub_preempt_count, netif_rx_ni before its test, or __do_softirq with the handler it is in, the rest of its round
    and max_restart. -/
inductive Frame where
  | irq
  | bh
  | enabling
  | netifRxNi
  | softirq (handler : Option Softirq) (pending : List Softirq) (maxRestart : Nat)
deriving DecidableEq

def Frame.isSoftirq : Frame → Bool
  | .softirq _ _ _ => true
  | _ => false

def Frame.counted : Frame → Bool
  | .enabling | .netifRxNi => false
  | _ => true

inductive Ksoftirqd where
  /-- Before the test of local_softirq_pending. -/
  | checking
  /-- Nothing was pending, before schedule. -/
  | leaving
  | asleep
  /-- At the inner loop. -/
  | serving
  /-- Behind the inner loop, before set_current_state. -/
  | settling
deriving DecidableEq

structure Accounts where
  pending : Softirq → Bool
  /-- How often it was raised since its handler was last entered. -/
  unserved : Softirq → Nat
  /-- Its QUEUE_ENQUEUE and QUEUE_DEQUEUE events. -/
  enqueued : Softirq → Nat
  dequeued : Softirq → Nat

def Accounts.localSoftirqPending (k : Accounts) : List Softirq := softirqVec.filter k.pending

structure Cpu extends Accounts where
  stack : List Frame
  ksoftirqd : Ksoftirqd
  /-- The task state of ksoftirqd is TASK_INTERRUPTIBLE. -/
  interruptible : Bool
  /-- ksoftirqd is the current task. -/
  current : Bool

def Cpu.initial : Cpu where
  pending := fun _ => false
  stack := []
  ksoftirqd := .checking
  interruptible := true
  current := false
  unserved := fun _ => 0
  enqueued := fun _ => 0
  dequeued := fun _ => 0

namespace Cpu

def inInterrupt (k : Cpu) : Bool := k.stack.any Frame.counted

/-- __raise_softirq_irqoff. -/
def setPending (k : Cpu) (v : Softirq) : Cpu :=
  { k with pending := Function.update k.pending v true, unserved := Function.update k.unserved v (k.unserved v + 1) }

def traceEnqueue (k : Cpu) (v : Softirq) : Cpu :=
  { k with enqueued := Function.update k.enqueued v (k.enqueued v + 1) }

def wakeupSoftirqd (k : Cpu) : Cpu :=
  if k.interruptible then
    { k with interruptible := false, ksoftirqd := if k.ksoftirqd = .asleep then .serving else k.ksoftirqd }
  else k

def raiseSoftirqIrqoff (k : Cpu) (v : Softirq) : Cpu :=
  let k := (k.traceEnqueue v).setPending v
  if k.inInterrupt then k else k.wakeupSoftirqd

/-- __do_softirq up to its first handler: MAX_SOFTIRQ_RESTART is 10. -/
def enterSoftirq (k : Cpu) : Cpu :=
  { k with pending := fun _ => false, stack := .softirq none k.localSoftirqPending 10 :: k.stack }

def invokeSoftirq (k : Cpu) (forceIrqthreads : Bool) : Cpu :=
  if forceIrqthreads then k.wakeupSoftirqd else k.enterSoftirq

def doSoftirq (k : Cpu) : Cpu :=
  if !k.inInterrupt && k.localSoftirqPending ≠ [] then k.enterSoftirq else k

/-- The softirqs that tick_check_idle raises are raised with softirqs disabled, and only on a CPU that is idle. -/
def irqEnter (k : Cpu) (ticked : List Softirq) : Option Cpu :=
  if ticked = [] || (k.stack = [] && !k.current) then
    let k := ticked.foldl (fun k v => (k.traceEnqueue v).setPending v) k
    some { k with stack := .irq :: k.stack }
  else none

def irqExit (k : Cpu) (forceIrqthreads : Bool) : Option Cpu :=
  match k.stack with
  | .irq :: rest =>
    let k := { k with stack := rest }
    some (if !k.inInterrupt && k.localSoftirqPending ≠ [] then k.invokeSoftirq forceIrqthreads else k)
  | _ => none

def localBhDisable (k : Cpu) : Option Cpu :=
  match k.stack with
  | .irq :: _ | .enabling :: _ => none
  | _ => some { k with stack := .bh :: k.stack }

/-- Interrupts are enabled between sub_preempt_count and the test of _local_bh_enable_ip. -/
def localBhEnable (k : Cpu) : Option Cpu :=
  match k.stack with
  | .bh :: rest => some { k with stack := .enabling :: rest }
  | .enabling :: rest => some { k with stack := rest }.doSoftirq
  | _ => none

def netifRxNi (k : Cpu) : Option Cpu :=
  match k.stack with
  | .irq :: _ | .enabling :: _ => none
  | _ => some { k with stack := .netifRxNi :: k.stack }

/-- Its end, from the test of local_softirq_pending. -/
def netifRxNiEnd (k : Cpu) : Option Cpu :=
  match k.stack with
  | .netifRxNi :: rest => some { k with stack := rest }.doSoftirq
  | _ => none

def enterHandler (k : Cpu) : Option Cpu :=
  match k.stack with
  | .softirq none (v :: rest) n :: below =>
    some { k with
      stack := .softirq (some v) rest n :: below
      unserved := Function.update k.unserved v 0
      dequeued := Function.update k.dequeued v (k.dequeued v + 1) }
  | _ => none

/-- The end of a handler. That of blk_iopoll_softirq has the raise outside of its if, which only holds the event. -/
def leaveHandler (k : Cpu) (rearm : Bool) : Option Cpu :=
  match k.stack with
  | .softirq (some v) rest n :: below =>
    let k := { k with stack := .softirq none rest n :: below }
    if v = .blockIopoll then
      let k := if rearm then k.traceEnqueue v else k
      some (k.setPending v)
    else some k
  | _ => none

/-- The end of a round of __do_softirq. -/
def endRound (k : Cpu) : Option Cpu :=
  match k.stack with
  | .softirq none [] n :: below =>
    if k.localSoftirqPending = [] then some { k with stack := below }
    else if n - 1 ≠ 0 then
      some { k with pending := fun _ => false, stack := .softirq none k.localSoftirqPending (n - 1) :: below }
    else some { k.wakeupSoftirqd with stack := below }
  | _ => none

/-- A step of run_ksoftirqd. -/
def runKsoftirqd (k : Cpu) : Option Cpu :=
  if k.current && k.stack = [] then
    match k.ksoftirqd with
    | .checking =>
      if k.localSoftirqPending = [] then some { k with ksoftirqd := .leaving }
      else some { k with ksoftirqd := .serving, interruptible := false }
    | .leaving =>
      -- schedule takes a task that is not TASK_RUNNING off the CPU
      if k.interruptible then some { k with ksoftirqd := .asleep, current := false }
      else some { k with ksoftirqd := .serving }
    | .asleep => none
    | .serving => if k.localSoftirqPending = [] then some { k with ksoftirqd := .settling } else some k.enterSoftirq
    | .settling => some { k with ksoftirqd := .checking, interruptible := true }
  else none

def switchTo (k : Cpu) (ksoftirqd : Bool) : Option Cpu :=
  if k.stack = [] && (!ksoftirqd || k.ksoftirqd ≠ .asleep) then some { k with current := ksoftirqd } else none

end Cpu

inductive Step where
  | irqEnter (ticked : List Softirq)
  | irqExit
  | raise (v : Softirq)
  /-- __raise_softirq_irqoff with its event, called from elsewhere. -/
  | rawRaise (v : Softirq)
  | localBhDisable
  | localBhEnable
  | netifRxNi
  | netifRxNiEnd
  | doSoftirq
  | enterHandler
  | leaveHandler (rearm : Bool)
  | endRound
  | ksoftirqd
  | switchTo (ksoftirqd : Bool)

def step (forceIrqthreads : Bool) (k : Cpu) : Step → Option Cpu
  | .irqEnter ticked => k.irqEnter ticked
  | .irqExit => k.irqExit forceIrqthreads
  | .raise v => some (k.raiseSoftirqIrqoff v)
  | .rawRaise v => some ((k.traceEnqueue v).setPending v)
  | .localBhDisable => k.localBhDisable
  | .localBhEnable => k.localBhEnable
  | .netifRxNi => k.netifRxNi
  | .netifRxNiEnd => k.netifRxNiEnd
  | .doSoftirq => some k.doSoftirq
  | .enterHandler => k.enterHandler
  | .leaveHandler rearm => k.leaveHandler rearm
  | .endRound => k.endRound
  | .ksoftirqd => k.runKsoftirqd
  | .switchTo ksoftirqd => k.switchTo ksoftirqd

/-- __raise_softirq_irqoff is called in an interrupt, in a softirq, in netif_rx_ni or with softirqs disabled.
    blk_iopoll_cpu_notify calls it elsewhere, and hrtimer_start without a wakeup may. -/
def RawInside (k : Cpu) : Step → Prop
  | .rawRaise _ => k.stack ≠ []
  | _ => True

def roundOf : List Frame → List Softirq
  | [] => []
  | .softirq _ rest _ :: _ => rest
  | _ :: below => roundOf below

def handlerOf : List Frame → Option Softirq
  | [] => none
  | .softirq handler _ _ :: _ => handler
  | _ :: below => handlerOf below

def Busy (v : Softirq) (k : Cpu) : Prop :=
  k.pending v = true ∨ v ∈ roundOf k.stack ∨ handlerOf k.stack = some v

structure Ledger (k : Cpu) : Prop where
  served : ∀ v, 0 < k.unserved v → k.pending v = true ∨ v ∈ roundOf k.stack
  paid : ∀ v, v ≠ .blockIopoll → k.dequeued v + (roundOf k.stack).count v + (k.pending v).toNat ≤ k.enqueued v
  restless : 0 < k.enqueued .blockIopoll → Busy .blockIopoll k

/-- With a softirq pending and nothing on the stack that will look at it, ksoftirqd is neither asleep nor about to
    sleep, as long as bare raises are made inside. -/
structure Alert (inside : Bool) (k : Cpu) : Prop where
  awake : inside = true → k.stack = [] → k.localSoftirqPending ≠ [] →
    k.ksoftirqd ≠ .asleep ∧ (k.ksoftirqd = .leaving → k.interruptible = false)
  sleeping : k.ksoftirqd = .asleep → k.interruptible = true

structure Inv (inside : Bool) (k : Cpu) : Prop where
  single : k.stack.countP Frame.isSoftirq ≤ 1
  ledger : Ledger k
  alert : Alert inside k

section
variable {k k' : Cpu} {f : Frame} {stack rest : List Frame} {v : Softirq} {inside : Bool}

theorem mem_softirqVec (v : Softirq) : v ∈ softirqVec := by
  cases v <;> decide

theorem nodup_softirqVec : softirqVec.Nodup := by decide

theorem mem_localSoftirqPending : v ∈ k.localSoftirqPending ↔ k.pending v = true := by
  simp [Accounts.localSoftirqPending, mem_softirqVec]

theorem count_localSoftirqPending (v : Softirq) : k.localSoftirqPending.count v = (k.pending v).toNat := by
  have once : softirqVec.count v = 1 := List.count_eq_one_of_mem nodup_softirqVec (mem_softirqVec v)
  cases set : k.pending v with
  | false =>
    apply List.count_eq_zero_of_not_mem
    simp [mem_localSoftirqPending, set]
  | true => rw [Accounts.localSoftirqPending, List.count_filter set, once, Bool.toNat_true]

theorem roundOf_cons (other : f.isSoftirq = false) (stack : List Frame) : roundOf (f :: stack) = roundOf stack := by
  cases f <;> simp_all [roundOf, Frame.isSoftirq]

theorem handlerOf_cons (other : f.isSoftirq = false) (stack : List Frame) :
    handlerOf (f :: stack) = handlerOf stack := by
  cases f <;> simp_all [handlerOf, Frame.isSoftirq]

theorem roundOf_eq_nil (none : stack.countP Frame.isSoftirq = 0) : roundOf stack = [] := by
  induction stack with
  | nil => rfl
  | cons f below ih =>
    simp only [List.countP_cons, Nat.add_eq_zero_iff, ite_eq_right_iff, one_ne_zero, imp_false] at none
    rw [roundOf_cons (by simpa using none.2), ih none.1]

theorem handlerOf_eq_none (none : stack.countP Frame.isSoftirq = 0) : handlerOf stack = .none := by
  induction stack with
  | nil => rfl
  | cons f below ih =>
    simp only [List.countP_cons, Nat.add_eq_zero_iff, ite_eq_right_iff, one_ne_zero, imp_false] at none
    rw [handlerOf_cons (by simpa using none.2), ih none.1]

theorem countP_of_inInterrupt (outside : k.inInterrupt = false) : k.stack.countP Frame.isSoftirq = 0 := by
  rw [List.countP_eq_zero]
  intro f member
  have free : f.counted = false := by simpa using List.any_eq_false.1 outside f member
  cases f <;> simp_all [Frame.counted, Frame.isSoftirq]

theorem inInterrupt_of_nil (empty : k.stack = []) : k.inInterrupt = false := by simp [Cpu.inInterrupt, empty]

theorem Busy.of_stack (busy : Busy v k) (pending : k.pending v = true → k'.pending v = true)
    (round : roundOf k'.stack = roundOf k.stack) (handler : handlerOf k'.stack = handlerOf k.stack) : Busy v k' := by
  rw [Busy, round, handler]
  exact busy.imp_left pending

theorem Busy.pending (busy : Busy v k) (none : k.stack.countP Frame.isSoftirq = 0) : k.pending v = true := by
  simpa [Busy, roundOf_eq_nil none, handlerOf_eq_none none] using busy

theorem ledger_raise (ledger : Ledger k) (v : Softirq) : Ledger ((k.traceEnqueue v).setPending v) := by
  constructor
  · intro w
    rcases eq_or_ne w v with rfl | other
    · simp [Cpu.setPending]
    · simpa [Cpu.setPending, Cpu.traceEnqueue, other] using ledger.served w
  · intro w notIopoll
    have before := ledger.paid w notIopoll
    rcases eq_or_ne w v with rfl | other
    · simp [Cpu.setPending, Cpu.traceEnqueue]
      omega
    · simpa [Cpu.setPending, Cpu.traceEnqueue, other] using before
  · intro traced
    rcases eq_or_ne .blockIopoll v with rfl | other
    · exact .inl (by simp [Cpu.setPending])
    · have before : 0 < k.enqueued .blockIopoll := by
        simpa [Cpu.setPending, Cpu.traceEnqueue, other] using traced
      refine (ledger.restless before).of_stack ?_ rfl rfl
      intro pending
      simpa [Cpu.setPending, Cpu.traceEnqueue, other] using pending

theorem Ledger.of_stack (ledger : Ledger k) (accounts : k'.toAccounts = k.toAccounts)
    (round : roundOf k'.stack = roundOf k.stack) (handler : handlerOf k'.stack = handlerOf k.stack) : Ledger k' := by
  constructor
  · rw [round, accounts]
    exact ledger.served
  · rw [round, accounts]
    exact ledger.paid
  · rw [accounts]
    intro traced
    exact (ledger.restless traced).of_stack (by rw [accounts]; exact id) round handler

theorem wakeup_rest (k : Cpu) :
    k.wakeupSoftirqd.toAccounts = k.toAccounts ∧ k.wakeupSoftirqd.stack = k.stack := by
  rw [Cpu.wakeupSoftirqd]
  split <;> exact ⟨rfl, rfl⟩

theorem alert_wakeup (sleeping : k.ksoftirqd = .asleep → k.interruptible = true) (stack : List Frame) :
    Alert inside { k.wakeupSoftirqd with stack := stack } := by
  rw [Cpu.wakeupSoftirqd]
  split
  case isTrue interruptible =>
    dsimp only
    constructor
    · intro _ _ _
      dsimp only
      split
      · simp
      case isFalse up => exact ⟨up, fun _ => rfl⟩
    · intro asleep
      dsimp only at asleep
      split at asleep
      · simp at asleep
      case isFalse up => exact (up asleep).elim
  case isFalse running =>
    constructor
    · intro _ _ _
      refine ⟨fun asleep => running (sleeping asleep), fun _ => by simpa using running⟩
    · exact sleeping

theorem Alert.of_busy (alert : Alert inside k) (ksoftirqd : k'.ksoftirqd = k.ksoftirqd)
    (interruptible : k'.interruptible = k.interruptible) (busy : k'.stack ≠ []) : Alert inside k' :=
  ⟨fun _ empty => (busy empty).elim, by rw [ksoftirqd, interruptible]; exact alert.sleeping⟩

theorem inv_enterSoftirq (ledger : Ledger k) (sleeping : k.ksoftirqd = .asleep → k.interruptible = true)
    (none : k.stack.countP Frame.isSoftirq = 0) : Inv inside k.enterSoftirq := by
  have before := roundOf_eq_nil none
  refine ⟨?_, ⟨?_, ?_, ?_⟩, ⟨by simp [Cpu.enterSoftirq], sleeping⟩⟩
  · rw [Cpu.enterSoftirq, List.countP_cons_of_pos rfl, none]
  · intro v unserved
    have waiting := ledger.served v unserved
    rw [before] at waiting
    exact .inr (mem_localSoftirqPending.mpr (waiting.resolve_right (by simp)))
  · intro v notIopoll
    have paid := ledger.paid v notIopoll
    rw [before] at paid
    simpa [Cpu.enterSoftirq, roundOf, count_localSoftirqPending] using paid
  · intro traced
    exact .inr (.inl (mem_localSoftirqPending.mpr ((ledger.restless traced).pending none)))

theorem inv_wakeup (single : k.stack.countP Frame.isSoftirq ≤ 1) (ledger : Ledger k)
    (sleeping : k.ksoftirqd = .asleep → k.interruptible = true) : Inv inside k.wakeupSoftirqd := by
  obtain ⟨accounts, stack⟩ := wakeup_rest k
  refine ⟨by rwa [stack], ledger.of_stack accounts ?_ ?_, alert_wakeup sleeping k.wakeupSoftirqd.stack⟩ <;> rw [stack]

theorem inv_doSoftirq (inv : Inv inside k) : Inv inside k.doSoftirq := by
  rw [Cpu.doSoftirq]
  split
  case isTrue chosen =>
    simp only [Bool.and_eq_true, Bool.not_eq_true'] at chosen
    exact inv_enterSoftirq inv.ledger inv.alert.sleeping (countP_of_inInterrupt chosen.1)
  case isFalse => exact inv

theorem inv_raise (inv : Inv inside k) (v : Softirq) : Inv inside (k.raiseSoftirqIrqoff v) := by
  have ledger := ledger_raise inv.ledger v
  simp only [Cpu.raiseSoftirqIrqoff]
  split
  case isTrue inside =>
    refine ⟨inv.single, ledger, inv.alert.of_busy rfl rfl ?_⟩
    intro empty
    simp [inInterrupt_of_nil empty] at inside
  case isFalse => exact inv_wakeup inv.single ledger inv.alert.sleeping

theorem inv_rawRaise (inv : Inv inside k) (guard : inside = true → k.stack ≠ []) :
    Inv inside ((k.traceEnqueue v).setPending v) :=
  ⟨inv.single, ledger_raise inv.ledger v, ⟨fun all empty => (guard all empty).elim, inv.alert.sleeping⟩⟩

theorem ledger_ticked (ticked : List Softirq) (ledger : Ledger k) :
    Ledger (ticked.foldl (fun k v => (k.traceEnqueue v).setPending v) k) := by
  induction ticked generalizing k with
  | nil => exact ledger
  | cons v rest ih => exact ih (ledger_raise ledger v)

theorem ticked_rest (ticked : List Softirq) (k : Cpu) :
    (ticked.foldl (fun k v => (k.traceEnqueue v).setPending v) k).stack = k.stack ∧
      (ticked.foldl (fun k v => (k.traceEnqueue v).setPending v) k).ksoftirqd = k.ksoftirqd ∧
      (ticked.foldl (fun k v => (k.traceEnqueue v).setPending v) k).interruptible = k.interruptible := by
  induction ticked generalizing k with
  | nil => exact ⟨rfl, rfl, rfl⟩
  | cons v rest ih => exact ih _

theorem inv_irqEnter {ticked : List Softirq} (inv : Inv inside k) (done : k.irqEnter ticked = some k') :
    Inv inside k' := by
  rw [Cpu.irqEnter] at done
  split at done
  case isTrue =>
    cases done
    obtain ⟨stack, ksoftirqd, interruptible⟩ := ticked_rest ticked k
    refine ⟨?_, ?_, inv.alert.of_busy ksoftirqd interruptible (by simp)⟩
    · simpa [stack, Frame.isSoftirq] using inv.single
    · exact (ledger_ticked ticked inv.ledger).of_stack rfl (roundOf_cons rfl _) (handlerOf_cons rfl _)
  case isFalse => simp at done

theorem ledger_pop (ledger : Ledger k) (top : k.stack = f :: rest) (other : f.isSoftirq = false) :
    Ledger { k with stack := rest } := by
  refine ledger.of_stack rfl ?_ ?_
  · rw [top, roundOf_cons other]
  · rw [top, handlerOf_cons other]

theorem inv_pop {left : Cpu} (inv : Inv inside k) (top : k.stack = f :: rest) (other : f.isSoftirq = false)
    (popped : left = { k with stack := rest }) (looked : rest.countP Frame.isSoftirq = 0 → Inv inside k') :
    Inv inside (if !left.inInterrupt && left.localSoftirqPending ≠ [] then k' else left) := by
  subst popped
  split
  case isTrue chosen =>
    simp only [Bool.and_eq_true, Bool.not_eq_true'] at chosen
    exact looked (countP_of_inInterrupt chosen.1)
  case isFalse quiet =>
    have single := inv.single
    rw [top, List.countP_cons_of_neg (by simp [other])] at single
    refine ⟨single, ledger_pop inv.ledger top other, ⟨?_, inv.alert.sleeping⟩⟩
    intro _ empty pending
    exact (quiet (by simp [inInterrupt_of_nil empty, pending])).elim

theorem inv_irqExit {forceIrqthreads : Bool} (inv : Inv inside k) (done : k.irqExit forceIrqthreads = some k') :
    Inv inside k' := by
  rw [Cpu.irqExit] at done
  split at done
  case h_1 rest top =>
    cases done
    have ledger := ledger_pop inv.ledger top rfl
    refine inv_pop inv top rfl rfl ?_
    intro none
    cases forceIrqthreads with
    | false => exact inv_enterSoftirq ledger inv.alert.sleeping none
    | true => exact inv_wakeup (none.trans_le (Nat.zero_le 1)) ledger inv.alert.sleeping
  case h_2 => simp at done

theorem inv_push (inv : Inv inside k) (other : f.isSoftirq = false) : Inv inside { k with stack := f :: k.stack } := by
  refine ⟨?_, inv.ledger.of_stack rfl (roundOf_cons other _) (handlerOf_cons other _),
    inv.alert.of_busy rfl rfl (by simp)⟩
  rw [List.countP_cons_of_neg (by simp [other])]
  exact inv.single

theorem inv_localBhDisable (inv : Inv inside k) (done : k.localBhDisable = some k') : Inv inside k' := by
  rw [Cpu.localBhDisable] at done
  split at done
  case h_1 | h_2 => simp at done
  case h_3 => exact Option.some.inj done ▸ inv_push inv rfl

theorem inv_localBhEnable (inv : Inv inside k) (done : k.localBhEnable = some k') : Inv inside k' := by
  rw [Cpu.localBhEnable] at done
  split at done
  case h_1 rest top =>
    cases done
    have single := inv.single
    rw [top] at single
    refine ⟨single, inv.ledger.of_stack rfl ?_ ?_, inv.alert.of_busy rfl rfl (by simp)⟩ <;> (rw [top]; rfl)
  case h_2 rest top =>
    cases done
    exact inv_pop inv top rfl rfl (inv_enterSoftirq (ledger_pop inv.ledger top rfl) inv.alert.sleeping)
  case h_3 => simp at done

theorem inv_netifRxNi (inv : Inv inside k) (done : k.netifRxNi = some k') : Inv inside k' := by
  rw [Cpu.netifRxNi] at done
  split at done
  case h_1 | h_2 => simp at done
  case h_3 => exact Option.some.inj done ▸ inv_push inv rfl

theorem inv_netifRxNiEnd (inv : Inv inside k) (done : k.netifRxNiEnd = some k') : Inv inside k' := by
  rw [Cpu.netifRxNiEnd] at done
  split at done
  case h_1 rest top =>
    cases done
    exact inv_pop inv top rfl rfl (inv_enterSoftirq (ledger_pop inv.ledger top rfl) inv.alert.sleeping)
  case h_2 => simp at done

theorem inv_enterHandler (inv : Inv inside k) (done : k.enterHandler = some k') : Inv inside k' := by
  rw [Cpu.enterHandler] at done
  split at done
  case h_1 v todo n below top =>
    cases done
    have single := inv.single
    rw [top] at single
    have round : roundOf k.stack = v :: todo := by
      rw [top]
      rfl
    refine ⟨single, ⟨?_, ?_, ?_⟩, inv.alert.of_busy rfl rfl (by simp)⟩
    · intro w
      have before := inv.ledger.served w
      rw [round] at before
      rcases eq_or_ne w v with rfl | other
      · simp
      · simpa [roundOf, other] using before
    · intro w notIopoll
      have before := inv.ledger.paid w notIopoll
      rw [round] at before
      rcases eq_or_ne w v with rfl | other
      · simp [roundOf] at before ⊢
        omega
      · simpa [roundOf, other, other.symm] using before
    · intro traced
      have before := inv.ledger.restless traced
      rw [Busy, top] at before
      rcases eq_or_ne v .blockIopoll with rfl | other
      · exact .inr (.inr rfl)
      · simpa [Busy, roundOf, handlerOf, other.symm, other] using before
  case h_2 => simp at done

theorem inv_leaveHandler {rearm : Bool} (inv : Inv inside k) (done : k.leaveHandler rearm = some k') :
    Inv inside k' := by
  simp only [Cpu.leaveHandler] at done
  split at done
  case h_1 v todo n below top =>
    have single := inv.single
    rw [top] at single
    have round : roundOf k.stack = todo := by
      rw [top]
      rfl
    have served := inv.ledger.served
    have paid := inv.ledger.paid
    rw [round] at served paid
    split at done
    case isTrue same =>
      cases done
      subst same
      refine ⟨?_, ⟨?_, ?_, fun _ => .inl (by simp [Cpu.setPending])⟩, inv.alert.of_busy ?_ ?_ ?_⟩
      · cases rearm <;> exact single
      · intro w
        rcases eq_or_ne w .blockIopoll with rfl | other
        · simp [Cpu.setPending]
        · cases rearm <;> simpa [Cpu.setPending, Cpu.traceEnqueue, roundOf, other] using served w
      · intro w other
        cases rearm <;> simpa [Cpu.setPending, Cpu.traceEnqueue, roundOf, other] using paid w other
      · cases rearm <;> rfl
      · cases rearm <;> rfl
      · cases rearm <;> simp [Cpu.setPending, Cpu.traceEnqueue]
    case isFalse other =>
      cases done
      refine ⟨single, ⟨served, paid, ?_⟩, inv.alert.of_busy rfl rfl (by simp)⟩
      intro traced
      have before := inv.ledger.restless traced
      rw [Busy, top] at before
      simpa [Busy, roundOf, handlerOf, other] using before
  case h_2 => simp at done

theorem inv_endRound (inv : Inv inside k) (done : k.endRound = some k') : Inv inside k' := by
  rw [Cpu.endRound] at done
  split at done
  case h_1 n below top =>
    have single := inv.single
    rw [top, List.countP_cons_of_pos rfl] at single
    have none : below.countP Frame.isSoftirq = 0 := by omega
    have ended : Ledger { k with stack := below } := by
      refine inv.ledger.of_stack rfl ?_ ?_ <;> rw [top]
      · exact roundOf_eq_nil none
      · exact handlerOf_eq_none none
    split at done
    case isTrue quiet =>
      cases done
      exact ⟨none.trans_le (Nat.zero_le 1), ended, ⟨fun _ _ pending => (pending quiet).elim, inv.alert.sleeping⟩⟩
    case isFalse =>
      split at done
      case isTrue =>
        cases done
        have entered : Inv inside { k with stack := below }.enterSoftirq :=
          inv_enterSoftirq ended inv.alert.sleeping none
        exact ⟨entered.single, entered.ledger.of_stack rfl rfl rfl, inv.alert.of_busy rfl rfl (by simp)⟩
      case isFalse =>
        cases done
        exact ⟨none.trans_le (Nat.zero_le 1), ended.of_stack (wakeup_rest k).1 rfl rfl,
          alert_wakeup inv.alert.sleeping below⟩
  case h_2 => simp at done

theorem inv_runKsoftirqd (inv : Inv inside k) (done : k.runKsoftirqd = some k') : Inv inside k' := by
  rw [Cpu.runKsoftirqd] at done
  split at done
  case isTrue chosen =>
    simp only [Bool.and_eq_true, decide_eq_true_eq] at chosen
    have empty := chosen.2
    -- but for the start of __do_softirq only the state of ksoftirqd changes
    have moved : ∀ stands interruptible current,
        Alert inside { k with ksoftirqd := stands, interruptible := interruptible, current := current } →
        Inv inside { k with ksoftirqd := stands, interruptible := interruptible, current := current } :=
      fun _ _ _ alert => ⟨inv.single, inv.ledger.of_stack rfl rfl rfl, alert⟩
    cases stands : k.ksoftirqd with
    | checking =>
      simp only [stands] at done
      split at done
      case isTrue quiet =>
        cases done
        exact moved .leaving _ _ ⟨fun _ _ pending => (pending quiet).elim, by simp⟩
      case isFalse =>
        cases done
        exact moved .serving _ _ ⟨by simp, by simp⟩
    | leaving =>
      simp only [stands] at done
      split at done
      case isTrue interruptible =>
        cases done
        refine moved .asleep _ _ ⟨fun all _ pending => ?_, fun _ => interruptible⟩
        have resolved := (inv.alert.awake all empty pending).2 stands
        simp [interruptible] at resolved
      case isFalse =>
        cases done
        exact moved .serving _ _ ⟨by simp, by simp⟩
    | asleep => simp [stands] at done
    | serving =>
      simp only [stands] at done
      split at done
      case isTrue quiet =>
        cases done
        exact moved .settling _ _ ⟨fun _ _ pending => (pending quiet).elim, by simp⟩
      case isFalse =>
        cases done
        exact inv_enterSoftirq inv.ledger inv.alert.sleeping (by simp [empty])
    | settling =>
      simp only [stands] at done
      cases done
      exact moved .checking _ _ ⟨by simp, by simp⟩
  case isFalse => simp at done

theorem inv_switchTo {ksoftirqd : Bool} (inv : Inv inside k) (done : k.switchTo ksoftirqd = some k') :
    Inv inside k' := by
  rw [Cpu.switchTo] at done
  split at done
  case isTrue =>
    cases done
    exact ⟨inv.single, inv.ledger.of_stack rfl rfl rfl, ⟨inv.alert.awake, inv.alert.sleeping⟩⟩
  case isFalse => simp at done

theorem inv_step {forceIrqthreads : Bool} {a : Step} (inv : Inv inside k) (guard : inside = true → RawInside k a)
    (done : step forceIrqthreads k a = some k') : Inv inside k' := by
  cases a with
  | irqEnter ticked => exact inv_irqEnter inv done
  | irqExit => exact inv_irqExit inv done
  | raise v => exact Option.some.inj done ▸ inv_raise inv v
  | rawRaise v => exact Option.some.inj done ▸ inv_rawRaise inv guard
  | localBhDisable => exact inv_localBhDisable inv done
  | localBhEnable => exact inv_localBhEnable inv done
  | netifRxNi => exact inv_netifRxNi inv done
  | netifRxNiEnd => exact inv_netifRxNiEnd inv done
  | doSoftirq => exact Option.some.inj done ▸ inv_doSoftirq inv
  | enterHandler => exact inv_enterHandler inv done
  | leaveHandler rearm => exact inv_leaveHandler inv done
  | endRound => exact inv_endRound inv done
  | ksoftirqd => exact inv_runKsoftirqd inv done
  | switchTo ksoftirqd => exact inv_switchTo inv done

theorem inv_initial : Inv inside .initial :=
  ⟨by simp [Cpu.initial], ⟨by simp [Cpu.initial], by simp [Cpu.initial, roundOf], by simp [Cpu.initial]⟩,
    ⟨by simp [Cpu.initial], by simp [Cpu.initial]⟩⟩

theorem inv_run {forceIrqthreads : Bool} {acts : List Step}
    (done : run (step forceIrqthreads) .initial acts = some k) : Inv false k :=
  invariant_of_run (Inv false) (fun _ _ _ inv first => inv_step inv nofun first) inv_initial done

theorem inv_run_inside {forceIrqthreads : Bool} {acts : List Step}
    (inside : Guarded (step forceIrqthreads) RawInside .initial acts)
    (done : run (step forceIrqthreads) .initial acts = some k) : Inv true k :=
  invariant_of_guarded (Inv true) (fun _ _ _ inv guard first => inv_step inv (fun _ => guard) first) inv_initial inside
    done

def Cpu.serving (k : Cpu) (stands : Ksoftirqd) (interruptible : Bool) : Cpu :=
  { k with current := true, ksoftirqd := stands, interruptible := interruptible }

section
variable (forceIrqthreads : Bool) (empty : k.stack = []) (pending : k.localSoftirqPending ≠ [])
include empty pending

theorem ksoftirqd_serving (b : Bool) :
    step forceIrqthreads (k.serving .serving b) .ksoftirqd = some (k.serving .serving b).enterSoftirq := by
  simp [step, Cpu.runKsoftirqd, Cpu.serving, empty, pending]

theorem ksoftirqd_checking (b : Bool) :
    step forceIrqthreads (k.serving .checking b) .ksoftirqd = some (k.serving .serving false) := by
  simp [step, Cpu.runKsoftirqd, Cpu.serving, empty, pending]

omit pending in
theorem ksoftirqd_leaving :
    step forceIrqthreads (k.serving .leaving false) .ksoftirqd = some (k.serving .serving false) := by
  simp [step, Cpu.runKsoftirqd, Cpu.serving, empty]

omit pending in
theorem ksoftirqd_settling (b : Bool) :
    step forceIrqthreads (k.serving .settling b) .ksoftirqd = some (k.serving .checking true) := by
  simp [step, Cpu.runKsoftirqd, Cpu.serving, empty]

theorem ksoftirqd_reaches_round (inv : Inv true k) :
    ∃ n ≤ 3, ∃ k', run (step forceIrqthreads) k (.switchTo true :: List.replicate n .ksoftirqd) = some k' ∧
      roundOf k'.stack = k.localSoftirqPending := by
  obtain ⟨awake, resolved⟩ := inv.alert.awake rfl empty pending
  have switched : step forceIrqthreads k (.switchTo true) = some (k.serving k.ksoftirqd k.interruptible) := by
    simp [step, Cpu.switchTo, Cpu.serving, empty, awake]
  have serves := ksoftirqd_serving forceIrqthreads empty pending
  have checks := ksoftirqd_checking forceIrqthreads empty pending
  suffices entered : ∃ n ≤ 3, ∃ b, run (step forceIrqthreads) k (.switchTo true :: List.replicate n .ksoftirqd) =
      some (k.serving .serving b).enterSoftirq by
    obtain ⟨n, few, b, reached⟩ := entered
    exact ⟨n, few, _, reached, rfl⟩
  cases stands : k.ksoftirqd with
  | checking => exact ⟨2, by omega, false, by simp [run, switched, stands, checks, serves]⟩
  | leaving =>
    have left := ksoftirqd_leaving forceIrqthreads empty
    exact ⟨2, by omega, false, by simp [run, switched, stands, resolved stands, left, serves]⟩
  | asleep => exact (awake stands).elim
  | serving => exact ⟨1, by omega, k.interruptible, by simp [run, switched, stands, serves]⟩
  | settling =>
    have settles := ksoftirqd_settling forceIrqthreads empty
    exact ⟨3, by omega, false, by simp [run, switched, stands, settles, checks, serves]⟩

end

end

section
variable {forceIrqthreads : Bool} {acts : List Step} {k : Cpu}

/-- Softirqs do not nest, no raise is lost, and a softirq is never left behind: with nothing on the stack at most
    three steps of ksoftirqd lead into a round that holds it. -/
theorem softirq_not_left_behind (inside : Guarded (step forceIrqthreads) RawInside .initial acts)
    (done : run (step forceIrqthreads) .initial acts = some k) :
    k.stack.countP Frame.isSoftirq ≤ 1 ∧ (∀ v, 0 < k.unserved v → k.pending v = true ∨ v ∈ roundOf k.stack) ∧
      (k.stack = [] → (∃ v, 0 < k.unserved v) → ∃ n ≤ 3, ∃ k',
        run (step forceIrqthreads) k (.switchTo true :: List.replicate n .ksoftirqd) = some k' ∧
        ∀ v, 0 < k.unserved v → v ∈ roundOf k'.stack) := by
  have inv := inv_run_inside inside done
  refine ⟨inv.single, inv.ledger.served, ?_⟩
  rintro empty ⟨v, raised⟩
  have waiting : ∀ v, 0 < k.unserved v → v ∈ k.localSoftirqPending := by
    intro v raised
    have place := inv.ledger.served v raised
    rw [empty] at place
    exact mem_localSoftirqPending.mpr (place.resolve_right (by simp [roundOf]))
  obtain ⟨n, few, k', reached, round⟩ :=
    ksoftirqd_reaches_round forceIrqthreads empty (List.ne_nil_of_mem (waiting v raised)) inv
  refine ⟨n, few, k', reached, ?_⟩
  rw [round]
  exact waiting

def raisedAsleep : List Step :=
  [.switchTo true, .ksoftirqd, .ksoftirqd, .irqEnter [], .rawRaise .netRx, .irqExit]

theorem softirq_not_left_behind_asleep :
    ∃ k, run (step true) .initial raisedAsleep = some k ∧ k.stack = [] ∧ k.unserved .netRx = 1 ∧
      ∃ n ≤ 3, ∃ k', run (step true) k (.switchTo true :: List.replicate n .ksoftirqd) = some k' ∧
        .netRx ∈ roundOf k'.stack := by
  obtain ⟨k, done, empty, raised⟩ : ∃ k, run (step true) .initial raisedAsleep = some k ∧ k.stack = [] ∧
    k.unserved .netRx = 1 := ⟨_, rfl, rfl, rfl⟩
  have inside : Guarded (step true) RawInside .initial raisedAsleep := by
    simp [raisedAsleep, Guarded, RawInside, step, Cpu.irqEnter]
  obtain ⟨n, few, k', reached, round⟩ := (softirq_not_left_behind inside done).2.2 empty ⟨.netRx, by omega⟩
  exact ⟨k, done, empty, raised, n, few, k', reached, round .netRx (by omega)⟩

/-- In netif_rx_ni the raise does not wake ksoftirqd, and the end of it serves the softirq. -/
example : (run (step false) .initial
    [.switchTo true, .ksoftirqd, .ksoftirqd, .netifRxNi, .rawRaise .netRx, .netifRxNiEnd, .enterHandler]).map
    (fun k => (k.stack, k.unserved .netRx, k.ksoftirqd)) = some ([.softirq (some .netRx) [] 10], 0, .asleep) := rfl

theorem softirq_dequeues_announced (done : run (step forceIrqthreads) .initial acts = some k) (v : Softirq)
    (other : v ≠ .blockIopoll) : k.dequeued v ≤ k.enqueued v := by
  have paid := (inv_run done).ledger.paid v other
  omega

def raisedInHandler : List Step :=
  [.irqEnter [], .raise .netRx, .raise .netRx, .irqExit, .enterHandler, .raise .netRx, .leaveHandler false, .endRound,
    .enterHandler]

theorem softirq_dequeues_announced_in_handler :
    ∃ k, run (step false) .initial raisedInHandler = some k ∧ k.dequeued .netRx = 2 ∧ k.enqueued .netRx = 3 ∧
      k.dequeued .netRx ≤ k.enqueued .netRx := by
  obtain ⟨k, done, dequeued, enqueued⟩ : ∃ k, run (step false) .initial raisedInHandler = some k ∧
    k.dequeued .netRx = 2 ∧ k.enqueued .netRx = 3 := ⟨_, rfl, rfl, rfl⟩
  exact ⟨k, done, dequeued, enqueued, softirq_dequeues_announced done .netRx (by decide)⟩

/-- The if of blk_iopoll_softirq holds the event and not the raise. Once the softirq was raised it is pending whenever
    nothing is on the stack, and ksoftirqd does not sleep again if bare raises are made inside. -/
theorem blk_iopoll_never_rests (done : run (step forceIrqthreads) .initial acts = some k)
    (traced : 0 < k.enqueued .blockIopoll) (empty : k.stack = []) :
    k.pending .blockIopoll = true ∧ (Guarded (step forceIrqthreads) RawInside .initial acts →
      k.ksoftirqd ≠ .asleep ∧ (k.ksoftirqd = .leaving → k.interruptible = false)) := by
  have pending := ((inv_run done).ledger.restless traced).pending (by simp [empty])
  refine ⟨pending, fun inside => ?_⟩
  exact (inv_run_inside inside done).alert.awake rfl empty (List.ne_nil_of_mem (mem_localSoftirqPending.mpr pending))

def raisedOnce : List Step :=
  [.irqEnter [], .raise .blockIopoll, .irqExit] ++
    (List.replicate 10 [.enterHandler, .leaveHandler false, .endRound]).flatten

theorem blk_iopoll_never_rests_raised_once :
    ∃ k, run (step false) .initial raisedOnce = some k ∧ k.enqueued .blockIopoll = 1 ∧ k.dequeued .blockIopoll = 10 ∧
      k.stack = [] ∧ k.pending .blockIopoll = true ∧ k.ksoftirqd ≠ .asleep := by
  obtain ⟨k, done, enqueued, dequeued, empty⟩ : ∃ k, run (step false) .initial raisedOnce = some k ∧
    k.enqueued .blockIopoll = 1 ∧ k.dequeued .blockIopoll = 10 ∧ k.stack = [] := ⟨_, rfl, rfl, rfl, rfl⟩
  have inside : Guarded (step false) RawInside .initial raisedOnce := by
    simp [raisedOnce, List.replicate, Guarded, RawInside]
  obtain ⟨pending, sleepless⟩ := blk_iopoll_never_rests done (by omega) empty
  exact ⟨k, done, enqueued, dequeued, empty, pending, (sleepless inside).1⟩

/-- The raise of blk_iopoll_cpu_notify is made outside, and leaves ksoftirqd asleep. -/
example : (run (step false) .initial [.switchTo true, .ksoftirqd, .ksoftirqd, .rawRaise .blockIopoll]).map
    (fun k => (k.stack, k.pending .blockIopoll, k.ksoftirqd)) = some ([], true, .asleep) := rfl

end

end SoftirqDelivery
