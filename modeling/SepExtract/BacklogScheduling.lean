import Mathlib
import SepExtract.TransitionRuns

/- The receive backlogs of several CPUs in net/core/dev.c: enqueue_to_backlog with its interrupts between the CPUs,
   net_rx_action with its poll list, and process_backlog packet by packet. A section with interrupts off ends a step
   where another CPU could come in. -/
namespace BacklogScheduling
open TransitionRuns

variable {C P N : Type}

inductive Napi (N : Type) where
  | backlog
  | device (n : N)
deriving DecidableEq

/-- Where net_rx_action of a CPU stands, with its budget, and the weight of the entry that is polled. -/
inductive Action (C P N : Type) where
  | idle
  /-- At the test of the loop, with interrupts off. -/
  | loop (budget : Int)
  | polling (budget : Int) (n : Napi N)
  /-- process_backlog in net_rps_action_and_irq_enable. -/
  | kicking (budget weight : Int) (list : List C)
  /-- process_backlog at the head of its inner loop, with interrupts off. -/
  | backlog (budget weight work quota : Int)
  /-- process_backlog in __netif_receive_skb. -/
  | receiving (budget weight work quota : Int) (skb : P)
  /-- In the poll function of a device. -/
  | device (budget weight : Int) (n : N)
  | polled (budget weight work : Int) (n : Napi N)
  /-- At the label out, with interrupts off. -/
  | out
  /-- In net_rps_action_and_irq_enable at the end. -/
  | sending (list : List C)

namespace Action

def irqs : Action C P N → Bool
  | .loop _ | .backlog _ _ _ _ | .out => false
  | _ => true

def looping : Action C P N → Bool
  | .idle | .out | .sending _ => false
  | _ => true

def inHand : Action C P N → List P
  | .receiving _ _ _ _ skb => [skb]
  | _ => []

end Action

structure Softnet (C P N : Type) where
  inputPktQueue : List P
  processQueue : List P
  /-- NAPI_STATE_SCHED of the backlog. -/
  sched : Bool
  pollList : List (Napi N)
  rpsIpiList : List C
  /-- The call of rps_trigger_softirq is on its way. -/
  csd : Bool
  /-- NET_RX_SOFTIRQ is pending, or taken by a round of __do_softirq. -/
  pending : Bool
  taken : Bool
  action : Action C P N
  /-- An entry was removed from a list that it was not on. -/
  corrupt : Bool
  dropped : Nat
  accepted : List P
  delivered : List P

structure System (C P N : Type) where
  softnet : C → Softnet C P N
  /-- NAPI_STATE_SCHED of the devices. -/
  sched : N → Bool

def System.initial : System C P N where
  softnet := fun _ => ⟨[], [], false, [], [], false, false, false, .idle, false, 0, [], []⟩
  sched := fun _ => false

structure World (C : Type) where
  netdevMaxBacklog : Nat
  netdevBudget : Int
  online : C → Bool

namespace Softnet

def napiSchedule (k : Softnet C P N) (n : Napi N) : Softnet C P N :=
  { k with pollList := k.pollList ++ [n], pending := true }

def rpsIpiQueued (k : Softnet C P N) (d : C) : Softnet C P N :=
  { k with rpsIpiList := d :: k.rpsIpiList, pending := true }

def setSched (k : Softnet C P N) : Softnet C P N := { k with sched := true }

/-- The label enqueue. -/
def accept (k : Softnet C P N) (skb : P) : Softnet C P N :=
  { k with inputPktQueue := k.inputPktQueue ++ [skb], accepted := k.accepted ++ [skb] }

def drop (k : Softnet C P N) : Softnet C P N := { k with dropped := k.dropped + 1 }

def setAction (k : Softnet C P N) (a : Action C P N) : Softnet C P N := { k with action := a }

def setCsd (k : Softnet C P N) : Softnet C P N := { k with csd := true }

def rpsTriggerSoftirq (k : Softnet C P N) : Softnet C P N := { k with csd := false }.napiSchedule .backlog

def takeIpis (k : Softnet C P N) (next : List C → Action C P N) : Softnet C P N :=
  { k with rpsIpiList := [], action := next k.rpsIpiList }

end Softnet

section
variable [DecidableEq N]

def Softnet.listDel (k : Softnet C P N) (n : Napi N) : Softnet C P N :=
  { k with pollList := k.pollList.erase n, corrupt := k.corrupt || !decide (n ∈ k.pollList) }

def Softnet.listMoveTail (k : Softnet C P N) (n : Napi N) : Softnet C P N :=
  { k.listDel n with pollList := k.pollList.erase n ++ [n] }

/-- The section under rps_lock of process_backlog, once the process queue is empty. -/
def Softnet.splice (k : Softnet C P N) (budget weight work quota : Int) : Softnet C P N :=
  let qlen : Int := k.inputPktQueue.length
  let k := { k with processQueue := k.processQueue ++ k.inputPktQueue, inputPktQueue := [] }
  if qlen < quota - work then
    { k.listDel .backlog with sched := false, action := .backlog budget weight work (work + qlen) }
  else k.setAction (.backlog budget weight work quota)

/-- A turn of the loops of process_backlog up to __netif_receive_skb, the splice or the return. -/
def Softnet.turn (k : Softnet C P N) (budget weight work quota : Int) : Softnet C P N :=
  if work < quota then
    match k.processQueue with
    | skb :: rest => { k with processQueue := rest, action := .receiving budget weight work quota skb }
    | [] => k.splice budget weight work quota
  else k.setAction (.polled budget weight work .backlog)

/-- Behind __netif_receive_skb. -/
def Softnet.received (k : Softnet C P N) (budget weight work quota : Int) (skb : P) : Softnet C P N :=
  let k := { k with delivered := k.delivered ++ [skb] }
  if quota ≤ work + 1 then k.setAction (.polled budget weight (work + 1) .backlog)
  else k.setAction (.backlog budget weight (work + 1) quota)

end

section
variable [DecidableEq C]

def System.modify (s : System C P N) (c : C) (f : Softnet C P N → Softnet C P N) : System C P N :=
  { s with softnet := Function.update s.softnet c (f (s.softnet c)) }

inductive Step (C P N : Type) where
  | enqueue (c d : C) (skb : P)
  | schedule (c : C) (n : N)
  | ipi (c : C)
  | softirq (c : C)
  | begin (c : C)
  | test (c : C) (late : Bool)
  | poll (c : C) (weight : Int)
  | kick (c : C)
  | turn (c : C)
  | received (c : C)
  | driver (c : C) (work : Int) (complete : Bool)
  | account (c : C) (disabled : Bool)
  | leave (c : C)

variable [DecidableEq N]

namespace System
variable (w : World C) (s : System C P N)

def scheduled (c d : C) : System C P N :=
  let s := s.modify d Softnet.setSched
  if d ≠ c then s.modify c (Softnet.rpsIpiQueued · d) else s.modify c (Softnet.napiSchedule · .backlog)

def enqueue (c d : C) (skb : P) : Option (System C P N) :=
  if (s.softnet c).action.irqs then
    if (s.softnet d).inputPktQueue.length ≤ w.netdevMaxBacklog then
      let s := if (s.softnet d).inputPktQueue.isEmpty && !(s.softnet d).sched then s.scheduled c d else s
      some (s.modify d (Softnet.accept · skb))
    else some (s.modify d Softnet.drop)
  else none

def schedule (c : C) (n : N) : Option (System C P N) :=
  if (s.softnet c).action.irqs then
    if s.sched n then some s
    else some { s.modify c (Softnet.napiSchedule · (.device n)) with sched := Function.update s.sched n true }
  else none

def ipi (c : C) : Option (System C P N) :=
  if (s.softnet c).action.irqs && (s.softnet c).csd then some (s.modify c Softnet.rpsTriggerSoftirq) else none

/-- The start of a round of __do_softirq. -/
def softirq (c : C) : Option (System C P N) :=
  match (s.softnet c).action with
  | .idle =>
    if (s.softnet c).taken then none
    else some (s.modify c fun k => { k with taken := k.pending, pending := false })
  | _ => none

def begin (c : C) : Option (System C P N) :=
  match (s.softnet c).action with
  | .idle =>
    if (s.softnet c).taken then
      some (s.modify c fun k => { k with taken := false, action := .loop w.netdevBudget })
    else none
  | _ => none

/-- The test of the loop of net_rx_action; late is time_after(jiffies, time_limit). -/
def test (c : C) (late : Bool) : Option (System C P N) :=
  match (s.softnet c).action with
  | .loop budget =>
    match (s.softnet c).pollList with
    | [] => some (s.modify c (Softnet.setAction · .out))
    | n :: _ =>
      if budget ≤ 0 || late then some (s.modify c fun k => { k with pending := true, action := .out })
      else some (s.modify c (Softnet.setAction · (.polling budget n)))
  | _ => none

def poll (c : C) (weight : Int) : Option (System C P N) :=
  match (s.softnet c).action with
  | .polling budget .backlog =>
    if (s.softnet c).sched then some (s.modify c (Softnet.takeIpis · (.kicking budget weight)))
    else some (s.modify c (Softnet.setAction · (.polled budget weight 0 .backlog)))
  | .polling budget (.device n) =>
    if s.sched n then some (s.modify c (Softnet.setAction · (.device budget weight n)))
    else some (s.modify c (Softnet.setAction · (.polled budget weight 0 (.device n))))
  | _ => none

def send (d : C) : System C P N := if w.online d then s.modify d Softnet.setCsd else s

/-- A turn of the loop of net_rps_action_and_irq_enable. -/
def kick (c : C) : Option (System C P N) :=
  match (s.softnet c).action with
  | .kicking budget weight (d :: rest) =>
    some ((s.modify c (Softnet.setAction · (.kicking budget weight rest))).send w d)
  | .kicking budget weight [] => some (s.modify c (Softnet.setAction · (.backlog budget weight 0 weight)))
  | .sending (d :: rest) => some ((s.modify c (Softnet.setAction · (.sending rest))).send w d)
  | .sending [] => some (s.modify c (Softnet.setAction · .idle))
  | _ => none

def turn (c : C) : Option (System C P N) :=
  match (s.softnet c).action with
  | .backlog budget weight work quota => some (s.modify c (Softnet.turn · budget weight work quota))
  | _ => none

def received (c : C) : Option (System C P N) :=
  match (s.softnet c).action with
  | .receiving budget weight work quota skb => some (s.modify c (Softnet.received · budget weight work quota skb))
  | _ => none

/-- The poll function of a device, which leaves the state alone when it consumes the weight. -/
def driver (c : C) (work : Int) (complete : Bool) : Option (System C P N) :=
  match (s.softnet c).action with
  | .device budget weight n =>
    if complete then
      if work = weight then none
      else some { s.modify c fun k => (k.listDel (.device n)).setAction (.polled budget weight work (.device n)) with
        sched := Function.update s.sched n false }
    else some (s.modify c (Softnet.setAction · (.polled budget weight work (.device n))))
  | _ => none

def account (c : C) (disabled : Bool) : Option (System C P N) :=
  match (s.softnet c).action with
  | .polled budget weight work n =>
    if work = weight then
      match n, disabled with
      | .device n, true =>
        some { s.modify c (fun k => (k.listDel (.device n)).setAction (.loop (budget - work))) with
          sched := Function.update s.sched n false }
      | n, _ => some (s.modify c fun k => (k.listMoveTail n).setAction (.loop (budget - work)))
    else some (s.modify c (Softnet.setAction · (.loop (budget - work))))
  | _ => none

def leave (c : C) : Option (System C P N) :=
  match (s.softnet c).action with
  | .out => some (s.modify c (Softnet.takeIpis · .sending))
  | _ => none

end System

def step (w : World C) (s : System C P N) : Step C P N → Option (System C P N)
  | .enqueue c d skb => s.enqueue w c d skb
  | .schedule c n => s.schedule c n
  | .ipi c => s.ipi c
  | .softirq c => s.softirq c
  | .begin c => s.begin w c
  | .test c late => s.test c late
  | .poll c weight => s.poll c weight
  | .kick c => s.kick w c
  | .turn c => s.turn c
  | .received c => s.received c
  | .driver c work complete => s.driver c work complete
  | .account c disabled => s.account c disabled
  | .leave c => s.leave c

end

namespace Softnet

def Due (k : Softnet C P N) : Prop := k.pending = true ∨ k.taken = true

def Serving (k : Softnet C P N) (weight quota : Int) : Prop :=
  quota = weight ∧ k.pollList.head? = some .backlog ∧ k.sched = true

def Covered (k : Softnet C P N) : Prop := k.processQueue ≠ [] → k.sched = true

/-- What is known where net_rx_action stands. A backlog that was given up has its quota cut to the packets that it
    still has to deliver. -/
def Stage (k : Softnet C P N) : Prop :=
  match k.action with
  | .idle | .loop _ | .out | .sending _ => k.Covered
  | .polling _ n => k.pollList.head? = some n ∧ k.Covered
  | .device _ _ n => k.pollList.head? = some (.device n) ∧ k.Covered
  | .kicking _ _ _ => k.pollList.head? = some .backlog ∧ k.sched = true
  | .backlog _ weight work quota =>
    k.Serving weight quota ∨ (quota < weight ∧ work + k.processQueue.length = quota)
  | .receiving _ weight work quota _ =>
    k.Serving weight quota ∨ (quota < weight ∧ work + 1 + k.processQueue.length = quota)
  | .polled _ weight work n => (work = weight → k.pollList.head? = some n) ∧ k.Covered

structure Valid (k : Softnet C P N) : Prop where
  waits : k.sched = false → k.inputPktQueue = []
  fifo : k.accepted = k.delivered ++ k.action.inHand ++ k.processQueue ++ k.inputPktQueue
  raised : k.pollList ≠ [] → k.Due ∨ k.action.looping = true
  kicks : k.rpsIpiList ≠ [] → k.Due ∨ k.action.looping = true ∨ k.action = .out
  stage : k.Stage
  sound : k.corrupt = false

end Softnet

section
variable {k k' : Softnet C P N}

theorem Softnet.Stage.mono (stage : k.Stage) (action : k'.action = k.action)
    (queue : k'.processQueue = k.processQueue) (head : ∀ m, k.pollList.head? = some m → k'.pollList.head? = some m)
    (sched : k.sched = true → k'.sched = true) : k'.Stage := by
  have covered : k.Covered → k'.Covered := by
    intro before filled
    rw [queue] at filled
    exact sched (before filled)
  have serving : ∀ weight quota, k.Serving weight quota → k'.Serving weight quota := by
    rintro weight quota ⟨same, first, scheduled⟩
    exact ⟨same, head _ first, sched scheduled⟩
  unfold Softnet.Stage at stage ⊢
  rw [action]
  cases here : k.action with
  | idle | loop | out | sending =>
    rw [here] at stage
    exact covered stage
  | polling | device =>
    rw [here] at stage
    exact ⟨head _ stage.1, covered stage.2⟩
  | kicking =>
    rw [here] at stage
    exact ⟨head _ stage.1, sched stage.2⟩
  | backlog | receiving =>
    rw [here] at stage
    dsimp only at stage ⊢
    rw [queue]
    exact stage.imp_left (serving _ _)
  | polled =>
    rw [here] at stage
    exact ⟨fun same => head _ (stage.1 same), covered stage.2⟩

theorem Softnet.Valid.napiSchedule (valid : k.Valid) (n : Napi N) : (k.napiSchedule n).Valid := by
  refine ⟨valid.waits, valid.fifo, fun _ => .inl (.inl rfl), fun _ => .inl (.inl rfl), ?_, valid.sound⟩
  refine valid.stage.mono rfl rfl ?_ id
  intro m first
  simp [Softnet.napiSchedule, List.head?_append, first]

theorem Softnet.Valid.rpsIpiQueued (valid : k.Valid) (d : C) : (k.rpsIpiQueued d).Valid :=
  ⟨valid.waits, valid.fifo, fun _ => .inl (.inl rfl), fun _ => .inl (.inl rfl),
    valid.stage.mono rfl rfl (fun _ => id) id, valid.sound⟩

theorem Softnet.Valid.setSched (valid : k.Valid) : k.setSched.Valid :=
  ⟨by simp [Softnet.setSched], valid.fifo, valid.raised, valid.kicks,
    valid.stage.mono rfl rfl (fun _ => id) fun _ => rfl, valid.sound⟩

theorem Softnet.Valid.accept (valid : k.Valid) (sched : k.sched = true) (skb : P) : (k.accept skb).Valid := by
  refine ⟨?_, ?_, valid.raised, valid.kicks, valid.stage.mono rfl rfl (fun _ => id) id, valid.sound⟩
  · intro clear
    simp [Softnet.accept, sched] at clear
  · simp only [Softnet.accept, valid.fifo, List.append_assoc]

theorem Softnet.Valid.drop (valid : k.Valid) : k.drop.Valid :=
  ⟨valid.waits, valid.fifo, valid.raised, valid.kicks, valid.stage.mono rfl rfl (fun _ => id) id, valid.sound⟩

theorem Softnet.Valid.withCsd (valid : k.Valid) (b : Bool) : { k with csd := b }.Valid :=
  ⟨valid.waits, valid.fifo, valid.raised, valid.kicks, valid.stage.mono rfl rfl (fun _ => id) id, valid.sound⟩

theorem Softnet.Valid.of_looping (waits : k.sched = false → k.inputPktQueue = [])
    (fifo : k.accepted = k.delivered ++ k.action.inHand ++ k.processQueue ++ k.inputPktQueue)
    (looping : k.action.looping = true) (stage : k.Stage) (sound : k.corrupt = false) : k.Valid :=
  ⟨waits, fifo, fun _ => .inr looping, fun _ => .inr (.inl looping), stage, sound⟩

theorem Softnet.Valid.due_of_polled (valid : k.Valid) (stopped : k.action.looping = false)
    (filled : k.pollList ≠ []) : k.Due :=
  (valid.raised filled).resolve_right (by simp [stopped])

theorem Softnet.Valid.setAction_stopped {a : Action C P N} {list : List C} (valid : k.Valid)
    (sending : k.action = .sending list) (hand : a.inHand = []) (stage : (k.setAction a).Stage) :
    (k.setAction a).Valid := by
  have fifo := valid.fifo
  have kicks := valid.kicks
  simp only [sending, Action.inHand, Action.looping, reduceCtorEq, or_false, Bool.false_eq_true] at fifo kicks
  refine ⟨valid.waits, ?_, fun filled => .inl (valid.due_of_polled (by rw [sending]; rfl) filled),
    fun filled => .inl (kicks filled), stage, valid.sound⟩
  simpa [Softnet.setAction, hand] using fifo

def Softnet.Finishing (k : Softnet C P N) : Prop :=
  match k.action with
  | .backlog _ weight work quota => quota < weight ∧ work + k.processQueue.length = quota
  | .receiving _ weight work quota _ => quota < weight ∧ work + 1 + k.processQueue.length = quota
  | _ => False

theorem Softnet.Valid.finishing (valid : k.Valid) (clear : k.sched = false)
    (filled : k.processQueue ≠ []) : k.Finishing := by
  have stage := valid.stage
  have off : ¬ k.sched = true := by simp [clear]
  have uncovered : ¬ k.Covered := fun covered => off (covered filled)
  unfold Softnet.Stage at stage
  unfold Softnet.Finishing
  cases here : k.action with
  | idle | loop | out | sending =>
    rw [here] at stage
    exact uncovered stage
  | polling | device | polled =>
    rw [here] at stage
    exact uncovered stage.2
  | kicking =>
    rw [here] at stage
    exact off stage.2
  | backlog | receiving =>
    rw [here] at stage
    exact stage.resolve_left fun serving => off serving.2.2

end

section
variable [DecidableEq C]

theorem softnet_modify (s : System C P N) (c d : C) (f : Softnet C P N → Softnet C P N) :
    (s.modify c f).softnet d = if d = c then f (s.softnet c) else s.softnet d := by
  by_cases same : d = c
  · subst same
    simp [System.modify]
  · simp [System.modify, same]

theorem sched_scheduled (s : System C P N) (c d : C) : ((s.scheduled c d).softnet d).sched = true := by
  rw [System.scheduled]
  split
  case isTrue apart =>
    rw [softnet_modify, if_neg apart, softnet_modify, if_pos rfl]
    rfl
  case isFalse same =>
    obtain rfl : d = c := by simpa using same
    rw [softnet_modify, if_pos rfl, softnet_modify, if_pos rfl]
    rfl

theorem count_cons_self_or (d e : C) (rest : List C) :
    (d :: rest).count e = rest.count e + if e = d then 1 else 0 := by
  rcases eq_or_ne e d with rfl | other
  · simp
  · simp [other, other.symm]

def Action.sends (d : C) : Action C P N → Nat
  | .kicking _ _ list | .sending list => list.count d
  | _ => 0

def Softnet.held (d : C) (k : Softnet C P N) : Nat := k.rpsIpiList.count d + k.action.sends d

end

section
variable [DecidableEq N] {k : Softnet C P N} {n : Napi N} {weight work quota : Int}

def Softnet.own (k : Softnet C P N) : Nat := k.pollList.count .backlog + k.csd.toNat

theorem Softnet.Valid.listDel_head (valid : k.Valid) (head : k.pollList.head? = some n) :
    (k.listDel n).corrupt = false := by
  have member : n ∈ k.pollList := List.mem_of_head? head
  simp [Softnet.listDel, valid.sound, member]

theorem Softnet.polled_stage (ended : quota ≤ work)
    (stage : k.Serving weight quota ∨ (quota < weight ∧ work + k.processQueue.length = quota)) :
    (work = weight → k.pollList.head? = some .backlog) ∧ k.Covered := by
  rcases stage with ⟨-, head, sched⟩ | ⟨less, left⟩
  · exact ⟨fun _ => head, fun _ => sched⟩
  · have none : k.processQueue = [] := List.eq_nil_of_length_eq_zero (by omega)
    exact ⟨fun same => by omega, fun filled => (filled none).elim⟩

end

variable [DecidableEq C] [DecidableEq N]

section
variable {k k' : Softnet C P N} {n : Napi N} {c d : C} {skb : P} {a : Action C P N} {budget weight work quota : Int}

structure Softnet.Moves (k k' : Softnet C P N) : Prop where
  valid : k'.Valid
  held : ∀ d, k'.held d = k.held d
  own : k'.own + k.sched.toNat = k.own + k'.sched.toNat
  devices : ∀ n, k'.pollList.count (.device n) = k.pollList.count (.device n)

theorem Softnet.Moves.of_action {b : Action C P N} (valid : k.Valid) (here : k.action = b)
    (hand : b.inHand = a.inHand) (sends : ∀ d, b.sends d = a.sends d) (looping : a.looping = true)
    (stage : (k.setAction a).Stage) : k.Moves (k.setAction a) := by
  have fifo := valid.fifo
  rw [here, hand] at fifo
  refine ⟨.of_looping valid.waits fifo looping stage valid.sound, ?_, rfl, fun _ => rfl⟩
  intro d
  simp only [Softnet.held, Softnet.setAction, here, sends]

theorem count_erase_head {l : List (Napi N)} (head : l.head? = some n) (m : Napi N) :
    (l.erase n).count m + [n].count m = l.count m := by
  cases l with
  | nil => simp at head
  | cons first rest =>
    obtain rfl : first = n := by simpa using head
    simp [List.count_cons]

theorem Softnet.Moves.splice (valid : k.Valid) (here : k.action = .backlog budget weight work quota)
    (more : work < quota) (empty : k.processQueue = []) : k.Moves (k.splice budget weight work quota) := by
  have stage := valid.stage
  simp only [Softnet.Stage, here, empty, List.length_nil] at stage
  have serving : k.Serving weight quota := by
    rcases stage with serving | done
    · exact serving
    · omega
  obtain ⟨same, head, sched⟩ := serving
  have fifo := valid.fifo
  simp only [here, empty, Action.inHand, List.append_nil] at fifo
  simp only [Softnet.splice, empty, List.nil_append]
  split
  case isTrue few =>
    refine ⟨.of_looping (fun _ => rfl) ?_ rfl (.inr ⟨by omega, rfl⟩) (valid.listDel_head head), ?_, ?_, ?_⟩
    · simpa [Softnet.listDel, Action.inHand] using fifo
    · intro d
      simp [Softnet.held, Softnet.listDel, here, Action.sends]
    · have removed := count_erase_head head .backlog
      simp [Softnet.own, Softnet.listDel, sched] at removed ⊢
      omega
    · intro n
      simp [Softnet.listDel]
  case isFalse =>
    refine ⟨.of_looping (fun _ => rfl) ?_ rfl (.inl ⟨same, head, sched⟩) valid.sound, ?_, rfl, fun _ => rfl⟩
    · simpa [Softnet.setAction, Action.inHand] using fifo
    · intro d
      simp [Softnet.held, Softnet.setAction, here, Action.sends]

theorem Softnet.Moves.turn (valid : k.Valid) (here : k.action = .backlog budget weight work quota) :
    k.Moves (k.turn budget weight work quota) := by
  have stage := valid.stage
  simp only [Softnet.Stage, here] at stage
  simp only [Softnet.turn]
  split
  case isTrue more =>
    split
    case h_1 skb rest queue =>
      refine ⟨.of_looping valid.waits ?_ rfl ?_ valid.sound, ?_, rfl, fun _ => rfl⟩
      · simpa [here, Action.inHand, queue] using valid.fifo
      · refine stage.imp id ?_
        rintro ⟨less, left⟩
        rw [queue, List.length_cons] at left
        push_cast at left
        exact ⟨less, by dsimp only; omega⟩
      · intro d
        simp [Softnet.held, here, Action.sends]
    case h_2 empty => exact .splice valid here more empty
  case isFalse ended =>
    exact .of_action valid here rfl (fun _ => rfl) rfl (polled_stage (Int.not_lt.1 ended) stage)

theorem Softnet.Moves.received (valid : k.Valid) (here : k.action = .receiving budget weight work quota skb) :
    k.Moves (k.received budget weight work quota skb) := by
  have stage := valid.stage
  simp only [Softnet.Stage, here] at stage
  have fifo := valid.fifo
  simp only [here, Action.inHand] at fifo
  simp only [Softnet.received]
  split
  case isTrue ended =>
    refine ⟨.of_looping valid.waits ?_ rfl (polled_stage ended stage) valid.sound, ?_, rfl, fun _ => rfl⟩
    · simpa [Softnet.setAction, Action.inHand] using fifo
    · simp [Softnet.held, Softnet.setAction, here, Action.sends]
  case isFalse =>
    refine ⟨.of_looping valid.waits ?_ rfl stage valid.sound, ?_, rfl, fun _ => rfl⟩
    · simpa [Softnet.setAction, Action.inHand] using fifo
    · simp [Softnet.held, Softnet.setAction, here, Action.sends]

end

variable [Fintype C]

/-- The places of the backlog of a CPU: its poll list, the list of another CPU that will send it a call, or a call on
    its way. -/
def System.places (s : System C P N) (d : C) : Nat := (s.softnet d).own + ∑ c, (s.softnet c).held d

structure Owing (s : System C P N) (debt : C → Nat) : Prop where
  valid : ∀ c, (s.softnet c).Valid
  once : ∀ d, s.places d + debt d = (s.softnet d).sched.toNat
  devices : ∀ n, ∑ c, (s.softnet c).pollList.count (.device n) = (s.sched n).toNat

def Inv (s : System C P N) : Prop := Owing s fun _ => 0

section
variable {s s' : System C P N} {w : World C} {c d : C} {n : N} {skb : P} {f : Softnet C P N → Softnet C P N}

theorem places_modify (s : System C P N) (c d : C) (f : Softnet C P N → Softnet C P N) :
    (s.modify c f).places d + (if d = c then (s.softnet c).own else 0) + (s.softnet c).held d =
      s.places d + (if d = c then (f (s.softnet c)).own else 0) + (f (s.softnet c)).held d := by
  have moved : ∑ e, ((s.modify c f).softnet e).held d + (s.softnet c).held d =
      ∑ e, (s.softnet e).held d + (f (s.softnet c)).held d :=
    TransitionRuns.sum_update (Softnet.held d) s.softnet (f (s.softnet c)) (Finset.mem_univ c)
  rw [System.places, System.places, softnet_modify s c d f]
  by_cases same : d = c
  · subst same
    simp only [if_true]
    omega
  · simp only [same, if_false]
    omega

theorem devices_modify (s : System C P N) (c : C) (f : Softnet C P N → Softnet C P N) (m : Napi N) :
    ∑ e, ((s.modify c f).softnet e).pollList.count m + (s.softnet c).pollList.count m =
      ∑ e, (s.softnet e).pollList.count m + (f (s.softnet c)).pollList.count m :=
  TransitionRuns.sum_update (fun k : Softnet C P N => k.pollList.count m) s.softnet (f (s.softnet c)) (Finset.mem_univ c)

theorem Owing.of_modify {debt debt' : C → Nat} (owing : Owing s debt) (softnet : s'.softnet = (s.modify c f).softnet)
    (valid : (f (s.softnet c)).Valid)
    (away : ∀ d, d ≠ c → (f (s.softnet c)).held d + debt' d = (s.softnet c).held d + debt d)
    (home : (f (s.softnet c)).own + (f (s.softnet c)).held c + debt' c + (s.softnet c).sched.toNat =
      (s.softnet c).own + (s.softnet c).held c + debt c + (f (s.softnet c)).sched.toNat)
    (devices : ∀ n, (f (s.softnet c)).pollList.count (.device n) + (s.sched n).toNat =
      (s.softnet c).pollList.count (.device n) + (s'.sched n).toNat) : Owing s' debt' := by
  refine ⟨?_, ?_, ?_⟩
  · intro d
    rw [softnet, softnet_modify]
    split
    · exact valid
    · exact owing.valid d
  · intro d
    have before := owing.once d
    have moved := places_modify s c d f
    have same : s'.places d = (s.modify c f).places d := by simp only [System.places, softnet]
    rw [same, softnet, softnet_modify]
    by_cases here : d = c
    · subst here
      simp only [if_true] at moved ⊢
      omega
    · have balance := away d here
      simp only [here, if_false] at moved ⊢
      omega
  · intro n
    have before := owing.devices n
    have moved := devices_modify s c f (.device n)
    have balance := devices n
    rw [softnet]
    omega

theorem Owing.of_own (inv : Inv s) (softnet : s'.softnet = (s.modify c f).softnet) (valid : (f (s.softnet c)).Valid)
    (held : ∀ d, (f (s.softnet c)).held d = (s.softnet c).held d)
    (own : (f (s.softnet c)).own + (s.softnet c).sched.toNat = (s.softnet c).own + (f (s.softnet c)).sched.toNat)
    (devices : ∀ n, (f (s.softnet c)).pollList.count (.device n) + (s.sched n).toNat =
      (s.softnet c).pollList.count (.device n) + (s'.sched n).toNat) : Inv s' := by
  refine Owing.of_modify inv softnet valid ?_ ?_ devices
  · intro d _
    rw [held]
  · rw [held]
    omega

theorem Owing.of_moves (inv : Inv s) (moves : (s.softnet c).Moves (f (s.softnet c))) : Inv (s.modify c f) := by
  refine Owing.of_own (c := c) (f := f) inv rfl moves.valid moves.held moves.own ?_
  intro n
  rw [moves.devices]
  rfl

theorem inv_action {a b : Action C P N} (inv : Inv s) (here : (s.softnet c).action = b) (hand : b.inHand = a.inHand)
    (sends : ∀ d, b.sends d = a.sends d) (looping : a.looping = true)
    (stage : ((s.softnet c).setAction a).Stage) : Inv (s.modify c (Softnet.setAction · a)) :=
  Owing.of_moves inv (.of_action (inv.valid c) here hand sends looping stage)

theorem inv_scheduled (inv : Inv s) (clear : (s.softnet d).sched = false) : Inv (s.scheduled c d) := by
  have owing : Owing (s.modify d Softnet.setSched) fun e => if e = d then 1 else 0 := by
    refine Owing.of_modify inv rfl (inv.valid d).setSched ?_ ?_ fun _ => rfl
    · intro e other
      simp [Softnet.setSched, Softnet.held, other]
    · simp [Softnet.setSched, Softnet.own, Softnet.held, clear]
  rw [System.scheduled]
  split
  case isTrue apart =>
    refine Owing.of_modify owing rfl ((owing.valid c).rpsIpiQueued d) ?_ ?_ fun _ => rfl
    · intro e _
      by_cases same : e = d
      · simp only [Softnet.held, Softnet.rpsIpiQueued, same, List.count_cons_self, if_true]
        omega
      · simp [Softnet.held, Softnet.rpsIpiQueued, same, Ne.symm same]
    · simp [Softnet.held, Softnet.own, Softnet.rpsIpiQueued, apart, apart.symm]
  case isFalse same =>
    obtain rfl : d = c := by simpa using same
    refine Owing.of_modify owing rfl ((owing.valid d).napiSchedule .backlog) ?_ ?_ ?_
    · intro e other
      simp [Softnet.held, Softnet.napiSchedule, other]
    · simp [Softnet.held, Softnet.own, Softnet.napiSchedule]
      omega
    · intro n
      simp [Softnet.napiSchedule, System.modify]

theorem inv_enqueue (inv : Inv s) (done : s.enqueue w c d skb = some s') : Inv s' := by
  -- once scheduled, the packet is taken
  have accepted : ∀ s : System C P N, Inv s → (s.softnet d).sched = true →
      Inv (s.modify d (Softnet.accept · skb)) := by
    intro s inv sched
    exact Owing.of_moves inv ⟨(inv.valid d).accept sched skb, fun _ => rfl, rfl, fun _ => rfl⟩
  simp only [System.enqueue] at done
  split at done
  case isTrue =>
    split at done
    case isTrue =>
      cases done
      split
      case isTrue first =>
        simp only [Bool.and_eq_true, Bool.not_eq_true'] at first
        exact accepted _ (inv_scheduled inv first.2) (sched_scheduled s c d)
      case isFalse later =>
        apply accepted s inv
        apply Bool.eq_true_of_not_eq_false
        intro clear
        exact later (by simp [(inv.valid d).waits clear, clear])
    case isFalse =>
      cases done
      exact Owing.of_moves inv ⟨(inv.valid d).drop, fun _ => rfl, rfl, fun _ => rfl⟩
  case isFalse => simp at done

theorem inv_schedule (inv : Inv s) (done : s.schedule c n = some s') : Inv s' := by
  simp only [System.schedule] at done
  split at done
  case isTrue =>
    split at done
    case isTrue => exact Option.some.inj done ▸ inv
    case isFalse clear =>
      cases done
      refine Owing.of_own (c := c) (f := (Softnet.napiSchedule · (.device n))) inv rfl ((inv.valid c).napiSchedule _)
        (fun _ => rfl) ?_ ?_
      · simp [Softnet.napiSchedule, Softnet.own]
      · intro m
        rcases eq_or_ne m n with rfl | other
        · simp [Softnet.napiSchedule, clear]
        · simp [Softnet.napiSchedule, other, other.symm]
  case isFalse => simp at done

theorem inv_ipi (inv : Inv s) (done : s.ipi c = some s') : Inv s' := by
  simp only [System.ipi] at done
  split at done
  case isTrue chosen =>
    cases done
    simp only [Bool.and_eq_true] at chosen
    have valid := ((inv.valid c).withCsd false).napiSchedule .backlog
    refine Owing.of_own (c := c) (f := Softnet.rpsTriggerSoftirq) inv rfl valid (fun _ => rfl) ?_ ?_
    · simp [Softnet.rpsTriggerSoftirq, Softnet.napiSchedule, Softnet.own, chosen.2]
    · intro m
      simp [Softnet.rpsTriggerSoftirq, Softnet.napiSchedule, System.modify]
  case isFalse => simp at done

theorem inv_softirq (inv : Inv s) (done : s.softirq c = some s') : Inv s' := by
  simp only [System.softirq] at done
  split at done
  case h_1 idle =>
    split at done
    case isTrue => simp at done
    case isFalse free =>
      cases done
      have valid := inv.valid c
      have due : (s.softnet c).Due →
          Softnet.Due { s.softnet c with taken := (s.softnet c).pending, pending := false } := by
        rintro (pending | taken)
        · exact .inr pending
        · exact (free taken).elim
      refine Owing.of_moves inv ⟨?_, fun _ => rfl, rfl, fun _ => rfl⟩
      exact ⟨valid.waits, valid.fifo, fun filled => (valid.raised filled).imp_left due,
        fun filled => (valid.kicks filled).imp_left due, valid.stage.mono rfl rfl (fun _ => id) id, valid.sound⟩
  case h_2 => simp at done

theorem inv_begin (inv : Inv s) (done : s.begin w c = some s') : Inv s' := by
  simp only [System.begin] at done
  split at done
  case h_1 idle =>
    split at done
    case isTrue =>
      cases done
      have valid := inv.valid c
      have stage := valid.stage
      have fifo := valid.fifo
      simp only [Softnet.Stage, idle, Action.inHand] at stage fifo
      refine Owing.of_moves inv ⟨.of_looping valid.waits fifo rfl stage valid.sound, ?_, rfl, fun _ => rfl⟩
      intro d
      simp [Softnet.held, idle, Action.sends]
    case isFalse => simp at done
  case h_2 => simp at done

theorem inv_test {late : Bool} (inv : Inv s) (done : s.test c late = some s') : Inv s' := by
  simp only [System.test] at done
  split at done
  case h_1 budget loop =>
    have valid := inv.valid c
    have stage := valid.stage
    have fifo := valid.fifo
    simp only [Softnet.Stage, loop, Action.inHand] at stage fifo
    split at done
    case h_1 empty =>
      cases done
      refine Owing.of_moves inv ⟨?_, ?_, rfl, fun _ => rfl⟩
      · exact ⟨valid.waits, fifo, fun filled => (filled empty).elim, fun _ => .inr (.inr rfl), stage, valid.sound⟩
      · intro d
        simp [Softnet.held, Softnet.setAction, loop, Action.sends]
    case h_2 m rest list =>
      split at done
      case isTrue =>
        cases done
        refine Owing.of_moves inv ⟨?_, ?_, rfl, fun _ => rfl⟩
        · exact ⟨valid.waits, fifo, fun _ => .inl (.inl rfl), fun _ => .inl (.inl rfl), stage, valid.sound⟩
        · intro d
          simp [Softnet.held, loop, Action.sends]
      case isFalse =>
        cases done
        exact inv_action inv loop rfl (fun _ => rfl) rfl ⟨by simp [Softnet.setAction, list], stage⟩
  case h_2 => simp at done

theorem inv_poll {weight : Int} (inv : Inv s) (done : s.poll c weight = some s') : Inv s' := by
  have valid := inv.valid c
  have stage := valid.stage
  simp only [System.poll] at done
  split at done
  case h_1 budget polling =>
    simp only [Softnet.Stage, polling] at stage
    split at done
    case isTrue sched =>
      cases done
      refine Owing.of_moves inv ⟨.of_looping valid.waits ?_ rfl ⟨stage.1, sched⟩ valid.sound, ?_, rfl, fun _ => rfl⟩
      · simpa [Softnet.takeIpis, polling, Action.inHand] using valid.fifo
      · intro d
        simp [Softnet.held, Softnet.takeIpis, polling, Action.sends]
    case isFalse =>
      cases done
      exact inv_action inv polling rfl (fun _ => rfl) rfl ⟨fun _ => stage.1, stage.2⟩
  case h_2 budget m polling =>
    simp only [Softnet.Stage, polling] at stage
    split at done
    case isTrue =>
      cases done
      exact inv_action inv polling rfl (fun _ => rfl) rfl stage
    case isFalse =>
      cases done
      exact inv_action inv polling rfl (fun _ => rfl) rfl ⟨fun _ => stage.1, stage.2⟩
  case h_3 => simp at done

theorem own_of_held (inv : Inv s) (sends : 0 < (s.softnet c).held d) : (s.softnet d).own = 0 := by
  have once := inv.once d
  have here : (s.softnet c).held d ≤ ∑ e, (s.softnet e).held d :=
    Finset.single_le_sum_of_canonicallyOrdered (f := fun e => (s.softnet e).held d) (Finset.mem_univ c)
  have one := Bool.toNat_le (s.softnet d).sched
  rw [System.places] at once
  omega

theorem inv_send {a : Action C P N} (inv : Inv s) (online : w.online d = true)
    (sends : ∀ e, (s.softnet c).action.sends e = a.sends e + if e = d then 1 else 0)
    (next : ((s.softnet c).setAction a).Valid) : Inv ((s.modify c (Softnet.setAction · a)).send w d) := by
  have waiting : (s.softnet d).own = 0 := by
    apply own_of_held (c := c) inv
    rw [Softnet.held, sends d, if_pos rfl]
    omega
  have owing : Owing (s.modify c (Softnet.setAction · a)) fun e => if e = d then 1 else 0 := by
    refine Owing.of_modify inv rfl next ?_ ?_ fun _ => rfl
    · intro e _
      simp only [Softnet.held, Softnet.setAction, sends e]
      omega
    · simp only [Softnet.held, Softnet.own, Softnet.setAction, sends c]
      omega
  have clear : ((s.modify c (Softnet.setAction · a)).softnet d).csd = false := by
    have same : ((s.modify c (Softnet.setAction · a)).softnet d).csd = (s.softnet d).csd := by
      rw [softnet_modify]
      split
      case isTrue here =>
        rw [here]
        rfl
      case isFalse => rfl
    rw [same]
    cases csd : (s.softnet d).csd with
    | false => rfl
    | true => simp [Softnet.own, csd] at waiting
  rw [System.send, if_pos online]
  refine Owing.of_modify owing rfl ((owing.valid d).withCsd true) ?_ ?_ fun _ => rfl
  · intro e other
    simp [Softnet.setCsd, Softnet.held, other]
  · simp [Softnet.setCsd, Softnet.own, Softnet.held, clear]
    omega

theorem inv_kick (online : ∀ d, w.online d = true) (inv : Inv s) (done : s.kick w c = some s') : Inv s' := by
  have valid := inv.valid c
  have stage := valid.stage
  have fifo := valid.fifo
  simp only [System.kick] at done
  split at done
  case h_1 budget weight d rest kicking =>
    cases done
    simp only [Softnet.Stage, kicking, Action.inHand] at stage fifo
    refine inv_send inv (online d) ?_ (.of_looping valid.waits fifo rfl stage valid.sound)
    intro e
    rw [kicking]
    exact count_cons_self_or d e rest
  case h_2 budget weight kicking =>
    cases done
    simp only [Softnet.Stage, kicking] at stage
    exact inv_action inv kicking rfl (fun _ => rfl) rfl (.inl ⟨rfl, stage⟩)
  case h_3 d rest sending =>
    cases done
    simp only [Softnet.Stage, sending] at stage
    refine inv_send inv (online d) ?_ (valid.setAction_stopped sending rfl stage)
    intro e
    rw [sending]
    exact count_cons_self_or d e rest
  case h_4 sending =>
    cases done
    simp only [Softnet.Stage, sending] at stage
    refine Owing.of_moves inv ⟨valid.setAction_stopped sending rfl stage, ?_, rfl, fun _ => rfl⟩
    intro d
    simp [Softnet.held, Softnet.setAction, sending, Action.sends]
  case h_5 => simp at done

theorem inv_turn (inv : Inv s) (done : s.turn c = some s') : Inv s' := by
  simp only [System.turn] at done
  split at done
  case h_1 here => exact Option.some.inj done ▸ Owing.of_moves inv (.turn (inv.valid c) here)
  case h_2 => simp at done

theorem inv_received (inv : Inv s) (done : s.received c = some s') : Inv s' := by
  simp only [System.received] at done
  split at done
  case h_1 here => exact Option.some.inj done ▸ Owing.of_moves inv (.received (inv.valid c) here)
  case h_2 => simp at done

theorem sched_of_device (inv : Inv s) (head : (s.softnet c).pollList.head? = some (.device n)) :
    s.sched n = true := by
  have count := inv.devices n
  have member : Napi.device n ∈ (s.softnet c).pollList := List.mem_of_head? head
  have here : (s.softnet c).pollList.count (.device n) ≤ ∑ e, (s.softnet e).pollList.count (.device n) :=
    Finset.single_le_sum_of_canonicallyOrdered (f := fun e => (s.softnet e).pollList.count (.device n))
      (Finset.mem_univ c)
  have positive : 0 < (s.softnet c).pollList.count (.device n) := List.count_pos_iff.mpr member
  cases sched : s.sched n with
  | true => rfl
  | false =>
    rw [sched, Bool.toNat_false] at count
    omega

theorem inv_complete {a : Action C P N} (inv : Inv s) (head : (s.softnet c).pollList.head? = some (.device n))
    (quiet : ∀ d, (s.softnet c).action.sends d = 0) (next : ∀ d, a.sends d = 0)
    (valid : (((s.softnet c).listDel (.device n)).setAction a).Valid) :
    Inv { s.modify c fun k => (k.listDel (.device n)).setAction a with
      sched := Function.update s.sched n false } := by
  refine Owing.of_own (c := c) (f := fun k => (k.listDel (.device n)).setAction a) inv rfl valid ?_ ?_ ?_
  · intro d
    simp only [Softnet.held, Softnet.setAction, Softnet.listDel, quiet, next]
  · simp [Softnet.own, Softnet.setAction, Softnet.listDel]
  · intro m
    have removed := count_erase_head head (.device m)
    rcases eq_or_ne m n with rfl | other
    · simp [Softnet.setAction, Softnet.listDel, sched_of_device inv head] at removed ⊢
      omega
    · simp [Softnet.setAction, Softnet.listDel, other]

theorem inv_driver {work : Int} {complete : Bool} (inv : Inv s) (done : s.driver c work complete = some s') :
    Inv s' := by
  have valid := inv.valid c
  have stage := valid.stage
  have fifo := valid.fifo
  simp only [System.driver] at done
  split at done
  case h_1 budget weight m device =>
    simp only [Softnet.Stage, device, Action.inHand] at stage fifo
    split at done
    case isTrue =>
      split at done
      case isTrue => simp at done
      case isFalse part =>
        cases done
        refine inv_complete inv stage.1 (by simp [device, Action.sends]) (fun _ => rfl) ?_
        exact .of_looping valid.waits fifo rfl ⟨fun same => (part same).elim, stage.2⟩ (valid.listDel_head stage.1)
    case isFalse =>
      cases done
      exact inv_action inv device rfl (fun _ => rfl) rfl ⟨fun _ => stage.1, stage.2⟩
  case h_2 => simp at done

theorem inv_account {disabled : Bool} (inv : Inv s) (done : s.account c disabled = some s') : Inv s' := by
  have valid := inv.valid c
  have stage := valid.stage
  have fifo := valid.fifo
  simp only [System.account] at done
  split at done
  case h_1 budget weight work n polled =>
    simp only [Softnet.Stage, polled, Action.inHand] at stage fifo
    split at done
    case isTrue whole =>
      have head := stage.1 whole
      split at done
      case h_1 m =>
        cases done
        refine inv_complete inv head (by simp [polled, Action.sends]) (fun _ => rfl) ?_
        exact .of_looping valid.waits fifo rfl stage.2 (valid.listDel_head head)
      case h_2 m =>
        cases done
        have same : ∀ m, (((s.softnet c).listMoveTail n).setAction (.loop (budget - work))).pollList.count m =
            (s.softnet c).pollList.count m := by
          intro m
          rw [← count_erase_head head m, ← List.count_append]
          rfl
        have moved : (((s.softnet c).listMoveTail n).setAction (.loop (budget - work))).Valid :=
          .of_looping valid.waits fifo rfl stage.2 (valid.listDel_head head)
        refine Owing.of_moves inv ⟨moved, ?_, ?_, fun m => same (.device m)⟩
        · intro d
          simp [Softnet.held, Softnet.setAction, Softnet.listMoveTail, Softnet.listDel, polled, Action.sends]
        · have kept := same .backlog
          simp only [Softnet.own, kept]
          rfl
    case isFalse =>
      cases done
      exact inv_action inv polled rfl (fun _ => rfl) rfl stage.2
  case h_2 => simp at done

theorem inv_leave (inv : Inv s) (done : s.leave c = some s') : Inv s' := by
  simp only [System.leave] at done
  split at done
  case h_1 out =>
    cases done
    have valid := inv.valid c
    have stage := valid.stage
    have fifo := valid.fifo
    simp only [Softnet.Stage, out, Action.inHand] at stage fifo
    refine Owing.of_moves inv ⟨?_, ?_, rfl, fun _ => rfl⟩
    · exact ⟨valid.waits, fifo, fun filled => .inl (valid.due_of_polled (by rw [out]; rfl) filled),
        fun filled => (filled rfl).elim, stage, valid.sound⟩
    · intro d
      simp [Softnet.held, Softnet.takeIpis, out, Action.sends]
  case h_2 => simp at done

theorem inv_step (online : ∀ d, w.online d = true) {a : Step C P N} (inv : Inv s) (done : step w s a = some s') :
    Inv s' := by
  cases a with
  | enqueue c d skb => exact inv_enqueue inv done
  | schedule c n => exact inv_schedule inv done
  | ipi c => exact inv_ipi inv done
  | softirq c => exact inv_softirq inv done
  | begin c => exact inv_begin inv done
  | test c late => exact inv_test inv done
  | poll c weight => exact inv_poll inv done
  | kick c => exact inv_kick online inv done
  | turn c => exact inv_turn inv done
  | received c => exact inv_received inv done
  | driver c work complete => exact inv_driver inv done
  | account c disabled => exact inv_account inv done
  | leave c => exact inv_leave inv done

theorem inv_initial : Inv (System.initial : System C P N) := by
  refine ⟨fun c => ?_, fun d => ?_, fun n => ?_⟩
  · exact ⟨fun _ => rfl, rfl, fun filled => (filled rfl).elim, fun filled => (filled rfl).elim,
      fun filled => (filled rfl).elim, rfl⟩
  · simp [System.places, System.initial, Softnet.own, Softnet.held, Action.sends]
  · simp [System.initial]

theorem inv_run (online : ∀ d, w.online d = true) {acts : List (Step C P N)}
    (done : run (step w) .initial acts = some s) : Inv s :=
  invariant_of_run Inv (fun _ _ _ inv first => inv_step online inv first) inv_initial done

end

/-- The backlog of a CPU is where something will get to it: on its poll list or in a list of calls to be sent, with
    the softirq due or its action under way, or in a call that is being sent or on its way. -/
def System.Attended (s : System C P N) (d : C) : Prop :=
  (.backlog ∈ (s.softnet d).pollList ∧ ((s.softnet d).Due ∨ (s.softnet d).action.looping = true)) ∨
    (s.softnet d).csd = true ∨
    ∃ c, (d ∈ (s.softnet c).rpsIpiList ∧
        ((s.softnet c).Due ∨ (s.softnet c).action.looping = true ∨ (s.softnet c).action = .out)) ∨
      0 < (s.softnet c).action.sends d

theorem attended_of_sched {s : System C P N} {d : C} (inv : Inv s) (sched : (s.softnet d).sched = true) :
    s.Attended d := by
  have once := inv.once d
  rw [sched, System.places] at once
  by_cases listed : .backlog ∈ (s.softnet d).pollList
  · exact .inl ⟨listed, (inv.valid d).raised (List.ne_nil_of_mem listed)⟩
  · by_cases csd : (s.softnet d).csd = true
    · exact .inr (.inl csd)
    · have none : (s.softnet d).own = 0 := by
        simp [Softnet.own, List.count_eq_zero_of_not_mem listed, csd]
      have some_held : ∑ c, (s.softnet c).held d ≠ 0 := by
        rw [none, Bool.toNat_true] at once
        omega
      obtain ⟨c, -, held⟩ := Finset.exists_ne_zero_of_sum_ne_zero some_held
      refine .inr (.inr ⟨c, ?_⟩)
      by_cases queued : d ∈ (s.softnet c).rpsIpiList
      · exact .inl ⟨queued, (inv.valid c).kicks (List.ne_nil_of_mem queued)⟩
      · rw [Softnet.held, List.count_eq_zero_of_not_mem queued] at held
        exact .inr (by omega)

section
variable {w : World C} {acts : List (Step C P N)} {s : System C P N}

def world : World Bool := ⟨1000, 300, fun _ => true⟩

def steered : List (Step Bool Nat Unit) :=
  [.enqueue false true 1, .enqueue false true 2, .softirq false, .begin false, .test false false, .leave false,
    .kick false, .kick false, .ipi true, .softirq true, .begin true, .test true false, .poll true 64, .kick true,
    .turn true, .turn true, .enqueue true true 3]

/-- No packet is left behind in a queue: the backlog is attended to, or its last round delivers what it has taken. -/
theorem backlog_never_stranded (online : ∀ d, w.online d = true) (done : run (step w) .initial acts = some s) (d : C)
    (waiting : (s.softnet d).inputPktQueue ≠ [] ∨ (s.softnet d).processQueue ≠ []) :
    s.Attended d ∨ ((s.softnet d).inputPktQueue = [] ∧ (s.softnet d).Finishing) := by
  have inv := inv_run online done
  cases sched : (s.softnet d).sched with
  | true => exact .inl (attended_of_sched inv sched)
  | false =>
    have empty := (inv.valid d).waits sched
    have filled := waiting.resolve_left fun input => input empty
    exact .inr ⟨empty, (inv.valid d).finishing sched filled⟩

theorem backlog_never_stranded_steered :
    ∃ s, run (step world) .initial steered = some s ∧ (s.softnet true).inputPktQueue = [3] ∧
      (s.Attended true ∨ ((s.softnet true).inputPktQueue = [] ∧ (s.softnet true).Finishing)) := by
  obtain ⟨s, done, input⟩ : ∃ s, run (step world) .initial steered = some s ∧
    (s.softnet true).inputPktQueue = [3] := ⟨_, rfl, rfl⟩
  exact ⟨s, done, input, backlog_never_stranded (fun _ => rfl) done true (.inl (by simp [input]))⟩

end

end BacklogScheduling
