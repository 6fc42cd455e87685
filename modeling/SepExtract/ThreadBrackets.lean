import SepExtract.PacketPathBrackets

/- The thread main loops and the interrupt dispatcher. dhd_dpc_thread closes what it opens
   whichever way its loop ends. pktgen_thread_worker closes its service once too often when
   kthread_should_stop ends the loop, run_ksoftirqd parks with two loops open when its CPU
   has gone offline, and handle_irq_event_percpu closes address 0 whatever it opened. -/
namespace TraceBrackets
open EventPrograms

def Callee (w : List Event) : Prop := WellNested w ∧ ∀ p, .passed p ∉ w

def dhdDpcThread (self : Addr) : Program := block [
  maybe .call,                                  -- setScheduler
  .call,                                        -- DAEMONIZE, complete
  .loop (block [
    .emit (.srventry self),
    .call,                                      -- down_interruptible
    .choose
      (block [
        maybe .brk,                             -- tsk->terminated
        .choose
          (block [.call, .emit (.plain .queuecondition), .choose .call .call])
          (block [maybe .call, .call])])        -- DHD_BUS_DOWN
      .brk,
    .emit (.srvexit self)]),
  .emit (.srvexit self),
  .call,                                        -- complete_and_exit
  .ret]

def pktgenThreadWorker (self xmit : Addr) : Program := block [
  .call,                                        -- complete
  .loop (block [
    .choose .skip (block [.emit (.passed .shouldStop), .brk]),
    .emit (.srventry self),
    .call,                                      -- next_to_run
    maybe (block [                              -- !pkt_dev && t->control == 0
      maybe .brk,                               -- pktgen_exiting
      .call,                                    -- wait_event_interruptible_timeout
      .emit (.srvexit self),
      .call,                                    -- try_to_freeze
      .cont]),
    maybe (block [                              -- pkt_dev
      .emit (.srventry xmit), .call, .emit (.srvexit xmit),
      maybe .call]),                            -- pktgen_resched
    maybe .call, maybe .call,                   -- T_STOP, T_RUN
    maybe .call, maybe .call,                   -- T_REMDEVALL, T_REMDEV
    .call,                                      -- try_to_freeze
    .emit (.srvexit self)]),
  .emit (.srvexit self),
  .call, .call, .call,                          -- pktgen_stop, pktgen_rem_all_ifs, pktgen_rem_thread
  .loop (block [loopTest, .call]),              -- kthread_should_stop, schedule
  .ret]

def runKsoftirqd : Program := block [
  .emit (.loopstart .ksoftirqd),
  .loop (block [
    loopTest,                                   -- kthread_should_stop
    .emit (.looprestart .ksoftirqd),
    maybe .call,                                -- schedule
    .emit (.loopstart .ksoftirqdPending),
    .loop (block [
      loopTest,                                 -- local_softirq_pending
      .emit (.looprestart .ksoftirqdPending),
      maybe (block [                            -- cpu_is_offline: goto wait_to_die
        .emit (.passed .offline),
        .call,                                  -- preempt_enable
        .loop (block [loopTest, .call]),
        .ret]),
      maybe .call,                              -- __do_softirq
      .call, .call, .call]),                    -- local_irq_enable, cond_resched, rcu_note_context_switch
    .emit (.loopstop .ksoftirqdPending),
    .call]),                                    -- preempt_enable
  .emit (.loopstop .ksoftirqd),
  .ret]

def handleAction (handler : Addr) : Program := block [
  .emit (.dequeue handler),
  .emit (.plain .hirqstart),
  .call,                                        -- action->handler
  .emit (.plain .hirqstop),
  .emit (.srvexit 0),
  maybe .call,                                  -- WARN_ONCE
  maybe (.choose .call .call)]                  -- warn_no_thread, irq_wake_thread

/-- The chain of actions of one interrupt, by their handlers; it is never empty. -/
def handleIrqEventPercpu (first : Addr) (more : List Addr) : Program :=
  block ((first :: more).map handleAction ++ [.call, maybe .call, .ret])

def watch (point : Point) (s : Option (List Bracket) × Bool) (e : Event) :
    Option (List Bracket) × Bool :=
  (step s.1 e, s.2 || decide (e = .passed point))

theorem watch_steps (point : Point) (w : List Event) (s : Option (List Bracket) × Bool) :
    w.foldl (watch point) s = (w.foldl step s.1, s.2 || decide (.passed point ∈ w)) := by
  induction w generalizing s with
  | nil => simp
  | cons e w ih =>
    rw [List.foldl_cons, ih]
    simp [watch, Bool.or_assoc, eq_comm]

theorem callee_neutral (s : Option (List Bracket)) (w : List Event) (emitted : Callee w) :
    w.foldl step s = s := nested_neutral s w emitted.1

theorem callee_unwatched (point : Point) (s : Option (List Bracket) × Bool) (w : List Event)
    (emitted : Callee w) : w.foldl (watch point) s = s := by
  rw [watch_steps, callee_neutral s.1 w emitted]
  simp [emitted.2 point]

/-- A path is well nested exactly when it does not pass the point. -/
def BalancesUnless : Outcome → Option (List Bracket) × Bool → Prop
  | .cut, s => s.2 = false → s.1 ≠ none
  | .normal, s | .returned, s => s.1 = some [] ↔ s.2 = false
  | .broke, _ | .continued, _ => False

theorem dpc_thread_balances (self : Addr) (st : List Bracket) :
    holds step (dhdDpcThread self) (Balances st) (some st) := by
  simp [dhdDpcThread, step, Balances, Outcome.leaving]

theorem thread_worker_balances (self xmit : Addr) :
    holds (watch .shouldStop) (pktgenThreadWorker self xmit) BalancesUnless (some [], false) := by
  simp [pktgenThreadWorker, loopTest, watch, step, BalancesUnless, Outcome.leaving]

theorem ksoftirqd_balances :
    holds (watch .offline) runKsoftirqd BalancesUnless (some [], false) := by
  simp [runKsoftirqd, loopTest, watch, step, BalancesUnless, Outcome.leaving]

theorem BalancesUnless.fits {o : Outcome} {s : Option (List Bracket) × Bool}
    (ending : BalancesUnless o s) (unpassed : s.2 = false) : s.1 ≠ none := by
  cases o <;> simp_all [BalancesUnless]

theorem BalancesUnless.ends {o : Outcome} {s : Option (List Bracket) × Bool}
    (ending : BalancesUnless o s) (finished : o ≠ .cut) : s.1 = some [] ↔ s.2 = false := by
  cases o <;> simp_all [BalancesUnless]

theorem well_nested_unless {point : Point} {program : Program} {w : List Event} {o : Outcome}
    (condition : holds (watch point) program BalancesUnless (some [], false))
    (path : Emits Callee program w o) :
    (o ≠ .cut → (WellNested w ↔ .passed point ∉ w)) ∧
      (.passed point ∉ w → ∀ u, u <+: w → u.foldl step (some []) ≠ none) := by
  have ending := emits_post (callee_unwatched point) path condition
  rw [watch_steps] at ending
  refine ⟨fun finished => ?_, fun unpassed u begins => prefix_fits begins (ending.fits ?_)⟩
  · simpa [WellNested] using ending.ends finished
  · simpa using unpassed

theorem action_ends (handler : Addr) (s : Option (List Bracket))
    {post : Outcome → Option (List Bracket) → Prop} (cut : ∀ t, post .cut t)
    (next : post .normal (if handler = 0 then s else none)) : holds step (handleAction handler) post s := by
  cases s with
  | none => simp_all [handleAction, step]
  | some st => simp_all [handleAction, step, eq_comm]

theorem actions_end (handlers : List Addr) (tail : List Program)
    {post : Outcome → Option (List Bracket) → Prop} (cut : ∀ t, post .cut t)
    (s : Option (List Bracket))
    (next : holds step (block tail) post (if ∀ h ∈ handlers, h = 0 then s else none)) :
    holds step (block (handlers.map handleAction ++ tail)) post s := by
  induction handlers generalizing s with
  | nil => simpa using next
  | cons handler rest ih =>
    rw [List.map_cons, List.cons_append, holds_block_cons]
    refine action_ends handler s (by simpa using cut) ?_
    simp only [if_true]
    refine ih _ ?_
    by_cases zero : handler = 0
    · simpa [zero] using next
    · simpa [zero] using next

def DispatchEnds (handlers : List Addr) : Outcome → Option (List Bracket) → Prop
  | .cut, _ => True
  | .normal, s | .returned, s => s = some [] ↔ ∀ h ∈ handlers, h = 0
  | .broke, _ | .continued, _ => False

theorem dispatcher_ends (first : Addr) (more : List Addr) :
    holds step (handleIrqEventPercpu first more) (DispatchEnds (first :: more)) (some []) := by
  refine actions_end (first :: more) _ (fun _ => trivial) (some []) ?_
  by_cases zero : ∀ h ∈ first :: more, h = 0
  · rw [if_pos zero]
    simpa [DispatchEnds] using zero
  · rw [if_neg zero]
    simpa [DispatchEnds] using zero

theorem thread_brackets_iff (self xmit first : Addr) (more : List Addr) (w : List Event) (o : Outcome) :
    (Emits Callee (dhdDpcThread self) w o →
      (o ≠ .cut → WellNested w) ∧ ∀ u, u <+: w → u.foldl step (some []) ≠ none) ∧
    (Emits Callee (pktgenThreadWorker self xmit) w o →
      (o ≠ .cut → (WellNested w ↔ .passed .shouldStop ∉ w)) ∧
        (.passed .shouldStop ∉ w → ∀ u, u <+: w → u.foldl step (some []) ≠ none)) ∧
    (Emits Callee runKsoftirqd w o →
      (o ≠ .cut → (WellNested w ↔ .passed .offline ∉ w)) ∧
        (.passed .offline ∉ w → ∀ u, u <+: w → u.foldl step (some []) ≠ none)) ∧
    (Emits Callee (handleIrqEventPercpu first more) w o →
      o ≠ .cut → (WellNested w ↔ ∀ h ∈ first :: more, h = 0)) := by
  refine ⟨fun path => ?_, well_nested_unless (thread_worker_balances self xmit),
    well_nested_unless ksoftirqd_balances, fun path finished => ?_⟩
  · have ending := emits_post callee_neutral path (dpc_thread_balances self [])
    exact ⟨ending.ends, fun u begins => prefix_fits begins ending.fits⟩
  · have ending := emits_post callee_neutral path (dispatcher_ends first more)
    cases o with
    | cut => exact absurd rfl finished
    | normal | returned => exact ending
    | broke | continued => exact ending.elim

theorem silent_call : Exec Callee (.call : Program) [] .normal := .call ⟨rfl, by simp⟩

theorem parked : Exec Callee (.loop (block [loopTest, .call]) : Program) [] .normal :=
  .leave (.stop (.right .brk) (by decide)) rfl

theorem thread_brackets_iff_exiting :
    Emits Callee (pktgenThreadWorker 5 6) [.srventry 5, .srvexit 5] .returned ∧
      WellNested [.srventry 5, .srvexit 5] := by
  have pass : Exec Callee (pktgenThreadWorker 5 6) _ .returned :=
    .seq silent_call (.seq (.leave (.seq (.left .skip) (.seq (.emit _) (.seq silent_call
      (.stop (.left (.stop (.left .brk) (by decide))) (by decide))))) rfl) (.seq (.emit _)
        (.seq silent_call (.seq silent_call (.seq silent_call (.seq parked (.stop .ret (by decide))))))))
  have path := emits_of_exec pass
  exact ⟨path, (((thread_brackets_iff 5 6 0 [] _ _).2.1 path).1 (by decide)).mpr (by decide)⟩

theorem thread_brackets_broken :
    (∃ w, Emits Callee (pktgenThreadWorker 5 6) w .returned ∧ ¬ WellNested w) ∧
    (∃ w, Emits Callee runKsoftirqd w .returned ∧ ¬ WellNested w) ∧
    (∃ w, Emits Callee (handleIrqEventPercpu 9 []) w .returned ∧ ¬ WellNested w) := by
  have stopped : Exec Callee (pktgenThreadWorker 5 6) _ .returned :=
    .seq silent_call (.seq (.leave (.stop (.right (.seq (.emit _) (.stop .brk (by decide)))) (by decide)) rfl)
      (.seq (.emit _) (.seq silent_call (.seq silent_call (.seq silent_call
        (.seq parked (.stop .ret (by decide))))))))
  have offline : Exec Callee runKsoftirqd _ .returned :=
    .seq (.emit _) (.stop (.leave (.seq (.left .skip) (.seq (.emit _) (.seq (.right .skip) (.seq (.emit _)
      (.stop (.leave (.seq (.left .skip) (.seq (.emit _) (.stop (.left (.seq (.emit _) (.seq silent_call
        (.seq parked (.stop .ret (by decide)))))) (by decide)))) rfl) (by decide)))))) rfl) (by decide))
  have dispatched : Exec Callee (handleIrqEventPercpu 9 []) _ .returned :=
    .seq (.seq (.emit _) (.seq (.emit _) (.seq silent_call (.seq (.emit _) (.seq (.emit _)
      (.seq (.right .skip) (.seq (.right .skip) .skip))))))) (.seq silent_call (.seq (.right .skip)
        (.stop .ret (by decide))))
  exact ⟨⟨_, emits_of_exec stopped, by decide⟩, ⟨_, emits_of_exec offline, by decide⟩,
    ⟨_, emits_of_exec dispatched, by decide⟩⟩

end TraceBrackets
