import SepExtract.UsnlSession

/- The three writers of tracing_active after a stop request: stop_tracing itself, a
   SYNC_COMPLETE that ends a drain, and the next START_TRACING. -/
namespace StopSticky
open TracerKernel UsnlSession TransitionRuns

def IsStart : Call → Prop
  | .message .startTracing _ _ => True
  | _ => False

def IsSync : Call → Prop
  | .message .syncComplete _ _ => True
  | _ => False

/-- From every stop_tracing on, tracing stays off until a START_TRACING is handled. -/
def Sticky (k : Tracer) (calls : List Call) : Prop :=
  ∀ pre mid post, calls = pre ++ .stop :: (mid ++ post) → (∀ c ∈ mid, ¬ IsStart c) →
    ((pre ++ .stop :: mid).foldl Call.apply k).tracingActive = false

def NoSyncAfterStop (calls : List Call) : Prop :=
  ∀ pre mid post, calls = pre ++ .stop :: (mid ++ post) → (∀ c ∈ mid, ¬ IsStart c) →
    ∀ c ∈ mid, ¬ IsSync c

theorem trace_entry_stays_off (k : Tracer) (e : Sepentry) (off : k.tracingActive = false) :
    (traceEntry k e).tracingActive = false := by
  rcases trace_entry_cases k e with ⟨_, eq⟩ | ⟨_, _, eq⟩ | ⟨_, _, eq⟩ <;> simp [eq, off]

theorem request_entry_active (k : Tracer) : (requestEntry k).1.tracingActive = k.tracingActive := by
  unfold requestEntry
  split
  · rfl
  · split <;> rfl

theorem apply_stays_off (k : Tracer) (c : Call) (off : k.tracingActive = false)
    (start : ¬ IsStart c) (sync : ¬ IsSync c) : (c.apply k).tracingActive = false := by
  cases c with
  | trace e => exact trace_entry_stays_off k e off
  | stop => rfl
  | message m pid ids =>
    cases m with
    | startTracing => exact absurd trivial start
    | syncComplete => exact absurd trivial sync
    | stopTracing => rfl
    | requestEntry => exact (request_entry_active _).trans off

theorem run_stays_off (k : Tracer) (calls : List Call) (off : k.tracingActive = false)
    (start : ∀ c ∈ calls, ¬ IsStart c) (sync : ∀ c ∈ calls, ¬ IsSync c) :
    (calls.foldl Call.apply k).tracingActive = false := by
  induction calls generalizing k with
  | nil => exact off
  | cons c rest ih =>
    have first := apply_stays_off k c off (start c (by simp)) (sync c (by simp))
    exact ih (c.apply k) first (fun d hd => start d (by simp [hd])) (fun d hd => sync d (by simp [hd]))

theorem sync_switches_on (k : Tracer) (c : Call) (off : k.tracingActive = false) (sync : IsSync c) :
    (c.apply k).tracingActive = true := by
  match c, sync with
  | .message .syncComplete pid ids, _ => simp [Call.apply, nlRcvFunc, off]

theorem first_sync (calls : List Call) (c : Call) (member : c ∈ calls) (sync : IsSync c) :
    ∃ before d after, calls = before ++ d :: after ∧ IsSync d ∧ ∀ e ∈ before, ¬ IsSync e := by
  induction calls with
  | nil => simp at member
  | cons a rest ih =>
    by_cases here : IsSync a
    · exact ⟨[], a, rest, rfl, here, by simp⟩
    · have later : c ∈ rest := by
        rcases List.mem_cons.mp member with rfl | later
        · exact absurd sync here
        · exact later
      obtain ⟨before, d, after, split, hd, quiet⟩ := ih later
      refine ⟨a :: before, d, after, by simp [split], hd, ?_⟩
      intro e he
      rcases List.mem_cons.mp he with rfl | he
      · exact here
      · exact quiet e he

/-- A stop request sticks exactly in the runs that handle no SYNC_COMPLETE after it. -/
theorem stop_sticky_iff (k : Tracer) (calls : List Call) :
    Sticky k calls ↔ NoSyncAfterStop calls := by
  constructor
  · intro sticky pre mid post split start c member sync
    obtain ⟨before, d, after, eq, hd, quiet⟩ := first_sync mid c member sync
    have startBefore : ∀ e ∈ before, ¬ IsStart e := fun e he => start e (by simp [eq, he])
    have off := sticky pre before (d :: after ++ post) (by simp [split, eq]) startBefore
    have startThrough : ∀ e ∈ before ++ [d], ¬ IsStart e := fun e he => start e (by
      rw [eq]
      rcases List.mem_append.mp he with h | h
      · exact List.mem_append_left _ h
      · exact List.mem_append_right _ (List.mem_cons.mpr (Or.inl (List.mem_singleton.mp h))))
    have on := sticky pre (before ++ [d]) (after ++ post) (by simp [split, eq]) startThrough
    have shape : pre ++ Call.stop :: (before ++ [d]) = (pre ++ Call.stop :: before) ++ [d] := by simp
    rw [shape, List.foldl_concat, sync_switches_on _ d off hd] at on
    exact Bool.noConfusion on
  · intro quiet pre mid post split start
    rw [List.foldl_append, List.foldl_cons]
    exact run_stays_off _ mid rfl start (quiet pre mid post split start)

def callOf (s : System) : Act → Option Call
  | .traceEntry e => some (.trace e)
  | .stopTracing => some .stop
  | .usnl ids => s.usnl.bind fun u =>
    match u.pc with
    | .start => some (.message .startTracing u.pid ids)
    | .request => if u.totcount < TO_OBTAIN then some (.message .requestEntry u.pid ids) else none
    | .sync => some (.message .syncComplete u.pid ids)
    | .stop => some (.message .stopTracing u.pid ids)
    | _ => none
  | _ => none

def callsOf : System → List Act → List Call
  | _, [] => []
  | s, a :: rest => (callOf s a).toList ++ ((step s a).map fun t => callsOf t rest).getD []

/-- The tracer without the wake-up requests, which no branch of it reads. -/
def Tracer.settled (k : Tracer) : Tracer := { k with pendingCalls := 0, pendingTasklets := 0 }

theorem settled_trace_entry (k l : Tracer) (e : Sepentry) (same : Tracer.settled k = Tracer.settled l) :
    Tracer.settled (traceEntry k e) = Tracer.settled (traceEntry l e) := by
  cases k; cases l
  simp only [Tracer.settled, Tracer.mk.injEq] at same
  obtain ⟨rfl, rfl, rfl, rfl, rfl, rfl, rfl, rfl, _, _⟩ := same
  simp only [traceEntry, Tracer.ignores, Tracer.settled]
  split
  · rfl
  · split <;> rfl

theorem settled_apply (k l : Tracer) (c : Call) (same : Tracer.settled k = Tracer.settled l) :
    Tracer.settled (c.apply k) = Tracer.settled (c.apply l) := by
  cases c with
  | trace e => exact settled_trace_entry k l e same
  | stop =>
    cases k; cases l
    simp only [Tracer.settled, Tracer.mk.injEq] at same
    obtain ⟨rfl, rfl, rfl, rfl, rfl, rfl, rfl, rfl, _, _⟩ := same
    rfl
  | message m pid ids =>
    have fields := same
    cases k; cases l
    simp only [Tracer.settled, Tracer.mk.injEq] at fields
    obtain ⟨rfl, rfl, rfl, rfl, rfl, rfl, rfl, rfl, _, _⟩ := fields
    cases m with
    | startTracing =>
      simp only [Call.apply, nlRcvFunc, traceIDs]
      refine List.foldl_rel (r := fun a b => Tracer.settled a = Tracer.settled b) rfl ?_
      intro e _ a b h
      exact settled_trace_entry a b e h
    | stopTracing => rfl
    | syncComplete =>
      simp only [Call.apply, nlRcvFunc]
      split <;> rfl
    | requestEntry =>
      simp only [Call.apply, nlRcvFunc, requestEntry]
      split
      · rfl
      · split <;> rfl

theorem settled_step (s t : System) (a : Act) (h : step s a = some t) :
    Tracer.settled t.tracer = Tracer.settled ((callOf s a).toList.foldl Call.apply s.tracer) := by
  cases step_transition h with
  | traceEntry e probe => rfl
  | stopTracing => rfl
  | call pending =>
    simp only [scheduleUsnl]
    split <;> rfl
  | tasklet pending => rfl
  | spawn pid srvaddr toobtain positive free => rfl
  | kill u running => rfl
  | start ids u running here =>
    simp only [callOf, running, Option.bind_some, here, Option.toList_some, List.foldl_cons,
      List.foldl_nil, sendCommand, Call.apply]
  | request ids u running here more =>
    simp only [callOf, running, Option.bind_some, here, more, if_true, Option.toList_some,
      List.foldl_cons, List.foldl_nil, sendCommand, Call.apply]
  | enough ids u running here all =>
    simp [callOf, running, here, Nat.not_lt.mpr all]
  | reply ids u m rest running here queued => simp [callOf, running, here]
  | sync ids u running here =>
    simp only [callOf, running, Option.bind_some, here, Option.toList_some, List.foldl_cons,
      List.foldl_nil, sendCommand, Call.apply]
  | wait ids u m rest running here queued => simp [callOf, running, here]
  | stop ids u running here =>
    simp only [callOf, running, Option.bind_some, here, Option.toList_some, List.foldl_cons,
      List.foldl_nil, sendCommand, Call.apply]

theorem settled_run (s t : System) (k : Tracer) (acts : List Act)
    (same : Tracer.settled s.tracer = Tracer.settled k) (h : run step s acts = some t) :
    Tracer.settled t.tracer = Tracer.settled ((callsOf s acts).foldl Call.apply k) := by
  induction acts generalizing s k with
  | nil =>
    simp only [run, Option.some.injEq] at h
    subst h
    exact same
  | cons a rest ih =>
    obtain ⟨u, first, later⟩ := run_cons h
    simp only [callsOf, first, Option.map_some, Option.getD_some, List.foldl_append]
    apply ih u _ _ later
    rw [settled_step s u a first]
    exact List.foldl_rel (r := fun a b => Tracer.settled a = Tracer.settled b) same
      fun c _ a b h => settled_apply a b c h

/-- A one-slot buffer is drained, the stop request arrives before the reader has taken
    END_OF_DATA, and the SYNC_COMPLETE that follows switches tracing on again. -/
def stopDuringDrain : List Act :=
  [.spawn 7 0 0, .usnl zeroContext, .usnl zeroContext, .usnl zeroContext, .usnl zeroContext,
   .stopTracing, .usnl zeroContext, .usnl zeroContext]

def drained : List Call :=
  [.message .startTracing 7 zeroContext, .message .requestEntry 7 zeroContext,
   .message .requestEntry 7 zeroContext]

set_option maxRecDepth 20000 in
theorem sync_complete_undoes_stop :
    ¬ ∀ acts t, run step (System.initial 1 fun _ => zeroEntry) acts = some t →
      Sticky (System.initial 1 fun _ => zeroEntry).tracer
        (callsOf (System.initial 1 fun _ => zeroEntry) acts) := by
  intro sticky
  have ends : ((run step (System.initial 1 fun _ => zeroEntry) stopDuringDrain).map
      fun t => t.tracer.tracingActive) = some true := by decide +kernel
  obtain ⟨t, finished, on⟩ := Option.map_eq_some_iff.mp ends
  have calls : callsOf (System.initial 1 fun _ => zeroEntry) stopDuringDrain =
      drained ++ .stop :: ([.message .syncComplete 7 zeroContext] ++ []) := rfl
  have off := sticky stopDuringDrain t finished drained [.message .syncComplete 7 zeroContext] []
    calls (by simp [IsStart])
  have same := settled_run _ t _ stopDuringDrain rfl finished
  have active := congrArg Tracer.tracingActive same
  simp only [Tracer.settled, calls, List.append_nil, off, on] at active
  exact Bool.noConfusion active

end StopSticky
