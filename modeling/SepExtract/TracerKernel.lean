import Mathlib.Logic.Function.Basic

/- The trace buffer of sepext_trace.c. Each call of trace_entry, stop_tracing and
   nl_rcv_func is one atomic step; the cycle counter, the running pid and the CPU that
   trace_entry samples are part of the entry handed to it. Statistics counters and
   printk output are left out: no modelled function reads them. -/
namespace TracerKernel

/-- The numbering follows enum sepentry_type, so that the constructor index is the
    word stored in memory. -/
inductive SepentryType where
  | typeFirst | ctxswitch | serviceentry | serviceexit | peustart | peustop
  | pktextract | pktextractn | pktstart | pktstop | pktenq | pktdeq
  | loopstart | looprestart | loopstop | queuecond | threadcond | statecond | condend
  | pktqueue | pktqueuen | srvqueue | statequeue
  | ttwakeup | wakeup | sirqraise | sleep | hirqstart | hirqstop
  | softirqstart | softirqstop | taskletstart | taskletstop | enqueue | dequeue
  | waitcompl | compl | semup | semdown | tempsynch | migrate
  | startids | idQueue | idSynch | idState
  deriving DecidableEq, Repr

def SepentryType.code (t : SepentryType) : Nat := t.ctorIdx

structure Sepentry where
  type : SepentryType
  cycles : UInt32
  pid1 : UInt32
  pid2 : UInt32
  data : UInt32
  addr : UInt32
  location : UInt32
  currpid : UInt16
  cpu : UInt16
  deriving DecidableEq, Repr

def zeroEntry : Sepentry := ⟨.typeFirst, 0, 0, 0, 0, 0, 0, 0, 0⟩

structure Tracer where
  availEntries : Nat
  entries : Nat → Sepentry
  lastentry : Nat
  lastread : Nat
  tracingActive : Bool
  taskletScheduled : Bool
  stopTracingRequested : Bool
  usPid : Nat
  /-- calls of schedule_usnl requested with smp_call_function_single, not yet run -/
  pendingCalls : Nat
  /-- runs of sep_tasklet requested with tasklet_schedule, not yet run -/
  pendingTasklets : Nat

/-- After initialize_tracer; vmalloc leaves arbitrary contents in the slots. -/
def initializeTracer (numEntries : Nat) (memory : Nat → Sepentry) : Tracer where
  availEntries := numEntries
  entries := memory
  lastentry := 0
  lastread := 0
  tracingActive := false
  taskletScheduled := false
  stopTracingRequested := false
  usPid := 0
  pendingCalls := 0
  pendingTasklets := 0

/-- The active check, which the ID types bypass. -/
def Tracer.ignores (k : Tracer) (e : Sepentry) : Bool :=
  !k.tracingActive && e.type.code < SepentryType.startids.code

def traceEntry (k : Tracer) (e : Sepentry) : Tracer :=
  if k.ignores e then k
  else
    let a := k.lastentry + 1
    if a > k.availEntries then
      { k with
        lastentry := a
        tracingActive := false
        taskletScheduled := true
        pendingCalls := if k.taskletScheduled then k.pendingCalls else k.pendingCalls + 1 }
    else
      { k with lastentry := a, entries := Function.update k.entries (a - 1) e }

def stopTracing (k : Tracer) : Tracer :=
  { k with
    tracingActive := false
    stopTracingRequested := true
    taskletScheduled := true
    pendingTasklets :=
      if !k.taskletScheduled && k.usPid != 0 then k.pendingTasklets + 1 else k.pendingTasklets }

def queueLastregistered : Nat := 43
def synchLastregistered : Nat := 4
def stateLastregistered : Nat := 100

/-- What trace_IDs reads besides the loop index: the registered addresses and the
    cycle counter, pid and CPU sampled at each of its calls. -/
structure IdContext where
  queueHead : Nat → UInt32
  synchVariable : Nat → UInt32
  cycles : Nat → UInt32
  currpid : UInt16
  cpu : UInt16

def zeroContext : IdContext := ⟨fun _ => 0, fun _ => 0, fun _ => 0, 0, 0⟩

def idEntry (c : IdContext) (type : SepentryType) (addr : UInt32) (i n : Nat) : Sepentry where
  type := type
  cycles := c.cycles n
  pid1 := UInt32.ofNat i
  pid2 := 0
  data := 0
  addr := addr
  location := 0
  currpid := c.currpid
  cpu := c.cpu

def idEntries (c : IdContext) : List Sepentry :=
  ((List.range queueLastregistered).map fun i => idEntry c .idQueue (c.queueHead i) i i) ++
  ((List.range synchLastregistered).map fun i =>
    idEntry c .idSynch (c.synchVariable i) i (queueLastregistered + i)) ++
  ((List.range stateLastregistered).map fun i =>
    idEntry c .idState 0 i (queueLastregistered + synchLastregistered + i))

def traceIDs (k : Tracer) (c : IdContext) : Tracer := (idEntries c).foldl traceEntry k

inductive Command where
  | startTracing | stopTracing | syncComplete | requestEntry
  deriving DecidableEq, Repr

inductive Message where
  | endOfData | stopTracing | wakeUpUsnl
  | entry (e : Sepentry)
  deriving DecidableEq, Repr

def requestEntry (k : Tracer) : Tracer × Message :=
  if k.stopTracingRequested && (k.lastentry ≤ k.lastread || k.availEntries ≤ k.lastread) then
    ({ k with stopTracingRequested := false }, .stopTracing)
  else if k.tracingActive || k.availEntries ≤ k.lastread then
    (k, .endOfData)
  else
    ({ k with lastread := k.lastread + 1 }, .entry (k.entries k.lastread))

def nlRcvFunc (k : Tracer) (pid : Nat) (c : IdContext) : Command → Tracer × Option Message
  | .startTracing =>
    (traceIDs { k with usPid := pid, lastentry := 0, tracingActive := true } c, none)
  | .stopTracing =>
    ({ k with usPid := pid, taskletScheduled := false, tracingActive := false,
              lastread := 0, lastentry := 0 }, none)
  | .syncComplete =>
    if k.tracingActive then ({ k with usPid := pid }, none)
    else ({ k with usPid := pid, lastread := 0, lastentry := 0, taskletScheduled := false,
                   tracingActive := true }, none)
  | .requestEntry =>
    let r := requestEntry { k with usPid := pid }
    (r.1, some r.2)

inductive Call where
  | trace (e : Sepentry)
  | message (c : Command) (pid : Nat) (ids : IdContext)
  | stop

def Call.apply (k : Tracer) : Call → Tracer
  | .trace e => traceEntry k e
  | .message c pid ids => (nlRcvFunc k pid ids c).1
  | .stop => stopTracing k

def Tracer.recorded (k : Tracer) : List Sepentry :=
  (List.range (min k.lastentry k.availEntries)).map k.entries

def Tracer.pendingWakeups (k : Tracer) : Nat := k.pendingCalls + k.pendingTasklets

theorem recorded_length (k : Tracer) : k.recorded.length = min k.lastentry k.availEntries := by
  simp [Tracer.recorded]

/-- The three outcomes of one call: refused by the active check, stored in the next
    slot, or the buffer is full and the first to notice asks for a wake-up. -/
theorem trace_entry_cases (k : Tracer) (e : Sepentry) :
    (k.ignores e = true ∧ traceEntry k e = k) ∨
    (k.ignores e = false ∧ k.lastentry < k.availEntries ∧
      traceEntry k e = { k with lastentry := k.lastentry + 1,
                                entries := Function.update k.entries k.lastentry e }) ∨
    (k.ignores e = false ∧ k.availEntries ≤ k.lastentry ∧
      traceEntry k e = { k with
        lastentry := k.lastentry + 1, tracingActive := false, taskletScheduled := true,
        pendingCalls := if k.taskletScheduled then k.pendingCalls else k.pendingCalls + 1 }) := by
  unfold traceEntry
  by_cases ignored : k.ignores e
  · exact Or.inl ⟨ignored, by simp [ignored]⟩
  · by_cases full : k.lastentry + 1 > k.availEntries
    · exact Or.inr (Or.inr ⟨by simpa using ignored, by omega, by simp [ignored, full]⟩)
    · exact Or.inr (Or.inl ⟨by simpa using ignored, by omega, by simp [ignored, full]⟩)

theorem recorded_of_stored (k : Tracer) (e : Sepentry) (room : k.lastentry < k.availEntries) :
    Tracer.recorded { k with lastentry := k.lastentry + 1,
                             entries := Function.update k.entries k.lastentry e } =
      k.recorded ++ [e] := by
  have before : min k.lastentry k.availEntries = k.lastentry := by omega
  have after : min (k.lastentry + 1) k.availEntries = k.lastentry + 1 := by omega
  simp only [Tracer.recorded, before, after, List.range_succ, List.map_append, List.map_cons,
    List.map_nil, Function.update_self]
  congr 1
  apply List.map_congr_left
  intro i hi
  have below : i ≠ k.lastentry := Nat.ne_of_lt (List.mem_range.mp hi)
  exact Function.update_of_ne below _ _

theorem recorded_of_full (k : Tracer) (full : k.availEntries ≤ k.lastentry) (active scheduled : Bool)
    (calls : Nat) :
    Tracer.recorded { k with lastentry := k.lastentry + 1, tracingActive := active,
                             taskletScheduled := scheduled, pendingCalls := calls } =
      k.recorded := by
  have before : min k.lastentry k.availEntries = k.availEntries := by omega
  have after : min (k.lastentry + 1) k.availEntries = k.availEntries := by omega
  simp only [Tracer.recorded, before, after]

theorem trace_entry_keeps (k : Tracer) (e : Sepentry) :
    (traceEntry k e).availEntries = k.availEntries ∧ (traceEntry k e).usPid = k.usPid ∧
      (traceEntry k e).lastread = k.lastread := by
  rcases trace_entry_cases k e with ⟨_, eq⟩ | ⟨_, _, eq⟩ | ⟨_, _, eq⟩ <;> simp [eq]

theorem trace_ids_keeps (k : Tracer) (ids : IdContext) :
    (traceIDs k ids).availEntries = k.availEntries ∧ (traceIDs k ids).usPid = k.usPid ∧
      (traceIDs k ids).lastread = k.lastread := by
  refine List.foldlRecOn (motive := fun l : Tracer => l.availEntries = k.availEntries ∧
    l.usPid = k.usPid ∧ l.lastread = k.lastread) _ _ ⟨rfl, rfl, rfl⟩ ?_
  intro l h e _
  obtain ⟨avail, pid, read⟩ := trace_entry_keeps l e
  exact ⟨avail.trans h.1, pid.trans h.2.1, read.trans h.2.2⟩

/-- The three replies: stop was requested and every recorded entry sent, nothing to send,
    or the next slot. -/
theorem request_entry_cases (k : Tracer) :
    (k.stopTracingRequested = true ∧ k.recorded.length ≤ k.lastread ∧
      requestEntry k = ({ k with stopTracingRequested := false }, .stopTracing)) ∨
    ((k.stopTracingRequested = true → k.lastread < k.recorded.length) ∧
      (k.tracingActive = true ∨ k.availEntries ≤ k.lastread) ∧ requestEntry k = (k, .endOfData)) ∨
    ((k.stopTracingRequested = true → k.lastread < k.recorded.length) ∧
      k.tracingActive = false ∧ k.lastread < k.availEntries ∧
      requestEntry k =
        ({ k with lastread := k.lastread + 1 }, .entry (k.entries k.lastread))) := by
  have length := recorded_length k
  unfold requestEntry
  split
  · rename_i stop
    simp only [Bool.and_eq_true, Bool.or_eq_true, decide_eq_true_eq] at stop
    exact Or.inl ⟨stop.1, by omega, rfl⟩
  · rename_i stop
    simp only [Bool.and_eq_true, Bool.or_eq_true, decide_eq_true_eq, not_and] at stop
    have unread : k.stopTracingRequested = true → k.lastread < k.recorded.length := fun requested => by
      have := stop requested
      omega
    split
    · rename_i ending
      exact Or.inr (Or.inl ⟨unread, by simpa using ending, rfl⟩)
    · rename_i ending
      simp only [Bool.or_eq_true, decide_eq_true_eq, not_or, Bool.not_eq_true] at ending
      exact Or.inr (Or.inr ⟨unread, ending.1, by omega, rfl⟩)

end TracerKernel
