import SepExtract.UsnlSession

/- From the slots of the buffer to the lines of the file, for one session that runs
   undisturbed. A late wake-up can be queued where a reply is expected, after which the
   reader runs one or more messages behind. The invariant bounds how far behind, by the
   once-only wake-up bit, and accounts for every entry under way. -/
namespace UsnlDelivery
open TracerKernel UsnlSession TransitionRuns

structure Generation where
  recorded : List Sepentry
  written : List Message
  bySync : Bool
  activeAtStop : Bool
  deriving DecidableEq

structure Log where
  ended : List Generation
  activeAtStop : Bool

structure Logged where
  sys : System
  log : Log

def FileLine.message : FileLine → Option Message
  | .eod => none
  | .line m => some m

def lines (u : Usnl) : List Message := u.file.filterMap FileLine.message

def Log.close (log : Log) (k : Tracer) (u : Usnl) (bySync activeAtStop : Bool) : Log :=
  { log with ended := log.ended ++ [⟨k.recorded, lines u, bySync, activeAtStop⟩] }

def Log.observe (log : Log) (k : Tracer) (u : Usnl) : Log :=
  match u.pc with
  | .request =>
    if u.totcount < TO_OBTAIN ∧ (requestEntry k).2 = .stopTracing then
      { log with activeAtStop := k.tracingActive }
    else log
  | .sync => if k.tracingActive then log else log.close k u true false
  | .stop => log.close k u false log.activeAtStop
  | _ => log

def Logged.observe (l : Logged) : Act → Log
  | .usnl _ =>
    match l.sys.usnl with
    | none => l.log
    | some u => l.log.observe l.sys.tracer u
  | _ => l.log

def Logged.step (l : Logged) (a : Act) : Option Logged :=
  (UsnlSession.step l.sys a).map fun t => ⟨t, l.observe a⟩

def Logged.initial (numEntries : Nat) (memory : Nat → Sepentry) : Logged :=
  ⟨System.initial numEntries memory, ⟨[], false⟩⟩

/-- The log only watches: a logged run is a run of the system. -/
theorem logged_run (acts : List Act) (l : Logged) :
    (run Logged.step l acts).map Logged.sys = run UsnlSession.step l.sys acts := by
  induction acts generalizing l with
  | nil => rfl
  | cons a rest ih =>
    simp only [run, Logged.step]
    cases UsnlSession.step l.sys a with
    | none => rfl
    | some t => exact ih ⟨t, l.observe a⟩

/-- One process, started once without a service argument and never killed. -/
def OneSession (l : Logged) : Act → Prop
  | .spawn _ srvaddr _ => l.sys.usnl.isNone = true ∧ srvaddr = 0
  | .kill => False
  | _ => True

instance (l : Logged) (a : Act) : Decidable (OneSession l a) := by
  cases a <;> unfold OneSession <;> infer_instance

def Log.base (log : Log) : List Sepentry := log.ended.flatMap Generation.recorded

def Logged.recorded (l : Logged) : List Sepentry := l.log.base ++ l.sys.tracer.recorded

def Logged.lines (l : Logged) : List Message := (l.sys.usnl.map UsnlDelivery.lines).getD []

/-- Ended by SYNC_COMPLETE, or by STOP_TRACING after a reply sent with tracing off. -/
def Generation.Complete (g : Generation) : Prop := g.bySync = true ∨ g.activeAtStop = false

def Accounted (ended : List Generation) : Prop :=
  ∀ before g later, ended = before ++ g :: later → g.Complete →
    g.written = ((before ++ [g]).flatMap Generation.recorded).map .entry

theorem accounted_append {ended : List Generation} {g : Generation} (old : Accounted ended)
    (new : g.Complete → g.written = ((ended ++ [g]).flatMap Generation.recorded).map .entry) :
    Accounted (ended ++ [g]) := by
  intro before h later split complete
  rcases List.eq_nil_or_concat later with rfl | ⟨middle, last, rfl⟩
  · obtain ⟨rfl, one⟩ := List.append_inj' split rfl
    obtain rfl : g = h := by simpa using one
    exact new complete
  · rw [List.concat_eq_append, ← List.cons_append, ← List.append_assoc] at split
    exact old before h middle (List.append_inj' split rfl).1 complete

def Message.isEntry : Message → Bool
  | .entry _ => true
  | _ => false

def entriesOf (q : List Message) : List Message := q.filter Message.isEntry

/-- The messages queued before the first STOP_TRACING; the rest is never read. -/
def live (q : List Message) : List Message := q.takeWhile fun m => decide (m ≠ .stopTracing)

theorem entries_of_append (p q : List Message) : entriesOf (p ++ q) = entriesOf p ++ entriesOf q :=
  List.filter_append ..

theorem live_append {p : List Message} (none : .stopTracing ∉ p) (q : List Message) :
    live (p ++ q) = p ++ live q := by
  apply List.takeWhile_append_of_pos
  intro m member
  simp only [ne_eq, decide_not, Bool.not_eq_true', decide_eq_false_iff_not]
  exact fun h => none (h ▸ member)

theorem live_of_not_mem {q : List Message} (none : .stopTracing ∉ q) : live q = q := by
  simpa [live] using live_append none []

theorem live_append_of_mem {p : List Message} (some : .stopTracing ∈ p) (q : List Message) :
    live (p ++ q) = live p := by
  induction p with
  | nil => cases some
  | cons m p ih =>
    by_cases stop : m = .stopTracing
    · simp [live, stop]
    · have later : .stopTracing ∈ p := by simpa [Ne.symm stop] using some
      simpa [live, stop] using ih later

theorem live_cons {m : Message} (live_head : m ≠ .stopTracing) (q : List Message) :
    live (m :: q) = m :: live q := by
  simp [live, live_head]

theorem mem_of_live {m : Message} {q : List Message} (member : m ∈ live q) : m ∈ q :=
  (List.takeWhile_subset _) member

theorem live_wake (q : List Message) :
    live (q ++ [.wakeUpUsnl]) = live q ∨ live (q ++ [.wakeUpUsnl]) = live q ++ [.wakeUpUsnl] := by
  by_cases stop : .stopTracing ∈ q
  · exact Or.inl (live_append_of_mem stop _)
  · right
    rw [live_append stop, live_of_not_mem stop]
    rfl

def Settled (k : Tracer) : Prop := k.availEntries ≤ k.lastread ∧ k.availEntries < k.lastentry

structure Asking (k : Tracer) (log : Log) (q file : List Message) (count owed : Nat) : Prop where
  room : q.length + k.pendingWakeups ≤ k.taskletScheduled.toNat + owed
  reply : owed ≤ q.length
  idle : k.tracingActive = true → q.length + k.pendingWakeups ≤ owed ∧ k.lastread = 0
  behind : .endOfData ∈ (live q).drop owed → Settled k
  counted : .endOfData ∈ live q → count ≠ 0 → Settled k
  beforeStop : .endOfData ∈ live q → .stopTracing ∈ q → Settled k
  order : ∀ before later, live q = before ++ .endOfData :: later → entriesOf later = []
  source : k.tracingActive = false → .stopTracing ∉ q →
    k.availEntries < k.lastentry ∨ k.stopTracingRequested = true
  lines : file.length = log.base.length + count
  fits : .stopTracing ∉ q ∨ q.getLast? = some .stopTracing → k.lastread ≤ k.recorded.length
  written : .stopTracing ∉ q →
    file ++ entriesOf q = (log.base ++ k.recorded.take k.lastread).map .entry
  drained : .stopTracing ∈ q → log.activeAtStop = false →
    k.tracingActive = false ∧ file ++ entriesOf (live q) = (log.base ++ k.recorded).map .entry
  refused : .stopTracing ∈ q → log.activeAtStop = true →
    owed = 1 ∧ live q = [] ∧ file = log.base.map .entry

structure Syncing (k : Tracer) (log : Log) (q file : List Message) : Prop where
  room : q.length + k.pendingWakeups ≤ k.taskletScheduled.toNat
  inactive : k.tracingActive = false
  entries : entriesOf q = []
  written : file = (log.base ++ k.recorded).map .entry

structure Waiting (k : Tracer) (log : Log) (q file : List Message) : Prop where
  room : q.length + k.pendingWakeups ≤ k.taskletScheduled.toNat + 1
  idle : k.tracingActive = true → q.length + k.pendingWakeups ≤ 1
  entries : entriesOf q = []
  wakeups : ∀ m ∈ q.tail, m = .wakeUpUsnl
  unread : k.lastread = 0
  source : k.tracingActive = false → k.availEntries < k.lastentry ∨ k.stopTracingRequested = true
  written : file = log.base.map .entry

structure Stopping (k : Tracer) (log : Log) (file : List Message) : Prop where
  drained : log.activeAtStop = false →
    k.tracingActive = false ∧ file = (log.base ++ k.recorded).map .entry
  refused : log.activeAtStop = true → file = log.base.map .entry

structure Finished (k : Tracer) (log : Log) (file : List Message) : Prop where
  inactive : k.tracingActive = false
  empty : k.lastentry = 0
  written : file <+: log.base.map .entry

structure Quiet (k : Tracer) (log : Log) : Prop where
  inactive : k.tracingActive = false
  empty : k.lastentry = 0
  unread : k.lastread = 0
  unknown : k.usPid = 0
  calls : k.pendingCalls = 0
  tasklets : k.pendingTasklets = 0
  ended : log.ended = []

def Phase (k : Tracer) (log : Log) (u : Usnl) : Prop :=
  match u.pc with
  | .start => Quiet k log ∧ u.queue = [] ∧ lines u = [] ∧ u.curcount = 0
  | .request => Asking k log u.queue (lines u) u.curcount 0
  | .reply => Asking k log u.queue (lines u) u.curcount 1
  | .sync => Syncing k log u.queue (lines u)
  | .wait => Waiting k log u.queue (lines u)
  | .stop => Stopping k log (lines u)
  | .done => Finished k log (lines u)

structure Session (k : Tracer) (log : Log) (u : Usnl) : Prop where
  positive : u.pid ≠ 0
  srvaddr : u.srvaddr = 0
  totcount : u.totcount = 0
  addressed : u.pc ≠ .start → k.usPid = u.pid
  phase : Phase k log u

structure Inv (l : Logged) : Prop where
  absent : l.sys.usnl = none → Quiet l.sys.tracer l.log
  session : ∀ u ∈ l.sys.usnl, Session l.sys.tracer l.log u
  accounted : Accounted l.log.ended

structure Nudged (k k' : Tracer) : Prop where
  avail : k'.availEntries = k.availEntries
  lastread : k'.lastread = k.lastread
  usPid : k'.usPid = k.usPid
  lastentry : k.lastentry ≤ k'.lastentry
  kept : k.tracingActive = false →
    k'.tracingActive = false ∧ k'.recorded = k.recorded ∧ k'.lastentry = k.lastentry
  recorded : k.recorded <+: k'.recorded
  change :
    (k'.tracingActive = k.tracingActive ∧ k'.taskletScheduled = k.taskletScheduled ∧
      k'.pendingWakeups = k.pendingWakeups ∧ k'.stopTracingRequested = k.stopTracingRequested) ∨
    (k'.tracingActive = false ∧ k'.taskletScheduled = true ∧
      k'.pendingWakeups + k.taskletScheduled.toNat ≤ k.pendingWakeups + 1 ∧
      (k'.availEntries < k'.lastentry ∨ k'.stopTracingRequested = true))

theorem nudged_trace_entry (k : Tracer) (e : Sepentry)
    (probe : e.type.code < SepentryType.startids.code) : Nudged k (traceEntry k e) := by
  rcases trace_entry_cases k e with ⟨_, eq⟩ | ⟨kept, room, eq⟩ | ⟨kept, full, eq⟩
  · rw [eq]
    exact ⟨rfl, rfl, rfl, Nat.le_refl _, fun off => ⟨off, rfl, rfl⟩, List.prefix_rfl, Or.inl ⟨rfl, rfl, rfl, rfl⟩⟩
  · have active : k.tracingActive = true := by simpa [Tracer.ignores, probe] using kept
    have longer := recorded_of_stored k e room
    rw [eq]
    exact ⟨rfl, rfl, rfl, Nat.le_succ _, fun off => by simp [active] at off,
      longer ▸ List.prefix_append _ _, Or.inl ⟨rfl, rfl, rfl, rfl⟩⟩
  · have active : k.tracingActive = true := by simpa [Tracer.ignores, probe] using kept
    have same := recorded_of_full k full false true
      (if k.taskletScheduled then k.pendingCalls else k.pendingCalls + 1)
    rw [eq]
    refine ⟨rfl, rfl, rfl, Nat.le_succ _, fun off => by simp [active] at off, same ▸ List.prefix_rfl,
      Or.inr ⟨rfl, rfl, ?_, Or.inl (Nat.lt_succ_of_le full)⟩⟩
    cases k.taskletScheduled <;> simp [Tracer.pendingWakeups]; omega

theorem nudged_stop_tracing (k : Tracer) : Nudged k (stopTracing k) := by
  refine ⟨rfl, rfl, rfl, Nat.le_refl _, fun _ => ⟨rfl, rfl, rfl⟩, List.prefix_rfl, Or.inr ⟨rfl, rfl, ?_, Or.inr rfl⟩⟩
  simp only [Tracer.pendingWakeups, stopTracing]
  cases k.taskletScheduled <;> cases k.usPid != 0 <;> simp
  omega

section Nudge
variable {k k' : Tracer} (n : Nudged k k')
include n

theorem nudged_room {size extra : Nat}
    (room : size + k.pendingWakeups ≤ k.taskletScheduled.toNat + extra) :
    size + k'.pendingWakeups ≤ k'.taskletScheduled.toNat + extra := by
  rcases n.change with ⟨_, bit, pending, _⟩ | ⟨_, bit, pending, _⟩
  · rwa [bit, pending]
  · rw [bit, Bool.toNat_true]
    omega

theorem nudged_active (active : k'.tracingActive = true) :
    k.tracingActive = true ∧ k'.pendingWakeups = k.pendingWakeups := by
  rcases n.change with ⟨same, _, pending, _⟩ | ⟨off, _⟩
  · exact ⟨same ▸ active, pending⟩
  · simp [off] at active

theorem nudged_source (off : k'.tracingActive = false)
    (old : k.tracingActive = false → k.availEntries < k.lastentry ∨ k.stopTracingRequested = true) :
    k'.availEntries < k'.lastentry ∨ k'.stopTracingRequested = true := by
  rcases n.change with ⟨same, _, _, stop⟩ | ⟨_, _, _, source⟩
  · rw [stop, n.avail]
    exact (old (same ▸ off)).imp_left fun more => Nat.lt_of_lt_of_le more n.lastentry
  · exact source

theorem nudged_settled (old : Settled k) : Settled k' := by
  have avail := n.avail
  have lastread := n.lastread
  have lastentry := n.lastentry
  simp only [Settled] at old ⊢
  omega

theorem asking_nudged {log : Log} {q file : List Message} {count owed : Nat}
    (h : Asking k log q file count owed) : Asking k' log q file count owed where
  room := nudged_room n h.room
  reply := h.reply
  idle active := by
    obtain ⟨before, pending⟩ := nudged_active n active
    rw [pending, n.lastread]
    exact h.idle before
  behind member := nudged_settled n (h.behind member)
  counted member some_read := nudged_settled n (h.counted member some_read)
  beforeStop member stop := nudged_settled n (h.beforeStop member stop)
  order := h.order
  source off none := nudged_source n off fun before => h.source before none
  lines := h.lines
  fits last := by
    rw [n.lastread]
    exact Nat.le_trans (h.fits last) n.recorded.length_le
  written none := by
    obtain ⟨more, longer⟩ := n.recorded
    rw [h.written none, n.lastread, ← longer, List.take_append_of_le_length (h.fits (Or.inl none))]
  drained stop off := by
    obtain ⟨inactive, all⟩ := h.drained stop off
    obtain ⟨still, same, _⟩ := n.kept inactive
    exact ⟨still, same.symm ▸ all⟩
  refused := h.refused

theorem phase_nudged {log : Log} {u : Usnl} (started : u.pc ≠ .start) (h : Phase k log u) :
    Phase k' log u := by
  unfold Phase at h ⊢
  split at h
  · rename_i here
    exact absurd here started
  · exact asking_nudged n h
  · exact asking_nudged n h
  · obtain ⟨still, same, _⟩ := n.kept h.inactive
    exact ⟨nudged_room n (show _ ≤ _ + 0 from h.room), still, h.entries, same.symm ▸ h.written⟩
  · refine ⟨nudged_room n h.room, fun active => ?_, h.entries, h.wakeups, n.lastread.trans h.unread,
      fun off => nudged_source n off h.source, h.written⟩
    obtain ⟨before, pending⟩ := nudged_active n active
    rw [pending]
    exact h.idle before
  · refine ⟨fun off => ?_, h.refused⟩
    obtain ⟨inactive, all⟩ := h.drained off
    obtain ⟨still, same, _⟩ := n.kept inactive
    exact ⟨still, same.symm ▸ all⟩
  · obtain ⟨still, _, same⟩ := n.kept h.inactive
    exact ⟨still, same.trans h.empty, h.written⟩

end Nudge

structure Woken (k k' : Tracer) : Prop where
  pending : k.pendingWakeups = k'.pendingWakeups + 1
  rest : k' = { k with pendingCalls := k'.pendingCalls, pendingTasklets := k'.pendingTasklets }

theorem wake_mem_iff {m : Message} (other : m ≠ .wakeUpUsnl) (q : List Message) :
    m ∈ q ++ [.wakeUpUsnl] ↔ m ∈ q := by
  simp [other]

theorem entries_of_wake (q : List Message) : entriesOf (q ++ [.wakeUpUsnl]) = entriesOf q := by
  simp [entriesOf, Message.isEntry]

theorem entries_of_live_wake (q : List Message) :
    entriesOf (live (q ++ [.wakeUpUsnl])) = entriesOf (live q) := by
  rcases live_wake q with same | more
  · rw [same]
  · rw [more, entries_of_wake]

theorem eod_live_wake {q : List Message} (member : .endOfData ∈ live (q ++ [.wakeUpUsnl])) :
    .endOfData ∈ live q := by
  rcases live_wake q with same | more
  · exact same ▸ member
  · rw [more] at member
    exact (wake_mem_iff (by simp) _).mp member

theorem asking_woken {k k' : Tracer} {log : Log} {q file : List Message} {count owed : Nat}
    (w : Woken k k') (h : Asking k log q file count owed) :
    Asking k' log (q ++ [.wakeUpUsnl]) file count owed := by
  have pending := w.pending
  have stop_iff : .stopTracing ∈ q ++ [.wakeUpUsnl] ↔ .stopTracing ∈ q := wake_mem_iff (by simp) q
  have size : (q ++ [Message.wakeUpUsnl]).length = q.length + 1 := by simp
  have room := h.room
  have reply := h.reply
  have idle := h.idle
  rw [w.rest]
  refine ⟨?_, by omega, fun active => ?_, fun member => ?_, fun member => h.counted (eod_live_wake member),
    fun member stop => h.beforeStop (eod_live_wake member) (stop_iff.mp stop), ?_,
    fun off none => h.source off (mt stop_iff.mpr none), h.lines, ?_, ?_, ?_, ?_⟩
  · simp only [Tracer.pendingWakeups] at pending room ⊢
    omega
  · obtain ⟨few, unread⟩ := idle active
    refine ⟨?_, unread⟩
    simp only [Tracer.pendingWakeups] at pending few ⊢
    omega
  · apply h.behind
    rcases live_wake q with same | more
    · exact same ▸ member
    · rw [more] at member
      rcases Nat.lt_or_ge (live q).length owed with short | long
      · rw [List.drop_eq_nil_of_le (by rw [List.length_append]; exact short)] at member
        cases member
      · rw [List.drop_append_of_le_length long] at member
        exact (wake_mem_iff (by simp) _).mp member
  · intro before later split
    rcases live_wake q with same | more
    · exact h.order before later (same ▸ split)
    · rw [more] at split
      rcases List.eq_nil_or_concat later with rfl | ⟨later, last, rfl⟩
      · rfl
      · rw [List.concat_eq_append, ← List.cons_append, ← List.append_assoc] at split
        obtain ⟨front, back⟩ := List.append_inj' split rfl
        obtain rfl : Message.wakeUpUsnl = last := by simpa using back
        rw [List.concat_eq_append, entries_of_wake]
        exact h.order before later front
  · rintro (none | last)
    · exact h.fits (Or.inl (mt stop_iff.mpr none))
    · simp at last
  · intro none
    rw [entries_of_wake]
    exact h.written (mt stop_iff.mpr none)
  · intro stop off
    rw [entries_of_live_wake]
    exact h.drained (stop_iff.mp stop) off
  · intro stop on
    obtain ⟨one, gone, same⟩ := h.refused (stop_iff.mp stop) on
    refine ⟨one, ?_, same⟩
    rw [live_append_of_mem (stop_iff.mp stop)]
    exact gone

theorem waiting_woken {k k' : Tracer} {log : Log} {q file : List Message} (w : Woken k k')
    (h : Waiting k log q file) : Waiting k' log (q ++ [.wakeUpUsnl]) file := by
  have pending := w.pending
  have room := h.room
  have size : (q ++ [Message.wakeUpUsnl]).length = q.length + 1 := by simp
  rw [w.rest]
  refine ⟨?_, fun active => ?_, (entries_of_wake q).trans h.entries, ?_, h.unread, h.source, h.written⟩
  · simp only [Tracer.pendingWakeups] at pending room ⊢
    omega
  · have few := h.idle active
    simp only [Tracer.pendingWakeups] at pending few ⊢
    omega
  · intro m member
    cases q with
    | nil => simp at member
    | cons first rest =>
      rcases List.mem_append.mp member with old | new
      · exact h.wakeups m old
      · simpa using new

theorem phase_woken {k k' : Tracer} {log : Log} {u : Usnl} (w : Woken k k') (started : u.pc ≠ .start)
    (h : Phase k log u) : Phase k' log (u.push .wakeUpUsnl) := by
  unfold Phase at h ⊢
  simp only [Usnl.push, lines] at h ⊢
  split at h
  · rename_i here
    exact absurd here started
  · exact asking_woken w h
  · exact asking_woken w h
  · have room := h.room
    have pending := w.pending
    have size : (u.queue ++ [Message.wakeUpUsnl]).length = u.queue.length + 1 := by simp
    refine ⟨?_, by rw [w.rest]; exact h.inactive, (entries_of_wake _).trans h.entries,
      by rw [w.rest]; exact h.written⟩
    rw [w.rest]
    simp only [Tracer.pendingWakeups] at pending room ⊢
    omega
  · exact waiting_woken w h
  · rw [w.rest]
    exact ⟨h.drained, h.refused⟩
  · rw [w.rest]
    exact ⟨h.inactive, h.empty, h.written⟩

theorem stop_queued {k : Tracer} {log : Log} {q file : List Message} {count : Nat}
    (h : Asking k log q file count 0) (stop : .stopTracing ∈ q) :
    k.tracingActive = false ∧ log.activeAtStop = false := by
  have size : 1 ≤ q.length := List.length_pos_of_mem stop
  constructor
  · by_contra on
    have few := (h.idle (by simpa using on)).1
    omega
  · by_contra on
    have owed := (h.refused stop (by simpa using on)).1
    omega

/-- A reply queued behind an unread STOP_TRACING is never looked at. -/
theorem asking_reply_after_stop {k k' : Tracer} {log log' : Log} {q file : List Message} {m : Message}
    {count : Nat} (h : Asking k log q file count 0) (stop : .stopTracing ∈ q)
    (ended : log'.ended = log.ended) (flag : log'.activeAtStop = false)
    (pending : k'.pendingWakeups = k.pendingWakeups) (bit : k'.taskletScheduled = k.taskletScheduled)
    (active : k'.tracingActive = k.tracingActive) (recorded : k'.recorded = k.recorded)
    (settled : Settled k → Settled k') (cursor : m = .stopTracing → k'.lastread = k.lastread) :
    Asking k' log' (q ++ [m]) file count 1 := by
  have room := h.room
  have size : 1 ≤ q.length := List.length_pos_of_mem stop
  have sum : (q ++ [m]).length = q.length + 1 := by simp
  obtain ⟨off, before⟩ := stop_queued h stop
  have still : .stopTracing ∈ q ++ [m] := List.mem_append_left _ stop
  have base : log'.base = log.base := by rw [Log.base, ended, Log.base]
  have same : live (q ++ [m]) = live q := live_append_of_mem stop _
  refine ⟨by rw [pending, bit]; omega, by omega, fun on => by simp [active, off] at on, ?_, ?_, ?_, ?_,
    fun _ none => absurd still none, by rw [base]; exact h.lines, ?_, fun none => absurd still none,
    ?_, fun _ on => by simp [flag] at on⟩
  · rw [same]
    exact fun member => settled (h.beforeStop (List.mem_of_mem_drop member) stop)
  · rw [same]
    exact fun member some_read => settled (h.counted member some_read)
  · rw [same]
    exact fun member _ => settled (h.beforeStop member stop)
  · rw [same]
    exact h.order
  · rintro (none | last)
    · exact absurd still none
    · obtain rfl : m = .stopTracing := by simpa using last
      rw [cursor rfl, recorded]
      apply h.fits
      have one : q.length = 1 := by
        have := Bool.toNat_le k.taskletScheduled
        omega
      obtain ⟨x, rfl⟩ := List.length_eq_one_iff.mp one
      exact Or.inr (by simpa using (List.mem_singleton.mp stop).symm)
  · intro _ _
    rw [active, recorded, base, same]
    exact h.drained stop before

theorem asking_stop_reply {k : Tracer} {log log' : Log} {q file : List Message} {count : Nat}
    (h : Asking k log q file count 0) (none : .stopTracing ∉ q) (ended : log'.ended = log.ended)
    (flag : log'.activeAtStop = k.tracingActive) (all : k.recorded.length ≤ k.lastread) :
    Asking { k with stopTracingRequested := false } log' (q ++ [.stopTracing]) file count 1 := by
  have sum : (q ++ [Message.stopTracing]).length = q.length + 1 := by simp
  have room := h.room
  have idle := h.idle
  have base : log'.base = log.base := by rw [Log.base, ended, Log.base]
  have still : .stopTracing ∈ q ++ [.stopTracing] := by simp
  have same : live (q ++ [.stopTracing]) = q := by
    rw [live_append none]
    simp [live]
  have settled : .endOfData ∈ q → Settled k := fun member =>
    h.behind (by rw [live_of_not_mem none]; exact member)
  have unread := h.written none
  refine ⟨?_, by omega, fun on => ?_, ?_, ?_, ?_, ?_,
    fun _ no => absurd still no, by rw [base]; exact h.lines, fun _ => h.fits (Or.inl none),
    fun no => absurd still no, fun _ off => ?_, fun _ on => ?_⟩
  · simp only [Tracer.pendingWakeups] at room ⊢
    omega
  · obtain ⟨few, cursor⟩ := idle on
    refine ⟨?_, cursor⟩
    simp only [Tracer.pendingWakeups] at few ⊢
    omega
  · rw [same]
    exact fun member => settled (List.mem_of_mem_drop member)
  · rw [same]
    exact fun member _ => settled member
  · rw [same]
    exact fun member _ => settled member
  · rw [same]
    exact live_of_not_mem none ▸ h.order
  · rw [flag] at off
    rw [same, base, unread, List.take_of_length_le all]
    exact ⟨off, rfl⟩
  · rw [flag] at on
    obtain ⟨few, cursor⟩ := idle on
    obtain rfl : q = [] := List.length_eq_zero_iff.mp (by omega)
    refine ⟨rfl, by simp [live], ?_⟩
    simpa [cursor, base, entriesOf] using unread

/-- END_OF_DATA with a message before it in the queue, or after lines were counted, means
    that the buffer is settled. -/
theorem asking_eod_reply {k : Tracer} {log : Log} {q file : List Message} {count : Nat}
    (h : Asking k log q file count 0) (none : .stopTracing ∉ q)
    (unread : k.stopTracingRequested = true → k.lastread < k.recorded.length)
    (ending : k.tracingActive = true ∨ k.availEntries ≤ k.lastread) :
    Asking k log (q ++ [.endOfData]) file count 1 := by
  have sum : (q ++ [Message.endOfData]).length = q.length + 1 := by simp
  have room := h.room
  have idle := h.idle
  have no : .stopTracing ∉ q ++ [.endOfData] := by simpa using none
  have same := live_of_not_mem no
  have before := live_of_not_mem none
  have settled : k.tracingActive = false → Settled k := by
    intro off
    have full : k.availEntries ≤ k.lastread := by simpa [off] using ending
    refine ⟨full, (h.source off none).resolve_right fun requested => ?_⟩
    have := unread requested
    have := recorded_length k
    omega
  have old : .endOfData ∈ q → Settled k := fun member => h.behind (by rw [before]; exact member)
  refine ⟨by omega, by omega, fun on => ?_, ?_, ?_, fun _ stop => absurd stop no, ?_,
    fun off _ => h.source off none, h.lines, fun _ => h.fits (Or.inl none), fun _ => ?_,
    fun stop => absurd stop no, fun stop => absurd stop no⟩
  · obtain ⟨few, cursor⟩ := idle on
    exact ⟨by omega, cursor⟩
  · rw [same]
    intro member
    cases q with
    | nil => simp at member
    | cons first rest =>
      apply settled
      by_contra on
      have few := (idle (by simpa using on)).1
      simp only [List.length_cons] at few
      omega
  · intro _ counted
    apply settled
    by_contra on
    have cursor := (idle (by simpa using on)).2
    have written := congrArg List.length (h.written none)
    have lines := h.lines
    simp only [List.length_append, List.length_map, cursor, List.take_zero, List.length_nil] at written
    omega
  · rw [same]
    intro front later split
    rcases List.eq_nil_or_concat later with rfl | ⟨later, last, rfl⟩
    · rfl
    · rw [List.concat_eq_append, ← List.cons_append, ← List.append_assoc] at split
      obtain ⟨inside, back⟩ := List.append_inj' split rfl
      obtain rfl : Message.endOfData = last := by simpa using back
      rw [List.concat_eq_append, entries_of_append, h.order front later (before.trans inside)]
      rfl
  · rw [entries_of_append]
    simpa [entriesOf, Message.isEntry] using h.written none

theorem asking_entry_reply {k : Tracer} {log : Log} {q file : List Message} {count : Nat}
    (h : Asking k log q file count 0) (none : .stopTracing ∉ q)
    (unread : k.stopTracingRequested = true → k.lastread < k.recorded.length)
    (off : k.tracingActive = false) (more : k.lastread < k.availEntries) :
    Asking { k with lastread := k.lastread + 1 } log (q ++ [.entry (k.entries k.lastread)]) file
      count 1 := by
  have length := recorded_length k
  have below : k.lastread < k.recorded.length := by
    rcases h.source off none with full | requested
    · omega
    · exact unread requested
  have slot : k.recorded[k.lastread] = k.entries k.lastread := by simp [Tracer.recorded]
  have sum : (q ++ [Message.entry (k.entries k.lastread)]).length = q.length + 1 := by simp
  have no : .stopTracing ∉ q ++ [.entry (k.entries k.lastread)] := by simpa using none
  have same := live_of_not_mem no
  have free : .endOfData ∉ q ++ [.entry (k.entries k.lastread)] := by
    intro member
    have old : .endOfData ∈ q := by simpa using member
    have settled := (h.behind (by rw [live_of_not_mem none]; exact old)).1
    omega
  have room := h.room
  refine ⟨?_, by omega, fun on => by simp [off] at on, ?_, fun member => absurd (mem_of_live member) free,
    fun member => absurd (mem_of_live member) free, ?_, fun _ _ => h.source off none, h.lines,
    fun _ => below, fun _ => ?_, fun stop => absurd stop no, fun stop => absurd stop no⟩
  · simp only [Tracer.pendingWakeups] at room ⊢
    omega
  · exact fun member => absurd (mem_of_live (List.mem_of_mem_drop member)) free
  · intro front later split
    rw [same] at split
    exact absurd (split ▸ by simp) free
  · have written := h.written none
    have recorded : Tracer.recorded { k with lastread := k.lastread + 1 } = k.recorded := rfl
    rw [recorded, entries_of_append, ← List.append_assoc, written, List.take_add_one,
      List.getElem?_eq_getElem below, slot]
    simp [entriesOf, Message.isEntry]

theorem asking_request {k : Tracer} {log log' : Log} {q file : List Message} {count : Nat}
    (h : Asking k log q file count 0) (ended : log'.ended = log.ended)
    (flag : log'.activeAtStop =
      if (requestEntry k).2 = .stopTracing then k.tracingActive else log.activeAtStop) :
    Asking (requestEntry k).1 log' (q ++ [(requestEntry k).2]) file count 1 := by
  by_cases stop : .stopTracing ∈ q
  · obtain ⟨off, before⟩ := stop_queued h stop
    have clear : log'.activeAtStop = false := by rw [flag, off, before, ite_self]
    rcases request_entry_cases k with ⟨_, _, eq⟩ | ⟨_, _, eq⟩ | ⟨_, _, _, eq⟩
    · rw [eq]
      exact asking_reply_after_stop h stop ended clear rfl rfl rfl rfl id fun _ => rfl
    · rw [eq]
      exact asking_reply_after_stop h stop ended clear rfl rfl rfl rfl id fun _ => rfl
    · rw [eq]
      exact asking_reply_after_stop h stop ended clear rfl rfl rfl rfl
        (fun settled => ⟨Nat.le_succ_of_le settled.1, settled.2⟩) fun other => by simp at other
  · rcases request_entry_cases k with ⟨_, all, eq⟩ | ⟨unread, ending, eq⟩ | ⟨unread, off, more, eq⟩
    · rw [eq] at flag ⊢
      exact asking_stop_reply h stop ended flag all
    · rw [eq] at flag ⊢
      obtain rfl : log' = log := by
        cases log
        cases log'
        simp_all
      exact asking_eod_reply h stop unread ending
    · rw [eq] at flag ⊢
      obtain rfl : log' = log := by
        cases log
        cases log'
        simp_all
      exact asking_entry_reply h stop unread off more

section Replies
variable {k : Tracer} {log : Log} {rest file : List Message} {count : Nat}

theorem taken_stop (h : Asking k log (.stopTracing :: rest) file count 1) : Stopping k log file := by
  have gone : live (.stopTracing :: rest) = [] := by simp [live]
  refine ⟨fun off => ?_, fun on => (h.refused (List.mem_cons_self ..) on).2.2⟩
  have := h.drained (List.mem_cons_self ..) off
  rw [gone] at this
  simpa [entriesOf] using this

theorem taken_other {m : Message} {file' : List Message} {count' : Nat} (other : m ≠ .stopTracing)
    (h : Asking k log (m :: rest) file count 1)
    (added : file' = file ++ entriesOf [m]) (more : count' = count + (entriesOf [m]).length) :
    Asking k log rest file' count' 0 := by
  have room := h.room
  have idle := h.idle
  have stop_iff : .stopTracing ∈ m :: rest ↔ .stopTracing ∈ rest := by simp [Ne.symm other]
  have first := live_cons other rest
  have entries : ∀ q, entriesOf (m :: q) = entriesOf [m] ++ entriesOf q := fun q =>
    entries_of_append [m] q
  have settled : .endOfData ∈ live rest → Settled k := fun member =>
    h.behind (by rw [first]; exact member)
  have lines := h.lines
  simp only [List.length_cons] at room idle
  subst added more
  refine ⟨by omega, Nat.zero_le _, fun on => ⟨by have := (idle on).1; omega, (idle on).2⟩, settled,
    fun member _ => settled member, fun member _ => settled member, fun before later split => ?_,
    fun off none => h.source off (mt stop_iff.mp none), ?_, fun last => h.fits ?_, fun none => ?_,
    fun stop off => ?_, fun stop on => ?_⟩
  · exact h.order (m :: before) later (by rw [first, split]; rfl)
  · rw [List.length_append]
    omega
  · rcases last with none | last
    · exact Or.inl (mt stop_iff.mp none)
    · right
      cases rest with
      | nil => simp at last
      | cons _ _ => simpa using last
  · rw [List.append_assoc, ← entries, h.written (mt stop_iff.mp none)]
  · obtain ⟨inactive, all⟩ := h.drained (stop_iff.mpr stop) off
    rw [first, entries] at all
    exact ⟨inactive, by rw [List.append_assoc, all]⟩
  · have := (h.refused (stop_iff.mpr stop) on).2.1
    simp [first] at this

theorem eod_rest (h : Asking k log (.endOfData :: rest) file count 1) :
    rest.length + k.pendingWakeups ≤ k.taskletScheduled.toNat ∧ entriesOf rest = [] ∧
      entriesOf (live rest) = [] := by
  have room := h.room
  have bit := Bool.toNat_le k.taskletScheduled
  have first := live_cons (m := .endOfData) (by simp) rest
  have later := h.order [] (live rest) first
  simp only [List.length_cons] at room
  refine ⟨by omega, ?_, later⟩
  match rest, later with
  | [], _ => rfl
  | [x], later =>
    by_cases stop : x = .stopTracing
    · simp [stop, entriesOf, Message.isEntry]
    · rwa [live_cons stop] at later
  | _ :: _ :: _, _ =>
    simp only [List.length_cons] at room
    omega

theorem taken_eod_counted (h : Asking k log (.endOfData :: rest) file count 1) (counted : count ≠ 0) :
    Syncing k log rest file := by
  obtain ⟨room, entries, later⟩ := eod_rest h
  have first := live_cons (m := .endOfData) (by simp) rest
  have settled : Settled k := h.counted (by rw [first]; simp) counted
  have lines := h.lines
  have idle := h.idle
  have inactive : k.tracingActive = false := by
    by_contra on
    obtain ⟨few, cursor⟩ := idle (by simpa using on)
    simp only [List.length_cons] at few
    obtain rfl : rest = [] := List.length_eq_zero_iff.mp (by omega)
    have written := congrArg List.length (h.written (by simp))
    simp only [List.length_append, List.length_map, cursor, List.take_zero, List.length_nil] at written
    omega
  refine ⟨room, inactive, entries, ?_⟩
  by_cases stop : .stopTracing ∈ .endOfData :: rest
  · by_cases off : log.activeAtStop = false
    · have := (h.drained stop off).2
      rw [first] at this
      simpa [entriesOf, Message.isEntry, show (live rest).filter Message.isEntry = [] from later] using this
    · have := (h.refused stop (by simpa using off)).2.1
      simp [first] at this
  · have written := h.written stop
    have length := recorded_length k
    have all : k.recorded.length ≤ k.lastread := by
      have := settled.1
      omega
    rw [List.take_of_length_le all] at written
    simpa [entriesOf, Message.isEntry, show rest.filter Message.isEntry = [] from entries] using written

theorem taken_eod_empty (h : Asking k log (.endOfData :: rest) file 0 1) : Waiting k log rest file := by
  obtain ⟨room, entries, later⟩ := eod_rest h
  have bit := Bool.toNat_le k.taskletScheduled
  have first := live_cons (m := .endOfData) (by simp) rest
  have mark : .endOfData ∈ live (.endOfData :: rest) := by rw [first]; simp
  have lines := h.lines
  have read_zero : k.lastread = 0 ∧ file = log.base.map .entry := by
    by_cases stop : .stopTracing ∈ .endOfData :: rest
    · have off : log.activeAtStop = false := by
        by_contra on
        have := (h.refused stop (by simpa using on)).2.1
        simp [first] at this
      have all := (h.drained stop off).2
      have none : entriesOf (.endOfData :: live rest) = [] := by
        simpa [entriesOf, Message.isEntry] using later
      rw [first, none, List.append_nil] at all
      have size := congrArg List.length all
      simp only [List.length_map, List.length_append] at size
      have empty : k.recorded = [] := List.length_eq_zero_iff.mp (by omega)
      have last : (Message.endOfData :: rest).getLast? = some .stopTracing := by
        have behind : .stopTracing ∈ rest := by simpa using stop
        have one : rest.length = 1 := by
          have := List.length_pos_of_mem behind
          omega
        obtain ⟨x, rfl⟩ := List.length_eq_one_iff.mp one
        simpa using (List.mem_singleton.mp behind).symm
      have fits := h.fits (Or.inr last)
      rw [empty] at fits all
      exact ⟨Nat.le_zero.mp fits, by simpa using all⟩
    · have written := h.written stop
      have fits := h.fits (Or.inl stop)
      have none : entriesOf (.endOfData :: rest) = [] := by
        simpa [entriesOf, Message.isEntry] using entries
      rw [none, List.append_nil] at written
      have size := congrArg List.length written
      simp only [List.length_map, List.length_append, List.length_take] at size
      have zero : k.lastread = 0 := by omega
      exact ⟨zero, by simpa [zero] using written⟩
  refine ⟨by omega, fun _ => by omega, entries, ?_, read_zero.1, fun off => ?_, read_zero.2⟩
  · intro m member
    have := List.length_pos_of_mem member
    simp only [List.length_tail] at this
    omega
  · by_cases stop : .stopTracing ∈ .endOfData :: rest
    · exact Or.inl (h.beforeStop mark stop).2
    · exact h.source off stop

theorem taken_wait {m : Message} (h : Waiting k log (m :: rest) file) :
    Asking k log rest file 0 0 := by
  have room := h.room
  have idle := h.idle
  have wakeups := h.wakeups
  simp only [List.length_cons, List.tail_cons] at room idle wakeups
  have none : .stopTracing ∉ rest := fun stop => by simpa using wakeups _ stop
  have unmarked : .endOfData ∉ rest := fun mark => by simpa using wakeups _ mark
  have same := live_of_not_mem none
  have entries : entriesOf rest = [] := by
    apply List.filter_eq_nil_iff.mpr
    intro x member
    simp [wakeups x member, Message.isEntry]
  refine ⟨by omega, Nat.zero_le _, fun on => ⟨by have := idle on; omega, h.unread⟩, ?_, ?_, ?_, ?_,
    fun off _ => h.source off, by simp [h.written], fun _ => by simp [h.unread], fun _ => ?_,
    fun stop => absurd stop none, fun stop => absurd stop none⟩
  · exact fun member => absurd (mem_of_live (List.mem_of_mem_drop member)) unmarked
  · exact fun member => absurd (mem_of_live member) unmarked
  · exact fun member => absurd (mem_of_live member) unmarked
  · intro before later split
    exact absurd (same ▸ split ▸ by simp) unmarked
  · simp [entries, h.written, h.unread]

end Replies

structure Opened (k : Tracer) : Prop where
  unread : k.lastread = 0
  room : k.pendingWakeups ≤ k.taskletScheduled.toNat
  idle : k.tracingActive = true → k.pendingWakeups = 0
  full : k.tracingActive = false → k.availEntries < k.lastentry

theorem opened_trace_entry (k : Tracer) (e : Sepentry) (h : Opened k) : Opened (traceEntry k e) := by
  have room := h.room
  rcases trace_entry_cases k e with ⟨_, eq⟩ | ⟨_, _, eq⟩ | ⟨_, full, eq⟩
  · rw [eq]
    exact h
  · rw [eq]
    exact ⟨h.unread, h.room, h.idle, fun off => Nat.lt_succ_of_lt (h.full off)⟩
  · rw [eq]
    refine ⟨h.unread, ?_, fun on => by simp at on, fun _ => Nat.lt_succ_of_le full⟩
    simp only [Tracer.pendingWakeups] at room ⊢
    cases bit : k.taskletScheduled <;> simp [bit] at room ⊢ <;> omega

theorem opened_trace_ids (k : Tracer) (ids : IdContext) (h : Opened k) : Opened (traceIDs k ids) :=
  List.foldlRecOn _ _ h fun l hl e _ => opened_trace_entry l e hl

theorem asking_opened {k : Tracer} {log : Log} (h : Opened k) (ended : log.ended = []) :
    Asking k log [] [] 0 0 := by
  have room := h.room
  have unmarked : ∀ m, m ∉ live [] := fun m => by simp [live]
  refine ⟨by simpa using room, Nat.zero_le _, fun on => ⟨by simp [h.idle on], h.unread⟩, ?_, ?_, ?_, ?_,
    fun off _ => Or.inl (h.full off), by simp [Log.base, ended], fun _ => by simp [h.unread], fun _ => ?_,
    fun stop => by simp at stop, fun stop => by simp at stop⟩
  · exact fun member => absurd (List.mem_of_mem_drop member) (unmarked _)
  · exact fun member => absurd member (unmarked _)
  · exact fun member => absurd member (unmarked _)
  · intro before later split
    simp [live] at split
  · simp [entriesOf, Log.base, ended, h.unread]

theorem inv_nudged {l : Logged} {k : Tracer} (h : Inv l) (n : Nudged l.sys.tracer k)
    (quiet : Quiet l.sys.tracer l.log → Quiet k l.log) : Inv ⟨⟨k, l.sys.usnl⟩, l.log⟩ := by
  refine ⟨fun none => quiet (h.absent none), fun u running => ?_, h.accounted⟩
  have old := h.session u running
  refine ⟨old.positive, old.srvaddr, old.totcount, fun started => n.usPid.trans (old.addressed started), ?_⟩
  by_cases here : u.pc = .start
  · have phase := old.phase
    simp only [Phase, here] at phase ⊢
    exact ⟨quiet phase.1, phase.2⟩
  · exact phase_nudged n here old.phase

theorem quiet_trace_entry {k : Tracer} {log : Log} {e : Sepentry}
    (probe : e.type.code < SepentryType.startids.code) (h : Quiet k log) :
    Quiet (traceEntry k e) log := by
  have ignored : k.ignores e = true := by simp [Tracer.ignores, h.inactive, probe]
  rw [traceEntry, if_pos ignored]
  exact h

theorem quiet_stop_tracing {k : Tracer} {log : Log} (h : Quiet k log) : Quiet (stopTracing k) log where
  inactive := rfl
  empty := h.empty
  unread := h.unread
  unknown := h.unknown
  calls := h.calls
  tasklets := by simp [stopTracing, h.unknown, h.tasklets]
  ended := h.ended

theorem started_of_pending {l : Logged} (h : Inv l) (pending : l.sys.tracer.pendingWakeups ≠ 0) :
    ∃ u, l.sys.usnl = some u ∧ u.pc ≠ .start ∧ l.sys.tracer.usPid ≠ 0 := by
  have busy : ¬ Quiet l.sys.tracer l.log := fun quiet => by
    simp [Tracer.pendingWakeups, quiet.calls, quiet.tasklets] at pending
  cases running : l.sys.usnl with
  | none => exact absurd (h.absent running) busy
  | some u =>
    have old := h.session u running
    have started : u.pc ≠ .start := fun here => by
      have phase := old.phase
      simp only [Phase, here] at phase
      exact busy phase.1
    exact ⟨u, rfl, started, old.addressed started ▸ old.positive⟩

theorem inv_awake {l : Logged} {k : Tracer} (h : Inv l) (w : Woken l.sys.tracer k) :
    Inv ⟨awakeUsnl ⟨k, l.sys.usnl⟩, l.log⟩ := by
  have pending := w.pending
  have usPid : k.usPid = l.sys.tracer.usPid := by rw [w.rest]
  obtain ⟨u, running, started, _⟩ := started_of_pending h (by omega)
  have old := h.session u running
  simp only [awakeUsnl, System.sendToUserspace, running, Option.map_some, usPid,
    old.addressed started, true_and]
  refine ⟨fun none => by simp at none, fun v member => ?_, h.accounted⟩
  obtain rfl := Option.some.inj member
  have woken := phase_woken w started old.phase
  by_cases gone : u.pc = .done
  · rw [if_neg (not_not_intro gone)]
    refine ⟨old.positive, old.srvaddr, old.totcount, fun _ => usPid.trans (old.addressed started), ?_⟩
    simp only [Phase, Usnl.push, gone, lines] at woken ⊢
    exact woken
  · rw [if_pos gone]
    exact ⟨old.positive, old.srvaddr, old.totcount, fun _ => usPid.trans (old.addressed started), woken⟩

theorem inv_process {k : Tracer} {log : Log} {u : Usnl} (session : Session k log u)
    (accounted : Accounted log.ended) : Inv ⟨⟨k, some u⟩, log⟩ where
  absent none := by simp at none
  session v member := Option.some.inj member ▸ session
  accounted := accounted

theorem inv_start {l : Logged} {u : Usnl} (ids : IdContext) (h : Inv l) (running : l.sys.usnl = some u)
    (here : u.pc = .start) :
    Inv ⟨sendCommand l.sys u .startTracing .request ids, l.log⟩ := by
  have old := h.session u running
  have phase := old.phase
  simp only [Phase, here] at phase
  obtain ⟨quiet, empty, file, count⟩ := phase
  have first : Opened (opened l.sys.tracer u.pid) :=
    ⟨quiet.unread, by simp [opened, Tracer.pendingWakeups, quiet.calls, quiet.tasklets],
      fun _ => by simp [opened, Tracer.pendingWakeups, quiet.calls, quiet.tasklets],
      fun off => by simp [opened] at off⟩
  have now := opened_trace_ids _ ids first
  have pid := (trace_ids_keeps (opened l.sys.tracer u.pid) ids).2.1
  rw [send_start]
  generalize traceIDs (opened l.sys.tracer u.pid) ids = k at now pid
  refine inv_process ⟨old.positive, old.srvaddr, old.totcount, fun _ => pid, ?_⟩ h.accounted
  have asking : Asking k l.log [] [] 0 0 := asking_opened now quiet.ended
  simp only [Phase, lines] at file ⊢
  rwa [empty, file, count]

theorem inv_request {l : Logged} {u : Usnl} (ids : IdContext) (h : Inv l) (running : l.sys.usnl = some u)
    (here : u.pc = .request) :
    Inv ⟨sendCommand l.sys u .requestEntry .reply ids, l.log.observe l.sys.tracer u⟩ := by
  have old := h.session u running
  have addressed := old.addressed (by simp [here])
  have phase := old.phase
  simp only [Phase, here] at phase
  have ended : (l.log.observe l.sys.tracer u).ended = l.log.ended := by
    simp only [Log.observe, here]
    split <;> rfl
  have flag : (l.log.observe l.sys.tracer u).activeAtStop =
      if (requestEntry l.sys.tracer).2 = .stopTracing then l.sys.tracer.tracingActive
      else l.log.activeAtStop := by
    simp only [Log.observe, here, old.totcount, TO_OBTAIN]
    split <;> simp_all
  have usPid : (requestEntry l.sys.tracer).1.usPid = l.sys.tracer.usPid := by
    rcases request_entry_cases l.sys.tracer with ⟨_, _, eq⟩ | ⟨_, _, eq⟩ | ⟨_, _, _, eq⟩ <;> rw [eq]
  rw [send_request l.sys u ids addressed]
  refine inv_process ⟨old.positive, old.srvaddr, old.totcount, fun _ => usPid.trans addressed, ?_⟩
    (ended ▸ h.accounted)
  exact asking_request phase ended flag

theorem inv_reply {l : Logged} {u : Usnl} {m : Message} {rest : List Message} (h : Inv l)
    (running : l.sys.usnl = some u) (here : u.pc = .reply) (queued : u.queue = m :: rest) :
    Inv ⟨⟨l.sys.tracer, some ((u.taking rest).readReply m)⟩, l.log⟩ := by
  have old := h.session u running
  have addressed := old.addressed (by simp [here])
  have phase := old.phase
  simp only [Phase, here, queued] at phase
  refine inv_process ?_ h.accounted
  cases m with
  | stopTracing =>
    rw [read_reply_stop]
    exact ⟨old.positive, old.srvaddr, old.totcount, fun _ => addressed, taken_stop phase⟩
  | wakeUpUsnl =>
    rw [read_reply_wake]
    refine ⟨old.positive, old.srvaddr, old.totcount, fun _ => addressed, ?_⟩
    exact taken_other (by simp) phase (List.append_nil _).symm rfl
  | endOfData =>
    have file : lines { u.taking rest with file := u.file ++ [.eod] } = lines u := by
      simp [lines, FileLine.message]
    rw [read_reply_eod]
    by_cases counted : u.curcount = 0
    · rw [if_neg (not_not_intro (show (u.taking rest).curcount = 0 from counted))]
      refine ⟨old.positive, old.srvaddr, old.totcount, fun _ => addressed, ?_⟩
      rw [counted, ← file] at phase
      exact taken_eod_empty phase
    · rw [if_pos (show (u.taking rest).curcount ≠ 0 from counted)]
      refine ⟨old.positive, old.srvaddr, old.totcount, fun _ => addressed, ?_⟩
      rw [← file] at phase
      exact taken_eod_counted phase counted
  | entry e =>
    rw [read_reply_entry]
    have w := write_line_written (u.taking rest) (.entry e)
    have stays : ((u.taking rest).writeLine (.entry e)).pc = .request := by
      refine w.pc.resolve_right fun leaves => ?_
      rcases leaves.2 with service | enough
      · exact service old.srvaddr
      · have none : (u.taking rest).totcount = 0 := old.totcount
        simp [none, TO_OBTAIN] at enough
    refine ⟨w.pid ▸ old.positive, w.srvaddr.trans old.srvaddr, w.totcount.trans old.totcount,
      fun _ => addressed.trans w.pid.symm, ?_⟩
    have file : lines ((u.taking rest).writeLine (.entry e)) = lines u ++ [.entry e] := by
      rw [lines, w.file]
      simp [lines, Usnl.taking, FileLine.message]
    simp only [Phase, stays, file, w.queue, w.curcount]
    exact taken_other (by simp) phase rfl rfl

theorem inv_wait {l : Logged} {u : Usnl} {m : Message} {rest : List Message} (h : Inv l)
    (running : l.sys.usnl = some u) (here : u.pc = .wait) (queued : u.queue = m :: rest) :
    Inv ⟨⟨l.sys.tracer, some (u.awakened rest)⟩, l.log⟩ := by
  have old := h.session u running
  have phase := old.phase
  simp only [Phase, here, queued] at phase
  exact inv_process ⟨old.positive, old.srvaddr, old.totcount,
    fun _ => old.addressed (by simp [here]), taken_wait phase⟩ h.accounted

theorem base_close (log : Log) (k : Tracer) (u : Usnl) (bySync activeAtStop : Bool) :
    (log.close k u bySync activeAtStop).base = log.base ++ k.recorded := by
  simp [Log.base, Log.close]

theorem accounted_close {log : Log} {k : Tracer} (u : Usnl) (bySync activeAtStop : Bool)
    (old : Accounted log.ended)
    (new : bySync = true ∨ activeAtStop = false → lines u = (log.base ++ k.recorded).map .entry) :
    Accounted (log.close k u bySync activeAtStop).ended := by
  refine accounted_append old fun complete => ?_
  rw [List.flatMap_append]
  simpa [Log.base] using new complete

theorem inv_sync {l : Logged} {u : Usnl} (ids : IdContext) (h : Inv l) (running : l.sys.usnl = some u)
    (here : u.pc = .sync) :
    Inv ⟨sendCommand l.sys u .syncComplete .wait ids, l.log.observe l.sys.tracer u⟩ := by
  have old := h.session u running
  have phase := old.phase
  simp only [Phase, here] at phase
  have room := phase.room
  have bit := Bool.toNat_le l.sys.tracer.taskletScheduled
  have accounted := accounted_close u true false h.accounted fun _ => phase.written
  have log : l.log.observe l.sys.tracer u = l.log.close l.sys.tracer u true false := by
    simp [Log.observe, here, phase.inactive]
  rw [send_sync l.sys u ids phase.inactive, log]
  refine inv_process ⟨old.positive, old.srvaddr, old.totcount, fun _ => rfl, ?_⟩ accounted
  refine ⟨?_, fun _ => ?_, phase.entries, fun m member => ?_, rfl, fun off => by simp at off, ?_⟩
  · simp only [Tracer.pendingWakeups] at room ⊢
    simp only [Bool.toNat_false]
    omega
  · simp only [Tracer.pendingWakeups] at room ⊢
    omega
  · have := List.length_pos_of_mem member
    simp only [List.length_tail] at this
    omega
  · rw [base_close]
    exact phase.written

theorem inv_stop {l : Logged} {u : Usnl} (ids : IdContext) (h : Inv l) (running : l.sys.usnl = some u)
    (here : u.pc = .stop) :
    Inv ⟨sendCommand l.sys u .stopTracing .done ids, l.log.observe l.sys.tracer u⟩ := by
  have old := h.session u running
  have phase := old.phase
  simp only [Phase, here] at phase
  have accounted := accounted_close u false l.log.activeAtStop h.accounted fun complete =>
    (phase.drained (by simpa using complete)).2
  simp only [sendCommand, nlRcvFunc, Log.observe, here]
  refine inv_process ⟨old.positive, old.srvaddr, old.totcount, fun _ => rfl, rfl, rfl, ?_⟩ accounted
  rw [base_close, List.map_append]
  by_cases off : l.log.activeAtStop = false
  · have all := (phase.drained off).2
    rw [List.map_append] at all
    exact all ▸ List.prefix_rfl
  · exact phase.refused (by simpa using off) ▸ List.prefix_append _ _

theorem inv_step (l : Logged) (a : Act) (l' : Logged) (h : Inv l) (guard : OneSession l a)
    (taken : l.step a = some l') : Inv l' := by
  simp only [Logged.step, Option.map_eq_some_iff] at taken
  obtain ⟨t, stepped, rfl⟩ := taken
  have quiet_log : ∀ ids u, a = .usnl ids → l.sys.usnl = some u →
      l.observe a = l.log.observe l.sys.tracer u := by
    rintro ids u rfl running
    simp only [Logged.observe, running]
  cases step_transition stepped with
  | traceEntry e probe => exact inv_nudged h (nudged_trace_entry _ e probe) (quiet_trace_entry probe)
  | stopTracing => exact inv_nudged h (nudged_stop_tracing _) quiet_stop_tracing
  | call pending =>
    obtain ⟨_, _, _, known⟩ := started_of_pending h (by simp only [Tracer.pendingWakeups]; omega)
    rw [scheduleUsnl, if_neg known]
    exact inv_awake h ⟨by simp only [Tracer.pendingWakeups]; omega, rfl⟩
  | tasklet pending => exact inv_awake h ⟨by simp only [Tracer.pendingWakeups]; omega, rfl⟩
  | spawn pid srvaddr toobtain positive free =>
    have none : l.sys.usnl = none := Option.isNone_iff_eq_none.mp guard.1
    exact inv_process ⟨positive, guard.2, rfl, fun started => absurd rfl started,
      h.absent none, rfl, rfl, rfl⟩ h.accounted
  | kill u running => exact guard.elim
  | start ids u running here =>
    have same : l.observe (.usnl ids) = l.log := by simp [Logged.observe, running, Log.observe, here]
    rw [same]
    exact inv_start ids h running here
  | request ids u running here more => exact quiet_log ids u rfl running ▸ inv_request ids h running here
  | enough ids u running here all =>
    have none := (h.session u running).totcount
    simp [none, TO_OBTAIN] at all
  | reply ids u m rest running here queued =>
    have same : l.observe (.usnl ids) = l.log := by simp [Logged.observe, running, Log.observe, here]
    rw [same]
    exact inv_reply h running here queued
  | sync ids u running here => exact quiet_log ids u rfl running ▸ inv_sync ids h running here
  | wait ids u m rest running here queued =>
    have same : l.observe (.usnl ids) = l.log := by simp [Logged.observe, running, Log.observe, here]
    rw [same]
    exact inv_wait h running here queued
  | stop ids u running here => exact quiet_log ids u rfl running ▸ inv_stop ids h running here

theorem inv_initial (numEntries : Nat) (memory : Nat → Sepentry) :
    Inv (Logged.initial numEntries memory) where
  absent _ := ⟨rfl, rfl, rfl, rfl, rfl, rfl, rfl⟩
  session u member := by simp [Logged.initial, System.initial] at member
  accounted := by
    intro before g later split
    simp [Logged.initial] at split

theorem asking_prefix {k : Tracer} {log : Log} {q file : List Message} {count owed : Nat}
    (h : Asking k log q file count owed) : file <+: (log.base ++ k.recorded).map .entry := by
  by_cases stop : .stopTracing ∈ q
  · by_cases off : log.activeAtStop = false
    · exact (h.drained stop off).2 ▸ List.prefix_append _ _
    · rw [(h.refused stop (by simpa using off)).2.2, List.map_append]
      exact List.prefix_append _ _
  · have here : file <+: (log.base ++ k.recorded.take k.lastread).map .entry :=
      h.written stop ▸ List.prefix_append _ _
    refine here.trans (List.IsPrefix.map _ ?_)
    exact (List.prefix_append_right_inj _).mpr (List.take_prefix _ _)

theorem lines_prefix {k : Tracer} {log : Log} {u : Usnl} (h : Phase k log u) :
    lines u <+: (log.base ++ k.recorded).map .entry := by
  have base : log.base.map Message.entry <+: (log.base ++ k.recorded).map .entry :=
    List.IsPrefix.map _ (List.prefix_append _ _)
  unfold Phase at h
  split at h
  · rw [h.2.2.1]
    exact List.nil_prefix
  · exact asking_prefix h
  · exact asking_prefix h
  · exact h.written ▸ List.prefix_rfl
  · exact h.written ▸ base
  · by_cases off : log.activeAtStop = false
    · exact (h.drained off).2 ▸ List.prefix_rfl
    · exact h.refused (by simpa using off) ▸ base
  · exact h.written.trans base

/-- Whatever the interleaving, the file holds the entries recorded, generation by
    generation and in slot order, up to some point; and a complete generation was in it
    when the message that ended the generation was sent. -/
theorem no_entry_lost (numEntries : Nat) (memory : Nat → Sepentry) (acts : List Act) (l : Logged)
    (single : Guarded Logged.step OneSession (Logged.initial numEntries memory) acts)
    (finished : run Logged.step (Logged.initial numEntries memory) acts = some l) :
    l.lines <+: l.recorded.map .entry ∧ Accounted l.log.ended := by
  have inv := invariant_of_guarded Inv inv_step (inv_initial numEntries memory) single finished
  refine ⟨?_, inv.accounted⟩
  unfold Logged.lines
  cases running : l.sys.usnl with
  | none => exact List.nil_prefix
  | some u => exact lines_prefix (inv.session u running).phase

def runUsnl (n : Nat) : List Act := List.replicate n (.usnl zeroContext)

def drainedTwice : List Act :=
  .spawn 7 0 0 :: runUsnl 7 ++ .call :: runUsnl 2 ++
    [.traceEntry { zeroEntry with type := .ctxswitch }, .stopTracing] ++ runUsnl 5

set_option maxRecDepth 20000 in
theorem no_entry_lost_drained_twice : ∃ l,
    run Logged.step (Logged.initial 2 fun _ => zeroEntry) drainedTwice = some l ∧
      l.lines.length = 3 ∧ l.log.ended.length = 2 ∧
      l.lines <+: l.recorded.map .entry ∧ Accounted l.log.ended := by
  have ends : (run Logged.step (Logged.initial 2 fun _ => zeroEntry) drainedTwice).map
      (fun l => (l.lines.length, l.log.ended.length)) = some (3, 2) := by decide +kernel
  obtain ⟨l, finished, facts⟩ := Option.map_eq_some_iff.mp ends
  simp only [Prod.mk.injEq] at facts
  exact ⟨l, finished, facts.1, facts.2, no_entry_lost 2 (fun _ => zeroEntry) drainedTwice l
    (by decide +kernel) finished⟩

end UsnlDelivery
