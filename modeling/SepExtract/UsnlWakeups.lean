import SepExtract.UsnlSession

/- No lost wake-up over any sequence of sessions. The argument follows what the reader
   will do with the messages already queued for it: a queue that ends with the reader
   waiting is harmless only while a wake-up is still to come. -/
namespace UsnlWakeups
open TracerKernel UsnlSession TransitionRuns

/-- Where the reader stands once it has taken every queued message: on its way to reset
    the buffer or out of the loop, asking for entries with some already counted, or
    waiting for a wake-up. -/
inductive Outlook where
  | leaving
  | reading (count : Nat)
  | waiting
  deriving DecidableEq, Repr

def Outlook.after : Outlook → Message → Outlook
  | .leaving, _ => .leaving
  | .waiting, _ => .reading 0
  | .reading _, .stopTracing => .leaving
  | .reading 0, .endOfData => .waiting
  | .reading (_ + 1), .endOfData => .leaving
  | .reading n, .wakeUpUsnl => .reading n
  | .reading n, .entry _ => .reading (n + 1)

def outlook (u : Usnl) : Outlook :=
  match u.pc with
  | .request | .reply => .reading u.curcount
  | .wait => .waiting
  | _ => .leaving

def fate (u : Usnl) : Outlook := u.queue.foldl Outlook.after (outlook u)

theorem leaving_after (q : List Message) : q.foldl Outlook.after .leaving = .leaving := by
  induction q with
  | nil => rfl
  | cons m q ih => exact ih

theorem after_wake (o : Outlook) : o.after .wakeUpUsnl ≠ .waiting := by
  cases o <;> simp [Outlook.after]

theorem after_entry (o : Outlook) (e : Sepentry) : o.after (.entry e) ≠ .waiting := by
  cases o <;> simp [Outlook.after]

def Usnl.Running (u : Usnl) : Prop := u.pc ≠ .start ∧ u.pc ≠ .done

structure Promise (k : Tracer) (u : Usnl) : Prop where
  wakeup : fate u = .waiting → 0 < k.pendingWakeups
  reading : 1 ≤ k.lastread → fate u ≠ .waiting
  counted : k.availEntries ≤ k.lastread → fate u = .leaving ∨ ∃ n, fate u = .reading (n + 1)

structure Served (k : Tracer) (u : Usnl) : Prop where
  addressed : k.usPid = u.pid
  flags : k.taskletScheduled = !k.tracingActive
  answered : u.pc = .reply → u.queue ≠ []
  promise : k.taskletScheduled = true → Promise k u

structure Inv (s : System) : Prop where
  room : 2 ≤ s.tracer.availEntries
  once : s.tracer.tracingActive = true → s.tracer.taskletScheduled = false
  unread : s.tracer.taskletScheduled = false → s.tracer.lastread = 0
  pid : ∀ u ∈ s.usnl, u.pid ≠ 0
  served : ∀ u ∈ s.usnl, Usnl.Running u → Served s.tracer u

theorem promise_of_wakeup {k : Tracer} {u : Usnl} (room : 2 ≤ k.availEntries)
    (unread : k.lastread = 0) (wakeup : 0 < k.pendingWakeups) : Promise k u where
  wakeup := fun _ => wakeup
  reading := by omega
  counted := by omega

def ClearStart (s : System) : Act → Prop
  | .usnl _ => ∀ u ∈ s.usnl, u.pc = .start → s.tracer.taskletScheduled = false
  | _ => True

structure Started (k : Tracer) : Prop where
  flags : k.taskletScheduled = !k.tracingActive
  unread : k.lastread = 0
  wakeup : k.taskletScheduled = true → 0 < k.pendingWakeups

theorem started_trace_entry (k : Tracer) (e : Sepentry) (h : Started k) :
    Started (traceEntry k e) := by
  rcases trace_entry_cases k e with ⟨_, eq⟩ | ⟨_, _, eq⟩ | ⟨_, _, eq⟩
  · rw [eq]; exact h
  · rw [eq]; exact ⟨h.flags, h.unread, h.wakeup⟩
  · rw [eq]
    refine ⟨by simp, h.unread, fun _ => ?_⟩
    by_cases bit : k.taskletScheduled = true
    · simpa [Tracer.pendingWakeups, bit] using h.wakeup bit
    · simp only [Tracer.pendingWakeups, bit, Bool.false_eq_true, if_false]
      omega

theorem started_trace_ids (k : Tracer) (ids : IdContext) (h : Started k) :
    Started (traceIDs k ids) :=
  List.foldlRecOn _ _ h fun l hl e _ => started_trace_entry l e hl

theorem inv_initial (numEntries : Nat) (memory : Nat → Sepentry) (room : 2 ≤ numEntries) :
    Inv (System.initial numEntries memory) where
  room := room
  once := by simp [System.initial, initializeTracer]
  unread := by simp [System.initial, initializeTracer]
  pid := by simp [System.initial]
  served := by simp [System.initial]

theorem inv_trace_entry (s : System) (e : Sepentry) (h : Inv s)
    (probe : e.type.code < SepentryType.startids.code) :
    Inv { s with tracer := traceEntry s.tracer e } := by
  rcases trace_entry_cases s.tracer e with ⟨_, eq⟩ | ⟨_, _, eq⟩ | ⟨kept, _, eq⟩
  · rw [eq]; exact h
  · rw [eq]
    exact ⟨h.room, h.once, h.unread, h.pid, fun u hu run =>
      have old := h.served u hu run
      ⟨old.addressed, old.flags, old.answered, fun bit =>
        have p := old.promise bit
        ⟨p.wakeup, p.reading, p.counted⟩⟩⟩
  · have active : s.tracer.tracingActive = true := by
      simpa [Tracer.ignores, probe] using kept
    have clear := h.once active
    have unread := h.unread clear
    rw [eq]
    refine ⟨h.room, by simp, by simp, h.pid, fun u hu run => ?_⟩
    have old := h.served u hu run
    exact ⟨old.addressed, rfl, old.answered, fun _ =>
      promise_of_wakeup h.room unread (by simp only [Tracer.pendingWakeups, clear, Bool.false_eq_true, if_false]; omega)⟩

theorem inv_stop_tracing (s : System) (h : Inv s) :
    Inv { s with tracer := stopTracing s.tracer } := by
  refine ⟨h.room, by simp [stopTracing], by simp [stopTracing], h.pid, fun u hu run => ?_⟩
  have old := h.served u hu run
  refine ⟨old.addressed, rfl, old.answered, fun _ => ?_⟩
  by_cases bit : s.tracer.taskletScheduled = true
  · have p := old.promise bit
    refine ⟨fun w => ?_, p.reading, p.counted⟩
    have pending := p.wakeup w
    simp only [Tracer.pendingWakeups, stopTracing, bit, Bool.not_true, Bool.false_and] at pending ⊢
    exact pending
  · have clear : s.tracer.taskletScheduled = false := by simpa using bit
    have known : s.tracer.usPid ≠ 0 := by
      rw [old.addressed]
      exact h.pid u hu
    refine promise_of_wakeup h.room (h.unread clear) ?_
    simp only [Tracer.pendingWakeups, stopTracing, clear, Bool.not_false, Bool.true_and, bne_iff_ne.mpr known, if_true]
    omega

theorem fate_push (u : Usnl) (m : Message) : fate (u.push m) = (fate u).after m := by
  simp only [fate, outlook, Usnl.push, List.foldl_append, List.foldl_cons, List.foldl_nil]

theorem served_push_wake {k : Tracer} {u : Usnl} (old : Served k u) (calls tasklets : Nat) :
    Served { k with pendingCalls := calls, pendingTasklets := tasklets } (u.push .wakeUpUsnl) where
  addressed := old.addressed
  flags := old.flags
  answered := by simp [Usnl.push]
  promise bit := by
    have p := old.promise bit
    refine ⟨fun w => absurd (fate_push u _ ▸ w) (after_wake _),
      fun _ w => absurd (fate_push u _ ▸ w) (after_wake _), fun full => ?_⟩
    rw [fate_push]
    rcases p.counted full with gone | ⟨n, some_read⟩
    · exact Or.inl (by rw [gone]; rfl)
    · exact Or.inr ⟨n, by rw [some_read]; rfl⟩

theorem inv_awake (s : System) (h : Inv s) (calls tasklets : Nat) :
    Inv (awakeUsnl { s with
      tracer := { s.tracer with pendingCalls := calls, pendingTasklets := tasklets } }) := by
  refine ⟨h.room, h.once, h.unread, ?_, ?_⟩
  · intro u hu
    simp only [awakeUsnl, System.sendToUserspace, Option.mem_def, Option.map_eq_some_iff] at hu
    obtain ⟨v, running, rfl⟩ := hu
    have positive := h.pid v running
    split <;> exact positive
  · intro u hu run
    simp only [awakeUsnl, System.sendToUserspace, Option.mem_def, Option.map_eq_some_iff] at hu
    obtain ⟨v, running, rfl⟩ := hu
    have before : Usnl.Running v := by
      revert run
      split <;> exact fun run => run
    have old := h.served v running before
    rw [if_pos ⟨old.addressed.symm, before.2⟩]
    exact served_push_wake old calls tasklets

theorem inv_start (s : System) (u : Usnl) (ids : IdContext) (h : Inv s) (running : s.usnl = some u)
    (clear : s.tracer.taskletScheduled = false) :
    Inv (sendCommand s u .startTracing .request ids) := by
  have first : Started (opened s.tracer u.pid) :=
    ⟨by simp [opened, clear], h.unread clear, by simp [opened, clear]⟩
  have now := started_trace_ids _ ids first
  obtain ⟨avail, pid, _⟩ := trace_ids_keeps (opened s.tracer u.pid) ids
  have room : 2 ≤ (traceIDs (opened s.tracer u.pid) ids).availEntries := by
    rw [avail]
    exact h.room
  rw [send_start]
  generalize traceIDs (opened s.tracer u.pid) ids = k at now pid room
  refine ⟨room, fun active => ?_, fun _ => now.unread, ?_, ?_⟩
  · rw [now.flags, active]
    rfl
  · intro v hv
    obtain rfl := Option.some.inj hv
    exact h.pid u running
  · intro v hv _
    obtain rfl := Option.some.inj hv
    exact ⟨pid, now.flags, by simp, fun bit => promise_of_wakeup room now.unread (now.wakeup bit)⟩

theorem promise_of_fate {k : Tracer} {u v : Usnl} (p : Promise k u)
    (same : fate v = fate u ∨ fate v = .leaving) : Promise k v := by
  rcases same with same | gone
  · exact ⟨fun w => p.wakeup (same ▸ w), fun some_read w => p.reading some_read (same ▸ w),
      fun full => same ▸ p.counted full⟩
  · exact ⟨fun w => by simp [gone] at w, fun _ w => by simp [gone] at w, fun _ => Or.inl gone⟩

theorem promise_request {k : Tracer} {u : Usnl} (room : 2 ≤ k.availEntries) (p : Promise k u)
    (inactive : k.tracingActive = false) :
    Promise (requestEntry k).1 (u.push (requestEntry k).2) := by
  have gone : k.availEntries ≤ k.lastread → ∀ m, m = .stopTracing ∨ m = .endOfData →
      (fate u).after m = .leaving := by
    intro full m which
    rcases p.counted full with gone | ⟨n, some_read⟩
    · rw [gone]; rfl
    · rw [some_read]
      rcases which with rfl | rfl <;> rfl
  unfold requestEntry
  split
  · have awake : (fate u).after .stopTracing ≠ .waiting := by cases fate u <;> simp [Outlook.after]
    exact ⟨fun w => absurd (fate_push u _ ▸ w) awake, fun _ w => absurd (fate_push u _ ▸ w) awake,
      fun full => Or.inl ((fate_push u _).trans (gone full _ (Or.inl rfl)))⟩
  · split
    · rename_i ending
      have full : k.availEntries ≤ k.lastread := by simpa [inactive] using ending
      have leaving := (fate_push u .endOfData).trans (gone full _ (Or.inr rfl))
      exact promise_of_fate p (Or.inr leaving)
    · have awake := after_entry (fate u) (k.entries k.lastread)
      refine ⟨fun w => absurd (fate_push u _ ▸ w) awake, fun _ w => absurd (fate_push u _ ▸ w) awake,
        fun full => ?_⟩
      have before : fate u ≠ .waiting := p.reading (by dsimp only at full; omega)
      rw [fate_push]
      revert before
      cases fate u with
      | leaving => exact fun _ => Or.inl rfl
      | reading n => exact fun _ => Or.inr ⟨n, rfl⟩
      | waiting => exact fun no => absurd rfl no

theorem request_entry_flags (k : Tracer) :
    (requestEntry k).1.availEntries = k.availEntries ∧ (requestEntry k).1.usPid = k.usPid ∧
      (requestEntry k).1.tracingActive = k.tracingActive ∧
      (requestEntry k).1.taskletScheduled = k.taskletScheduled ∧
      (k.tracingActive = true → (requestEntry k).1.lastread = k.lastread) := by
  unfold requestEntry
  split
  · exact ⟨rfl, rfl, rfl, rfl, fun _ => rfl⟩
  · split
    · exact ⟨rfl, rfl, rfl, rfl, fun _ => rfl⟩
    · rename_i inactive
      simp only [Bool.or_eq_true, not_or] at inactive
      exact ⟨rfl, rfl, rfl, rfl, fun active => absurd active inactive.1⟩

theorem inv_request (s : System) (u : Usnl) (ids : IdContext) (h : Inv s) (running : s.usnl = some u)
    (here : u.pc = .request) : Inv (sendCommand s u .requestEntry .reply ids) := by
  have old := h.served u running ⟨by simp [here], by simp [here]⟩
  obtain ⟨avail, pid, active, bit, cursor⟩ := request_entry_flags s.tracer
  rw [send_request s u ids old.addressed]
  refine ⟨by rw [avail]; exact h.room, by rw [active, bit]; exact h.once, ?_, ?_, ?_⟩
  · intro clear
    rw [bit] at clear
    have on : s.tracer.tracingActive = true := by simpa [clear] using old.flags
    rw [cursor on]
    exact h.unread clear
  · intro v hv
    obtain rfl := Option.some.inj hv
    exact h.pid u running
  · intro v hv _
    obtain rfl := Option.some.inj hv
    refine ⟨by rw [pid]; exact old.addressed, by rw [active, bit]; exact old.flags,
      by simp [Usnl.push], fun set => ?_⟩
    rw [bit] at set
    have moved : fate { u with pc := .reply } = fate u := by simp only [fate, outlook, here]
    exact promise_request h.room (promise_of_fate (old.promise set) (Or.inl moved))
      (by simpa [set] using old.flags)

theorem outlook_read_reply (u : Usnl) (m : Message) :
    outlook (u.readReply m) = (Outlook.reading u.curcount).after m ∨
      outlook (u.readReply m) = .leaving := by
  cases m with
  | endOfData =>
    left
    rw [read_reply_eod]
    rcases zero : u.curcount with _ | n <;> simp [outlook, Outlook.after]
  | stopTracing => exact Or.inl (by rw [read_reply_stop]; rfl)
  | wakeUpUsnl => exact Or.inl (by rw [read_reply_wake]; rfl)
  | entry e =>
    rw [read_reply_entry]
    have w := write_line_written u (.entry e)
    rcases w.pc with stays | ⟨leaves, _⟩
    · exact Or.inl (by simp [outlook, stays, w.curcount, Outlook.after])
    · exact Or.inr (by simp [outlook, leaves])

theorem fate_read_reply (u : Usnl) (m : Message) (rest : List Message) (here : u.pc = .reply)
    (queued : u.queue = m :: rest) :
    fate ((u.taking rest).readReply m) = fate u ∨ fate ((u.taking rest).readReply m) = .leaving := by
  have queue := (read_reply_keeps (u.taking rest) m).2.1
  unfold fate
  rcases outlook_read_reply (u.taking rest) m with along | leaves
  · left
    rw [queue, along, queued, List.foldl_cons]
    simp only [Usnl.taking, outlook, here]
  · right
    rw [leaves]
    exact leaving_after _

theorem inv_reply (s : System) (u : Usnl) (m : Message) (rest : List Message) (h : Inv s)
    (running : s.usnl = some u) (here : u.pc = .reply) (queued : u.queue = m :: rest) :
    Inv { s with usnl := some ((u.taking rest).readReply m) } := by
  have old := h.served u running ⟨by simp [here], by simp [here]⟩
  obtain ⟨pid, _, taken, _⟩ := read_reply_keeps (u.taking rest) m
  refine ⟨h.room, h.once, h.unread, ?_, ?_⟩
  · intro v hv
    obtain rfl := Option.some.inj hv
    rw [pid]
    exact h.pid u running
  · intro v hv _
    obtain rfl := Option.some.inj hv
    exact ⟨by rw [pid]; exact old.addressed, old.flags, fun again => absurd again taken,
      fun bit => promise_of_fate (old.promise bit) (fate_read_reply u m rest here queued)⟩

theorem inv_wait (s : System) (u : Usnl) (m : Message) (rest : List Message) (h : Inv s)
    (running : s.usnl = some u) (here : u.pc = .wait) (queued : u.queue = m :: rest) :
    Inv { s with usnl := some (u.awakened rest) } := by
  have old := h.served u running ⟨by simp [here], by simp [here]⟩
  have same : fate (u.awakened rest) = fate u := by
    simp only [fate, Usnl.awakened, outlook, here, queued, List.foldl_cons, Outlook.after]
  refine ⟨h.room, h.once, h.unread, ?_, ?_⟩
  · intro v hv
    obtain rfl := Option.some.inj hv
    exact h.pid u running
  · intro v hv _
    obtain rfl := Option.some.inj hv
    exact ⟨old.addressed, old.flags, fun again => by simp [Usnl.awakened] at again,
      fun bit => promise_of_fate (old.promise bit) (Or.inl same)⟩

theorem inv_enough (s : System) (u : Usnl) (h : Inv s) (running : s.usnl = some u)
    (here : u.pc = .request) : Inv { s with usnl := some { u with pc := .stop } } := by
  have old := h.served u running ⟨by simp [here], by simp [here]⟩
  refine ⟨h.room, h.once, h.unread, ?_, ?_⟩
  · intro v hv
    obtain rfl := Option.some.inj hv
    exact h.pid u running
  · intro v hv _
    obtain rfl := Option.some.inj hv
    exact ⟨old.addressed, old.flags, fun again => by simp at again,
      fun bit => promise_of_fate (old.promise bit) (Or.inr (leaving_after _))⟩

theorem inv_sync (s : System) (u : Usnl) (ids : IdContext) (h : Inv s) (running : s.usnl = some u)
    (here : u.pc = .sync) : Inv (sendCommand s u .syncComplete .wait ids) := by
  have old := h.served u running ⟨by simp [here], by simp [here]⟩
  simp only [sendCommand, nlRcvFunc]
  split
  · rename_i active
    have clear := h.once active
    refine ⟨h.room, fun _ => clear, fun _ => h.unread clear, ?_, ?_⟩
    · intro v hv
      obtain rfl := Option.some.inj hv
      exact h.pid u running
    · intro v hv _
      obtain rfl := Option.some.inj hv
      exact ⟨rfl, old.flags, fun again => by simp at again, fun bit => by simp [clear] at bit⟩
  · refine ⟨h.room, fun _ => rfl, fun _ => rfl, ?_, ?_⟩
    · intro v hv
      obtain rfl := Option.some.inj hv
      exact h.pid u running
    · intro v hv _
      obtain rfl := Option.some.inj hv
      exact ⟨rfl, rfl, fun again => by simp at again, fun bit => by simp at bit⟩

theorem inv_end (s : System) (u : Usnl) (ids : IdContext) (h : Inv s) (running : s.usnl = some u) :
    Inv (sendCommand s u .stopTracing .done ids) := by
  refine ⟨h.room, fun active => by simp [sendCommand, nlRcvFunc] at active, fun _ => rfl, ?_, ?_⟩
  · intro v hv
    obtain rfl := Option.some.inj hv
    exact h.pid u running
  · intro v hv alive
    obtain rfl := Option.some.inj hv
    exact absurd rfl alive.2

theorem inv_step (s : System) (a : Act) (t : System) (h : Inv s) (clear : ClearStart s a)
    (taken : step s a = some t) : Inv t := by
  cases step_transition taken with
  | traceEntry e probe => exact inv_trace_entry s e h probe
  | stopTracing => exact inv_stop_tracing s h
  | call pending =>
    unfold scheduleUsnl
    split
    · exact ⟨h.room, h.once, h.unread, h.pid, fun u hu run =>
        absurd ((h.served u hu run).addressed.symm.trans ‹_›) (h.pid u hu)⟩
    · exact inv_awake s h _ _
  | tasklet pending => exact inv_awake s h _ _
  | spawn pid srvaddr toobtain positive free =>
    refine ⟨h.room, h.once, h.unread, ?_, ?_⟩
    · intro v hv
      obtain rfl := Option.some.inj hv
      exact positive
    · intro v hv alive
      obtain rfl := Option.some.inj hv
      exact absurd rfl alive.1
  | kill u running => exact ⟨h.room, h.once, h.unread, by simp, by simp⟩
  | start ids u running here => exact inv_start s u ids h running (clear u running here)
  | request ids u running here more => exact inv_request s u ids h running here
  | enough ids u running here all => exact inv_enough s u h running here
  | reply ids u m rest running here queued => exact inv_reply s u m rest h running here queued
  | sync ids u running here => exact inv_sync s u ids h running here
  | wait ids u m rest running here queued => exact inv_wait s u m rest h running here queued
  | stop ids u running here => exact inv_end s u ids h running

def LostWakeup (s : System) : Prop :=
  ∃ u ∈ s.usnl, u.Blocked ∧ s.tracer.pendingWakeups = 0 ∧ s.tracer.tracingActive = false

theorem no_lost_wakeup_of_inv (s : System) (h : Inv s) : ¬ LostWakeup s := by
  rintro ⟨u, running, ⟨asleep, empty⟩, none_pending, off⟩
  have run : Usnl.Running u := by
    rcases asleep with here | here <;> simp [Usnl.Running, here]
  have old := h.served u running run
  rcases asleep with here | here
  · exact old.answered here empty
  · have bit : s.tracer.taskletScheduled = true := by simp [old.flags, off]
    have waiting : fate u = .waiting := by simp [fate, outlook, here, empty]
    have pending := (old.promise bit).wakeup waiting
    omega

/-- With a buffer of at least two slots, no run whose sessions all start with the
    wake-up bit clear loses a wake-up, wherever earlier sessions were killed. -/
theorem no_lost_wakeup (numEntries : Nat) (memory : Nat → Sepentry) (acts : List Act) (s : System)
    (room : 2 ≤ numEntries)
    (clear : Guarded step ClearStart (System.initial numEntries memory) acts)
    (finished : run step (System.initial numEntries memory) acts = some s) : ¬ LostWakeup s :=
  no_lost_wakeup_of_inv s
    (invariant_of_guarded Inv inv_step (inv_initial numEntries memory room) clear finished)

instance (s : System) : (a : Act) → Decidable (ClearStart s a)
  | .usnl _ => inferInstanceAs (Decidable (∀ u ∈ s.usnl, u.pc = .start → s.tracer.taskletScheduled = false))
  | .traceEntry _ | .stopTracing | .call | .tasklet | .spawn .. | .kill => isTrue trivial

def someProbe : Act := .traceEntry { zeroEntry with type := .ctxswitch }

def restartedClear : List Act :=
  [.spawn 7 0 0, .usnl zeroContext, .usnl zeroContext, .kill,
   .spawn 8 0 0, .usnl zeroContext, .usnl zeroContext, .usnl zeroContext, someProbe, someProbe]

set_option maxRecDepth 20000 in
theorem no_lost_wakeup_restarted : ∃ s, run step (System.initial 148 fun _ => zeroEntry)
    restartedClear = some s ∧ ¬ LostWakeup s := by
  have ends : (run step (System.initial 148 fun _ => zeroEntry) restartedClear).isSome = true := by
    decide +kernel
  obtain ⟨s, finished⟩ := Option.isSome_iff_exists.mp ends
  exact ⟨s, finished, no_lost_wakeup 148 (fun _ => zeroEntry) restartedClear s (by decide)
    (by decide +kernel) finished⟩

/-- The first session is killed after its buffer filled; START_TRACING of the second one
    leaves the wake-up bit set, so the next full buffer wakes nobody. -/
def restartedSet : List Act :=
  [.spawn 7 0 0, .usnl zeroContext, someProbe, someProbe, .call, .kill,
   .spawn 8 0 0, .usnl zeroContext, .usnl zeroContext, .usnl zeroContext, someProbe, someProbe]

set_option maxRecDepth 20000 in
theorem restart_loses_wakeup : ¬ ∀ acts s,
    run step (System.initial 148 fun _ => zeroEntry) acts = some s → ¬ LostWakeup s := by
  intro safe
  have ends : ((run step (System.initial 148 fun _ => zeroEntry) restartedSet).bind fun s =>
      s.usnl.map fun u => (decide (u.pc = .wait), u.queue, s.tracer.pendingWakeups,
        s.tracer.tracingActive)) = some (true, [], 0, false) := by decide +kernel
  obtain ⟨s, finished, rest⟩ := Option.bind_eq_some_iff.mp ends
  obtain ⟨u, running, facts⟩ := Option.map_eq_some_iff.mp rest
  simp only [Prod.mk.injEq, decide_eq_true_eq] at facts
  exact safe restartedSet s finished
    ⟨u, running, ⟨Or.inr facts.1, facts.2.1⟩, facts.2.2.1, facts.2.2.2⟩

end UsnlWakeups
