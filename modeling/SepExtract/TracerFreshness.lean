import Mathlib.Data.List.Range
import SepExtract.TracerKernel

/- Which slots reach user space when the messages of nl_rcv_func, trace_entry and
   stop_tracing arrive in any order, not only in the order usnl uses. The audit
   beside the tracer remembers what was stored and sent since the latest control message. -/
namespace TracerFreshness
open TracerKernel

structure Audit where
  tracer : Tracer
  /-- slot and contents of every trace_entry call stored since the latest control message -/
  filled : List (Nat × Sepentry)
  /-- slot and contents of every reply sent since the latest control message -/
  delivered : List (Nat × Sepentry)
  readAtReset : Nat
  entriesAtReset : Nat

def Audit.begin (k : Tracer) : Audit := ⟨k, [], [], k.lastread, k.lastentry⟩

def Audit.trace (a : Audit) (e : Sepentry) : Audit :=
  { a with
    tracer := traceEntry a.tracer e
    filled := if !a.tracer.ignores e && a.tracer.lastentry < a.tracer.availEntries then
      a.filled ++ [(a.tracer.lastentry, e)] else a.filled }

def Sends (k : Tracer) : Prop :=
  ¬ (k.stopTracingRequested = true ∧ (k.lastentry ≤ k.lastread ∨ k.availEntries ≤ k.lastread)) ∧
  k.tracingActive = false ∧ k.lastread < k.availEntries

instance (k : Tracer) : Decidable (Sends k) := by unfold Sends; infer_instance

def Audit.step (a : Audit) : Call → Audit
  | .trace e => a.trace e
  | .stop => { a with tracer := stopTracing a.tracer }
  | .message .startTracing pid ids =>
    (idEntries ids).foldl Audit.trace
      (Audit.begin { a.tracer with usPid := pid, lastentry := 0, tracingActive := true })
  | .message .stopTracing pid ids => Audit.begin (nlRcvFunc a.tracer pid ids .stopTracing).1
  | .message .syncComplete pid ids => Audit.begin (nlRcvFunc a.tracer pid ids .syncComplete).1
  | .message .requestEntry pid ids =>
    { a with
      tracer := (nlRcvFunc a.tracer pid ids .requestEntry).1
      delivered := if Sends a.tracer then
        a.delivered ++ [(a.tracer.lastread, a.tracer.entries a.tracer.lastread)] else a.delivered }

def audit (k : Tracer) (calls : List Call) : Audit := calls.foldl Audit.step (Audit.begin k)

/-- The property: the slots sent since the latest control message are 0, 1, 2, ...
    and each carries what a call stored there since that message. -/
def DeliversFresh (a : Audit) : Prop :=
  a.delivered.map Prod.fst = List.range a.delivered.length ∧ ∀ p ∈ a.delivered, p ∈ a.filled

/-- A reply that carries a slot is sent while stored slots are unread, and the latest
    control message left both cursors at zero. -/
def ReadsStored (a : Audit) : Call → Prop
  | .message .requestEntry _ _ => Sends a.tracer →
      a.tracer.lastread < a.tracer.lastentry ∧ a.readAtReset = 0 ∧ a.entriesAtReset = 0
  | _ => True

theorem request_entry_sends (k : Tracer) (send : Sends k) :
    requestEntry k = ({ k with lastread := k.lastread + 1 }, .entry (k.entries k.lastread)) := by
  obtain ⟨noStop, inactive, room⟩ := send
  have first : (k.stopTracingRequested &&
      (decide (k.lastentry ≤ k.lastread) || decide (k.availEntries ≤ k.lastread))) = false := by
    simp only [Bool.and_eq_false_iff, Bool.or_eq_false_iff, decide_eq_false_iff_not]
    by_cases requested : k.stopTracingRequested = true
    · right
      constructor <;> intro h
      · exact noStop ⟨requested, Or.inl h⟩
      · exact noStop ⟨requested, Or.inr h⟩
    · left
      simpa using requested
  have second : (k.tracingActive || decide (k.availEntries ≤ k.lastread)) = false := by
    simp [inactive, room]
  simp [requestEntry, first, second]

theorem request_entry_keeps (k : Tracer) (silent : ¬ Sends k) :
    (requestEntry k).1.lastread = k.lastread ∧ (requestEntry k).1.lastentry = k.lastentry ∧
      (requestEntry k).1.entries = k.entries ∧ (requestEntry k).1.availEntries = k.availEntries := by
  unfold requestEntry
  split
  · exact ⟨rfl, rfl, rfl, rfl⟩
  · rename_i noStop
    split
    · exact ⟨rfl, rfl, rfl, rfl⟩
    · rename_i inactive
      simp only [Bool.and_eq_true, Bool.or_eq_true, decide_eq_true_eq, not_or,
        Bool.not_eq_true] at noStop inactive
      exact absurd ⟨noStop, inactive.1, by omega⟩ silent

structure Ledger (a : Audit) : Prop where
  read : a.readAtReset ≤ a.tracer.lastread
  written : a.entriesAtReset ≤ a.tracer.lastentry
  filled : a.filled = (List.range' a.entriesAtReset
    (min a.tracer.lastentry a.tracer.availEntries - a.entriesAtReset)).map
      fun i => (i, a.tracer.entries i)
  delivered : a.delivered.map Prod.fst =
    List.range' a.readAtReset (a.tracer.lastread - a.readAtReset)

theorem ledger_begin (k : Tracer) : Ledger (Audit.begin k) where
  read := Nat.le_refl _
  written := Nat.le_refl _
  filled := by
    have none : min k.lastentry k.availEntries - k.lastentry = 0 := by omega
    simp [Audit.begin, none]
  delivered := by simp [Audit.begin]

theorem ledger_trace (a : Audit) (e : Sepentry) (h : Ledger a) : Ledger (a.trace e) := by
  rcases trace_entry_cases a.tracer e with ⟨ignored, eq⟩ | ⟨kept, room, eq⟩ | ⟨kept, full, eq⟩
  · have same : a.trace e = a := by simp [Audit.trace, eq, ignored]
    rw [same]
    exact h
  · have now : a.trace e = { a with
        tracer := { a.tracer with lastentry := a.tracer.lastentry + 1,
                                  entries := Function.update a.tracer.entries a.tracer.lastentry e }
        filled := a.filled ++ [(a.tracer.lastentry, e)] } := by
      simp [Audit.trace, eq, kept, room]
    rw [now]
    refine ⟨h.read, Nat.le_succ_of_le h.written, ?_, h.delivered⟩
    have low := h.written
    have before : min a.tracer.lastentry a.tracer.availEntries - a.entriesAtReset =
        a.tracer.lastentry - a.entriesAtReset := by omega
    have after : min (a.tracer.lastentry + 1) a.tracer.availEntries - a.entriesAtReset =
        (a.tracer.lastentry - a.entriesAtReset) + 1 := by omega
    have last : a.entriesAtReset + (a.tracer.lastentry - a.entriesAtReset) = a.tracer.lastentry := by
      omega
    simp only [h.filled, before, after, List.range'_concat, List.map_append, List.map_cons,
      List.map_nil, Nat.one_mul, last, Function.update_self]
    congr 1
    apply List.map_congr_left
    intro i hi
    have below : i ≠ a.tracer.lastentry := by
      have := List.mem_range'_1.mp hi
      omega
    rw [Function.update_of_ne below]
  · have now : a.trace e = { a with tracer := traceEntry a.tracer e } := by
      simp [Audit.trace, kept, Nat.not_lt.mpr full]
    rw [now, eq]
    refine ⟨h.read, Nat.le_succ_of_le h.written, ?_, h.delivered⟩
    have same : min (a.tracer.lastentry + 1) a.tracer.availEntries =
        min a.tracer.lastentry a.tracer.availEntries := by omega
    simp only [h.filled, same]

theorem ledger_traces (es : List Sepentry) (a : Audit) (h : Ledger a) :
    Ledger (es.foldl Audit.trace a) := by
  induction es generalizing a with
  | nil => exact h
  | cons e es ih => exact ih (a.trace e) (ledger_trace a e h)

theorem ledger_request (a : Audit) (pid : Nat) (ids : IdContext) (h : Ledger a) :
    Ledger (a.step (.message .requestEntry pid ids)) := by
  by_cases send : Sends a.tracer
  · have now := request_entry_sends { a.tracer with usPid := pid } send
    refine ⟨?_, ?_, ?_, ?_⟩ <;> simp only [Audit.step, nlRcvFunc, now, send, if_true]
    · exact Nat.le_succ_of_le h.read
    · exact h.written
    · exact h.filled
    · have low := h.read
      have count : a.tracer.lastread + 1 - a.readAtReset =
          (a.tracer.lastread - a.readAtReset) + 1 := by omega
      have last : a.readAtReset + (a.tracer.lastread - a.readAtReset) = a.tracer.lastread := by
        omega
      simp [h.delivered, count, List.range'_concat, last]
  · obtain ⟨read, written, slots, avail⟩ :=
      request_entry_keeps { a.tracer with usPid := pid } send
    refine ⟨?_, ?_, ?_, ?_⟩ <;> simp only [Audit.step, nlRcvFunc, send, if_false]
    · rw [read]; exact h.read
    · rw [written]; exact h.written
    · rw [written, slots, avail]; exact h.filled
    · rw [read]; exact h.delivered

theorem ledger_step (a : Audit) (c : Call) (h : Ledger a) : Ledger (a.step c) := by
  cases c with
  | trace e => exact ledger_trace a e h
  | stop => exact ⟨h.read, h.written, h.filled, h.delivered⟩
  | message m pid ids =>
    cases m with
    | startTracing => exact ledger_traces _ _ (ledger_begin _)
    | stopTracing => exact ledger_begin _
    | syncComplete => exact ledger_begin _
    | requestEntry => exact ledger_request a pid ids h

theorem ledger_audit (k : Tracer) (calls : List Call) : Ledger (audit k calls) := by
  induction calls using List.reverseRecOn with
  | nil => exact ledger_begin k
  | append_singleton calls c ih =>
    rw [audit, List.foldl_concat]
    exact ledger_step _ c ih

theorem filled_of_ledger {a : Audit} (h : Ledger a) (i : Nat) (e : Sepentry) :
    (i, e) ∈ a.filled ↔ a.entriesAtReset ≤ i ∧
      i < min a.tracer.lastentry a.tracer.availEntries ∧ e = a.tracer.entries i := by
  have low := h.written
  simp only [h.filled, List.mem_map, List.mem_range'_1, Prod.mk.injEq]
  constructor
  · rintro ⟨j, bounds, rfl, rfl⟩
    exact ⟨bounds.1, by omega, rfl⟩
  · rintro ⟨lower, upper, rfl⟩
    exact ⟨i, by omega, rfl, rfl⟩

theorem delivers_fresh_request {a : Audit} (h : Ledger a) (fresh : DeliversFresh a) (pid : Nat)
    (ids : IdContext) (send : Sends a.tracer) :
    DeliversFresh (a.step (.message .requestEntry pid ids)) ↔
      a.tracer.lastread < a.tracer.lastentry ∧ a.readAtReset = 0 ∧ a.entriesAtReset = 0 := by
  have room := send.2.2
  have same : (a.step (.message .requestEntry pid ids)).delivered =
      a.delivered ++ [(a.tracer.lastread, a.tracer.entries a.tracer.lastread)] := by
    simp [Audit.step, send]
  have slots : (a.step (.message .requestEntry pid ids)).filled = a.filled := rfl
  have count : a.delivered.length = a.tracer.lastread - a.readAtReset := by
    simpa using congrArg List.length h.delivered
  have low := h.read
  simp only [DeliversFresh, same, slots, List.map_append, List.map_cons, List.map_nil,
    List.length_append, List.length_cons, List.length_nil, Nat.zero_add, List.range_succ,
    fresh.1, List.mem_append, List.mem_singleton]
  constructor
  · rintro ⟨indices, members⟩
    have last : a.tracer.lastread = a.delivered.length := by simpa using indices
    have start : a.readAtReset = 0 := by omega
    have stored := (filled_of_ledger h _ _).mp (members _ (Or.inr rfl))
    refine ⟨by omega, start, ?_⟩
    by_cases empty : a.delivered = []
    · have zero : a.tracer.lastread = 0 := by simpa [empty] using last
      omega
    · obtain ⟨p, rest, shape⟩ := List.exists_cons_of_ne_nil empty
      have head : p.1 = 0 := by
        have indices0 := fresh.1
        rw [shape, List.map_cons, List.length_cons, List.range_succ_eq_map] at indices0
        exact (List.cons.inj indices0).1
      have first := (filled_of_ledger h p.1 p.2).mp (members p (Or.inl (by simp [shape])))
      omega
  · rintro ⟨unread, start, base⟩
    have last : a.tracer.lastread = a.delivered.length := by omega
    refine ⟨by rw [← last], ?_⟩
    rintro p (old | rfl)
    · exact fresh.2 p old
    · exact (filled_of_ledger h _ _).mpr ⟨by omega, by omega, rfl⟩

theorem delivers_fresh_trace (a : Audit) (e : Sepentry) (fresh : DeliversFresh a) :
    DeliversFresh (a.trace e) := by
  refine ⟨fresh.1, ?_⟩
  intro p member
  simp only [Audit.trace]
  split
  · exact List.mem_append_left _ (fresh.2 p member)
  · exact fresh.2 p member

theorem delivers_fresh_begin (k : Tracer) : DeliversFresh (Audit.begin k) := by
  simp [DeliversFresh, Audit.begin]

theorem delivers_fresh_step {a : Audit} (h : Ledger a) (fresh : DeliversFresh a) (c : Call) :
    DeliversFresh (a.step c) ↔ ReadsStored a c := by
  cases c with
  | trace e => exact ⟨fun _ => trivial, fun _ => delivers_fresh_trace a e fresh⟩
  | stop => exact ⟨fun _ => trivial, fun _ => fresh⟩
  | message m pid ids =>
    cases m with
    | startTracing =>
      refine ⟨fun _ => trivial, fun _ => ?_⟩
      exact List.foldlRecOn _ _ (delivers_fresh_begin _)
        fun b hb e _ => delivers_fresh_trace b e hb
    | stopTracing => exact ⟨fun _ => trivial, fun _ => delivers_fresh_begin _⟩
    | syncComplete => exact ⟨fun _ => trivial, fun _ => delivers_fresh_begin _⟩
    | requestEntry =>
      by_cases send : Sends a.tracer
      · rw [delivers_fresh_request h fresh pid ids send]
        exact ⟨fun stored _ => stored, fun stored => stored send⟩
      · have same : (a.step (.message .requestEntry pid ids)).delivered = a.delivered := by
          simp [Audit.step, send]
        refine ⟨fun _ hs => absurd hs send, fun _ => ?_⟩
        unfold DeliversFresh
        rw [same]
        exact fresh

/-- Over every order of calls from module initialisation on, every reply carries a
    fresh slot in order exactly when every reply with a slot was due. -/
theorem fresh_entries_iff (numEntries : Nat) (memory : Nat → Sepentry) (calls : List Call) :
    (∀ pre post, calls = pre ++ post →
      DeliversFresh (audit (initializeTracer numEntries memory) pre)) ↔
    (∀ pre c post, calls = pre ++ c :: post →
      ReadsStored (audit (initializeTracer numEntries memory) pre) c) := by
  constructor
  · intro fresh pre c post split
    have before := fresh pre (c :: post) split
    have after := fresh (pre ++ [c]) post (by simp [split])
    rw [audit, List.foldl_concat] at after
    exact (delivers_fresh_step (ledger_audit _ _) before c).mp after
  · intro due pre
    induction pre using List.reverseRecOn with
    | nil => exact fun _ _ => delivers_fresh_begin _
    | append_singleton pre c ih =>
      intro post split
      rw [audit, List.foldl_concat]
      have whole : calls = pre ++ c :: post := by simpa using split
      exact (delivers_fresh_step (ledger_audit _ _) (ih (c :: post) whole) c).mpr
        (due pre c post whole)

/-- A session killed in the middle of a drain and its successor: START_TRACING keeps the
    old read cursor, so the successor is first sent slot 1. -/
def restartedDrain : List Call :=
  [.message .startTracing 7 zeroContext, .message .requestEntry 7 zeroContext,
   .message .startTracing 8 zeroContext, .message .requestEntry 8 zeroContext]

set_option maxRecDepth 20000 in
theorem restarted_drain_not_fresh :
    ¬ ∀ pre post, restartedDrain = pre ++ post →
      DeliversFresh (audit (initializeTracer 2 fun _ => zeroEntry) pre) := by
  intro fresh
  have slots : (audit (initializeTracer 2 fun _ => zeroEntry) restartedDrain).delivered.map
      Prod.fst = [1] := by decide +kernel
  have indices := (fresh restartedDrain [] (by simp)).1
  rw [slots, ← List.length_map Prod.fst, slots] at indices
  revert indices
  decide

end TracerFreshness
