import SepExtract.TransitionRuns
import SepExtract.TracerKernel

/- The user-space reader usnl.c beside the tracer. A sendmsg runs nl_rcv_func before it
   returns, so sending a word and handling it are one step; replies and wake-ups queue on
   the reader's socket in order and are taken by its recvmsg calls. A session can be killed
   between any two of its steps and another one started later. -/
namespace UsnlSession
open TracerKernel TransitionRuns

def END_OF_DATA : Nat := 1000001
def STOP_TRACING : Nat := 1000003
def WAKE_UP_USNL : Nat := 1000005
def TO_OBTAIN : Nat := 100000

/-- The word usnl looks at to tell the messages apart: the first of the bytes received. -/
def firstWord : Message → Nat
  | .endOfData => END_OF_DATA
  | .stopTracing => STOP_TRACING
  | .wakeUpUsnl => WAKE_UP_USNL
  | .entry e => e.type.code

/-- Where the main function stands: before a sendmsg, blocked in one of its two recvmsg
    calls (reply inside the loop head, wait after END_OF_DATA), or returned. -/
inductive Pc where
  | start | request | reply | sync | wait | stop | done
  deriving DecidableEq, Repr

inductive FileLine where
  | eod
  | line (m : Message)
  deriving DecidableEq, Repr

structure Usnl where
  pid : Nat
  srvaddr : UInt32
  toobtain : Nat
  pc : Pc
  curcount : Nat
  totcount : Nat
  incount : Nat
  outcount : Nat
  inservice : Bool
  queue : List Message
  file : List FileLine

/-- Start of main; a service address of 0 stands for no arguments. -/
def Usnl.spawn (pid : Nat) (srvaddr : UInt32) (toobtain : Nat) : Usnl where
  pid := pid
  srvaddr := srvaddr
  toobtain := toobtain
  pc := .start
  curcount := 0
  totcount := 0
  incount := 0
  outcount := 0
  inservice := false
  queue := []
  file := []

def Usnl.count (u : Usnl) : Message → Usnl
  | .entry e =>
    if e.type = .serviceentry ∧ u.srvaddr ≠ 0 ∧ e.addr = u.srvaddr then
      { u with inservice := true, incount := u.incount + 1 }
    else if e.type = .serviceexit ∧ u.srvaddr ≠ 0 ∧ e.addr = u.srvaddr ∧ u.inservice = true then
      { u with outcount := u.outcount + 1, inservice := false }
    else u
  | _ => u

def Usnl.writeLine (u : Usnl) (m : Message) : Usnl :=
  let v := Usnl.count { u with file := u.file ++ [.line m], curcount := u.curcount + 1 } m
  if v.srvaddr ≠ 0 ∧ v.toobtain ≤ v.outcount then { v with pc := .stop }
  else if v.srvaddr = 0 ∧ TO_OBTAIN ≤ v.totcount then { v with pc := .stop }
  else { v with pc := .request }

/-- What the loop does with the bytes received as a reply. -/
def Usnl.readReply (u : Usnl) (m : Message) : Usnl :=
  if firstWord m = STOP_TRACING then { u with pc := .stop }
  else if firstWord m = END_OF_DATA then
    { u with file := u.file ++ [.eod], pc := if u.curcount ≠ 0 then .sync else .wait }
  else if firstWord m = WAKE_UP_USNL then { u with pc := .request }
  else u.writeLine m

def Usnl.push (u : Usnl) (m : Message) : Usnl := { u with queue := u.queue ++ [m] }

def Usnl.taking (u : Usnl) (rest : List Message) : Usnl := { u with queue := rest }

/-- After the wake-up: back to the head of the loop. -/
def Usnl.awakened (u : Usnl) (rest : List Message) : Usnl :=
  { u with queue := rest, inservice := false, curcount := 0, pc := .request }

structure System where
  tracer : Tracer
  usnl : Option Usnl

/-- A message to a process that is gone is dropped. -/
def System.sendToUserspace (s : System) (pid : Nat) (m : Message) : System :=
  { s with usnl := s.usnl.map fun u =>
      if u.pid = pid ∧ u.pc ≠ .done then u.push m else u }

def awakeUsnl (s : System) : System := s.sendToUserspace s.tracer.usPid .wakeUpUsnl

def scheduleUsnl (s : System) : System := if s.tracer.usPid = 0 then s else awakeUsnl s

def sendCommand (s : System) (u : Usnl) (c : Command) (next : Pc) (ids : IdContext) : System :=
  let r := nlRcvFunc s.tracer u.pid ids c
  { tracer := r.1, usnl := some (r.2.toList.foldl Usnl.push { u with pc := next }) }

inductive Act where
  | traceEntry (e : Sepentry)
  | stopTracing
  | call
  | tasklet
  | spawn (pid : Nat) (srvaddr : UInt32) (toobtain : Nat)
  | kill
  | usnl (ids : IdContext)

def usnlStep (s : System) (u : Usnl) (ids : IdContext) : Option System :=
  match u.pc with
  | .start => some (sendCommand s u .startTracing .request ids)
  | .request =>
    if u.totcount < TO_OBTAIN then some (sendCommand s u .requestEntry .reply ids)
    else some { s with usnl := some { u with pc := .stop } }
  | .reply =>
    match u.queue with
    | [] => none
    | m :: rest => some { s with usnl := some ((u.taking rest).readReply m) }
  | .sync => some (sendCommand s u .syncComplete .wait ids)
  | .wait =>
    match u.queue with
    | [] => none
    | _ :: rest => some { s with usnl := some (u.awakened rest) }
  | .stop => some (sendCommand s u .stopTracing .done ids)
  | .done => none

/-- The probes call trace_entry with the types before STARTIDS only. -/
def step (s : System) : Act → Option System
  | .traceEntry e =>
    if e.type.code < SepentryType.startids.code then some { s with tracer := traceEntry s.tracer e }
    else none
  | .stopTracing => some { s with tracer := stopTracing s.tracer }
  | .call =>
    if s.tracer.pendingCalls = 0 then none
    else some (scheduleUsnl { s with
      tracer := { s.tracer with pendingCalls := s.tracer.pendingCalls - 1 } })
  | .tasklet =>
    if s.tracer.pendingTasklets = 0 then none
    else some (awakeUsnl { s with
      tracer := { s.tracer with pendingTasklets := s.tracer.pendingTasklets - 1 } })
  | .spawn pid srvaddr toobtain =>
    if pid ≠ 0 ∧ ∀ u ∈ s.usnl, u.pc = .done then
      some { s with usnl := some (Usnl.spawn pid srvaddr toobtain) }
    else none
  | .kill =>
    match s.usnl with
    | none => none
    | some _ => some { s with usnl := none }
  | .usnl ids =>
    match s.usnl with
    | none => none
    | some u => usnlStep s u ids

def System.initial (numEntries : Nat) (memory : Nat → Sepentry) : System :=
  ⟨initializeTracer numEntries memory, none⟩

def Usnl.Blocked (u : Usnl) : Prop := (u.pc = .reply ∨ u.pc = .wait) ∧ u.queue = []

inductive Transition (s : System) : Act → System → Prop where
  | traceEntry (e : Sepentry) (probe : e.type.code < SepentryType.startids.code) :
      Transition s (.traceEntry e) { s with tracer := traceEntry s.tracer e }
  | stopTracing : Transition s .stopTracing { s with tracer := stopTracing s.tracer }
  | call (pending : s.tracer.pendingCalls ≠ 0) : Transition s .call (scheduleUsnl
      { s with tracer := { s.tracer with pendingCalls := s.tracer.pendingCalls - 1 } })
  | tasklet (pending : s.tracer.pendingTasklets ≠ 0) : Transition s .tasklet (awakeUsnl
      { s with tracer := { s.tracer with pendingTasklets := s.tracer.pendingTasklets - 1 } })
  | spawn (pid : Nat) (srvaddr : UInt32) (toobtain : Nat) (positive : pid ≠ 0)
      (free : ∀ u ∈ s.usnl, u.pc = .done) :
      Transition s (.spawn pid srvaddr toobtain)
        { s with usnl := some (Usnl.spawn pid srvaddr toobtain) }
  | kill (u : Usnl) (running : s.usnl = some u) : Transition s .kill { s with usnl := none }
  | start (ids : IdContext) (u : Usnl) (running : s.usnl = some u) (here : u.pc = .start) :
      Transition s (.usnl ids) (sendCommand s u .startTracing .request ids)
  | request (ids : IdContext) (u : Usnl) (running : s.usnl = some u) (here : u.pc = .request)
      (more : u.totcount < TO_OBTAIN) :
      Transition s (.usnl ids) (sendCommand s u .requestEntry .reply ids)
  | enough (ids : IdContext) (u : Usnl) (running : s.usnl = some u) (here : u.pc = .request)
      (all : TO_OBTAIN ≤ u.totcount) :
      Transition s (.usnl ids) { s with usnl := some { u with pc := .stop } }
  | reply (ids : IdContext) (u : Usnl) (m : Message) (rest : List Message)
      (running : s.usnl = some u) (here : u.pc = .reply) (queued : u.queue = m :: rest) :
      Transition s (.usnl ids) { s with usnl := some ((u.taking rest).readReply m) }
  | sync (ids : IdContext) (u : Usnl) (running : s.usnl = some u) (here : u.pc = .sync) :
      Transition s (.usnl ids) (sendCommand s u .syncComplete .wait ids)
  | wait (ids : IdContext) (u : Usnl) (m : Message) (rest : List Message)
      (running : s.usnl = some u) (here : u.pc = .wait) (queued : u.queue = m :: rest) :
      Transition s (.usnl ids) { s with usnl := some (u.awakened rest) }
  | stop (ids : IdContext) (u : Usnl) (running : s.usnl = some u) (here : u.pc = .stop) :
      Transition s (.usnl ids) (sendCommand s u .stopTracing .done ids)

theorem usnl_step_transition {s t : System} {u : Usnl} {ids : IdContext} (running : s.usnl = some u)
    (h : usnlStep s u ids = some t) : Transition s (.usnl ids) t := by
  unfold usnlStep at h
  cases here : u.pc <;> rw [here] at h <;> dsimp only at h
  · exact Option.some.inj h ▸ Transition.start ids u running here
  · split at h
    · rename_i more
      exact Option.some.inj h ▸ Transition.request ids u running here more
    · rename_i all
      exact Option.some.inj h ▸ Transition.enough ids u running here (Nat.not_lt.mp all)
  · split at h
    · cases h
    · rename_i m rest queued
      exact Option.some.inj h ▸ Transition.reply ids u m rest running here queued
  · exact Option.some.inj h ▸ Transition.sync ids u running here
  · split at h
    · cases h
    · rename_i m rest queued
      exact Option.some.inj h ▸ Transition.wait ids u m rest running here queued
  · exact Option.some.inj h ▸ Transition.stop ids u running here
  · cases h

theorem step_transition {s t : System} {a : Act} (h : step s a = some t) : Transition s a t := by
  cases a with
  | traceEntry e =>
    simp only [step, Option.ite_none_right_eq_some] at h
    exact Option.some.inj h.2 ▸ Transition.traceEntry e h.1
  | stopTracing => exact Option.some.inj h ▸ Transition.stopTracing
  | call =>
    simp only [step, Option.ite_none_left_eq_some] at h
    exact Option.some.inj h.2 ▸ Transition.call h.1
  | tasklet =>
    simp only [step, Option.ite_none_left_eq_some] at h
    exact Option.some.inj h.2 ▸ Transition.tasklet h.1
  | spawn pid srvaddr toobtain =>
    simp only [step, Option.ite_none_right_eq_some] at h
    exact Option.some.inj h.2 ▸ Transition.spawn pid srvaddr toobtain h.1.1 h.1.2
  | kill =>
    simp only [step] at h
    split at h
    · cases h
    · rename_i u running
      exact Option.some.inj h ▸ Transition.kill u running
  | usnl ids =>
    simp only [step] at h
    split at h
    · cases h
    · rename_i u running
      exact usnl_step_transition running h

def opened (k : Tracer) (pid : Nat) : Tracer :=
  { k with usPid := pid, lastentry := 0, tracingActive := true }

theorem send_start (s : System) (u : Usnl) (ids : IdContext) :
    sendCommand s u .startTracing .request ids =
      ⟨traceIDs (opened s.tracer u.pid) ids, some { u with pc := .request }⟩ := by
  simp only [sendCommand, nlRcvFunc, opened, Option.toList_none, List.foldl_nil]

theorem send_request (s : System) (u : Usnl) (ids : IdContext) (addressed : s.tracer.usPid = u.pid) :
    sendCommand s u .requestEntry .reply ids =
      ⟨(requestEntry s.tracer).1,
        some (Usnl.push { u with pc := .reply } (requestEntry s.tracer).2)⟩ := by
  have same : ({ s.tracer with usPid := u.pid } : Tracer) = s.tracer := by rw [← addressed]
  simp only [sendCommand, nlRcvFunc, same, Option.toList_some, List.foldl_cons, List.foldl_nil]

theorem send_sync (s : System) (u : Usnl) (ids : IdContext) (off : s.tracer.tracingActive = false) :
    sendCommand s u .syncComplete .wait ids =
      ⟨{ s.tracer with usPid := u.pid, lastread := 0, lastentry := 0, taskletScheduled := false,
                       tracingActive := true }, some { u with pc := .wait }⟩ := by
  simp [sendCommand, nlRcvFunc, off]

theorem code_small (t : SepentryType) : t.code < 45 := by cases t <;> decide

theorem first_word_entry (e : Sepentry) :
    firstWord (.entry e) ≠ STOP_TRACING ∧ firstWord (.entry e) ≠ END_OF_DATA ∧
      firstWord (.entry e) ≠ WAKE_UP_USNL := by
  have small := code_small e.type
  simp only [firstWord, STOP_TRACING, END_OF_DATA, WAKE_UP_USNL]
  omega

theorem read_reply_stop (u : Usnl) : u.readReply .stopTracing = { u with pc := .stop } := by
  simp [Usnl.readReply, firstWord]

theorem read_reply_eod (u : Usnl) :
    u.readReply .endOfData =
      { u with file := u.file ++ [.eod], pc := if u.curcount ≠ 0 then .sync else .wait } := by
  simp [Usnl.readReply, firstWord, STOP_TRACING, END_OF_DATA]

theorem read_reply_wake (u : Usnl) : u.readReply .wakeUpUsnl = { u with pc := .request } := by
  simp [Usnl.readReply, firstWord, STOP_TRACING, END_OF_DATA, WAKE_UP_USNL]

theorem read_reply_entry (u : Usnl) (e : Sepentry) :
    u.readReply (.entry e) = u.writeLine (.entry e) := by
  obtain ⟨stop, eod, wake⟩ := first_word_entry e
  simp [Usnl.readReply, stop, eod, wake]

theorem count_keeps (u : Usnl) (m : Message) :
    (u.count m).pid = u.pid ∧ (u.count m).queue = u.queue ∧ (u.count m).file = u.file ∧
      (u.count m).curcount = u.curcount ∧ (u.count m).srvaddr = u.srvaddr ∧
      (u.count m).totcount = u.totcount := by
  unfold Usnl.count
  split
  · split
    · exact ⟨rfl, rfl, rfl, rfl, rfl, rfl⟩
    · split <;> exact ⟨rfl, rfl, rfl, rfl, rfl, rfl⟩
  · exact ⟨rfl, rfl, rfl, rfl, rfl, rfl⟩

structure Written (u v : Usnl) (m : Message) : Prop where
  pid : v.pid = u.pid
  queue : v.queue = u.queue
  file : v.file = u.file ++ [.line m]
  curcount : v.curcount = u.curcount + 1
  srvaddr : v.srvaddr = u.srvaddr
  totcount : v.totcount = u.totcount
  pc : v.pc = .request ∨
    v.pc = .stop ∧ (u.srvaddr ≠ 0 ∨ TO_OBTAIN ≤ u.totcount)

theorem write_line_written (u : Usnl) (m : Message) : Written u (u.writeLine m) m := by
  obtain ⟨pid, queue, file, curcount, srvaddr, totcount⟩ :=
    count_keeps { u with file := u.file ++ [.line m], curcount := u.curcount + 1 } m
  unfold Usnl.writeLine
  dsimp only
  split
  · rename_i enough
    exact ⟨pid, queue, file, curcount, srvaddr, totcount,
      Or.inr ⟨rfl, Or.inl (srvaddr ▸ enough.1)⟩⟩
  · split
    · rename_i enough
      exact ⟨pid, queue, file, curcount, srvaddr, totcount,
        Or.inr ⟨rfl, Or.inr (totcount ▸ enough.2)⟩⟩
    · exact ⟨pid, queue, file, curcount, srvaddr, totcount, Or.inl rfl⟩

theorem read_reply_keeps (u : Usnl) (m : Message) :
    (u.readReply m).pid = u.pid ∧ (u.readReply m).queue = u.queue ∧ (u.readReply m).pc ≠ .reply ∧
      (u.readReply m).pc ≠ .start := by
  cases m with
  | endOfData =>
    rw [read_reply_eod]
    refine ⟨rfl, rfl, ?_, ?_⟩ <;> dsimp only <;> split <;> simp
  | stopTracing => rw [read_reply_stop]; simp
  | wakeUpUsnl => rw [read_reply_wake]; simp
  | entry e =>
    rw [read_reply_entry]
    have w := write_line_written u (.entry e)
    refine ⟨w.pid, w.queue, ?_, ?_⟩ <;> rcases w.pc with pc | ⟨pc, _⟩ <;> simp [pc]

end UsnlSession
