import Mathlib.Data.Set.Card
import SepExtract.UsnlSession

/- When usnl leaves its loop. It counts the exits of the service under investigation with one
   flag for all threads, and the entries of a session without arguments with a counter that
   nothing increases. -/
namespace SampleCounting
open TracerKernel UsnlSession

section Receiving

/-- The process at its next recvmsg, or out of its loop; the messages come one by one, so
    nothing is left on the socket. -/
def settled (u : Usnl) : Usnl :=
  { u with
    queue := []
    pc := match u.pc with
      | .start | .request => if u.totcount < TO_OBTAIN then .reply else .stop
      | .sync => .wait
      | .done => .stop
      | pc => pc }

def receive (u : Usnl) (m : Message) : Usnl :=
  match u.pc with
  | .reply => settled (u.readReply m)
  | .wait => settled (u.awakened [])
  | _ => u

inductive Received where
  | entry (e : Sepentry)
  | endOfData
  | wakeUp
  deriving DecidableEq, Repr

def Received.message : Received → Message
  | .entry e => .entry e
  | .endOfData => .endOfData
  | .wakeUp => .wakeUpUsnl

def session (srvaddr : UInt32) (toobtain : Nat) (ms : List Received) : Usnl :=
  ms.foldl (fun u m => receive u m.message) (settled (Usnl.spawn 1 srvaddr toobtain))

end Receiving

section Executions

def serviceEvent (srvaddr : UInt32) : FileLine → Option (Bool × UInt16)
  | .line (.entry e) =>
    if e.addr = srvaddr then
      if e.type = .serviceentry then some (true, e.currpid)
      else if e.type = .serviceexit then some (false, e.currpid)
      else none
    else none
  | _ => none

def eventAt (srvaddr : UInt32) (file : List FileLine) (i : Nat) : Option (Bool × UInt16) :=
  file[i]?.bind (serviceEvent srvaddr)

def OpenAt (srvaddr : UInt32) (thread : UInt16) (file : List FileLine) (i : Nat) : Prop :=
  eventAt srvaddr file i = some (true, thread) ∧
    ∀ k, i < k → file[k]? ≠ some .eod ∧ ∀ b, eventAt srvaddr file k ≠ some (b, thread)

/-- A completed execution: an entry and a later exit of one thread with no mark and no event of the
    thread in between. -/
def Execution (srvaddr : UInt32) (file : List FileLine) (i j : Nat) : Prop :=
  ∃ thread, i < j ∧ eventAt srvaddr file i = some (true, thread) ∧
    eventAt srvaddr file j = some (false, thread) ∧
    ∀ k, i < k → k < j → file[k]? ≠ some .eod ∧ ∀ b, eventAt srvaddr file k ≠ some (b, thread)

noncomputable def executions (srvaddr : UInt32) (file : List FileLine) : Nat :=
  Set.ncard { p : Nat × Nat | Execution srvaddr file p.1 p.2 }

/-- The last event of the threads in the buffer being drained, from the last line back. -/
def lastEvent (srvaddr : UInt32) (threads : UInt16 → Bool) : List FileLine → Option Bool
  | [] => none
  | .eod :: _ => none
  | l :: back =>
    match serviceEvent srvaddr l with
    | some (b, thread) => if threads thread then some b else lastEvent srvaddr threads back
    | none => lastEvent srvaddr threads back

def closes (srvaddr : UInt32) (related : UInt16 → UInt16 → Bool) (l : FileLine) (back : List FileLine) : Bool :=
  match serviceEvent srvaddr l with
  | some (false, thread) => lastEvent srvaddr (related thread) back = some true
  | _ => false

def closings (srvaddr : UInt32) (related : UInt16 → UInt16 → Bool) : List FileLine → Nat
  | [] => 0
  | l :: back => closings srvaddr related back + if closes srvaddr related l back then 1 else 0

def sameThread (thread other : UInt16) : Bool := other = thread

def anyThread (_ _ : UInt16) : Bool := true

@[simp] theorem anyThread_apply (thread : UInt16) : anyThread thread = fun _ => true := rfl

variable {srvaddr : UInt32} {thread : UInt16} {file : List FileLine} {l : FileLine} {i j : Nat}

theorem eventAt_lt {e : Bool × UInt16} (found : eventAt srvaddr file i = some e) : i < file.length := by
  by_contra outside
  simp [eventAt, List.getElem?_eq_none (not_lt.mp outside)] at found

theorem eventAt_snoc (small : i < file.length) : eventAt srvaddr (file ++ [l]) i = eventAt srvaddr file i := by
  simp [eventAt, List.getElem?_append_left small]

theorem eventAt_last : eventAt srvaddr (file ++ [l]) file.length = serviceEvent srvaddr l := by
  simp [eventAt]

theorem openAt_snoc : OpenAt srvaddr thread (file ++ [l]) i ↔
    (i = file.length ∧ serviceEvent srvaddr l = some (true, thread)) ∨
    (OpenAt srvaddr thread file i ∧ l ≠ .eod ∧ ∀ b, serviceEvent srvaddr l ≠ some (b, thread)) := by
  constructor
  · rintro ⟨entry, later⟩
    have inside := eventAt_lt entry
    rw [List.length_append, List.length_singleton] at inside
    obtain small | rfl := Nat.lt_succ_iff_lt_or_eq.mp inside
    · obtain ⟨mark, event⟩ := later file.length small
      rw [eventAt_last] at event
      refine .inr ⟨⟨by rwa [eventAt_snoc small] at entry, fun k hk => ?_⟩, by simpa using mark, event⟩
      by_cases inside : k < file.length
      · have := later k hk
        rwa [eventAt_snoc inside, List.getElem?_append_left inside] at this
      · simp [eventAt, List.getElem?_eq_none (not_lt.mp inside)]
    · exact .inl ⟨rfl, by rwa [eventAt_last] at entry⟩
  · rintro (⟨rfl, entry⟩ | ⟨⟨entry, later⟩, mark, event⟩)
    · refine ⟨by rwa [eventAt_last], fun k hk => ?_⟩
      have outside : (file ++ [l])[k]? = none := List.getElem?_eq_none (by simp; omega)
      simp [eventAt, outside]
    · refine ⟨by rwa [eventAt_snoc (eventAt_lt entry)], fun k hk => ?_⟩
      obtain inside | rfl | outside := Nat.lt_trichotomy k file.length
      · rw [eventAt_snoc inside, List.getElem?_append_left inside]
        exact later k hk
      · rw [eventAt_last]
        exact ⟨by simpa using mark, event⟩
      · have outside : (file ++ [l])[k]? = none := List.getElem?_eq_none (by simp; omega)
        simp [eventAt, outside]

theorem openAt_unique (first : OpenAt srvaddr thread file i) (second : OpenAt srvaddr thread file j) : i = j := by
  obtain before | equal | after := Nat.lt_trichotomy i j
  · exact absurd second.1 ((first.2 j before).2 true)
  · exact equal
  · exact absurd first.1 ((second.2 i after).2 true)

theorem openAt_iff : (∃ i, OpenAt srvaddr thread file i) ↔
    lastEvent srvaddr (sameThread thread) file.reverse = some true := by
  induction file using List.reverseRecOn with
  | nil => simp [OpenAt, eventAt, lastEvent]
  | append_singleton file l ih =>
    simp only [openAt_snoc, exists_or, exists_eq_left, exists_and_right, ih, List.reverse_append,
      List.reverse_singleton, List.singleton_append]
    cases l with
    | eod => simp [lastEvent, serviceEvent]
    | line m =>
      simp only [lastEvent]
      cases found : serviceEvent srvaddr (.line m) with
      | none => simp
      | some e =>
        by_cases own : e.2 = thread
        · simp [sameThread, own, Prod.ext_iff]
        · simp [sameThread, own, Prod.ext_iff]

theorem execution_snoc : Execution srvaddr (file ++ [l]) i j ↔ Execution srvaddr file i j ∨
    j = file.length ∧ ∃ thread, serviceEvent srvaddr l = some (false, thread) ∧ OpenAt srvaddr thread file i := by
  constructor
  · rintro ⟨thread, before, entry, exit, between⟩
    have inside := eventAt_lt exit
    rw [List.length_append, List.length_singleton] at inside
    obtain small | rfl := Nat.lt_succ_iff_lt_or_eq.mp inside
    · rw [eventAt_snoc small] at exit
      rw [eventAt_snoc (before.trans small)] at entry
      refine .inl ⟨thread, before, entry, exit, fun k hi hj => ?_⟩
      have := between k hi hj
      rwa [eventAt_snoc (hj.trans small), List.getElem?_append_left (hj.trans small)] at this
    · rw [eventAt_last] at exit
      rw [eventAt_snoc before] at entry
      refine .inr ⟨rfl, thread, exit, entry, fun k hk => ?_⟩
      by_cases inside : k < file.length
      · have := between k hk inside
        rwa [eventAt_snoc inside, List.getElem?_append_left inside] at this
      · simp [eventAt, List.getElem?_eq_none (not_lt.mp inside)]
  · rintro (⟨thread, before, entry, exit, between⟩ | ⟨rfl, thread, exit, entry, later⟩)
    · have small := eventAt_lt exit
      refine ⟨thread, before, by rwa [eventAt_snoc (before.trans small)], by rwa [eventAt_snoc small],
        fun k hi hj => ?_⟩
      rw [eventAt_snoc (hj.trans small), List.getElem?_append_left (hj.trans small)]
      exact between k hi hj
    · have before := eventAt_lt entry
      refine ⟨thread, before, by rwa [eventAt_snoc before], by rwa [eventAt_last], fun k hi hj => ?_⟩
      rw [eventAt_snoc hj, List.getElem?_append_left hj]
      exact later k hi

theorem executions_finite (srvaddr : UInt32) (file : List FileLine) :
    { p : Nat × Nat | Execution srvaddr file p.1 p.2 }.Finite := by
  refine ((Set.finite_lt_nat file.length).prod (Set.finite_lt_nat file.length)).subset ?_
  rintro ⟨i, j⟩ ⟨thread, -, entry, exit, -⟩
  exact ⟨eventAt_lt entry, eventAt_lt exit⟩

theorem executions_eq (srvaddr : UInt32) (file : List FileLine) :
    executions srvaddr file = closings srvaddr sameThread file.reverse := by
  induction file using List.reverseRecOn with
  | nil => simp [executions, closings, Execution, eventAt]
  | append_singleton file l ih =>
    simp only [List.reverse_append, List.reverse_singleton, List.singleton_append, closings, ← ih]
    by_cases closed : closes srvaddr sameThread l file.reverse = true
    · obtain ⟨thread, exit, last⟩ : ∃ thread, serviceEvent srvaddr l = some (false, thread) ∧
          lastEvent srvaddr (sameThread thread) file.reverse = some true := by
        unfold closes at closed
        split at closed
        · rename_i thread exit
          exact ⟨thread, exit, by simpa using closed⟩
        · cases closed
      obtain ⟨i, opened⟩ := openAt_iff.mpr last
      have more : { p : Nat × Nat | Execution srvaddr (file ++ [l]) p.1 p.2 } =
          insert (i, file.length) { p : Nat × Nat | Execution srvaddr file p.1 p.2 } := by
        ext ⟨a, b⟩
        simp only [Set.mem_ofPred_eq, Set.mem_insert_iff, Prod.mk.injEq, execution_snoc, exit, Option.some.injEq,
          true_and, exists_eq_left']
        constructor
        · rintro (old | ⟨rfl, new⟩)
          · exact .inr old
          · exact .inl ⟨openAt_unique new opened, rfl⟩
        · rintro (⟨rfl, rfl⟩ | old)
          · exact .inr ⟨rfl, opened⟩
          · exact .inl old
      have fresh : (i, file.length) ∉ { p : Nat × Nat | Execution srvaddr file p.1 p.2 } := by
        rintro ⟨_, -, -, exit, -⟩
        exact absurd (eventAt_lt exit) (Nat.lt_irrefl _)
      rw [executions, more, Set.ncard_insert_of_notMem fresh (executions_finite srvaddr file), if_pos closed]
      rfl
    · have same : { p : Nat × Nat | Execution srvaddr (file ++ [l]) p.1 p.2 } =
          { p : Nat × Nat | Execution srvaddr file p.1 p.2 } := by
        ext ⟨a, b⟩
        simp only [Set.mem_ofPred_eq, execution_snoc, or_iff_left_iff_imp]
        rintro ⟨rfl, thread, exit, opened⟩
        exact absurd (by simpa [closes, exit] using openAt_iff.mp ⟨a, opened⟩) closed
      rw [executions, same, if_neg closed]
      rfl

end Executions

section Sessions

structure Draining where
  waiting : Bool
  file : List FileLine
  deriving DecidableEq, Repr

/-- What a message adds to the file of a process that does not leave its loop. A message that ends
    the wait is not looked at. -/
def Draining.take (d : Draining) (m : Received) : Draining :=
  if d.waiting then { d with waiting := false }
  else match m with
    | .entry e => { d with file := d.file ++ [.line (.entry e)] }
    | .endOfData => ⟨true, d.file ++ [.eod]⟩
    | .wakeUp => d

def drained (ms : List Received) : Draining := ms.foldl Draining.take ⟨false, []⟩

def Draining.pc (d : Draining) : Pc := if d.waiting then .wait else .reply

structure Follows (u : Usnl) (d : Draining) : Prop where
  totcount : u.totcount = 0
  pc : u.pc = d.pc
  file : u.file = d.file

structure Counts (srvaddr : UInt32) (u : Usnl) (d : Draining) : Prop where
  address : u.srvaddr = srvaddr
  outcount : u.outcount = closings srvaddr anyThread d.file.reverse
  inservice : d.waiting = false →
    u.inservice = decide (lastEvent srvaddr (fun _ => true) d.file.reverse = some true)
  mark : d.waiting = true → lastEvent srvaddr (fun _ => true) d.file.reverse = none

variable {srvaddr : UInt32} {u : Usnl} {d : Draining} {n : Nat}

theorem count_line (address : u.srvaddr = srvaddr) (positive : srvaddr ≠ 0) (e : Sepentry) (back : List FileLine)
    (inservice : u.inservice = decide (lastEvent srvaddr (fun _ => true) back = some true)) :
    (u.count (.entry e)).outcount =
      u.outcount + (if closes srvaddr anyThread (.line (.entry e)) back then 1 else 0) ∧
    (u.count (.entry e)).inservice =
      decide (lastEvent srvaddr (fun _ => true) (.line (.entry e) :: back) = some true) := by
  by_cases own : e.addr = srvaddr
  · by_cases entry : e.type = .serviceentry
    · simp [Usnl.count, closes, lastEvent, serviceEvent, own, entry, address, positive]
    · by_cases exit : e.type = .serviceexit
      · by_cases before : lastEvent srvaddr (fun _ => true) back = some true
        · simp [Usnl.count, closes, lastEvent, serviceEvent, own, exit, address, positive, inservice, before]
        · simp [Usnl.count, closes, lastEvent, serviceEvent, own, exit, address, positive, inservice, before]
      · simp [Usnl.count, closes, lastEvent, serviceEvent, own, entry, exit, inservice]
  · simp [Usnl.count, closes, lastEvent, serviceEvent, own, address, inservice]

theorem receive_entry (totcount : u.totcount = 0) (here : u.pc = .reply) (e : Sepentry) :
    receive u (.entry e) =
      { Usnl.count { u with file := u.file ++ [.line (.entry e)], curcount := u.curcount + 1 } (.entry e) with
        queue := []
        pc := if u.srvaddr ≠ 0 ∧ u.toobtain ≤ (u.count (.entry e)).outcount then .stop else .reply } := by
  have none_yet : ¬ TO_OBTAIN ≤ 0 := by decide
  simp only [receive, here, read_reply_entry, Usnl.writeLine, Usnl.count, totcount]
  split_ifs <;> simp_all [settled]

theorem receive_outcount (totcount : u.totcount = 0) (here : u.pc = .reply) (e : Sepentry) :
    (receive u (.entry e)).outcount = (u.count (.entry e)).outcount := by
  rw [receive_entry totcount here]
  simp only [Usnl.count]
  split_ifs <;> rfl

theorem receive_follows (follows : Follows u d) (m : Received)
    (stays : ∀ e, m = .entry e → d.waiting = false → u.srvaddr ≠ 0 → (u.count (.entry e)).outcount < u.toobtain) :
    Follows (receive u m.message) (d.take m) := by
  have pc := follows.pc
  cases waiting : d.waiting with
  | true =>
    simp only [Draining.pc, waiting, if_true] at pc
    refine ⟨?_, ?_, ?_⟩ <;>
      simp [receive, pc, settled, Usnl.awakened, Draining.take, waiting, Draining.pc, follows.totcount, follows.file]
    decide
  | false =>
    simp only [Draining.pc, waiting, Bool.false_eq_true, if_false] at pc
    cases m with
    | entry e =>
      have goes : ¬ (u.srvaddr ≠ 0 ∧ u.toobtain ≤ (u.count (.entry e)).outcount) := fun h =>
        absurd h.2 (not_le.mpr (stays e rfl waiting h.1))
      have kept := count_keeps { u with file := u.file ++ [.line (.entry e)], curcount := u.curcount + 1 } (.entry e)
      simp only [Received.message, receive_entry follows.totcount pc, if_neg goes, Draining.take, waiting,
        Bool.false_eq_true, if_false]
      refine ⟨?_, ?_, ?_⟩
      · exact kept.2.2.2.2.2.trans follows.totcount
      · simp [Draining.pc]
      · exact kept.2.2.1.trans (by rw [follows.file])
    | endOfData =>
      simp only [Received.message, receive, pc, read_reply_eod, Draining.take, waiting, Bool.false_eq_true, if_false]
      refine ⟨follows.totcount, ?_, ?_⟩
      · simp only [settled, Draining.pc, if_true]
        split_ifs <;> rfl
      · simp [settled, follows.file]
    | wakeUp =>
      simp only [Received.message, receive, pc, read_reply_wake, Draining.take, waiting, Bool.false_eq_true, if_false]
      refine ⟨follows.totcount, ?_, follows.file⟩
      simp [settled, follows.totcount, TO_OBTAIN, Draining.pc, waiting]

theorem receive_counts (follows : Follows u d) (counts : Counts srvaddr u d) (positive : srvaddr ≠ 0)
    (m : Received) : Counts srvaddr (receive u m.message) (d.take m) := by
  have pc := follows.pc
  cases waiting : d.waiting with
  | true =>
    simp only [Draining.pc, waiting, if_true] at pc
    simp only [receive, pc, settled, Usnl.awakened, Draining.take, waiting, if_true]
    exact ⟨counts.address, counts.outcount, fun _ => by simp [counts.mark waiting], nofun⟩
  | false =>
    simp only [Draining.pc, waiting, Bool.false_eq_true, if_false] at pc
    cases m with
    | entry e =>
      have kept := count_keeps { u with file := u.file ++ [.line (.entry e)], curcount := u.curcount + 1 } (.entry e)
      obtain ⟨out, flag⟩ := count_line
        (u := { u with file := u.file ++ [.line (.entry e)], curcount := u.curcount + 1 }) counts.address positive e
        d.file.reverse (counts.inservice waiting)
      simp only [Received.message, receive_entry follows.totcount pc, Draining.take, waiting, Bool.false_eq_true,
        if_false]
      refine ⟨kept.2.2.2.2.1.trans counts.address, ?_, fun _ => ?_, fun h => absurd h (by simp)⟩
      · simpa [closings, counts.outcount] using out
      · simpa using flag
    | endOfData =>
      simp only [Received.message, receive, pc, read_reply_eod, Draining.take, waiting, Bool.false_eq_true, if_false]
      refine ⟨counts.address, ?_, nofun, fun _ => by simp [lastEvent]⟩
      simp [settled, closings, closes, serviceEvent, counts.outcount]
    | wakeUp =>
      simp only [Received.message, receive, pc, read_reply_wake, Draining.take, waiting, Bool.false_eq_true, if_false]
      exact ⟨counts.address, counts.outcount, counts.inservice, counts.mark⟩

theorem receive_toobtain (u : Usnl) (m : Message) : (receive u m).toobtain = u.toobtain := by
  have counted : ∀ v : Usnl, (v.count m).toobtain = v.toobtain := by
    intro v
    unfold Usnl.count
    split
    · split_ifs <;> rfl
    · rfl
  unfold receive
  split
  · simp only [settled, Usnl.readReply, Usnl.writeLine]
    split_ifs <;> simp only [counted]
  · rfl
  · rfl

theorem receive_stopped (stopped : u.pc = .stop) (m : Message) : receive u m = u := by
  simp [receive, stopped]

theorem session_snoc (srvaddr : UInt32) (n : Nat) (ms : List Received) (m : Received) :
    session srvaddr n (ms ++ [m]) = receive (session srvaddr n ms) m.message := by
  simp [session]

theorem drained_snoc (ms : List Received) (m : Received) : drained (ms ++ [m]) = (drained ms).take m := by
  simp [drained]

theorem session_toobtain (srvaddr : UInt32) (n : Nat) (ms : List Received) :
    (session srvaddr n ms).toobtain = n := by
  induction ms using List.reverseRecOn with
  | nil => rfl
  | append_singleton ms m ih => rw [session_snoc, receive_toobtain, ih]

theorem closings_take (srvaddr : UInt32) (related : UInt16 → UInt16 → Bool) (d : Draining) (m : Received) :
    closings srvaddr related d.file.reverse ≤ closings srvaddr related (d.take m).file.reverse ∧
    closings srvaddr related (d.take m).file.reverse ≤ closings srvaddr related d.file.reverse + 1 := by
  unfold Draining.take
  split
  · simp
  · cases m with
    | wakeUp => simp
    | entry e =>
      simp only [List.reverse_append, List.reverse_singleton, List.singleton_append, closings]
      split_ifs <;> omega
    | endOfData =>
      simp only [List.reverse_append, List.reverse_singleton, List.singleton_append, closings]
      split_ifs <;> omega

theorem closings_mono (srvaddr : UInt32) (related : UInt16 → UInt16 → Bool) {p ms : List Received}
    (earlier : p <+: ms) :
    closings srvaddr related (drained p).file.reverse ≤ closings srvaddr related (drained ms).file.reverse := by
  obtain ⟨more, rfl⟩ := earlier
  induction more using List.reverseRecOn with
  | nil => simp
  | append_singleton more m ih =>
    rw [← List.append_assoc, drained_snoc]
    exact ih.trans (closings_take srvaddr related _ m).1

theorem entry_of_closing (srvaddr : UInt32) (related : UInt16 → UInt16 → Bool) {m : Received}
    (grown : closings srvaddr related d.file.reverse < closings srvaddr related (d.take m).file.reverse) :
    ∃ e, m = .entry e ∧ d.waiting = false := by
  cases waiting : d.waiting with
  | true =>
    simp only [Draining.take, waiting, if_true] at grown
    exact absurd grown (Nat.lt_irrefl _)
  | false =>
    cases m with
    | entry e => exact ⟨e, rfl, rfl⟩
    | endOfData => simp [Draining.take, waiting, closings, closes, serviceEvent] at grown
    | wakeUp =>
      simp only [Draining.take, waiting, Bool.false_eq_true, if_false] at grown
      exact absurd grown (Nat.lt_irrefl _)

structure InLoop (srvaddr : UInt32) (n : Nat) (ms : List Received) : Prop where
  follows : Follows (session srvaddr n ms) (drained ms)
  counts : Counts srvaddr (session srvaddr n ms) (drained ms)
  fewer : (session srvaddr n ms).outcount < n

structure Left (srvaddr : UInt32) (n : Nat) (ms : List Received) (p : List Received) : Prop where
  earlier : p <+: ms
  stopped : (session srvaddr n ms).pc = .stop
  file : (session srvaddr n ms).file = (drained p).file
  enough : (session srvaddr n ms).outcount = n
  counted : closings srvaddr anyThread (drained p).file.reverse = n

theorem inLoop_snoc (positive : srvaddr ≠ 0) {ms : List Received} (inside : InLoop srvaddr n ms) (m : Received) :
    InLoop srvaddr n (ms ++ [m]) ∨ Left srvaddr n (ms ++ [m]) (ms ++ [m]) := by
  obtain ⟨follows, counts, fewer⟩ := inside
  have counted := receive_counts follows counts positive m
  have grown := (closings_take srvaddr anyThread (drained ms) m).2
  rw [← counts.outcount, ← counted.outcount] at grown
  by_cases enough : n ≤ (receive (session srvaddr n ms) m.message).outcount
  · -- the message is an entry that was written, so the process is past its test of the count
    have exact_count : (receive (session srvaddr n ms) m.message).outcount = n := by omega
    obtain ⟨e, rfl, waiting⟩ : ∃ e, m = .entry e ∧ (drained ms).waiting = false := by
      refine entry_of_closing srvaddr anyThread ?_
      rw [← counted.outcount, ← counts.outcount]
      omega
    have pc : (session srvaddr n ms).pc = .reply := by rw [follows.pc, Draining.pc, waiting]; rfl
    have added := receive_entry follows.totcount pc e
    have same := receive_outcount follows.totcount pc e
    have kept := count_keeps { session srvaddr n ms with
      file := (session srvaddr n ms).file ++ [.line (.entry e)]
      curcount := (session srvaddr n ms).curcount + 1 } (.entry e)
    refine .inr ⟨List.prefix_rfl, ?_, ?_, ?_, ?_⟩
    · rw [session_snoc, Received.message, added, if_pos]
      exact ⟨fun zero => positive (counts.address.symm.trans zero), by rw [session_toobtain, ← same]; exact enough⟩
    · rw [session_snoc, Received.message, added, drained_snoc]
      simp only [Draining.take, waiting, Bool.false_eq_true, if_false]
      exact kept.2.2.1.trans (by rw [follows.file])
    · rw [session_snoc, exact_count]
    · rw [drained_snoc, ← counted.outcount, exact_count]
  · refine .inl ⟨?_, by rwa [session_snoc, drained_snoc], by rw [session_snoc]; exact not_le.mp enough⟩
    rw [session_snoc, drained_snoc]
    refine receive_follows follows m fun e entry waiting _ => ?_
    have pc : (session srvaddr n ms).pc = .reply := by rw [follows.pc, Draining.pc, waiting]; rfl
    rw [session_toobtain, ← receive_outcount follows.totcount pc e]
    rw [entry] at enough
    exact not_le.mp enough

theorem session_cases (positive : srvaddr ≠ 0) (some_asked : 1 ≤ n) (ms : List Received) :
    InLoop srvaddr n ms ∨ ∃ p, Left srvaddr n ms p := by
  induction ms using List.reverseRecOn with
  | nil => exact .inl ⟨⟨rfl, rfl, rfl⟩, ⟨rfl, rfl, fun _ => rfl, nofun⟩, some_asked⟩
  | append_singleton ms m ih =>
    obtain inside | ⟨p, left⟩ := ih
    · exact (inLoop_snoc positive inside m).imp_right fun left => ⟨_, left⟩
    · have kept : session srvaddr n (ms ++ [m]) = session srvaddr n ms := by
        rw [session_snoc, receive_stopped left.stopped]
      exact .inr ⟨p, left.earlier.trans (List.prefix_append _ _), by rw [kept, left.stopped],
        by rw [kept, left.file], by rw [kept, left.enough], left.counted⟩

theorem InLoop.pc_ne {ms : List Received} (inside : InLoop srvaddr n ms) : (session srvaddr n ms).pc ≠ .stop := by
  rw [inside.follows.pc, Draining.pc]
  split <;> decide

end Sessions

section Samples

/-- The session leaves its loop exactly when the file holds the executions it was asked for, and
    what it has counted are the executions in the file. -/
def Exact (srvaddr : UInt32) (n : Nat) (ms : List Received) : Prop :=
  ((session srvaddr n ms).pc = .stop ↔ executions srvaddr (session srvaddr n ms).file = n) ∧
  (session srvaddr n ms).outcount = executions srvaddr (session srvaddr n ms).file

/-- At every exit of the service, the last event of the service in the buffer is an entry exactly if
    the last one of the exit's own thread is. -/
def Agreeing (srvaddr : UInt32) (file : List FileLine) : Prop :=
  ∀ before l, before ++ [l] <+: file →
    closes srvaddr anyThread l before.reverse = closes srvaddr sameThread l before.reverse

def written (file : List FileLine) : Nat := file.countP (· ≠ .eod)

variable {srvaddr : UInt32} {n : Nat}

theorem closings_eq_iff (file : List FileLine) : Agreeing srvaddr file ↔ ∀ before, before <+: file →
    closings srvaddr anyThread before.reverse = closings srvaddr sameThread before.reverse := by
  constructor
  · intro agreeing before inside
    induction before using List.reverseRecOn with
    | nil => rfl
    | append_singleton before l ih =>
      simp only [List.reverse_append, List.reverse_singleton, List.singleton_append, closings]
      rw [ih ((List.prefix_append before [l]).trans inside), agreeing before l inside]
  · intro equal before l inside
    have now := equal (before ++ [l]) inside
    have earlier := equal before ((List.prefix_append before [l]).trans inside)
    simp only [List.reverse_append, List.reverse_singleton, List.singleton_append, closings, earlier,
      Nat.add_left_cancel_iff] at now
    cases any : closes srvaddr anyThread l before.reverse <;>
      cases own : closes srvaddr sameThread l before.reverse <;> simp_all

theorem exact_of_agreeing (positive : srvaddr ≠ 0) (some_asked : 1 ≤ n) {ms : List Received}
    (equal : ∀ p, p <+: ms → closings srvaddr anyThread (drained p).file.reverse =
      closings srvaddr sameThread (drained p).file.reverse) : Exact srvaddr n ms := by
  unfold Exact
  obtain inside | ⟨p, left⟩ := session_cases positive some_asked ms
  · have number : executions srvaddr (session srvaddr n ms).file = (session srvaddr n ms).outcount := by
      rw [inside.follows.file, executions_eq, ← equal ms List.prefix_rfl, inside.counts.outcount]
    rw [number]
    exact ⟨iff_of_false inside.pc_ne (Nat.ne_of_lt inside.fewer), rfl⟩
  · have number : executions srvaddr (session srvaddr n ms).file = n := by
      rw [left.file, executions_eq, ← equal p left.earlier, left.counted]
    rw [number]
    exact ⟨iff_of_true left.stopped rfl, left.enough⟩

/-- A session asked for one execution more than both counts have keeps them equal, if it leaves
    exactly with that execution. -/
theorem next_equal {ms : List Received} {m : Received} (positive : srvaddr ≠ 0)
    (equal : closings srvaddr anyThread (drained ms).file.reverse =
      closings srvaddr sameThread (drained ms).file.reverse)
    (all : ∀ n, 1 ≤ n → Exact srvaddr n (ms ++ [m])) :
    closings srvaddr anyThread (drained (ms ++ [m])).file.reverse =
      closings srvaddr sameThread (drained (ms ++ [m])).file.reverse := by
  have any := closings_take srvaddr anyThread (drained ms) m
  have own := closings_take srvaddr sameThread (drained ms) m
  rw [← drained_snoc] at any own
  have asked := (all (closings srvaddr anyThread (drained ms).file.reverse + 1) (by omega)).1
  obtain inside | ⟨p, left⟩ := session_cases positive (Nat.succ_le_succ (Nat.zero_le _)) (ms ++ [m])
  · have more := (not_congr asked).mp inside.pc_ne
    have fewer := inside.fewer
    rw [inside.follows.file, executions_eq] at more
    rw [inside.counts.outcount] at fewer
    omega
  · have number := asked.mp left.stopped
    have counted := left.counted
    have any_mono := closings_mono srvaddr anyThread left.earlier
    have own_mono := closings_mono srvaddr sameThread left.earlier
    rw [left.file, executions_eq] at number
    omega

theorem take_file (d : Draining) (m : Received) :
    (d.take m).file = d.file ∨ ∃ l, (d.take m).file = d.file ++ [l] := by
  unfold Draining.take
  split
  · exact .inl rfl
  · cases m with
    | entry e => exact .inr ⟨_, rfl⟩
    | endOfData => exact .inr ⟨_, rfl⟩
    | wakeUp => exact .inl rfl

theorem prefix_drained {ms : List Received} {before : List FileLine} :
    before <+: (drained ms).file ↔ ∃ p, p <+: ms ∧ (drained p).file = before := by
  induction ms using List.reverseRecOn with
  | nil => simp [drained, eq_comm]
  | append_singleton ms m ih =>
    simp only [List.prefix_concat_iff, or_and_right, exists_or, exists_eq_left]
    rw [← ih, drained_snoc]
    obtain same | ⟨l, more⟩ := take_file (drained ms) m
    · rw [same]
      exact ⟨.inr, fun h => h.elim (fun e => e ▸ List.prefix_rfl) id⟩
    · rw [more, List.prefix_concat_iff, eq_comm]

theorem agreeing_iff (srvaddr : UInt32) (ms : List Received) : Agreeing srvaddr (drained ms).file ↔
    ∀ p, p <+: ms → closings srvaddr anyThread (drained p).file.reverse =
      closings srvaddr sameThread (drained p).file.reverse := by
  rw [closings_eq_iff]
  constructor
  · intro equal p earlier
    exact equal _ (prefix_drained.mpr ⟨p, earlier, rfl⟩)
  · intro equal before inside
    obtain ⟨p, earlier, rfl⟩ := prefix_drained.mp inside
    exact equal p earlier

theorem exact_iff_agreeing (positive : srvaddr ≠ 0) (ms : List Received) :
    (∀ n, 1 ≤ n → ∀ p, p <+: ms → Exact srvaddr n p) ↔ Agreeing srvaddr (drained ms).file := by
  rw [agreeing_iff]
  constructor
  · intro all p earlier
    induction p using List.reverseRecOn with
    | nil => rfl
    | append_singleton p m ih =>
      exact next_equal positive (ih ((List.prefix_append p [m]).trans earlier)) fun n some_asked =>
        all n some_asked _ earlier
  · intro equal n some_asked p earlier
    exact exact_of_agreeing positive some_asked fun q before => equal q (before.trans earlier)

theorem follows_without (ms : List Received) :
    Follows (session 0 0 ms) (drained ms) ∧ (session 0 0 ms).srvaddr = 0 := by
  have kept : ∀ (u : Usnl) (m : Message), (receive u m).srvaddr = u.srvaddr := by
    intro u m
    unfold receive
    split
    · simp only [settled, Usnl.readReply, Usnl.writeLine]
      split_ifs <;> simp only [(count_keeps _ m).2.2.2.2.1]
    · rfl
    · rfl
  induction ms using List.reverseRecOn with
  | nil => exact ⟨⟨rfl, rfl, rfl⟩, rfl⟩
  | append_singleton ms m ih =>
    rw [session_snoc, drained_snoc, kept]
    exact ⟨receive_follows ih.1 m fun _ _ _ address => absurd ih.2 address, ih.2⟩

theorem stays_without (ms : List Received) : (session 0 0 ms).pc ≠ .stop := by
  rw [(follows_without ms).1.pc, Draining.pc]
  split <;> decide

/-- For every sequence of messages: a session for a service leaves its loop exactly when the file
    holds the executions it was asked for, whatever their number, if and only if the flag for all
    threads agrees at every exit with the exit's own thread; and a session without arguments never
    leaves it, so leaves it after TO_OBTAIN entries only if there are fewer. -/
theorem samples_obtained_iff (ms : List Received) :
    (∀ srvaddr, srvaddr ≠ 0 → ((∀ n, 1 ≤ n → ∀ p, p <+: ms → Exact srvaddr n p) ↔
      Agreeing srvaddr (drained ms).file)) ∧
    ((∀ p, p <+: ms → ((session 0 0 p).pc = .stop ↔ TO_OBTAIN ≤ written (session 0 0 p).file)) ↔
      written (drained ms).file < TO_OBTAIN) := by
  refine ⟨fun srvaddr positive => exact_iff_agreeing positive ms, ?_⟩
  constructor
  · intro all
    have last := (not_congr (all ms List.prefix_rfl)).mp (stays_without ms)
    rw [(follows_without ms).1.file] at last
    exact not_le.mp last
  · intro fewer p earlier
    refine iff_of_false (stays_without p) (not_le.mpr (Nat.lt_of_le_of_lt ?_ fewer))
    rw [(follows_without p).1.file]
    exact (prefix_drained.mpr ⟨p, earlier, rfl⟩).sublist.countP_le

def serviceMessage (type : SepentryType) (thread : UInt16) : Received :=
  .entry ⟨type, 0, 0, 0, 0, 8000, 0, thread, 0⟩

def strayExit : List Received := [serviceMessage .serviceentry 1, serviceMessage .serviceexit 2]

theorem stray_exit_counted :
    ((session 8000 1 strayExit).pc = .stop ∧ executions 8000 (session 8000 1 strayExit).file = 0) ∧
    (session 0 0 (List.replicate TO_OBTAIN (serviceMessage .serviceentry 1))).pc ≠ .stop := by
  refine ⟨⟨by decide +kernel, ?_⟩, stays_without _⟩
  rw [executions_eq]
  decide +kernel

end Samples

end SampleCounting
