import SepExtract.SignatureReading
import SepExtract.InstanceShapes

/- What the events of a signature ought to be: one for every entry of the instance that is
   modelled, in order. Only a sleep and a wakeup depend on the entries before them. -/
namespace Analyse
open GoText

/-- Whether the thread has gone to sleep, and the entry before. An interrupt, the entry of a
    sleep and the switch back to a thread that was only preempted are passed over. -/
structure Situation where
  asleep : Bool
  previous : EventType
  deriving DecidableEq, Repr

def Situation.initial : Situation := ⟨false, .other ""⟩

def Situation.after (leu : LEU) (n : String) (x : Situation) (e : Entry) : Situation :=
  match e.eventType with
  | .srventry => if e.service = irqEnter ∧ e.service ≠ n then x else { x with previous := e.eventType }
  | .hirqentry | .hirqexit => if n ≠ irqService e.pid1 then x else { x with previous := e.eventType }
  | .sleep => { x with asleep := true }
  | .ctxsw =>
    if e.pid1 ≠ leu.pid ∧ e.pid2 = leu.pid then
      if x.asleep then ⟨false, e.eventType⟩ else x
    else { x with previous := e.eventType }
  | _ => { x with previous := e.eventType }

def Entry.image (s : State) (leu : LEU) (n : String) (x : Situation) (e : Entry) : List Event :=
  if e.opens n then
    if e.eventType = .loopstart then e.loopstartArguments.toList.map .loopstart else [.start]
  else if e.closes n then
    if e.eventType = .looprstart then [.restart] else [.stop]
  else
    match e.eventType with
    | .srventry => if e.service = irqEnter then [] else [.line (s.callText e)]
    | .loopstart => (s.loopText e).toList.map .line
    | .pktqueue | .pktqueuen | .statequeue | .srvqueue => [.line (s.queueText e)]
    | .queuecond => [.line (s.queuecondText e)]
    | .statecond => (s.statecondText e).toList.map .line
    | .sync operation false => [.line (s.synchText e operation)]
    | .sync _ true => [.line (s.tempText e)]
    | .tempsynch => [.line (s.tempsynchText e)]
    | .pktextr | .pktextrn => [.line (s.pktextrText e)]
    | .peustart => [.peustart e.peustartText]
    | .ttwakeup =>
      if x.previous = .sync .semup false ∨ x.previous = .sync .compl false then [] else [.wakeup (s.wakeupText e)]
    | .ctxsw => if e.pid1 = leu.pid ∧ x.asleep ∧ ¬ x.previous.waits then [.sleep (s.sleepText e)] else []
    | .other text => if contains text "(TEMP)" then [.line (s.tempText e)] else []
    | _ => []

def State.describe (s : State) (leu : LEU) (n : String) : Situation → List Entry → List Event
  | _, [] => []
  | x, e :: es => e.image s leu n x ++ s.describe leu n (x.after leu n e) es

def Entry.requeues (n : String) (e : Entry) : Bool :=
  e.eventType = .srvqueue ∧ e.service = n ∧ e.pid1 ≠ DEQUEUE

def Walk.situation (w : Walk) : Situation := ⟨w.didSleep, w.previous⟩

def Entry.kept (s : State) (leu : LEU) (n : String) (x : Situation) (e : Entry) : List Event :=
  if e.requeues n then [] else e.image s leu n x

def GoesOn (w v : Walk) (events : List Event) (x : Situation) : Prop :=
  v.signature.events = w.signature.events ++ events ∧ v.situation = x

section Steps
variable {s : State} {leu : LEU} {n : String} {w v : Walk} {e : Entry}

theorem goes_on_emit (event : Event) : GoesOn w ((w.emit event e).next e) [event] ⟨w.didSleep, e.eventType⟩ :=
  ⟨rfl, rfl⟩

theorem goes_on_leave (event : Event) : GoesOn w ((w.leave event e).next e) [event] ⟨w.didSleep, e.eventType⟩ :=
  ⟨rfl, rfl⟩

theorem goes_on_begin (event : Event) : GoesOn w ((w.begin event e).next e) [event] ⟨w.didSleep, e.eventType⟩ :=
  ⟨rfl, rfl⟩

theorem goes_on_finish (event : Event) : GoesOn w ((w.finish event e).next e) [event] ⟨w.didSleep, e.eventType⟩ :=
  ⟨rfl, rfl⟩

theorem goes_on_nothing (events : v.signature.events = w.signature.events) : GoesOn w v [] v.situation :=
  ⟨by rw [events, List.append_nil], rfl⟩

theorem goes_on_over (events : v.signature.events = w.signature.events) (situation : v.situation = w.situation) :
    GoesOn w v [] w.situation := ⟨by rw [events, List.append_nil], situation⟩

theorem ctxsw_kept (type : e.eventType = .ctxsw) :
    GoesOn w (w.ctxsw s leu e) (e.kept s leu n w.situation) (w.situation.after leu n e) := by
  have kept : e.kept s leu n w.situation =
      if e.pid1 = leu.pid ∧ w.didSleep ∧ ¬ w.previous.waits then [.sleep (s.sleepText e)] else [] := by
    simp [Entry.kept, Entry.requeues, Entry.image, Entry.opens, Entry.closes, type, Walk.situation]
  have after : w.situation.after leu n e = if e.pid1 ≠ leu.pid ∧ e.pid2 = leu.pid then
      if w.didSleep then ⟨false, .ctxsw⟩ else w.situation else ⟨w.didSleep, .ctxsw⟩ := by
    simp [Situation.after, type, Walk.situation]
  rw [kept, after, Walk.ctxsw]
  by_cases out : e.pid1 = leu.pid
  · by_cases sleeps : w.didSleep = true ∧ ¬ w.previous.waits = true
    · simp only [out, sleeps, if_true, ne_eq, not_true_eq_false, false_and, if_false]
      exact ⟨rfl, by rw [← type]; exact congrArg (Situation.mk · _) sleeps.1⟩
    · simp only [out, sleeps, and_false, if_true, ne_eq, not_true_eq_false, false_and, if_false]
      rw [← type]
      exact goes_on_nothing rfl
  · by_cases back : e.pid2 = leu.pid
    · cases asleep : w.didSleep with
      | true =>
        simp only [out, back, if_true, if_false, false_and, ne_eq, not_false_eq_true, and_self]
        rw [← type]
        exact goes_on_nothing rfl
      | false =>
        simp only [out, back, if_true, if_false, false_and, ne_eq, not_false_eq_true, and_self, Bool.false_eq_true,
          Walk.situation, asleep]
        exact goes_on_nothing rfl
    · simp only [out, back, if_false, false_and, and_false]
      rw [← type]
      exact goes_on_nothing rfl

theorem goes_on_of {events : List Event} {x : Situation} (kept : e.kept s leu n w.situation = events)
    (after : w.situation.after leu n e = x) (goesOn : GoesOn w v events x) :
    GoesOn w v (e.kept s leu n w.situation) (w.situation.after leu n e) := by
  rw [kept, after]
  exact goesOn

theorem srventry_kept (type : e.eventType = .srventry) (done : w.entry s leu n e = some v) :
    GoesOn w v (e.kept s leu n w.situation) (w.situation.after leu n e) := by
  simp only [Walk.entry, type] at done
  split at done
  · rename_i irq
    obtain rfl := Option.some.inj done
    have other : ¬ irqEnter = n := irq.1 ▸ irq.2
    exact goes_on_of (by simp [Entry.kept, Entry.requeues, Entry.image, Entry.opens, Entry.closes, type, irq.1, other])
      (by simp [Situation.after, type, irq.1, other]) (goes_on_over rfl rfl)
  · rename_i call
    have after : w.situation.after leu n e = ⟨w.didSleep, e.eventType⟩ := by
      simp only [Situation.after, type, if_neg call]
      rfl
    split at done
    · rename_i own
      obtain rfl := Option.some.inj done
      exact goes_on_of (by simp [Entry.kept, Entry.requeues, Entry.image, Entry.opens, type, own]) after (goes_on_begin _)
    · rename_i other
      obtain rfl := Option.some.inj done
      have called : e.service ≠ irqEnter := fun irq => call ⟨irq, other⟩
      exact goes_on_of (by simp [Entry.kept, Entry.requeues, Entry.image, Entry.opens, Entry.closes, type, other, called])
        after (goes_on_leave _)

theorem hirqentry_kept (type : e.eventType = .hirqentry) (done : w.entry s leu n e = some v) :
    GoesOn w v (e.kept s leu n w.situation) (w.situation.after leu n e) := by
  simp only [Walk.entry, type] at done
  split at done
  · rename_i other
    obtain rfl := Option.some.inj done
    exact goes_on_of (by simp [Entry.kept, Entry.requeues, Entry.image, Entry.opens, Entry.closes, type, other])
      (by simp [Situation.after, type, other]) (goes_on_over rfl rfl)
  · rename_i own
    obtain rfl := Option.some.inj done
    have own : n = irqService e.pid1 := by simpa using own
    exact goes_on_of (by simp [Entry.kept, Entry.requeues, Entry.image, Entry.opens, type, own])
      (by simp [Situation.after, type, own, Walk.situation]) (goes_on_begin _)

theorem hirqexit_kept (type : e.eventType = .hirqexit) (done : w.entry s leu n e = some v) :
    GoesOn w v (e.kept s leu n w.situation) (w.situation.after leu n e) := by
  simp only [Walk.entry, type] at done
  split at done
  · rename_i other
    obtain rfl := Option.some.inj done
    exact goes_on_of (by simp [Entry.kept, Entry.requeues, Entry.image, Entry.opens, Entry.closes, type, other])
      (by simp [Situation.after, type, other]) (goes_on_over rfl rfl)
  · rename_i own
    obtain rfl := Option.some.inj done
    have own : n = irqService e.pid1 := by simpa using own
    exact goes_on_of (by simp [Entry.kept, Entry.requeues, Entry.image, Entry.opens, Entry.closes, type, own])
      (by simp [Situation.after, type, own, Walk.situation]) (goes_on_finish _)

theorem loopstart_kept (type : e.eventType = .loopstart) (done : w.entry s leu n e = some v) :
    GoesOn w v (e.kept s leu n w.situation) (w.situation.after leu n e) := by
  have after : w.situation.after leu n e = ⟨w.didSleep, e.eventType⟩ := by simp [Situation.after, type, Walk.situation]
  simp only [Walk.entry, type] at done
  split at done
  · rename_i own
    obtain ⟨arguments, known, rfl⟩ := Option.map_eq_some_iff.mp done
    exact goes_on_of (by simp [Entry.kept, Entry.requeues, Entry.image, Entry.opens, type, own, known]) after
      (goes_on_begin _)
  · rename_i other
    obtain ⟨text, known, rfl⟩ := Option.map_eq_some_iff.mp done
    exact goes_on_of (by simp [Entry.kept, Entry.requeues, Entry.image, Entry.opens, Entry.closes, type, other, known])
      after (goes_on_emit _)

theorem srvqueue_kept (type : e.eventType = .srvqueue) (done : w.entry s leu n e = some v) :
    GoesOn w v (e.kept s leu n w.situation) (w.situation.after leu n e) := by
  have after : w.situation.after leu n e = ⟨w.didSleep, e.eventType⟩ := by simp [Situation.after, type, Walk.situation]
  simp only [Walk.entry, type] at done
  split at done
  · rename_i other
    obtain rfl := Option.some.inj done
    exact goes_on_of (by simp [Entry.kept, Entry.requeues, Entry.image, Entry.opens, Entry.closes, type, other]) after
      (goes_on_emit _)
  · rename_i own
    have own : e.service = n := by simpa using own
    split at done
    · rename_i taken
      obtain rfl := Option.some.inj done
      exact goes_on_of (by simp [Entry.kept, Entry.requeues, Entry.image, Entry.opens, type, own, taken]) after
        (goes_on_begin _)
    · rename_i added
      obtain rfl := Option.some.inj done
      exact goes_on_of (by simp [Entry.kept, Entry.requeues, type, own, added]) after (goes_on_nothing rfl)

theorem srvexit_kept (type : e.eventType = .srvexit) (done : w.entry s leu n e = some v) :
    GoesOn w v (e.kept s leu n w.situation) (w.situation.after leu n e) := by
  have after : w.situation.after leu n e = ⟨w.didSleep, e.eventType⟩ := by simp [Situation.after, type, Walk.situation]
  simp only [Walk.entry, type] at done
  split at done
  · rename_i own
    obtain rfl := Option.some.inj done
    exact goes_on_of (by simp [Entry.kept, Entry.requeues, Entry.image, Entry.opens, Entry.closes, type, own]) after
      (goes_on_finish _)
  · rename_i other
    have kept : e.kept s leu n w.situation = [] := by
      simp [Entry.kept, Entry.requeues, Entry.image, Entry.opens, Entry.closes, type, other]
    split at done
    · obtain rfl := Option.some.inj done
      exact goes_on_of kept after (goes_on_nothing rfl)
    · obtain rfl := Option.some.inj done
      exact goes_on_of kept after (goes_on_nothing rfl)

theorem ttwakeup_kept (type : e.eventType = .ttwakeup) (done : w.entry s leu n e = some v) :
    GoesOn w v (e.kept s leu n w.situation) (w.situation.after leu n e) := by
  have after : w.situation.after leu n e = ⟨w.didSleep, e.eventType⟩ := by simp [Situation.after, type, Walk.situation]
  simp only [Walk.entry, type] at done
  split at done
  · rename_i alone
    obtain rfl := Option.some.inj done
    exact goes_on_of (by simp [Entry.kept, Entry.requeues, Entry.image, Entry.opens, Entry.closes, type, Walk.situation,
      alone.1, alone.2]) after (goes_on_emit _)
  · rename_i part
    obtain rfl := Option.some.inj done
    have part : w.previous = .sync .semup false ∨ w.previous = .sync .compl false := by
      by_contra none
      exact part ⟨fun semup => none (Or.inl semup), fun compl => none (Or.inr compl)⟩
    exact goes_on_of (by simp [Entry.kept, Entry.requeues, Entry.image, Entry.opens, Entry.closes, type, Walk.situation,
      part]) after (goes_on_nothing rfl)

theorem entry_kept (done : w.entry s leu n e = some v) :
    GoesOn w v (e.kept s leu n w.situation) (w.situation.after leu n e) := by
  have entered := done
  unfold Walk.entry at done
  split at done
  case h_1 type => exact srventry_kept type entered
  case h_2 type => exact hirqentry_kept type entered
  case h_3 type => exact hirqexit_kept type entered
  case h_4 type => exact loopstart_kept type entered
  case h_5 type => exact srvqueue_kept type entered
  case h_6 type => exact srvexit_kept type entered
  case h_21 type => exact ttwakeup_kept type entered
  case h_22 type =>
    obtain rfl := Option.some.inj done
    exact goes_on_of (by simp [Entry.kept, Entry.requeues, Entry.image, Entry.opens, Entry.closes, type])
      (by simp [Situation.after, type, Walk.situation]) (goes_on_nothing rfl)
  case h_23 type => exact Option.some.inj done ▸ ctxsw_kept type
  all_goals
    rename_i type
    have after : w.situation.after leu n e = ⟨w.didSleep, e.eventType⟩ := by simp [Situation.after, type, Walk.situation]
  case h_18 => cases done
  case h_19 =>
    obtain ⟨text, known, rfl⟩ := Option.map_eq_some_iff.mp done
    exact goes_on_of (by simp [Entry.kept, Entry.requeues, Entry.image, Entry.opens, Entry.closes, type, known]) after
      (goes_on_emit _)
  case h_24 =>
    split at done
    · rename_i temp
      obtain rfl := Option.some.inj done
      exact goes_on_of (by simp [Entry.kept, Entry.requeues, Entry.image, Entry.opens, Entry.closes, type, temp]) after
        (goes_on_emit _)
    · rename_i other
      obtain rfl := Option.some.inj done
      exact goes_on_of (by simp [Entry.kept, Entry.requeues, Entry.image, Entry.opens, Entry.closes, type, other]) after
        (goes_on_nothing rfl)
  all_goals
    obtain rfl := Option.some.inj done
    refine goes_on_of (by simp [Entry.kept, Entry.requeues, Entry.image, Entry.opens, Entry.closes, type]; rfl) after ?_
    first
    | exact goes_on_emit _
    | exact goes_on_finish _
    | exact goes_on_nothing rfl

def requeueCount (n : String) (es : List Entry) : Nat := es.countP (Entry.requeues n)

theorem requeue_image {x : Situation} (requeues : e.requeues n = true) :
    e.image s leu n x = [.line (s.queueText e)] := by
  simp only [Entry.requeues, Bool.decide_and, Bool.and_eq_true, decide_eq_true_eq] at requeues
  obtain ⟨type, own, added⟩ := requeues
  simp [Entry.image, Entry.opens, Entry.closes, type, added]

/-- Every event of the description is there but those of the service queueing itself, and
    the others are in order. -/
theorem walk_kept {es : List Entry} (done : s.walk leu n w es = some v) :
    ∃ events, v.signature.events = w.signature.events ++ events ∧
      events.Sublist (s.describe leu n w.situation es) ∧
      (s.describe leu n w.situation es).length = events.length + requeueCount n es := by
  induction es generalizing w with
  | nil =>
    obtain rfl := Option.some.inj done
    exact ⟨[], by simp, List.Sublist.refl [], rfl⟩
  | cons e es ih =>
    obtain ⟨u, first, rest⟩ := Option.bind_eq_some_iff.mp done
    obtain ⟨events, situation⟩ := entry_kept first
    obtain ⟨later, appended, sub, count⟩ := ih rest
    rw [situation] at sub count
    refine ⟨e.kept s leu n w.situation ++ later, ?_, ?_, ?_⟩
    · rw [appended, events, List.append_assoc]
    · rw [State.describe]
      refine List.Sublist.append ?_ sub
      unfold Entry.kept
      split
      · exact List.nil_sublist _
      · exact List.Sublist.refl _
    · rw [State.describe, List.length_append, List.length_append, count, requeueCount, requeueCount, List.countP_cons,
        Entry.kept]
      cases requeues : e.requeues n with
      | true =>
        rw [requeue_image requeues]
        simp only [List.length_singleton, if_true, List.length_nil]
        omega
      | false =>
        simp only [Bool.false_eq_true, if_false]
        omega

theorem walk_complete_iff {es : List Entry} (done : s.walk leu n .initial es = some v) :
    v.signature.events = s.describe leu n .initial es ↔ ∀ e ∈ es, e.requeues n = false := by
  obtain ⟨events, appended, sub, count⟩ := walk_kept done
  rw [show v.signature.events = events from appended]
  change events = s.describe leu n (Walk.initial).situation es ↔ _
  constructor
  · intro whole e member
    rw [← whole] at count
    have none : requeueCount n es = 0 := by omega
    simpa using List.countP_eq_zero.mp none e member
  · intro none
    have zero : requeueCount n es = 0 := List.countP_eq_zero.mpr fun e member => by simp [none e member]
    exact sub.eq_of_length (by omega)

theorem closing_puts (closes : e.closes n = true) (done : w.entry s leu n e = some v) : v.signature ∈ v.put := by
  have finished : ∀ event, (w.finish event e).signature ∈ (w.finish event e).put := fun event => by simp [Walk.finish]
  unfold Entry.closes at closes
  split at closes
  · rename_i type
    have own := of_decide_eq_true closes
    simp only [Walk.entry, type, own, if_true] at done
    exact Option.some.inj done ▸ finished .stop
  · rename_i type
    have own := of_decide_eq_true closes
    simp only [Walk.entry, type, own, ne_eq, not_true_eq_false, if_false] at done
    exact Option.some.inj done ▸ finished .stop
  · rename_i type
    simp only [Walk.entry, type] at done
    exact Option.some.inj done ▸ finished .restart
  · cases closes

end Steps

/-- Of every instance that run has recorded, the events built are those of the description
    exactly when the service does not queue itself; an instance that ends with its closing
    entry is in the profile. -/
theorem signature_complete_iff {file : List String} {r : Run} {keys : List (LEU × String)} {u : State} {p : Profile}
    (finished : run file = some r) (distinct : keys.Nodup) (created : createSignatures r.state keys = some (u, p))
    {key : LEU × String} (listed : key ∈ keys) {es : List Entry} (recorded : es ∈ r.state.recordedEntries key) :
    ∃ w, r.state.walk key.1 key.2 .initial es = some w ∧
      (∀ last ∈ es.getLast?, last.closes key.2 = true → p.Holds key.2 w.signature) ∧
      (w.signature.events = r.state.describe key.1 key.2 .initial es ↔ ∀ e ∈ es, e.requeues key.2 = false) := by
  have sound := sound_run sound_initial finished
  obtain ⟨w, walk, holds⟩ := created_holds sound distinct created listed recorded
  refine ⟨w, walk, fun last final closes => holds w.signature ?_, walk_complete_iff walk⟩
  obtain ⟨before, rfl⟩ := List.getLast?_eq_some_iff.mp final
  rw [State.walk, List.foldlM_append] at walk
  obtain ⟨v, _, step⟩ := Option.bind_eq_some_iff.mp walk
  obtain ⟨w', done, same⟩ := Option.bind_eq_some_iff.mp step
  obtain rfl := Option.some.inj same
  exact closing_puts closes done

def queueingFile (service : String) : List String :=
  ["CTXSW 0 1 1 1 2 0 0 a", "SRVENTRY 0 1 2 0 0 0 f a", "SRVQUEUE 0 1 3 0 0 0 " ++ service ++ " a",
   "SRVEXIT 0 1 9 0 0 0 f a"]

theorem signature_complete_queueing : ∃ r u p, run (queueingFile "g") = some r ∧
    createSignatures r.state [(.thread 2, "f")] = some (u, p) ∧
    ∃ es ∈ r.state.recordedEntries (.thread 2, "f"), ∃ w, r.state.walk (.thread 2) "f" .initial es = some w ∧
      w.signature.events = r.state.describe (.thread 2) "f" .initial es := by
  have ends : ((run (queueingFile "g")).bind fun r =>
      (createSignatures r.state [(.thread 2, "f")])).isSome = true := by
    decide +kernel
  obtain ⟨⟨u, p⟩, done⟩ := Option.isSome_iff_exists.mp ends
  obtain ⟨r, finished, created⟩ := Option.bind_eq_some_iff.mp done
  have facts : ∀ r ∈ run (queueingFile "g"), r.state.recordedEntries (.thread 2, "f") ≠ [] ∧
      ∀ es ∈ r.state.recordedEntries (.thread 2, "f"), ∀ e ∈ es, e.requeues "f" = false := by
    decide +kernel
  obtain ⟨filled, calm⟩ := facts r finished
  obtain ⟨es, recorded⟩ := List.exists_mem_of_ne_nil _ filled
  obtain ⟨w, walk, _, complete⟩ := signature_complete_iff finished (by decide) created (List.mem_singleton_self _)
    recorded
  exact ⟨r, u, p, finished, created, es, recorded, w, walk, complete.mpr (calm es recorded)⟩

theorem requeueing_leaves_no_event : ¬ ∀ (file : List String) (r : Run) (keys : List (LEU × String)) (u : State)
    (p : Profile), run file = some r → keys.Nodup → createSignatures r.state keys = some (u, p) →
    ∀ key ∈ keys, ∀ es ∈ r.state.recordedEntries key, (∀ e ∈ es.tail, e.opens key.2 = false) →
    ∃ w, r.state.walk key.1 key.2 .initial es = some w ∧
      w.signature.events = r.state.describe key.1 key.2 .initial es := by
  intro every
  have ends : ((run (queueingFile "f")).bind fun r =>
      (createSignatures r.state [(.thread 2, "f")])).isSome = true := by
    decide +kernel
  obtain ⟨⟨u, p⟩, done⟩ := Option.isSome_iff_exists.mp ends
  obtain ⟨r, finished, created⟩ := Option.bind_eq_some_iff.mp done
  have facts : ∀ r ∈ run (queueingFile "f"), r.state.recordedEntries (.thread 2, "f") ≠ [] ∧
      ∀ es ∈ r.state.recordedEntries (.thread 2, "f"), (∀ e ∈ es.tail, e.opens "f" = false) ∧
        (r.state.walk (.thread 2) "f" .initial es).map (fun w => w.signature.events) = some [.start, .stop] ∧
        (r.state.describe (.thread 2) "f" .initial es).length = 3 := by
    decide +kernel
  obtain ⟨filled, each⟩ := facts r finished
  obtain ⟨es, recorded⟩ := List.exists_mem_of_ne_nil _ filled
  obtain ⟨single, events, described⟩ := each es recorded
  obtain ⟨w, walk, complete⟩ := every _ r _ u p finished (by decide) created _ (List.mem_singleton_self _) es recorded
    single
  rw [walk, Option.map_some, Option.some.injEq] at events
  rw [← complete, events] at described
  cases described

end Analyse
