import SepExtract.CreateSignatures
import SepExtract.HeapEntries
import SepExtract.TextFields

/- The columns of a trace have no line breaks in them, so neither have the texts of events,
   apart from the break at the end of a closing one: a key tells the events of a signature. -/
namespace Analyse
open TextFields GoText

def OneLine (s : String) : Prop := Free (· == '\n') s

instance (s : String) : Decidable (OneLine s) := inferInstanceAs (Decidable (Free (· == '\n') s))

structure Entry.Clean (e : Entry) : Prop where
  type : OneLine e.eventType.text
  packetId : OneLine e.packetId
  service : OneLine e.service
  location : OneLine e.location
  users : ∀ v ∈ e.tempVars, OneLine v.name

theorem one_line_int (n : Int) : OneLine (toString n) := by
  refine free_int (fun c digit => ?_) (by decide) n
  by_contra same
  obtain rfl : c = '\n' := by simpa using same
  exact absurd digit (by decide)

theorem one_line_append (s t : String) : OneLine (s ++ t) ↔ OneLine s ∧ OneLine t := free_append s t

theorem one_line_irq (nr : Int) : OneLine (irqService nr) := by
  rw [irqService, one_line_append]
  exact ⟨by decide, one_line_int nr⟩

theorem clean_lasting : Lasting Entry.Clean OneLine where
  blank _ := by
    have empty : OneLine "" := by decide
    exact ⟨empty, empty, empty, empty, by simp [Entry.blank]⟩
  given e t _ given clean := by
    have label : OneLine t.text := by
      rcases given with rfl | rfl | rfl | rfl | ⟨operation, rfl⟩
      · decide
      · decide
      · decide
      · decide
      · cases operation <;> decide
    exact ⟨label, clean.2, clean.3, clean.4, clean.5⟩
  timed _ _ _ clean := ⟨clean.1, clean.2, clean.3, clean.4, clean.5⟩
  numbered _ _ clean := ⟨clean.1, one_line_int _, clean.3, clean.4, clean.5⟩
  queued e clean := by
    have service : OneLine ((softirqs e.service).getD e.service) := by
      unfold softirqs
      split
      · exact (by decide : OneLine "run_timer_softirq")
      · exact (by decide : OneLine "net_tx_action")
      · exact (by decide : OneLine "net_rx_action")
      · exact clean.service
    exact ⟨clean.1, clean.2, service, clean.4, clean.5⟩
  counted _ _ clean := ⟨clean.1, clean.2, clean.3, clean.4, clean.5⟩
  named e n clean head := by
    rcases head with opens | ⟨_, location⟩
    · unfold Entry.opens at opens
      split at opens
      · rw [← of_decide_eq_true opens]
        exact clean.service
      · rw [← (of_decide_eq_true opens).1]
        exact clean.service
      · rw [of_decide_eq_true opens]
        exact one_line_irq _
      · rw [← of_decide_eq_true opens]
        exact clean.location
      · cases opens
    · rw [← location]
      exact clean.location
  noted e user clean name := by
    refine ⟨clean.1, clean.2, clean.3, clean.4, fun v member => ?_⟩
    rcases List.mem_append.mp member with old | added
    · exact clean.users v old
    · rw [List.mem_singleton.mp added]
      exact name

def State.Clean (s : State) : Prop := ∀ c, ∀ e ∈ s.heap c, e.Clean

theorem clean_deref {s : State} (clean : s.Clean) (r : Ref) : (s.deref r).Clean := all_deref clean_lasting clean r

def Columns.Clean (f : Columns) : Prop :=
  OneLine f.eventType.text ∧ OneLine f.packetId ∧ OneLine f.service ∧ OneLine f.location

def Line.Clean : Line → Prop
  | .columns f => f.Clean
  | _ => True

theorem text_of_text (text : String) : (EventType.ofText text).text = text := by
  unfold EventType.ofText
  cases found : columnTypes.find? fun t => t.text == text with
  | none => rfl
  | some t => simpa using List.find?_some found

theorem columns_free {line : String} {f : Columns} (lexed : lexLine line = .columns f) :
    Free isSpace f.eventType.text ∧ Free isSpace f.packetId ∧ Free isSpace f.service ∧ Free isSpace f.location := by
  have free := split_free line
  have made := columns_of_lex lexed
  unfold columnsLine at made
  split at made
  · rename_i type cpu pid cyc pid1 pid2 packetId service location rest fields
    rw [fields] at free
    obtain rfl := Line.columns.inj made
    refine ⟨?_, free packetId (by simp), free service (by simp), free location (by simp)⟩
    rw [text_of_text]
    exact free type (by simp)
  · cases made

theorem lex_clean (line : String) : (lexLine line).Clean := by
  cases lexed : lexLine line with
  | columns f =>
    have oneLine : ∀ {t}, Free isSpace t → OneLine t := fun free => by
      refine free_mono free fun c here => ?_
      obtain rfl : c = '\n' := by simpa using here
      decide
    obtain ⟨type, packetId, service, location⟩ := columns_free lexed
    exact ⟨oneLine type, oneLine packetId, oneLine service, oneLine location⟩
  | eod => trivial
  | idQueue => trivial
  | idSynch => trivial
  | short => trivial
  | panics => trivial

theorem texts_of_columns {r : Run} {l : Line} {e : Entry} (made : r.entryOf l = some e) :
    ∃ f, l = .columns f ∧ e.eventType = f.eventType ∧ e.packetId = f.packetId ∧ e.service = f.service ∧
      e.location = f.location ∧ e.tempVars = [] := by
  cases l with
  | columns f =>
    simp only [Run.entryOf, bind] at made
    split at made
    · cases made
    · simp only [Option.bind_eq_some_iff] at made
      obtain ⟨cpu, _, rest⟩ := made
      split at rest
      · cases rest
      · simp only [Option.bind_eq_some_iff] at rest
        obtain ⟨pid, _, cyc, _, pid1, _, pid2, _, eq⟩ := rest
        obtain rfl := Option.some.inj eq
        exact ⟨f, rfl, rfl, rfl, rfl, rfl, rfl⟩
  | eod => cases made
  | idQueue => cases made
  | idSynch => cases made
  | short => cases made
  | panics => cases made

theorem clean_of_columns {r : Run} {l : Line} {e : Entry} (clean : l.Clean) (made : r.entryOf l = some e) :
    e.Clean := by
  obtain ⟨f, rfl, type, packetId, service, location, users⟩ := texts_of_columns made
  obtain ⟨oneType, onePacket, oneService, oneLocation⟩ := clean
  exact ⟨type ▸ oneType, packetId ▸ onePacket, service ▸ oneService, location ▸ oneLocation, by simp [users]⟩

theorem clean_run {ls : List Line} {r t : Run} (clean : r.state.Clean) (shaped : Shaped r.state)
    (columns : ∀ l ∈ ls, l.Clean) (nested : TransitionRuns.Guarded Run.line NestedLine r ls)
    (done : r.lines ls = some t) : t.state.Clean :=
  all_run clean_lasting clean shaped (fun l member _ _ made => clean_of_columns (columns l member) made) nested done

theorem clean_file {file : List String} {r : Run} (finished : run file = some r)
    (nested : TransitionRuns.Guarded Run.line NestedLine .initial (file.map lexLine)) : r.state.Clean := by
  have start : State.initial.Clean := fun _ _ member => by cases member
  refine clean_run start shaped_initial (fun l member => ?_) nested finished
  obtain ⟨line, _, rfl⟩ := List.mem_map.mp member
  exact lex_clean line

section Texts

theorem one_line_named {names : List String} (oneLine : ∀ n ∈ names, OneLine n) (id : Int) :
    ∀ n ∈ named names id, OneLine n := by
  intro n member
  unfold named at member
  split at member
  · cases member
  · exact oneLine n (List.mem_of_getElem? member)

theorem one_line_get {o : Option String} {d : String} (some : ∀ n ∈ o, OneLine n) (none : OneLine d) :
    OneLine (o.getD d) := by
  cases o with
  | none => exact none
  | some n => exact some n rfl

theorem one_line_queue (id : Int) : ∀ n ∈ queueIds id, OneLine n :=
  one_line_named (by decide +kernel) id

theorem one_line_queue_id (id : Int) : OneLine (getQueueId id) := one_line_get (one_line_queue id) (by decide)

theorem one_line_padded (s : State) {e : Entry} (clean : e.Clean) : OneLine (s.locationPadded e) := by
  rw [State.locationPadded, ljust, one_line_append]
  refine ⟨clean.location, fun c member => ?_⟩
  rw [String.toList_ofList] at member
  rw [(List.mem_replicate.mp member).2]
  rfl

theorem one_line_operation (e : Entry) : OneLine e.operation := by
  unfold Entry.operation
  split <;> split <;> decide

theorem one_line_arguments {e : Entry} {arguments : String} (read : e.loopstartArguments = some arguments) :
    OneLine arguments := by
  simp only [Entry.loopstartArguments, Option.bind_eq_some_iff, Option.map_eq_some_iff] at read
  obtain ⟨pktId, _, srv, _, rfl⟩ := read
  simp only [one_line_append]
  exact ⟨⟨⟨⟨⟨⟨one_line_int _, by decide⟩, one_line_queue_id _⟩, by decide⟩, one_line_queue_id _⟩, by decide⟩,
    one_line_int _⟩

variable {s : State} {e : Entry}

theorem one_line_loop {text : String} (clean : e.Clean) (read : s.loopText e = some text) : OneLine text := by
  obtain ⟨arguments, known, rfl⟩ := Option.map_eq_some_iff.mp read
  simp only [one_line_append]
  exact ⟨⟨⟨⟨one_line_padded s clean, by decide⟩, clean.location⟩, by decide⟩, one_line_arguments known⟩

theorem one_line_tempsynch (clean : e.Clean) : OneLine (s.tempsynchText e) := by
  simp only [State.tempsynchText, one_line_append]
  refine ⟨⟨one_line_padded s clean, by decide⟩, free_intercalate (by decide : OneLine " ") fun text member => ?_⟩
  obtain ⟨v, here, rfl⟩ := List.mem_map.mp member
  have user : OneLine (toString v.value ++ " " ++ v.name) := by
    simp only [one_line_append]
    exact ⟨⟨one_line_int _, by decide⟩, clean.users v here⟩
  exact user

theorem one_line_synch (clean : e.Clean) (operation : Sync) : OneLine (s.synchText e operation) := by
  have name : OneLine operation.text := by cases operation <;> decide
  simp only [State.synchText, one_line_append]
  refine ⟨⟨⟨⟨one_line_padded s clean, by decide⟩, name⟩, by decide⟩, ?_⟩
  split
  · exact one_line_get (one_line_named (by decide) _) (by decide)
  · exact clean.service

theorem one_line_temp (clean : e.Clean) : OneLine (s.tempText e) := by
  simp only [State.tempText, one_line_append]
  exact ⟨⟨one_line_padded s clean, by decide⟩, clean.type⟩

theorem one_line_pktextr (clean : e.Clean) : OneLine (s.pktextrText e) := by
  simp only [State.pktextrText, one_line_append]
  exact ⟨⟨⟨⟨one_line_padded s clean, by decide⟩, clean.type⟩, by decide⟩, clean.packetId⟩

theorem one_line_queued : OneLine (s.queueId e) := by
  unfold State.queueId
  split
  · exact one_line_queue_id _
  · split
    · exact one_line_get (one_line_queue _) (by decide)
    · decide

theorem one_line_state_queued : OneLine (s.stateQueueId e) := by
  unfold State.stateQueueId
  split
  · exact one_line_queue_id _
  · split
    · split
      · exact one_line_get (one_line_queue _) (by decide)
      · decide
    · decide

theorem one_line_scope (str : String) : OneLine (getStateScopeStr str) := by
  refine one_line_get (fun n member => ?_) (by decide)
  obtain ⟨id, _, named⟩ := Option.bind_eq_some_iff.mp member
  exact one_line_named (by decide) id n named

theorem one_line_queue_text (clean : e.Clean) : OneLine (s.queueText e) := by
  have head : OneLine (s.locationPadded e ++ " " ++ e.operation ++ "\t\t" ++ e.eventType.text ++ " ") := by
    simp only [one_line_append]
    exact ⟨⟨⟨⟨⟨one_line_padded s clean, by decide⟩, one_line_operation e⟩, by decide⟩, clean.type⟩, by decide⟩
  unfold State.queueText
  dsimp only
  split
  · rw [one_line_append, one_line_append, one_line_append]
    refine ⟨⟨⟨head, ?_⟩, by decide⟩, one_line_queued⟩
    split
    · exact clean.service
    · decide
  · rw [one_line_append, one_line_append, one_line_append, one_line_append, one_line_append]
    exact ⟨⟨⟨⟨⟨head, one_line_int _⟩, by decide⟩, one_line_state_queued⟩, by decide⟩, one_line_scope _⟩
  · rw [one_line_append, one_line_append, one_line_append]
    exact ⟨⟨⟨head, clean.packetId⟩, by decide⟩, one_line_queued⟩

theorem one_line_queuecond (clean : e.Clean) : OneLine (s.queuecondText e) := by
  have cond : OneLine e.getQueueCond := by
    unfold Entry.getQueueCond
    split <;> decide
  simp only [State.queuecondText, one_line_append]
  exact ⟨⟨⟨⟨⟨⟨one_line_padded s clean, by decide⟩, one_line_queue_id _⟩, by decide⟩, one_line_queue_id _⟩,
    by decide⟩, cond⟩

theorem one_line_statecond {text : String} (clean : e.Clean) (read : s.statecondText e = some text) :
    OneLine text := by
  obtain ⟨id, known, rfl⟩ := Option.map_eq_some_iff.mp read
  obtain ⟨n, _, state⟩ := Option.bind_eq_some_iff.mp known
  have name : OneLine id := one_line_named (by decide +kernel) n id state
  have operation : OneLine e.getStateOperation := one_line_get (one_line_named (by decide) _) (by decide)
  have scope : OneLine (getStateScope e.pid2) := one_line_get (one_line_named (by decide) _) (by decide)
  simp only [one_line_append]
  exact ⟨⟨⟨⟨⟨⟨⟨⟨one_line_padded s clean, by decide⟩, name⟩, by decide⟩, operation⟩, by decide⟩, scope⟩, by decide⟩,
    one_line_int _⟩

theorem one_line_peustart (clean : e.Clean) : OneLine e.peustartText := by
  simp only [Entry.peustartText, one_line_append]
  exact ⟨⟨clean.location, by decide⟩, one_line_irq _⟩

theorem one_line_call (clean : e.Clean) : OneLine (s.callText e) := by
  simp only [State.callText, one_line_append]
  exact ⟨⟨one_line_padded s clean, by decide⟩, clean.service⟩

theorem one_line_wakeup (clean : e.Clean) : OneLine (s.wakeupText e) := by
  simp only [State.wakeupText, one_line_append]
  exact ⟨⟨⟨⟨one_line_padded s clean, by decide⟩, one_line_int _⟩, by decide⟩, clean.packetId⟩

theorem one_line_sleep (clean : e.Clean) : OneLine (s.sleepText e) := by
  simp only [State.sleepText, one_line_append]
  exact ⟨one_line_padded s clean, by decide⟩

end Texts

def Event.opening : Event → Bool
  | .start | .loopstart _ => true
  | _ => false

def Event.closing : Event → Bool
  | .stop | .restart => true
  | _ => false

def Signature.Closed (signature : Signature) : Prop :=
  ∃ before last, signature.events = before ++ [last] ∧ last.closing = true ∧ ∀ event ∈ before, OneLine event.text

theorem closing_text {event : Event} (closing : event.closing = true) :
    ∃ word, event.text = word ++ "\n" ∧ OneLine word := by
  cases event with
  | stop => exact ⟨"0 STOP", by decide, by decide⟩
  | restart => exact ⟨"0 RESTART", by decide, by decide⟩
  | start => cases closing
  | loopstart => cases closing
  | line => cases closing
  | peustart => cases closing
  | sleep => cases closing
  | wakeup => cases closing

/-- The key is the join of lines: the break of the closing text ends the line before an
    empty one. -/
theorem key_lines {signature : Signature} (closed : signature.Closed) :
    ∃ lines : List String, (∀ text ∈ lines, OneLine text) ∧ lines ≠ [] ∧
      signature.key = "\n".intercalate (lines ++ [""]) ∧
      signature.events.map Event.text = lines.dropLast ++ [lines.getLastD "" ++ "\n"] := by
  obtain ⟨before, last, events, closing, oneLine⟩ := closed
  obtain ⟨word, text, plain⟩ := closing_text closing
  refine ⟨before.map Event.text ++ [word], ?_, by simp, ?_, ?_⟩
  · intro line member
    rcases List.mem_append.mp member with inside | final
    · obtain ⟨event, here, rfl⟩ := List.mem_map.mp inside
      exact oneLine event here
    · exact List.mem_singleton.mp final ▸ plain
  · have ends : ∀ ts : List String, "\n".intercalate (ts ++ [word ++ "\n"]) = "\n".intercalate (ts ++ [word] ++ [""]) := by
      intro ts
      induction ts with
      | nil => simp
      | cons t ts ih =>
        cases ts with
        | nil => simp [String.append_assoc]
        | cons u us =>
          simp only [List.cons_append, String.intercalate_cons_cons] at ih ⊢
          rw [ih]
    rw [Signature.key, events, List.map_append, List.map_singleton, text]
    exact ends _
  · rw [events, List.map_append, List.map_singleton, text]
    simp

theorem key_injective {first second : Signature} (closed : first.Closed) (closed' : second.Closed)
    (same : first.key = second.key) : first.events.map Event.text = second.events.map Event.text := by
  obtain ⟨lines, oneLine, _, key, texts⟩ := key_lines closed
  obtain ⟨lines', oneLine', _, key', texts'⟩ := key_lines closed'
  have ended : ∀ ts : List String, (∀ t ∈ ts, OneLine t) → ∀ t ∈ ts ++ [""], Free (· == '\n') t := by
    intro ts lines t member
    rcases List.mem_append.mp member with inside | final
    · exact lines t inside
    · exact List.mem_singleton.mp final ▸ (by decide : OneLine "")
  rw [key, key'] at same
  have equal := intercalate_injective (ended lines oneLine) (ended lines' oneLine') (by simp) (by simp) same
  rw [texts, texts', List.append_cancel_right equal]

end Analyse
