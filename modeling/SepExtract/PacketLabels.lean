import SepExtract.AnalysePeu
import SepExtract.HeapEntries
import SepExtract.TemporaryVariables

/- The labels of packet operations. Every event is appended as a new entry or leaves the stacks
   alone, and only PKTQUEUEN changes a label: that of the entry appended last, on any CPU. -/
namespace Analyse

def EventType.Packet (t : EventType) : Prop := t.unlabelled = .pktqueue

theorem packet_iff (t : EventType) : t.Packet ↔ t = .pktqueue ∨ t = .pktqueuen := by
  cases t <;> simp [EventType.Packet, EventType.unlabelled]

theorem packet_of_view {s t : State} {q : Ref} (same : t.view q = s.view q) :
    (t.deref q).eventType.Packet ↔ (s.deref q).eventType.Packet := by
  have type : (t.view q).eventType = (s.view q).eventType := congrArg Entry.eventType same
  exact ⟨fun packet => type.symm.trans packet, fun packet => type.trans packet⟩

/-- What the entry of a packet operation can be called: a loop that is started again away from the CPU it
    began on can have it for its first entry. -/
def EventType.Marked (t : EventType) : Prop := t.Packet ∨ t.InLoop

theorem in_loop_of_unlabelled {a b : Entry} (same : b.unlabelled = a.unlabelled) (loop : a.eventType.InLoop) :
    b.eventType.InLoop := by
  have type : b.eventType.unlabelled = a.eventType.unlabelled := congrArg Entry.eventType same
  rcases loop with loop | loop <;> rw [loop] at type <;> cases here : b.eventType <;>
    simp_all [EventType.unlabelled, EventType.InLoop]

/-- The entries of packet operations stay, with their labels unless the event is PKTQUEUEN, or become
    those of a loop. -/
def KeepsPackets (e : Entry) (s : State) (d : Desk) : Prop :=
  ∀ q, s.Valid q → (s.deref q).eventType.Marked → d.state.Valid q ∧ ((d.state.deref q).eventType.InLoop ∨
    d.state.view q = s.view q ∧ (e.eventType ≠ .pktqueuen → (d.state.deref q).eventType = (s.deref q).eventType))

section Packets
variable {e : Entry} {s t u : State} {a b : Desk} {q r : Ref} {c : Fin 2}

theorem packets_keep (keeps : KeepsPackets e s a) (heap : b.state.heap = a.state.heap) : KeepsPackets e s b := by
  intro q valid marked
  obtain ⟨there, kept⟩ := keeps q valid marked
  have deref : b.state.deref q = a.state.deref q := by simp [State.deref, heap]
  unfold State.Valid at there ⊢
  rw [State.view, deref, heap]
  exact ⟨there, kept⟩

theorem marked_after {d : Desk} (keeps : KeepsPackets e s d) (valid : s.Valid q) (marked : (s.deref q).eventType.Marked) :
    (d.state.deref q).eventType.Marked := by
  rcases (keeps q valid marked).2 with loop | ⟨view, _⟩
  · exact Or.inr loop
  · exact marked.imp (packet_of_view view).mpr (in_loop_of_unlabelled view)

theorem packets_modify {f : Entry → Entry} (keeps : KeepsPackets e s a)
    (kept : (a.state.deref r).eventType.Marked → (f (a.state.deref r)).eventType.InLoop ∨
      (f (a.state.deref r)).unlabelled = (a.state.deref r).unlabelled ∧
        (e.eventType ≠ .pktqueuen → (f (a.state.deref r)).eventType = (a.state.deref r).eventType)) :
    KeepsPackets e s { a with state := a.state.modify r f } := by
  intro q valid marked
  obtain ⟨there, before⟩ := keeps q valid marked
  refine ⟨(valid_modify r f).mpr there, ?_⟩
  by_cases here : q = r
  · subst here
    simp only [State.view, deref_modify_self f there]
    rcases kept (marked_after keeps valid marked) with loop | ⟨same, label⟩
    · exact Or.inl loop
    · rcases before with loop | ⟨view, type⟩
      · exact Or.inl (in_loop_of_unlabelled same loop)
      · exact Or.inr ⟨same.trans view, fun other => (label other).trans (type other)⟩
  · simp only [State.view, deref_modify_ne f here]
    exact before

theorem packets_move (move : Move false e a b) (keeps : KeepsPackets e s a) : KeepsPackets e s b := by
  cases move with
  | alloc x =>
    intro q valid marked
    obtain ⟨there, kept⟩ := keeps q valid marked
    refine ⟨valid_alloc there, ?_⟩
    simp only [State.view, deref_alloc (e := x) there]
    exact kept
  | relabel r f before after kept => exact packets_modify keeps fun _ => Or.inl (after _)
  | packet r type before =>
    refine packets_modify keeps fun _ => Or.inr ⟨?_, fun other => absurd type other⟩
    simp [Entry.unlabelled, EventType.unlabelled, before]
  | fill => exact packets_modify keeps fun _ => Or.inr ⟨rfl, fun _ => rfl⟩
  | note v operation type =>
    show KeepsPackets e s { a with state := a.state.noteUser e.cpu v operation }
    unfold State.noteUser
    split
    · exact keeps
    · exact packets_modify keeps fun _ => Or.inr ⟨rfl, fun _ => rfl⟩
  | push c r => exact packets_keep keeps (by simp)
  | pop t elem popped =>
    obtain ⟨rest, _, rfl⟩ := pop_cases popped
    exact packets_keep keeps rfl
  | store t elem taken stored => exact packets_keep keeps (store_keeps stored).1
  | touch => exact packets_keep keeps rfl
  | last => exact packets_keep keeps rfl
  | opens => exact packets_keep keeps rfl
  | extend => exact packets_keep keeps rfl
  | drop => exact packets_keep keeps rfl
  | ensure => exact packets_keep keeps rfl
  | switch => exact packets_keep keeps rfl
  | peu => exact packets_keep keeps rfl
  | temps => exact packets_keep keeps rfl

theorem packets_handle (done : handleEvent s e = some t) : KeepsPackets e s ⟨t, none, false⟩ := by
  have start : KeepsPackets e s ⟨s, none, false⟩ := fun _ valid _ => ⟨valid, Or.inr ⟨rfl, fun _ => rfl⟩⟩
  by_cases stays : e.eventType = .migrate
  · have moved : handleMIGRATE s e = some t := by
      simpa [handleEvent, stays] using done
    rcases stack_of_migrate moved with rfl | ⟨_, _, _, heap, _⟩
    · exact start
    · exact packets_keep start heap
  · obtain ⟨switched, moves⟩ : ∃ switched, Moves false e ⟨s, none, false⟩ ⟨t, none, switched⟩ :=
      handle_moves (by simp) stays done
    exact packets_keep (moves_keep (fun _ _ => packets_move) moves start) rfl

def Appends (s t : State) : Prop := ∃ q, t.lastAppended = some q ∧ ¬ s.Valid q ∧ t.Valid q

structure Idle (e : Entry) (s t : State) : Prop where
  last : t.lastAppended = s.lastAppended
  leu : t.currentLEU = s.currentLEU
  packets : ∀ q, (s.deref q).eventType.Packet → t.deref q = s.deref q
  stack : ∀ c l, (e.eventType = .migrate → l ≠ .thread e.pid1) → t.stackOf c l = s.stackOf c l

def Grows (s t : State) : Prop := ∀ r, s.Valid r → t.Valid r

theorem grows_of_heap (heap : t.heap = s.heap) : Grows s t := by
  intro r valid
  unfold State.Valid at valid ⊢
  rwa [heap]

theorem grows_refl (s : State) : Grows s s := fun _ valid => valid

theorem grows_trans (first : Grows s t) (second : Grows t u) : Grows s u := fun r valid => second r (first r valid)

theorem grows_alloc (s : State) (x : Entry) : Grows s (s.alloc x) := fun _ => valid_alloc

theorem grows_modify (s : State) (r : Ref) (f : Entry → Entry) : Grows s (s.modify r f) :=
  fun _ valid => (valid_modify r f).mpr valid

theorem appends_new (grows : Grows s u) (x : Entry) (last : t.lastAppended = some (u.next x.cpu))
    (heap : t.heap = (u.alloc x).heap) : Appends s t :=
  ⟨_, last, fun valid => next_invalid u x.cpu (grows _ valid), grows_of_heap heap _ (valid_next u x)⟩

theorem appends_push (grows : Grows s u) (x : Entry) : Appends s ((u.alloc x).pushService x.cpu (u.next x.cpu)) :=
  appends_new grows x rfl (push_service_heap ..)

theorem appends_open (grows : Grows s u) (c : Fin 2) (x : Entry) (name : String) : Appends s (u.openService c x name) :=
  appends_new grows x rfl (open_service_heap ..)

theorem appends_new_service (grows : Grows s u) (x : Entry) (name : String) : Appends s (u.pushNewService x name) := by
  have touched : Grows s (u.touch x.cpu) := grows_trans grows (grows_of_heap rfl)
  unfold State.pushNewService
  dsimp only
  split
  · exact appends_open touched _ _ _
  · refine appends_open ?_ _ _ _
    unfold State.registerCall
    split
    · exact touched
    · exact grows_trans (grows_trans touched (grows_alloc _ x)) (grows_of_heap (by simp))

theorem appends_append_last (appends : Appends s u) (done : u.appendLastToPEU c = some t) : Appends s t :=
  append_last_keeps (P := fun v => Appends s v)
    (fun _ _ _ _ ⟨q, last, fresh, valid⟩ => ⟨q, last, fresh, (valid_modify ..).mpr valid⟩) (fun _ _ before => before)
    appends done

theorem appends_with_peu (grows : Grows s u) {x : Entry} (done : u.pushWithPEU x = some t) : Appends s t :=
  appends_append_last (appends_push grows x) done

theorem srvexit_last {closed : Bool} (done : handleSRVEXIT s c r = some (t, closed)) : t.lastAppended = some r := by
  unfold handleSRVEXIT at done
  dsimp only at done
  split at done
  · obtain ⟨rfl, _⟩ := Prod.mk.inj (Option.some.inj done)
    rfl
  · simp only [bind, Option.bind_eq_some_iff] at done
    obtain ⟨⟨elem, u⟩, _, v, _, eq⟩ := done
    obtain ⟨rfl, _⟩ := Prod.mk.inj (Option.some.inj eq)
    rfl

theorem appends_srvexit {closed : Bool} (done : handleSRVEXIT (s.alloc e) e.cpu (s.next e.cpu) = some (t, closed)) :
    Appends s t :=
  appends_new (grows_refl s) e (srvexit_last done) (srvexit_heap done)

theorem appends_hirq_exit (done : handleHIRQExit s e = some t) : Appends s t := by
  unfold handleHIRQExit at done
  simp only [bind, Option.bind_eq_some_iff] at done
  obtain ⟨⟨u, closed⟩, exited, rest⟩ := done
  dsimp only at rest
  split at rest
  · split at rest
    · cases rest
    · have heap := srvexit_heap exited
      refine appends_append_last (appends_new (grows_refl s) e rfl ?_) rest
      rw [push_service_heap]
      exact heap
  · exact Option.some.inj rest ▸ appends_srvexit exited

theorem idle_touch (s : State) (e : Entry) : Idle e s (s.touch e.cpu) :=
  ⟨rfl, rfl, fun _ _ => rfl, fun _ _ _ => stack_of_touch ..⟩

theorem looprstart_cases (done : handleLOOPRSTART s e = some t) :
    (s.currentStack e.cpu = [] ∧ t = s.touch e.cpu) ∨
    (∃ last, (s.deref last).eventType = .loopstart ∧
      t = (s.touch e.cpu).modify last fun l => { l with eventType := .looprstart, cycles := e.cycles }) ∨
    Appends s t := by
  have same : (s.touch e.cpu).currentStack e.cpu = s.currentStack e.cpu := by simp [State.currentStack]
  unfold handleLOOPRSTART at done
  dsimp only at done
  split at done
  · next empty => exact Or.inl ⟨same ▸ empty, (Option.some.inj done).symm⟩
  · simp only [bind, Option.bind_eq_some_iff] at done
    obtain ⟨last, _, rest⟩ := done
    split at rest
    · next start => exact Or.inr (Or.inl ⟨last, start, (Option.some.inj rest).symm⟩)
    · simp only [Option.bind_eq_some_iff] at rest
      obtain ⟨⟨service, u⟩, popped, first, _, v, stored, eq⟩ := rest
      obtain rfl := Option.some.inj eq
      obtain ⟨below, _, rfl⟩ := pop_cases popped
      have pushed : Grows s ((((s.touch e.cpu).alloc e).pushService e.cpu ((s.touch e.cpu).next e.cpu)).setCurrentStack
          e.cpu below) :=
        grows_trans (grows_alloc s e) (grows_of_heap (push_service_heap ..))
      have grown : Grows s v :=
        grows_trans (grows_trans pushed (grows_modify _ _ _)) (grows_of_heap (store_keeps stored).1)
      exact Or.inr (Or.inr (appends_open grown _ _ _))

theorem loopstart_cases (done : handleLOOPSTART s e = some t) :
    (s.currentStack e.cpu = [] ∧ t = s.touch e.cpu) ∨ Appends s t := by
  have same : (s.touch e.cpu).currentStack e.cpu = s.currentStack e.cpu := by simp [State.currentStack]
  unfold handleLOOPSTART at done
  dsimp only at done
  rw [same] at done
  obtain rfl := Option.some.inj done
  split
  · next empty => exact Or.inl ⟨List.isEmpty_iff.mp empty, rfl⟩
  · have touched : Grows s (s.touch e.cpu) := grows_of_heap rfl
    exact Or.inr (appends_new_service touched e _)

theorem loopstop_cases (done : handleLOOPSTOP s e = some t) :
    (s.currentStack e.cpu = [] ∧ t = s.touch e.cpu) ∨ Appends s t := by
  have same : (s.touch e.cpu).currentStack e.cpu = s.currentStack e.cpu := by simp [State.currentStack]
  unfold handleLOOPSTOP at done
  dsimp only at done
  split at done
  · next empty =>
    refine Or.inl ⟨?_, (Option.some.inj done).symm⟩
    unfold State.pop at empty
    split at empty
    · next none => exact same ▸ none
    · cases empty
  · rename_i service u popped
    split at done
    · cases done
    · rename_i head _
      obtain ⟨v, stored, rfl⟩ := Option.map_eq_some_iff.mp done
      obtain ⟨below, _, rfl⟩ := pop_cases popped
      refine Or.inr (appends_push (u := v) ?_ e)
      have copied : ∀ x, Grows s (((s.touch e.cpu).setCurrentStack e.cpu below).alloc x) := fun x =>
        grows_trans (grows_of_heap rfl) (grows_alloc _ x)
      unfold State.storeLoop at stored
      split at stored
      · exact grows_trans (grows_trans (copied _) (grows_modify _ _ _)) (grows_of_heap (store_keeps stored).1)
      · exact Option.some.inj stored ▸ copied _

theorem appends_sync {operation : Sync} (done : handleSync s e operation = some t) : Appends s t := by
  unfold handleSync at done
  split at done
  · exact appends_with_peu (grows_refl s) done
  · rename_i v _
    obtain ⟨u, pushed, rfl⟩ := Option.map_eq_some_iff.mp done
    have noted : Grows s ((s.touch e.cpu).noteUser e.cpu v operation) := by
      unfold State.noteUser
      split
      · exact grows_of_heap rfl
      · exact grows_trans (grows_of_heap rfl) (grows_modify _ _ _)
    have appends : Appends s u := appends_with_peu noted pushed
    exact appends

theorem pktqueue_done (done : handlePKTQUEUE s e = some t) :
    ∃ u label, s.labelPacket e = some (u, label) ∧ t = (u.alloc { e with
      eventType := label, packetId := toString (GoText.parseIntValue 16 e.packetId) }).pushService e.cpu (u.next e.cpu) := by
  obtain ⟨⟨u, label⟩, labelled, rfl⟩ := Option.map_eq_some_iff.mp done
  exact ⟨u, label, labelled, rfl⟩

theorem label_cases {label : EventType} (labelled : s.labelPacket e = some (u, label)) :
    (u = s ∧ label = e.eventType ∧
      (e.eventType = .pktqueuen → ∃ last, s.lastAppended = some last ∧ (s.deref last).eventType ≠ .pktqueue)) ∨
    (e.eventType = .pktqueuen ∧ label = .pktqueue ∧ ∃ last, s.lastAppended = some last ∧
      (s.deref last).eventType = .pktqueue ∧ u = s.modify last fun l => { l with eventType := .pktqueuen }) := by
  unfold State.labelPacket at labelled
  split at labelled
  · next type =>
    split at labelled
    · cases labelled
    · next last appended =>
      split at labelled
      · next packet =>
        obtain ⟨rfl, rfl⟩ := Prod.mk.inj (Option.some.inj labelled)
        exact Or.inr ⟨type, rfl, last, appended, packet, rfl⟩
      · next other =>
        obtain ⟨rfl, rfl⟩ := Prod.mk.inj (Option.some.inj labelled)
        exact Or.inl ⟨rfl, rfl, fun _ => ⟨last, appended, other⟩⟩
  · next type =>
    obtain ⟨rfl, rfl⟩ := Prod.mk.inj (Option.some.inj labelled)
    exact Or.inl ⟨rfl, rfl, fun again => absurd again type⟩

theorem appends_pktqueue (done : handlePKTQUEUE s e = some t) : Appends s t := by
  obtain ⟨u, label, labelled, rfl⟩ := pktqueue_done done
  refine appends_push (u := u) ?_ { e with eventType := label, packetId := _ }
  rcases label_cases labelled with ⟨rfl, _⟩ | ⟨_, _, last, _, _, rfl⟩
  · exact grows_refl _
  · exact grows_modify _ _ _

theorem idle_migrate (done : handleMIGRATE s e = some t) (type : e.eventType = .migrate) : Idle e s t := by
  have others : t = { s with serviceStack := t.serviceStack } := by
    unfold handleMIGRATE at done
    dsimp only at done
    split at done
    · exact Option.some.inj done ▸ rfl
    · split at done
      · cases done
      · split at done
        · cases done
        · exact Option.some.inj done ▸ rfl
  refine ⟨by rw [others], by rw [others], fun q _ => by rw [others]; rfl, fun c l other => ?_⟩
  rcases stack_of_migrate done with rfl | ⟨_, _, _, _, _, stack⟩
  · rfl
  · rw [stack, if_neg (other type)]

def EventType.Passing : EventType → Bool
  | .migrate | .loopstart | .looprstart | .loopstop | .sync _ true | .pktextr | .pktextrn | .threadcond | .other _ => true
  | _ => false

theorem appends_handle (type : e.eventType.Passing = false) (done : handleEvent s e = some t) : Appends s t := by
  have plain : ∀ {u}, s.pushPlain e = some u → Appends s u := by
    intro u pushed
    obtain rfl := Option.some.inj pushed
    exact appends_push (grows_refl s) e
  unfold handleEvent at done
  split at done
  · obtain rfl := Option.some.inj done
    refine appends_new (grows_refl s) e rfl ?_
    exact (push_service_heap ..).trans (push_service_heap ..)
  · next here => simp [here, EventType.Passing] at type
  · refine appends_append_last (appends_new_service ?_ e _) done
    exact grows_trans (grows_alloc s e) (grows_of_heap (push_service_heap ..))
  · exact appends_hirq_exit done
  · next here => simp [here, EventType.Passing] at type
  · next here => simp [here, EventType.Passing] at type
  · next here => simp [here, EventType.Passing] at type
  · exact appends_with_peu (grows_refl s) done
  · exact appends_sync done
  · exact appends_pktqueue done
  · exact appends_pktqueue done
  · obtain rfl := Option.some.inj done
    exact appends_new_service (grows_refl s) _ _
  · obtain ⟨⟨u, closed⟩, exited, rfl⟩ := Option.map_eq_some_iff.mp done
    exact appends_srvexit exited
  · unfold handleSRVQUEUE at done
    split at done
    · obtain rfl := Option.some.inj done
      exact appends_push (grows_refl s) _
    · obtain rfl := Option.some.inj done
      exact appends_new_service (grows_refl s) _ _
  · obtain rfl := Option.some.inj done
    exact appends_new (grows_refl s) { e with tempVarId := s.tempVarId } rfl (push_service_heap ..)
  all_goals first
    | exact plain done
    | next here => simp [here, EventType.Passing] at type

theorem appends_or_idle (done : handleEvent s e = some t) : Appends s t ∨ Idle e s t := by
  cases passing : e.eventType.Passing with
  | false => exact Or.inl (appends_handle passing done)
  | true =>
    have ignored : handleEvent s e = some s → Appends s t ∨ Idle e s t := by
      intro same
      obtain rfl := Option.some.inj (same.symm.trans done)
      exact Or.inr ⟨rfl, rfl, fun _ _ => rfl, fun _ _ _ => rfl⟩
    cases type : e.eventType with
    | migrate => exact Or.inr (idle_migrate (by simpa [handleEvent, type] using done) type)
    | loopstart =>
      rcases loopstart_cases (by simpa [handleEvent, type] using done) with ⟨_, rfl⟩ | appends
      · exact Or.inr (idle_touch s e)
      · exact Or.inl appends
    | looprstart =>
      rcases looprstart_cases (by simpa [handleEvent, type] using done) with ⟨_, rfl⟩ | ⟨last, start, rfl⟩ | appends
      · exact Or.inr (idle_touch s e)
      · refine Or.inr ⟨rfl, rfl, fun q packet => ?_, fun _ _ _ => stack_of_touch ..⟩
        refine (deref_modify_ne _ ?_).trans rfl
        rintro rfl
        simp [start, EventType.Packet, EventType.unlabelled] at packet
      · exact Or.inl appends
    | loopstop =>
      rcases loopstop_cases (by simpa [handleEvent, type] using done) with ⟨_, rfl⟩ | appends
      · exact Or.inr (idle_touch s e)
      · exact Or.inl appends
    | sync operation temporary =>
      cases temporary with
      | true => exact ignored (by simp [handleEvent, type])
      | false => simp [type, EventType.Passing] at passing
    | pktextr => exact ignored (by simp [handleEvent, type])
    | pktextrn => exact ignored (by simp [handleEvent, type])
    | threadcond => exact ignored (by simp [handleEvent, type])
    | other name => exact ignored (by simp [handleEvent, type])
    | _ => simp [type, EventType.Passing] at passing

theorem next_modify (s : State) (r : Ref) (f : Entry → Entry) : (s.modify r f).next = s.next := by
  funext c
  by_cases here : c = r.cpu
  · subst here
    simp [State.next, State.modify]
  · simp [State.next, State.modify, here]

structure Extracts (e : Entry) (s t : State) : Prop where
  valid : t.Valid (s.next e.cpu)
  view : t.view (s.next e.cpu) = e.noted
  last : t.lastAppended = some (s.next e.cpu)
  leu : t.currentLEU = s.currentLEU
  stack : t.stackOf e.cpu (s.currentLEU e.cpu) = appendTop (s.next e.cpu) (s.stackOf e.cpu (s.currentLEU e.cpu))

theorem extracts_handle (packet : e.eventType.Packet) (done : handleEvent s e = some t) :
    Extracts e s t := by
  have handled : handlePKTQUEUE s e = some t := by
    rcases (packet_iff _).mp packet with type | type <;> simpa [handleEvent, type] using done
  have rewritten : e.rewritten = { e with packetId := toString (GoText.parseIntValue 16 e.packetId) } := by
    rcases (packet_iff _).mp packet with type | type <;> simp [Entry.rewritten, type]
  obtain ⟨u, label, labelled, rfl⟩ := pktqueue_done handled
  have kept : u.next = s.next ∧ u.currentLEU = s.currentLEU ∧ (∀ c l, u.stackOf c l = s.stackOf c l) ∧
      label.unlabelled = .pktqueue := by
    rcases label_cases labelled with ⟨rfl, rfl, _⟩ | ⟨_, rfl, last, _, _, rfl⟩
    · exact ⟨rfl, rfl, fun _ _ => rfl, packet⟩
    · exact ⟨next_modify .., rfl, fun _ _ => rfl, rfl⟩
  obtain ⟨next, leu, stack, type⟩ := kept
  let x : Entry := { e with eventType := label, packetId := toString (GoText.parseIntValue 16 e.packetId) }
  have seen : x.unlabelled = e.noted := by
    rw [Entry.noted, rewritten]
    unfold Entry.unlabelled
    rw [show x.eventType.unlabelled = e.eventType.unlabelled from type.trans packet.symm]
  refine ⟨?_, ?_, ?_, ?_, ?_⟩
  · rw [← next]
    have there : (u.alloc x).Valid (u.next x.cpu) := valid_next u x
    unfold State.Valid at there ⊢
    rwa [push_service_heap]
  · rw [← next, ← seen, view_of_heap (push_service_heap ..)]
    exact congrArg Entry.unlabelled (deref_alloc_next u x)
  · rw [← next]
    rfl
  · rw [push_service_leu]
    exact leu
  · rw [stack_of_push_service, if_pos ⟨rfl, by rw [alloc_leu, leu]⟩, stack_of_alloc, stack, next]

theorem labels_pktqueuen (type : e.eventType = .pktqueuen) (done : handleEvent s e = some t) :
    ∃ last, s.lastAppended = some last ∧
      ((t.deref (s.next e.cpu)).eventType = if (s.deref last).eventType = .pktqueue then .pktqueue else .pktqueuen) ∧
      ∀ q, s.Valid q → (t.deref q).eventType =
        if q = last ∧ (s.deref q).eventType = .pktqueue then .pktqueuen else (s.deref q).eventType := by
  have handled : handlePKTQUEUE s e = some t := by simpa [handleEvent, type] using done
  obtain ⟨u, label, labelled, rfl⟩ := pktqueue_done handled
  rcases label_cases labelled with ⟨rfl, rfl, appended⟩ | ⟨_, rfl, last, appended, packet, rfl⟩
  · obtain ⟨last, appended, other⟩ := appended type
    obtain ⟨fills, _, _, new⟩ := fills_push_new u { e with packetId := toString (GoText.parseIntValue 16 e.packetId) }
    refine ⟨last, appended, ?_, fun q valid => ?_⟩
    · rw [if_neg other]
      exact (congrArg Entry.eventType new).trans type
    · rw [if_neg]
      · exact filled_type (fills q valid).2
      · rintro ⟨rfl, packet⟩
        exact other packet
  · obtain ⟨fills, _, _, new⟩ := fills_push_new (s.modify last fun l => { l with eventType := .pktqueuen })
      { e with eventType := .pktqueue, packetId := toString (GoText.parseIntValue 16 e.packetId) }
    refine ⟨last, appended, ?_, fun q valid => ?_⟩
    · rw [if_pos packet, ← next_modify s last fun l => { l with eventType := .pktqueuen }]
      exact congrArg Entry.eventType new
    · refine (filled_type (fills q ((valid_modify _ _).mpr valid)).2).trans ?_
      by_cases here : q = last
      · subst here
        rw [deref_modify_self _ valid, if_pos ⟨rfl, packet⟩]
      · rw [deref_modify_ne _ here, if_neg fun both => here both.1]

theorem labels_pktqueue (type : e.eventType = .pktqueue) (done : handleEvent s e = some t) :
    (t.deref (s.next e.cpu)).eventType = .pktqueue ∧
      ∀ q, s.Valid q → (t.deref q).eventType = (s.deref q).eventType := by
  have handled : handlePKTQUEUE s e = some t := by simpa [handleEvent, type] using done
  obtain ⟨u, label, labelled, rfl⟩ := pktqueue_done handled
  rcases label_cases labelled with ⟨rfl, rfl, _⟩ | ⟨other, _⟩
  · obtain ⟨fills, _, _, new⟩ := fills_push_new u { e with packetId := toString (GoText.parseIntValue 16 e.packetId) }
    exact ⟨(congrArg Entry.eventType new).trans type, fun q valid => filled_type (fills q valid).2⟩
  · rw [type] at other
    cases other

theorem label_after (done : handleEvent s e = some t) (valid : s.Valid q) (marked : (s.deref q).eventType.Marked) :
    (t.deref q).eventType.InLoop ∨ (t.deref q).eventType = (s.deref q).eventType ∨
      e.eventType = .pktqueuen ∧ s.lastAppended = some q ∧ (t.deref q).eventType = .pktqueuen := by
  by_cases type : e.eventType = .pktqueuen
  · obtain ⟨last, appended, _, labels⟩ := labels_pktqueuen type done
    have label := labels q valid
    split at label
    · next here => exact Or.inr (Or.inr ⟨type, here.1 ▸ appended, label⟩)
    · exact Or.inr (Or.inl label)
  · exact (packets_handle done q valid marked).2.imp id fun kept => Or.inl (kept.2 type)

end Packets

end Analyse
