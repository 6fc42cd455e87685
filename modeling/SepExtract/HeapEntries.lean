import SepExtract.InstanceShapes

/- A property of all entries of the heap. The handlers make new entries of the event and of old
   entries, and they change old ones, in a few ways only; a property that these keep holds of
   every entry of a nested run. -/
namespace Analyse

def EventType.Given (t : EventType) : Prop :=
  t = .loopstart ∨ t = .looprstart ∨ t = .pktqueue ∨ t = .pktqueuen ∨ ∃ operation, t = .sync operation true

/-- A property of entries that is kept by what handlers do to them; Q is what it says of the names
    of services. -/
structure Lasting (P : Entry → Prop) (Q : String → Prop) : Prop where
  blank : ∀ c, P (.blank c)
  given : ∀ (e : Entry) (t : EventType) (cycles : Int), t.Given → P e → P { e with eventType := t, cycles := cycles }
  timed : ∀ (e : Entry) (duration irq : Int), P e → P { e with peuDuration := duration, peuIRQ := irq }
  numbered : ∀ (e : Entry) (packetId : Int), P e → P { e with packetId := toString packetId }
  queued : ∀ e : Entry, P e → P { e with service := (softirqs e.service).getD e.service }
  counted : ∀ (e : Entry) (id : Nat), P e → P { e with tempVarId := id }
  named : ∀ (e : Entry) (n : String), P e → e.heads n → Q n
  noted : ∀ (e : Entry) (user : TempVarEntry), P e → Q user.name → P { e with tempVars := e.tempVars ++ [user] }

def State.All (P : Entry → Prop) (s : State) : Prop := ∀ c, ∀ e ∈ s.heap c, P e

section Heap
variable {P : Entry → Prop} {Q : String → Prop} {s t : State} {e : Entry}

theorem all_of_heap (all : s.All P) (heap : t.heap = s.heap) : t.All P := by
  intro c
  rw [heap]
  exact all c

theorem all_alloc (all : s.All P) (new : P e) : (s.alloc e).All P := by
  intro c a member
  rcases mem_heap_alloc member with old | ⟨_, rfl⟩
  · exact all c a old
  · exact new

theorem all_modify (all : s.All P) (r : Ref) (f : Entry → Entry) (kept : ∀ e, P e → P (f e)) :
    (s.modify r f).All P := by
  intro c a member
  obtain ⟨b, old, rfl | rfl⟩ := mem_heap_modify member
  · exact all c a old
  · exact kept b (all c b old)

theorem all_deref (lasting : Lasting P Q) (all : s.All P) (r : Ref) : P (s.deref r) := by
  unfold State.deref
  cases here : (s.heap r.cpu)[r.index]? with
  | none => exact lasting.blank r.cpu
  | some e => exact all r.cpu e (List.mem_of_getElem? here)

theorem all_new_service (all : s.All P) (new : P e) (name : String) : (s.pushNewService e name).All P := by
  unfold State.pushNewService
  dsimp only
  refine all_of_heap (all_alloc ?_ new) (open_service_heap _ e.cpu e name)
  split
  · exact all
  · unfold State.registerCall
    split
    · exact all
    · exact all_of_heap (all_alloc (s := s.touch e.cpu) all new) (push_entry_heap ..)

theorem all_append_last {c : Fin 2} (lasting : Lasting P Q) (all : s.All P) (done : s.appendLastToPEU c = some t) :
    t.All P :=
  append_last_keeps (P := State.All P)
    (fun _ start _ _ all => all_modify all start _ fun e => lasting.timed e _ _)
    (fun _ _ all => all) all done

theorem all_push_new (all : s.All P) (new : P e) : ((s.alloc e).pushService e.cpu (s.next e.cpu)).All P :=
  all_of_heap (all_alloc all new) (push_service_heap ..)

theorem all_with_peu (lasting : Lasting P Q) (all : s.All P) (new : P e) (done : s.pushWithPEU e = some t) :
    t.All P := all_append_last lasting (all_push_new all new) done

theorem srvexit_heap {c : Fin 2} {r : Ref} {b : Bool} (done : handleSRVEXIT s c r = some (t, b)) :
    t.heap = s.heap := by
  unfold handleSRVEXIT at done
  dsimp only at done
  split at done
  · obtain ⟨rfl, _⟩ := Prod.mk.inj (Option.some.inj done)
    exact push_service_heap s c r
  · simp only [bind, Option.bind_eq_some_iff] at done
    obtain ⟨⟨elem, s₁⟩, popped, s₂, stored, eq⟩ := done
    obtain ⟨rfl, _⟩ := Prod.mk.inj (Option.some.inj eq)
    obtain ⟨rest, _, rfl⟩ := pop_cases popped
    rw [push_service_heap, (store_keeps stored).1]
    exact push_service_heap s c r

theorem all_hirq_entry (lasting : Lasting P Q) (all : s.All P) (new : P e) (done : handleHIRQEntry s e = some t) :
    t.All P := by
  unfold handleHIRQEntry at done
  have pushed := all_push_new all new
  have aside : ((((s.alloc e).pushService e.cpu (s.next e.cpu)).interrupt e.cpu e.pid1).ensureLEU
      (.hardwareInterrupt e.pid1)).All P := all_of_heap pushed rfl
  exact all_append_last lasting (all_new_service aside new (irqService e.pid1)) done

theorem all_hirq_exit (lasting : Lasting P Q) (all : s.All P) (new : P e) (done : handleHIRQExit s e = some t) :
    t.All P := by
  simp only [handleHIRQExit, bind, Option.bind_eq_some_iff] at done
  obtain ⟨⟨s₁, closed⟩, exited, rest⟩ := done
  have after := all_of_heap (all_alloc all new) (srvexit_heap exited)
  split at rest
  · split at rest
    · cases rest
    · rename_i leu others _
      have resumed : (s₁.resume e.cpu leu others).All P := after
      exact all_append_last lasting (all_of_heap resumed (push_service_heap ..)) rest
  · exact Option.some.inj rest ▸ after

theorem all_looprstart (lasting : Lasting P Q) (all : s.All P) (new : P e)
    (done : handleLOOPRSTART s e = some t) : t.All P := by
  unfold handleLOOPRSTART at done
  dsimp only at done
  split at done
  · exact Option.some.inj done ▸ all
  · simp only [bind, Option.bind_eq_some_iff] at done
    obtain ⟨last, _, rest⟩ := done
    split at rest
    · obtain rfl := Option.some.inj rest
      exact all_modify (s := s.touch e.cpu) all last _ fun a => lasting.given a .looprstart _ (.inr (.inl rfl))
    · simp only [Option.bind_eq_some_iff] at rest
      obtain ⟨⟨service, s₁⟩, popped, first, head, s₂, stored, eq⟩ := rest
      obtain rfl := Option.some.inj eq
      obtain ⟨below, _, rfl⟩ := pop_cases popped
      have pushed := all_push_new (s := s.touch e.cpu) all new
      have marked := all_modify (s := State.setCurrentStack _ e.cpu below) pushed first
        (fun f => { f with eventType := .loopstart }) fun a => lasting.given a .loopstart a.cycles (.inl rfl)
      have kept := all_of_heap marked (store_keeps stored).1
      have copy := lasting.given _ .looprstart e.cycles (.inr (.inl rfl)) (all_deref lasting kept first)
      exact all_of_heap (all_alloc kept copy) (open_service_heap _ e.cpu _ _)

theorem all_loopstop (lasting : Lasting P Q) (all : s.All P) (new : P e) (done : handleLOOPSTOP s e = some t) :
    t.All P := by
  unfold handleLOOPSTOP at done
  dsimp only at done
  split at done
  · exact Option.some.inj done ▸ all
  · rename_i service s₁ popped
    obtain ⟨below, _, rfl⟩ := pop_cases popped
    split at done
    · cases done
    · rename_i head _
      obtain ⟨s₂, stored, rfl⟩ := Option.map_eq_some_iff.mp done
      refine all_push_new ?_ new
      have copy := lasting.given _ .looprstart e.cycles (.inr (.inl rfl))
        (all_deref lasting (s := (s.touch e.cpu).setCurrentStack e.cpu below) all head)
      have made := all_alloc (s := (s.touch e.cpu).setCurrentStack e.cpu below) all copy
      unfold State.storeLoop at stored
      split at stored
      · refine all_of_heap (all_modify made head _ fun a => ?_) (store_keeps stored).1
        exact lasting.given a .loopstart a.cycles (.inl rfl)
      · exact Option.some.inj stored ▸ made

theorem name_of_head {c : Fin 2} {l : LEU} {elem : ServiceStackElement} (lasting : Lasting P Q) (all : s.All P)
    (shaped : Shaped s) (member : elem ∈ s.stackOf c l) : Q elem.name := by
  obtain ⟨h, tail, entries, head⟩ := shaped.frames c l elem member
  exact lasting.named _ _ (all_deref lasting all h) head

theorem all_sync {operation : Sync} (lasting : Lasting P Q) (all : s.All P) (shaped : Shaped s) (new : P e)
    (done : handleSync s e operation = some t) : t.All P := by
  unfold handleSync at done
  split at done
  · exact all_with_peu lasting all new done
  · rename_i v _
    obtain ⟨s₁, pushed, rfl⟩ := Option.map_eq_some_iff.mp done
    have touched := shaped_touch shaped e.cpu
    have noted : ((s.touch e.cpu).noteUser e.cpu v operation).All P := by
      unfold State.noteUser
      split
      · exact all
      · rename_i top rest stack
        have name : Q top.name := name_of_head (s := s.touch e.cpu) lasting all touched (c := e.cpu)
          (l := (s.touch e.cpu).currentLEU e.cpu) (by
            rw [State.currentStack] at stack
            rw [stack]
            exact List.mem_cons_self ..)
        exact all_modify (s := s.touch e.cpu) all v.entry _ fun a before => lasting.noted a _ before name
    have given := lasting.given e (.sync operation true) e.cycles (.inr (.inr (.inr (.inr ⟨operation, rfl⟩)))) new
    exact all_of_heap (all_with_peu lasting noted given pushed) rfl

theorem all_pktqueue (lasting : Lasting P Q) (all : s.All P) (new : P e) (done : handlePKTQUEUE s e = some t) :
    t.All P := by
  unfold handlePKTQUEUE at done
  obtain ⟨labelled, label, rfl⟩ := Option.map_eq_some_iff.mp done
  have parts : labelled.1.All P ∧ P { e with eventType := labelled.2 } := by
    unfold State.labelPacket at label
    split at label
    · split at label
      · cases label
      · split at label
        · obtain rfl := Option.some.inj label
          exact ⟨all_modify all _ _ fun a => lasting.given a .pktqueuen a.cycles (.inr (.inr (.inr (.inl rfl)))),
            lasting.given e .pktqueue e.cycles (.inr (.inr (.inl rfl))) new⟩
        · exact Option.some.inj label ▸ ⟨all, new⟩
    · exact Option.some.inj label ▸ ⟨all, new⟩
  exact all_push_new parts.1 (lasting.numbered _ _ parts.2)

/-- What lasts holds of all entries after an event if it held before and of the event. -/
theorem all_handle (lasting : Lasting P Q) (all : s.All P) (shaped : Shaped s) (new : P e)
    (done : handleEvent s e = some t) : t.All P := by
  have numbered : P { e with packetId := "0" } := lasting.numbered e 0 new
  unfold handleEvent at done
  have plain : ∀ {u}, s.pushPlain e = some u → u.All P := by
    intro u pushed
    obtain rfl := Option.some.inj pushed
    exact all_push_new all new
  split at done
  · obtain rfl := Option.some.inj done
    exact all_of_heap (all_alloc all new) (by simp [State.ensureLEU, State.setCurrentLEU])
  · rcases stack_of_migrate done with rfl | ⟨_, _, _, heap, _⟩
    · exact all
    · exact all_of_heap all heap
  · exact all_hirq_entry lasting all new done
  · exact all_hirq_exit lasting all new done
  · exact all_looprstart lasting all new done
  · obtain rfl := Option.some.inj done
    split
    · exact all
    · exact all_new_service (s := s.touch e.cpu) all new e.location
  · exact all_loopstop lasting all new done
  · exact all_with_peu lasting all new done
  · exact all_sync lasting all shaped new done
  · exact all_pktqueue lasting all new done
  · exact all_pktqueue lasting all new done
  · obtain rfl := Option.some.inj done
    exact all_new_service all numbered e.service
  · obtain ⟨⟨u, closed⟩, exited, rfl⟩ := Option.map_eq_some_iff.mp done
    exact all_of_heap (all_alloc all new) (srvexit_heap exited)
  · unfold handleSRVQUEUE at done
    split at done
    · obtain rfl := Option.some.inj done
      exact all_push_new all (lasting.queued e new)
    · obtain rfl := Option.some.inj done
      exact all_new_service all numbered e.service
  · unfold handleTEMPSYNCH at done
    obtain rfl := Option.some.inj done
    exact all_of_heap (all_push_new all (lasting.counted e s.tempVarId new)) rfl
  all_goals first
    | exact plain done
    | exact Option.some.inj done ▸ all

theorem all_line {r t : Run} {l : Line} (lasting : Lasting P Q) (all : r.state.All P) (shaped : Shaped r.state)
    (event : ∀ e, r.entryOf l = some e → P e) (done : r.line l = some t) : t.state.All P := by
  refine line_rule all done (fun _ _ _ _ all => all) all fun e s made all handled => ?_
  exact all_handle lasting all (shaped.congr rfl (fun _ _ => rfl) fun _ _ => rfl) (event e made) handled

theorem all_run {ls : List Line} {r t : Run} (lasting : Lasting P Q) (all : r.state.All P) (shaped : Shaped r.state)
    (events : ∀ l ∈ ls, ∀ r e, Run.entryOf r l = some e → P e)
    (nested : TransitionRuns.Guarded Run.line NestedLine r ls) (done : r.lines ls = some t) : t.state.All P := by
  induction ls generalizing r with
  | nil => exact Option.some.inj done ▸ all
  | cons l ls ih =>
    obtain ⟨u, first, rest⟩ := Option.bind_eq_some_iff.mp done
    have here := all_line lasting all shaped (events l (List.mem_cons_self ..) r) first
    exact ih here (shaped_line shaped nested.1 first)
      (fun other member => events other (List.mem_cons_of_mem l member)) (nested.2 u first) rest

end Heap
end Analyse
