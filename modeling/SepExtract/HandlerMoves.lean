import Mathlib.Logic.Relation
import SepExtract.AnalyseHeap

/- What a handler can do, said once: it is a sequence of small moves on the state and on the
   element it has in hand, popped from a stack and not yet stored. Where every loop starts
   again at home the moves stay on the CPU of the event, and only first entries of elements get
   labels of a loop. MIGRATE, which takes a stack from one CPU to another, is not among them. -/
namespace Analyse

/-- The state while an event is handled, with the element in hand, and whether the CPU has
    gone over to another LEU. -/
structure Desk where
  state : State
  hand : Option ServiceStackElement
  switched : Bool

def SwitchesTo (e : Entry) (s : State) (l : LEU) (aside : List LEU) : Prop :=
  (e.eventType = .ctxsw ∧ l = .thread e.pid2 ∧ aside = s.interrupted) ∨
  (e.eventType = .hirqentry ∧ l = .hardwareInterrupt e.pid1 ∧ aside = s.currentLEU e.cpu :: s.interrupted) ∨
  (e.eventType = .hirqexit ∧ s.interrupted = l :: aside)

inductive Move (home : Bool) (e : Entry) : Desk → Desk → Prop where
  | alloc (d : Desk) (a : Entry) : Move home e d { d with state := d.state.alloc a }
  | relabel (d : Desk) (r : Ref) (f : Entry → Entry) (before : home = true → (d.state.deref r).eventType.Opening)
      (after : ∀ x, (f x).eventType = .loopstart ∨ (f x).eventType = .looprstart)
      (kept : ∀ x, f x = { x with eventType := (f x).eventType, cycles := (f x).cycles }) :
      Move home e d { d with state := d.state.modify r f }
  | packet (d : Desk) (r : Ref) (type : e.eventType = .pktqueuen) (before : (d.state.deref r).eventType = .pktqueue) :
      Move home e d { d with state := d.state.modify r fun x => { x with eventType := .pktqueuen } }
  | fill (d : Desk) (r : Ref) (duration irq : Int) :
      Move home e d { d with state := d.state.modify r fun x => { x with peuDuration := duration, peuIRQ := irq } }
  | note (d : Desk) (v : TempVar) (operation : Sync) (type : e.eventType = .sync operation false) :
      Move home e d { d with state := d.state.noteUser e.cpu v operation }
  | touch (d : Desk) (c : Fin 2) (here : home = true → c = e.cpu) : Move home e d { d with state := d.state.touch c }
  | push (d : Desk) (c : Fin 2) (r : Ref) (here : home = true → c = e.cpu ∧ r.cpu = e.cpu) :
      Move home e d { d with state := d.state.pushEntry c r }
  | last (d : Desk) (r : Ref) : Move home e d { d with state := { d.state with lastAppended := some r } }
  | opens (d : Desk) (name : String) :
      Move home e d { d with state := d.state.setCurrentStack e.cpu (⟨name, [], []⟩ :: d.state.currentStack e.cpu) }
  | pop (d : Desk) (t : State) (elem : ServiceStackElement) (popped : d.state.pop e.cpu = some (elem, t)) :
      Move home e d { d with state := t, hand := some elem }
  | extend (d : Desk) (elem : ServiceStackElement) (r : Ref) (taken : d.hand = some elem) :
      Move home e d { d with hand := some { elem with entries := elem.entries ++ [r] } }
  | store (d : Desk) (t : State) (elem : ServiceStackElement) (taken : d.hand = some elem)
      (stored : d.state.pushServiceToLEU e.cpu elem = some t) : Move home e d { d with state := t, hand := none }
  | drop (d : Desk) : Move home e d { d with hand := none }
  | ensure (d : Desk) (l : LEU) : Move home e d { d with state := d.state.ensureLEU l }
  | switch (d : Desk) (l : LEU) (aside : List LEU) (first : d.switched = false)
      (change : SwitchesTo e d.state l aside) :
      Move home e d { d with state := { d.state.setCurrentLEU e.cpu l with interrupted := aside }, switched := true }
  | peu (d : Desk) (peu : OngoingPEU) : Move home e d { d with state := { d.state with currentPEU := peu } }
  | temps (d : Desk) (tempVars : String → Option TempVar) (id : Nat)
      (type : e.eventType = .tempsynch ∨ ∃ operation, e.eventType = .sync operation false) :
      Move home e d { d with state := { d.state with tempVars := tempVars, tempVarId := id } }

def Moves (home : Bool) (e : Entry) : Desk → Desk → Prop := Relation.ReflTransGen (Move home e)

variable {home : Bool}

theorem moves_keep {e : Entry} {P : Desk → Prop} (kept : ∀ a b, Move home e a b → P a → P b) {a b : Desk}
    (moves : Moves home e a b) (holds : P a) : P b := by
  induction moves with
  | refl => exact holds
  | tail _ last ih => exact kept _ _ last ih

section Compound
variable {e : Entry} {a : Desk} {s t : State} {hand : Option ServiceStackElement} {switched : Bool}

theorem moves_touch (s : State) (hand : Option ServiceStackElement) (switched : Bool) :
    Moves home e ⟨s, hand, switched⟩ ⟨s.touch e.cpu, hand, switched⟩ :=
  Relation.ReflTransGen.single (.touch _ e.cpu fun _ => rfl)

theorem moves_push (c : Fin 2) (r : Ref) (here : home = true → c = e.cpu ∧ r.cpu = e.cpu)
    (moves : Moves home e a ⟨s, hand, switched⟩) : Moves home e a ⟨s.pushService c r, hand, switched⟩ :=
  ((moves.tail (.touch _ c fun all => (here all).1)).tail (.push _ c r here)).tail (.last _ r)

theorem moves_push_new (x : Entry) (here : home = true → x.cpu = e.cpu) (moves : Moves home e a ⟨s, hand, switched⟩) :
    Moves home e a ⟨(s.alloc x).pushService x.cpu (s.next x.cpu), hand, switched⟩ :=
  moves_push _ _ (fun all => ⟨here all, here all⟩) (moves.tail (.alloc _ x))

theorem moves_open (x : Entry) (name : String) (here : home = true → x.cpu = e.cpu)
    (moves : Moves home e a ⟨s, hand, switched⟩) : Moves home e a ⟨s.openService e.cpu x name, hand, switched⟩ :=
  moves_push_new x here (moves.tail (.opens _ name))

theorem moves_new_service (x : Entry) (name : String) (moves : Moves home e a ⟨s, hand, switched⟩)
    (cpu : x.cpu = e.cpu) : Moves home e a ⟨s.pushNewService x name, hand, switched⟩ := by
  have touched : Moves home e a ⟨s.touch e.cpu, hand, switched⟩ := moves.trans (moves_touch ..)
  have registered : Moves home e a ⟨(s.touch e.cpu).registerCall x, hand, switched⟩ := by
    unfold State.registerCall
    split
    · exact touched
    · exact (touched.tail (.alloc _ x)).tail (.push _ _ _ fun _ => ⟨cpu, cpu⟩)
  unfold State.pushNewService
  dsimp only
  rw [cpu]
  split
  · exact moves_open x name (fun _ => cpu) touched
  · exact moves_open x name (fun _ => cpu) registered

theorem moves_append_last {c : Fin 2} (moves : Moves home e a ⟨s, hand, switched⟩)
    (done : s.appendLastToPEU c = some t) : Moves home e a ⟨t, hand, switched⟩ := by
  refine append_last_keeps (P := fun u => Moves home e a ⟨u, hand, switched⟩) ?_ ?_ moves done
  · intro u start duration irq before
    exact before.tail (.fill _ start duration irq)
  · intro u peu before
    exact before.tail (.peu _ peu)

theorem moves_with_peu (x : Entry) (moves : Moves home e a ⟨s, hand, switched⟩) (cpu : x.cpu = e.cpu)
    (done : s.pushWithPEU x = some t) : Moves home e a ⟨t, hand, switched⟩ := by
  exact moves_append_last (moves_push_new x (fun _ => cpu) moves) done

theorem moves_srvexit {r : Ref} {closed : Bool} (here : r.cpu = e.cpu) (moves : Moves home e a ⟨s, none, switched⟩)
    (done : handleSRVEXIT s e.cpu r = some (t, closed)) : Moves home e a ⟨t, none, switched⟩ := by
  unfold handleSRVEXIT at done
  dsimp only at done
  have pushed := moves_push e.cpu r (fun _ => ⟨rfl, here⟩) moves
  split at done
  · obtain ⟨rfl, _⟩ := Prod.mk.inj (Option.some.inj done)
    exact pushed
  · simp only [bind, Option.bind_eq_some_iff] at done
    obtain ⟨⟨elem, u⟩, popped, v, stored, eq⟩ := done
    obtain ⟨rfl, _⟩ := Prod.mk.inj (Option.some.inj eq)
    have taken := pushed.tail (.pop _ u elem popped)
    exact moves_push e.cpu r (fun _ => ⟨rfl, here⟩) ((taken.tail (.ensure _ _)).tail (.store _ v elem rfl stored))

end Compound

section Handlers
variable {e : Entry} {s t : State}

theorem moves_ctxsw (type : e.eventType = .ctxsw) (done : handleCTXSW s e = some t) :
    Moves home e ⟨s, none, false⟩ ⟨t, none, true⟩ := by
  obtain rfl := Option.some.inj done
  have before : Moves home e ⟨s, none, false⟩ ⟨(s.alloc e).pushService e.cpu (s.next e.cpu), none, false⟩ :=
    moves_push_new e (fun _ => rfl) .refl
  have switched := before.tail (.switch _ (.thread e.pid2) _ rfl (Or.inl ⟨type, rfl, rfl⟩))
  exact (moves_push _ _ (fun _ => ⟨rfl, rfl⟩) switched).tail (.ensure _ _)

theorem moves_hirq_entry (type : e.eventType = .hirqentry) (done : handleHIRQEntry s e = some t) :
    Moves home e ⟨s, none, false⟩ ⟨t, none, true⟩ := by
  unfold handleHIRQEntry at done
  refine moves_append_last (moves_new_service e _ ?_ rfl) done
  have before : Moves home e ⟨s, none, false⟩ ⟨(s.alloc e).pushService e.cpu (s.next e.cpu), none, false⟩ :=
    moves_push_new e (fun _ => rfl) .refl
  exact (before.tail (.switch _ _ _ rfl (Or.inr (Or.inl ⟨type, rfl, rfl⟩)))).tail (.ensure _ _)

theorem moves_hirq_exit (type : e.eventType = .hirqexit) (done : handleHIRQExit s e = some t) :
    ∃ switched, Moves home e ⟨s, none, false⟩ ⟨t, none, switched⟩ := by
  unfold handleHIRQExit at done
  simp only [bind, Option.bind_eq_some_iff] at done
  obtain ⟨⟨u, closed⟩, exited, rest⟩ := done
  have left : Moves home e ⟨s, none, false⟩ ⟨u, none, false⟩ :=
    moves_srvexit rfl (Relation.ReflTransGen.single (.alloc _ e)) exited
  dsimp only at rest
  split at rest
  · split at rest
    · cases rest
    · rename_i leu others aside
      refine ⟨true, moves_append_last (moves_push _ _ (fun _ => ⟨rfl, rfl⟩) ?_) rest⟩
      exact left.tail (.switch _ leu others rfl (Or.inr (Or.inr ⟨type, aside⟩)))
  · exact ⟨false, Option.some.inj rest ▸ left⟩

theorem moves_loopstart (done : handleLOOPSTART s e = some t) : Moves home e ⟨s, none, false⟩ ⟨t, none, false⟩ := by
  have touched : Moves home e ⟨s, none, false⟩ ⟨s.touch e.cpu, none, false⟩ := moves_touch ..
  unfold handleLOOPSTART at done
  dsimp only at done
  split at done
  · exact Option.some.inj done ▸ touched
  · exact Option.some.inj done ▸ moves_new_service e _ touched rfl

theorem moves_looprstart (type : e.eventType = .looprstart) (back : home = true → Sound true s ∧ RestartsHome s e)
    (done : handleLOOPRSTART s e = some t) : Moves home e ⟨s, none, false⟩ ⟨t, none, false⟩ := by
  have touched : Moves home e ⟨s, none, false⟩ ⟨s.touch e.cpu, none, false⟩ := moves_touch ..
  unfold handleLOOPRSTART at done
  dsimp only at done
  split at done
  · exact Option.some.inj done ▸ touched
  · rename_i top below full
    simp only [bind, Option.bind_eq_some_iff] at done
    obtain ⟨last, _, rest⟩ := done
    split at rest
    · rename_i start
      obtain rfl := Option.some.inj rest
      refine touched.tail (.relabel _ last _ (fun _ => ?_) (fun _ => Or.inr rfl) fun _ => rfl)
      rw [start]
      simp [EventType.Opening]
    · simp only [Option.bind_eq_some_iff] at rest
      obtain ⟨⟨service, u⟩, popped, first, head, v, stored, eq⟩ := rest
      obtain rfl := Option.some.inj eq
      obtain ⟨_, _, rfl⟩ := pop_cases popped
      have taken := (moves_push_new e (fun _ => rfl) touched).tail (.pop _ _ service popped)
      have labelled := taken.tail (.relabel _ first (fun f => { f with eventType := .loopstart })
        (fun all => ?_) (fun _ => Or.inl rfl) fun _ => rfl)
      · refine moves_open _ _ (fun all => ?_) (labelled.tail (.store _ v service rfl stored))
        exact restarted_cpu (back all).1 type (back all).2 full popped head stored
      · obtain ⟨_, _, heads⟩ := sound_pop (sound_push_new (sound_touch (back all).1 e.cpu) e) popped
        obtain ⟨h, tail, entries, opening⟩ := heads rfl
        obtain rfl : first = h := by simpa [entries] using head.symm
        exact opening

theorem moves_loopstop (done : handleLOOPSTOP s e = some t) : Moves home e ⟨s, none, false⟩ ⟨t, none, false⟩ := by
  have touched : Moves home e ⟨s, none, false⟩ ⟨s.touch e.cpu, none, false⟩ := moves_touch ..
  unfold handleLOOPSTOP at done
  dsimp only at done
  split at done
  · exact Option.some.inj done ▸ touched
  · rename_i service u popped
    split at done
    · cases done
    · rename_i head _
      obtain ⟨v, stored, rfl⟩ := Option.map_eq_some_iff.mp done
      refine moves_push_new e (fun _ => rfl) ?_
      let first : Entry := { u.deref head with eventType := .looprstart, cycles := e.cycles }
      have taken := ((touched.tail (.pop _ u service popped)).tail (.alloc _ first)).tail
        (.extend _ service (u.next first.cpu) rfl)
      unfold State.storeLoop at stored
      split at stored
      · rename_i restarted
        have labelled := taken.tail (.relabel _ head (fun f => { f with eventType := .loopstart })
          (fun _ => by rw [restarted]; simp [EventType.Opening]) (fun _ => Or.inl rfl) fun _ => rfl)
        exact labelled.tail (.store _ v _ rfl stored)
      · exact Option.some.inj stored ▸ taken.tail (.drop _)

theorem moves_sync {operation : Sync} (type : e.eventType = .sync operation false)
    (done : handleSync s e operation = some t) : Moves home e ⟨s, none, false⟩ ⟨t, none, false⟩ := by
  unfold handleSync at done
  split at done
  · exact moves_with_peu e .refl rfl done
  · rename_i v _
    obtain ⟨u, pushed, rfl⟩ := Option.map_eq_some_iff.mp done
    have noted : Moves home e ⟨s, none, false⟩ ⟨(s.touch e.cpu).noteUser e.cpu v operation, none, false⟩ :=
      (moves_touch ..).tail (.note _ v operation type)
    have labelled := moves_with_peu { e with eventType := .sync operation true } noted rfl pushed
    exact labelled.tail (.temps _ _ u.tempVarId (Or.inr ⟨operation, type⟩))

theorem moves_tempsynch (type : e.eventType = .tempsynch) (done : handleTEMPSYNCH s e = some t) :
    Moves home e ⟨s, none, false⟩ ⟨t, none, false⟩ := by
  obtain rfl := Option.some.inj done
  have pushed : Moves home e ⟨s, none, false⟩
      ⟨(s.alloc { e with tempVarId := s.tempVarId }).pushService e.cpu (s.next e.cpu), none, false⟩ :=
    moves_push_new { e with tempVarId := s.tempVarId } (fun _ => rfl) .refl
  exact pushed.tail (.temps _ _ _ (Or.inl type))

theorem moves_pktqueue (done : handlePKTQUEUE s e = some t) : Moves home e ⟨s, none, false⟩ ⟨t, none, false⟩ := by
  unfold handlePKTQUEUE at done
  obtain ⟨⟨u, label⟩, labelled, rfl⟩ := Option.map_eq_some_iff.mp done
  have relabelled : Moves home e ⟨s, none, false⟩ ⟨u, none, false⟩ := by
    unfold State.labelPacket at labelled
    split at labelled
    · next type =>
      split at labelled
      · cases labelled
      · next last _ =>
        split at labelled
        · next packet =>
          obtain ⟨rfl, _⟩ := Prod.mk.inj (Option.some.inj labelled)
          exact Relation.ReflTransGen.single (.packet _ last type packet)
        · obtain ⟨rfl, _⟩ := Prod.mk.inj (Option.some.inj labelled)
          exact .refl
    · obtain ⟨rfl, _⟩ := Prod.mk.inj (Option.some.inj labelled)
      exact .refl
  exact moves_push_new { e with eventType := label, packetId := toString (GoText.parseIntValue 16 e.packetId) }
    (fun _ => rfl) relabelled

theorem moves_srvqueue (done : handleSRVQUEUE s e = some t) : Moves home e ⟨s, none, false⟩ ⟨t, none, false⟩ := by
  unfold handleSRVQUEUE at done
  split at done
  · obtain rfl := Option.some.inj done
    exact moves_push_new { e with service := (softirqs e.service).getD e.service } (fun _ => rfl) .refl
  · obtain rfl := Option.some.inj done
    exact moves_new_service { e with packetId := "0" } e.service .refl rfl

/-- Every event but a migration is handled in moves. -/
theorem handle_moves (back : home = true → Sound true s ∧ RestartsHome s e) (stays : e.eventType ≠ .migrate)
    (done : handleEvent s e = some t) : ∃ switched, Moves home e ⟨s, none, false⟩ ⟨t, none, switched⟩ := by
  have plain : ∀ {u}, s.pushPlain e = some u → Moves home e ⟨s, none, false⟩ ⟨u, none, false⟩ := by
    intro u pushed
    obtain rfl := Option.some.inj pushed
    exact moves_push_new e (fun _ => rfl) .refl
  unfold handleEvent at done
  split at done
  · rename_i type
    exact ⟨true, moves_ctxsw type done⟩
  · rename_i type
    exact absurd type stays
  · rename_i type
    exact ⟨true, moves_hirq_entry type done⟩
  · rename_i type
    exact moves_hirq_exit type done
  · rename_i type
    exact ⟨false, moves_looprstart type back done⟩
  · exact ⟨false, moves_loopstart done⟩
  · exact ⟨false, moves_loopstop done⟩
  · exact ⟨false, moves_with_peu e .refl rfl done⟩
  · rename_i type
    exact ⟨false, moves_sync type done⟩
  · exact ⟨false, moves_pktqueue done⟩
  · exact ⟨false, moves_pktqueue done⟩
  · obtain rfl := Option.some.inj done
    exact ⟨false, moves_new_service { e with packetId := "0" } e.service .refl rfl⟩
  · obtain ⟨⟨u, closed⟩, exited, rfl⟩ := Option.map_eq_some_iff.mp done
    exact ⟨false, moves_srvexit rfl (Relation.ReflTransGen.single (.alloc _ e)) exited⟩
  · exact ⟨false, moves_srvqueue done⟩
  · rename_i type
    exact ⟨false, moves_tempsynch type done⟩
  all_goals first
    | exact ⟨false, plain done⟩
    | exact ⟨false, Option.some.inj done ▸ .refl⟩

end Handlers

structure Runs (e : Entry) (s : State) (d : Desk) : Prop where
  before : d.switched = false → d.state.currentLEU = s.currentLEU ∧ d.state.interrupted = s.interrupted
  after : d.switched = true → ∃ l, SwitchesTo e s l d.state.interrupted ∧
    d.state.currentLEU = Function.update s.currentLEU e.cpu l

theorem runs_keep {e : Entry} {s : State} {a b : Desk} (runs : Runs e s a) (switched : b.switched = a.switched)
    (leu : b.state.currentLEU = a.state.currentLEU) (aside : b.state.interrupted = a.state.interrupted) :
    Runs e s b := by
  constructor
  · rw [switched, leu, aside]
    exact runs.before
  · rw [switched, leu, aside]
    exact runs.after

theorem runs_move {e : Entry} {s : State} {a b : Desk} (move : Move home e a b) (runs : Runs e s a) : Runs e s b := by
  cases move with
  | switch l aside first change =>
    obtain ⟨leu, before⟩ := runs.before first
    refine ⟨by simp, fun _ => ⟨l, ?_, ?_⟩⟩
    · rcases change with ⟨type, here, none⟩ | ⟨type, here, one⟩ | ⟨type, back⟩
      · exact Or.inl ⟨type, here, none.trans before⟩
      · exact Or.inr (Or.inl ⟨type, here, by rw [one, leu, before]⟩)
      · exact Or.inr (Or.inr ⟨type, before ▸ back⟩)
    · simp [State.setCurrentLEU, leu]
  | pop t elem popped =>
    obtain ⟨rest, _, rfl⟩ := pop_cases popped
    exact runs_keep runs rfl rfl rfl
  | store t elem taken stored =>
    obtain ⟨_, leu, _, aside, _⟩ := store_keeps stored
    exact runs_keep runs rfl leu aside
  | note v operation =>
    refine runs_keep runs rfl ?_ ?_ <;> unfold State.noteUser <;> split <;> rfl
  | push c r => exact runs_keep runs rfl (by simp) (by simp)
  | alloc => exact runs_keep runs rfl rfl rfl
  | relabel => exact runs_keep runs rfl rfl rfl
  | packet => exact runs_keep runs rfl rfl rfl
  | fill => exact runs_keep runs rfl rfl rfl
  | touch => exact runs_keep runs rfl rfl rfl
  | last => exact runs_keep runs rfl rfl rfl
  | opens => exact runs_keep runs rfl rfl rfl
  | extend => exact runs_keep runs rfl rfl rfl
  | drop => exact runs_keep runs rfl rfl rfl
  | ensure => exact runs_keep runs rfl rfl rfl
  | peu => exact runs_keep runs rfl rfl rfl
  | temps => exact runs_keep runs rfl rfl rfl

theorem runs_start (e : Entry) (s : State) : Runs e s ⟨s, none, false⟩ := ⟨fun _ => ⟨rfl, rfl⟩, by simp⟩

structure Homed (s : State) : Prop where
  arenas : ∀ c, ∀ a ∈ s.heap c, a.cpu = c
  frames : ∀ c l, ∀ elem ∈ s.stackOf c l, ∀ r ∈ elem.entries, r.cpu = c

section Homes
variable {e : Entry} {s t : State}

theorem homed_initial : Homed State.initial where
  arenas _ _ member := by cases member
  frames _ _ _ member := by cases member

theorem Homed.congr (homed : Homed s) (heap : t.heap = s.heap) (frames : ∀ c l, t.stackOf c l = s.stackOf c l) :
    Homed t := by
  refine ⟨fun c a member => homed.arenas c a (heap ▸ member), fun c l elem member => ?_⟩
  rw [frames] at member
  exact homed.frames c l elem member

theorem homed_deref (homed : Homed s) (r : Ref) : (s.deref r).cpu = r.cpu := by
  unfold State.deref
  cases found : (s.heap r.cpu)[r.index]? with
  | none => rfl
  | some a => exact homed.arenas r.cpu a (List.mem_of_getElem? found)

theorem homed_restarts (homed : Homed s) (e : Entry) : RestartsHome s e := by
  intro _ top member r first
  rw [homed_deref homed]
  exact homed.frames e.cpu _ top (List.mem_of_mem_head? member) r (List.mem_of_mem_head? first)

theorem homed_modify (homed : Homed s) (r : Ref) (f : Entry → Entry) (kept : ∀ x, (f x).cpu = x.cpu) :
    Homed (s.modify r f) := by
  refine ⟨fun c a member => ?_, homed.frames⟩
  obtain ⟨b, old, rfl | rfl⟩ := mem_heap_modify member
  · exact homed.arenas c a old
  · rw [kept]
    exact homed.arenas c b old

theorem homed_set (homed : Homed s) (c : Fin 2) (stack : List ServiceStackElement)
    (own : ∀ elem ∈ stack, ∀ r ∈ elem.entries, r.cpu = c) : Homed (s.setCurrentStack c stack) := by
  refine ⟨homed.arenas, fun c' l elem member => ?_⟩
  rw [stack_of_set] at member
  split at member
  · rename_i here
    obtain ⟨rfl, _⟩ := here
    exact own elem member
  · exact homed.frames c' l elem member

theorem homed_alloc (homed : Homed s) (x : Entry) : Homed (s.alloc x) := by
  refine ⟨fun c y member => ?_, homed.frames⟩
  rcases mem_heap_alloc member with old | ⟨rfl, rfl⟩
  · exact homed.arenas c y old
  · rfl

theorem homed_push (homed : Homed s) {c : Fin 2} {r : Ref} (own : r.cpu = c) : Homed (s.pushEntry c r) := by
  refine ⟨by simpa using homed.arenas, fun c' l elem member => ?_⟩
  rw [stack_of_push_entry] at member
  split at member
  · rename_i current
    obtain ⟨rfl, rfl⟩ := current
    refine forall_append_top (homed.frames c' _) (fun top _ before x inside => ?_) elem member
    rcases List.mem_append.mp inside with old | new
    · exact before x old
    · exact List.mem_singleton.mp new ▸ own
  · exact homed.frames c' l elem member

theorem homed_move {a b : Desk} (move : Move true e a b) (homed : Homed a.state) : Homed b.state := by
  cases move with
  | alloc x => exact homed_alloc homed x
  | relabel r f before after kept => exact homed_modify homed r f fun x => by rw [kept x]
  | packet r => exact homed_modify homed r _ fun _ => rfl
  | fill r => exact homed_modify homed r _ fun _ => rfl
  | note v operation =>
    show Homed (a.state.noteUser e.cpu v operation)
    unfold State.noteUser
    split
    · exact homed
    · exact homed_modify homed v.entry _ fun _ => rfl
  | touch c => exact homed.congr rfl fun c' l => stack_of_touch a.state c' c l
  | push c r here =>
    obtain ⟨rfl, own⟩ := here rfl
    exact homed_push homed own
  | opens name =>
    refine homed_set homed e.cpu _ fun elem member r inside => ?_
    rcases List.mem_cons.mp member with rfl | below
    · cases inside
    · exact homed.frames e.cpu _ elem below r inside
  | pop t elem popped =>
    obtain ⟨rest, full, rfl⟩ := pop_cases popped
    refine homed_set homed e.cpu rest fun other member => ?_
    exact homed.frames e.cpu (a.state.currentLEU e.cpu) other (by rw [full]; exact List.mem_cons_of_mem elem member)
  | store t elem taken stored =>
    obtain ⟨heap, _, service, _⟩ := store_keeps stored
    exact homed.congr heap fun _ _ => by simp only [State.stackOf, service]
  | last => exact homed.congr rfl fun _ _ => rfl
  | extend => exact homed
  | drop => exact homed
  | ensure => exact homed.congr rfl fun _ _ => rfl
  | switch => exact homed.congr rfl fun _ _ => rfl
  | peu => exact homed.congr rfl fun _ _ => rfl
  | temps => exact homed.congr rfl fun _ _ => rfl

theorem homed_handle (sound : Sound true s) (homed : Homed s) (stays : e.eventType ≠ .migrate)
    (done : handleEvent s e = some t) : Homed t := by
  obtain ⟨switched, moves⟩ := handle_moves (fun _ => ⟨sound, homed_restarts homed e⟩) stays done
  exact moves_keep (P := fun d => Homed d.state) (fun _ _ => homed_move) moves homed

end Homes

end Analyse
