import SepExtract.HandlerMoves
import SepExtract.ServicePicture

/- Where the service stacks of the threads are held. MIGRATE moves the stack of a thread to the
   map of another CPU, and panics if that CPU has no map yet. Between the migrations a stack is
   made only for the LEU that runs, on the CPU where it runs. -/
namespace Analyse

def State.lookup (s : State) (c : Fin 2) (l : LEU) : Option (List ServiceStackElement) :=
  (s.serviceStack c).bind fun m => m l

def State.holderIn (order : List (Fin 2)) (s : State) (leu : LEU) (newCPU : Int) : Option (Fin 2) :=
  order.find? fun cpu => cpuOf newCPU ≠ some cpu ∧ (s.lookup cpu leu).isSome

def State.moveStack (s : State) (leu : LEU) (cpu target : Fin 2) (m : LEU → Option (List ServiceStackElement)) :
    State :=
  let moved := Function.update m leu (some (s.stackOf cpu leu))
  let left := (s.serviceStack cpu).map fun old => Function.update old leu none
  let maps := Function.update s.serviceStack target (some moved)
  { s with serviceStack := Function.update maps cpu left }

def handleMIGRATEIn (order : List (Fin 2)) (s : State) (e : Entry) : Option State :=
  match s.holderIn order (.thread e.pid1) e.pid2 with
  | none => some s
  | some cpu =>
    match cpuOf e.pid2 with
    | none => none
    | some target => (s.serviceStack target).map (s.moveStack (.thread e.pid1) cpu target)

structure Iterates (s : State) (order : List (Fin 2)) : Prop where
  nodup : order.Nodup
  cpus : ∀ c, c ∈ order ↔ (s.serviceStack c).isSome

structure Migrated (s t : State) (l : LEU) (c : Fin 2) : Prop where
  moved : ∀ d st, s.lookup d l = some st → t.lookup c l = some st
  left : ∀ d, d ≠ c → t.lookup d l = none
  others : ∀ d k, k ≠ l → t.lookup d k = s.lookup d k
  rest : t = { s with serviceStack := t.serviceStack }

section Migration
variable {s t : State} {e : Entry} {c d : Fin 2} {l : LEU} {order : List (Fin 2)}

theorem mapped_of_lookup (found : (s.lookup c l).isSome) : (s.serviceStack c).isSome := by
  unfold State.lookup at found
  cases mapped : s.serviceStack c with
  | none => simp [mapped] at found
  | some m => rfl

theorem all_cpus (d : Fin 2) : d ∈ [(0 : Fin 2), 1] := by
  have cpus : d = 0 ∨ d = 1 := by omega
  simpa using cpus

/-- At most one CPU can be found, so the order does not matter. -/
theorem holder_in_order (target : cpuOf e.pid2 = some c) (covers : ∀ d, (s.lookup d l).isSome → d ∈ order) :
    s.holderIn order l e.pid2 = some d ↔ d ≠ c ∧ (s.lookup d l).isSome := by
  unfold State.holderIn
  constructor
  · intro hit
    have test := List.find?_some hit
    simp only [target, ne_eq, Option.some.injEq, decide_eq_true_eq] at test
    exact ⟨fun same => test.1 same.symm, test.2⟩
  · rintro ⟨other, found⟩
    cases hit : order.find? fun cpu => cpuOf e.pid2 ≠ some cpu ∧ (s.lookup cpu l).isSome with
    | none =>
      have test := List.find?_eq_none.mp hit d (covers d found)
      simp [target, found, Ne.symm other] at test
    | some d' =>
      have test := List.find?_some hit
      simp only [target, ne_eq, Option.some.injEq, decide_eq_true_eq] at test
      have same : d' = d := by omega
      rw [same]

theorem no_holder_in_order (target : cpuOf e.pid2 = some c) (covers : ∀ d, (s.lookup d l).isSome → d ∈ order) :
    s.holderIn order l e.pid2 = none ↔ ∀ d, d ≠ c → s.lookup d l = none := by
  rw [Option.eq_none_iff_forall_not_mem]
  refine forall_congr' fun d => ?_
  rw [Option.mem_def, holder_in_order target covers]
  simp

theorem migrated_to {m : LEU → Option (List ServiceStackElement)} (other : d ≠ c)
    (mapped : s.serviceStack c = some m) (found : (s.lookup d l).isSome)
    (once : ∀ a b, (s.lookup a l).isSome → (s.lookup b l).isSome → a = b) :
    Migrated s (s.moveStack l d c m) l c := by
  obtain ⟨st, stack⟩ := Option.isSome_iff_exists.mp found
  have here : s.stackOf d l = st := by
    unfold State.lookup at stack
    simp [State.stackOf, stack]
  refine ⟨fun a st' also => ?_, fun a apart => ?_, fun a k different => ?_, rfl⟩
  · obtain rfl : a = d := once a d (by simp [also]) found
    obtain rfl : st = st' := Option.some.inj (stack.symm.trans also)
    simp [State.lookup, State.moveStack, Function.update_of_ne (Ne.symm other), here]
  · obtain rfl : a = d := by omega
    simp only [State.lookup, State.moveStack, Function.update_self]
    cases s.serviceStack a <;> simp
  · by_cases left : a = d
    · subst left
      simp only [State.lookup, State.moveStack, Function.update_self]
      cases s.serviceStack a <;> simp [different]
    · obtain rfl : a = c := by omega
      simp [State.lookup, State.moveStack, Function.update_of_ne left, mapped, different]

theorem migrated_of_done (target : cpuOf e.pid2 = some c)
    (covers : ∀ d, (s.lookup d (.thread e.pid1)).isSome → d ∈ order)
    (once : ∀ a b, (s.lookup a (.thread e.pid1)).isSome → (s.lookup b (.thread e.pid1)).isSome → a = b)
    (done : handleMIGRATEIn order s e = some t) : Migrated s t (.thread e.pid1) c := by
  unfold handleMIGRATEIn at done
  cases hit : s.holderIn order (.thread e.pid1) e.pid2 with
  | none =>
    have nobody := (no_holder_in_order target covers).mp hit
    rw [hit] at done
    obtain rfl := Option.some.inj done
    refine ⟨fun d st stack => ?_, nobody, fun _ _ _ => rfl, rfl⟩
    by_cases here : d = c
    · exact here ▸ stack
    · simp [nobody d here] at stack
  | some d =>
    obtain ⟨other, found⟩ := (holder_in_order target covers).mp hit
    simp only [hit, target] at done
    obtain ⟨m, mapped, rfl⟩ := Option.map_eq_some_iff.mp done
    exact migrated_to other mapped found once

theorem migrate_succeeds_iff (target : cpuOf e.pid2 = some c)
    (covers : ∀ d, (s.lookup d (.thread e.pid1)).isSome → d ∈ order) :
    (handleMIGRATEIn order s e).isSome ↔
      ((∃ d, d ≠ c ∧ (s.lookup d (.thread e.pid1)).isSome) → (s.serviceStack c).isSome) := by
  unfold handleMIGRATEIn
  cases hit : s.holderIn order (.thread e.pid1) e.pid2 with
  | none =>
    have nobody := (no_holder_in_order target covers).mp hit
    simp only [Option.isSome_some, true_iff]
    rintro ⟨d, other, found⟩
    simp [nobody d other] at found
  | some d =>
    have found := (holder_in_order target covers).mp hit
    simp only [target, Option.isSome_map]
    exact ⟨fun mapped _ => mapped, fun needed => needed ⟨d, found⟩⟩

theorem migrate_both (target : cpuOf e.pid2 = some c) : handleMIGRATE s e = handleMIGRATEIn [0, 1] s e := by
  have both : s.holder (.thread e.pid1) e.pid2 = s.holderIn [0, 1] (.thread e.pid1) e.pid2 := rfl
  unfold handleMIGRATEIn handleMIGRATE
  rw [← both]
  dsimp only
  cases s.holder (.thread e.pid1) e.pid2 with
  | none => rfl
  | some cpu =>
    rw [target]
    dsimp only
    cases s.serviceStack c <;> rfl

theorem migrate_in_order (target : cpuOf e.pid2 = some c)
    (covers : ∀ d, (s.lookup d (.thread e.pid1)).isSome → d ∈ order) :
    handleMIGRATEIn order s e = handleMIGRATE s e := by
  have holder : s.holderIn order (.thread e.pid1) e.pid2 = s.holderIn [0, 1] (.thread e.pid1) e.pid2 := by
    refine Option.ext fun d => ?_
    rw [holder_in_order target covers, holder_in_order target fun d _ => all_cpus d]
  rw [migrate_both target]
  unfold handleMIGRATEIn
  rw [holder]

end Migration

/-- Where each thread is at home: the CPU it was last switched in on or migrated to. -/
abbrev Homes := Int → Option (Fin 2)

def Homes.after (home : Homes) (e : Entry) : Homes :=
  match e.eventType with
  | .ctxsw => Function.update home e.pid2 (some e.cpu)
  | .migrate => Function.update home e.pid1 (cpuOf e.pid2)
  | _ => home

structure AtHome (home : Homes) (s : State) : Prop where
  stack : ∀ c p, (s.lookup c (.thread p)).isSome → home p = some c
  current : ∀ c p, s.currentLEU c = .thread p → home p = some c

/-- A thread is switched in only at home, an interrupt gives back a thread that is at home on
    its CPU, and a thread that runs is migrated only to where it runs. -/
structure Placed (home : Homes) (s : State) (e : Entry) : Prop where
  switched : e.eventType = .ctxsw → ∀ c ∈ home e.pid2, c = e.cpu
  resumed : e.eventType = .hirqexit → ∀ l ∈ s.interrupted.head?, l = .thread l.pid → home l.pid = some e.cpu
  moved : e.eventType = .migrate → ∃ target, cpuOf e.pid2 = some target ∧
    ∀ c, s.currentLEU c = .thread e.pid1 → c = target

instance (home : Homes) (s : State) (e : Entry) : Decidable (Placed home s e) :=
  decidable_of_iff ((e.eventType = .ctxsw → ∀ c ∈ home e.pid2, c = e.cpu) ∧
    (e.eventType = .hirqexit → ∀ l ∈ s.interrupted.head?, l = .thread l.pid → home l.pid = some e.cpu) ∧
    (e.eventType = .migrate → ∃ target, cpuOf e.pid2 = some target ∧
      ∀ c, s.currentLEU c = .thread e.pid1 → c = target))
    ⟨fun ⟨switched, resumed, moved⟩ => ⟨switched, resumed, moved⟩,
     fun ⟨switched, resumed, moved⟩ => ⟨switched, resumed, moved⟩⟩

structure Makes (e : Entry) (s : State) (d : Desk) : Prop where
  runs : Runs e s d
  stack : ∀ c l, (d.state.lookup c l).isSome →
    (s.lookup c l).isSome ∨ c = e.cpu ∧ (l = s.currentLEU e.cpu ∨ l = d.state.currentLEU e.cpu)

section Homes
variable {home : Homes} {s t : State} {e : Entry} {a b : Desk}

theorem makes_keep (makes : Makes e s a) (move : Move false e a b)
    (leu : b.state.currentLEU e.cpu = a.state.currentLEU e.cpu)
    (stack : ∀ c l, (b.state.lookup c l).isSome →
      (a.state.lookup c l).isSome ∨ c = e.cpu ∧ l = a.state.currentLEU e.cpu) : Makes e s b := by
  refine ⟨runs_move move makes.runs, fun c l found => ?_⟩
  rw [leu]
  rcases stack c l found with old | ⟨here, new⟩
  · exact makes.stack c l old
  · exact Or.inr ⟨here, Or.inr new⟩

theorem lookup_set {c d : Fin 2} {l : LEU} {stack : List ServiceStackElement}
    (found : ((s.setCurrentStack d stack).lookup c l).isSome) :
    (s.lookup c l).isSome ∨ c = d ∧ l = s.currentLEU d := by
  have keyed := keyed_set s c d l stack
  unfold State.keyed at keyed
  unfold State.lookup at found ⊢
  rw [keyed] at found
  simpa using found

theorem makes_move (move : Move false e a b) (makes : Makes e s a) : Makes e s b := by
  have same : ∀ c l, b.state.keyed c l = a.state.keyed c l → (b.state.lookup c l).isSome →
      (a.state.lookup c l).isSome ∨ c = e.cpu ∧ l = a.state.currentLEU e.cpu := by
    intro c l keyed found
    exact Or.inl (keyed.symm.trans found)
  have whole := move
  cases move with
  | switch l aside first change =>
    refine ⟨runs_move whole makes.runs, fun c k found => ?_⟩
    obtain ⟨leu, _⟩ := makes.runs.before first
    rcases makes.stack c k found with old | ⟨here, new | new⟩
    · exact Or.inl old
    · exact Or.inr ⟨here, Or.inl new⟩
    · exact Or.inr ⟨here, Or.inl (by rw [new, leu])⟩
  | opens name => exact makes_keep makes whole rfl fun c l => lookup_set
  | pop t elem popped =>
    obtain ⟨rest, _, rfl⟩ := pop_cases popped
    exact makes_keep makes whole rfl fun c l => lookup_set
  | store t elem taken stored =>
    obtain ⟨_, leu, stack, _⟩ := store_keeps stored
    exact makes_keep makes whole (by rw [leu]) fun c l => same c l (by simp only [State.keyed, stack])
  | note v operation =>
    refine makes_keep makes whole ?_ fun c l => same c l ?_ <;>
      · simp only [State.noteUser]
        split <;> rfl
  | push c r => exact makes_keep makes whole (by simp) fun c l => same c l (by simp)
  | touch => exact makes_keep makes whole rfl fun c l => same c l (by simp)
  | alloc => exact makes_keep makes whole rfl fun c l => same c l rfl
  | relabel => exact makes_keep makes whole rfl fun c l => same c l rfl
  | packet => exact makes_keep makes whole rfl fun c l => same c l rfl
  | fill => exact makes_keep makes whole rfl fun c l => same c l rfl
  | last => exact makes_keep makes whole rfl fun c l => same c l rfl
  | extend => exact makes_keep makes whole rfl fun c l => same c l rfl
  | drop => exact makes_keep makes whole rfl fun c l => same c l rfl
  | ensure => exact makes_keep makes whole rfl fun c l => same c l rfl
  | peu => exact makes_keep makes whole rfl fun c l => same c l rfl
  | temps => exact makes_keep makes whole rfl fun c l => same c l rfl

theorem home_migrate (atHome : AtHome home s) (placed : Placed home s e) (type : e.eventType = .migrate)
    (done : handleMIGRATE s e = some t) : AtHome (home.after e) t := by
  obtain ⟨target, known, runs⟩ := placed.moved type
  have once : ∀ a b, (s.lookup a (.thread e.pid1)).isSome → (s.lookup b (.thread e.pid1)).isSome → a = b := by
    intro a b first second
    exact Option.some.inj ((atHome.stack a _ first).symm.trans (atHome.stack b _ second))
  have migrated := migrated_of_done known (fun d _ => all_cpus d) once ((migrate_both known).symm.trans done)
  have new : home.after e = Function.update home e.pid1 (some target) := by simp [Homes.after, type, known]
  rw [new]
  constructor
  · intro c p found
    by_cases mover : p = e.pid1
    · subst mover
      have here : c = target := by
        by_contra apart
        simp [migrated.left c apart] at found
      simp [here]
    · rw [migrated.others c _ (by simpa using mover)] at found
      simpa [mover] using atHome.stack c p found
  · intro c p current
    rw [migrated.rest] at current
    by_cases mover : p = e.pid1
    · subst mover
      simp [runs c current]
    · simpa [mover] using atHome.current c p current

theorem home_kept (placed : Placed home s e) (type : e.eventType ≠ .migrate) {p : Int} {c : Fin 2}
    (before : home p = some c) : home.after e p = some c := by
  by_cases switch : e.eventType = .ctxsw
  · have new : home.after e = Function.update home e.pid2 (some e.cpu) := by simp [Homes.after, switch]
    rw [new]
    by_cases here : p = e.pid2
    · subst here
      simp [placed.switched switch c before]
    · simpa [here] using before
  · have same : home.after e = home := by
      unfold Homes.after
      split
      · rename_i hit
        exact absurd hit switch
      · rename_i hit
        exact absurd hit type
      · rfl
    rw [same]
    exact before

theorem home_switched (placed : Placed home s e) {l : LEU} {aside : List LEU} (change : SwitchesTo e s l aside)
    {p : Int} (thread : l = .thread p) : home.after e p = some e.cpu := by
  rcases change with ⟨type, here, _⟩ | ⟨_, here, _⟩ | ⟨type, back⟩
  · obtain rfl : e.pid2 = p := by simpa [here] using thread
    simp [Homes.after, type]
  · simp [here] at thread
  · have put : l ∈ s.interrupted.head? := by simp [back]
    subst thread
    exact home_kept placed (by simp [type]) (placed.resumed type _ put rfl)

theorem home_handle (atHome : AtHome home s) (placed : Placed home s e)
    (done : handleEvent s e = some t) : AtHome (home.after e) t := by
  by_cases type : e.eventType = .migrate
  · simp only [handleEvent, type] at done
    exact home_migrate atHome placed type done
  · obtain ⟨switched, moves⟩ : ∃ switched, Moves false e ⟨s, none, false⟩ ⟨t, none, switched⟩ :=
      handle_moves nofun type done
    have start : Makes e s ⟨s, none, false⟩ := ⟨runs_start e s, fun _ _ found => Or.inl found⟩
    have makes := moves_keep (fun _ _ => makes_move) moves start
    have current : ∀ c p, t.currentLEU c = .thread p → home.after e p = some c := by
      intro c p runs
      cases switched with
      | false =>
        rw [(makes.runs.before rfl).1] at runs
        exact home_kept placed type (atHome.current c p runs)
      | true =>
        obtain ⟨l, change, leu⟩ := makes.runs.after rfl
        dsimp only at leu
        rw [leu] at runs
        by_cases here : c = e.cpu
        · subst here
          exact home_switched placed change (by simpa using runs)
        · rw [Function.update_of_ne here] at runs
          exact home_kept placed type (atHome.current c p runs)
    refine ⟨fun c p found => ?_, current⟩
    rcases makes.stack c _ found with old | ⟨rfl, ran | runs⟩
    · exact home_kept placed type (atHome.stack c p old)
    · exact home_kept placed type (atHome.current _ p ran.symm)
    · exact current _ p runs.symm

end Homes

def homeStep (x : Run × Homes) (l : Line) : Option (Run × Homes) :=
  (x.1.line l).map fun t =>
    (t, if l = .eod ∧ x.1.returned = false then fun _ => none else ((x.1.entryOf l).map x.2.after).getD x.2)

def PlacedLine (x : Run × Homes) (l : Line) : Prop := ∀ e ∈ x.1.entryOf l, Placed x.2 x.1.state e

instance (x : Run × Homes) (l : Line) : Decidable (PlacedLine x l) := by
  unfold PlacedLine
  infer_instance

theorem home_line {x y : Run × Homes} {l : Line} (atHome : AtHome x.2 x.1.state) (placed : PlacedLine x l)
    (done : homeStep x l = some y) : AtHome y.2 y.1.state := by
  obtain ⟨t, stepped, rfl⟩ := Option.map_eq_some_iff.mp done
  rcases line_effect stepped with ⟨e, made, handled⟩ | ⟨_, eod, going, reset⟩ | ⟨none, other, addr, synch, same⟩
  · have event : ¬ (l = .eod ∧ x.1.returned = false) := by
      rintro ⟨rfl, _⟩
      cases made
    have here := placed e made
    simp only [event, if_false, made, Option.map_some, Option.getD_some]
    refine home_handle (s := x.1.state.measureLocation e.location) ⟨atHome.stack, atHome.current⟩ ?_ handled
    exact ⟨here.switched, here.resumed, here.moved⟩
  · simp only [eod, going, and_self, if_true, reset]
    exact ⟨by simp [Run.resetOnEOD, State.lookup], by simp [Run.resetOnEOD]⟩
  · simp only [other, if_false, none, Option.map_none, Option.getD_none, same]
    exact ⟨atHome.stack, atHome.current⟩

/-- MIGRATE moves the stack of the thread to the CPU, and nothing else, in whatever order the
    CPUs are met, exactly when there is no stack on another CPU or the CPU has a map. And in a
    run in which threads are switched in, resumed and migrated only at home, every thread's
    stack is held under at most one CPU. -/
theorem migration_moves_one_stack (order : List (Fin 2)) :
    (∀ (s : State) (e : Entry) (c : Fin 2), cpuOf e.pid2 = some c → Iterates s order →
      (∀ a b, (s.lookup a (.thread e.pid1)).isSome → (s.lookup b (.thread e.pid1)).isSome → a = b) →
      handleMIGRATEIn order s e = handleMIGRATE s e ∧
      ((∃ t, handleMIGRATEIn order s e = some t ∧ Migrated s t (.thread e.pid1) c) ↔
        ((∃ d, d ≠ c ∧ (s.lookup d (.thread e.pid1)).isSome) → (s.serviceStack c).isSome))) ∧
    ∀ (ls : List Line) (r : Run) (home : Homes),
      TransitionRuns.Guarded homeStep PlacedLine (.initial, fun _ => none) ls →
      TransitionRuns.run homeStep (.initial, fun _ => none) ls = some (r, home) →
      ∀ p a b, (r.state.lookup a (.thread p)).isSome → (r.state.lookup b (.thread p)).isSome → a = b := by
  constructor
  · intro s e c target iterates once
    have covers : ∀ d, (s.lookup d (.thread e.pid1)).isSome → d ∈ order :=
      fun d found => (iterates.cpus d).mpr (mapped_of_lookup found)
    refine ⟨migrate_in_order target covers, ?_⟩
    rw [← migrate_succeeds_iff target covers]
    constructor
    · rintro ⟨t, done, _⟩
      simp [done]
    · intro succeeds
      obtain ⟨t, done⟩ := Option.isSome_iff_exists.mp succeeds
      exact ⟨t, done, migrated_of_done target covers once done⟩
  · intro ls r home placed done p a b first second
    have start : AtHome (fun _ => none) Run.initial.state :=
      ⟨by simp [Run.initial, State.initial, State.lookup], by simp [Run.initial, State.initial]⟩
    have atHome := TransitionRuns.invariant_of_guarded (fun x : Run × Homes => AtHome x.2 x.1.state)
      (fun x l y inv guard stepped => home_line inv guard stepped) start placed done
    exact Option.some.inj ((atHome.stack a p first).symm.trans (atHome.stack b p second))

def pulledOver : List String :=
  ["CTXSW 0 1 1 1 2 0 0 a", "SRVENTRY 0 2 2 0 0 0 f a", "CTXSW 0 2 3 2 3 0 0 a", "CTXSW 1 1 1 1 4 0 0 a",
   "MIGRATE 1 4 2 2 1 0 0 0", "CTXSW 1 4 3 4 2 0 0 a", "SRVEXIT 1 2 4 0 0 0 f a"]

theorem migration_moves_one_stack_pulled : ∃ r home,
    TransitionRuns.run homeStep (.initial, fun _ => none) (pulledOver.map lexLine) = some (r, home) ∧
      (r.state.lookup 1 (.thread 2)).isSome ∧
      ∀ p a b, (r.state.lookup a (.thread p)).isSome → (r.state.lookup b (.thread p)).isSome → a = b := by
  have placed : TransitionRuns.Guarded homeStep PlacedLine (.initial, fun _ => none) (pulledOver.map lexLine) := by
    decide +kernel
  have moved : ∀ x ∈ TransitionRuns.run homeStep (.initial, fun _ => none) (pulledOver.map lexLine),
      (x.1.state.lookup 1 (.thread 2)).isSome := by decide +kernel
  obtain ⟨⟨r, home⟩, done⟩ := Option.isSome_iff_exists.mp (by decide +kernel :
    (TransitionRuns.run homeStep (.initial, fun _ => none) (pulledOver.map lexLine)).isSome)
  exact ⟨r, home, done, moved _ done, (migration_moves_one_stack [0, 1]).2 _ r home placed done⟩

def pushedAway : List String :=
  ["CTXSW 0 1 1 1 2 0 0 a", "SRVENTRY 0 2 2 0 0 0 f a", "CTXSW 0 2 3 2 3 0 0 a", "MIGRATE 0 3 4 2 1 0 0 0"]

theorem first_migration_panics : (∃ r, run pushedAway.dropLast = some r ∧ (r.traceState 0).limbo = false ∧
      (r.state.lookup 0 (.thread 2)).isSome ∧ r.state.lookup 1 (.thread 2) = none) ∧ run pushedAway = none := by
  have before : ∀ r ∈ run pushedAway.dropLast, (r.traceState 0).limbo = false ∧
      (r.state.lookup 0 (.thread 2)).isSome ∧ r.state.lookup 1 (.thread 2) = none := by decide +kernel
  obtain ⟨r, done⟩ := Option.isSome_iff_exists.mp (by decide +kernel : (run pushedAway.dropLast).isSome)
  have panics : (run pushedAway).isNone := by decide +kernel
  exact ⟨⟨r, done, before r done⟩, Option.isNone_iff_eq_none.mp panics⟩

end Analyse
