import SepExtract.AnalyseHeap

/- The parts of the analyser's state that belong to one CPU. An event of a CPU reads and
   writes the parts of that CPU only, except for the list of interrupted LEUs and the entry
   appended last, which the two CPUs share. -/
namespace Analyse

def Entry.unnumbered (e : Entry) : Entry := { e with lineNr := 0 }

def Entry.renumber (e : Entry) (n : Nat) : Entry := { e with lineNr := n }

variable {own : LEU → Fin 2} {c : Fin 2}

/-- Two states that agree on a CPU: its arena up to line numbers, its stacks, the LEUs that
    are its own and, of the shared list, those it has put aside. -/
structure Alike (own : LEU → Fin 2) (c : Fin 2) (m p : State) : Prop where
  heap : (m.heap c).map Entry.unnumbered = (p.heap c).map Entry.unnumbered
  cpus : ∀ e ∈ m.heap c, e.cpu = c ∧ e.eventType ≠ .peustart
  stack : m.serviceStack c = p.serviceStack c
  refs : ∀ l, ∀ elem ∈ m.stackOf c l, ∀ r ∈ elem.entries, r.cpu = c
  leu : m.currentLEU c = p.currentLEU c
  aside : m.interrupted.filter (fun l => decide (own l = c)) = p.interrupted
  leus : ∀ l, own l = c → m.leus l = p.leus l
  stored : ∀ l, own l = c → ∀ n, ∀ i ∈ m.instances l n, ∀ r ∈ i.entries, r.cpu = c
  last : ∀ r, r.cpu = c → m.lastAppended = some r → p.lastAppended = some r
  temps : (∀ v, m.tempVars v = none) ∧ ∀ v, p.tempVars v = none
  peu : m.currentPEU.start = none ∧ p.currentPEU.start = none

structure Elsewhere (own : LEU → Fin 2) (c : Fin 2) (m t : State) : Prop where
  heap : ∀ d, d ≠ c → t.heap d = m.heap d
  stack : ∀ d, d ≠ c → t.serviceStack d = m.serviceStack d
  leu : ∀ d, d ≠ c → t.currentLEU d = m.currentLEU d
  aside : ∀ d, d ≠ c →
    t.interrupted.filter (fun l => decide (own l = d)) = m.interrupted.filter fun l => decide (own l = d)
  leus : ∀ l, own l ≠ c → t.leus l = m.leus l
  last : t.lastAppended = m.lastAppended ∨ ∃ r : Ref, r.cpu = c ∧ t.lastAppended = some r
  temps : t.tempVars = m.tempVars
  peu : t.currentPEU = m.currentPEU

theorem Elsewhere.refl (m : State) : Elsewhere own c m m where
  heap _ _ := rfl
  stack _ _ := rfl
  leu _ _ := rfl
  aside _ _ := rfl
  leus _ _ := rfl
  last := Or.inl rfl
  temps := rfl
  peu := rfl

theorem Elsewhere.trans {m t u : State} (first : Elsewhere own c m t) (second : Elsewhere own c t u) :
    Elsewhere own c m u where
  heap d other := (second.heap d other).trans (first.heap d other)
  stack d other := (second.stack d other).trans (first.stack d other)
  leu d other := (second.leu d other).trans (first.leu d other)
  aside d other := (second.aside d other).trans (first.aside d other)
  leus l other := (second.leus l other).trans (first.leus l other)
  last := by
    rcases second.last with same | new
    · rw [same]
      exact first.last
    · exact Or.inr new
  temps := second.temps.trans first.temps
  peu := second.peu.trans first.peu

theorem alike_elsewhere {d : Fin 2} {m t p : State} (alike : Alike own d m p) (elsewhere : Elsewhere own c m t)
    (other : d ≠ c) : Alike own d t p where
  heap := by rw [elsewhere.heap d other]; exact alike.heap
  cpus := by rw [elsewhere.heap d other]; exact alike.cpus
  stack := by rw [elsewhere.stack d other]; exact alike.stack
  refs l := by
    have same : t.stackOf d l = m.stackOf d l := by simp only [State.stackOf, elsewhere.stack d other]
    rw [same]
    exact alike.refs l
  leu := by rw [elsewhere.leu d other]; exact alike.leu
  aside := by rw [elsewhere.aside d other]; exact alike.aside
  leus l mine := by rw [elsewhere.leus l (by rw [mine]; exact other)]; exact alike.leus l mine
  stored l mine n := by
    have same : t.instances l n = m.instances l n := by
      simp only [State.instances, elsewhere.leus l (by rw [mine]; exact other)]
    rw [same]
    exact alike.stored l mine n
  last r cpu appended := by
    rcases elsewhere.last with same | ⟨x, foreign, new⟩
    · exact alike.last r cpu (by rw [← same]; exact appended)
    · rw [new] at appended
      obtain rfl := Option.some.inj appended
      exact absurd (cpu.symm.trans foreign) other
  temps := ⟨fun v => by rw [elsewhere.temps]; exact alike.temps.1 v, alike.temps.2⟩
  peu := ⟨by rw [elsewhere.peu]; exact alike.peu.1, alike.peu.2⟩

structure Moved (own : LEU → Fin 2) (c : Fin 2) (m t u : State) : Prop where
  alike : Alike own c t u
  elsewhere : Elsewhere own c m t

theorem Moved.trans {m t u t' u' : State} (first : Moved own c m t u) (second : Moved own c t t' u') :
    Moved own c m t' u' := ⟨second.alike, first.elsewhere.trans second.elsewhere⟩

section Operations
variable {m p : State}

theorem alike_length (alike : Alike own c m p) : (m.heap c).length = (p.heap c).length := by
  simpa using congrArg List.length alike.heap

theorem alike_next (alike : Alike own c m p) : m.next c = p.next c := by
  simp [State.next, alike_length alike]

theorem alike_deref (alike : Alike own c m p) {r : Ref} (cpu : r.cpu = c) :
    (m.deref r).unnumbered = (p.deref r).unnumbered := by
  have same : (m.heap c)[r.index]?.map Entry.unnumbered = (p.heap c)[r.index]?.map Entry.unnumbered := by
    rw [← List.getElem?_map, ← List.getElem?_map, alike.heap]
  unfold State.deref
  rw [cpu]
  cases mine : (m.heap c)[r.index]? with
  | none =>
    rw [mine] at same
    rw [Option.map_eq_none_iff.mp same.symm]
  | some a =>
    rw [mine] at same
    obtain ⟨b, yours, equal⟩ := Option.map_eq_some_iff.mp same.symm
    rw [yours]
    exact equal.symm

theorem alike_type (alike : Alike own c m p) {r : Ref} (cpu : r.cpu = c) :
    (m.deref r).eventType = (p.deref r).eventType := by
  change (m.deref r).unnumbered.eventType = (p.deref r).unnumbered.eventType
  rw [alike_deref alike cpu]

theorem deref_cpu (alike : Alike own c m p) {r : Ref} (cpu : r.cpu = c) :
    (m.deref r).cpu = c ∧ (m.deref r).eventType ≠ .peustart := by
  unfold State.deref
  rw [cpu]
  cases here : (m.heap c)[r.index]? with
  | none => exact ⟨rfl, by simp [Entry.blank]⟩
  | some e => exact alike.cpus e (List.mem_of_getElem? here)

theorem alike_stack (alike : Alike own c m p) (l : LEU) : m.stackOf c l = p.stackOf c l := by
  simp only [State.stackOf, alike.stack]

theorem alike_current (alike : Alike own c m p) : m.currentStack c = p.currentStack c := by
  rw [State.currentStack, State.currentStack, alike_stack alike, alike.leu]

theorem moved_alloc (alike : Alike own c m p) {e : Entry} (n : Nat) (cpu : e.cpu = c)
    (type : e.eventType ≠ .peustart) : Moved own c m (m.alloc e) (p.alloc (e.renumber n)) := by
  have mine : (m.alloc e).heap c = m.heap c ++ [e] := by simp [State.alloc, cpu]
  have yours : (p.alloc (e.renumber n)).heap c = p.heap c ++ [e.renumber n] := by
    simp [State.alloc, Entry.renumber, cpu]
  constructor
  · exact
      { alike with
        heap := by
          rw [mine, yours, List.map_append, List.map_append, alike.heap]
          rfl
        cpus := by
          intro a member
          rw [mine] at member
          rcases List.mem_append.mp member with old | new
          · exact alike.cpus a old
          · rw [List.mem_singleton.mp new]
            exact ⟨cpu, type⟩ }
  · exact
      { Elsewhere.refl m with
        heap := fun d other => by simp [State.alloc, cpu, other] }

theorem moved_modify (alike : Alike own c m p) {r : Ref} (f : Entry → Entry) (cpu : r.cpu = c)
    (blind : ∀ e, (f e).unnumbered = (f e.unnumbered).unnumbered)
    (kept : ∀ e, e.cpu = c ∧ e.eventType ≠ .peustart → (f e).cpu = c ∧ (f e).eventType ≠ .peustart) :
    Moved own c m (m.modify r f) (p.modify r f) := by
  have mine : (m.modify r f).heap c = (m.heap c).modify r.index f := by simp [State.modify, cpu]
  have yours : (p.modify r f).heap c = (p.heap c).modify r.index f := by simp [State.modify, cpu]
  constructor
  · exact
      { alike with
        heap := by
          rw [mine, yours]
          refine List.ext_getElem? fun i => ?_
          have same : (m.heap c)[i]?.map Entry.unnumbered = (p.heap c)[i]?.map Entry.unnumbered := by
            rw [← List.getElem?_map, ← List.getElem?_map, alike.heap]
          simp only [List.getElem?_map, List.getElem?_modify, Option.map_eq_map, Option.map_map]
          cases mine : (m.heap c)[i]? with
          | none =>
            rw [mine] at same
            rw [Option.map_eq_none_iff.mp same.symm]
          | some a =>
            rw [mine] at same
            obtain ⟨b, yours, equal⟩ := Option.map_eq_some_iff.mp same.symm
            simp only [yours, Option.map_some, Function.comp]
            split
            · rw [blind a, ← equal, ← blind b]
            · rw [equal]
        cpus := by
          intro a member
          obtain ⟨b, old, rfl | rfl⟩ := mem_heap_modify member
          · exact alike.cpus a old
          · exact kept b (alike.cpus b old) }
  · exact
      { Elsewhere.refl m with
        heap := fun d other => by simp [State.modify, cpu, other] }

theorem moved_touch (alike : Alike own c m p) : Moved own c m (m.touch c) (p.touch c) := by
  constructor
  · exact
      { alike with
        stack := by simp [State.touch, alike.stack]
        refs := fun l => by rw [stack_of_touch]; exact alike.refs l }
  · exact
      { Elsewhere.refl m with
        stack := fun d other => by simp [State.touch, other] }

theorem moved_set (alike : Alike own c m p) {stack : List ServiceStackElement}
    (refs : ∀ elem ∈ stack, ∀ r ∈ elem.entries, r.cpu = c) :
    Moved own c m (m.setCurrentStack c stack) (p.setCurrentStack c stack) := by
  constructor
  · exact
      { alike with
        stack := by simp [State.setCurrentStack, alike.stack, alike.leu]
        refs := fun l => by
          rw [stack_of_set]
          split
          · exact refs
          · exact alike.refs l }
  · exact
      { Elsewhere.refl m with
        stack := fun d other => by simp [State.setCurrentStack, other] }

theorem moved_last (alike : Alike own c m p) {r : Ref} (cpu : r.cpu = c) :
    Moved own c m { m with lastAppended := some r } { p with lastAppended := some r } := by
  constructor
  · exact { alike with last := fun _ _ same => same }
  · exact { Elsewhere.refl m with last := Or.inr ⟨r, cpu, rfl⟩ }

theorem refs_top {top : ServiceStackElement} {rest : List ServiceStackElement} {r : Ref} (cpu : r.cpu = c)
    (refs : ∀ elem ∈ top :: rest, ∀ q ∈ elem.entries, q.cpu = c) :
    ∀ elem ∈ { top with entries := top.entries ++ [r] } :: rest, ∀ q ∈ elem.entries, q.cpu = c := by
  intro elem member q inside
  rcases List.mem_cons.mp member with rfl | member
  · rcases List.mem_append.mp inside with old | new
    · exact refs top (List.mem_cons_self ..) q old
    · rw [List.mem_singleton.mp new]
      exact cpu
  · exact refs elem (List.mem_cons_of_mem top member) q inside

theorem current_refs (alike : Alike own c m p) : ∀ elem ∈ m.currentStack c, ∀ r ∈ elem.entries, r.cpu = c :=
  alike.refs (m.currentLEU c)

theorem moved_push_entry (alike : Alike own c m p) {r : Ref} (cpu : r.cpu = c) :
    Moved own c m (m.pushEntry c r) (p.pushEntry c r) := by
  have refs := current_refs alike
  unfold State.pushEntry
  rw [← alike_current alike]
  split
  · exact ⟨alike, Elsewhere.refl m⟩
  · rename_i top rest full
    rw [full] at refs
    have moved := moved_set alike (refs_top cpu refs)
    exact moved.trans (moved_last moved.alike cpu)

theorem moved_push (alike : Alike own c m p) {r : Ref} (cpu : r.cpu = c) :
    Moved own c m (m.pushService c r) (p.pushService c r) := by
  have touched := moved_touch alike
  have pushed := moved_push_entry touched.alike cpu
  exact (touched.trans pushed).trans (moved_last pushed.alike cpu)

theorem moved_push_new (alike : Alike own c m p) {e : Entry} (n : Nat) (cpu : e.cpu = c)
    (type : e.eventType ≠ .peustart) :
    Moved own c m ((m.alloc e).pushService e.cpu (m.next e.cpu))
      ((p.alloc (e.renumber n)).pushService e.cpu (p.next e.cpu)) := by
  subst cpu
  have stored := moved_alloc alike n rfl type
  rw [← alike_next alike]
  exact stored.trans (moved_push stored.alike rfl)

theorem moved_register (alike : Alike own c m p) {e : Entry} (n : Nat) (cpu : e.cpu = c)
    (type : e.eventType ≠ .peustart) :
    Moved own c m (m.registerCall e) (p.registerCall (e.renumber n)) := by
  subst cpu
  unfold State.registerCall
  have same : (e.renumber n).location = e.location := rfl
  rw [same]
  split
  · exact ⟨alike, Elsewhere.refl m⟩
  · have stored := moved_alloc alike n rfl type
    have next : (e.renumber n).cpu = e.cpu := rfl
    rw [next, ← alike_next alike]
    exact stored.trans (moved_push_entry stored.alike rfl)

theorem moved_open (alike : Alike own c m p) {e : Entry} (n : Nat) (name : String) (cpu : e.cpu = c)
    (type : e.eventType ≠ .peustart) :
    Moved own c m (m.openService c e name) (p.openService c (e.renumber n) name) := by
  subst cpu
  unfold State.openService
  have refs := current_refs alike
  rw [← alike_current alike]
  have grown : ∀ elem ∈ (⟨name, [], []⟩ : ServiceStackElement) :: m.currentStack e.cpu,
      ∀ r ∈ elem.entries, r.cpu = e.cpu := by
    intro elem member r inside
    rcases List.mem_cons.mp member with rfl | member
    · cases inside
    · exact refs elem member r inside
  have opened := moved_set alike grown
  exact opened.trans (moved_push_new opened.alike n rfl type)

theorem moved_new_service (alike : Alike own c m p) {e : Entry} (n : Nat) (name : String) (cpu : e.cpu = c)
    (type : e.eventType ≠ .peustart) :
    Moved own c m (m.pushNewService e name) (p.pushNewService (e.renumber n) name) := by
  subst cpu
  have touched := moved_touch alike
  unfold State.pushNewService
  have cpu : (e.renumber n).cpu = e.cpu := rfl
  dsimp only
  rw [cpu, ← alike_current touched.alike]
  split
  · exact touched.trans (moved_open touched.alike n name rfl type)
  · have registered := moved_register touched.alike n rfl type
    exact (touched.trans registered).trans (moved_open registered.alike n name rfl type)

theorem moved_leu (alike : Alike own c m p) (l : LEU) :
    Moved own c m (m.setCurrentLEU c l) (p.setCurrentLEU c l) := by
  constructor
  · exact { alike with leu := by simp [State.setCurrentLEU] }
  · exact
      { Elsewhere.refl m with
        leu := fun d other => by simp [State.setCurrentLEU, other] }

theorem moved_ensure (alike : Alike own c m p) {l : LEU} (mine : own l = c) :
    Moved own c m (m.ensureLEU l) (p.ensureLEU l) := by
  constructor
  · exact
      { alike with
        leus := fun k owned => by
          by_cases here : k = l
          · simp [State.ensureLEU, here, alike.leus l mine]
          · simpa [State.ensureLEU, here] using alike.leus k owned
        stored := fun k owned n => by
          rw [instances_of_ensure]
          exact alike.stored k owned n }
  · exact
      { Elsewhere.refl m with
        leus := fun k foreign => by
          have apart : k ≠ l := by
            rintro rfl
            exact foreign mine
          simp [State.ensureLEU, apart] }

theorem moved_interrupt (alike : Alike own c m p) (mine : own (m.currentLEU c) = c) (nr : Int) :
    Moved own c m (m.interrupt c nr) (p.interrupt c nr) := by
  have switched := moved_leu alike (.hardwareInterrupt nr)
  constructor
  · exact
      { switched.alike with
        aside := by
          have aside := alike.aside
          simp [State.interrupt, mine, ← alike.leu, aside] }
  · exact
      { switched.elsewhere with
        aside := fun d other => by
          have foreign : own (m.currentLEU c) ≠ d := by rw [mine]; exact Ne.symm other
          simp [State.interrupt, foreign] }

theorem moved_resume (alike : Alike own c m p) {leu : LEU} {rest : List LEU} (aside : m.interrupted = leu :: rest)
    (mine : own leu = c) : ∃ rest', p.interrupted = leu :: rest' ∧
      Moved own c m (m.resume c leu rest) (p.resume c leu rest') := by
  have shared := alike.aside
  rw [aside, List.filter_cons_of_pos (by simp [mine])] at shared
  have switched := moved_leu alike leu
  refine ⟨_, shared.symm, ?_, ?_⟩
  · exact { switched.alike with aside := rfl }
  · exact
      { switched.elsewhere with
        aside := fun d other => by
          have foreign : own leu ≠ d := by rw [mine]; exact Ne.symm other
          simp [State.resume, aside, foreign] }

end Operations

inductive Both (own : LEU → Fin 2) (c : Fin 2) (m : State) : Option State → Option State → Prop where
  | none : Both own c m none none
  | some {t u : State} (moved : Moved own c m t u) (mine : own (t.currentLEU c) = c) :
      Both own c m (some t) (some u)

section Outcomes
variable {m p : State}

theorem Both.bind {x y : Option State} {f g : State → Option State} (first : Both own c m x y)
    (next : ∀ t u, Alike own c t u → own (t.currentLEU c) = c → Both own c t (f t) (g u)) :
    Both own c m (x.bind f) (y.bind g) := by
  cases first with
  | none => exact .none
  | @some t u moved mine =>
    have later := next t u moved.alike mine
    simp only [Option.bind_some]
    generalize f t = x at later
    generalize g u = y at later
    cases later with
    | none => exact .none
    | some moved' mine' => exact .some (moved.trans moved') mine'

theorem Both.map {x y : Option State} {f g : State → State} (first : Both own c m x y)
    (next : ∀ t u, Alike own c t u → Moved own c t (f t) (g u) ∧ (f t).currentLEU = t.currentLEU) :
    Both own c m (x.map f) (y.map g) := by
  cases first with
  | none => exact .none
  | @some t u moved mine =>
    obtain ⟨later, leu⟩ := next t u moved.alike
    exact .some (moved.trans later) (by rw [leu]; exact mine)

theorem Both.after {t u : State} {x y : Option State} (first : Moved own c m t u) (next : Both own c t x y) :
    Both own c m x y := by
  cases next with
  | none => exact .none
  | some moved mine => exact .some (first.trans moved) mine

theorem both_store (alike : Alike own c m p) {elem : ServiceStackElement} (mine : own (m.currentLEU c) = c)
    (refs : ∀ r ∈ elem.entries, r.cpu = c) :
    Both own c m (m.pushServiceToLEU c elem) (p.pushServiceToLEU c elem) := by
  have leus := alike.leus _ mine
  cases known : m.leus (m.currentLEU c) with
  | none =>
    have here : m.pushServiceToLEU c elem = none := by simp [State.pushServiceToLEU, known]
    have there : p.pushServiceToLEU c elem = none := by
      simp [State.pushServiceToLEU, ← alike.leu, ← leus, known]
    rw [here, there]
    exact .none
  | some map =>
    obtain ⟨t, here⟩ : ∃ t, m.pushServiceToLEU c elem = some t := by simp [State.pushServiceToLEU, known]
    obtain ⟨u, there⟩ : ∃ u, p.pushServiceToLEU c elem = some u := by
      simp [State.pushServiceToLEU, ← alike.leu, ← leus, known]
    obtain ⟨_, leu, _⟩ := store_keeps here
    rw [here, there]
    refine .some ⟨?_, ?_⟩ (by rw [leu]; exact mine)
    · have stored : ∀ l, own l = c → ∀ n, ∀ i ∈ t.instances l n, ∀ r ∈ i.entries, r.cpu = c := by
        intro l owned n i member
        rw [instances_of_store here] at member
        split at member
        · rcases List.mem_append.mp member with old | new
          · exact alike.stored l owned n i old
          · rw [List.mem_singleton.mp new]
            exact refs
        · exact alike.stored l owned n i member
      simp only [State.pushServiceToLEU, known, ← alike.leu, ← leus, Option.some.injEq] at here there
      subst here there
      exact
        { alike with
          leus := fun l owned => by
            by_cases current : l = m.currentLEU c
            · simp [current]
            · simpa [current] using alike.leus l owned
          stored := stored }
    · simp only [State.pushServiceToLEU, known, Option.some.injEq] at here
      subst here
      exact
        { Elsewhere.refl m with
          leus := fun l foreign => by
            have other : l ≠ m.currentLEU c := by
              rintro rfl
              exact foreign mine
            simp [other] }

theorem appended (alike : Alike own c m p) {r : Ref} (cpu : r.cpu = c) :
    m.appendToPEU r = some m ∧ p.appendToPEU r = some p := by
  have type := (deref_cpu alike cpu).2
  have type' : (p.deref r).eventType ≠ .peustart := alike_type alike cpu ▸ type
  constructor
  · simp [State.appendToPEU, type, alike.peu.1]
  · simp [State.appendToPEU, type', alike.peu.2]

theorem both_append_last (alike : Alike own c m p) (mine : own (m.currentLEU c) = c) :
    Both own c m (m.appendLastToPEU c) (p.appendLastToPEU c) := by
  have refs := current_refs alike
  unfold State.appendLastToPEU
  rw [← alike_current alike]
  cases stack : m.currentStack c with
  | nil => exact .some ⟨alike, Elsewhere.refl m⟩ mine
  | cons top rest =>
    rw [stack] at refs
    dsimp only
    cases last : top.entries.getLast? with
    | none => exact .none
    | some r =>
      obtain ⟨here, there⟩ := appended alike
        (refs top (List.mem_cons_self ..) r (List.mem_of_getLast? last))
      simp only [Option.bind_some, here, there]
      exact .some ⟨alike, Elsewhere.refl m⟩ mine

theorem moved_pop (alike : Alike own c m p) {top : ServiceStackElement} {rest : List ServiceStackElement}
    (stack : m.currentStack c = top :: rest) :
    m.pop c = some (top, m.setCurrentStack c rest) ∧ p.pop c = some (top, p.setCurrentStack c rest) ∧
      Moved own c m (m.setCurrentStack c rest) (p.setCurrentStack c rest) ∧ ∀ r ∈ top.entries, r.cpu = c := by
  have refs := current_refs alike
  rw [stack] at refs
  have stack' := (alike_current alike).symm.trans stack
  refine ⟨by simp [State.pop, stack], by simp [State.pop, stack'], ?_, refs top (List.mem_cons_self ..)⟩
  exact moved_set alike fun elem member => refs elem (List.mem_cons_of_mem top member)

theorem srvexit_full {s t : State} {r : Ref} {elem : ServiceStackElement} (full : s.currentStack c ≠ [])
    (popped : (s.pushService c r).pop c = some (elem, t)) :
    handleSRVEXIT s c r = (((t.ensureLEU (t.currentLEU c)).pushServiceToLEU c elem).map fun u =>
      u.pushService c r).map fun u => (u, true) := by
  simp only [handleSRVEXIT, List.isEmpty_iff, full, if_false, popped, bind, Option.bind_some]
  cases State.pushServiceToLEU _ c elem <;> rfl

theorem both_srvexit (alike : Alike own c m p) {r : Ref} (mine : own (m.currentLEU c) = c) (cpu : r.cpu = c) :
    (handleSRVEXIT m c r = some (m.pushService c r, false) ∧
      handleSRVEXIT p c r = some (p.pushService c r, false)) ∨
    ∃ x y, handleSRVEXIT m c r = x.map (fun s => (s, true)) ∧
      handleSRVEXIT p c r = y.map (fun s => (s, true)) ∧ Both own c m x y ∧
      ∀ t ∈ x, t.interrupted = m.interrupted := by
  have pushed := moved_push alike cpu
  have current := alike_current alike
  cases stack : m.currentStack c with
  | nil =>
    rw [stack] at current
    exact Or.inl ⟨by simp [handleSRVEXIT, stack], by simp [handleSRVEXIT, ← current]⟩
  | cons top rest =>
    rw [stack] at current
    have full : (m.pushService c r).currentStack c = { top with entries := top.entries ++ [r] } :: rest := by
      have current : m.stackOf c (m.currentLEU c) = top :: rest := stack
      simp [State.currentStack, stack_of_push_service, current, appendTop]
    obtain ⟨popped, popped', moved, refs⟩ := moved_pop pushed.alike full
    have here := srvexit_full (by simp [stack]) popped
    have there := srvexit_full (by simp [← current]) popped'
    rw [← moved.alike.leu] at there
    have same : own (((m.pushService c r).setCurrentStack c rest).currentLEU c) = c := by simpa using mine
    have known := moved_ensure moved.alike same
    have stored := both_store known.alike (by simpa [State.ensureLEU] using mine) refs
    have closed := (stored.map fun t u alike => ⟨moved_push alike cpu, by simp⟩).after
      ((pushed.trans moved).trans known)
    refine Or.inr ⟨_, _, here, there, closed, ?_⟩
    intro t member
    obtain ⟨u, done, rfl⟩ := Option.map_eq_some_iff.mp member
    rw [push_service_interrupted, (store_keeps done).2.2.2.1]
    simp [State.ensureLEU, State.setCurrentStack]

theorem current_push (s : State) (r : Ref) :
    (s.pushService c r).currentStack c = appendTop r (s.currentStack c) := by
  simp [State.currentStack, stack_of_push_service]

section Handlers
variable {e : Entry} {n : Nat}

theorem both_ctxsw (alike : Alike own c m p) (cpu : e.cpu = c) (type : e.eventType ≠ .peustart)
    (next : own (.thread e.pid2) = c) :
    Both own c m (handleCTXSW m e) (handleCTXSW p (e.renumber n)) := by
  subst cpu
  have out := moved_push_new alike n rfl type
  have switched := moved_leu out.alike (.thread e.pid2)
  have into := moved_push switched.alike (r := m.next e.cpu) rfl
  have known := moved_ensure into.alike next
  have there : handleCTXSW p (e.renumber n) =
      some (((((p.alloc (e.renumber n)).pushService e.cpu (p.next e.cpu)).setCurrentLEU e.cpu
        (.thread e.pid2)).pushService e.cpu (m.next e.cpu)).ensureLEU (.thread e.pid2)) := by
    rw [alike_next alike]
    rfl
  rw [there]
  exact .some (((out.trans switched).trans into).trans known)
    (by simp [State.ensureLEU, State.setCurrentLEU, next])

theorem both_new_service (alike : Alike own c m p) (name : String) (mine : own (m.currentLEU c) = c)
    (cpu : e.cpu = c) (type : e.eventType ≠ .peustart) :
    Both own c m (some (m.pushNewService e name)) (some (p.pushNewService (e.renumber n) name)) :=
  .some (moved_new_service alike n name cpu type) (by simpa using mine)

theorem both_push_new (alike : Alike own c m p) (mine : own (m.currentLEU c) = c)
    (cpu : e.cpu = c) (type : e.eventType ≠ .peustart) :
    Both own c m (m.pushPlain e) (p.pushPlain (e.renumber n)) :=
  .some (moved_push_new alike n cpu type) (by simpa using mine)

theorem both_with_peu (alike : Alike own c m p) (mine : own (m.currentLEU c) = c)
    (cpu : e.cpu = c) (type : e.eventType ≠ .peustart) :
    Both own c m (m.pushWithPEU e) (p.pushWithPEU (e.renumber n)) := by
  subst cpu
  have pushed := moved_push_new alike n rfl type
  exact (both_append_last pushed.alike (by simpa using mine)).after pushed

theorem both_hirq_entry (alike : Alike own c m p) (mine : own (m.currentLEU c) = c)
    (cpu : e.cpu = c) (type : e.eventType ≠ .peustart) (taken : own (.hardwareInterrupt e.pid1) = c) :
    Both own c m (handleHIRQEntry m e) (handleHIRQEntry p (e.renumber n)) := by
  subst cpu
  have pushed := moved_push_new alike n rfl type
  have aside := moved_interrupt pushed.alike (by simpa using mine) e.pid1
  have known := moved_ensure aside.alike taken
  have opened := moved_new_service known.alike n (irqService e.pid1) rfl type
  have last := both_append_last opened.alike
    (by simp [State.ensureLEU, State.interrupt, State.setCurrentLEU, taken])
  exact last.after (((pushed.trans aside).trans known).trans opened)

theorem both_exit (alike : Alike own c m p) (mine : own (m.currentLEU c) = c) (cpu : e.cpu = c)
    (type : e.eventType ≠ .peustart) :
    Both own c m ((handleSRVEXIT (m.alloc e) e.cpu (m.next e.cpu)).map Prod.fst)
      ((handleSRVEXIT (p.alloc (e.renumber n)) e.cpu (p.next e.cpu)).map Prod.fst) := by
  subst cpu
  have made := moved_alloc alike n rfl type
  rw [← alike_next alike]
  rcases both_srvexit made.alike (r := m.next e.cpu) mine rfl with ⟨here, there⟩ |
    ⟨x, y, here, there, both, _⟩
  · rw [here, there]
    exact .some (made.trans (moved_push made.alike rfl)) (by simpa using mine)
  · rw [here, there, Option.map_map, Option.map_map]
    simpa [Function.comp_def] using both.after made

theorem both_hirq_exit (alike : Alike own c m p) (mine : own (m.currentLEU c) = c)
    (cpu : e.cpu = c) (type : e.eventType ≠ .peustart) (back : ∀ l ∈ m.interrupted.head?, own l = c) :
    Both own c m (handleHIRQExit m e) (handleHIRQExit p (e.renumber n)) := by
  subst cpu
  have made := moved_alloc alike n rfl type
  have cpu : (e.renumber n).cpu = e.cpu := rfl
  simp only [handleHIRQExit, bind, cpu, ← alike_next alike]
  rcases both_srvexit made.alike (r := m.next e.cpu) mine rfl with ⟨here, there⟩ |
    ⟨x, y, here, there, both, kept⟩
  · simp only [here, there, Option.bind_some, Bool.false_eq_true, if_false]
    have pushed := moved_push made.alike (r := m.next e.cpu) rfl
    exact .some (made.trans pushed) (by simpa using mine)
  · simp only [here, there, Option.bind_map, Function.comp_def, if_true]
    cases both with
    | none => exact .none
    | @some t u moved mine =>
      simp only [Option.bind_some]
      have same : t.interrupted = m.interrupted := kept t rfl
      cases aside : t.interrupted with
      | nil =>
        have none : u.interrupted = [] := by rw [← moved.alike.aside, aside]; rfl
        rw [none]
        exact .none
      | cons leu rest =>
        have owned : own leu = e.cpu := back leu (by rw [← same, aside]; rfl)
        obtain ⟨rest', aside', resumed⟩ := moved_resume moved.alike aside owned
        have pushed := moved_push resumed.alike (r := m.next e.cpu) rfl
        rw [aside']
        exact (both_append_last pushed.alike (by simp [State.resume, State.setCurrentLEU, owned])).after
          (((made.trans moved).trans resumed).trans pushed)

theorem both_loopstart (alike : Alike own c m p) (mine : own (m.currentLEU c) = c)
    (cpu : e.cpu = c) (type : e.eventType ≠ .peustart) :
    Both own c m (handleLOOPSTART m e) (handleLOOPSTART p (e.renumber n)) := by
  subst cpu
  have touched := moved_touch alike
  have current := alike_current touched.alike
  have there : handleLOOPSTART p (e.renumber n) = some (if ((p.touch e.cpu).currentStack e.cpu).isEmpty
      then p.touch e.cpu else (p.touch e.cpu).pushNewService (e.renumber n) e.location) := rfl
  rw [there, ← current]
  unfold handleLOOPSTART
  dsimp only
  split
  · exact .some touched mine
  · exact (both_new_service touched.alike e.location mine rfl type).after touched

theorem both_srvqueue (alike : Alike own c m p) (mine : own (m.currentLEU c) = c)
    (cpu : e.cpu = c) (type : e.eventType ≠ .peustart) :
    Both own c m (handleSRVQUEUE m e) (handleSRVQUEUE p (e.renumber n)) := by
  subst cpu
  have there : handleSRVQUEUE p (e.renumber n) =
      if e.pid1 = ENQUEUE then
        p.pushPlain (({ e with service := (softirqs e.service).getD e.service } : Entry).renumber n)
      else some (p.pushNewService (({ e with packetId := "0" } : Entry).renumber n) e.service) := rfl
  rw [there]
  unfold handleSRVQUEUE
  split
  · exact both_push_new alike mine rfl type
  · exact both_new_service alike e.service mine rfl type

theorem both_sync (alike : Alike own c m p) (mine : own (m.currentLEU c) = c)
    (cpu : e.cpu = c) (type : e.eventType ≠ .peustart) (operation : Sync) :
    Both own c m (handleSync m e operation) (handleSync p (e.renumber n) operation) := by
  have here : m.tempVars e.service = none := alike.temps.1 _
  have there : p.tempVars (e.renumber n).service = none := alike.temps.2 _
  simp only [handleSync, here, there]
  exact both_with_peu alike mine cpu type

theorem alike_renumber (alike : Alike own c m p) {r : Ref} (cpu : r.cpu = c) :
    p.deref r = (m.deref r).renumber (p.deref r).lineNr := by
  have same := alike_deref alike cpu
  calc p.deref r = (p.deref r).unnumbered.renumber (p.deref r).lineNr := rfl
    _ = (m.deref r).renumber (p.deref r).lineNr := by rw [← same]; rfl

theorem both_looprstart (alike : Alike own c m p) (mine : own (m.currentLEU c) = c)
    (cpu : e.cpu = c) (type : e.eventType ≠ .peustart) :
    Both own c m (handleLOOPRSTART m e) (handleLOOPRSTART p (e.renumber n)) := by
  subst cpu
  have touched := moved_touch alike
  have refs := current_refs touched.alike
  have current := alike_current touched.alike
  have cpu : (e.renumber n).cpu = e.cpu := rfl
  have cycles : (e.renumber n).cycles = e.cycles := rfl
  unfold handleLOOPRSTART
  simp only [cpu, cycles, ← current]
  cases stack : (m.touch e.cpu).currentStack e.cpu with
  | nil => exact .some touched mine
  | cons top rest =>
    rw [stack] at refs
    simp only [bind]
    cases last : top.entries.getLast? with
    | none => exact .none
    | some r =>
      have own_last : r.cpu = e.cpu := refs top (List.mem_cons_self ..) r (List.mem_of_getLast? last)
      simp only [Option.bind_some, ← alike_type touched.alike own_last]
      split
      · exact .some (touched.trans (moved_modify touched.alike _ own_last (fun _ => rfl)
          fun a before => ⟨before.1, by simp⟩)) mine
      · have pushed := moved_push_new touched.alike n rfl type
        have full : (((m.touch e.cpu).alloc e).pushService e.cpu ((m.touch e.cpu).next e.cpu)).currentStack e.cpu =
            { top with entries := top.entries ++ [(m.touch e.cpu).next e.cpu] } :: rest := by
          rw [current_push]
          exact congrArg (appendTop _) stack
        obtain ⟨popped, popped', moved, inside⟩ := moved_pop pushed.alike full
        simp only [popped, popped', Option.bind_some]
        cases head : (top.entries ++ [(m.touch e.cpu).next e.cpu]).head? with
        | none => exact .none
        | some first =>
          have own_first : first.cpu = e.cpu := inside first (List.mem_of_mem_head? head)
          have marked := moved_modify moved.alike (fun f => { f with eventType := .loopstart }) own_first
            (fun _ => rfl) fun a before => ⟨before.1, by simp⟩
          have stored := both_store marked.alike (by simpa [State.modify, State.touch] using mine) inside
          refine (stored.bind fun t u alike mine => ?_).after (((touched.trans pushed).trans moved).trans marked)
          rw [alike_renumber alike own_first]
          have again : ({ t.deref first with cycles := e.cycles, eventType := .looprstart } : Entry).cpu = e.cpu :=
            (deref_cpu alike own_first).1
          exact .some (moved_open alike _ top.name again (by simp)) (by simpa using mine)

theorem both_store_loop (alike : Alike own c m p) (service : ServiceStackElement) {head : Ref}
    (mine : own (m.currentLEU c) = c) (refs : ∀ r ∈ service.entries, r.cpu = c) (cpu : head.cpu = c) :
    Both own c m (m.storeLoop c service head) (p.storeLoop c service head) := by
  unfold State.storeLoop
  rw [← alike_type alike cpu]
  split
  · have marked := moved_modify alike (fun f => { f with eventType := .loopstart }) cpu (fun _ => rfl)
      fun a before => ⟨before.1, by simp⟩
    exact (both_store marked.alike mine refs).after marked
  · exact .some ⟨alike, Elsewhere.refl m⟩ mine

theorem both_loopstop (alike : Alike own c m p) (mine : own (m.currentLEU c) = c)
    (cpu : e.cpu = c) (type : e.eventType ≠ .peustart) :
    Both own c m (handleLOOPSTOP m e) (handleLOOPSTOP p (e.renumber n)) := by
  subst cpu
  have touched := moved_touch alike
  have current := alike_current touched.alike
  have cpu : (e.renumber n).cpu = e.cpu := rfl
  have cycles : (e.renumber n).cycles = e.cycles := rfl
  unfold handleLOOPSTOP
  simp only [cpu, cycles]
  cases stack : (m.touch e.cpu).currentStack e.cpu with
  | nil =>
    rw [stack] at current
    simp only [State.pop, stack, ← current]
    exact .some touched mine
  | cons top rest =>
    obtain ⟨popped, popped', moved, refs⟩ := moved_pop touched.alike stack
    simp only [popped, popped']
    cases head : top.entries.head? with
    | none => exact .none
    | some first =>
      have own_first : first.cpu = e.cpu := refs first (List.mem_of_mem_head? head)
      refine Both.after (touched.trans moved) ?_
      have mine : own (((m.touch e.cpu).setCurrentStack e.cpu rest).currentLEU e.cpu) = e.cpu := mine
      have alike := moved.alike
      generalize (m.touch e.cpu).setCurrentStack e.cpu rest = t at alike mine ⊢
      generalize (p.touch e.cpu).setCurrentStack e.cpu rest = u at alike ⊢
      have again := (deref_cpu alike own_first).1
      obtain ⟨k, same⟩ : ∃ k, u.deref first = (t.deref first).renumber k := ⟨_, alike_renumber alike own_first⟩
      simp only [same]
      generalize t.deref first = copy at again ⊢
      have next : t.next copy.cpu = u.next (copy.renumber k).cpu := by
        rw [again, alike_next alike]
        exact congrArg u.next again.symm
      rw [← next]
      have made := moved_alloc alike (e := { copy with eventType := .looprstart, cycles := e.cycles }) k again
        (by simp)
      have inside : ∀ r ∈ top.entries ++ [t.next copy.cpu], r.cpu = e.cpu := by
        intro r member
        rcases List.mem_append.mp member with old | new
        · exact refs r old
        · rw [List.mem_singleton.mp new]
          exact again
      have stored := both_store_loop made.alike { top with entries := top.entries ++ [t.next copy.cpu] }
        mine inside own_first
      exact (stored.map fun t u alike => ⟨moved_push_new alike n rfl type, by simp⟩).after made

theorem both_pktqueue (alike : Alike own c m p) (mine : own (m.currentLEU c) = c)
    (cpu : e.cpu = c) (type : e.eventType ≠ .peustart)
    (latest : e.eventType = .pktqueuen → m.lastAppended.map Ref.cpu = some c) :
    Both own c m (handlePKTQUEUE m e) (handlePKTQUEUE p (e.renumber n)) := by
  subst cpu
  have pushes : ∀ t u a, Alike own e.cpu t u → own (t.currentLEU e.cpu) = e.cpu → a ≠ .peustart →
      Both own e.cpu t
        (t.pushPlain { e with eventType := a, packetId := toString (GoText.parseIntValue 16 e.packetId) })
        (u.pushPlain (({ e with
          eventType := a, packetId := toString (GoText.parseIntValue 16 e.packetId) } : Entry).renumber n)) :=
    fun t u a alike mine other => both_push_new alike mine rfl other
  unfold handlePKTQUEUE State.labelPacket
  have same : (e.renumber n).eventType = e.eventType := rfl
  rw [same]
  by_cases further : e.eventType = .pktqueuen
  · obtain ⟨r, last, cpu⟩ := Option.map_eq_some_iff.mp (latest further)
    simp only [further, if_true, last, alike.last r cpu last, ← alike_type alike cpu]
    split
    · have marked := moved_modify alike (fun l => { l with eventType := .pktqueuen }) cpu (fun _ => rfl)
        fun a before => ⟨before.1, by simp⟩
      exact (pushes _ _ .pktqueue marked.alike mine (by simp)).after marked
    · exact pushes m p .pktqueuen alike mine (by simp)
  · simp only [further, if_false]
    exact pushes m p e.eventType alike mine type

/-- The event is about LEUs of its own CPU, and not one of those that reach further. -/
structure Stays (own : LEU → Fin 2) (e : Entry) : Prop where
  local_type : e.eventType ≠ .migrate ∧ e.eventType ≠ .tempsynch ∧ e.eventType ≠ .peustart
  next : e.eventType = .ctxsw → own (.thread e.pid2) = e.cpu
  taken : e.eventType = .hirqentry → own (.hardwareInterrupt e.pid1) = e.cpu

structure ReadsOwn (own : LEU → Fin 2) (s : State) (e : Entry) : Prop where
  back : e.eventType = .hirqexit → ∀ l ∈ s.interrupted.head?, own l = e.cpu
  latest : e.eventType = .pktqueuen → s.lastAppended.map Ref.cpu = some e.cpu

instance (own : LEU → Fin 2) (s : State) (e : Entry) : Decidable (ReadsOwn own s e) :=
  decidable_of_iff ((e.eventType = .hirqexit → ∀ l ∈ s.interrupted.head?, own l = e.cpu) ∧
    (e.eventType = .pktqueuen → s.lastAppended.map Ref.cpu = some e.cpu))
    ⟨fun ⟨back, latest⟩ => ⟨back, latest⟩, fun ⟨back, latest⟩ => ⟨back, latest⟩⟩

/-- An event that reads only its own part of the shared state does the same in two states
    that agree on its CPU, and the other CPU does not see it. -/
theorem both_handle (alike : Alike own e.cpu m p) (stays : Stays own e) (reads : ReadsOwn own m e)
    (mine : e.eventType ≠ .ctxsw → own (m.currentLEU e.cpu) = e.cpu) :
    Both own e.cpu m (handleEvent m e) (handleEvent p (e.renumber n)) := by
  obtain ⟨⟨unmoved, untemporary, type⟩, next, taken⟩ := stays
  have same : (e.renumber n).eventType = e.eventType := rfl
  unfold handleEvent
  rw [same]
  cases kind : e.eventType with
  | ctxsw => exact both_ctxsw alike rfl type (next kind)
  | migrate => exact absurd kind unmoved
  | tempsynch => exact absurd kind untemporary
  | peustart => exact absurd kind type
  | hirqentry => exact both_hirq_entry alike (mine (by simp [kind])) rfl type (taken kind)
  | hirqexit => exact both_hirq_exit alike (mine (by simp [kind])) rfl type (reads.back kind)
  | looprstart => exact both_looprstart alike (mine (by simp [kind])) rfl type
  | loopstart => exact both_loopstart alike (mine (by simp [kind])) rfl type
  | loopstop => exact both_loopstop alike (mine (by simp [kind])) rfl type
  | srventry => exact both_new_service alike e.service (mine (by simp [kind])) rfl type
  | srvqueue => exact both_srvqueue alike (mine (by simp [kind])) rfl type
  | pktqueue => exact both_pktqueue alike (mine (by simp [kind])) rfl type reads.latest
  | pktqueuen => exact both_pktqueue alike (mine (by simp [kind])) rfl type reads.latest
  | sync operation temporary =>
    cases temporary with
    | false => exact both_sync alike (mine (by simp [kind])) rfl type operation
    | true => exact .some ⟨alike, Elsewhere.refl m⟩ (mine (by simp [kind]))
  | srvexit => exact both_exit alike (mine (by simp [kind])) rfl type
  | queuecond | statecond | statequeue | sleep | ttwakeup | wakeup =>
    exact both_push_new alike (mine (by simp [kind])) rfl type
  | pktextr | pktextrn | threadcond | other _ =>
    exact .some ⟨alike, Elsewhere.refl m⟩ (mine (by simp [kind]))

end Handlers

end Outcomes

end Analyse
