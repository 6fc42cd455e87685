import SepExtract.AnalysePeu

/- The analysis of a text from two starting points: from nothing, and from what an earlier
   text has left behind. What is left are entries in the heap, stored instances, LEUs put
   aside for interrupts, a count of temporary variables and clocks that have moved on. None
   of it is read: a handler that works from nothing works from there and does the same. The
   entries of a loop take over cycles from other lines, so the loops of the later text have to
   be started again and stopped on the CPU where they have begun. -/
namespace Analyse

/-- What an earlier text leaves, and how far its clocks and its lines have come. -/
structure Prior where
  heap : Fin 2 → List Entry
  interrupted : List LEU
  stored : LEU → String → List LEUentry
  ids : Nat
  base : Fin 2 → Int
  lines : Nat

namespace Prior
variable (π : Prior)

def deref (r : Ref) : Entry := ((π.heap r.cpu)[r.index]?).getD (.blank r.cpu)

def ref (r : Ref) : Ref := ⟨r.cpu, (π.heap r.cpu).length + r.index⟩

def elem (x : ServiceStackElement) : ServiceStackElement := { x with entries := x.entries.map π.ref }

def frames (f : LEU → Option (List ServiceStackElement)) : LEU → Option (List ServiceStackElement) :=
  fun l => (f l).map (List.map π.elem)

def case (i : LEUentry) : LEUentry := { i with entries := i.entries.map π.ref }

def var (v : TempVar) : TempVar := ⟨π.ref v.entry, v.value⟩

def peu (x : OngoingPEU) : OngoingPEU := ⟨x.start.map π.ref, x.entries.map π.ref⟩

def entry (e : Entry) : Entry :=
  { e with
    cycles := e.cycles + π.base e.cpu
    lineNr := π.lines + e.lineNr
    tempVarId := if e.eventType = .tempsynch then π.ids + e.tempVarId else e.tempVarId }

def read (e : Entry) : Entry := { e with cycles := e.cycles + π.base e.cpu, lineNr := π.lines + e.lineNr }

end Prior

variable {π : Prior} {p m : State}

structure Later (π : Prior) (p m : State) : Prop where
  sized : ∀ c, (m.heap c).length = (π.heap c).length + (p.heap c).length
  kept : ∀ r, r.index < (π.heap r.cpu).length → m.deref r = π.deref r
  shifted : ∀ r, p.Valid r → m.deref (π.ref r) = π.entry (p.deref r)
  cpus : ∀ r, (p.deref r).cpu = r.cpu
  stack : ∀ c, m.serviceStack c = (p.serviceStack c).map π.frames
  leu : m.currentLEU = p.currentLEU
  aside : m.interrupted = p.interrupted ++ π.interrupted
  instances : ∀ l n, m.instances l n = π.stored l n ++ (p.instances l n).map π.case
  known : ∀ l, (p.leus l).isSome → (m.leus l).isSome
  last : ∀ r, p.lastAppended = some r → m.lastAppended = some (π.ref r)
  temps : ∀ v, m.tempVars v = (p.tempVars v).map π.var
  ids : m.tempVarId = π.ids + p.tempVarId
  peu : m.currentPEU = π.peu p.currentPEU
  started : ∀ r, p.currentPEU.start = some r → (p.deref r).eventType = .peustart ∧ r.cpu = 0
  along : ∀ r ∈ p.currentPEU.entries, r.cpu = 0

theorem read_entry {e : Entry} (type : e.eventType ≠ .tempsynch) : π.read e = π.entry e := by
  simp [Prior.entry, Prior.read, type]

section Pointers
variable (later : Later π p m)
include later

theorem later_next (c : Fin 2) : m.next c = π.ref (p.next c) := by
  simp [State.next, Prior.ref, later.sized]

theorem later_valid (r : Ref) : m.Valid (π.ref r) ↔ p.Valid r := by
  simp [State.Valid, Prior.ref, later.sized]

theorem later_type (r : Ref) : (m.deref (π.ref r)).eventType = (p.deref r).eventType := by
  by_cases valid : p.Valid r
  · rw [later.shifted r valid]
    rfl
  · have there : ¬ m.Valid (π.ref r) := fun valid' => valid ((later_valid later r).mp valid')
    simp only [State.Valid, Nat.not_lt] at valid there
    simp [State.deref, List.getElem?_eq_none valid, List.getElem?_eq_none there, Entry.blank]

theorem later_cpu (r : Ref) : (m.deref (π.ref r)).cpu = r.cpu := by
  by_cases valid : p.Valid r
  · rw [later.shifted r valid]
    exact later.cpus r
  · have there : ¬ m.Valid (π.ref r) := fun valid' => valid ((later_valid later r).mp valid')
    simp only [State.Valid, Nat.not_lt] at there
    rw [State.deref, List.getElem?_eq_none there]
    rfl

theorem later_stack (c : Fin 2) (l : LEU) : m.stackOf c l = (p.stackOf c l).map π.elem := by
  simp only [State.stackOf, later.stack]
  cases p.serviceStack c with
  | none => rfl
  | some f => cases here : f l <;> simp [Prior.frames, here]

theorem later_current (c : Fin 2) : m.currentStack c = (p.currentStack c).map π.elem := by
  rw [State.currentStack, State.currentStack, later.leu, later_stack later]

end Pointers

theorem valid_of_opening {s : State} {r : Ref} (opening : (s.deref r).eventType.Opening) : s.Valid r := by
  refine valid_of_type fun blank => ?_
  simp [blank, EventType.Opening] at opening

section Operations

theorem later_alloc (later : Later π p m) (e : Entry) : Later π (p.alloc e) (m.alloc (π.entry e)) := by
  have cpu : (π.entry e).cpu = e.cpu := rfl
  have fresh : ∀ r, (p.alloc e).Valid r → p.Valid r ∨ r = p.next e.cpu := by
    intro r valid
    by_cases same : r.cpu = e.cpu
    · simp only [State.Valid, State.alloc, same, Function.update_self, List.length_append,
        List.length_singleton] at valid
      by_cases old : r.index < (p.heap e.cpu).length
      · exact Or.inl (by rw [State.Valid, same]; exact old)
      · refine Or.inr ?_
        cases r
        simp only [State.next, Ref.mk.injEq] at same ⊢
        exact ⟨same, by dsimp only at valid old; omega⟩
    · exact Or.inl (by simpa [State.Valid, State.alloc, same] using valid)
  exact
    { later with
      sized := fun c => by
        by_cases same : c = e.cpu
        · simp only [State.alloc, cpu, same, Function.update_self, List.length_append, later.sized,
            List.length_singleton]
          omega
        · simp [State.alloc, cpu, same, later.sized]
      kept := fun r old => by
        rw [deref_alloc (show m.Valid r by have := later.sized r.cpu; unfold State.Valid; omega)]
        exact later.kept r old
      shifted := fun r valid => by
        rcases fresh r valid with old | rfl
        · rw [deref_alloc old, deref_alloc ((later_valid later r).mpr old)]
          exact later.shifted r old
        · rw [deref_alloc_next, ← later_next later]
          exact deref_alloc_next m (π.entry e)
      cpus := fun r => by
        by_cases valid : (p.alloc e).Valid r
        · rcases fresh r valid with old | rfl
          · rw [deref_alloc old]
            exact later.cpus r
          · rw [deref_alloc_next]
            rfl
        · simp only [State.Valid, Nat.not_lt] at valid
          simp [State.deref, List.getElem?_eq_none valid, Entry.blank]
      started := fun r start => by
        obtain ⟨type, home⟩ := later.started r start
        refine ⟨?_, home⟩
        rw [deref_alloc (valid_of_type (by simp [type]))]
        exact type }

theorem later_modify (later : Later π p m) {r : Ref} {f g : Entry → Entry}
    (shifted : g (π.entry (p.deref r)) = π.entry (f (p.deref r)))
    (cpu : (f (p.deref r)).cpu = (p.deref r).cpu)
    (start : (p.deref r).eventType = .peustart → (f (p.deref r)).eventType = .peustart) :
    Later π (p.modify r f) (m.modify (π.ref r) g) := by
  have injective : ∀ {x}, π.ref x = π.ref r → x = r := by
    intro x same
    cases x
    cases r
    simp only [Prior.ref, Ref.mk.injEq] at same ⊢
    obtain ⟨rfl, index⟩ := same
    exact ⟨rfl, by omega⟩
  exact
    { later with
      sized := fun c => by
        by_cases same : c = r.cpu
        · simp [State.modify, Prior.ref, same, later.sized]
        · simp [State.modify, Prior.ref, same, later.sized]
      kept := fun x old => by
        rw [deref_modify_ne g]
        · exact later.kept x old
        · rintro rfl
          simp [Prior.ref] at old
      shifted := fun x valid => by
        have before := (valid_modify r f).mp valid
        by_cases same : x = r
        · subst same
          rw [deref_modify_self f before, deref_modify_self g ((later_valid later x).mpr before),
            later.shifted x before, shifted]
        · rw [deref_modify_ne f same, deref_modify_ne g fun equal => same (injective equal)]
          exact later.shifted x before
      cpus := fun x => by
        by_cases same : x = r
        · subst same
          by_cases valid : p.Valid x
          · rw [deref_modify_self f valid, cpu]
            exact later.cpus x
          · have valid' : ¬ (p.modify x f).Valid x := fun now => valid ((valid_modify x f).mp now)
            simp only [State.Valid, Nat.not_lt] at valid'
            simp [State.deref, List.getElem?_eq_none valid', Entry.blank]
        · rw [deref_modify_ne f same]
          exact later.cpus x
      started := fun x begun => by
        obtain ⟨type, home⟩ := later.started x begun
        refine ⟨?_, home⟩
        by_cases same : x = r
        · subst same
          rw [deref_modify_self f (valid_of_type (by simp [type]))]
          exact start type
        · rw [deref_modify_ne f same]
          exact type }

theorem frames_update (f : LEU → Option (List ServiceStackElement)) (l : LEU)
    (x : Option (List ServiceStackElement)) :
    π.frames (Function.update f l x) = Function.update (π.frames f) l (x.map (List.map π.elem)) := by
  funext k
  by_cases same : k = l
  · simp [Prior.frames, same]
  · simp [Prior.frames, same]

theorem frames_get (x : Option (LEU → Option (List ServiceStackElement))) :
    ((x.map π.frames).getD fun _ => none) = π.frames (x.getD fun _ => none) := by
  cases x <;> rfl

theorem later_touch (later : Later π p m) (c : Fin 2) : Later π (p.touch c) (m.touch c) :=
  { later with
    stack := fun d => by
      by_cases same : d = c
      · simp [State.touch, same, later.stack, frames_get]
      · simp [State.touch, same, later.stack] }

theorem later_set (later : Later π p m) (c : Fin 2) (stack : List ServiceStackElement) :
    Later π (p.setCurrentStack c stack) (m.setCurrentStack c (stack.map π.elem)) :=
  { later with
    stack := fun d => by
      by_cases same : d = c
      · simp [State.setCurrentStack, same, later.stack, later.leu, frames_get, frames_update]
      · simp [State.setCurrentStack, same, later.stack] }

theorem later_last (later : Later π p m) (r : Ref) :
    Later π { p with lastAppended := some r } { m with lastAppended := some (π.ref r) } :=
  { later with
    last := fun x same => by
      obtain rfl := Option.some.inj same
      rfl }

theorem later_push_entry (later : Later π p m) (c : Fin 2) (r : Ref) :
    Later π (p.pushEntry c r) (m.pushEntry c (π.ref r)) := by
  unfold State.pushEntry
  rw [later_current later]
  cases stack : p.currentStack c with
  | nil => exact later
  | cons top rest =>
    have moved := later_last (later_set later c ({ top with entries := top.entries ++ [r] } :: rest)) r
    simpa [Prior.elem] using moved

theorem later_push (later : Later π p m) (c : Fin 2) (r : Ref) :
    Later π (p.pushService c r) (m.pushService c (π.ref r)) :=
  later_last (later_push_entry (later_touch later c) c r) r

theorem later_push_new (later : Later π p m) (e : Entry) :
    Later π ((p.alloc e).pushService e.cpu (p.next e.cpu)) ((m.alloc (π.entry e)).pushService e.cpu (m.next e.cpu)) := by
  rw [later_next later]
  exact later_push (later_alloc later e) e.cpu _

theorem later_register (later : Later π p m) (e : Entry) :
    Later π (p.registerCall e) (m.registerCall (π.entry e)) := by
  have location : (π.entry e).location = e.location := rfl
  have cpu : (π.entry e).cpu = e.cpu := rfl
  unfold State.registerCall
  rw [location]
  split
  · exact later
  · rw [cpu, later_next later]
    exact later_push_entry (later_alloc later e) e.cpu _

theorem later_open (later : Later π p m) (c : Fin 2) (e : Entry) (name : String) :
    Later π (p.openService c e name) (m.openService c (π.entry e) name) := by
  have opened := later_set later c (⟨name, [], []⟩ :: p.currentStack c)
  have same : ((⟨name, [], []⟩ : ServiceStackElement) :: p.currentStack c).map π.elem =
      ⟨name, [], []⟩ :: m.currentStack c := by
    rw [later_current later]
    rfl
  rw [same] at opened
  exact later_push_new opened e

theorem later_new_service (later : Later π p m) (e : Entry) (name : String) :
    Later π (p.pushNewService e name) (m.pushNewService (π.entry e) name) := by
  have cpu : (π.entry e).cpu = e.cpu := rfl
  have touched := later_touch later e.cpu
  unfold State.pushNewService
  rw [cpu]
  dsimp only
  rw [later_current touched, List.isEmpty_map]
  split
  · exact later_open touched e.cpu e name
  · exact later_open (later_register touched e) e.cpu e name

theorem later_leu (later : Later π p m) (c : Fin 2) (l : LEU) :
    Later π (p.setCurrentLEU c l) (m.setCurrentLEU c l) :=
  { later with leu := by simp [State.setCurrentLEU, later.leu] }

theorem later_ensure (later : Later π p m) (l : LEU) : Later π (p.ensureLEU l) (m.ensureLEU l) :=
  { later with
    instances := fun k n => by
      rw [instances_of_ensure, instances_of_ensure]
      exact later.instances k n
    known := fun k here => by
      by_cases same : k = l
      · simp [State.ensureLEU, same]
      · simp only [State.ensureLEU, ne_eq, same, not_false_eq_true, Function.update_of_ne] at here ⊢
        exact later.known k here }

theorem later_interrupt (later : Later π p m) (c : Fin 2) (nr : Int) :
    Later π (p.interrupt c nr) (m.interrupt c nr) :=
  { later_leu later c (.hardwareInterrupt nr) with
    aside := by simp [State.interrupt, later.aside, later.leu] }

theorem later_resume (later : Later π p m) (c : Fin 2) (leu : LEU) (rest : List LEU) :
    Later π (p.resume c leu rest) (m.resume c leu (rest ++ π.interrupted)) :=
  { later_leu later c leu with aside := rfl }

theorem later_peu (later : Later π p m) {x : OngoingPEU}
    (started : ∀ r, x.start = some r → (p.deref r).eventType = .peustart ∧ r.cpu = 0)
    (along : ∀ r ∈ x.entries, r.cpu = 0) :
    Later π { p with currentPEU := x } { m with currentPEU := π.peu x } :=
  { later with peu := rfl, started := started, along := along }

end Operations

def Forward (π : Prior) (x y : Option State) : Prop := ∀ t, x = some t → ∃ u, y = some u ∧ Later π t u

section Outcomes

theorem forward_some (later : Later π p m) : Forward π (some p) (some m) := by
  intro t same
  obtain rfl := Option.some.inj same
  exact ⟨m, rfl, later⟩

theorem Forward.bind {x y : Option State} {f g : State → Option State} (first : Forward π x y)
    (next : ∀ t u, x = some t → Later π t u → Forward π (f t) (g u)) : Forward π (x.bind f) (y.bind g) := by
  intro t done
  obtain ⟨s, here, rest⟩ := Option.bind_eq_some_iff.mp done
  obtain ⟨u, there, later⟩ := first s here
  obtain ⟨v, end', later'⟩ := next s u here later t rest
  exact ⟨v, by rw [there]; exact end', later'⟩

theorem Forward.map {x y : Option State} {f g : State → State} (first : Forward π x y)
    (next : ∀ t u, Later π t u → Later π (f t) (g u)) : Forward π (x.map f) (y.map g) := by
  intro t done
  obtain ⟨s, here, rfl⟩ := Option.map_eq_some_iff.mp done
  obtain ⟨u, there, later⟩ := first s here
  exact ⟨g u, by rw [there]; rfl, next s u later⟩

theorem forward_store (later : Later π p m) (c : Fin 2) (elem : ServiceStackElement) :
    Forward π (p.pushServiceToLEU c elem) (m.pushServiceToLEU c (π.elem elem)) := by
  intro t stored
  have here : (p.leus (p.currentLEU c)).isSome := by
    cases known : p.leus (p.currentLEU c) with
    | none => simp [State.pushServiceToLEU, known] at stored
    | some f => rfl
  obtain ⟨f, there⟩ := Option.isSome_iff_exists.mp (later.known _ here)
  rw [← later.leu] at there
  obtain ⟨u, stored'⟩ : ∃ u, m.pushServiceToLEU c (π.elem elem) = some u := by
    simp [State.pushServiceToLEU, there]
  have instances : ∀ l n, u.instances l n = π.stored l n ++ (t.instances l n).map π.case := by
    intro l n
    have name : (π.elem elem).name = elem.name := rfl
    rw [instances_of_store stored, instances_of_store stored', later.leu, later.instances, name]
    by_cases same : l = p.currentLEU c ∧ n = elem.name
    · rw [if_pos same, if_pos same, List.map_append, List.append_assoc]
      rfl
    · rw [if_neg same, if_neg same]
  refine ⟨u, stored', ?_⟩
  simp only [State.pushServiceToLEU] at stored stored'
  split at stored
  · cases stored
  · obtain rfl := Option.some.inj stored
    rw [there] at stored'
    obtain rfl := Option.some.inj stored'
    exact
      { later with
        instances := instances
        known := fun l known => by
          by_cases same : l = m.currentLEU c
          · simp [same]
          · have other : l ≠ p.currentLEU c := by rw [← later.leu]; exact same
            simp only [Function.update_of_ne same, Function.update_of_ne other] at known ⊢
            exact later.known l known }

def Marked (s : State) (scan : PeuScan) : Prop :=
  ∀ i, i = scan.interruptWithIndex ∨ i = scan.intwithcompl → i ≠ 0 →
    ∀ r, s.currentPEU.entries[i]? = some r → (s.deref r).eventType = .hirqentry

theorem marked_step {s : State} {scan : PeuScan} {r : Ref} {index : Nat} (marked : Marked s scan)
    (placed : ∀ x, s.currentPEU.entries[index]? = some x → x = r) :
    Marked s (scan.step index (s.deref r)).1 := by
  have synch : ∀ (scan : PeuScan) service, Marked s scan → Marked s (scan.synch service).1 := by
    intro scan service marked
    unfold PeuScan.synch
    split <;> exact marked
  unfold PeuScan.step
  split
  · rename_i type
    intro i which nonzero x here
    rcases which with rfl | rfl
    · rw [placed x here]
      exact type
    · exact marked _ (Or.inr rfl) nonzero x here
  · intro i which nonzero x here
    rcases which with rfl | rfl
    · exact absurd rfl nonzero
    · exact marked _ (Or.inr rfl) nonzero x here
  · refine synch _ _ ?_
    unfold PeuScan.complete
    split
    · intro i which nonzero x here
      rcases which with rfl | rfl <;> exact marked _ (Or.inl rfl) nonzero x here
    · exact marked
  · exact synch _ _ marked
  · exact marked

theorem hit_marked {scan : PeuScan} {index : Nat} {e : Entry} (hit : (scan.step index e).2 = true) :
    (scan.step index e).1.intwithcompl ≠ 0 := by
  have synch : ∀ (scan : PeuScan) service, (scan.synch service).2 = true → (scan.synch service).1.intwithcompl ≠ 0 := by
    intro scan service hit
    unfold PeuScan.synch at hit ⊢
    split at hit
    · cases hit
    · rename_i later
      rw [if_neg later]
      exact (of_decide_eq_true hit).2
  unfold PeuScan.step at hit ⊢
  split at hit
  · cases hit
  · cases hit
  · exact synch _ _ hit
  · exact synch _ _ hit
  · cases hit

/-- Both matches measure from the start of the PEU to the interrupt on one clock, so the
    durations are the same. -/
theorem forward_match (later : Later π p m) {scan : PeuScan} (marked : Marked p scan)
    (found : scan.intwithcompl ≠ 0) : Forward π (p.peuMatch scan) (m.peuMatch scan) := by
  intro t done
  simp only [State.peuMatch, bind, Option.bind_eq_some_iff, Option.some.injEq] at done
  obtain ⟨hit, here, start, begun, rfl⟩ := done
  obtain ⟨type, home⟩ := later.started start begun
  have kind := marked _ (Or.inr rfl) found hit here
  have near : hit.cpu = 0 := later.along hit (List.mem_of_getElem? here)
  have copy := later.shifted hit (valid_of_type (by simp [kind]))
  have copy' := later.shifted start (valid_of_type (by simp [type]))
  have there : m.peuMatch scan = some { m.modify (π.ref start) fun e =>
      { e with peuDuration := (p.deref hit).cycles - (p.deref start).cycles, peuIRQ := (p.deref hit).pid1 } with
      currentPEU := ⟨none, []⟩ } := by
    simp only [State.peuMatch, later.peu, Prior.peu, List.getElem?_map, here, begun, Option.map_some, bind,
      Option.bind_some, copy, copy', Prior.entry, later.cpus, near, home, add_sub_add_right_eq_sub]
  refine ⟨_, there, ?_⟩
  refine later_peu (x := ⟨none, []⟩) (later_modify later ?_ rfl id) (by simp) (by simp)
  rfl

theorem forward_scan (items : List (Ref × Nat)) (scan : PeuScan) (later : Later π p m) (marked : Marked p scan)
    (placed : ∀ item ∈ items, ∀ x, p.currentPEU.entries[item.2]? = some x → x = item.1) :
    ∀ t scan', items.foldlM State.peuStep (p, scan) = some (t, scan') →
      ∃ u, (items.map (Prod.map π.ref id)).foldlM State.peuStep (m, scan) = some (u, scan') ∧ Later π t u := by
  induction items generalizing p m scan with
  | nil =>
    intro t scan' done
    obtain ⟨rfl, rfl⟩ := Prod.mk.inj (Option.some.inj done)
    exact ⟨m, rfl, later⟩
  | cons item items ih =>
    intro t scan' done
    have first := placed item (List.mem_cons_self ..)
    have others := fun x member => placed x (List.mem_cons_of_mem item member)
    have same : scan.step item.2 (m.deref (π.ref item.1)) = scan.step item.2 (p.deref item.1) := by
      by_cases valid : p.Valid item.1
      · rw [later.shifted _ valid]
        rfl
      · have there : ¬ m.Valid (π.ref item.1) := fun valid' => valid ((later_valid later _).mp valid')
        simp only [State.Valid, Nat.not_lt] at valid there
        simp only [State.deref, List.getElem?_eq_none valid, List.getElem?_eq_none there]
        rfl
    have next := marked_step marked first
    rw [List.foldlM_cons, Option.bind_eq_bind, Option.bind_eq_some_iff] at done
    obtain ⟨⟨q, scan₁⟩, step, rest⟩ := done
    rw [List.map_cons, List.foldlM_cons, Option.bind_eq_bind]
    simp only [State.peuStep] at step
    simp only [State.peuStep, Prod.map_fst, Prod.map_snd, id_eq, same]
    by_cases hit : (scan.step item.2 (p.deref item.1)).2 = true
    · rw [if_pos hit] at step ⊢
      obtain ⟨s, matched, eq⟩ := Option.map_eq_some_iff.mp step
      obtain ⟨rfl, rfl⟩ := Prod.mk.inj eq
      obtain ⟨u, there, later'⟩ := forward_match later next (hit_marked hit) s matched
      have emptied : s.currentPEU.entries = [] := by
        simp only [State.peuMatch, bind, Option.bind_eq_some_iff, Option.some.injEq] at matched
        obtain ⟨_, _, _, _, rfl⟩ := matched
        rfl
      rw [there]
      refine ih _ later' ?_ ?_ t scan' rest
      · intro i _ _ r here
        simp [emptied] at here
      · intro x _ r here
        simp [emptied] at here
    · rw [if_neg hit] at step ⊢
      obtain ⟨rfl, rfl⟩ := Prod.mk.inj (Option.some.inj step)
      exact ih _ later next others t scan' rest

theorem forward_append (later : Later π p m) (r : Ref) :
    Forward π (p.appendToPEU r) (m.appendToPEU (π.ref r)) := by
  unfold State.appendToPEU
  dsimp only
  rw [later_type later, later_cpu later, later.cpus]
  by_cases away : r.cpu = 1
  · rw [if_pos away, if_pos away]
    exact forward_some later
  · have home : r.cpu = 0 := by omega
    rw [if_neg away, if_neg away]
    by_cases type : (p.deref r).eventType = .peustart
    · rw [if_pos type, if_pos type]
      refine forward_some (later_peu (x := ⟨some r, []⟩) later ?_ (by simp))
      intro x same
      obtain rfl := Option.some.inj same
      exact ⟨type, home⟩
    · rw [if_neg type, if_neg type]
      have none : m.currentPEU.start.isNone = p.currentPEU.start.isNone := by
        rw [later.peu]
        simp [Prior.peu]
      rw [none]
      split
      · exact forward_some later
      · have extended : Later π (p.extendPEU r) (m.extendPEU (π.ref r)) := by
          have moved := later_peu (x := ⟨p.currentPEU.start, p.currentPEU.entries ++ [r]⟩) later later.started (by
            intro x member
            rcases List.mem_append.mp member with old | new
            · exact later.along x old
            · rw [List.mem_singleton.mp new]
              exact home)
          have peu : m.extendPEU (π.ref r) =
              { m with currentPEU := π.peu ⟨p.currentPEU.start, p.currentPEU.entries ++ [r]⟩ } := by
            simp [State.extendPEU, later.peu, Prior.peu]
          rw [peu]
          exact moved
        intro t done
        obtain ⟨⟨s, scan⟩, scanned, rfl⟩ := Option.map_eq_some_iff.mp done
        have items : (m.extendPEU (π.ref r)).currentPEU.entries.zipIdx =
            (p.extendPEU r).currentPEU.entries.zipIdx.map (Prod.map π.ref id) := by
          rw [extended.peu]
          simp [Prior.peu, List.zipIdx_map]
        obtain ⟨u, there, later'⟩ := forward_scan _ ⟨0, "", 0⟩ extended
          (by
            rintro i (rfl | rfl) nonzero
            · exact absurd rfl nonzero
            · exact absurd rfl nonzero)
          (by
            rintro ⟨x, i⟩ member y here
            have there := List.mem_zipIdx_iff_getElem?.mp member
            exact Option.some.inj (here.symm.trans there))
          s scan scanned
        exact ⟨u, by rw [items, there]; rfl, later'⟩

theorem forward_append_last (later : Later π p m) (c : Fin 2) :
    Forward π (p.appendLastToPEU c) (m.appendLastToPEU c) := by
  unfold State.appendLastToPEU
  rw [later_current later]
  cases p.currentStack c with
  | nil => exact forward_some later
  | cons top rest =>
    simp only [List.map_cons, Prior.elem, List.getLast?_map]
    cases top.entries.getLast? with
    | none =>
      intro t done
      cases done
    | some r => exact forward_append later r

theorem later_pop (later : Later π p m) {c : Fin 2} {top : ServiceStackElement} {t : State}
    (popped : p.pop c = some (top, t)) :
    ∃ u, m.pop c = some (π.elem top, u) ∧ Later π t u := by
  obtain ⟨rest, full, rfl⟩ := pop_cases popped
  have there : m.stackOf c (m.currentLEU c) = π.elem top :: rest.map π.elem := by
    rw [later_stack later, later.leu, full]
    rfl
  exact ⟨_, pop_top there, later_set later c rest⟩

theorem forward_srvexit (later : Later π p m) {c : Fin 2} {r : Ref} {t : State} {closed : Bool}
    (done : handleSRVEXIT p c r = some (t, closed)) :
    ∃ u, handleSRVEXIT m c (π.ref r) = some (u, closed) ∧ Later π t u := by
  have pushed := later_push later c r
  unfold handleSRVEXIT at done ⊢
  dsimp only at done ⊢
  rw [later_current later, List.isEmpty_map]
  split at done
  · rename_i empty
    obtain ⟨rfl, rfl⟩ := Prod.mk.inj (Option.some.inj done)
    exact ⟨_, by rw [if_pos empty], pushed⟩
  · rename_i full
    simp only [bind, Option.bind_eq_some_iff] at done
    obtain ⟨⟨service, s⟩, popped, v, stored, eq⟩ := done
    obtain ⟨rfl, rfl⟩ := Prod.mk.inj (Option.some.inj eq)
    obtain ⟨s', popped', moved⟩ := later_pop pushed popped
    have ensured := later_ensure moved (s.currentLEU c)
    obtain ⟨v', stored', later'⟩ := forward_store ensured c service v stored
    refine ⟨_, ?_, later_push later' c r⟩
    rw [← moved.leu] at stored'
    simp [full, popped', stored']

section Handlers
variable {e : Entry}

theorem forward_ctxsw (later : Later π p m) : Forward π (handleCTXSW p e) (handleCTXSW m (π.entry e)) := by
  have out := later_push_new later e
  have switched := later_leu out e.cpu (.thread e.pid2)
  have into := later_push switched e.cpu (p.next e.cpu)
  rw [← later_next later] at into
  exact forward_some (later_ensure into (.thread e.pid2))

theorem forward_plain (later : Later π p m) (e : Entry) : Forward π (p.pushPlain e) (m.pushPlain (π.entry e)) :=
  forward_some (later_push_new later e)

theorem forward_with_peu (later : Later π p m) (e : Entry) :
    Forward π (p.pushWithPEU e) (m.pushWithPEU (π.entry e)) :=
  forward_append_last (later_push_new later e) e.cpu

theorem forward_hirq_entry (later : Later π p m) :
    Forward π (handleHIRQEntry p e) (handleHIRQEntry m (π.entry e)) := by
  have aside := later_interrupt (later_push_new later e) e.cpu e.pid1
  have known := later_ensure aside (.hardwareInterrupt e.pid1)
  exact forward_append_last (later_new_service known e (irqService e.pid1)) e.cpu

theorem forward_exit (later : Later π p m) :
    Forward π ((handleSRVEXIT (p.alloc e) e.cpu (p.next e.cpu)).map Prod.fst)
      ((handleSRVEXIT (m.alloc (π.entry e)) e.cpu (m.next e.cpu)).map Prod.fst) := by
  intro t done
  obtain ⟨⟨s, closed⟩, exited, rfl⟩ := Option.map_eq_some_iff.mp done
  obtain ⟨u, there, later'⟩ := forward_srvexit (later_alloc later e) exited
  rw [← later_next later] at there
  exact ⟨u, by rw [there]; rfl, later'⟩

/-- The LEU put aside last is one the later text has put aside: had there been none, the
    analysis from nothing would have panicked. -/
theorem forward_hirq_exit (later : Later π p m) :
    Forward π (handleHIRQExit p e) (handleHIRQExit m (π.entry e)) := by
  intro t done
  simp only [handleHIRQExit, bind, Option.bind_eq_some_iff] at done
  obtain ⟨⟨s, closed⟩, exited, rest⟩ := done
  obtain ⟨u, there, later'⟩ := forward_srvexit (later_alloc later e) exited
  rw [← later_next later] at there
  have cpu : (π.entry e).cpu = e.cpu := rfl
  simp only [handleHIRQExit, bind, cpu, there, Option.bind_some]
  cases closed with
  | false =>
    obtain rfl := Option.some.inj rest
    exact ⟨u, rfl, later'⟩
  | true =>
    simp only [if_true] at rest ⊢
    cases aside : s.interrupted with
    | nil =>
      rw [aside] at rest
      cases rest
    | cons leu others =>
      rw [aside] at rest
      have aside' : u.interrupted = leu :: (others ++ π.interrupted) := by
        rw [later'.aside, aside]
        rfl
      rw [aside', later_next later]
      have back := later_push (later_resume later' e.cpu leu others) e.cpu (p.next e.cpu)
      exact forward_append_last back e.cpu t rest

theorem forward_loopstart (later : Later π p m) :
    Forward π (handleLOOPSTART p e) (handleLOOPSTART m (π.entry e)) := by
  have touched := later_touch later e.cpu
  have there : handleLOOPSTART m (π.entry e) = some (if ((m.touch e.cpu).currentStack e.cpu).isEmpty
      then m.touch e.cpu else (m.touch e.cpu).pushNewService (π.entry e) e.location) := rfl
  rw [there, later_current touched, List.isEmpty_map]
  unfold handleLOOPSTART
  dsimp only
  split
  · exact forward_some touched
  · exact forward_some (later_new_service touched e e.location)

theorem forward_srvqueue (later : Later π p m) :
    Forward π (handleSRVQUEUE p e) (handleSRVQUEUE m (π.entry e)) := by
  have there : handleSRVQUEUE m (π.entry e) =
      if e.pid1 = ENQUEUE then
        m.pushPlain (π.entry { e with service := (softirqs e.service).getD e.service })
      else some (m.pushNewService (π.entry { e with packetId := "0" }) e.service) := rfl
  rw [there]
  unfold handleSRVQUEUE
  split
  · exact forward_plain later { e with service := (softirqs e.service).getD e.service }
  · exact forward_some (later_new_service later { e with packetId := "0" } e.service)

/-- The entries of the innermost loop that are copied or overwritten when it is started again or
    stopped were traced on the CPU of that event. -/
def LoopsHome (s : State) (e : Entry) : Prop :=
  e.eventType = .looprstart ∨ e.eventType = .loopstop → ∀ top ∈ (s.currentStack e.cpu).head?, ∀ r ∈ top.entries,
    some r = top.entries.head? ∨ (s.deref r).eventType = .loopstart → (s.deref r).cpu = e.cpu

instance (s : State) (e : Entry) : Decidable (LoopsHome s e) := by
  unfold LoopsHome
  infer_instance

theorem loops_restart {s : State} {e : Entry} (home : LoopsHome s e) : RestartsHome s e := by
  intro type top member r first
  exact home (Or.inl type) top member r (List.mem_of_mem_head? first) (Or.inl first.symm)

theorem entry_loop {a : Entry} {type : EventType} (plain : a.eventType ≠ .tempsynch) (loop : type.InLoop)
    (own : a.cpu = e.cpu) : ({ π.entry a with eventType := type, cycles := (π.entry e).cycles } : Entry) =
      π.entry { a with eventType := type, cycles := e.cycles } := by
  have other : type ≠ .tempsynch := by
    rintro rfl
    rcases loop with loop | loop <;> cases loop
  simp [Prior.entry, plain, other, own]

theorem entry_relabel {a : Entry} {type : EventType} (plain : a.eventType ≠ .tempsynch) (loop : type.InLoop) :
    ({ π.entry a with eventType := type } : Entry) = π.entry { a with eventType := type } := by
  have other : type ≠ .tempsynch := by
    rintro rfl
    rcases loop with loop | loop <;> cases loop
  simp [Prior.entry, plain, other]

theorem opening_plain {t : EventType} (opening : t.Opening) : t ≠ .tempsynch ∧ t ≠ .peustart := by
  rcases opening with rfl | rfl | rfl | rfl | rfl <;> simp

theorem later_mark_loop (later : Later π p m) {r : Ref} {type : EventType}
    (opening : (p.deref r).eventType.Opening) (loop : type.InLoop) :
    Later π (p.modify r fun f => { f with eventType := type })
      (m.modify (π.ref r) fun f => { f with eventType := type }) :=
  later_modify later (entry_relabel (opening_plain opening).1 loop) rfl
    fun start => absurd start (opening_plain opening).2

theorem forward_looprstart (later : Later π p m) (sound : Sound true p) (type : e.eventType = .looprstart)
    (home : LoopsHome p e) : Forward π (handleLOOPRSTART p e) (handleLOOPRSTART m (π.entry e)) := by
  have touched := later_touch later e.cpu
  have cpu : (π.entry e).cpu = e.cpu := rfl
  unfold handleLOOPRSTART
  simp only [cpu, later_current touched]
  cases stack : (p.touch e.cpu).currentStack e.cpu with
  | nil => exact forward_some touched
  | cons top rest =>
    simp only [List.map_cons, Prior.elem, List.getLast?_map, bind]
    cases final : top.entries.getLast? with
    | none =>
      intro t done
      cases done
    | some last =>
      simp only [Option.map_some, Option.bind_some, later_type touched]
      by_cases again : ((p.touch e.cpu).deref last).eventType = .loopstart
      · rw [if_pos again, if_pos again]
        have top_of : top ∈ (p.currentStack e.cpu).head? := by
          simp only [State.currentStack, stack_of_touch, touch_leu] at stack ⊢
          rw [stack]
          rfl
        have own := home (Or.inl type) top top_of last (List.mem_of_getLast? final) (Or.inr again)
        exact forward_some (later_modify touched (entry_loop (by simp [again]) (Or.inr rfl) own) rfl
          (fun start => by simp [again] at start))
      · rw [if_neg again, if_neg again]
        intro t done
        obtain ⟨⟨service, s⟩, popped, rest'⟩ := Option.bind_eq_some_iff.mp done
        obtain ⟨first, head, rest'⟩ := Option.bind_eq_some_iff.mp rest'
        have pushed := later_push_new touched e
        obtain ⟨s', popped', moved⟩ := later_pop pushed popped
        obtain ⟨_, _, heads⟩ := sound_pop (sound_push_new (sound_touch sound e.cpu) e) popped
        obtain ⟨h, tail, entries, opening⟩ := heads rfl
        obtain rfl : h = first := by simpa [entries] using head
        have heap : s.heap = (((p.touch e.cpu).alloc e).pushService e.cpu ((p.touch e.cpu).next e.cpu)).heap := by
          obtain ⟨_, _, rfl⟩ := pop_cases popped
          rfl
        have opening' : (s.deref h).eventType.Opening := by
          simpa [State.deref, heap] using opening
        have marked := later_mark_loop moved opening' (Or.inl rfl)
        have forward := (forward_store marked e.cpu service).bind fun v v' stored later' => by
          have label : (v.deref h).eventType = .loopstart := by
            have same : v.heap = (s.modify h fun f => { f with eventType := .loopstart }).heap := (store_keeps stored).1
            have deref : v.deref h = (s.modify h fun f => { f with eventType := .loopstart }).deref h := by
              simp [State.deref, same]
            rw [deref, deref_modify_self _ (valid_of_opening opening')]
          have valid : v.Valid h := valid_of_type (by simp [label])
          have own := restarted_cpu sound type (loops_restart home) stack popped head stored
          have copy := entry_loop (π := π) (e := e) (a := v.deref h) (by simp [label])
            (Or.inr rfl : EventType.InLoop .looprstart) own
          have opened := later_open later' e.cpu { v.deref h with eventType := .looprstart, cycles := e.cycles }
            service.name
          rw [← copy, ← later'.shifted h valid] at opened
          exact forward_some opened
        obtain ⟨u, done', later'⟩ := forward t rest'
        refine ⟨u, ?_, later'⟩
        rw [popped']
        have head' : (π.elem service).entries.head? = some (π.ref h) := by simp [Prior.elem, entries]
        simp only [Option.bind_some, head']
        exact done'

theorem forward_store_loop (later : Later π p m) (c : Fin 2) (service : ServiceStackElement) {head : Ref} :
    Forward π (p.storeLoop c service head) (m.storeLoop c (π.elem service) (π.ref head)) := by
  unfold State.storeLoop
  rw [later_type later]
  split
  · rename_i started
    exact forward_store (later_mark_loop later (by simp [started, EventType.Opening]) (Or.inl rfl)) c service
  · exact forward_some later

theorem forward_loopstop (later : Later π p m) (sound : Sound true p) (type : e.eventType = .loopstop)
    (home : LoopsHome p e) : Forward π (handleLOOPSTOP p e) (handleLOOPSTOP m (π.entry e)) := by
  have touched := later_touch later e.cpu
  have cpu : (π.entry e).cpu = e.cpu := rfl
  unfold handleLOOPSTOP
  simp only [cpu]
  cases popped : (p.touch e.cpu).pop e.cpu with
  | none =>
    have empty : (m.touch e.cpu).pop e.cpu = none := by
      unfold State.pop at popped ⊢
      rw [later_current touched]
      cases stack : (p.touch e.cpu).currentStack e.cpu with
      | nil => rfl
      | cons top rest =>
        rw [stack] at popped
        cases popped
    rw [empty]
    exact forward_some touched
  | some found =>
    obtain ⟨service, s⟩ := found
    obtain ⟨s', popped', moved⟩ := later_pop touched popped
    obtain ⟨_, _, heads⟩ := sound_pop (sound_touch sound e.cpu) popped
    obtain ⟨h, tail, entries, opening⟩ := heads rfl
    have there : (s.deref h).eventType.Opening ∧ (s.deref h).cpu = e.cpu := by
      obtain ⟨rest, full, rfl⟩ := pop_cases popped
      have top_of : service ∈ (p.currentStack e.cpu).head? := by
        simp only [State.currentStack, stack_of_touch, touch_leu] at full ⊢
        rw [full]
        rfl
      exact ⟨opening, home (Or.inr type) service top_of h (by simp [entries]) (Or.inl (by simp [entries]))⟩
    have head : (π.elem service).entries.head? = some (π.ref h) := by simp [Prior.elem, entries]
    have head' : service.entries.head? = some h := by simp [entries]
    simp only [popped', head, head']
    have made := later_alloc moved { s.deref h with eventType := .looprstart, cycles := e.cycles }
    rw [← entry_loop (opening_plain there.1).1 (Or.inr rfl) there.2,
      ← moved.shifted h (valid_of_opening there.1)] at made
    have grown : ({ π.elem service with entries := (π.elem service).entries ++ [s'.next (s'.deref (π.ref h)).cpu] } :
        ServiceStackElement) = π.elem { service with entries := service.entries ++ [s.next (s.deref h).cpu] } := by
      rw [later_cpu moved, moved.cpus, later_next moved]
      simp [Prior.elem]
    rw [grown]
    exact (forward_store_loop made e.cpu _).map fun t u later => later_push_new later e

theorem later_declare (later : Later π p m) (service : String) (r : Ref) :
    Later π
      { p with
        tempVarId := p.tempVarId + 1
        tempVars := Function.update p.tempVars service (some ⟨r, 0⟩) }
      { m with
        tempVarId := m.tempVarId + 1
        tempVars := Function.update m.tempVars service (some ⟨π.ref r, 0⟩) } :=
  { later with
    ids := by simp [later.ids, Nat.add_assoc]
    temps := fun v => by
      by_cases same : v = service
      · simp [same, Prior.var]
      · simp [same, later.temps] }

theorem forward_tempsynch (later : Later π p m) (type : e.eventType = .tempsynch) :
    Forward π (handleTEMPSYNCH p e) (handleTEMPSYNCH m (π.read e)) := by
  have shifted : { π.read e with tempVarId := m.tempVarId } = π.entry { e with tempVarId := p.tempVarId } := by
    simp [Prior.entry, Prior.read, type, later.ids]
  have declared := later_declare (later_push_new later { e with tempVarId := p.tempVarId }) e.service (p.next e.cpu)
  rw [← later_next later, ← shifted] at declared
  exact forward_some declared

theorem later_note (later : Later π p m) (c : Fin 2) (v : TempVar) (operation : Sync) :
    Later π (p.noteUser c v operation) (m.noteUser c (π.var v) operation) := by
  unfold State.noteUser
  rw [later_current later]
  cases p.currentStack c with
  | nil => exact later
  | cons top rest => exact later_modify later rfl rfl id

theorem later_count (later : Later π p m) (service : String) (v : TempVar) (operation : Sync) :
    Later π (p.countTempVar service v operation) (m.countTempVar service (π.var v) operation) :=
  { later with
    temps := fun x => by
      have value : (π.var v).value = v.value := rfl
      by_cases same : x = service
      · simp only [State.countTempVar, same, Function.update_self, value]
        split <;> rfl
      · simpa [State.countTempVar, same] using later.temps x }

theorem forward_sync (later : Later π p m) (operation : Sync) (type : e.eventType ≠ .tempsynch) :
    Forward π (handleSync p e operation) (handleSync m (π.entry e) operation) := by
  have service : (π.entry e).service = e.service := rfl
  unfold handleSync
  rw [service, later.temps]
  cases p.tempVars e.service with
  | none => exact forward_with_peu later e
  | some v =>
    have noted := later_note (later_touch later e.cpu) e.cpu v operation
    have shifted : ({ π.entry e with eventType := .sync operation true } : Entry) =
        π.entry { e with eventType := .sync operation true } := by simp [Prior.entry, type]
    have pushed := forward_with_peu noted { e with eventType := .sync operation true }
    rw [← shifted] at pushed
    exact pushed.map fun t u later => later_count later e.service v operation

theorem forward_pktqueue (later : Later π p m) (type : e.eventType = .pktqueue ∨ e.eventType = .pktqueuen) :
    Forward π (handlePKTQUEUE p e) (handlePKTQUEUE m (π.entry e)) := by
  have same : (π.entry e).eventType = e.eventType := rfl
  have plain : e.eventType ≠ .tempsynch := by rcases type with type | type <;> simp [type]
  have pushes : ∀ {s t : State} (a : EventType), a = .pktqueue ∨ a = .pktqueuen → Later π s t →
      Forward π (s.pushPlain { e with eventType := a, packetId := toString (GoText.parseIntValue 16 e.packetId) })
        (t.pushPlain { π.entry e with eventType := a, packetId := toString (GoText.parseIntValue 16 e.packetId) }) := by
    intro s t a kind later
    have other : a ≠ .tempsynch := by rcases kind with rfl | rfl <;> simp
    have shifted := forward_plain later
      { e with eventType := a, packetId := toString (GoText.parseIntValue 16 e.packetId) }
    simpa [Prior.entry, plain, other] using shifted
  unfold handlePKTQUEUE State.labelPacket
  rw [same]
  by_cases further : e.eventType = .pktqueuen
  · simp only [further, if_true]
    cases last : p.lastAppended with
    | none =>
      intro t done
      cases done
    | some r =>
      simp only [later.last r last, later_type later]
      by_cases fresh : (p.deref r).eventType = .pktqueue
      · simp only [fresh, if_true]
        have marked : Later π (p.modify r fun l => { l with eventType := .pktqueuen })
            (m.modify (π.ref r) fun l => { l with eventType := .pktqueuen }) :=
          later_modify later (by simp [Prior.entry, fresh]) rfl (fun start => by simp [fresh] at start)
        exact pushes .pktqueue (Or.inl rfl) marked
      · simp only [fresh, if_false]
        exact pushes .pktqueuen (Or.inr rfl) later
  · simp only [further, if_false]
    exact pushes e.eventType type later

theorem holder_later (later : Later π p m) (leu : LEU) (newCPU : Int) : m.holder leu newCPU = p.holder leu newCPU := by
  unfold State.holder
  refine congrArg (fun f => List.find? f _) (funext fun cpu => ?_)
  rw [later.stack]
  cases p.serviceStack cpu with
  | none => rfl
  | some f => simp [Prior.frames]

theorem forward_migrate (later : Later π p m) :
    Forward π (handleMIGRATE p e) (handleMIGRATE m (π.entry e)) := by
  have there : handleMIGRATE m (π.entry e) = handleMIGRATE m e := rfl
  rw [there]
  unfold handleMIGRATE
  dsimp only
  rw [holder_later later]
  cases p.holder (.thread e.pid1) e.pid2 with
  | none => exact forward_some later
  | some cpu =>
    cases cpuOf e.pid2 with
    | none =>
      intro t done
      cases done
    | some target =>
      simp only [later.stack target]
      cases p.serviceStack target with
      | none =>
        intro t done
        cases done
      | some f =>
        refine forward_some { later with stack := fun d => ?_ }
        have left : (m.serviceStack cpu).map (fun old => Function.update old (LEU.thread e.pid1) none) =
            ((p.serviceStack cpu).map fun old => Function.update old (LEU.thread e.pid1) none).map π.frames := by
          rw [later.stack]
          cases p.serviceStack cpu with
          | none => rfl
          | some g => simp [frames_update]
        by_cases source : d = cpu
        · simp only [source, Function.update_self]
          exact left
        · by_cases same : d = target
          · subst same
            simp [source, frames_update, later_stack later]
          · simp [source, same, later.stack]

theorem forward_handle (later : Later π p m) (sound : Sound true p) (home : LoopsHome p e) :
    Forward π (handleEvent p e) (handleEvent m (π.read e)) := by
  have same : (π.read e).eventType = e.eventType := rfl
  by_cases declares : e.eventType = .tempsynch
  · simp only [handleEvent, same, declares]
    exact forward_tempsynch later declares
  rw [read_entry declares]
  have same : (π.entry e).eventType = e.eventType := rfl
  unfold handleEvent
  rw [same]
  cases kind : e.eventType with
  | tempsynch => exact absurd kind declares
  | ctxsw => exact forward_ctxsw later
  | migrate => exact forward_migrate later
  | peustart => exact forward_with_peu later e
  | hirqentry => exact forward_hirq_entry later
  | hirqexit => exact forward_hirq_exit later
  | looprstart => exact forward_looprstart later sound kind home
  | loopstart => exact forward_loopstart later
  | loopstop => exact forward_loopstop later sound kind home
  | srventry => exact forward_some (later_new_service later { e with packetId := "0" } e.service)
  | srvqueue => exact forward_srvqueue later
  | pktqueue => exact forward_pktqueue later (Or.inl kind)
  | pktqueuen => exact forward_pktqueue later (Or.inr kind)
  | sync operation temporary =>
    cases temporary with
    | false => exact forward_sync later operation declares
    | true => exact forward_some later
  | srvexit => exact forward_exit later
  | queuecond | statecond | statequeue | sleep | ttwakeup | wakeup => exact forward_plain later e
  | pktextr | pktextrn | threadcond | other _ => exact forward_some later

end Handlers

end Outcomes

end Analyse
