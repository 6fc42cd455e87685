import SepExtract.HandlerMoves
import SepExtract.TraceExecution

/- The life of temporary synchronisation variables, told from the events of a segment: an
   operation is marked while its variable is alive, that is, declared and not yet back at 0, and
   noted at the declaration with the service it is executed in. -/
namespace Analyse

structure Happening where
  ref : Ref
  event : Entry
  inside : Option String
  deriving DecidableEq

def Happening.of (s : State) (e : Entry) : Happening :=
  ⟨s.next e.cpu, e, (s.currentStack e.cpu).head?.map ServiceStackElement.name⟩

def Happening.Declares (h : Happening) (v : String) : Prop := h.event.eventType = .tempsynch ∧ h.event.service = v

instance (h : Happening) (v : String) : Decidable (h.Declares v) := inferInstanceAs (Decidable (_ ∧ _))

def Happening.operates (h : Happening) (v : String) : Option Int :=
  match h.event.eventType with
  | .sync operation false => if h.event.service = v then some operation.value else none
  | _ => none

def Happening.user (h : Happening) (v : String) : Option TempVarEntry :=
  h.inside.bind fun name => (h.operates v).map fun value => ⟨name, value⟩

/-- The latest declaration of a variable; histories are of one segment, latest event first. -/
def declaration (v : String) : List Happening → Option Happening
  | [] => none
  | h :: older => if h.Declares v then some h else declaration v older

def operationsSince (v : String) : List Happening → List Int
  | [] => []
  | h :: older => if h.Declares v then [] else (h.operates v).toList ++ operationsSince v older

/-- The variable is declared and its running sum has not returned to 0. -/
def Alive (v : String) (history : List Happening) : Prop :=
  (declaration v history).isSome ∧ ∀ ops ∈ (operationsSince v history).tails, ops ≠ [] → ops.sum ≠ 0

instance (v : String) (history : List Happening) : Decidable (Alive v history) := inferInstanceAs (Decidable (_ ∧ _))

def usersOf (d : Happening) : List Happening → List TempVarEntry
  | [] => []
  | h :: older => usersOf d older ++
      if declaration d.event.service older = some d ∧ Alive d.event.service older
      then (h.user d.event.service).toList else []

def Run.hears (r : Run) (history : List Happening) (l : Line) : List Happening :=
  if l = .eod ∧ r.returned = false then []
  else ((r.entryOf l).map (Happening.of r.state)).toList ++ history

def Run.history (r : Run) (history : List Happening) : List Line → List Happening
  | [] => history
  | l :: ls => (r.line l).elim history fun t => t.history (r.hears history l) ls

section Lives
variable {v : String} {h : Happening} {history : List Happening}

theorem declaration_mem {d : Happening} (found : declaration v history = some d) : d ∈ history ∧ d.Declares v := by
  induction history with
  | nil => cases found
  | cons h older ih =>
    rw [declaration] at found
    split at found
    · obtain rfl := Option.some.inj found
      exact ⟨List.mem_cons_self .., ‹_›⟩
    · exact ⟨List.mem_cons_of_mem h (ih found).1, (ih found).2⟩

theorem users_of_absent {d : Happening} (absent : d ∉ history) : usersOf d history = [] := by
  induction history with
  | nil => rfl
  | cons h older ih =>
    have older_absent : d ∉ older := fun member => absent (List.mem_cons_of_mem h member)
    have unfound : ¬ (declaration d.event.service older = some d ∧ Alive d.event.service older) :=
      fun found => older_absent (declaration_mem found.1).1
    rw [usersOf, ih older_absent, if_neg unfound]
    rfl

theorem not_declares_of_operates {x : Int} (operates : h.operates v = some x) : ¬ h.Declares v := by
  rintro ⟨type, -⟩
  simp [Happening.operates, type] at operates

theorem alive_declared (declares : h.Declares v) : Alive v (h :: history) := by
  simp [Alive, declaration, operationsSince, declares]

variable (history) in
theorem alive_other (other : ¬ h.Declares v) (idle : h.operates v = none) :
    declaration v (h :: history) = declaration v history ∧
      operationsSince v (h :: history) = operationsSince v history ∧
      (Alive v (h :: history) ↔ Alive v history) := by
  have declared : declaration v (h :: history) = declaration v history := by rw [declaration, if_neg other]
  have since : operationsSince v (h :: history) = operationsSince v history := by
    rw [operationsSince, if_neg other, idle]
    rfl
  exact ⟨declared, since, by rw [Alive, declared, since, Alive]⟩

variable (history) in
theorem alive_operated {x : Int} (operates : h.operates v = some x) :
    declaration v (h :: history) = declaration v history ∧
      operationsSince v (h :: history) = x :: operationsSince v history ∧
      (Alive v (h :: history) ↔ Alive v history ∧ x + (operationsSince v history).sum ≠ 0) := by
  have other := not_declares_of_operates operates
  have declared : declaration v (h :: history) = declaration v history := by rw [declaration, if_neg other]
  have since : operationsSince v (h :: history) = x :: operationsSince v history := by
    rw [operationsSince, if_neg other, operates]
    rfl
  refine ⟨declared, since, ?_⟩
  rw [Alive, declared, since, Alive, List.tails]
  simp only [List.mem_cons, forall_eq_or_imp, ne_eq, List.cons_ne_nil, not_false_eq_true, List.sum_cons, true_implies]
  tauto

end Lives

def EventType.Temporary (t : EventType) : Prop := t = .tempsynch ∨ ∃ operation temp, t = .sync operation temp

def Happening.Tracked (h : Happening) : Prop :=
  h.event.eventType = .tempsynch ∨ ∃ operation, h.event.eventType = .sync operation false

def Entry.Filled (a b : Entry) : Prop := a = { b with peuDuration := a.peuDuration, peuIRQ := a.peuIRQ }

theorem filled_refl (a : Entry) : a.Filled a := rfl

theorem filled_trans {a b c : Entry} (first : a.Filled b) (second : b.Filled c) : a.Filled c := by
  unfold Entry.Filled at first second ⊢
  rw [first, second]

theorem filled_type {a b : Entry} (filled : a.Filled b) : a.eventType = b.eventType := by
  rw [filled]

theorem filled_users {a b : Entry} (filled : a.Filled b) : a.tempVars = b.tempVars := by
  rw [filled]

theorem filled_unlabelled {a b : Entry} (filled : a.Filled b) : a.unlabelled = b.unlabelled := by
  rw [filled]
  rfl

def State.Fills (s t : State) : Prop := ∀ r, s.Valid r → t.Valid r ∧ (t.deref r).Filled (s.deref r)

theorem fills_append_last {s t : State} {c : Fin 2} (done : s.appendLastToPEU c = some t) :
    s.Fills t ∧ t.tempVars = s.tempVars := by
  refine append_last_keeps (P := fun u => s.Fills u ∧ u.tempVars = s.tempVars) ?_ ?_
    ⟨fun r valid => ⟨valid, filled_refl _⟩, rfl⟩ done
  · rintro u start duration irq ⟨fills, temps⟩
    refine ⟨fun r valid => ?_, temps⟩
    obtain ⟨before, filled⟩ := fills r valid
    refine ⟨(valid_modify start _).mpr before, ?_⟩
    by_cases here : r = start
    · subst here
      rw [deref_modify_self _ before]
      exact filled_trans rfl filled
    · rw [deref_modify_ne _ here]
      exact filled
  · exact fun u peu before => before

theorem fills_trans {s t u : State} (first : s.Fills t) (second : t.Fills u) : s.Fills u := by
  intro r valid
  obtain ⟨before, filled⟩ := first r valid
  obtain ⟨after, more⟩ := second r before
  exact ⟨after, filled_trans more filled⟩

theorem fills_push_new (s : State) (e : Entry) :
    s.Fills ((s.alloc e).pushService e.cpu (s.next e.cpu)) ∧
      ((s.alloc e).pushService e.cpu (s.next e.cpu)).tempVars = s.tempVars ∧
      ((s.alloc e).pushService e.cpu (s.next e.cpu)).Valid (s.next e.cpu) ∧
      ((s.alloc e).pushService e.cpu (s.next e.cpu)).deref (s.next e.cpu) = e := by
  have heap : ((s.alloc e).pushService e.cpu (s.next e.cpu)).heap = (s.alloc e).heap := push_service_heap ..
  have temps : ((s.alloc e).pushService e.cpu (s.next e.cpu)).tempVars = s.tempVars := by
    unfold State.pushService State.pushEntry
    split <;> rfl
  simp only [State.Fills, State.Valid, State.deref, heap, temps, true_and]
  refine ⟨fun r before => ⟨valid_alloc before, ?_⟩, valid_next s e, deref_alloc_next s e⟩
  have same := deref_alloc (e := e) before
  simp only [State.deref] at same
  rw [same]
  exact filled_refl _

theorem fills_with_peu {s t : State} {e : Entry} (done : s.pushWithPEU e = some t) :
    s.Fills t ∧ t.tempVars = s.tempVars ∧ t.Valid (s.next e.cpu) ∧ (t.deref (s.next e.cpu)).Filled e := by
  obtain ⟨pushed, same, valid, here⟩ := fills_push_new s e
  obtain ⟨fills, temps⟩ := fills_append_last done
  obtain ⟨after, filled⟩ := fills _ valid
  rw [here] at filled
  exact ⟨fills_trans pushed fills, temps.trans same, after, filled⟩

structure Leaves (s : State) (d : Desk) : Prop where
  temps : d.state.tempVars = s.tempVars
  entries : ∀ r, s.Valid r → (s.deref r).eventType.Temporary → d.state.Valid r ∧ (d.state.deref r).Filled (s.deref r)

theorem leaves_keep {s : State} {a b : Desk} (leaves : Leaves s a) (temps : b.state.tempVars = a.state.tempVars)
    (heap : b.state.heap = a.state.heap) : Leaves s b := by
  refine ⟨temps.trans leaves.temps, ?_⟩
  simpa only [State.Valid, State.deref, heap] using leaves.entries

theorem leaves_modify {s : State} {d : Desk} {r : Ref} {f : Entry → Entry} (leaves : Leaves s d)
    (kept : (d.state.deref r).eventType.Temporary → (f (d.state.deref r)).Filled (d.state.deref r)) :
    Leaves s { d with state := d.state.modify r f } := by
  refine ⟨leaves.temps, fun x valid type => ?_⟩
  obtain ⟨before, filled⟩ := leaves.entries x valid type
  refine ⟨(valid_modify r f).mpr before, ?_⟩
  by_cases here : x = r
  · subst here
    dsimp only
    rw [deref_modify_self f before]
    exact filled_trans (kept (by rw [filled_type filled]; exact type)) filled
  · dsimp only
    rw [deref_modify_ne f here]
    exact filled

theorem leaves_move {e : Entry} {s : State} {a b : Desk} (other : ¬ (Happening.of s e).Tracked)
    (move : Move true e a b) (leaves : Leaves s a) : Leaves s b := by
  cases move with
  | alloc x =>
    refine ⟨leaves.temps, fun r valid type => ?_⟩
    obtain ⟨before, filled⟩ := leaves.entries r valid type
    refine ⟨valid_alloc before, ?_⟩
    dsimp only
    rw [deref_alloc before]
    exact filled
  | relabel r f before =>
    refine leaves_modify leaves fun temporary => ?_
    have opening := before rfl
    rcases temporary with type | ⟨operation, temp, type⟩
    · simp [type, EventType.Opening] at opening
    · simp [type, EventType.Opening] at opening
  | packet r type before =>
    refine leaves_modify leaves fun temporary => ?_
    simp [before, EventType.Temporary] at temporary
  | fill r duration irq => exact leaves_modify leaves fun _ => rfl
  | note v operation type => exact absurd (Or.inr ⟨operation, type⟩) other
  | temps tempVars id type => exact absurd type other
  | push c r =>
    refine leaves_keep leaves ?_ (push_entry_heap ..)
    unfold State.pushEntry
    split <;> rfl
  | pop t elem popped =>
    obtain ⟨rest, _, rfl⟩ := pop_cases popped
    exact leaves_keep leaves rfl rfl
  | store t elem taken stored =>
    obtain ⟨heap, _, _, _, temps, _⟩ := store_keeps stored
    exact leaves_keep leaves temps heap
  | touch => exact leaves_keep leaves rfl rfl
  | last => exact leaves_keep leaves rfl rfl
  | opens => exact leaves_keep leaves rfl rfl
  | extend => exact leaves_keep leaves rfl rfl
  | drop => exact leaves_keep leaves rfl rfl
  | ensure => exact leaves_keep leaves rfl rfl
  | switch => exact leaves_keep leaves rfl rfl
  | peu => exact leaves_keep leaves rfl rfl

theorem leaves_start (s : State) : Leaves s ⟨s, none, false⟩ := ⟨rfl, fun _ valid _ => ⟨valid, filled_refl _⟩⟩

theorem leaves_handle {s t : State} {e : Entry} (sound : Sound true s) (back : RestartsHome s e)
    (other : ¬ (Happening.of s e).Tracked) (done : handleEvent s e = some t) : Leaves s ⟨t, none, false⟩ := by
  by_cases migrate : e.eventType = .migrate
  · simp only [handleEvent, migrate, handleMIGRATE] at done
    split at done
    · exact Option.some.inj done ▸ leaves_start s
    · split at done
      · cases done
      · split at done
        · cases done
        · obtain rfl := Option.some.inj done
          exact leaves_keep (leaves_start s) rfl rfl
  · obtain ⟨switched, moves⟩ := handle_moves (fun _ => ⟨sound, back⟩) migrate done
    have after := moves_keep (fun _ _ => leaves_move other) moves (leaves_start s)
    exact leaves_keep after rfl rfl

structure Recorded (s : State) (history : List Happening) : Prop where
  valid : ∀ h ∈ history, h.Tracked → s.Valid h.ref
  once : ∀ h ∈ history, ∀ h' ∈ history, h.Tracked → h'.Tracked → h.ref = h'.ref → h = h'
  kept : ∀ h ∈ history, h.Tracked → (s.deref h.ref).unlabelled = h.event.unlabelled
  labels : ∀ newer h older operation, history = newer ++ h :: older → h.event.eventType = .sync operation false →
    (s.deref h.ref).eventType = .sync operation (decide (Alive h.event.service older))

structure Remembers (s : State) (history : List Happening) : Prop where
  alive : ∀ v d, Alive v history → declaration v history = some d →
    s.tempVars v = some ⟨d.ref, (operationsSince v history).sum⟩
  dead : ∀ v, ¬ Alive v history → s.tempVars v = none
  users : ∀ d ∈ history, d.event.eventType = .tempsynch → (s.deref d.ref).tempVars = usersOf d history

section Histories
variable {s t : State} {e : Entry} {h : Happening} {history : List Happening}

theorem recorded_temporary (recorded : Recorded s history) (member : h ∈ history) (tracked : h.Tracked) :
    (s.deref h.ref).eventType.Temporary := by
  have kept := congrArg Entry.eventType (recorded.kept h member tracked)
  simp only [Entry.unlabelled] at kept
  rcases tracked with type | ⟨operation, type⟩
  · rw [type] at kept
    cases here : (s.deref h.ref).eventType <;> simp_all [EventType.unlabelled, EventType.Temporary]
  · rw [type] at kept
    cases here : (s.deref h.ref).eventType <;> simp_all [EventType.unlabelled, EventType.Temporary]

theorem recorded_grow (recorded : Recorded s history)
    (old : ∀ r, s.Valid r → (s.deref r).eventType.Temporary → t.Valid r ∧
      (t.deref r).eventType = (s.deref r).eventType ∧ (t.deref r).unlabelled = (s.deref r).unlabelled)
    (new : h.Tracked → ¬ s.Valid h.ref ∧ t.Valid h.ref ∧ (t.deref h.ref).unlabelled = h.event.unlabelled)
    (label : ∀ operation, h.event.eventType = .sync operation false →
      (t.deref h.ref).eventType = .sync operation (decide (Alive h.event.service history))) :
    Recorded t (h :: history) := by
  have stays : ∀ x ∈ history, x.Tracked → _ := fun x member tracked =>
    old x.ref (recorded.valid x member tracked) (recorded_temporary recorded member tracked)
  constructor
  · intro x member tracked
    rcases List.mem_cons.mp member with rfl | before
    · exact (new tracked).2.1
    · exact (stays x before tracked).1
  · intro x member y member' tracked tracked' same
    rcases List.mem_cons.mp member with rfl | before <;> rcases List.mem_cons.mp member' with rfl | before'
    · rfl
    · exact absurd (same ▸ recorded.valid y before' tracked') (new tracked).1
    · exact absurd (same ▸ recorded.valid x before tracked) (new tracked').1
    · exact recorded.once x before y before' tracked tracked' same
  · intro x member tracked
    rcases List.mem_cons.mp member with rfl | before
    · exact (new tracked).2.2
    · exact (stays x before tracked).2.2.trans (recorded.kept x before tracked)
  · intro newer x older operation split type
    cases newer with
    | nil =>
      obtain ⟨rfl, rfl⟩ := List.cons_eq_cons.mp split
      exact label operation type
    | cons first newer =>
      obtain ⟨-, rest⟩ := List.cons_eq_cons.mp split
      have before : x ∈ history := by simp [rest]
      rw [(stays x before (Or.inr ⟨operation, type⟩)).2.1]
      exact recorded.labels newer x older operation rest type

theorem next_invalid (s : State) (c : Fin 2) : ¬ s.Valid (s.next c) := Nat.lt_irrefl _

theorem users_grow (remembers : Remembers s history)
    (old : ∀ d ∈ history, d.event.eventType = .tempsynch → (t.deref d.ref).tempVars = (s.deref d.ref).tempVars ++
      if declaration d.event.service history = some d ∧ Alive d.event.service history
      then (h.user d.event.service).toList else [])
    (new : h.event.eventType = .tempsynch → h ∉ history ∧ (t.deref h.ref).tempVars = []) :
    ∀ d ∈ h :: history, d.event.eventType = .tempsynch → (t.deref d.ref).tempVars = usersOf d (h :: history) := by
  intro d member type
  rcases List.mem_cons.mp member with rfl | before
  · obtain ⟨absent, empty⟩ := new type
    have unfound : ¬ (declaration d.event.service history = some d ∧ Alive d.event.service history) :=
      fun found => absent (declaration_mem found.1).1
    rw [empty, usersOf, users_of_absent absent, if_neg unfound]
    rfl
  · rw [old d before type, remembers.users d before type, usersOf]

theorem user_none (idle : ∀ v, h.operates v = none) (v : String) : h.user v = none := by
  unfold Happening.user
  rw [idle v]
  cases h.inside <;> rfl

theorem remembers_other (sound : Sound true s) (back : RestartsHome s e) (recorded : Recorded s history)
    (remembers : Remembers s history) (other : ¬ (Happening.of s e).Tracked) (done : handleEvent s e = some t) :
    Recorded t (.of s e :: history) ∧ Remembers t (.of s e :: history) := by
  have leaves := leaves_handle sound back other done
  have undeclared : ∀ v, ¬ (Happening.of s e).Declares v := fun v declares => other (Or.inl declares.1)
  have idle : ∀ v, (Happening.of s e).operates v = none := by
    intro v
    unfold Happening.operates
    split
    · next operation type => exact absurd (Or.inr ⟨operation, type⟩) other
    · rfl
  refine ⟨recorded_grow recorded (fun r valid type => ?_) (fun tracked => absurd tracked other)
    (fun operation type => absurd (Or.inr ⟨operation, type⟩) other), fun v d alive declared => ?_, fun v dead => ?_,
    users_grow remembers (fun d member type => ?_) fun type => absurd (Or.inl type) other⟩
  · obtain ⟨after, filled⟩ := leaves.entries r valid type
    exact ⟨after, filled_type filled, filled_unlabelled filled⟩
  · obtain ⟨same, since, iff⟩ := alive_other history (undeclared v) (idle v)
    rw [leaves.temps, since]
    exact remembers.alive v d (iff.mp alive) (same ▸ declared)
  · obtain ⟨_, _, iff⟩ := alive_other history (undeclared v) (idle v)
    rw [leaves.temps]
    exact remembers.dead v fun alive => dead (iff.mpr alive)
  · obtain ⟨_, filled⟩ := leaves.entries d.ref (recorded.valid d member (Or.inl type))
      (recorded_temporary recorded member (Or.inl type))
    rw [filled_users filled, user_none idle]
    simp

theorem remembers_tempsynch (recorded : Recorded s history) (remembers : Remembers s history)
    (type : e.eventType = .tempsynch) (fresh : e.tempVars = []) (done : handleTEMPSYNCH s e = some t) :
    Recorded t (.of s e :: history) ∧ Remembers t (.of s e :: history) := by
  obtain rfl := Option.some.inj done
  obtain ⟨fills, temps, valid, here⟩ := fills_push_new s { e with tempVarId := s.tempVarId }
  have fills : s.Fills _ := fills
  have undeclared : ∀ v, v ≠ e.service → ¬ (Happening.of s e).Declares v := fun v other declares =>
    other declares.2.symm
  have idle : ∀ v, (Happening.of s e).operates v = none := by
    intro v
    simp [Happening.operates, Happening.of, type]
  have declares : (Happening.of s e).Declares e.service := ⟨type, rfl⟩
  refine ⟨recorded_grow recorded (fun r before _ => ?_) (fun _ => ⟨next_invalid s e.cpu, valid, ?_⟩)
    (fun operation sync => ?_), fun v d alive declared => ?_, fun v dead => ?_,
    users_grow remembers (fun d member declared => ?_) fun _ => ⟨fun member => ?_, ?_⟩⟩
  · obtain ⟨after, filled⟩ := fills r before
    exact ⟨after, filled_type filled, filled_unlabelled filled⟩
  · exact (congrArg Entry.unlabelled here).trans rfl
  · exact absurd (type.symm.trans sync) (by simp)
  · by_cases same : v = e.service
    · subst same
      rw [declaration, if_pos declares] at declared
      obtain rfl := Option.some.inj declared
      rw [operationsSince, if_pos declares]
      exact Function.update_self ..
    · obtain ⟨known, since, iff⟩ := alive_other history (undeclared v same) (idle v)
      rw [since]
      refine (Function.update_of_ne same ..).trans ((congrFun temps v).trans ?_)
      exact remembers.alive v d (iff.mp alive) (known ▸ declared)
  · by_cases same : v = e.service
    · subst same
      exact absurd (alive_declared declares) dead
    · obtain ⟨_, _, iff⟩ := alive_other history (undeclared v same) (idle v)
      refine (Function.update_of_ne same ..).trans ((congrFun temps v).trans ?_)
      exact remembers.dead v fun alive => dead (iff.mpr alive)
  · obtain ⟨_, filled⟩ := fills d.ref (recorded.valid d member (Or.inl declared))
    rw [user_none idle]
    refine (filled_users filled).trans ?_
    simp
  · exact next_invalid s e.cpu (recorded.valid _ member (Or.inl type))
  · exact (congrArg Entry.tempVars here).trans fresh

theorem of_operates {operation : Sync} (type : e.eventType = .sync operation false) (v : String) :
    (Happening.of s e).operates v = if e.service = v then some operation.value else none := by
  have here : (Happening.of s e).event.eventType = .sync operation false := type
  unfold Happening.operates
  rw [here]
  rfl

theorem remembers_operation {operation : Sync} (recorded : Recorded s history) (remembers : Remembers s history)
    (type : e.eventType = .sync operation false)
    (old : ∀ r, s.Valid r → t.Valid r ∧ (t.deref r).eventType = (s.deref r).eventType ∧
      (t.deref r).unlabelled = (s.deref r).unlabelled)
    (new : t.Valid (s.next e.cpu) ∧ (t.deref (s.next e.cpu)).Filled
      { e with eventType := .sync operation (decide (Alive e.service history)) })
    (others : ∀ w, w ≠ e.service → t.tempVars w = s.tempVars w)
    (alive : ∀ d, Alive e.service history → declaration e.service history = some d → t.tempVars e.service =
      if operation.value + (operationsSince e.service history).sum = 0 then none
      else some ⟨d.ref, operation.value + (operationsSince e.service history).sum⟩)
    (dead : ¬ Alive e.service history → t.tempVars e.service = none)
    (users : ∀ d ∈ history, d.event.eventType = .tempsynch → (t.deref d.ref).tempVars = (s.deref d.ref).tempVars ++
      if declaration d.event.service history = some d ∧ Alive d.event.service history
      then ((Happening.of s e).user d.event.service).toList else []) :
    Recorded t (.of s e :: history) ∧ Remembers t (.of s e :: history) := by
  have operates : (Happening.of s e).operates e.service = some operation.value := by rw [of_operates type, if_pos rfl]
  have undeclared : ∀ w, ¬ (Happening.of s e).Declares w := fun w declares => by
    have here : e.eventType = .tempsynch := declares.1
    simp [type] at here
  have idle : ∀ w, w ≠ e.service → (Happening.of s e).operates w = none := fun w other => by
    rw [of_operates type, if_neg (Ne.symm other)]
  obtain ⟨valid, filled⟩ := new
  obtain ⟨known, since, iff⟩ := alive_operated history operates
  refine ⟨recorded_grow recorded (fun r before _ => old r before) (fun _ => ⟨next_invalid s e.cpu, valid, ?_⟩)
    (fun marked same => ?_), fun w d lives declared => ?_, fun w gone => ?_,
    users_grow remembers users fun declares => absurd (type.symm.trans declares) (by simp)⟩
  · refine (filled_unlabelled filled).trans ?_
    simp [Happening.of, Entry.unlabelled, EventType.unlabelled, type]
  · obtain rfl : operation = marked := by
      have both : EventType.sync operation false = .sync marked false := type.symm.trans same
      simpa using both
    exact filled_type filled
  · by_cases same : w = e.service
    · subst same
      obtain ⟨before, total⟩ := iff.mp lives
      rw [known] at declared
      rw [alive d before declared, if_neg total, since, List.sum_cons]
    · obtain ⟨known, since, iff⟩ := alive_other history (undeclared w) (idle w same)
      rw [others w same, since]
      exact remembers.alive w d (iff.mp lives) (known ▸ declared)
  · by_cases same : w = e.service
    · subst same
      by_cases before : Alive e.service history
      · obtain ⟨d, declared⟩ := Option.isSome_iff_exists.mp before.1
        have total : operation.value + (operationsSince e.service history).sum = 0 :=
          not_not.mp fun total => gone (iff.mpr ⟨before, total⟩)
        rw [alive d before declared, if_pos total]
      · exact dead before
    · obtain ⟨_, _, iff⟩ := alive_other history (undeclared w) (idle w same)
      rw [others w same]
      exact remembers.dead w fun lives => gone (iff.mpr lives)

theorem alive_of_known {v : TempVar} {w : String} (remembers : Remembers s history) (known : s.tempVars w = some v) :
    Alive w history ∧ ∃ d, declaration w history = some d ∧ v = ⟨d.ref, (operationsSince w history).sum⟩ := by
  have alive : Alive w history := by
    by_contra gone
    rw [remembers.dead w gone] at known
    cases known
  obtain ⟨d, declared⟩ := Option.isSome_iff_exists.mp alive.1
  have same := remembers.alive w d alive declared
  exact ⟨alive, d, declared, Option.some.inj (known.symm.trans same)⟩

theorem dead_of_unknown {w : String} (remembers : Remembers s history) (unknown : s.tempVars w = none) :
    ¬ Alive w history := by
  intro alive
  obtain ⟨d, declared⟩ := Option.isSome_iff_exists.mp alive.1
  have known := remembers.alive w d alive declared
  rw [unknown] at known
  cases known

theorem remembers_plain_sync {operation : Sync} (recorded : Recorded s history) (remembers : Remembers s history)
    (type : e.eventType = .sync operation false) (unknown : s.tempVars e.service = none)
    (done : s.pushWithPEU e = some t) : Recorded t (.of s e :: history) ∧ Remembers t (.of s e :: history) := by
  obtain ⟨fills, temps, valid, here⟩ := fills_with_peu done
  have dead := dead_of_unknown remembers unknown
  have unmarked : { e with eventType := .sync operation (decide (Alive e.service history)) } = e := by
    simp [dead, ← type]
  refine remembers_operation recorded remembers type (fun r before => ?_) ⟨valid, unmarked ▸ here⟩
    (fun w _ => congrFun temps w) (fun d alive => absurd alive dead) (fun _ => (congrFun temps _).trans unknown)
    fun d member declares => ?_
  · obtain ⟨after, filled⟩ := fills r before
    exact ⟨after, filled_type filled, filled_unlabelled filled⟩
  · obtain ⟨_, filled⟩ := fills d.ref (recorded.valid d member (Or.inl declares))
    rw [filled_users filled]
    split
    · next alive =>
      have other : e.service ≠ d.event.service := fun same => dead (same ▸ alive.2)
      have idle : (Happening.of s e).operates d.event.service = none := by rw [of_operates type, if_neg other]
      simp [Happening.user, idle]
    · simp

theorem note_user (s : State) (c : Fin 2) (v : TempVar) (operation : Sync) (valid : s.Valid v.entry) :
    (s.noteUser c v operation).tempVars = s.tempVars ∧ (s.noteUser c v operation).next = s.next ∧
    (∀ r, s.Valid r → (s.noteUser c v operation).Valid r ∧
      ((s.noteUser c v operation).deref r).eventType = (s.deref r).eventType ∧
      ((s.noteUser c v operation).deref r).unlabelled = (s.deref r).unlabelled ∧
      ((s.noteUser c v operation).deref r).tempVars = (s.deref r).tempVars ++
        if r = v.entry then ((s.currentStack c).head?.map fun top => ⟨top.name, operation.value⟩).toList else []) := by
  unfold State.noteUser
  split
  · next empty =>
    refine ⟨rfl, rfl, fun r before => ⟨before, rfl, rfl, ?_⟩⟩
    simp [empty]
  · next top rest full =>
    refine ⟨rfl, ?_, fun r before => ⟨(valid_modify _ _).mpr before, ?_⟩⟩
    · funext c
      unfold State.next State.modify
      by_cases same : c = v.entry.cpu
      · subst same
        simp
      · simp [same]
    · by_cases same : r = v.entry
      · subst same
        rw [deref_modify_self _ valid, if_pos rfl]
        exact ⟨rfl, rfl, by simp [full]⟩
      · rw [deref_modify_ne _ same, if_neg same]
        exact ⟨rfl, rfl, by simp⟩

theorem remembers_marked_sync {operation : Sync} {v : TempVar} (recorded : Recorded s history)
    (remembers : Remembers s history) (type : e.eventType = .sync operation false)
    (known : s.tempVars e.service = some v)
    (done : ((s.touch e.cpu).noteUser e.cpu v operation).pushWithPEU { e with eventType := .sync operation true } = some t) :
    Recorded (t.countTempVar e.service v operation) (.of s e :: history) ∧
      Remembers (t.countTempVar e.service v operation) (.of s e :: history) := by
  obtain ⟨alive, d, declared, rfl⟩ := alive_of_known remembers known
  obtain ⟨member, declares⟩ := declaration_mem declared
  have there := recorded.valid d member (Or.inl declares.1)
  obtain ⟨untouched, next, noted⟩ := note_user (s.touch e.cpu) e.cpu
    ⟨d.ref, (operationsSince e.service history).sum⟩ operation there
  obtain ⟨fills, temps, valid, here⟩ := fills_with_peu done
  have current : (s.touch e.cpu).currentStack e.cpu = s.currentStack e.cpu := by simp [State.currentStack]
  rw [next] at valid here
  refine remembers_operation recorded remembers type (fun r before => ?_) ⟨valid, ?_⟩ (fun w other => ?_)
    (fun d' _ known => ?_) (fun dead => absurd alive dead) fun d' member' declares' => ?_
  · obtain ⟨between, kind, label, -⟩ := noted r before
    obtain ⟨after, filled⟩ := fills r between
    exact ⟨after, (filled_type filled).trans kind, (filled_unlabelled filled).trans label⟩
  · rw [decide_eq_true alive]
    exact here
  · refine (Function.update_of_ne other ..).trans ?_
    rw [temps, untouched]
    rfl
  · obtain rfl : d = d' := Option.some.inj (declared.symm.trans known)
    refine (Function.update_self ..).trans ?_
    rw [Int.add_comm]
  · obtain ⟨between, -, -, users⟩ := noted d'.ref (recorded.valid d' member' (Or.inl declares'))
    obtain ⟨after, filled⟩ := fills d'.ref between
    refine (filled_users filled).trans (users.trans (congrArg _ ?_))
    rw [current]
    by_cases same : d' = d
    · subst same
      rw [if_pos rfl, declares.2, if_pos ⟨declared, alive⟩]
      unfold Happening.user
      rw [of_operates type, if_pos rfl]
      unfold Happening.of
      cases s.currentStack e.cpu <;> rfl
    · have apart : d'.ref ≠ d.ref := fun both =>
        same (recorded.once d' member' d member (Or.inl declares') (Or.inl declares.1) both)
      rw [if_neg apart]
      split
      · next found =>
        have other : e.service ≠ d'.event.service := by
          intro both
          rw [← both, declared] at found
          exact same (Option.some.inj found.1).symm
        have idle : (Happening.of s e).operates d'.event.service = none := by rw [of_operates type, if_neg other]
        simp [Happening.user, idle]
      · rfl

theorem remembers_sync {operation : Sync} (recorded : Recorded s history) (remembers : Remembers s history)
    (type : e.eventType = .sync operation false) (done : handleSync s e operation = some t) :
    Recorded t (.of s e :: history) ∧ Remembers t (.of s e :: history) := by
  unfold handleSync at done
  split at done
  · next forgotten => exact remembers_plain_sync recorded remembers type forgotten done
  · next v known =>
    obtain ⟨u, pushed, rfl⟩ := Option.map_eq_some_iff.mp done
    exact remembers_marked_sync recorded remembers type known pushed

theorem remembers_handle (sound : Sound true s) (back : RestartsHome s e) (recorded : Recorded s history)
    (remembers : Remembers s history) (fresh : e.tempVars = []) (done : handleEvent s e = some t) :
    Recorded t (.of s e :: history) ∧ Remembers t (.of s e :: history) := by
  by_cases tracked : (Happening.of s e).Tracked
  · rcases tracked with type | ⟨operation, type⟩
    · have type : e.eventType = .tempsynch := type
      simp only [handleEvent, type] at done
      exact remembers_tempsynch recorded remembers type fresh done
    · have type : e.eventType = .sync operation false := type
      simp only [handleEvent, type] at done
      exact remembers_sync recorded remembers type done
  · exact remembers_other sound back recorded remembers tracked done

theorem remembers_congr (heap : t.heap = s.heap) (temps : t.tempVars = s.tempVars)
    (both : Recorded s history ∧ Remembers s history) : Recorded t history ∧ Remembers t history := by
  obtain ⟨⟨valid, once, kept, labels⟩, ⟨alive, dead, users⟩⟩ := both
  simp only [State.Valid, State.deref, ← heap, ← temps] at valid kept labels alive dead users
  exact ⟨⟨valid, once, kept, labels⟩, ⟨alive, dead, users⟩⟩

theorem remembers_nothing (none : s.tempVars = fun _ => none) : Recorded s [] ∧ Remembers s [] := by
  refine ⟨⟨by simp, by simp, by simp, by simp⟩, fun v d alive => ?_, fun v _ => congrFun none v, by simp⟩
  exact absurd alive.1 (by simp [declaration])

end Histories

theorem fresh_of_entry {r : Run} {l : Line} {e : Entry} (made : r.entryOf l = some e) : e.tempVars = [] := by
  cases l with
  | columns f =>
    simp only [Run.entryOf, bind] at made
    split at made
    · cases made
    · simp only [Option.bind_eq_some_iff] at made
      obtain ⟨cpu, -, rest⟩ := made
      split at rest
      · cases rest
      · simp only [Option.bind_eq_some_iff] at rest
        obtain ⟨_, _, _, _, _, _, _, _, eq⟩ := rest
        rw [← Option.some.inj eq]
        rfl
  | eod => cases made
  | idQueue => cases made
  | idSynch => cases made
  | short => cases made
  | panics => cases made

theorem remembers_line {r t : Run} {l : Line} {history : List Happening} (sound : Sound true r.state)
    (home : HomeLine r l) (both : Recorded r.state history ∧ Remembers r.state history) (done : r.line l = some t) :
    Recorded t.state (r.hears history l) ∧ Remembers t.state (r.hears history l) := by
  unfold Run.hears
  rcases line_effect done with ⟨e, made, handled⟩ | ⟨_, rfl, going, reset⟩ | ⟨none, other, addr, synch, same⟩
  · have heard : ¬ (l = .eod ∧ r.returned = false) := by
      rintro ⟨rfl, -⟩
      cases made
    rw [if_neg heard, made]
    obtain ⟨recorded, remembers⟩ := remembers_congr (s := r.state) (t := r.state.measureLocation e.location) rfl rfl both
    exact remembers_handle (s := r.state.measureLocation e.location) (sound_measure sound _) (home e made) recorded
      remembers (fresh_of_entry made) handled
  · rw [if_pos ⟨rfl, going⟩, reset]
    exact remembers_nothing rfl
  · rw [if_neg other, none]
    exact remembers_congr (by rw [same]) (by rw [same]) both

theorem remembers_run {ls : List Line} {r t : Run} {history : List Happening} (sound : Sound true r.state)
    (home : TransitionRuns.Guarded Run.line HomeLine r ls)
    (both : Recorded r.state history ∧ Remembers r.state history) (done : r.lines ls = some t) :
    Recorded t.state (r.history history ls) ∧ Remembers t.state (r.history history ls) := by
  induction ls generalizing r history with
  | nil => exact Option.some.inj done ▸ both
  | cons l ls ih =>
    simp only [Run.lines, List.foldlM_cons, bind, Option.bind_eq_some_iff] at done
    obtain ⟨u, first, rest⟩ := done
    rw [Run.history, first]
    exact ih (sound_line sound (fun _ => home.1) first) (home.2 u first) (remembers_line sound home.1 both first) rest

/-- In the segment that is going on after any lines, as long as no loop is started again on another CPU
    than it began on, an operation is marked exactly when its variable was alive, and the list of a
    declaration has the operations marked on its behalf inside a service, in order. -/
theorem temporary_labels {file : List String} {r : Run}
    (home : TransitionRuns.Guarded Run.line HomeLine .initial (file.map lexLine)) (done : run file = some r) :
    (∀ newer h older operation, Run.initial.history [] (file.map lexLine) = newer ++ h :: older →
      h.event.eventType = .sync operation false → (r.state.deref h.ref).unlabelled = h.event.unlabelled ∧
        ∃ temp, (r.state.deref h.ref).eventType = .sync operation temp ∧
          (temp = true ↔ Alive h.event.service older)) ∧
    ∀ d ∈ Run.initial.history [] (file.map lexLine), d.event.eventType = .tempsynch →
      (r.state.deref d.ref).unlabelled = d.event.unlabelled ∧
        (r.state.deref d.ref).tempVars = usersOf d (Run.initial.history [] (file.map lexLine)) := by
  obtain ⟨recorded, remembers⟩ := remembers_run sound_initial home (remembers_nothing rfl) done
  refine ⟨fun newer h older operation split type => ⟨?_, _, recorded.labels newer h older operation split type, by simp⟩,
    fun d member type => ⟨recorded.kept d member (Or.inl type), remembers.users d member type⟩⟩
  exact recorded.kept h (by simp [split]) (Or.inr ⟨operation, type⟩)

def usedCompletion : List String :=
  ["CTXSW 0 1 1 1 2 0 0 a", "SRVENTRY 0 2 2 0 0 0 f a", "TEMPSYNCH 0 2 3 0 0 0 v a", "COMPL 0 2 4 0 0 0 v a",
   "WAITCOMPL 0 2 5 0 0 0 v a", "COMPL 0 2 6 0 0 0 v a"]

theorem temporary_labels_used : ∃ r, run usedCompletion = some r ∧
    ∃ d ∈ Run.initial.history [] (usedCompletion.map lexLine),
      (r.state.deref d.ref).tempVars = [⟨"f", 1⟩, ⟨"f", -1⟩] := by
  obtain ⟨r, done⟩ := Option.isSome_iff_exists.mp (by decide +kernel : (run usedCompletion).isSome)
  obtain ⟨-, lists⟩ := temporary_labels (by decide +kernel) done
  obtain ⟨d, member, type, users⟩ : ∃ d ∈ Run.initial.history [] (usedCompletion.map lexLine),
      d.event.eventType = .tempsynch ∧
        usersOf d (Run.initial.history [] (usedCompletion.map lexLine)) = [⟨"f", 1⟩, ⟨"f", -1⟩] := by decide +kernel
  exact ⟨r, done, d, member, (lists d member type).2.trans users⟩

def migratedCompletion : List String :=
  ["CTXSW 0 1 1 1 2 0 0 a", "CTXSW 1 1 2 1 3 0 0 a", "SRVENTRY 0 2 3 0 0 0 f a", "TEMPSYNCH 0 2 4 0 0 0 v a",
   "LOOPSTART 0 2 5 0 0 0 b a", "CTXSW 0 2 6 2 4 0 0 a", "MIGRATE 0 4 7 2 1 0 0 0", "CTXSW 1 3 8 3 2 0 0 a",
   "LOOPRSTART 1 2 9 0 0 0 b a", "COMPL 1 2 10 0 0 0 v a", "LOOPRSTART 1 2 11 0 0 0 b a"]

/-- The first restart leaves an element without entries on CPU 1. The completion, whose variable is alive,
    becomes its first entry, and the second restart writes LOOPSTART over its label. -/
theorem restart_hides_a_completion : ∃ r, run migratedCompletion = some r ∧
    ∃ newer h older, Run.initial.history [] (migratedCompletion.map lexLine) = newer ++ h :: older ∧
      h.event.eventType = .sync .compl false ∧ Alive h.event.service older ∧
        (r.state.deref h.ref).eventType = .loopstart := by
  exact ⟨_, rfl, (Run.initial.history [] (migratedCompletion.map lexLine)).take 1, _, _, rfl, by decide +kernel⟩

end Analyse
