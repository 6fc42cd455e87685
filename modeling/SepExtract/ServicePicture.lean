import SepExtract.AnalysePeu

/- What the stacks and the stored instances of the analyser stand for: brackets open in the
   words of the LEUs, with the events at their own level, and services that were closed. Each
   handler is a small change of that picture, whatever the heap looks like. -/
namespace Analyse
open Nesting

def bracketName : Kind → Entry → String
  | .service, e => e.service
  | .irq, e => irqService e.pid1
  | .loop, e => e.location

def bracketEntries (p : Pair Kind Entry) : List Entry := p.opening :: (p.items ++ [p.closing])

def isService (p : Pair Kind Entry) (n : String) : Bool :=
  decide (p.kind ≠ .loop ∧ bracketName p.kind p.opening = n)

def completed (w : List (Sym Kind Entry)) (n : String) : List (List Entry) :=
  ((scan shown w).pairs.filter fun p => isService p n).map bracketEntries

def loopIteration (es : List Entry) : Bool := decide (es.head?.map Entry.eventType = some .loopstart)

def State.services (s : State) (l : LEU) (n : String) : List (List Entry) :=
  ((s.instances l n).map fun i => i.entries.map s.view).filter fun es => !loopIteration es

/-- An element of a service stack and the open bracket it stands for; of a loop only the
    iteration in progress is kept. -/
structure FrameTracks (view : Ref → Entry) (elem : ServiceStackElement) (f : Frame Kind Entry) : Prop where
  name : elem.name = bracketName f.kind f.opening
  loop : f.kind = .loop → ∃ h t, elem.entries = h :: t ∧ (view h).eventType.InLoop
  service : f.kind ≠ .loop → elem.entries.map view = f.opening :: f.items ∧ ¬ f.opening.eventType.InLoop

/-- Loops outside all services are not on the stack. -/
def StackTracks (view : Ref → Entry) (stack : List ServiceStackElement) (st : List (Frame Kind Entry)) :
    Prop :=
  ∃ fs below, st = fs ++ below ∧ (∀ f ∈ below, f.kind = .loop) ∧ List.Forall₂ (FrameTracks view) stack fs

section Stacks
variable {view : Ref → Entry} {stack rest : List ServiceStackElement} {st : List (Frame Kind Entry)}
  {elem : ServiceStackElement} {f : Frame Kind Entry} {r : Ref} {a : Entry}

theorem note_loops {items : List Entry} {below : List (Frame Kind Entry)}
    (loops : ∀ f ∈ below, f.kind = .loop) : ∀ f ∈ note items below, f.kind = .loop := by
  cases below with
  | nil => exact loops
  | cons g below =>
    intro f member
    rcases List.mem_cons.mp member with rfl | member
    · exact loops g (List.mem_cons_self ..)
    · exact loops f (List.mem_cons_of_mem g member)

theorem frame_note (tracks : FrameTracks view elem f) (seen : view r = a) :
    FrameTracks view { elem with entries := elem.entries ++ [r] } { f with items := f.items ++ [a] } := by
  constructor
  · exact tracks.name
  · intro kind
    obtain ⟨h, t, entries, type⟩ := tracks.loop kind
    exact ⟨h, t ++ [r], by simp [entries], type⟩
  · intro kind
    obtain ⟨entries, type⟩ := tracks.service kind
    exact ⟨by simp [entries, seen], type⟩

theorem stack_note (tracks : StackTracks view stack st) (seen : view r = a) :
    StackTracks view (appendTop r stack) (note [a] st) := by
  obtain ⟨fs, below, rfl, loops, frames⟩ := tracks
  cases frames with
  | nil => exact ⟨[], note [a] below, rfl, note_loops loops, .nil⟩
  | cons first others =>
    exact ⟨_ :: _, below, rfl, loops, .cons (frame_note first seen) others⟩

theorem stack_open (tracks : StackTracks view stack st) (first : FrameTracks view elem f) :
    StackTracks view (elem :: stack) (f :: st) := by
  obtain ⟨fs, below, rfl, loops, frames⟩ := tracks
  exact ⟨f :: fs, below, rfl, loops, .cons first frames⟩

theorem frame_open {k : Kind} {name : String} (seen : view r = a) (named : name = bracketName k a)
    (type : a.eventType.InLoop ↔ k = .loop) : FrameTracks view ⟨name, [r], []⟩ ⟨k, a, []⟩ where
  name := named
  loop kind := ⟨r, [], rfl, by rw [seen]; exact type.mpr kind⟩
  service kind := ⟨by simp [seen], fun loop => kind (type.mp loop)⟩

theorem stack_close (tracks : StackTracks view (elem :: rest) st) :
    ∃ f st', st = f :: st' ∧ FrameTracks view elem f ∧ StackTracks view rest st' := by
  obtain ⟨fs, below, rfl, loops, frames⟩ := tracks
  cases frames with
  | @cons _ f _ fs first others => exact ⟨f, fs ++ below, rfl, first, fs, below, rfl, loops, others⟩

theorem stack_empty (tracks : StackTracks view [] st) : ∀ f ∈ st, f.kind = .loop := by
  obtain ⟨fs, below, rfl, loops, frames⟩ := tracks
  cases frames
  exact loops

theorem stack_view {view' : Ref → Entry} (tracks : StackTracks view stack st)
    (same : ∀ elem ∈ stack, ∀ r ∈ elem.entries, view' r = view r) : StackTracks view' stack st := by
  obtain ⟨fs, below, rfl, loops, frames⟩ := tracks
  refine ⟨fs, below, rfl, loops, ?_⟩
  induction frames with
  | nil => exact .nil
  | @cons elem f stack fs first others ih =>
    refine .cons ⟨first.name, fun kind => ?_, fun kind => ?_⟩
      (ih fun e member => same e (List.mem_cons_of_mem elem member))
    · obtain ⟨h, t, entries, type⟩ := first.loop kind
      exact ⟨h, t, entries, by rw [same elem (List.mem_cons_self ..) h (by simp [entries])]; exact type⟩
    · obtain ⟨entries, type⟩ := first.service kind
      refine ⟨?_, type⟩
      rw [← entries]
      exact List.map_congr_left (same elem (List.mem_cons_self ..))

end Stacks

def State.keyed (s : State) (c : Fin 2) (l : LEU) : Bool := ((s.serviceStack c).bind fun m => m l).isSome

/-- What the stacks and the stored instances stand for: the running LEU and those it
    interrupted, the open brackets of each LEU, the services it has completed, whether it
    has opened any, and the LEUs that have an entry. -/
structure Picture where
  current : LEU
  interrupted : List LEU
  stack : LEU → List (Frame Kind Entry)
  done : LEU → String → List (List Entry)
  opened : LEU → Bool
  known : LEU → Prop

def Picture.setStack (p : Picture) (st : List (Frame Kind Entry)) : Picture :=
  { p with stack := Function.update p.stack p.current st }

def Picture.mark (p : Picture) : Picture := { p with opened := Function.update p.opened p.current true }

def Picture.finish (p : Picture) (n : String) (es : List Entry) : Picture :=
  let done := Function.update (p.done p.current) n (p.done p.current n ++ [es])
  { p with done := Function.update p.done p.current done }

@[simp] theorem set_stack_current (p : Picture) (st : List (Frame Kind Entry)) :
    (p.setStack st).current = p.current := rfl

@[simp] theorem set_stack_stack (p : Picture) (st : List (Frame Kind Entry)) :
    (p.setStack st).stack p.current = st := by
  simp [Picture.setStack]

@[simp] theorem set_stack_again (p : Picture) (st st' : List (Frame Kind Entry)) :
    (p.setStack st).setStack st' = p.setStack st' := by
  simp [Picture.setStack]

structure Tracks (c : Fin 2) (p : Picture) (s : State) : Prop where
  current : s.currentLEU c = p.current
  interrupted : s.interrupted = p.interrupted
  frames : ∀ l, StackTracks s.view (s.stackOf c l) (p.stack l)
  stored : ∀ l n, s.services l n = p.done l n
  known : ∀ l, p.known l → (s.leus l).isSome
  last : p.current ≠ .nobody → s.lastAppended.isSome
  keys : ∀ c' l, s.keyed c' l → c' = c ∧ p.opened l = true

theorem services_congr {s t : State} {l : LEU} {n : String} (instances : t.instances l n = s.instances l n)
    (view : ∀ i ∈ s.instances l n, ∀ r ∈ i.entries, t.view r = s.view r) :
    t.services l n = s.services l n := by
  unfold State.services
  rw [instances]
  congr 1
  exact List.map_congr_left fun i member => List.map_congr_left (view i member)

section Keys
variable (s : State) (c c' : Fin 2) (l : LEU)

@[simp] theorem keyed_alloc (e : Entry) : (s.alloc e).keyed c l = s.keyed c l := rfl

@[simp] theorem keyed_touch : (s.touch c').keyed c l = s.keyed c l := by
  unfold State.keyed State.touch
  by_cases same : c = c'
  · subst same
    cases s.serviceStack c <;> simp
  · simp [same]

theorem keyed_set (stack : List ServiceStackElement) :
    (s.setCurrentStack c' stack).keyed c l =
      (s.keyed c l || decide (c = c' ∧ l = s.currentLEU c')) := by
  unfold State.keyed State.setCurrentStack
  by_cases same : c = c'
  · subst same
    by_cases current : l = s.currentLEU c
    · simp [current]
    · cases s.serviceStack c <;> simp [current]
  · simp [same]

theorem keyed_of_stack {top : ServiceStackElement} {rest : List ServiceStackElement}
    (full : s.stackOf c l = top :: rest) : s.keyed c l = true := by
  unfold State.stackOf at full
  unfold State.keyed
  cases key : (s.serviceStack c).bind fun m => m l with
  | none => simp [key] at full
  | some => rfl

@[simp] theorem keyed_push_entry (r : Ref) : (s.pushEntry c' r).keyed c l = s.keyed c l := by
  unfold State.pushEntry
  split
  · rfl
  · rename_i top rest full
    refine Eq.trans (keyed_set s c c' l _) ?_
    by_cases here : c = c' ∧ l = s.currentLEU c'
    · obtain ⟨rfl, rfl⟩ := here
      simp [keyed_of_stack s c (s.currentLEU c) full]
    · simp [here]

@[simp] theorem keyed_push_service (r : Ref) : (s.pushService c' r).keyed c l = s.keyed c l := by
  refine Eq.trans (keyed_push_entry (s.touch c') c c' l r) ?_
  exact keyed_touch s c c' l

theorem keyed_open_service (e : Entry) (name : String) :
    (s.openService c' e name).keyed c l = (s.keyed c l || decide (c = c' ∧ l = s.currentLEU c')) := by
  simp only [State.openService, keyed_push_service, keyed_alloc, keyed_set]

end Keys

structure Extends (s t : State) : Prop where
  peu : t.currentPEU = s.currentPEU
  valid : ∀ r, s.Valid r → t.Valid r
  view : ∀ r, s.Valid r → ¬ (s.view r).eventType.InLoop → t.view r = s.view r

theorem Extends.trans {s t u : State} (first : Extends s t) (second : Extends t u) : Extends s u where
  peu := second.peu.trans first.peu
  valid r valid := second.valid r (first.valid r valid)
  view r valid type := by
    have same := first.view r valid type
    rw [second.view r (first.valid r valid) (by rw [same]; exact type), same]

theorem extends_of_heap {s t : State} (heap : t.heap = s.heap) (peu : t.currentPEU = s.currentPEU) :
    Extends s t where
  peu := peu
  valid r valid := by simpa [State.Valid, heap] using valid
  view r _ _ := by rw [view_of_heap heap]

theorem view_alloc {s : State} {e : Entry} {r : Ref} (valid : s.Valid r) : (s.alloc e).view r = s.view r := by
  unfold State.view
  rw [deref_alloc valid]

theorem view_alloc_next (s : State) (e : Entry) : (s.alloc e).view (s.next e.cpu) = e.unlabelled := by
  unfold State.view
  rw [deref_alloc_next]

theorem extends_alloc (s : State) (e : Entry) : Extends s (s.alloc e) where
  peu := rfl
  valid _ valid := valid_alloc valid
  view _ valid _ := view_alloc valid

theorem extends_modify {s : State} {r : Ref} (f : Entry → Entry) (type : (s.view r).eventType.InLoop) :
    Extends s (s.modify r f) where
  peu := rfl
  valid _ valid := (valid_modify r f).mpr valid
  view x _ other := by
    have apart : x ≠ r := by
      rintro rfl
      exact other type
    unfold State.view
    rw [deref_modify_ne f apart]

theorem quiet_extend {s t : State} (quiet : Quiet s) (extends_ : Extends s t) : Quiet t :=
  quiet_keep quiet extends_.peu extends_.valid extends_.view

section Steps
variable {c : Fin 2} {p : Picture} {s t : State}

theorem tracks_view (tracks : Tracks c p s) (leu : t.currentLEU = s.currentLEU)
    (frames : ∀ c l, t.stackOf c l = s.stackOf c l) (keys : ∀ c l, t.keyed c l = s.keyed c l)
    (interrupted : t.interrupted = s.interrupted) (leus : t.leus = s.leus)
    (last : t.lastAppended = s.lastAppended)
    (view : ∀ q r, r ∈ s.held q → t.view r = s.view r) : Tracks c p t where
  current := by rw [leu]; exact tracks.current
  interrupted := by rw [interrupted]; exact tracks.interrupted
  frames l := by
    rw [frames]
    refine stack_view (tracks.frames l) fun elem member r inside => ?_
    obtain ⟨d, held⟩ := held_of_frame member inside
    exact view _ r held
  stored l n := by
    rw [← tracks.stored l n]
    refine services_congr (by simp [State.instances, leus]) fun i member r inside => ?_
    obtain ⟨k, held⟩ := held_of_instance member inside
    exact view _ r held
  known := by rw [leus]; exact tracks.known
  last := by rw [last]; exact tracks.last
  keys c' l key := tracks.keys c' l (by rw [← keys]; exact key)

theorem tracks_alloc (tracks : Tracks c p s) (sound : Sound true s) (e : Entry) : Tracks c p (s.alloc e) :=
  tracks_view tracks rfl (fun _ _ => rfl) (fun _ _ => rfl) rfl rfl rfl
    fun q r held => view_alloc (sound.valid q r held)

theorem tracks_touch (tracks : Tracks c p s) (c' : Fin 2) : Tracks c p (s.touch c') :=
  tracks_view tracks rfl (fun c l => stack_of_touch s c c' l) (fun c l => keyed_touch s c c' l) rfl rfl rfl
    fun _ _ _ => rfl

theorem tracks_relabel (tracks : Tracks c p s) (same : Relabels s t) : Tracks c p t :=
  tracks_view tracks same.currentLEU (fun _ _ => by simp only [State.stackOf, same.serviceStack])
    (fun _ _ => by simp only [State.keyed, same.serviceStack]) same.interrupted same.leus
    same.lastAppended fun _ r _ => same.view r

theorem tracks_modify {r : Ref} (tracks : Tracks c p s) (f : Entry → Entry)
    (free : ∀ q, r ∉ s.held q) : Tracks c p (s.modify r f) := by
  refine tracks_view tracks rfl (fun _ _ => rfl) (fun _ _ => rfl) rfl rfl rfl fun q x held => ?_
  have apart : x ≠ r := by
    rintro rfl
    exact free q held
  unfold State.view
  rw [deref_modify_ne f apart]

theorem tracks_ensure (tracks : Tracks c p s) (l : LEU) :
    Tracks c { p with known := fun k => k = l ∨ p.known k } (s.ensureLEU l) where
  current := tracks.current
  interrupted := tracks.interrupted
  frames := tracks.frames
  stored k n := by
    rw [← tracks.stored k n]
    exact services_congr (instances_of_ensure s l k n) fun _ _ _ _ => rfl
  known k known := by
    by_cases here : k = l
    · simp [State.ensureLEU, here]
    · simpa [State.ensureLEU, here] using tracks.known k (known.resolve_left here)
  last := tracks.last
  keys := tracks.keys

theorem tracks_weaken (tracks : Tracks c p s) (opened : LEU → Bool) (known : LEU → Prop)
    (more : ∀ l, p.opened l = true → opened l = true) (fewer : ∀ l, known l → p.known l) :
    Tracks c { p with opened := opened, known := known } s where
  current := tracks.current
  interrupted := tracks.interrupted
  frames := tracks.frames
  stored := tracks.stored
  known l member := tracks.known l (fewer l member)
  last := tracks.last
  keys c' l key := ⟨(tracks.keys c' l key).1, more l (tracks.keys c' l key).2⟩

theorem tracks_mark (tracks : Tracks c p s) : Tracks c p.mark s := by
  refine tracks_weaken tracks _ _ (fun l opened => ?_) fun _ => id
  by_cases here : l = p.current
  · simp [here]
  · simpa [here] using opened

theorem tracks_switch (tracks : Tracks c p s) (leu : LEU) (interrupted : List LEU)
    (current : t.currentLEU = Function.update s.currentLEU c leu) (aside : t.interrupted = interrupted)
    (stack : t.serviceStack = s.serviceStack) (leus : t.leus = s.leus) (heap : t.heap = s.heap)
    (last : t.lastAppended.isSome) : Tracks c { p with current := leu, interrupted := interrupted } t where
  current := by simp [current]
  interrupted := aside
  frames l := by
    have frames := tracks.frames l
    simp only [State.stackOf, stack, view_of_heap heap] at frames ⊢
    exact frames
  stored l n := by
    rw [← tracks.stored l n]
    refine services_congr (by simp [State.instances, leus]) fun _ _ _ _ => ?_
    rw [view_of_heap heap]
  known := by rw [leus]; exact tracks.known
  last _ := last
  keys c' l key := tracks.keys c' l (by simpa only [State.keyed, stack] using key)

theorem tracks_push_entry {r : Ref} {a : Entry} (tracks : Tracks c p s) (seen : s.view r = a) :
    Tracks c (p.setStack (note [a] (p.stack p.current))) (s.pushEntry c r) where
  current := by rw [push_entry_leu]; exact tracks.current
  interrupted := by rw [push_entry_interrupted]; exact tracks.interrupted
  frames l := by
    rw [view_of_heap (push_entry_heap s c r), stack_of_push_entry, tracks.current]
    by_cases here : l = p.current
    · subst here
      simpa [Picture.setStack] using stack_note (tracks.frames p.current) seen
    · simpa [Picture.setStack, here] using tracks.frames l
  stored l n := by
    refine Eq.trans (services_congr (by simp [State.instances]) fun _ _ q _ => ?_) (tracks.stored l n)
    rw [view_of_heap (push_entry_heap s c r)]
  known := by rw [push_entry_leus]; exact tracks.known
  last awake := by
    unfold State.pushEntry
    split
    · exact tracks.last awake
    · rfl
  keys c' l key := tracks.keys c' l (by simpa using key)

theorem tracks_push {r : Ref} {a : Entry} (tracks : Tracks c p s) (seen : s.view r = a) :
    Tracks c (p.setStack (note [a] (p.stack p.current))) (s.pushService c r) :=
  { tracks_push_entry (tracks_touch tracks c) seen with last := fun _ => rfl }

theorem tracks_push_new {e a : Entry} (tracks : Tracks c p s) (sound : Sound true s) (cpu : e.cpu = c)
    (seen : e.unlabelled = a) :
    Tracks c (p.setStack (note [a] (p.stack p.current))) ((s.alloc e).pushService e.cpu (s.next e.cpu)) := by
  subst cpu
  exact tracks_push (tracks_alloc tracks sound e) ((view_alloc_next s e).trans seen)

theorem tracks_open_service {e : Entry} {f : Frame Kind Entry} (name : String) (tracks : Tracks c p s)
    (sound : Sound true s) (here : e.cpu = c) (opened : p.opened p.current = true)
    (first : ∀ view : Ref → Entry, ∀ r, view r = e.unlabelled → FrameTracks view ⟨name, [r], []⟩ f) :
    Tracks c (p.setStack (f :: p.stack p.current)) (s.openService c e name) where
  current := by rw [open_service_leu]; exact tracks.current
  interrupted := by rw [open_service_interrupted]; exact tracks.interrupted
  frames l := by
    have fresh : (s.openService c e name).view (s.next e.cpu) = e.unlabelled := by
      rw [view_of_heap (open_service_heap s c e name), view_alloc_next]
    have kept : ∀ elem ∈ s.stackOf c l, ∀ r ∈ elem.entries, (s.openService c e name).view r = s.view r := by
      intro elem member r inside
      obtain ⟨d, held⟩ := held_of_frame member inside
      rw [view_of_heap (open_service_heap s c e name), view_alloc (sound.valid _ r held)]
    rw [stack_of_open_service _ _ _ _ e name here, tracks.current]
    by_cases here : l = p.current
    · subst here
      simpa [Picture.setStack] using
        stack_open (stack_view (tracks.frames p.current) kept) (first _ _ fresh)
    · simpa [Picture.setStack, here] using stack_view (tracks.frames l) kept
  stored l n := by
    refine Eq.trans (services_congr (by simp [State.instances]) fun i member r inside => ?_)
      (tracks.stored l n)
    obtain ⟨d, held⟩ := held_of_instance member inside
    rw [view_of_heap (open_service_heap s c e name), view_alloc (sound.valid _ r held)]
  known := by rw [open_service_leus]; exact tracks.known
  last _ := rfl
  keys c' l key := by
    rw [keyed_open_service, Bool.or_eq_true, decide_eq_true_iff, tracks.current] at key
    rcases key with key | ⟨rfl, rfl⟩
    · exact tracks.keys c' l key
    · exact ⟨rfl, opened⟩

theorem tracks_pop {top : ServiceStackElement} {rest : List ServiceStackElement} (tracks : Tracks c p s)
    (full : s.stackOf c (s.currentLEU c) = top :: rest) :
    ∃ f st, p.stack p.current = f :: st ∧ FrameTracks s.view top f ∧
      Tracks c (p.setStack st) (s.setCurrentStack c rest) := by
  have frames := tracks.frames p.current
  rw [← tracks.current, full, tracks.current] at frames
  obtain ⟨f, st, innermost, first, others⟩ := stack_close frames
  refine ⟨f, st, innermost, first, ?_⟩
  constructor
  · exact tracks.current
  · exact tracks.interrupted
  · intro l
    rw [stack_of_set, tracks.current]
    by_cases here : l = p.current
    · subst here
      simp only [Picture.setStack, Function.update_self, true_and, if_true]
      exact others
    · simp only [Picture.setStack, Function.update_of_ne here, here, and_false, if_false]
      exact tracks.frames l
  · exact tracks.stored
  · exact tracks.known
  · exact tracks.last
  · intro c' l key
    rw [keyed_set, Bool.or_eq_true, decide_eq_true_iff] at key
    rcases key with key | ⟨rfl, rfl⟩
    · exact tracks.keys c' l key
    · exact tracks.keys c' _ (keyed_of_stack s c' _ full)

theorem store_known (elem : ServiceStackElement) (known : (s.leus (s.currentLEU c)).isSome) :
    ∃ t, s.pushServiceToLEU c elem = some t := by
  obtain ⟨m, known⟩ := Option.isSome_iff_exists.mp known
  simp [State.pushServiceToLEU, known]

theorem tracks_store {elem : ServiceStackElement} (tracks : Tracks c p s)
    (stored : s.pushServiceToLEU c elem = some t) :
    Tracks c (if loopIteration (elem.entries.map s.view) then p
      else p.finish elem.name (elem.entries.map s.view)) t := by
  obtain ⟨heap, leu, service, interrupted, _, _, last⟩ := store_keeps stored
  have view := view_of_heap heap
  have leus : ∀ l, (s.leus l).isSome → (t.leus l).isSome := by
    unfold State.pushServiceToLEU at stored
    dsimp only at stored
    split at stored
    · cases stored
    · obtain rfl := Option.some.inj stored
      intro l known
      by_cases here : l = s.currentLEU c
      · simp [here]
      · simpa [here] using known
  have services : ∀ l n, t.services l n = s.services l n ++
      if l = s.currentLEU c ∧ n = elem.name then
        [elem.entries.map s.view].filter fun es => !loopIteration es
      else [] := by
    intro l n
    unfold State.services
    rw [instances_of_store stored, view]
    split
    · rw [List.map_append, List.filter_append]
      rfl
    · rw [List.append_nil]
  have kept : Tracks c p s → ∀ done : LEU → String → List (List Entry),
      (∀ l n, t.services l n = done l n) → Tracks c { p with done := done } t := fun tracks done same =>
    { current := by rw [leu]; exact tracks.current
      interrupted := by rw [interrupted]; exact tracks.interrupted
      frames := fun l => by
        have frames := tracks.frames l
        simp only [State.stackOf, service, view] at frames ⊢
        exact frames
      stored := same
      known := fun l member => leus l (tracks.known l member)
      last := by rw [last]; exact tracks.last
      keys := fun c' l key => tracks.keys c' l (by simpa only [State.keyed, service] using key) }
  split
  · rename_i loop
    refine kept tracks p.done fun l n => ?_
    rw [services, tracks.stored]
    simp [loop]
  · rename_i other
    refine kept tracks _ fun l n => ?_
    rw [services, tracks.stored, tracks.current]
    by_cases here : l = p.current
    · subst here
      by_cases named : n = elem.name
      · subst named
        simp [other]
      · simp [named]
    · simp [here]

theorem tracks_loops (tracks : Tracks c p s) (empty : s.currentStack c = []) :
    ∀ f ∈ p.stack p.current, f.kind = .loop := by
  have frames := tracks.frames p.current
  rw [State.currentStack, tracks.current] at empty
  rw [empty] at frames
  exact stack_empty frames

theorem tracks_empty {st : List (Frame Kind Entry)} (tracks : Tracks c p s) (empty : s.currentStack c = [])
    (loops : ∀ f ∈ st, f.kind = .loop) : Tracks c (p.setStack st) s :=
  { tracks with
    frames := fun l => by
      by_cases here : l = p.current
      · subst here
        rw [State.currentStack, tracks.current] at empty
        rw [set_stack_stack, empty]
        exact ⟨[], st, rfl, loops, .nil⟩
      · simpa [Picture.setStack, here] using tracks.frames l }

theorem note_nothing (st : List (Frame Kind Entry)) : note [] st = st := by
  cases st <;> simp [note]

theorem set_stack_same (p : Picture) : p.setStack (p.stack p.current) = p := by
  simp [Picture.setStack]

theorem tracks_register {a e : Entry} (tracks : Tracks c p s) (sound : Sound true s) (cpu : e.cpu = c)
    (seen : e.unlabelled = a) :
    Tracks c (p.setStack (note ([a].filter shown) (p.stack p.current)))
      (if (s.currentStack c).isEmpty then s else s.registerCall e) := by
  subst cpu
  have location : a.location = e.location := by rw [← seen]; rfl
  split
  · rename_i empty
    rw [List.isEmpty_iff] at empty
    exact tracks_empty tracks empty (note_loops (tracks_loops tracks empty))
  · unfold State.registerCall
    split
    · rename_i hidden
      have none : [a].filter shown = [] := by simp [shown, location, hidden]
      rw [none, note_nothing, set_stack_same]
      exact tracks
    · rename_i visible
      have one : [a].filter shown = [a] := by simp [shown, location, visible]
      rw [one]
      exact tracks_push_entry (tracks_alloc tracks sound e) ((view_alloc_next s e).trans seen)

theorem tracks_opens {k : Kind} {a e : Entry} (name : String) (tracks : Tracks c p s) (sound : Sound true s)
    (cpu : e.cpu = c) (opened : p.opened p.current = true) (seen : e.unlabelled = a)
    (named : name = bracketName k a) (type : a.eventType.InLoop ↔ k = .loop) :
    Tracks c (p.setStack (⟨k, a, []⟩ :: note ([a].filter shown) (p.stack p.current)))
      (s.pushNewService e name) := by
  subst cpu
  have registered := tracks_register (tracks_touch tracks e.cpu) (sound_touch sound e.cpu) rfl seen
  have sound' : Sound true (if ((s.touch e.cpu).currentStack e.cpu).isEmpty then s.touch e.cpu
      else (s.touch e.cpu).registerCall e) := by
    split
    · exact sound_touch sound e.cpu
    · exact sound_register_call (sound_touch sound e.cpu) e
  have new := tracks_open_service name registered sound' rfl opened
    (f := ⟨k, a, []⟩) (e := e) fun view r found => frame_open (found.trans seen) named type
  rw [set_stack_again, set_stack_current, set_stack_stack] at new
  exact new

theorem tracks_filled {f : Frame Kind Entry} (tracks : Tracks c p s) (inside : f ∈ p.stack p.current)
    (service : f.kind ≠ .loop) : ∃ top rest, s.stackOf c (s.currentLEU c) = top :: rest := by
  have frames := tracks.frames p.current
  rw [← tracks.current] at frames
  cases full : s.stackOf c (s.currentLEU c) with
  | nil =>
    rw [full, tracks.current] at frames
    exact absurd (stack_empty frames f inside) service
  | cons top rest => exact ⟨top, rest, rfl⟩

theorem tracks_closes {a : Entry} {r : Ref} {f : Frame Kind Entry} {st : List (Frame Kind Entry)}
    (tracks : Tracks c p s) (seen : s.view r = a) (innermost : p.stack p.current = f :: st)
    (service : f.kind ≠ .loop) :
    ∃ t, handleSRVEXIT s c r = some (t, true) ∧ t.heap = s.heap ∧ t.currentPEU = s.currentPEU ∧
      t.lastAppended = some r ∧ Tracks c ((p.finish (bracketName f.kind f.opening) (f.opening :: (f.items ++ [a]))).setStack
        (note [a] st)) t := by
  obtain ⟨bottom, others, filled⟩ := tracks_filled tracks (f := f) (by simp [innermost]) service
  have nonempty : (s.currentStack c).isEmpty = false := by simp [State.currentStack, filled]
  have pushed := tracks_push tracks seen
  have grown : (p.setStack (note [a] (p.stack p.current))).stack p.current =
      { f with items := f.items ++ [a] } :: st := by
    rw [set_stack_stack, innermost]
    rfl
  obtain ⟨top, rest, full⟩ := tracks_filled pushed (f := { f with items := f.items ++ [a] })
    (by rw [set_stack_current, grown]; exact List.mem_cons_self ..) service
  obtain ⟨f', st', innermost', first, popped⟩ := tracks_pop pushed full
  rw [set_stack_current, grown] at innermost'
  obtain ⟨rfl, rfl⟩ := List.cons.inj innermost'
  obtain ⟨entries, type⟩ := first.service service
  have ensured := tracks_ensure popped (((s.pushService c r).setCurrentStack c rest).currentLEU c)
  obtain ⟨s₂, stored⟩ := store_known top (ensured.known _ (Or.inl rfl))
  obtain ⟨heap, _, _, _, _, peu, _⟩ := store_keeps stored
  have heap₂ : s₂.heap = s.heap := heap.trans (push_service_heap s c r)
  have other : loopIteration (f.opening :: (f.items ++ [a])) = false := by
    have start : f.opening.eventType ≠ .loopstart := fun loop => type (Or.inl loop)
    simp [loopIteration, start]
  have kept := tracks_store ensured stored
  have view : (((s.pushService c r).setCurrentStack c rest).ensureLEU
      (((s.pushService c r).setCurrentStack c rest).currentLEU c)).view = (s.pushService c r).view := rfl
  rw [view, entries, other] at kept
  have seen₂ : s₂.view r = a := by rw [view_of_heap heap₂, seen]
  have noted := tracks_push kept seen₂
  refine ⟨s₂.pushService c r, ?_, ?_, ?_, rfl, ?_⟩
  · unfold handleSRVEXIT
    simp only [nonempty, Bool.false_eq_true, if_false, pop_top full, bind, Option.bind_some, stored]
  · exact (push_service_heap s₂ c r).trans heap₂
  · exact (push_service_peu s₂ c r).trans (peu.trans (push_service_peu s c r))
  · have final := tracks_weaken noted p.opened p.known (fun _ => id) fun _ => Or.inr
    have name : top.name = bracketName f.kind f.opening := first.name
    simpa [Picture.finish, Picture.setStack, name] using final

theorem extends_touch (s : State) (c : Fin 2) : Extends s (s.touch c) := extends_of_heap rfl rfl

theorem extends_set_stack (s : State) (c : Fin 2) (stack : List ServiceStackElement) :
    Extends s (s.setCurrentStack c stack) := extends_of_heap rfl rfl

theorem extends_open (s : State) (c : Fin 2) (e : Entry) (name : String) :
    Extends s (s.openService c e name) :=
  (extends_alloc s e).trans (extends_of_heap (open_service_heap s c e name) (open_service_peu s c e name))

theorem extends_new_service (s : State) (e : Entry) (name : String) : Extends s (s.pushNewService e name) := by
  have touched := extends_touch s e.cpu
  unfold State.pushNewService
  dsimp only
  split
  · exact touched.trans (extends_open _ _ _ _)
  · refine touched.trans (Extends.trans ?_ (extends_open _ _ _ _))
    unfold State.registerCall
    split
    · exact extends_of_heap rfl rfl
    · exact (extends_alloc _ e).trans (extends_of_heap (push_entry_heap _ _ _) (push_entry_peu _ _ _))

theorem extends_push (s : State) (c : Fin 2) (r : Ref) : Extends s (s.pushService c r) :=
  extends_of_heap (push_service_heap s c r) (push_service_peu s c r)

theorem extends_push_new (s : State) (e : Entry) :
    Extends s ((s.alloc e).pushService e.cpu (s.next e.cpu)) :=
  (extends_alloc s e).trans (extends_push _ _ _)

theorem tracks_opened {top : ServiceStackElement} {rest : List ServiceStackElement} (tracks : Tracks c p s)
    (full : s.stackOf c (s.currentLEU c) = top :: rest) : p.opened p.current = true := by
  rw [← tracks.current]
  exact (tracks.keys c _ (keyed_of_stack s c _ full)).2

theorem tracks_loopstart {e : Entry} (tracks : Tracks c p s) (sound : Sound true s) (cpu : e.cpu = c)
    (type : e.eventType = .loopstart) :
    ∃ t, handleLOOPSTART s e = some t ∧ Extends s t ∧
      Tracks c (p.setStack (⟨.loop, e.unlabelled, []⟩ :: note ([e.unlabelled].filter shown)
        (p.stack p.current))) t := by
  subst cpu
  have touched := tracks_touch tracks e.cpu
  unfold handleLOOPSTART
  refine ⟨_, rfl, ?_, ?_⟩
  · split
    · exact extends_touch s e.cpu
    · exact (extends_touch s e.cpu).trans (extends_new_service (s.touch e.cpu) e e.location)
  · split
    · rename_i empty
      rw [List.isEmpty_iff] at empty
      refine tracks_empty touched empty fun f member => ?_
      rcases List.mem_cons.mp member with rfl | member
      · rfl
      · exact note_loops (tracks_loops touched empty) f member
    · rename_i filled
      rw [List.isEmpty_iff] at filled
      obtain ⟨top, rest, full⟩ := List.exists_cons_of_ne_nil filled
      have opened := tracks_opened touched full
      have named : e.location = bracketName .loop e.unlabelled := rfl
      refine tracks_opens e.location touched (sound_touch sound e.cpu) rfl opened rfl named ?_
      simp [Entry.unlabelled, EventType.unlabelled, EventType.InLoop, type]

theorem free_of_top {top : ServiceStackElement} {rest : List ServiceStackElement} {r : Ref} (sound : Sound true s)
    (full : s.stackOf c (s.currentLEU c) = top :: rest) (inside : r ∈ top.entries)
    (unshared : ¬ (s.deref r).eventType.Shareable true) : ∀ q, r ∉ (s.setCurrentStack c rest).held q := by
  intro q held
  obtain ⟨_, loose, _⟩ := sound_pop sound (pop_top full)
  exact unshared (loose.apart r inside q held)

theorem tracks_unpop {top : ServiceStackElement} {rest : List ServiceStackElement} {f : Frame Kind Entry}
    {st : List (Frame Kind Entry)} (tracks : Tracks c (p.setStack st) (s.setCurrentStack c rest))
    (full : s.stackOf c (s.currentLEU c) = top :: rest) (first : FrameTracks s.view top f) :
    Tracks c (p.setStack (f :: st)) s where
  current := tracks.current
  interrupted := tracks.interrupted
  frames l := by
    have frames := tracks.frames l
    have current : s.currentLEU c = p.current := tracks.current
    rw [stack_of_set, current] at frames
    by_cases here : l = p.current
    · subst here
      simp only [true_and, if_true, set_stack_stack] at frames
      rw [set_stack_stack, ← current, full]
      exact stack_open frames first
    · simp only [here, and_false, if_false, Picture.setStack, Function.update_of_ne here] at frames
      simp only [Picture.setStack, Function.update_of_ne here]
      exact frames
  stored := tracks.stored
  known := tracks.known
  last := tracks.last
  keys c' l key := tracks.keys c' l (by rw [keyed_set, key, Bool.true_or])

theorem in_loop_view {r : Ref} : (s.view r).eventType.InLoop ↔ (s.deref r).eventType.InLoop := by
  unfold State.view Entry.unlabelled
  cases type : (s.deref r).eventType <;> simp [EventType.unlabelled, EventType.InLoop]

theorem in_loop_unshared {t : EventType} (loop : t.InLoop) : ¬ t.Shareable true := by
  rcases loop with rfl | rfl <;> simp [EventType.Shareable]

theorem tracks_relabel_loop {top : ServiceStackElement} {rest : List ServiceStackElement} {r : Ref} {a : Entry}
    (g : Entry → Entry) (tracks : Tracks c p s) (sound : Sound true s)
    (full : s.stackOf c (s.currentLEU c) = top :: rest)
    (looping : ∀ f st, p.stack p.current = f :: st → f.kind = .loop) (last : r ∈ top.entries)
    (type : (s.deref r).eventType.InLoop) (kept : (g (s.deref r)).eventType.InLoop) :
    Tracks c (p.setStack (note [a] (p.stack p.current))) (s.modify r g) := by
  obtain ⟨f, st, innermost, first, popped⟩ := tracks_pop tracks full
  have loop := looping f st innermost
  have free := free_of_top sound full last (in_loop_unshared type)
  have valid : s.Valid r := (sound_pop sound (pop_top full)).2.1.valid r last
  have changed : Tracks c (p.setStack st) ((s.modify r g).setCurrentStack c rest) :=
    tracks_modify popped g free
  rw [innermost]
  refine tracks_unpop changed full ⟨first.name, fun _ => ?_, fun other => absurd loop other⟩
  obtain ⟨h, t, entries, head⟩ := first.loop loop
  refine ⟨h, t, entries, in_loop_view.mpr ?_⟩
  by_cases same : h = r
  · rw [same, deref_modify_self g valid]
    exact kept
  · rw [deref_modify_ne g same]
    exact in_loop_view.mp head

theorem loop_iteration_relabelled {h : Ref} {rest : List Ref} (s : State) (valid : s.Valid h) :
    loopIteration ((h :: rest).map (s.modify h fun f => { f with eventType := .loopstart }).view) = true := by
  simp [loopIteration, State.view, deref_modify_self _ valid, Entry.unlabelled, EventType.unlabelled]

theorem tracks_iteration {elem : ServiceStackElement} {h : Ref} {tail : List Ref} (tracks : Tracks c p s)
    (sound : Sound true s) (loose : Loose true s elem.entries) (head : elem.entries = h :: tail)
    (type : (s.deref h).eventType.InLoop) (known : p.known p.current) :
    ∃ t, (s.modify h fun f => { f with eventType := .loopstart }).pushServiceToLEU c elem = some t ∧
      Sound true t ∧ Extends s t ∧ Tracks c p t := by
  have unshared := in_loop_unshared type
  have valid : s.Valid h := loose.valid h (by simp [head])
  have free : ∀ q, h ∉ s.held q := fun q held => unshared (loose.apart h (by simp [head]) q held)
  have changed := tracks_modify tracks (fun f => { f with eventType := .loopstart }) free
  have sound₂ := sound_modify sound h (fun f => { f with eventType := .loopstart })
    (fun shared => absurd shared unshared) fun _ => by simp [EventType.Opening]
  have loose₂ := loose_modify loose h (fun f => { f with eventType := .loopstart })
    fun shared => absurd shared unshared
  obtain ⟨t, stored⟩ := store_known elem (c := c) (changed.known _ (by rw [changed.current]; exact known))
  obtain ⟨heap, _, _, _, _, peu, _⟩ := store_keeps stored
  refine ⟨t, stored, sound_store sound₂ loose₂ stored, ?_, ?_⟩
  · exact (extends_modify _ (in_loop_view.mpr type)).trans (extends_of_heap heap peu)
  · have kept := tracks_store changed stored
    rw [head, loop_iteration_relabelled _ valid] at kept
    exact kept

theorem tracks_pop_loop {top : ServiceStackElement} {rest : List ServiceStackElement} (tracks : Tracks c p s)
    (sound : Sound true s) (full : s.stackOf c (s.currentLEU c) = top :: rest)
    (looping : ∀ f st, p.stack p.current = f :: st → f.kind = .loop) :
    ∃ f st h tail, p.stack p.current = f :: st ∧ f.kind = .loop ∧ top.entries = h :: tail ∧
      (s.deref h).eventType.InLoop ∧ top.name = bracketName f.kind f.opening ∧
      Sound true (s.setCurrentStack c rest) ∧ Loose true (s.setCurrentStack c rest) top.entries ∧
      Tracks c (p.setStack st) (s.setCurrentStack c rest) := by
  obtain ⟨f, st, innermost, first, popped⟩ := tracks_pop tracks full
  have loop := looping f st innermost
  obtain ⟨h, tail, entries, type⟩ := first.loop loop
  obtain ⟨sound₁, loose₁, _⟩ := sound_pop sound (pop_top full)
  exact ⟨f, st, h, tail, innermost, loop, entries, in_loop_view.mp type, first.name, sound₁, loose₁, popped⟩

theorem note_looping {p : Picture} {items : List Entry}
    (looping : ∀ f st, p.stack p.current = f :: st → f.kind = .loop) :
    ∀ f st, (p.setStack (note items (p.stack p.current))).stack p.current = f :: st → f.kind = .loop := by
  intro f st innermost
  rw [set_stack_stack] at innermost
  cases stack : p.stack p.current with
  | nil => simp [stack, note] at innermost
  | cons g rest =>
    rw [stack, note] at innermost
    rw [← (List.cons.inj innermost).1]
    exact looping g rest stack

theorem tracks_looprstart {e : Entry} (tracks : Tracks c p s) (sound : Sound true s) (cpu : e.cpu = c)
    (start : e.eventType = .looprstart) (back : RestartsHome s e)
    (looping : ∀ f st, p.stack p.current = f :: st → f.kind = .loop) (known : p.known p.current) :
    ∃ t, handleLOOPRSTART s e = some t ∧ Extends s t ∧
      Tracks c (p.setStack (note [e.unlabelled] (p.stack p.current))) t := by
  subst cpu
  have touched := tracks_touch tracks e.cpu
  have sound' := sound_touch sound e.cpu
  unfold handleLOOPRSTART
  dsimp only
  split
  · rename_i empty
    exact ⟨_, rfl, extends_touch s e.cpu,
      tracks_empty touched empty (note_loops (tracks_loops touched empty))⟩
  · rename_i top rest full
    rw [State.currentStack] at full
    obtain ⟨h, tail, entries, _⟩ := sound'.heads rfl e.cpu _ top (by rw [full]; exact List.mem_cons_self ..)
    obtain ⟨last, hlast⟩ : ∃ last, top.entries.getLast? = some last :=
      ⟨_, List.getLast?_eq_some_getLast (by simp [entries])⟩
    simp only [hlast, bind, Option.bind_some]
    split
    · rename_i start
      have type : ((s.touch e.cpu).deref last).eventType.InLoop := Or.inl start
      refine ⟨_, rfl, (extends_touch s e.cpu).trans (extends_modify _ (in_loop_view.mpr type)), ?_⟩
      exact tracks_relabel_loop _ touched sound' full looping (List.mem_of_getLast? hlast) type (Or.inr rfl)
    · have pushed := tracks_push_new touched sound' rfl rfl
      have full₂ := pushed_top ((s.touch e.cpu).next e.cpu)
        (show ((s.touch e.cpu).alloc e).stackOf e.cpu _ = top :: rest from full)
      obtain ⟨f, st, h, tail, innermost, loop, entries, type, named, sound₂, loose₂, popped⟩ :=
        tracks_pop_loop pushed (sound_push_new sound' e) full₂ (note_looping looping)
      obtain ⟨t, stored, sound₃, extended, tracked⟩ := tracks_iteration popped sound₂ loose₂ entries type known
      have first : (top.entries ++ [(s.touch e.cpu).next e.cpu]).head? = some h := congrArg List.head? entries
      rw [pop_top full₂]
      simp only [Option.bind_some, first, stored]
      refine ⟨_, rfl, ?_, ?_⟩
      · exact ((((extends_touch s e.cpu).trans (extends_push_new (s.touch e.cpu) e)).trans
          (extends_set_stack _ e.cpu rest)).trans extended).trans (extends_open t e.cpu _ _)
      · have opened := tracks_opened touched full
        have again := tracks_open_service (e := { t.deref h with cycles := e.cycles, eventType := .looprstart })
          (f := f) top.name tracked sound₃ (restarted_cpu sound start back full (pop_top full₂) first stored) opened
          fun view r seen => ⟨named, fun _ => ⟨r, [], rfl, by rw [seen]; exact Or.inr rfl⟩,
            fun other => absurd loop other⟩
        rw [set_stack_again, set_stack_again, set_stack_current, set_stack_current] at again
        rw [set_stack_current, set_stack_stack] at innermost
        rw [innermost]
        simpa only [Picture.setStack, Function.update_self] using again

theorem tracks_store_loop {elem : ServiceStackElement} {h : Ref} {tail : List Ref} (tracks : Tracks c p s)
    (sound : Sound true s) (loose : Loose true s elem.entries) (head : elem.entries = h :: tail)
    (type : (s.deref h).eventType.InLoop) (known : p.known p.current) :
    ∃ t, s.storeLoop c elem h = some t ∧ Sound true t ∧ Extends s t ∧ Tracks c p t := by
  unfold State.storeLoop
  split
  · exact tracks_iteration tracks sound loose head type known
  · exact ⟨s, rfl, sound, extends_of_heap rfl rfl, tracks⟩

theorem tracks_loopstop {e : Entry} (tracks : Tracks c p s) (sound : Sound true s) (cpu : e.cpu = c)
    (looping : ∀ f st, p.stack p.current = f :: st → f.kind = .loop) (known : p.known p.current) :
    ∃ t, handleLOOPSTOP s e = some t ∧ Extends s t ∧
      Tracks c (p.setStack (note [e.unlabelled] (p.stack p.current).tail)) t := by
  subst cpu
  have touched := tracks_touch tracks e.cpu
  have sound' := sound_touch sound e.cpu
  unfold handleLOOPSTOP
  dsimp only
  cases full : (s.touch e.cpu).stackOf e.cpu ((s.touch e.cpu).currentLEU e.cpu) with
  | nil =>
    have none : (s.touch e.cpu).pop e.cpu = none := by
      unfold State.pop State.currentStack
      rw [full]
    rw [none]
    refine ⟨_, rfl, extends_touch s e.cpu, tracks_empty touched full (note_loops fun f member => ?_)⟩
    exact tracks_loops touched full f (List.mem_of_mem_tail member)
  | cons top rest =>
    obtain ⟨f, st, h, tail, innermost, loop, entries, type, named, sound₂, loose₂, popped⟩ :=
      tracks_pop_loop touched sound' full looping
    have valid := loose₂.valid h (by simp [entries])
    let copy : Entry := { (s.touch e.cpu).deref h with eventType := .looprstart, cycles := e.cycles }
    obtain ⟨t, stored, sound₃, extended, tracked⟩ := @tracks_store_loop _ _ _
      { top with entries := top.entries ++ [((s.touch e.cpu).setCurrentStack e.cpu rest).next copy.cpu] } h _
      (tracks_alloc popped sound₂ copy) (sound_alloc sound₂ copy)
      (loose_snoc sound₂ loose₂ copy) (by rw [entries]; rfl)
      (by rw [deref_alloc valid]; exact type) known
    rw [pop_top full]
    simp only [entries, List.head?_cons]
    rw [entries] at stored
    refine ⟨(t.alloc e).pushService e.cpu (t.next e.cpu), ?_, ?_, ?_⟩
    · exact Option.map_eq_some_iff.mpr ⟨t, stored, rfl⟩
    · exact ((((extends_touch s e.cpu).trans (extends_set_stack _ e.cpu rest)).trans
        (extends_alloc _ copy)).trans extended).trans (extends_push_new t e)
    · have pushed := tracks_push_new tracked sound₃ rfl rfl
      rw [set_stack_again, set_stack_current, set_stack_stack] at pushed
      rw [innermost]
      exact pushed

end Steps

end Analyse
