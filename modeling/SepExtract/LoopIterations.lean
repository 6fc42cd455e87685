import SepExtract.LoopRounds
import SepExtract.ServiceReconstruction

/- The analyser's heap against the machine that has entries as values. An entry that a
   handler changes is held in one place, so a change of it is a change of that place. -/
namespace Analyse
open Nesting

def State.element (s : State) (elem : ServiceStackElement) : Element := ⟨elem.name, elem.entries.map s.view⟩

def State.recorded (s : State) (l : LEU) (n : String) : List (List Entry) :=
  (s.instances l n).map fun i => i.entries.map s.view

def storedUnder (n : String) (els : List Element) : List (List Entry) :=
  (els.filter (·.name = n)).map Element.entries

structure Shows (c : Fin 2) (m : LEU → Machine) (s : State) : Prop where
  frames : ∀ l, (s.stackOf c l).map s.element = (m l).stack
  stored : ∀ l n, s.recorded l n = storedUnder n (m l).done

section Values
variable {c : Fin 2} {m : LEU → Machine} {s t : State}

theorem element_view {elem : ServiceStackElement} (view : ∀ r ∈ elem.entries, t.view r = s.view r) :
    t.element elem = s.element elem := by
  rw [State.element, State.element, List.map_congr_left view]

theorem recorded_view {l : LEU} {n : String} (instances : t.instances l n = s.instances l n)
    (view : ∀ q r, r ∈ s.held q → t.view r = s.view r) : t.recorded l n = s.recorded l n := by
  rw [State.recorded, State.recorded, instances]
  refine List.map_congr_left fun i member => List.map_congr_left fun r inside => ?_
  obtain ⟨k, held⟩ := held_of_instance member inside
  exact view _ r held

theorem shows_stack (shows_ : Shows c m s) (l : LEU) {els : List Element} (here : (t.stackOf c l).map t.element = els)
    (others : ∀ k, k ≠ l → t.stackOf c k = s.stackOf c k)
    (instances : ∀ k n, t.instances k n = s.instances k n)
    (view : ∀ q r, r ∈ s.held q → t.view r = s.view r) :
    Shows c (Function.update m l { m l with stack := els }) t where
  frames k := by
    by_cases same : k = l
    · subst same
      rw [Function.update_self, here]
    · rw [Function.update_of_ne same, others k same, ← shows_.frames k]
      refine List.map_congr_left fun elem member => element_view fun r inside => ?_
      obtain ⟨d, held⟩ := held_of_frame member inside
      exact view _ r held
  stored k n := by
    rw [recorded_view (instances k n) view, shows_.stored k n]
    by_cases same : k = l
    · subst same
      rw [Function.update_self]
    · rw [Function.update_of_ne same]

theorem shows_view (shows_ : Shows c m s) (frames : ∀ l, t.stackOf c l = s.stackOf c l)
    (instances : ∀ l n, t.instances l n = s.instances l n)
    (view : ∀ q r, r ∈ s.held q → t.view r = s.view r) : Shows c m t where
  frames k := by
    rw [frames k, ← shows_.frames k]
    refine List.map_congr_left fun elem member => element_view fun r inside => ?_
    obtain ⟨d, held⟩ := held_of_frame member inside
    exact view _ r held
  stored k n := by rw [recorded_view (instances k n) view, shows_.stored k n]

theorem shows_alloc (shows_ : Shows c m s) (sound : Sound true s) (e : Entry) : Shows c m (s.alloc e) :=
  shows_view shows_ (fun _ => rfl) (fun _ _ => rfl) fun q r held => view_alloc (sound.valid q r held)

theorem shows_touch (shows_ : Shows c m s) (c' : Fin 2) : Shows c m (s.touch c') :=
  shows_view shows_ (fun l => stack_of_touch s c c' l) (fun _ _ => rfl) fun _ _ _ => rfl

theorem shows_relabel (shows_ : Shows c m s) (same : Relabels s t) : Shows c m t :=
  shows_view shows_ (fun l => by simp only [State.stackOf, same.serviceStack])
    (fun l n => by simp only [State.instances, same.leus]) fun _ r _ => same.view r

theorem shows_ensure (shows_ : Shows c m s) (l : LEU) : Shows c m (s.ensureLEU l) :=
  shows_view shows_ (fun _ => rfl) (instances_of_ensure s l) fun _ _ _ => rfl

theorem shows_modify {r : Ref} (shows_ : Shows c m s) (f : Entry → Entry) (free : ∀ q, r ∉ s.held q) :
    Shows c m (s.modify r f) := by
  refine shows_view shows_ (fun _ => rfl) (fun _ _ => rfl) fun q x held => ?_
  have other : x ≠ r := by
    rintro rfl
    exact free q held
  rw [State.view, State.view, deref_modify_ne f other]

theorem push_top_map {stack : List ServiceStackElement} {r : Ref} {a : Entry} (seen : s.view r = a) :
    (appendTop r stack).map s.element = pushTop a (stack.map s.element) := by
  cases stack with
  | nil => rfl
  | cons top rest => simp [appendTop, pushTop, State.element, seen]

theorem view_element (view : t.view = s.view) : t.element = s.element := by
  funext elem
  rw [State.element, State.element, view]

section Running
variable {l : LEU}

theorem shows_push_entry {r : Ref} {a : Entry} (shows_ : Shows c m s) (running : s.currentLEU c = l)
    (seen : s.view r = a) : Shows c (Function.update m l ((m l).push a)) (s.pushEntry c r) := by
  subst running
  have view : (s.pushEntry c r).view = s.view := view_of_heap (push_entry_heap s c r)
  refine shows_stack shows_ (s.currentLEU c) ?_ (fun k other => ?_) (fun k n => ?_) fun _ r _ => by rw [view]
  · rw [stack_of_push_entry, if_pos ⟨rfl, rfl⟩, view_element view, push_top_map seen, shows_.frames]
  · rw [stack_of_push_entry, if_neg fun same => other same.2]
  · simp only [State.instances, push_entry_leus]

theorem shows_push {r : Ref} {a : Entry} (shows_ : Shows c m s) (running : s.currentLEU c = l)
    (seen : s.view r = a) : Shows c (Function.update m l ((m l).push a)) (s.pushService c r) := by
  have pushed := shows_push_entry (r := r) (shows_touch shows_ c) running seen
  exact shows_view pushed (fun _ => rfl) (fun _ _ => rfl) fun _ _ _ => rfl

theorem shows_push_new {e a : Entry} (shows_ : Shows c m s) (sound : Sound true s) (cpu : e.cpu = c)
    (running : s.currentLEU c = l) (seen : e.unlabelled = a) :
    Shows c (Function.update m l ((m l).push a)) ((s.alloc e).pushService e.cpu (s.next e.cpu)) := by
  subst cpu
  exact shows_push (shows_alloc shows_ sound e) running ((view_alloc_next s e).trans seen)

theorem shows_open_service {e a : Entry} (shows_ : Shows c m s) (sound : Sound true s) (cpu : e.cpu = c)
    (running : s.currentLEU c = l) (seen : e.unlabelled = a) (name : String) :
    Shows c (Function.update m l { m l with stack := ⟨name, [a]⟩ :: (m l).stack }) (s.openService c e name) := by
  subst running
  have fresh := shows_alloc shows_ sound e
  have view : (s.openService c e name).view = (s.alloc e).view := view_of_heap (open_service_heap s c e name)
  refine shows_stack fresh (s.currentLEU c) ?_ (fun k other => ?_) (fun k n => ?_) fun _ r _ => by rw [view]
  · rw [stack_of_open_service _ _ _ _ e name cpu, if_pos ⟨rfl, rfl⟩, view_element view, List.map_cons]
    congr 1
    · simp [State.element, view_alloc_next, seen]
    · exact fresh.frames (s.currentLEU c)
  · rw [stack_of_open_service _ _ _ _ e name cpu, if_neg fun same => other same.2]
    rfl
  · simp only [State.instances, open_service_leus]
    rfl

theorem update_same_stack {els : List Element} (same : (m l).stack = els) :
    Function.update m l { m l with stack := els } = m := by
  subst same
  exact Function.update_eq_self l m

theorem shows_empty (shows_ : Shows c m s) (running : s.currentLEU c = l) (empty : s.currentStack c = []) :
    (m l).stack = [] := by
  subst running
  rw [← shows_.frames, show s.stackOf c (s.currentLEU c) = [] from empty, List.map_nil]

theorem shows_register {e a : Entry} (shows_ : Shows c m s) (sound : Sound true s) (cpu : e.cpu = c)
    (running : s.currentLEU c = l) (seen : e.unlabelled = a) :
    Shows c (Function.update m l { m l with stack := noteCall a (m l).stack })
      (if (s.currentStack c).isEmpty then s else s.registerCall e) := by
  subst cpu
  have location : a.location = e.location := by rw [← seen]; rfl
  split
  · rename_i empty
    have none := shows_empty shows_ running (List.isEmpty_iff.mp empty)
    rw [update_same_stack (by simp [none, noteCall, pushTop])]
    exact shows_
  · unfold State.registerCall
    split
    · rename_i hidden
      rw [update_same_stack (by simp [noteCall, shown, location, hidden])]
      exact shows_
    · rename_i visible
      have called := shows_push_entry (shows_alloc shows_ sound e) running ((view_alloc_next s e).trans seen)
      simpa [noteCall, shown, location, visible, Machine.push] using called

theorem shows_new_service {e a : Entry} (name : String) (shows_ : Shows c m s) (sound : Sound true s) (cpu : e.cpu = c)
    (running : s.currentLEU c = l) (seen : e.unlabelled = a) :
    Shows c (Function.update m l ((m l).begin name a)) (s.pushNewService e name) := by
  subst cpu
  have sound₁ := sound_touch sound e.cpu
  have called := shows_register (shows_touch shows_ e.cpu) sound₁ rfl running seen
  have sound₂ : Sound true (if ((s.touch e.cpu).currentStack e.cpu).isEmpty then s.touch e.cpu
      else (s.touch e.cpu).registerCall e) := by
    split
    · exact sound₁
    · exact sound_register_call sound₁ e
  have running₂ : (if ((s.touch e.cpu).currentStack e.cpu).isEmpty then s.touch e.cpu
      else (s.touch e.cpu).registerCall e).currentLEU e.cpu = l := by
    split
    · exact running
    · rw [register_call_leu]
      exact running
  have opened := shows_open_service called sound₂ rfl running₂ seen name
  rwa [Function.update_idem, Function.update_self] at opened

theorem shows_store {elem : ServiceStackElement} (shows_ : Shows c m s) (running : s.currentLEU c = l)
    (stored : s.pushServiceToLEU c elem = some t) :
    Shows c (Function.update m l { m l with done := (m l).done ++ [s.element elem] }) t := by
  obtain ⟨heap, _, stack, _⟩ := store_keeps stored
  have view : t.view = s.view := view_of_heap heap
  constructor
  · intro k
    rw [State.stackOf, stack, view_element view]
    refine (shows_.frames k).trans ?_
    by_cases here : k = l
    · subst here
      rw [Function.update_self]
    · rw [Function.update_of_ne here]
  · intro k n
    have before := shows_.stored k n
    rw [State.recorded] at before
    rw [State.recorded, instances_of_store stored, view, running]
    by_cases here : k = l
    · subst here
      rw [Function.update_self]
      by_cases name : n = elem.name
      · subst name
        simp [storedUnder, before, State.element]
      · simp [storedUnder, before, State.element, name, Ne.symm name]
    · rw [Function.update_of_ne here, if_neg fun same => here same.1, before]

theorem shows_top {top : ServiceStackElement} {rest : List ServiceStackElement} (shows_ : Shows c m s)
    (running : s.currentLEU c = l) (full : s.stackOf c (s.currentLEU c) = top :: rest) :
    (m l).stack = s.element top :: rest.map s.element := by
  rw [← shows_.frames, ← running, full, List.map_cons]

theorem shows_pop {top : ServiceStackElement} {rest : List ServiceStackElement} (shows_ : Shows c m s)
    (running : s.currentLEU c = l) (full : s.stackOf c (s.currentLEU c) = top :: rest) :
    Shows c (Function.update m l { m l with stack := (m l).stack.tail }) (s.setCurrentStack c rest) := by
  subst running
  refine shows_stack shows_ (s.currentLEU c) ?_ (fun k other => ?_) (fun _ _ => rfl) fun _ _ _ => rfl
  · rw [stack_of_set, if_pos ⟨rfl, rfl⟩, shows_top shows_ rfl full, List.tail_cons]
    rfl
  · rw [stack_of_set, if_neg fun same => other same.2]

theorem shows_srvexit {r : Ref} {a : Entry} {b : Bool} (shows_ : Shows c m s) (running : s.currentLEU c = l)
    (seen : s.view r = a) (done : handleSRVEXIT s c r = some (t, b)) :
    Shows c (Function.update m l ((m l).close a)) t := by
  have pushed := shows_push shows_ running seen
  unfold handleSRVEXIT at done
  dsimp only at done
  split at done
  · rename_i empty
    obtain ⟨rfl, _⟩ := Prod.mk.inj (Option.some.inj done)
    have none := shows_empty shows_ running (List.isEmpty_iff.mp empty)
    have same : (m l).close a = (m l).push a := by
      ext1 <;> simp [Machine.close, Machine.push, none, pushTop]
    rw [same]
    exact pushed
  · rename_i filled
    rw [List.isEmpty_iff] at filled
    obtain ⟨top, rest, full⟩ := List.exists_cons_of_ne_nil filled
    have full₂ := pushed_top r (show s.stackOf c (s.currentLEU c) = top :: rest from full)
    rw [pop_top full₂] at done
    simp only [bind, Option.bind_some, Option.bind_eq_some_iff] at done
    obtain ⟨s₂, stored, eq⟩ := done
    obtain ⟨rfl, _⟩ := Prod.mk.inj (Option.some.inj eq)
    obtain ⟨heap, leu, _⟩ := store_keeps stored
    have running₁ : (s.pushService c r).currentLEU c = l := by rw [push_service_leu, running]
    have popped := shows_ensure (shows_pop pushed running₁ full₂) ((s.pushService c r).currentLEU c)
    have kept := shows_store popped running₁ stored
    have view : s₂.view r = a := by
      rw [view_of_heap (heap.trans (push_service_heap s c r)), seen]
    have ended := shows_push kept (leu ▸ running₁) view
    have element : State.element (((s.pushService c r).setCurrentStack c rest).ensureLEU
        ((s.pushService c r).currentLEU c)) { top with entries := top.entries ++ [r] } =
        ⟨top.name, (s.element top).entries ++ [a]⟩ := by
      have same : (((s.pushService c r).setCurrentStack c rest).ensureLEU
        ((s.pushService c r).currentLEU c)).view = s.view := view_of_heap (push_service_heap s c r)
      rw [view_element same]
      simp [State.element, seen]
    have closed : (m l).close a = Machine.push ⟨rest.map s.element,
        (m l).done ++ [⟨top.name, (s.element top).entries ++ [a]⟩]⟩ a := by
      rw [Machine.close, shows_top shows_ running full]
      rfl
    rw [element] at ended
    simp only [Function.update_idem, Function.update_self, Machine.push, shows_top shows_ running full, pushTop,
      List.tail_cons] at ended
    rw [closed]
    exact ended

theorem unlabelled_type {e : Entry} {type : EventType} (loop : type.InLoop) :
    e.unlabelled.eventType = type ↔ e.eventType = type := by
  unfold Entry.unlabelled
  rcases loop with rfl | rfl <;> cases e.eventType <;> simp [EventType.unlabelled]

theorem map_view_other {f : Entry → Entry} {h : Ref} {rs : List Ref} (apart : h ∉ rs) :
    rs.map (s.modify h f).view = rs.map s.view := by
  refine List.map_congr_left fun r member => ?_
  have other : r ≠ h := by
    rintro rfl
    exact apart member
  rw [State.view, State.view, deref_modify_ne f other]

theorem element_relabelled {elem : ServiceStackElement} {h : Ref} {tail : List Ref} (f : Entry → Entry)
    (entries : elem.entries = h :: tail) (once : s.Once true elem.entries) (valid : s.Valid h)
    (unshared : ¬ (s.deref h).eventType.Shareable true) :
    (s.modify h f).element elem = ⟨elem.name, (f (s.deref h)).unlabelled :: tail.map s.view⟩ := by
  have apart : h ∉ tail := fun member => by
    rw [entries] at once
    exact unshared (List.rel_of_pairwise_cons once member rfl)
  rw [State.element, entries, List.map_cons, map_view_other apart, State.view, deref_modify_self f valid]

theorem shows_iteration {elem : ServiceStackElement} {h : Ref} {tail : List Ref} (shows_ : Shows c m s)
    (running : s.currentLEU c = l) (loose : Loose true s elem.entries) (head : elem.entries = h :: tail)
    (unshared : ¬ (s.deref h).eventType.Shareable true)
    (stored : (s.modify h fun f => { f with eventType := .loopstart }).pushServiceToLEU c elem = some t) :
    Shows c (Function.update m l { m l with
      done := (m l).done ++ [⟨elem.name, (s.view h).asStart :: tail.map s.view⟩] }) t := by
  have valid : s.Valid h := loose.valid h (by simp [head])
  have free : ∀ q, h ∉ s.held q := fun q held => unshared (loose.apart h (by simp [head]) q held)
  have kept := shows_store (shows_modify shows_ (fun f => { f with eventType := .loopstart }) free) running stored
  rw [element_relabelled _ head loose.once valid unshared] at kept
  exact kept

theorem shows_relabel_last {top : ServiceStackElement} {rest : List ServiceStackElement} {last : Ref}
    {init : List Ref} (cycles : Int) (shows_ : Shows c m s) (sound : Sound true s) (running : s.currentLEU c = l)
    (full : s.stackOf c (s.currentLEU c) = top :: rest) (entries : top.entries = init ++ [last])
    (type : (s.deref last).eventType = .loopstart) :
    Shows c (Function.update m l { m l with
      stack := ⟨top.name, init.map s.view ++ [(s.view last).asRestart cycles]⟩ :: rest.map s.element })
      (s.modify last fun f => { f with eventType := .looprstart, cycles := cycles }) := by
  have unshared := in_loop_unshared (Or.inl type)
  have inside : last ∈ top.entries := by simp [entries]
  obtain ⟨_, loose, _⟩ := sound_pop sound (pop_top full)
  have valid : s.Valid last := loose.valid last inside
  have apart : last ∉ init := fun member => by
    have once := loose.once
    rw [entries] at once
    exact unshared ((List.pairwise_append.mp once).2.2 last member last (List.mem_singleton_self _) rfl)
  let g : Entry → Entry := fun f => { f with eventType := .looprstart, cycles := cycles }
  have changed := shows_modify (shows_pop shows_ running full) g (free_of_top sound full inside unshared)
  have below : rest.map (s.modify last g).element = rest.map s.element := by
    have frames := changed.frames l
    rw [stack_of_modify, stack_of_set, if_pos ⟨rfl, running.symm⟩, Function.update_self,
      shows_top shows_ running full] at frames
    exact frames
  have first : (s.modify last g).element top =
      ⟨top.name, init.map s.view ++ [(s.view last).asRestart cycles]⟩ := by
    rw [State.element, entries, List.map_append, map_view_other apart, List.map_singleton, State.view,
      deref_modify_self g valid]
    rfl
  have here : ((s.modify last g).stackOf c l).map (s.modify last g).element =
      ⟨top.name, init.map s.view ++ [(s.view last).asRestart cycles]⟩ :: rest.map s.element := by
    rw [stack_of_modify, ← running, full, List.map_cons, first, below]
  have back := shows_stack changed l here (fun k other => ?_) (fun _ _ => rfl) fun _ _ _ => rfl
  · rwa [Function.update_idem, Function.update_self] at back
  · rw [stack_of_modify, stack_of_modify, stack_of_set, if_neg fun same => other (same.2.trans running)]

theorem shows_next {elem : ServiceStackElement} {rest : List ServiceStackElement} {first : Ref} (cycles : Int)
    (shows_ : Shows c m s) (sound : Sound true s) (running : s.currentLEU c = l)
    (full : s.stackOf c (s.currentLEU c) = elem :: rest) (head : elem.entries.head? = some first)
    (stored : ((s.setCurrentStack c rest).modify first fun f => { f with eventType := .loopstart }).pushServiceToLEU
      c elem = some t) (cpu : (t.deref first).cpu = c) :
    ∃ h tail below, (m l).stack = ⟨elem.name, h :: tail⟩ :: below ∧
      Shows c (Function.update m l ⟨⟨elem.name, [h.asRestart cycles]⟩ :: below,
        (m l).done ++ [⟨elem.name, h.asStart :: tail⟩]⟩)
        (t.openService c { t.deref first with cycles := cycles, eventType := .looprstart } elem.name) := by
  obtain ⟨sound₁, loose₁, heads⟩ := sound_pop sound (pop_top full)
  obtain ⟨h, tail, entries, opening⟩ := heads rfl
  obtain rfl : first = h := by simpa [entries] using head.symm
  have unshared := opening_not_shareable opening
  have valid : (s.setCurrentStack c rest).Valid first := loose₁.valid first (by simp [entries])
  have kept := shows_iteration (shows_pop shows_ running full) running loose₁ entries unshared stored
  have sound₂ := sound_store (sound_modify sound₁ first (fun f => { f with eventType := .loopstart })
    (fun shared => absurd shared unshared) fun _ => by simp [EventType.Opening])
    (loose_modify loose₁ first _ fun shared => absurd shared unshared) stored
  obtain ⟨heap, leu, _⟩ := store_keeps stored
  have copied : t.deref first = { s.deref first with eventType := .loopstart } := by
    rw [State.deref, heap]
    exact deref_modify_self (fun f => { f with eventType := .loopstart }) valid
  have again := shows_open_service (a := (s.view first).asRestart cycles) kept sound₂
    (e := { t.deref first with cycles := cycles, eventType := .looprstart }) cpu (leu ▸ running)
    (by rw [copied]; rfl) elem.name
  have innermost := shows_top shows_ running full
  rw [State.element, entries, List.map_cons] at innermost
  refine ⟨_, _, _, innermost, ?_⟩
  simp only [Function.update_idem, Function.update_self, innermost, List.tail_cons] at again
  exact again

theorem shows_looprstart {e a : Entry} (shows_ : Shows c m s) (sound : Sound true s) (cpu : e.cpu = c)
    (type : e.eventType = .looprstart) (back : RestartsHome s e) (running : s.currentLEU c = l)
    (seen : e.unlabelled = a) (done : handleLOOPRSTART s e = some t) :
    Shows c (Function.update m l ((m l).restart a)) t := by
  subst cpu
  have cycles : a.cycles = e.cycles := by rw [← seen]; rfl
  have touched := shows_touch shows_ e.cpu
  have sound₁ := sound_touch sound e.cpu
  unfold handleLOOPRSTART at done
  dsimp only at done
  split at done
  · rename_i empty
    obtain rfl := Option.some.inj done
    have same : (m l).restart a = m l := by rw [Machine.restart, shows_empty touched running empty]
    rw [same, Function.update_eq_self]
    exact touched
  · rename_i top rest full
    rw [State.currentStack] at full
    have innermost := shows_top touched running full
    simp only [bind, Option.bind_eq_some_iff] at done
    obtain ⟨last, hlast, done⟩ := done
    split at done
    · rename_i start
      obtain rfl := Option.some.inj done
      obtain ⟨init, split⟩ := List.getLast?_eq_some_iff.mp hlast
      have elem : (s.touch e.cpu).element top =
          ⟨top.name, init.map (s.touch e.cpu).view ++ [(s.touch e.cpu).view last]⟩ := by
        simp [State.element, split]
      rw [elem] at innermost
      rw [restart_start a innermost ((unlabelled_type (Or.inl rfl)).mpr start), cycles]
      exact shows_relabel_last e.cycles touched sound₁ running full split start
    · rename_i later
      have pushed := shows_push_new touched sound₁ rfl running seen
      have full₂ := pushed_top ((s.touch e.cpu).next e.cpu)
        (show ((s.touch e.cpu).alloc e).stackOf e.cpu _ = top :: rest from full)
      rw [pop_top full₂] at done
      simp only [Option.bind_some, Option.bind_eq_some_iff] at done
      obtain ⟨first, head, s₃, stored, eq⟩ := done
      obtain rfl := Option.some.inj eq
      have running₁ : (((s.touch e.cpu).alloc e).pushService e.cpu ((s.touch e.cpu).next e.cpu)).currentLEU
          e.cpu = l := by
        rw [push_service_leu]
        exact running
      obtain ⟨h, tail, below, split, opened⟩ := shows_next e.cycles pushed (sound_push_new sound₁ e) running₁ full₂
        head stored (restarted_cpu sound type back full (pop_top full₂) head stored)
      have ending : ((s.touch e.cpu).element top).entries.getLast? = some ((s.touch e.cpu).view last) := by
        rw [State.element, List.getLast?_map, hlast, Option.map_some]
      simp only [Function.update_self, Machine.push, innermost, pushTop, List.cons.injEq, Element.mk.injEq] at split
      obtain ⟨⟨_, values⟩, rfl⟩ := split
      cases entries : ((s.touch e.cpu).element top).entries with
      | nil =>
        rw [entries] at ending
        cases ending
      | cons x ys =>
        rw [entries, List.cons_append] at values
        obtain ⟨rfl, rfl⟩ := List.cons.inj values
        rw [entries] at ending
        have stack : (m l).stack = ⟨top.name, x :: ys⟩ :: rest.map (s.touch e.cpu).element := by
          rw [innermost, ← entries]
          rfl
        rw [restart_later a stack ending fun type => later ((unlabelled_type (Or.inl rfl)).mp type), cycles]
        rw [Function.update_idem, Function.update_self] at opened
        exact opened

theorem shows_store_loop {elem : ServiceStackElement} {h : Ref} {tail : List Ref} (shows_ : Shows c m s)
    (running : s.currentLEU c = l) (loose : Loose true s elem.entries) (head : elem.entries = h :: tail)
    (stored : s.storeLoop c elem h = some t) :
    Shows c (Function.update m l { m l with done := (m l).done ++
      if (s.view h).eventType = .looprstart then [⟨elem.name, (s.view h).asStart :: tail.map s.view⟩] else [] }) t ∧
      t.currentLEU c = l := by
  have type := unlabelled_type (e := s.deref h) (Or.inr rfl)
  unfold State.storeLoop at stored
  split at stored
  · rename_i again
    rw [if_pos (show (s.view h).eventType = .looprstart from type.mpr again)]
    refine ⟨shows_iteration shows_ running loose head (in_loop_unshared (Or.inr again)) stored, ?_⟩
    rw [(store_keeps stored).2.1]
    exact running
  · rename_i once
    obtain rfl := Option.some.inj stored
    rw [if_neg (show ¬ (s.view h).eventType = .looprstart from fun again => once (type.mp again)), List.append_nil,
      update_same_stack rfl]
    exact ⟨shows_, running⟩

theorem shows_loopstop {e a : Entry} (shows_ : Shows c m s) (sound : Sound true s) (cpu : e.cpu = c)
    (running : s.currentLEU c = l) (seen : e.unlabelled = a) (done : handleLOOPSTOP s e = some t) :
    Shows c (Function.update m l ((m l).stop a)) t := by
  subst cpu
  have cycles : a.cycles = e.cycles := by rw [← seen]; rfl
  have touched := shows_touch shows_ e.cpu
  have sound₁ := sound_touch sound e.cpu
  unfold handleLOOPSTOP at done
  dsimp only at done
  cases full : (s.touch e.cpu).stackOf e.cpu ((s.touch e.cpu).currentLEU e.cpu) with
  | nil =>
    have none : (s.touch e.cpu).pop e.cpu = none := by
      unfold State.pop State.currentStack
      rw [full]
    rw [none] at done
    obtain rfl := Option.some.inj done
    have same : (m l).stop a = m l := by rw [Machine.stop, shows_empty touched running full]
    rw [same, Function.update_eq_self]
    exact touched
  | cons top rest =>
    obtain ⟨sound₂, loose₂, heads⟩ := sound_pop sound₁ (pop_top full)
    obtain ⟨h, tail, entries, _⟩ := heads rfl
    rw [pop_top full] at done
    simp only [entries, List.head?_cons] at done
    obtain ⟨s₃, stored, rfl⟩ := Option.map_eq_some_iff.mp done
    let s₂ := (s.touch e.cpu).setCurrentStack e.cpu rest
    let copy : Entry := { s₂.deref h with eventType := .looprstart, cycles := e.cycles }
    have valid : s₂.Valid h := loose₂.valid h (by simp [entries])
    have loose₃ := loose_snoc sound₂ loose₂ copy
    rw [entries] at loose₃
    have popped := shows_alloc (shows_pop touched running full) sound₂ copy
    have head : (h :: tail) ++ [s₂.next copy.cpu] = h :: (tail ++ [s₂.next copy.cpu]) := rfl
    obtain ⟨kept, running₃⟩ := shows_store_loop popped running loose₃ head stored
    have sound₃ := sound_store_loop (sound_alloc sound₂ copy) loose₃ stored
    have ended := shows_push_new kept sound₃ rfl running₃ seen
    have innermost := shows_top touched running full
    rw [State.element, entries, List.map_cons] at innermost
    have first : (s₂.alloc copy).view h = (s.touch e.cpu).view h := view_alloc valid
    have others : (tail ++ [s₂.next copy.cpu]).map (s₂.alloc copy).view =
        tail.map (s.touch e.cpu).view ++ [((s.touch e.cpu).view h).asRestart a.cycles] := by
      rw [List.map_append, List.map_singleton, view_alloc_next, cycles]
      refine congrArg (· ++ _) (List.map_congr_left fun r member => ?_)
      exact view_alloc (loose₂.valid r (by simp [entries, member]))
    rw [first, others] at ended
    simp only [Function.update_idem, Function.update_self, innermost, List.tail_cons] at ended
    have stopped : (m l).stop a = Machine.push ⟨rest.map (s.touch e.cpu).element, (m l).done ++
        if ((s.touch e.cpu).view h).eventType = .looprstart then [⟨top.name, ((s.touch e.cpu).view h).asStart ::
          (tail.map (s.touch e.cpu).view ++ [((s.touch e.cpu).view h).asRestart a.cycles])⟩] else []⟩ a := by
      rw [Machine.stop, innermost]
      dsimp only [lastIteration]
      split <;> rfl
    rw [stopped]
    exact ended

end Running

end Values

def Execution.machine (x : Execution) (l : LEU) : Machine := Machine.empty.run (x.word l)

theorem machine_add (x : Execution) (y : Sym Kind Entry) :
    (x.add y).machine = Function.update x.machine x.current ((x.machine x.current).step y) := by
  funext l
  by_cases here : l = x.current
  · subst here
    simp only [Execution.machine, word_add, if_true, machine_run_append, Function.update_self]
    rfl
  · simp only [Execution.machine, word_add, if_neg here, Function.update_of_ne here]

theorem machine_add_plain (x : Execution) {a : Entry} (type : a.eventType ≠ .looprstart) :
    (x.add (.plain a)).machine = Function.update x.machine x.current ((x.machine x.current).push a) := by
  rw [machine_add, Machine.step, if_neg type]

theorem noted_type (e : Entry) : e.noted.eventType = e.eventType.unlabelled := by
  unfold Entry.noted Entry.rewritten Entry.unlabelled
  split <;> try rfl
  split <;> rfl

theorem noted_loop {e : Entry} {type : EventType} (loop : type.InLoop) :
    e.noted.eventType = type ↔ e.eventType = type := by
  rw [noted_type]
  rcases loop with rfl | rfl <;> cases e.eventType <;> simp [EventType.unlabelled]

section Events
variable {c : Fin 2} {x : Execution} {s t : State} {e : Entry}

theorem shows_append_last {m : LEU → Machine} (shows_ : Shows c m s) (done : s.appendLastToPEU c = some t) :
    Shows c m t := by
  refine append_last_keeps (P := Shows c m) (fun u start duration irq holds => ?_) (fun u peu holds => ?_) shows_ done
  · exact shows_relabel holds (relabels_modify u start _ rfl)
  · exact shows_relabel holds (relabels_peu u peu)

theorem restart_noted (type : e.eventType ≠ .looprstart) : e.noted.eventType ≠ .looprstart :=
  fun again => type ((noted_loop (Or.inr rfl)).mp again)

theorem event_push (e' : Entry) (shows_ : Shows c x.machine s) (sound : Sound true s) (cpu : e'.cpu = c)
    (running : s.currentLEU c = x.current) (seen : e'.unlabelled = e.noted) (type : e.eventType ≠ .looprstart)
    (step : x.step e = x.add (.plain e.noted)) :
    Shows c (x.step e).machine ((s.alloc e').pushService e'.cpu (s.next e'.cpu)) := by
  rw [step, machine_add_plain x (restart_noted type)]
  exact shows_push_new shows_ sound cpu running seen

theorem event_push_peu (e' : Entry) (shows_ : Shows c x.machine s) (sound : Sound true s) (cpu : e'.cpu = c)
    (running : s.currentLEU c = x.current) (seen : e'.unlabelled = e.noted) (type : e.eventType ≠ .looprstart)
    (step : x.step e = x.add (.plain e.noted)) (done : s.pushWithPEU e' = some t) :
    Shows c (x.step e).machine t := by
  subst cpu
  exact shows_append_last (event_push e' shows_ sound rfl running seen type step) done

theorem event_service (e' : Entry) (shows_ : Shows c x.machine s) (sound : Sound true s) (cpu : e'.cpu = c)
    (running : s.currentLEU c = x.current) (seen : e'.unlabelled = e.noted)
    (step : x.step e = x.add (.opens .service e.noted)) :
    Shows c (x.step e).machine (s.pushNewService e' e'.service) := by
  have name : e'.service = bracketName .service e.noted := by rw [← seen]; rfl
  rw [step, machine_add, name]
  exact shows_new_service _ shows_ sound cpu running seen

theorem event_ctxsw (shows_ : Shows c x.machine s) (sound : Sound true s) (cpu : e.cpu = c)
    (running : s.currentLEU c = x.current) (type : e.eventType = .ctxsw) (done : handleCTXSW s e = some t) :
    Shows c (x.step e).machine t := by
  subst cpu
  obtain rfl := Option.some.inj done
  have seen : e.unlabelled = e.noted := by simp [Entry.noted, Entry.rewritten, type]
  have other : e.noted.eventType ≠ .looprstart := restart_noted (by simp [type])
  have left := shows_push_new shows_ sound rfl running seen
  rw [← machine_add_plain x other] at left
  let u := ((s.alloc e).pushService e.cpu (s.next e.cpu)).setCurrentLEU e.cpu (.thread e.pid2)
  have switched : Shows e.cpu (x.add (.plain e.noted)).machine u :=
    shows_view left (fun _ => rfl) (fun _ _ => rfl) fun _ _ _ => rfl
  have thread : u.currentLEU e.cpu = .thread e.pid2 := Function.update_self ..
  have entered := shows_push switched thread (view_pushed seen)
  rw [step_ctxsw x type, machine_add_plain _ other]
  exact shows_ensure entered (.thread e.pid2)

theorem event_hirqentry (shows_ : Shows c x.machine s) (sound : Sound true s) (cpu : e.cpu = c)
    (running : s.currentLEU c = x.current) (type : e.eventType = .hirqentry) (done : handleHIRQEntry s e = some t) :
    Shows c (x.step e).machine t := by
  subst cpu
  have seen : e.unlabelled = e.noted := by simp [Entry.noted, Entry.rewritten, type]
  have other : e.noted.eventType ≠ .looprstart := restart_noted (by simp [type])
  have left := shows_push_new shows_ sound rfl running seen
  rw [← machine_add_plain x other] at left
  let u := (((s.alloc e).pushService e.cpu (s.next e.cpu)).interrupt e.cpu e.pid1).ensureLEU (.hardwareInterrupt e.pid1)
  have entered : Shows e.cpu (x.add (.plain e.noted)).machine u :=
    shows_view left (fun _ => rfl) (instances_of_ensure _ _) fun _ _ _ => rfl
  have irq : u.currentLEU e.cpu = .hardwareInterrupt e.pid1 := Function.update_self ..
  have sound' : Sound true u := sound_ensure (sound_interrupt (sound_push_new sound e) e.cpu e.pid1) _
  have name : irqService e.pid1 = bracketName .irq e.noted := by rw [← seen]; rfl
  have opened := shows_new_service (irqService e.pid1) entered sound' rfl irq seen
  rw [step_hirqentry x type, machine_add]
  rw [name] at opened
  exact shows_append_last opened (by rw [← name]; exact done)

theorem event_hirqexit (shows_ : Shows c x.machine s) (tracks : Tracks c x.picture s) (sound : Sound true s)
    (context : Context x) (cpu : e.cpu = c) (type : e.eventType = .hirqexit) (orderly : Orderly x e)
    (pieces : ∀ l, Piece ((x.step e).word l)) (done : handleHIRQExit s e = some t) :
    Shows c (x.step e).machine t := by
  subst cpu
  have inside := orderly.switches
  simp only [Switches, type] at inside
  obtain ⟨leu, rest, aside⟩ := List.exists_cons_of_ne_nil inside
  have seen : e.unlabelled = e.noted := by simp [Entry.noted, Entry.rewritten, type]
  have other : e.noted.eventType ≠ .looprstart := restart_noted (by simp [type])
  obtain ⟨f, st, innermost, kind⟩ := irq_innermost context aside type (pieces x.current)
  obtain ⟨s₁, exited, heap, _, _, closed⟩ := tracks_closes (tracks_alloc tracks sound e)
    ((view_alloc_next s e).trans seen) innermost (by rw [kind]; decide)
  have aside₁ : s₁.interrupted = leu :: rest := closed.interrupted.trans aside
  have left := shows_srvexit (shows_alloc shows_ sound e) tracks.current ((view_alloc_next s e).trans seen) exited
  have step : Function.update x.machine x.current ((x.machine x.current).close e.noted) =
      (x.add (.closes .irq e.noted)).machine := (machine_add x (.closes .irq e.noted)).symm
  have resumed : Shows e.cpu (x.add (.closes .irq e.noted)).machine (s₁.resume e.cpu leu rest) := by
    rw [← step]
    exact shows_view left (fun _ => rfl) (fun _ _ => rfl) fun _ _ _ => rfl
  have view : (s₁.resume e.cpu leu rest).view (s.next e.cpu) = e.noted := by
    rw [view_of_heap (show (s₁.resume e.cpu leu rest).heap = (s.alloc e).heap from heap), view_alloc_next, seen]
  have back : (s₁.resume e.cpu leu rest).currentLEU e.cpu = leu := Function.update_self ..
  have pushed := shows_push resumed back view
  simp only [handleHIRQExit, exited, bind, Option.bind_some, if_true, aside₁] at done
  rw [step_hirqexit type aside, machine_add_plain _ other]
  exact shows_append_last pushed done

theorem event_loopstart (shows_ : Shows c x.machine s) (sound : Sound true s) (cpu : e.cpu = c)
    (running : s.currentLEU c = x.current) (type : e.eventType = .loopstart) (done : handleLOOPSTART s e = some t) :
    Shows c (x.step e).machine t := by
  subst cpu
  have seen : e.unlabelled = e.noted := by simp [Entry.noted, Entry.rewritten, type]
  have touched := shows_touch shows_ e.cpu
  rw [step_symbol x (y := .opens .loop e.noted) (by simp [Entry.symbol, type]) (by simp [type]) (by simp [type])
    (by simp [type]), machine_add, Machine.step]
  unfold handleLOOPSTART State.currentStack at done
  dsimp only at done
  cases full : (s.touch e.cpu).stackOf e.cpu ((s.touch e.cpu).currentLEU e.cpu) with
  | nil =>
    rw [full] at done
    obtain rfl := Option.some.inj done
    rw [shows_empty touched running full, List.isEmpty_nil, if_pos rfl, Function.update_eq_self]
    exact touched
  | cons top rest =>
    rw [full] at done
    obtain rfl := Option.some.inj done
    have name : e.location = e.noted.location := by rw [← seen]; rfl
    rw [shows_top touched running full, if_neg (by simp), ← name]
    exact shows_new_service e.location touched (sound_touch sound e.cpu) rfl running seen

theorem event_sync {operation : Sync} (shows_ : Shows c x.machine s) (sound : Sound true s) (cpu : e.cpu = c)
    (running : s.currentLEU c = x.current) (type : e.eventType = .sync operation false)
    (done : handleSync s e operation = some t) : Shows c (x.step e).machine t := by
  subst cpu
  have step := step_symbol x (e := e) (y := .plain e.noted) (by simp [Entry.symbol, type])
    (by simp [type]) (by simp [type]) (by simp [type])
  unfold handleSync at done
  split at done
  · exact event_push_peu e shows_ sound rfl running (by simp [Entry.noted, Entry.rewritten, type]) (by simp [type])
      step done
  · rename_i v _
    obtain ⟨u, pushed, rfl⟩ := Option.map_eq_some_iff.mp done
    have sound' := sound_touch sound e.cpu
    have touched := shows_touch shows_ e.cpu
    have noted : Shows e.cpu x.machine ((s.touch e.cpu).noteUser e.cpu v operation) ∧
        ((s.touch e.cpu).noteUser e.cpu v operation).currentLEU = s.currentLEU ∧
        Sound true ((s.touch e.cpu).noteUser e.cpu v operation) := by
      unfold State.noteUser
      split
      · exact ⟨touched, rfl, sound'⟩
      · exact ⟨shows_relabel touched (relabels_modify _ _ _ rfl), rfl, sound_modify sound' v.entry _ id id⟩
    obtain ⟨noted, leu, sound''⟩ := noted
    have after := event_push_peu { e with eventType := .sync operation true } noted sound'' rfl (leu ▸ running)
      (by simp [Entry.noted, Entry.rewritten, Entry.unlabelled, type, EventType.unlabelled]) (by simp [type]) step pushed
    exact shows_view after (fun _ => rfl) (fun _ _ => rfl) fun _ _ _ => rfl

theorem event_pktqueue (shows_ : Shows c x.machine s) (tracks : Tracks c x.picture s) (sound : Sound true s)
    (quiet : Quiet s) (cpu : e.cpu = c) (type : e.eventType = .pktqueue ∨ e.eventType = .pktqueuen)
    (awake : x.current ≠ .nobody) (done : handlePKTQUEUE s e = some t) : Shows c (x.step e).machine t := by
  obtain ⟨u, label, labelled, relabels, sound', _, kind⟩ := label_packet sound quiet (tracks.last awake) type
  have step : x.step e = x.add (.plain e.noted) := by
    refine step_symbol x ?_ ?_ ?_ ?_
    all_goals rcases type with type | type <;> simp [Entry.symbol, type]
  have seen : { e with eventType := label, packetId := toString (GoText.parseIntValue 16 e.packetId) }.unlabelled =
      e.noted := by
    rcases type with type | type <;> rcases kind with rfl | rfl
    all_goals simp [Entry.noted, Entry.rewritten, Entry.unlabelled, type, EventType.unlabelled]
  unfold handlePKTQUEUE at done
  rw [labelled] at done
  obtain rfl := Option.some.inj done
  have other : e.eventType ≠ .looprstart := by rcases type with type | type <;> simp [type]
  have running : u.currentLEU c = x.current := by rw [relabels.currentLEU]; exact tracks.current
  exact event_push { e with eventType := label, packetId := toString (GoText.parseIntValue 16 e.packetId) }
    (shows_relabel shows_ relabels) sound' cpu running seen other step

theorem shows_event (shows_ : Shows c x.machine s) (tracks : Tracks c x.picture s) (sound : Sound true s) (quiet : Quiet s)
    (context : Context x) (cpu : e.cpu = c) (back : RestartsHome s e) (orderly : Orderly x e)
    (pieces : ∀ l, Piece ((x.step e).word l)) (awake : e.eventType = .ctxsw ∨ x.current ≠ .nobody)
    (done : handleEvent s e = some t) :
    Shows c (x.step e).machine t := by
  have running : s.currentLEU c = x.current := tracks.current
  unfold handleEvent at done
  split at done
  · rename_i type
    exact event_ctxsw shows_ sound cpu running type done
  · rename_i type
    rw [migrate_stays tracks cpu type orderly] at done
    rw [step_nothing x (by simp [Entry.symbol, type]), ← Option.some.inj done]
    exact shows_
  · rename_i type
    exact event_hirqentry shows_ sound cpu running type done
  · rename_i type
    exact event_hirqexit shows_ tracks sound context cpu type orderly pieces done
  · rename_i type
    have seen : e.unlabelled = e.noted := by simp [Entry.noted, Entry.rewritten, type]
    rw [step_symbol x (y := .plain e.noted) (by simp [Entry.symbol, type]) (by simp [type]) (by simp [type])
      (by simp [type]), machine_add, Machine.step, if_pos ((noted_loop (Or.inr rfl)).mpr type)]
    exact shows_looprstart shows_ sound cpu type back running seen done
  · rename_i type
    exact event_loopstart shows_ sound cpu running type done
  · rename_i type
    have seen : e.unlabelled = e.noted := by simp [Entry.noted, Entry.rewritten, type]
    rw [step_symbol x (y := .closes .loop e.noted) (by simp [Entry.symbol, type]) (by simp [type]) (by simp [type])
      (by simp [type]), machine_add]
    exact shows_loopstop shows_ sound cpu running seen done
  · rename_i type
    refine event_push_peu e shows_ sound cpu running ?_ (by simp [type]) (step_symbol x ?_ ?_ ?_ ?_) done
    all_goals simp [Entry.noted, Entry.rewritten, Entry.symbol, type]
  · rename_i type
    exact event_sync shows_ sound cpu running type done
  · rename_i type
    exact event_pktqueue shows_ tracks sound quiet cpu (Or.inl type) (awake.resolve_left (by simp [type])) done
  · rename_i type
    exact event_pktqueue shows_ tracks sound quiet cpu (Or.inr type) (awake.resolve_left (by simp [type])) done
  · rename_i type
    obtain rfl := Option.some.inj done
    exact event_service { e with packetId := "0" } shows_ sound cpu running
      (by simp [Entry.noted, Entry.rewritten, type])
      (step_symbol x (by simp [Entry.symbol, type]) (by simp [type]) (by simp [type]) (by simp [type]))
  · rename_i type
    subst cpu
    have seen : e.unlabelled = e.noted := by simp [Entry.noted, Entry.rewritten, type]
    obtain ⟨⟨u, closed⟩, exited, rfl⟩ := Option.map_eq_some_iff.mp done
    rw [step_symbol x (y := .closes .service e.noted) (by simp [Entry.symbol, type]) (by simp [type])
      (by simp [type]) (by simp [type]), machine_add]
    exact shows_srvexit (shows_alloc shows_ sound e) running ((view_alloc_next s e).trans seen) exited
  · rename_i type
    unfold handleSRVQUEUE at done
    split at done
    · rename_i enqueue
      obtain rfl := Option.some.inj done
      exact event_push { e with service := (softirqs e.service).getD e.service } shows_ sound cpu running
        (by simp [Entry.noted, Entry.rewritten, type, enqueue]) (by simp [type])
        (step_symbol x (by simp [Entry.symbol, type, enqueue]) (by simp [type]) (by simp [type]) (by simp [type]))
    · rename_i dequeue
      obtain rfl := Option.some.inj done
      exact event_service { e with packetId := "0" } shows_ sound cpu running
        (by simp [Entry.noted, Entry.rewritten, type, dequeue])
        (step_symbol x (by simp [Entry.symbol, type, dequeue]) (by simp [type]) (by simp [type]) (by simp [type]))
  · rename_i type
    obtain rfl := Option.some.inj done
    have after := event_push (e := e) { e with tempVarId := s.tempVarId } shows_ sound cpu running
      (by simp [Entry.noted, Entry.rewritten, Entry.unlabelled, type]) (by simp [type])
      (step_symbol x (by simp [Entry.symbol, type]) (by simp [type]) (by simp [type]) (by simp [type]))
    exact shows_view after (fun _ => rfl) (fun _ _ => rfl) fun _ _ _ => rfl
  all_goals rename_i type
  all_goals first
    | rw [step_nothing x (by simp [Entry.symbol, type]), ← Option.some.inj done]
      exact shows_
    | obtain rfl := Option.some.inj done
      exact event_push e shows_ sound cpu running (by simp [Entry.noted, Entry.rewritten, type]) (by simp [type])
        (step_symbol x (by simp [Entry.symbol, type]) (by simp [type]) (by simp [type]) (by simp [type]))

end Events

theorem shows_run {c : Fin 2} {ls : List Line} (lines : ∀ l ∈ ls, l.OnCPU c) (ok : WellFormed (entriesOf c ls)) :
    ∃ r, Run.initial.lines ls = some r ∧ Shows c (execution (entriesOf c ls)).machine r.state := by
  have both := run_entries (P := fun es s => Follows c es s ∧ Shows c (execution es).machine s) lines ok
    (fun _ _ ok => ok.init.1) ⟨follows_initial c, fun _ => rfl, fun _ _ => rfl⟩
    (fun es s t holds same => ?_) fun es e s ok holds cpu first => ?_
  · obtain ⟨r, ran, _, shows_⟩ := both
    exact ⟨r, ran, shows_⟩
  · refine ⟨follows_analysis holds.1 same, ?_⟩
    simp only [State.analysis, State.mk.injEq] at same
    obtain ⟨heap, leu, stack, aside, _, leus, _, last, _⟩ := same
    exact shows_relabel holds.2 (relabels_trivial s t leu stack aside leus last heap)
  · obtain ⟨follows, shows_⟩ := holds
    obtain ⟨t, done, after⟩ := follows_step ok follows cpu first
    refine ⟨t, done, after, ?_⟩
    have pieces := ok.nested
    rw [execution_snoc] at pieces ⊢
    refine shows_event shows_ follows.tracks follows.sound follows.quiet follows.context cpu
      (homed_restarts follows.homed e) ok.init.2 pieces ?_ done
    by_cases start : es = []
    · exact Or.inl (first start)
    · exact Or.inr fun nobody => follows.awake start (by rw [nobody]; exact List.mem_cons_self ..)

section Types
variable {x : Execution} {y : Sym Kind Entry} {e : Entry}

theorem symbol_typed (symbol : e.symbol = some y) : Typed y := by
  have noted := noted_type e
  unfold Entry.symbol at symbol
  split at symbol
  all_goals rename_i type
  all_goals rw [type] at noted
  · obtain rfl := Option.some.inj symbol
    simp [Typed, noted, EventType.unlabelled]
  · obtain rfl := Option.some.inj symbol
    split <;> simp [Typed, noted, EventType.unlabelled]
  all_goals first
    | cases symbol
      done
    | obtain rfl := Option.some.inj symbol
      simp [Typed, noted, EventType.unlabelled, EventType.InLoop]

theorem typed_add (typed : ∀ l, ∀ y ∈ x.word l, Typed y) (last : Typed y) (l : LEU) :
    ∀ y' ∈ (x.add y).word l, Typed y' := by
  intro y' member
  rw [word_add] at member
  split at member
  · rcases List.mem_append.mp member with before | here
    · exact typed l y' before
    · rw [List.mem_singleton.mp here]
      exact last
  · exact typed l y' member

theorem plain_typed (type : e.eventType ≠ .loopstart) : Typed (.plain e.noted) :=
  fun start => type ((noted_loop (Or.inl rfl)).mp start)

theorem typed_step (typed : ∀ l, ∀ y ∈ x.word l, Typed y) (e : Entry) (l : LEU) :
    ∀ y ∈ (x.step e).word l, Typed y := by
  unfold Execution.step
  split
  · exact typed l
  · rename_i y symbol
    have last := symbol_typed symbol
    split
    · refine typed_add ?_ last l
      exact fun l => typed_add typed last l
    · rename_i type
      have before : Typed (.plain e.noted) := plain_typed (by simp [type])
      refine typed_add ?_ last l
      exact fun l => typed_add typed before l
    · rename_i type
      split
      · exact typed_add typed last l
      · refine typed_add ?_ (plain_typed (by simp [type])) l
        exact fun l => typed_add typed last l
    · exact typed_add typed last l

theorem word_typed (es : List Entry) (l : LEU) : ∀ y ∈ (execution es).word l, Typed y := by
  induction es using List.reverseRecOn generalizing l with
  | nil => simp [execution, Execution.initial]
  | append_singleton es e ih =>
    rw [execution_snoc]
    exact typed_step ih e l

end Types

structure LoopExecution (w : List (Sym Kind Entry)) where
  before : List (Sym Kind Entry)
  opening : Entry
  inside : List (Sym Kind Entry)
  closing : Entry
  after : List (Sym Kind Entry)
  word : w = before ++ .opens .loop opening :: (inside ++ .closes .loop closing :: after)
  balanced : Balanced inside
  service : ∃ f ∈ (scan shown before).stack, f.kind ≠ .loop

def LoopExecution.items {w : List (Sym Kind Entry)} (p : LoopExecution w) : List Entry := level shown p.inside

/-- The instances under the location of a loop that begin with its opening event. -/
def State.iterationsOf (s : State) (l : LEU) (a : Entry) : List (List Entry) :=
  (s.recorded l a.location).filter fun es => decide (es.head?.map Entry.lineNr = some a.lineNr)

theorem stored_under_opened (n : String) (k : Nat) (els : List Element) :
    (storedUnder n els).filter (fun es => decide (es.head?.map Entry.lineNr = some k)) =
      storedUnder n (els.filter (opened k)) := by
  rw [storedUnder, storedUnder, List.filter_map, List.filter_filter, List.filter_filter]
  congr 2
  funext v
  exact Bool.and_comm ..

theorem stored_under_all (n : String) (ess : List (List Entry)) : storedUnder n (ess.map (Element.mk n)) = ess := by
  simp [storedUnder, List.filter_map, Function.comp_def]

theorem loop_recorded {w : List (Sym Kind Entry)} (p : LoopExecution w) (typed : ∀ y ∈ w, Typed y)
    (nodup : (linesOf w).Nodup) :
    storedUnder p.opening.location ((Machine.empty.run w).done.filter (opened p.opening.lineNr)) =
      iterations p.opening p.items p.closing ∧ p.opening.eventType = .loopstart := by
  obtain ⟨before, a, u, b, after, rfl, balanced, f, inside, service⟩ := p
  have start : Typed (.opens .loop a) := typed _ (by simp)
  refine ⟨?_, start.2 rfl⟩
  rw [loop_stored balanced (fun y member => typed y (by simp [member])) inside service nodup, stored_under_all]
  rfl

/-- The iterations stored for a loop are its turns exactly if it has none, or nothing at its
    level comes before its first restart. -/
theorem loop_iterations_iff (c : Fin 2) (file : List String) (lines : ∀ l ∈ file.map lexLine, l.OnCPU c)
    (ok : WellFormed (entriesOf c (file.map lexLine))) :
    ∃ r, run file = some r ∧
      ∀ l (p : LoopExecution ((execution (entriesOf c (file.map lexLine))).word l)),
        List.Forall₂ Iteration (r.state.iterationsOf l p.opening) (rounds p.items p.closing) ↔
          (∀ e ∈ p.items, e.eventType ≠ .looprstart) ∨
            ∃ e rest, p.items = e :: rest ∧ e.eventType = .looprstart := by
  obtain ⟨r, ran, shows_⟩ := shows_run lines ok
  refine ⟨r, ran, fun l p => ?_⟩
  obtain ⟨stored, start⟩ := loop_recorded p (word_typed (entriesOf c (file.map lexLine)) l)
    (opening_lines_nodup (entries_sorted c (file.map lexLine)) l)
  rw [State.iterationsOf, shows_.stored, stored_under_opened, Execution.machine, stored]
  exact iterations_iff start

def loopAt (w : List (Sym Kind Entry)) (i n : Nat) (a b : Entry)
    (word : w = w.take i ++ .opens .loop a :: ((w.drop (i + 1)).take n ++ .closes .loop b :: w.drop (i + n + 2)))
    (checked : check [] ((w.drop (i + 1)).take n) = some [])
    (service : (scan shown (w.take i)).stack.any fun f => f.kind ≠ .loop) : LoopExecution w where
  before := w.take i
  opening := a
  inside := (w.drop (i + 1)).take n
  closing := b
  after := w.drop (i + n + 2)
  word := word
  balanced := balanced_of_check checked
  service := by simpa using service

def twoTurns : List String :=
  ["CTXSW 0 1 1 1 2 0 0 a",
   "SRVENTRY 0 2 2 0 0 0 send a",
   "LOOPSTART 0 2 3 0 0 0 0 b",
   "LOOPRSTART 0 2 4 0 0 0 0 b",
   "SRVENTRY 0 2 5 0 0 0 copy c",
   "SRVEXIT 0 2 6 0 0 0 copy c",
   "LOOPRSTART 0 2 7 0 0 0 0 b",
   "LOOPSTOP 0 2 8 0 0 0 0 b",
   "SRVEXIT 0 2 9 0 0 0 send a"]

def eventOf (file : List String) (i : Nat) : Entry :=
  ((entriesOf cpu0 (file.map lexLine)).getD i (.blank cpu0)).noted

def twoTurnsLoop : LoopExecution ((execution (entriesOf cpu0 (twoTurns.map lexLine))).word (.thread 2)) :=
  loopAt _ 2 4 (eventOf twoTurns 2) (eventOf twoTurns 7) (by decide +kernel) (by decide +kernel) (by decide +kernel)

theorem loop_iterations_two_turns : (rounds twoTurnsLoop.items twoTurnsLoop.closing).length = 2 ∧
    ∃ r, run twoTurns = some r ∧ List.Forall₂ Iteration (r.state.iterationsOf (.thread 2) twoTurnsLoop.opening)
      (rounds twoTurnsLoop.items twoTurnsLoop.closing) := by
  have all : (∀ l ∈ twoTurns.map lexLine, l.OnCPU 0) ∧
      (∀ l ∈ (leusOf (entriesOf 0 (twoTurns.map lexLine))).dedup,
        check [] ((execution (entriesOf 0 (twoTurns.map lexLine))).word l) = some []) ∧
      TransitionRuns.Guarded (fun x e => some (x.step e)) Orderly .initial
        (entriesOf 0 (twoTurns.map lexLine)) ∧
      (rounds twoTurnsLoop.items twoTurnsLoop.closing).length = 2 ∧
      twoTurnsLoop.items.head?.map Entry.eventType = some .looprstart := by decide +kernel
  obtain ⟨onCpu, nested, orderly, count, first⟩ := all
  refine ⟨count, ?_⟩
  obtain ⟨r, ran, stored⟩ := loop_iterations_iff 0 twoTurns onCpu ⟨nested_of_check nested, orderly⟩
  refine ⟨r, ran, (stored _ twoTurnsLoop).mpr (Or.inr ?_)⟩
  cases items : twoTurnsLoop.items with
  | nil => simp [items] at first
  | cons e rest => exact ⟨e, rest, rfl, by simpa [items] using first⟩

def lateTurn : List String :=
  ["CTXSW 0 1 1 1 2 0 0 a",
   "SRVENTRY 0 2 2 0 0 0 send a",
   "LOOPSTART 0 2 3 0 0 0 0 b",
   "HIRQENTRY 0 2 4 7 0 0 0 c",
   "HIRQEXIT 0 2 5 7 0 0 0 c",
   "LOOPRSTART 0 2 6 0 0 0 0 b",
   "LOOPSTOP 0 2 7 0 0 0 0 b",
   "SRVEXIT 0 2 8 0 0 0 send a"]

def lateTurnLoop : LoopExecution ((execution (entriesOf cpu0 (lateTurn.map lexLine))).word (.thread 2)) :=
  loopAt _ 2 3 (eventOf lateTurn 2) (eventOf lateTurn 6) (by decide +kernel) (by decide +kernel) (by decide +kernel)

theorem interrupt_adds_an_iteration : (∀ l ∈ lateTurn.map lexLine, l.OnCPU 0) ∧
    WellFormed (entriesOf 0 (lateTurn.map lexLine)) ∧
    (rounds lateTurnLoop.items lateTurnLoop.closing).length = 1 ∧
    ((run lateTurn).map fun r => (r.state.iterationsOf (.thread 2) lateTurnLoop.opening).length) = some 2 := by
  have all : (∀ l ∈ lateTurn.map lexLine, l.OnCPU 0) ∧
      (∀ l ∈ (leusOf (entriesOf 0 (lateTurn.map lexLine))).dedup,
        check [] ((execution (entriesOf 0 (lateTurn.map lexLine))).word l) = some []) ∧
      TransitionRuns.Guarded (fun x e => some (x.step e)) Orderly .initial
        (entriesOf 0 (lateTurn.map lexLine)) ∧
      (rounds lateTurnLoop.items lateTurnLoop.closing).length = 1 ∧
      ((run lateTurn).map fun r => (r.state.iterationsOf (.thread 2) lateTurnLoop.opening).length) = some 2 := by
    decide +kernel
  exact ⟨all.1, ⟨nested_of_check all.2.1, all.2.2.1⟩, all.2.2.2⟩

end Analyse
