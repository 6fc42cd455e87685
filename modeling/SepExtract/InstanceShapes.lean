import SepExtract.AnalyseHeap
import SepExtract.TransitionRuns

/- The ends of the recorded instances. On a trace that closes what it has opened, every
   instance begins with an entry that opens its service and ends with one that closes it,
   however the events of the CPUs are mixed. -/
namespace Analyse

def Entry.opens (n : String) (e : Entry) : Bool :=
  match e.eventType with
  | .srventry => e.service = n
  | .srvqueue => e.service = n ∧ e.pid1 = DEQUEUE
  | .hirqentry => n = irqService e.pid1
  | .loopstart => e.location = n
  | _ => false

def Entry.closes (n : String) (e : Entry) : Bool :=
  match e.eventType with
  | .srvexit => e.service = n
  | .hirqexit => n = irqService e.pid1
  | .looprstart => true
  | _ => false

/-- The first entry of an open element: while a loop is open it can be that of a restart. -/
def Entry.heads (n : String) (e : Entry) : Prop :=
  e.opens n = true ∨ e.eventType = .looprstart ∧ e.location = n

def EventType.looping (t : EventType) : Bool := t = .loopstart ∨ t = .looprstart

def State.loops (s : State) (elem : ServiceStackElement) : Bool :=
  elem.entries.head?.any fun h => (s.deref h).eventType.looping

/-- The event closes the innermost element under its own name, and a loop is restarted and
    stopped inside it, restarted on the CPU where it has begun. -/
def Nested (s : State) (e : Entry) : Prop :=
  match e.eventType with
  | .srvexit => ∀ top ∈ (s.currentStack e.cpu).head?, top.name = e.service ∧ s.loops top = false
  | .hirqexit => ∀ top ∈ (s.currentStack e.cpu).head?, top.name = irqService e.pid1 ∧ s.loops top = false
  | .looprstart => ∀ top ∈ (s.currentStack e.cpu).head?, s.loops top = true ∧
      ∀ r ∈ top.entries.head?, (s.deref r).cpu = e.cpu
  | .loopstop => ∀ top ∈ (s.currentStack e.cpu).head?, s.loops top = true
  | .srvqueue => e.pid1 = ENQUEUE ∨ e.pid1 = DEQUEUE
  | _ => True

instance (s : State) (e : Entry) : Decidable (Nested s e) := by
  unfold Nested
  split <;> infer_instance

theorem nested_home {s : State} {e : Entry} (nested : Nested s e) : RestartsHome s e := by
  intro type top member
  simp only [Nested, type] at nested
  exact (nested top member).2

structure Shaped (s : State) : Prop extends Sound true s where
  frames : ∀ c l, ∀ elem ∈ s.stackOf c l, ∃ h t, elem.entries = h :: t ∧ (s.deref h).heads elem.name
  stored : ∀ l n, ∀ i ∈ s.instances l n, ∃ h m c, i.entries = h :: (m ++ [c]) ∧ (s.deref h).opens n = true ∧
    (s.deref c).closes n = true

theorem Shaped.congr {s t : State} (shaped : Shaped s) (heap : t.heap = s.heap)
    (frames : ∀ c l, t.stackOf c l = s.stackOf c l)
    (instances : ∀ l n, t.instances l n = s.instances l n) : Shaped t where
  toSound := shaped.toSound.congr heap frames instances
  frames c l elem member := by
    have deref : ∀ r, t.deref r = s.deref r := fun r => by simp [State.deref, heap]
    simp only [deref]
    exact shaped.frames c l elem (frames c l ▸ member)
  stored l n i member := by
    have deref : ∀ r, t.deref r = s.deref r := fun r => by simp [State.deref, heap]
    simp only [deref]
    exact shaped.stored l n i (instances l n ▸ member)

section Steps
variable {s t : State}

theorem shaped_of_deref (shaped : Shaped s) (sound : Sound true t) (frames : ∀ c l, t.stackOf c l = s.stackOf c l)
    (instances : ∀ l n, t.instances l n = s.instances l n)
    (heads : ∀ c l r n, (∃ d, r ∈ s.held (.frame c l d)) → (s.deref r).heads n → (t.deref r).heads n)
    (ends : ∀ l n r, (∃ k, r ∈ s.held (.stored l n k)) →
      ((s.deref r).opens n = true → (t.deref r).opens n = true) ∧
      ((s.deref r).closes n = true → (t.deref r).closes n = true)) : Shaped t where
  toSound := sound
  frames c l elem member := by
    rw [frames] at member
    obtain ⟨h, tail, entries, head⟩ := shaped.frames c l elem member
    exact ⟨h, tail, entries, heads c l h _ (held_of_frame member (by simp [entries])) head⟩
  stored l n i member := by
    rw [instances] at member
    obtain ⟨h, m, z, entries, first, last⟩ := shaped.stored l n i member
    exact ⟨h, m, z, entries, (ends l n h (held_of_instance member (by simp [entries]))).1 first,
      (ends l n z (held_of_instance member (by simp [entries]))).2 last⟩

theorem shaped_alloc (shaped : Shaped s) (e : Entry) : Shaped (s.alloc e) := by
  refine shaped_of_deref shaped (sound_alloc shaped.toSound e) (fun _ _ => rfl) (fun _ _ => rfl) ?_ ?_
  · rintro c l r n ⟨d, held⟩ head
    rw [deref_alloc (shaped.valid _ r held)]
    exact head
  · rintro l n r ⟨k, held⟩
    rw [deref_alloc (shaped.valid _ r held)]
    exact ⟨id, id⟩

theorem shaped_modify (shaped : Shaped s) (r : Ref) (f : Entry → Entry) (sound : Sound true (s.modify r f))
    (heads : ∀ n, (s.deref r).heads n → (f (s.deref r)).heads n)
    (ends : (∀ l n k, r ∉ s.held (.stored l n k)) ∨ ∀ n,
      ((s.deref r).opens n = true → (f (s.deref r)).opens n = true) ∧
      ((s.deref r).closes n = true → (f (s.deref r)).closes n = true)) : Shaped (s.modify r f) := by
  refine shaped_of_deref shaped sound (fun _ _ => rfl) (fun _ _ => rfl) ?_ ?_
  · rintro c l x n ⟨d, held⟩ head
    exact deref_modify_keeps (P := fun e => e.heads n) (heads n) (shaped.valid _ x held) head
  · rintro l n x ⟨k, held⟩
    have valid := shaped.valid _ x held
    rcases ends with out | kept
    · have other : x ≠ r := by
        rintro rfl
        exact out l n k held
      rw [deref_modify_ne f other]
      exact ⟨id, id⟩
    · exact ⟨deref_modify_keeps (P := fun e => e.opens n = true) (kept n).1 valid,
        deref_modify_keeps (P := fun e => e.closes n = true) (kept n).2 valid⟩

theorem shaped_push_entry (shaped : Shaped s) (c : Fin 2) {r : Ref} (loose : Loose true s [r]) :
    Shaped (s.pushEntry c r) where
  toSound := sound_push_entry shaped.toSound c loose
  frames c' l elem member := by
    have deref : ∀ x, (s.pushEntry c r).deref x = s.deref x := fun x => by simp [State.deref]
    simp only [deref]
    rw [stack_of_push_entry] at member
    split at member
    · rename_i here
      obtain ⟨rfl, rfl⟩ := here
      cases stack : s.stackOf c' (s.currentLEU c') with
      | nil =>
        rw [stack] at member
        cases member
      | cons top rest =>
        rw [stack] at member
        rcases List.mem_cons.mp member with rfl | member
        · obtain ⟨h, tail, entries, head⟩ := shaped.frames c' _ top (by rw [stack]; exact List.mem_cons_self ..)
          exact ⟨h, tail ++ [r], by simp [entries], head⟩
        · exact shaped.frames c' _ elem (by rw [stack]; exact List.mem_cons_of_mem top member)
    · exact shaped.frames c' l elem member
  stored l n i member := by
    have deref : ∀ x, (s.pushEntry c r).deref x = s.deref x := fun x => by simp [State.deref]
    simp only [deref]
    simp only [State.instances, push_entry_leus] at member
    exact shaped.stored l n i member

theorem shaped_touch (shaped : Shaped s) (c : Fin 2) : Shaped (s.touch c) :=
  shaped.congr rfl (fun c' l => stack_of_touch s c' c l) fun _ _ => rfl

theorem shaped_push (shaped : Shaped s) (c : Fin 2) {r : Ref} (loose : Loose true s [r]) : Shaped (s.pushService c r) :=
  (shaped_push_entry (shaped_touch shaped c) c (loose_touch loose c)).congr rfl (fun _ _ => rfl) fun _ _ => rfl

theorem shaped_push_new (shaped : Shaped s) (e : Entry) : Shaped ((s.alloc e).pushService e.cpu (s.next e.cpu)) :=
  shaped_push (shaped_alloc shaped e) e.cpu (loose_next shaped.toSound e)

theorem shaped_ensure (shaped : Shaped s) (k : LEU) : Shaped (s.ensureLEU k) :=
  shaped.congr rfl (fun _ _ => rfl) (instances_of_ensure s k)

theorem shaped_open (shaped : Shaped s) (c : Fin 2) (e : Entry) (name : String) (opening : e.eventType.Opening)
    (here : e.cpu = c) (head : e.heads name) : Shaped (s.openService c e name) where
  toSound := sound_open_service shaped.toSound c e name opening fun _ => here
  frames c' l elem member := by
    have fresh := shaped_alloc shaped e
    have deref : ∀ x, (s.openService c e name).deref x = (s.alloc e).deref x := fun x => by simp [State.deref]
    simp only [deref]
    rw [stack_of_open_service _ _ _ _ e name here] at member
    split at member
    · rcases List.mem_cons.mp member with rfl | member
      · exact ⟨s.next e.cpu, [], rfl, by rw [deref_alloc_next]; exact head⟩
      · exact fresh.frames c' l elem member
    · exact fresh.frames c' l elem member
  stored l n i member := by
    have deref : ∀ x, (s.openService c e name).deref x = (s.alloc e).deref x := fun x => by simp [State.deref]
    simp only [deref]
    simp only [State.instances, open_service_leus] at member
    exact (shaped_alloc shaped e).stored l n i member

theorem shaped_new_service (shaped : Shaped s) (e : Entry) (name : String) (opening : e.eventType.Opening)
    (head : e.heads name) : Shaped (s.pushNewService e name) := by
  have first := shaped_touch shaped e.cpu
  unfold State.pushNewService
  dsimp only
  split
  · exact shaped_open first e.cpu e name opening rfl head
  · refine shaped_open ?_ e.cpu e name opening rfl head
    unfold State.registerCall
    split
    · exact first
    · exact shaped_push_entry (shaped_alloc first e) e.cpu (loose_next first.toSound e)

theorem shaped_pop {c : Fin 2} {elem : ServiceStackElement} (shaped : Shaped s) (popped : s.pop c = some (elem, t)) :
    Shaped t ∧ ∃ h tail, elem.entries = h :: tail ∧ (s.deref h).heads elem.name := by
  obtain ⟨sound, _⟩ := sound_pop shaped.toSound popped
  obtain ⟨rest, full, rfl⟩ := pop_cases popped
  refine ⟨⟨sound, ?_, shaped.stored⟩, shaped.frames c _ elem (by rw [full]; exact List.mem_cons_self ..)⟩
  intro c' l elem' member
  rw [stack_of_set] at member
  split at member
  · rename_i here
    obtain ⟨rfl, rfl⟩ := here
    exact shaped.frames _ _ elem' (by rw [full]; exact List.mem_cons_of_mem elem member)
  · exact shaped.frames c' l elem' member

theorem shaped_store {c : Fin 2} {elem : ServiceStackElement} (shaped : Shaped s) (loose : Loose true s elem.entries)
    (shape : ∃ h m z, elem.entries = h :: (m ++ [z]) ∧ (s.deref h).opens elem.name = true ∧
      (s.deref z).closes elem.name = true) (stored : s.pushServiceToLEU c elem = some t) : Shaped t := by
  obtain ⟨heap, _, service, _⟩ := store_keeps stored
  have deref : ∀ x, t.deref x = s.deref x := fun x => by simp [State.deref, heap]
  refine ⟨sound_store shaped.toSound loose stored, ?_, ?_⟩
  · intro c' l elem' member
    simp only [deref]
    exact shaped.frames c' l elem' (by simpa only [State.stackOf, service] using member)
  · intro l n i member
    simp only [deref]
    rw [instances_of_store stored] at member
    split at member
    · rename_i here
      rcases List.mem_append.mp member with old | new
      · exact shaped.stored l n i old
      · rw [List.mem_singleton.mp new, here.2]
        exact shape
    · exact shaped.stored l n i member

theorem shaped_append_last {c : Fin 2} (shaped : Shaped s) (done : s.appendLastToPEU c = some t) : Shaped t := by
  refine append_last_keeps (fun s start _ _ shaped => ?_)
    (fun _ _ shaped => shaped.congr rfl (fun _ _ => rfl) fun _ _ => rfl) shaped done
  exact shaped_modify shaped start _ (sound_modify shaped.toSound start _ id id) (fun _ head => head)
    (Or.inr fun _ => ⟨id, id⟩)

theorem shaped_with_peu {e : Entry} (shaped : Shaped s) (done : s.pushWithPEU e = some t) : Shaped t :=
  shaped_append_last (shaped_push_new shaped e) done

theorem shaped_ctxsw {e : Entry} (shaped : Shaped s) (type : e.eventType = .ctxsw)
    (done : handleCTXSW s e = some t) : Shaped t := by
  unfold handleCTXSW at done
  obtain rfl := Option.some.inj done
  have out := shaped_push_new shaped e
  have switched : Shaped (((s.alloc e).pushService e.cpu (s.next e.cpu)).setCurrentLEU e.cpu (.thread e.pid2)) :=
    out.congr rfl (fun _ _ => rfl) fun _ _ => rfl
  refine shaped_ensure (shaped_push switched e.cpu (loose_again ?_ (Or.inl type))) _
  exact push_service_heap (s.alloc e) e.cpu (s.next e.cpu)

theorem shaped_hirq_entry {e : Entry} (shaped : Shaped s) (type : e.eventType = .hirqentry)
    (done : handleHIRQEntry s e = some t) : Shaped t := by
  unfold handleHIRQEntry at done
  have aside : Shaped (((s.alloc e).pushService e.cpu (s.next e.cpu)).interrupt e.cpu e.pid1) :=
    (shaped_push_new shaped e).congr rfl (fun _ _ => rfl) fun _ _ => rfl
  have known := shaped_ensure aside (.hardwareInterrupt e.pid1)
  have opened := shaped_new_service known e (irqService e.pid1) (by simp [EventType.Opening, type])
    (Or.inl (by simp [Entry.opens, type]))
  exact shaped_append_last opened done

theorem shaped_migrate {e : Entry} (shaped : Shaped s) (done : handleMIGRATE s e = some t) : Shaped t := by
  have sound := sound_migrate shaped.toSound done
  rcases stack_of_migrate done with rfl | ⟨old, new, apart, heap, leus, frames⟩
  · exact shaped
  · have deref : ∀ x, t.deref x = s.deref x := fun x => by simp [State.deref, heap]
    refine ⟨sound, ?_, ?_⟩
    · intro c l elem member
      simp only [deref]
      rw [frames] at member
      split at member
      · split at member
        · cases member
        · split at member
          · exact shaped.frames old l elem member
          · exact shaped.frames c l elem member
      · exact shaped.frames c l elem member
    · intro l n i member
      simp only [deref]
      simp only [State.instances, leus] at member
      exact shaped.stored l n i member

theorem opens_of_heads {n : String} {e : Entry} (head : e.heads n) (service : e.eventType.looping = false) :
    e.opens n = true := by
  rcases head with opens | ⟨again, _⟩
  · exact opens
  · simp [EventType.looping, again] at service

theorem loop_heads {n : String} {e : Entry} (head : e.heads n) (loop : e.eventType.looping = true) :
    e.location = n := by
  rcases head with opens | ⟨_, location⟩
  · have type : e.eventType = .loopstart ∨ e.eventType = .looprstart := by simpa [EventType.looping] using loop
    rcases type with type | type
    · simpa [Entry.opens, type] using opens
    · simp [Entry.opens, type] at opens
  · exact location

theorem shaped_srvexit {c : Fin 2} {r : Ref} {b : Bool} (shaped : Shaped s) (loose : Loose true s [r])
    (shareable : (s.deref r).eventType.Shareable true)
    (closing : ∀ top ∈ (s.currentStack c).head?, s.loops top = false ∧ (s.deref r).closes top.name = true)
    (done : handleSRVEXIT s c r = some (t, b)) : Shaped t := by
  unfold handleSRVEXIT at done
  have pushed := shaped_push shaped c loose
  have heap := push_service_heap s c r
  dsimp only at done
  cases stack : s.currentStack c with
  | nil =>
    simp only [stack, List.isEmpty_nil, if_true] at done
    obtain ⟨rfl, _⟩ := Prod.mk.inj (Option.some.inj done)
    exact pushed
  | cons top rest =>
    simp only [stack, List.isEmpty_cons, Bool.false_eq_true, if_false, bind, Option.bind_eq_some_iff] at done
    obtain ⟨⟨elem, s₁⟩, popped, s₂, stored, eq⟩ := done
    obtain ⟨rfl, _⟩ := Prod.mk.inj (Option.some.inj eq)
    have full := pushed_top r (c := c) (s := s) stack
    obtain ⟨rfl, rfl⟩ := Prod.mk.inj (Option.some.inj ((pop_top full).symm.trans popped))
    obtain ⟨shaped₁, _⟩ := shaped_pop pushed popped
    obtain ⟨_, loose₁, _⟩ := sound_pop pushed.toSound popped
    obtain ⟨service, closes⟩ := closing top (by rw [stack]; rfl)
    have member : top ∈ s.stackOf c (s.currentLEU c) := by
      rw [State.currentStack] at stack
      rw [stack]
      exact List.mem_cons_self ..
    obtain ⟨h, tail, entries, head⟩ := shaped.frames c _ top member
    have deref : ∀ x, (((s.pushService c r).setCurrentStack c rest).ensureLEU
        (((s.pushService c r).setCurrentStack c rest).currentLEU c)).deref x = s.deref x := by
      intro x
      simp only [State.deref, State.ensureLEU, State.setCurrentStack, heap]
    have shape : ∃ h m z, top.entries ++ [r] = h :: (m ++ [z]) ∧ (s.deref h).opens top.name = true ∧
        (s.deref z).closes top.name = true := by
      refine ⟨h, tail, r, by rw [entries]; rfl, opens_of_heads head ?_, closes⟩
      simpa [State.loops, entries] using service
    have shaped₂ := shaped_store (shaped_ensure shaped₁ _) (loose_ensure loose₁ _) (by simpa only [deref] using shape) stored
    have heap₂ : s₂.heap = s.heap := (store_keeps stored).1.trans heap
    have again : Loose true s₂ [r] := by
      refine loose_shareable ?_ ?_
      · simpa [State.Valid, heap₂] using loose.valid r (List.mem_singleton_self r)
      · simpa [State.deref, heap₂] using shareable
    exact shaped_push shaped₂ c again

theorem shaped_exit {e : Entry} {b : Bool} (shaped : Shaped s) (type : e.eventType.Shareable true)
    (closing : ∀ top ∈ (s.currentStack e.cpu).head?, s.loops top = false ∧ e.closes top.name = true)
    (done : handleSRVEXIT (s.alloc e) e.cpu (s.next e.cpu) = some (t, b)) : Shaped t := by
  refine shaped_srvexit (shaped_alloc shaped e) (loose_next shaped.toSound e) ?_ ?_ done
  · rw [deref_alloc_next]
    exact type
  · intro top member
    rw [deref_alloc_next]
    obtain ⟨service, closes⟩ := closing top member
    refine ⟨?_, closes⟩
    obtain ⟨h, tail, entries, _⟩ := shaped.frames e.cpu _ top (List.mem_of_mem_head? member)
    have valid := valid_frame shaped.toSound (List.mem_of_mem_head? member) (r := h) (by simp [entries])
    simpa [State.loops, entries, deref_alloc valid] using service

theorem shaped_hirq_exit {e : Entry} (shaped : Shaped s) (type : e.eventType = .hirqexit)
    (nested : Nested s e) (done : handleHIRQExit s e = some t) : Shaped t := by
  simp only [Nested, type] at nested
  simp only [handleHIRQExit, bind, Option.bind_eq_some_iff] at done
  obtain ⟨⟨s₁, closed⟩, exited, rest⟩ := done
  have shareable : e.eventType.Shareable true := by simp [EventType.Shareable, type]
  have shaped₁ := shaped_exit shaped shareable (fun top member => ⟨(nested top member).2, by
    simp [Entry.closes, type, (nested top member).1]⟩) exited
  have heap := (sound_srvexit (sound_alloc shaped.toSound e) (loose_next shaped.toSound e)
    (by rw [deref_alloc_next]; exact shareable) exited).2
  split at rest
  · split at rest
    · cases rest
    · rename_i leu others _
      have resumed : Shaped (s₁.resume e.cpu leu others) := shaped₁.congr rfl (fun _ _ => rfl) fun _ _ => rfl
      exact shaped_append_last (shaped_push resumed e.cpu (loose_again heap shareable)) rest
  · exact Option.some.inj rest ▸ shaped₁

theorem shaped_loopstart {e : Entry} (shaped : Shaped s) (type : e.eventType = .loopstart)
    (done : handleLOOPSTART s e = some t) : Shaped t := by
  unfold handleLOOPSTART at done
  have touched := shaped_touch shaped e.cpu
  obtain rfl := Option.some.inj done
  split
  · exact touched
  · exact shaped_new_service touched e e.location (by simp [EventType.Opening, type])
      (Or.inl (by simp [Entry.opens, type]))

theorem frame_not_stored {c : Fin 2} {l : LEU} {elem : ServiceStackElement} {r : Ref} (sound : Sound true s)
    (member : elem ∈ s.stackOf c l) (inside : r ∈ elem.entries) (unshared : ¬ (s.deref r).eventType.Shareable true)
    (l' : LEU) (n : String) (k : Nat) : r ∉ s.held (.stored l' n k) := by
  intro held
  obtain ⟨d, frame⟩ := held_of_frame member inside
  exact unshared (sound.unshared (.frame c l d) (.stored l' n k) r frame held (by simp))

theorem shaped_iteration {c : Fin 2} {elem : ServiceStackElement} {h : Ref} {m : List Ref} {z : Ref}
    (shaped : Shaped s) (loose : Loose true s elem.entries) (entries : elem.entries = h :: (m ++ [z]))
    (unshared : ¬ (s.deref h).eventType.Shareable true) (location : (s.deref h).location = elem.name)
    (last : (s.deref z).eventType = .looprstart) (other : z ≠ h)
    (stored : (s.modify h fun f => { f with eventType := .loopstart }).pushServiceToLEU c elem = some t) :
    Shaped t := by
  have free : ∀ p, h ∉ s.held p := fun p held => unshared (loose.apart h (by simp [entries]) p held)
  have sound := sound_modify shaped.toSound h (fun f => { f with eventType := .loopstart })
    (fun shared => absurd shared unshared) fun _ => by simp [EventType.Opening]
  have relabelled : Shaped (s.modify h fun f => { f with eventType := .loopstart }) := by
    refine shaped_of_deref shaped sound (fun _ _ => rfl) (fun _ _ => rfl) ?_ ?_
    · rintro c l x n ⟨d, held⟩ head
      rw [deref_modify_ne _ (fun same => free _ (same ▸ held))]
      exact head
    · rintro l n x ⟨k, held⟩
      rw [deref_modify_ne _ (fun same => free _ (same ▸ held))]
      exact ⟨id, id⟩
  have valid : s.Valid h := loose.valid h (by simp [entries])
  refine shaped_store relabelled (loose_modify loose h _ fun shared => absurd shared unshared) ?_ stored
  refine ⟨h, m, z, entries, ?_, ?_⟩
  · rw [deref_modify_self _ valid]
    simp [Entry.opens, location]
  · rw [deref_modify_ne _ other]
    simp [Entry.closes, last]

theorem looping_unshared {t : EventType} (loop : t.looping = true) : ¬ t.Shareable true := by
  have type : t = .loopstart ∨ t = .looprstart := by simpa [EventType.looping] using loop
  rcases type with rfl | rfl <;> simp [EventType.Shareable]

theorem shaped_looprstart {e : Entry} (shaped : Shaped s) (type : e.eventType = .looprstart) (nested : Nested s e)
    (done : handleLOOPRSTART s e = some t) : Shaped t := by
  have home := nested_home nested
  simp only [Nested, type] at nested
  have sound := sound_looprstart shaped.toSound type (fun _ => home) done
  have touched := shaped_touch shaped e.cpu
  unfold handleLOOPRSTART at done
  dsimp only at done
  cases stack : (s.touch e.cpu).currentStack e.cpu with
  | nil =>
    rw [stack] at done
    exact Option.some.inj done ▸ touched
  | cons top rest =>
    rw [stack] at done
    have member : top ∈ (s.touch e.cpu).stackOf e.cpu ((s.touch e.cpu).currentLEU e.cpu) := by
      rw [State.currentStack] at stack
      rw [stack]
      exact List.mem_cons_self ..
    have before : s.currentStack e.cpu = top :: rest := by simpa [State.currentStack] using stack
    have loop := (nested top (by rw [before]; rfl)).1
    simp only [bind, Option.bind_eq_some_iff] at done
    obtain ⟨last, getLast, later⟩ := done
    split at later
    · rename_i start
      obtain rfl := Option.some.inj later
      have unshared : ¬ ((s.touch e.cpu).deref last).eventType.Shareable true := by simp [start, EventType.Shareable]
      refine shaped_modify touched last _ sound (fun n head => ?_)
        (Or.inl (frame_not_stored touched.toSound member (List.mem_of_getLast? getLast) unshared))
      have location := loop_heads head (by simp [EventType.looping, start])
      exact Or.inr ⟨rfl, location⟩
    · simp only [Option.bind_eq_some_iff] at later
      obtain ⟨⟨service, s₁⟩, popped, first, head?, s₂, stored, eq⟩ := later
      obtain rfl := Option.some.inj eq
      have pushed := shaped_push_new touched e
      have full := pushed_top (s := (s.touch e.cpu).alloc e) (c := e.cpu) ((s.touch e.cpu).next e.cpu) stack
      obtain ⟨rfl, rfl⟩ := Prod.mk.inj (Option.some.inj ((pop_top full).symm.trans popped))
      obtain ⟨shaped₁, _⟩ := shaped_pop pushed popped
      obtain ⟨_, loose₁, _⟩ := sound_pop pushed.toSound popped
      obtain ⟨h, tail, entries, head⟩ := touched.frames _ _ top member
      obtain rfl : first = h := by simpa [entries] using head?.symm
      have valid := valid_frame touched.toSound member (r := first) (by simp [entries])
      have deref := deref_closed ((s.touch e.cpu).alloc e) e.cpu ((s.touch e.cpu).next e.cpu) rest
      have looping : (s.deref first).eventType.looping = true := by simpa [State.loops, entries] using loop
      have location := loop_heads head looping
      have again : (((s.touch e.cpu).alloc e).deref first) = (s.touch e.cpu).deref first := deref_alloc valid
      have other : (s.touch e.cpu).next e.cpu ≠ first := by
        rintro rfl
        simp [State.Valid, State.next] at valid
      have iteration := shaped_iteration shaped₁ loose₁ (by rw [entries]; rfl)
        (by rw [deref, again]; exact looping_unshared looping) (by rw [deref, again]; exact location)
        (by rw [deref, deref_alloc_next]; exact type) other stored
      have here := restarted_cpu shaped.toSound type home stack popped head? stored
      refine shaped_open iteration e.cpu _ top.name (by simp [EventType.Opening]) here (Or.inr ⟨rfl, ?_⟩)
      have kept : s₂.deref first = { (s.touch e.cpu).deref first with eventType := .loopstart } := by
        rw [State.deref, (store_keeps stored).1]
        exact (deref_modify_self _ (loose₁.valid first (by simp [entries]))).trans (by rw [deref, again])
      rw [kept]
      exact location

theorem shaped_loopstop {e : Entry} (shaped : Shaped s) (type : e.eventType = .loopstop) (nested : Nested s e)
    (done : handleLOOPSTOP s e = some t) : Shaped t := by
  simp only [Nested, type] at nested
  have touched := shaped_touch shaped e.cpu
  unfold handleLOOPSTOP at done
  dsimp only at done
  split at done
  · exact Option.some.inj done ▸ touched
  · rename_i service s₁ popped
    obtain ⟨rest, full, rfl⟩ := pop_cases popped
    have member : service ∈ (s.touch e.cpu).stackOf e.cpu ((s.touch e.cpu).currentLEU e.cpu) := by
      rw [full]
      exact List.mem_cons_self ..
    have before : s.currentStack e.cpu = service :: rest := by simpa [State.currentStack] using full
    have loop := nested service (by rw [before]; rfl)
    obtain ⟨shaped₁, h, tail, entries, head⟩ := shaped_pop touched popped
    obtain ⟨sound₁, loose₁, _⟩ := sound_pop touched.toSound popped
    have looping : (s.deref h).eventType.looping = true := by simpa [State.loops, entries] using loop
    have location := loop_heads head looping
    simp only [entries, List.head?_cons] at done
    obtain ⟨s₂, stored, rfl⟩ := Option.map_eq_some_iff.mp done
    refine shaped_push_new ?_ e
    generalize copied : ({ ((s.touch e.cpu).setCurrentStack e.cpu rest).deref h with
      eventType := .looprstart, cycles := e.cycles } : Entry) = copy at stored
    have cpu : (((s.touch e.cpu).setCurrentStack e.cpu rest).deref h).cpu = copy.cpu := by rw [← copied]
    rw [cpu] at stored
    have free := loose_snoc sound₁ loose₁ copy
    unfold State.storeLoop at stored
    split at stored
    · have valid := loose₁.valid h (by simp [entries])
      have old : (((s.touch e.cpu).setCurrentStack e.cpu rest).alloc copy).deref h = s.deref h := deref_alloc valid
      have new := deref_alloc_next ((s.touch e.cpu).setCurrentStack e.cpu rest) copy
      refine shaped_iteration (h := h) (m := tail) (shaped_alloc shaped₁ copy) (by rw [entries] at free; exact free)
        rfl ?_ ?_ ?_ ?_ stored
      · rw [old]
        exact looping_unshared looping
      · rw [old]
        exact location
      · rw [new, ← copied]
      · intro same
        rw [← same] at valid
        simp [State.Valid, State.next] at valid
    · exact Option.some.inj stored ▸ shaped_alloc shaped₁ copy

theorem shaped_sync {e : Entry} {operation : Sync} (shaped : Shaped s)
    (done : handleSync s e operation = some t) : Shaped t := by
  unfold handleSync at done
  split at done
  · exact shaped_with_peu shaped done
  · rename_i v _
    obtain ⟨s₁, pushed, rfl⟩ := Option.map_eq_some_iff.mp done
    have touched := shaped_touch shaped e.cpu
    have noted : Shaped ((s.touch e.cpu).noteUser e.cpu v operation) := by
      unfold State.noteUser
      split
      · exact touched
      · exact shaped_modify touched v.entry _ (sound_modify touched.toSound v.entry _ id id) (fun _ head => head)
          (Or.inr fun _ => ⟨id, id⟩)
    exact (shaped_with_peu noted pushed).congr rfl (fun _ _ => rfl) fun _ _ => rfl

theorem shaped_pktqueue {e : Entry} (shaped : Shaped s) (done : handlePKTQUEUE s e = some t) : Shaped t := by
  unfold handlePKTQUEUE State.labelPacket at done
  obtain ⟨labelled, label, rfl⟩ := Option.map_eq_some_iff.mp done
  refine shaped_push_new ?_ _
  split at label
  · split at label
    · cases label
    · split at label
      · rename_i last _ packet
        obtain rfl := Option.some.inj label
        have sound := sound_modify shaped.toSound last (fun l => { l with eventType := .pktqueuen })
          (fun shared => by simp [packet, EventType.Shareable] at shared)
          fun opening => by simp [packet, EventType.Opening] at opening
        refine shaped_modify shaped last _ sound (fun n head => ?_) (Or.inr fun n => ⟨fun first => ?_, fun final => ?_⟩)
        · rcases head with first | ⟨again, _⟩
          · simp [Entry.opens, packet] at first
          · simp [packet] at again
        · simp [Entry.opens, packet] at first
        · simp [Entry.closes, packet] at final
      · exact Option.some.inj label ▸ shaped
  · exact Option.some.inj label ▸ shaped

theorem shaped_handle {e : Entry} (shaped : Shaped s) (nested : Nested s e) (done : handleEvent s e = some t) :
    Shaped t := by
  unfold handleEvent at done
  have plain : ∀ {u}, s.pushPlain e = some u → Shaped u := by
    intro u pushed
    obtain rfl := Option.some.inj pushed
    exact shaped_push_new shaped e
  split at done
  · rename_i type
    exact shaped_ctxsw shaped type done
  · exact shaped_migrate shaped done
  · rename_i type
    exact shaped_hirq_entry shaped type done
  · rename_i type
    exact shaped_hirq_exit shaped type nested done
  · rename_i type
    exact shaped_looprstart shaped type nested done
  · rename_i type
    exact shaped_loopstart shaped type done
  · rename_i type
    exact shaped_loopstop shaped type nested done
  · exact shaped_with_peu shaped done
  · exact shaped_sync shaped done
  · exact shaped_pktqueue shaped done
  · exact shaped_pktqueue shaped done
  · rename_i type
    obtain rfl := Option.some.inj done
    exact shaped_new_service shaped { e with packetId := "0" } e.service (Or.inl type)
      (Or.inl (by simp [Entry.opens, type]))
  · rename_i type
    simp only [Nested, type] at nested
    obtain ⟨⟨u, closed⟩, exited, rfl⟩ := Option.map_eq_some_iff.mp done
    exact shaped_exit shaped (Or.inr (Or.inl type)) (fun top member => ⟨(nested top member).2, by
      simp [Entry.closes, type, (nested top member).1]⟩) exited
  · rename_i type
    simp only [Nested, type] at nested
    unfold handleSRVQUEUE at done
    split at done
    · obtain rfl := Option.some.inj done
      exact shaped_push_new shaped { e with service := (softirqs e.service).getD e.service }
    · rename_i taken
      obtain rfl := Option.some.inj done
      exact shaped_new_service shaped { e with packetId := "0" } e.service (Or.inr (Or.inl type))
        (Or.inl (by simp [Entry.opens, type, nested.resolve_left taken]))
  · unfold handleTEMPSYNCH at done
    obtain rfl := Option.some.inj done
    exact (shaped_push_new shaped { e with tempVarId := s.tempVarId }).congr rfl (fun _ _ => rfl)
      fun _ _ => rfl
  all_goals first
    | exact plain done
    | exact Option.some.inj done ▸ shaped

end Steps

def NestedLine (r : Run) (l : Line) : Prop := ∀ e ∈ r.entryOf l, Nested r.state e

instance (r : Run) (l : Line) : Decidable (NestedLine r l) := by
  unfold NestedLine
  infer_instance

theorem shaped_eod {r : Run} (shaped : Shaped r.state) : Shaped r.resetOnEOD.state := by
  refine ⟨sound_eod shaped.toSound, ?_, shaped.stored⟩
  intro c l elem member
  simp [State.stackOf, Run.resetOnEOD] at member

theorem shaped_line {r t : Run} {l : Line} (shaped : Shaped r.state) (nested : NestedLine r l)
    (done : r.line l = some t) : Shaped t.state := by
  refine line_rule shaped done (fun _ _ _ _ shaped => shaped.congr rfl (fun _ _ => rfl) fun _ _ => rfl) ?_ ?_
  · exact shaped_eod shaped
  · intro e s made shaped handled
    exact shaped_handle shaped (nested e made) handled

theorem shaped_initial : Shaped State.initial where
  toSound := sound_initial
  frames c l elem member := by cases member
  stored l n i member := by cases member

theorem shaped_run {ls : List Line} {r t : Run} (shaped : Shaped r.state)
    (nested : TransitionRuns.Guarded Run.line NestedLine r ls) (done : r.lines ls = some t) : Shaped t.state := by
  induction ls generalizing r with
  | nil => exact Option.some.inj done ▸ shaped
  | cons l ls ih =>
    obtain ⟨u, first, rest⟩ := Option.bind_eq_some_iff.mp done
    exact ih (shaped_line shaped nested.1 first) (nested.2 u first) rest

end Analyse
