import SepExtract.SignatureAlignment

/- Traces without recursion. If no service, interrupt or loop is entered while one of the same name
   is open beneath it, an instance has no opening and no closing entry of its own name but its
   first and its last. -/
namespace Analyse

def State.openNames (s : State) (c : Fin 2) (l : LEU) : List String :=
  (s.stackOf c l).map ServiceStackElement.name

/-- The event enters nothing that is open already: a service or a loop on the stack of the running
    LEU, an interrupt also on its own stack, and it does not return from an interrupt into a
    service of the same name. -/
structure Unrecursive (s : State) (e : Entry) : Prop where
  service : e.eventType = .srventry ∨ e.eventType = .srvqueue ∧ e.pid1 ≠ ENQUEUE →
    e.service ∉ s.openNames e.cpu (s.currentLEU e.cpu)
  loop : e.eventType = .loopstart → e.location ∉ s.openNames e.cpu (s.currentLEU e.cpu)
  interrupt : e.eventType = .hirqentry → irqService e.pid1 ∉ s.openNames e.cpu (s.currentLEU e.cpu) ∧
    irqService e.pid1 ∉ s.openNames e.cpu (.hardwareInterrupt e.pid1)
  back : e.eventType = .hirqexit → ∀ leu ∈ s.interrupted.head?, leu ≠ s.currentLEU e.cpu →
    irqService e.pid1 ∉ s.openNames e.cpu leu

instance (s : State) (e : Entry) : Decidable (Unrecursive s e) :=
  decidable_of_iff
    ((e.eventType = .srventry ∨ e.eventType = .srvqueue ∧ e.pid1 ≠ ENQUEUE →
        e.service ∉ s.openNames e.cpu (s.currentLEU e.cpu)) ∧
      (e.eventType = .loopstart → e.location ∉ s.openNames e.cpu (s.currentLEU e.cpu)) ∧
      (e.eventType = .hirqentry → irqService e.pid1 ∉ s.openNames e.cpu (s.currentLEU e.cpu) ∧
        irqService e.pid1 ∉ s.openNames e.cpu (.hardwareInterrupt e.pid1)) ∧
      (e.eventType = .hirqexit → ∀ leu ∈ s.interrupted.head?, leu ≠ s.currentLEU e.cpu →
        irqService e.pid1 ∉ s.openNames e.cpu leu))
    ⟨fun ⟨service, loop, interrupt, back⟩ => ⟨service, loop, interrupt, back⟩,
      fun ⟨service, loop, interrupt, back⟩ => ⟨service, loop, interrupt, back⟩⟩

def Entry.Foreign (n : String) (e : Entry) : Prop := e.opens n = false ∧ e.closes n = false

inductive Inner (s : State) (r : Ref) : Prop
  | frame (c : Fin 2) (l : LEU) (elem : ServiceStackElement) (member : elem ∈ s.stackOf c l)
      (inside : r ∈ elem.entries.tail)
  | stored (l : LEU) (n : String) (i : LEUentry) (member : i ∈ s.instances l n)
      (inside : r ∈ i.entries.tail.dropLast)

/-- The last entry of the innermost element is not the copy of a call of a loop; while an event is
    handled, one stack may be excepted. -/
structure Plain (s : State) (busy : Option (Fin 2 × LEU)) : Prop where
  names : ∀ c l, (s.openNames c l).Nodup
  frames : ∀ c l, ∀ elem ∈ s.stackOf c l, ∀ r ∈ elem.entries.tail, (s.deref r).Foreign elem.name
  stored : ∀ l n, ∀ i ∈ s.instances l n, ∀ r ∈ i.entries.tail.dropLast, (s.deref r).Foreign n
  settled : ∀ c l, busy ≠ some (c, l) → ∀ top ∈ (s.stackOf c l).head?, ∀ r ∈ top.entries.tail.getLast?,
    (s.deref r).eventType ≠ .loopstart

section Steps
variable {s t : State} {busy : Option (Fin 2 × LEU)} {e : Entry} {c : Fin 2} {r : Ref}

theorem inner_held (inner : Inner s r) : ∃ p, r ∈ s.held p := by
  cases inner with
  | frame c l elem member inside =>
    obtain ⟨d, held⟩ := held_of_frame member (List.mem_of_mem_tail inside)
    exact ⟨.frame c l d, held⟩
  | stored l n i member inside =>
    obtain ⟨k, held⟩ := held_of_instance member (List.mem_of_mem_tail (List.dropLast_subset _ inside))
    exact ⟨.stored l n k, held⟩

theorem inner_valid (sound : Sound true s) (inner : Inner s r) : s.Valid r := by
  obtain ⟨p, held⟩ := inner_held inner
  exact sound.valid p r held

theorem entries_of_member {elem : ServiceStackElement} {st : List ServiceStackElement} (member : elem ∈ st) :
    ∃ d, entriesAt st d = elem.entries := by
  obtain ⟨d, here⟩ := List.mem_iff_getElem?.mp (List.mem_reverse.mpr member)
  exact ⟨d, by rw [entriesAt, here]; rfl⟩

theorem plain_of_deref (plain : Plain s busy) (frames : ∀ c l, t.stackOf c l = s.stackOf c l)
    (instances : ∀ l n, t.instances l n = s.instances l n)
    (kept : ∀ r, Inner s r → ∀ n, (s.deref r).Foreign n → (t.deref r).Foreign n)
    (labels : ∀ r, Inner s r → (s.deref r).eventType ≠ .loopstart → (t.deref r).eventType ≠ .loopstart) :
    Plain t busy where
  names c l := by
    simp only [State.openNames, frames]
    exact plain.names c l
  frames c l elem member r inside := by
    rw [frames] at member
    exact kept r (.frame c l elem member inside) _ (plain.frames c l elem member r inside)
  stored l n i member r inside := by
    rw [instances] at member
    exact kept r (.stored l n i member inside) _ (plain.stored l n i member r inside)
  settled c l free top first r last := by
    rw [frames] at first
    have inner : Inner s r := .frame c l top (List.mem_of_mem_head? first) (List.mem_of_getLast? last)
    exact labels r inner (plain.settled c l free top first r last)

theorem Plain.congr (plain : Plain s busy) (heap : t.heap = s.heap) (frames : ∀ c l, t.stackOf c l = s.stackOf c l)
    (instances : ∀ l n, t.instances l n = s.instances l n) : Plain t busy := by
  have deref : ∀ r, t.deref r = s.deref r := fun r => by simp [State.deref, heap]
  refine plain_of_deref plain frames instances ?_ ?_
  · intro r _ n foreign
    rwa [deref]
  · intro r _ label
    rwa [deref]

theorem plain_alloc (sound : Sound true s) (plain : Plain s busy) (e : Entry) : Plain (s.alloc e) busy := by
  refine plain_of_deref plain (fun _ _ => rfl) (fun _ _ => rfl) ?_ ?_
  · intro r inner n foreign
    rwa [deref_alloc (inner_valid sound inner)]
  · intro r inner label
    rwa [deref_alloc (inner_valid sound inner)]

theorem plain_modify (sound : Sound true s) (plain : Plain s busy) (r : Ref) (f : Entry → Entry)
    (kept : Inner s r → (∀ n, (s.deref r).Foreign n → (f (s.deref r)).Foreign n) ∧
      ((s.deref r).eventType ≠ .loopstart → (f (s.deref r)).eventType ≠ .loopstart)) : Plain (s.modify r f) busy := by
  refine plain_of_deref plain (fun _ _ => rfl) (fun _ _ => rfl) ?_ ?_
  · intro x inner n foreign
    by_cases same : x = r
    · subst same
      rw [deref_modify_self f (inner_valid sound inner)]
      exact (kept inner).1 n foreign
    · rwa [deref_modify_ne f same]
  · intro x inner label
    by_cases same : x = r
    · subst same
      rw [deref_modify_self f (inner_valid sound inner)]
      exact (kept inner).2 label
    · rwa [deref_modify_ne f same]

theorem plain_touch (plain : Plain s busy) (c : Fin 2) : Plain (s.touch c) busy :=
  plain.congr rfl (fun c' l => stack_of_touch s c' c l) fun _ _ => rfl

theorem plain_ensure (plain : Plain s busy) (k : LEU) : Plain (s.ensureLEU k) busy :=
  plain.congr rfl (fun _ _ => rfl) (instances_of_ensure s k)

theorem names_append_top (r : Ref) (st : List ServiceStackElement) :
    (appendTop r st).map ServiceStackElement.name = st.map ServiceStackElement.name := by
  cases st <;> rfl

theorem plain_push_entry (free : Option (Fin 2 × LEU)) (sound : Sound true s) (plain : Plain s busy)
    (foreign : ∀ top ∈ (s.currentStack c).head?, (s.deref r).Foreign top.name)
    (settles : ∀ c' l, free ≠ some (c', l) → (c' = c ∧ l = s.currentLEU c ∧ (s.deref r).eventType ≠ .loopstart) ∨
      ¬ (c' = c ∧ l = s.currentLEU c) ∧ busy ≠ some (c', l)) : Plain (s.pushEntry c r) free := by
  have deref : ∀ x, (s.pushEntry c r).deref x = s.deref x := fun x => by simp [State.deref]
  refine ⟨?_, ?_, ?_, ?_⟩
  · intro c' l
    rw [State.openNames, stack_of_push_entry]
    split
    · rw [names_append_top]
      exact plain.names c' l
    · exact plain.names c' l
  · intro c' l elem member x inside
    rw [deref]
    rw [stack_of_push_entry] at member
    split at member
    · rename_i here
      obtain ⟨rfl, rfl⟩ := here
      refine forall_append_top (plain.frames c' _) (fun top first before y inside => ?_) elem member x inside
      obtain ⟨h, tail, entries, _⟩ := sound.heads rfl c' _ top (List.mem_of_mem_head? first)
      simp only [entries, List.cons_append, List.tail_cons, List.mem_append, List.mem_singleton] at inside
      rcases inside with old | rfl
      · exact before y (by rw [entries]; exact old)
      · exact foreign top first
    · exact plain.frames c' l elem member x inside
  · intro l n i member x inside
    rw [deref]
    simp only [State.instances, push_entry_leus] at member
    exact plain.stored l n i member x inside
  · intro c' l unbusy top first x last
    rw [deref]
    rw [stack_of_push_entry] at first
    rcases settles c' l unbusy with ⟨rfl, rfl, label⟩ | ⟨elsewhere, quiet⟩
    · rw [if_pos ⟨rfl, rfl⟩] at first
      cases stack : s.stackOf c' (s.currentLEU c') with
      | nil =>
        rw [stack] at first
        cases first
      | cons old rest =>
        rw [stack] at first
        obtain rfl : { old with entries := old.entries ++ [r] } = top := by simpa [appendTop] using first
        obtain ⟨h, tail, entries, _⟩ := sound.heads rfl c' _ old (by rw [stack]; exact List.mem_cons_self ..)
        obtain rfl : r = x := by simpa [entries] using last
        exact label
    · rw [if_neg elsewhere] at first
      exact plain.settled c' l quiet top first x last

theorem plain_push (sound : Sound true s) (plain : Plain s busy) (only : ∀ p ∈ busy, p = (c, s.currentLEU c))
    (foreign : ∀ top ∈ (s.currentStack c).head?, (s.deref r).Foreign top.name)
    (label : (s.deref r).eventType ≠ .loopstart) : Plain (s.pushService c r) none := by
  have here : (s.touch c).currentStack c = s.currentStack c := by simp [State.currentStack]
  have pushed : Plain ((s.touch c).pushEntry c r) none := by
    refine plain_push_entry none (sound_touch sound c) (plain_touch plain c) (by rw [here]; exact foreign) ?_
    intro c' l _
    by_cases current : c' = c ∧ l = s.currentLEU c
    · exact .inl ⟨current.1, current.2, label⟩
    · refine .inr ⟨current, fun excepted => current ?_⟩
      have same := only (c', l) excepted
      exact ⟨congrArg Prod.fst same, congrArg Prod.snd same⟩
  exact pushed.congr rfl (fun _ _ => rfl) fun _ _ => rfl

theorem plain_open (sound : Sound true s) (plain : Plain s busy) (only : ∀ p ∈ busy, p = (c, s.currentLEU c))
    {name : String} (fresh : name ∉ s.openNames c (s.currentLEU c)) (e : Entry) (home : e.cpu = c) :
    Plain (s.openService c e name) none := by
  have old := plain_alloc sound plain e
  have deref : ∀ x, (s.openService c e name).deref x = (s.alloc e).deref x := fun x => by simp [State.deref]
  refine ⟨?_, ?_, ?_, ?_⟩
  · intro c' l
    rw [State.openNames, stack_of_open_service _ _ _ _ e name home]
    split
    · rename_i here
      obtain ⟨rfl, rfl⟩ := here
      exact List.nodup_cons.mpr ⟨fresh, plain.names _ _⟩
    · exact plain.names c' l
  · intro c' l elem member x inside
    rw [deref]
    rw [stack_of_open_service _ _ _ _ e name home] at member
    split at member
    · rcases List.mem_cons.mp member with rfl | member
      · cases inside
      · exact old.frames c' l elem member x inside
    · exact old.frames c' l elem member x inside
  · intro l n i member x inside
    rw [deref]
    simp only [State.instances, open_service_leus] at member
    exact old.stored l n i member x inside
  · intro c' l _ top first x last
    rw [deref]
    rw [stack_of_open_service _ _ _ _ e name home] at first
    split at first
    · obtain rfl : (⟨name, [s.next e.cpu], []⟩ : ServiceStackElement) = top := by simpa using first
      cases last
    · rename_i elsewhere
      refine old.settled c' l (fun excepted => elsewhere ?_) top first x last
      have same := only (c', l) excepted
      exact ⟨congrArg Prod.fst same, congrArg Prod.snd same⟩

theorem plain_new_service (sound : Sound true s) (plain : Plain s none) (name : String)
    (fresh : name ∉ s.openNames e.cpu (s.currentLEU e.cpu))
    (foreign : ∀ n ∈ s.openNames e.cpu (s.currentLEU e.cpu), e.Foreign n) : Plain (s.pushNewService e name) none := by
  have touched := plain_touch plain e.cpu
  have tsound := sound_touch sound e.cpu
  have fresh : name ∉ (s.touch e.cpu).openNames e.cpu ((s.touch e.cpu).currentLEU e.cpu) := by
    simpa [State.openNames] using fresh
  unfold State.pushNewService
  dsimp only
  split
  · exact plain_open tsound touched (by simp) fresh e rfl
  · unfold State.registerCall
    split
    · exact plain_open tsound touched (by simp) fresh e rfl
    · have called := plain_push_entry (c := e.cpu) (r := (s.touch e.cpu).next e.cpu)
        (some (e.cpu, s.currentLEU e.cpu)) (sound_alloc tsound e) (plain_alloc tsound touched e) ?_ ?_
      · refine plain_open (sound_push_entry (sound_alloc tsound e) e.cpu (loose_next tsound e)) called ?_ ?_ e rfl
        · intro p member
          rw [push_entry_leu]
          exact (Option.some.inj member).symm
        · rw [State.openNames, stack_of_push_entry]
          simpa [names_append_top, State.openNames] using fresh
      · intro top member
        rw [deref_alloc_next]
        refine foreign top.name (List.mem_map_of_mem (f := ServiceStackElement.name) ?_)
        simpa [State.currentStack] using List.mem_of_mem_head? member
      · intro c' l excepted
        exact .inr ⟨fun here => excepted (by rw [here.1, here.2]; rfl), by simp⟩

theorem plain_pop {elem : ServiceStackElement} (plain : Plain s none) (popped : s.pop c = some (elem, t)) :
    Plain t (some (c, s.currentLEU c)) ∧ (∀ r ∈ elem.entries.tail, (s.deref r).Foreign elem.name) ∧
      elem.name ∉ t.openNames c (s.currentLEU c) := by
  obtain ⟨rest, full, rfl⟩ := pop_cases popped
  have names := plain.names c (s.currentLEU c)
  rw [State.openNames, full, List.map_cons, List.nodup_cons] at names
  refine ⟨⟨?_, ?_, plain.stored, ?_⟩, plain.frames c _ elem (by rw [full]; exact List.mem_cons_self ..), ?_⟩
  · intro c' l
    rw [State.openNames, stack_of_set]
    split
    · exact names.2
    · exact plain.names c' l
  · intro c' l elem' member
    rw [stack_of_set] at member
    split at member
    · rename_i here
      obtain ⟨rfl, rfl⟩ := here
      exact plain.frames _ _ elem' (by rw [full]; exact List.mem_cons_of_mem elem member)
    · exact plain.frames c' l elem' member
  · intro c' l free top first
    rw [stack_of_set, if_neg (fun here => free (by rw [here.1, here.2]))] at first
    exact plain.settled c' l (by simp) top first
  · rw [State.openNames, stack_of_set, if_pos ⟨rfl, rfl⟩]
    exact names.1

theorem plain_store {elem : ServiceStackElement} (plain : Plain s busy)
    (foreign : ∀ r ∈ elem.entries.tail.dropLast, (s.deref r).Foreign elem.name)
    (stored : s.pushServiceToLEU c elem = some t) : Plain t busy := by
  obtain ⟨heap, _, service, _⟩ := store_keeps stored
  have deref : ∀ x, t.deref x = s.deref x := fun x => by simp [State.deref, heap]
  have frames : ∀ c l, t.stackOf c l = s.stackOf c l := fun c l => by simp only [State.stackOf, service]
  refine ⟨?_, ?_, ?_, ?_⟩
  · intro c' l
    rw [State.openNames, frames]
    exact plain.names c' l
  · intro c' l elem' member x inside
    rw [frames] at member
    rw [deref]
    exact plain.frames c' l elem' member x inside
  · intro l n i member x inside
    rw [deref]
    rw [instances_of_store stored] at member
    split at member
    · rename_i here
      rcases List.mem_append.mp member with old | new
      · exact plain.stored l n i old x inside
      · rw [List.mem_singleton.mp new] at inside
        rw [here.2]
        exact foreign x inside
    · exact plain.stored l n i member x inside
  · intro c' l free top first x last
    rw [frames] at first
    rw [deref]
    exact plain.settled c' l free top first x last

theorem plain_push_new (sound : Sound true s) (plain : Plain s none)
    (foreign : ∀ n ∈ s.openNames e.cpu (s.currentLEU e.cpu), e.Foreign n) (label : e.eventType ≠ .loopstart) :
    Plain ((s.alloc e).pushService e.cpu (s.next e.cpu)) none := by
  refine plain_push (sound_alloc sound e) (plain_alloc sound plain e) (by simp) ?_ (by rwa [deref_alloc_next])
  intro top member
  rw [deref_alloc_next]
  exact foreign top.name (List.mem_map_of_mem (List.mem_of_mem_head? member))

def EventType.Neutral (t : EventType) : Prop :=
  t ≠ .srventry ∧ t ≠ .srvqueue ∧ t ≠ .hirqentry ∧ t ≠ .loopstart ∧ t ≠ .srvexit ∧ t ≠ .hirqexit ∧ t ≠ .looprstart

instance (t : EventType) : Decidable t.Neutral := by
  unfold EventType.Neutral
  infer_instance

theorem foreign_of_neutral (neutral : e.eventType.Neutral) (n : String) : e.Foreign n := by
  obtain ⟨entry, queue, irq, loop, exit, back, again⟩ := neutral
  unfold Entry.Foreign Entry.opens Entry.closes
  constructor
  · split <;> first | contradiction | rfl
  · split <;> first | contradiction | rfl

theorem plain_push_neutral (sound : Sound true s) (plain : Plain s none) (neutral : e.eventType.Neutral) :
    Plain ((s.alloc e).pushService e.cpu (s.next e.cpu)) none :=
  plain_push_new sound plain (fun n _ => foreign_of_neutral neutral n) neutral.2.2.2.1

theorem plain_append_last (sound : Sound true s) (plain : Plain s busy) (done : s.appendLastToPEU c = some t) :
    Plain t busy := by
  have both : Sound true t ∧ Plain t busy := by
    refine append_last_keeps (P := fun s => Sound true s ∧ Plain s busy) (fun s start _ _ both => ?_)
      (fun _ _ both => ⟨both.1.congr rfl (fun _ _ => rfl) fun _ _ => rfl,
        both.2.congr rfl (fun _ _ => rfl) fun _ _ => rfl⟩) ⟨sound, plain⟩ done
    exact ⟨sound_modify both.1 start _ id id, plain_modify both.1 both.2 start _ fun _ => ⟨fun _ => id, id⟩⟩
  exact both.2

theorem plain_with_peu (sound : Sound true s) (plain : Plain s none) (neutral : e.eventType.Neutral)
    (done : s.pushWithPEU e = some t) : Plain t none :=
  plain_append_last (sound_push_new sound e) (plain_push_neutral sound plain neutral) done

theorem plain_close {top : ServiceStackElement} {rest : List ServiceStackElement} (plain : Plain s none)
    (full : s.stackOf c (s.currentLEU c) = top :: rest) (r : Ref) :
    Plain ((s.pushService c r).setCurrentStack c rest) (some (c, s.currentLEU c)) ∧ top.name ∉ rest.map (·.name) := by
  obtain ⟨left, _, fresh⟩ := plain_pop plain (pop_top full)
  refine ⟨left.congr ?_ ?_ ?_, ?_⟩
  · exact push_service_heap s c r
  · intro c' l
    rw [stack_of_closed, stack_of_set]
  · intro l n
    simp only [State.instances, State.setCurrentStack, push_service_leus]
  · rwa [State.openNames, stack_of_set, if_pos ⟨rfl, rfl⟩] at fresh

theorem plain_srvexit {b : Bool} (shaped : Shaped s) (plain : Plain s none) (loose : Loose true s [r])
    (shareable : (s.deref r).eventType.Shareable true)
    (closing : ∀ top ∈ (s.currentStack c).head?, ∀ n, n ≠ top.name → (s.deref r).Foreign n)
    (done : handleSRVEXIT s c r = some (t, b)) : Plain t none ∧ t.currentLEU = s.currentLEU ∧
      t.interrupted = s.interrupted ∧ t.openNames c (s.currentLEU c) = (s.openNames c (s.currentLEU c)).tail ∧
      ∀ l, l ≠ s.currentLEU c → t.openNames c l = s.openNames c l := by
  have label : (s.deref r).eventType ≠ .loopstart := fun loop => by simp [loop, EventType.Shareable] at shareable
  unfold handleSRVEXIT at done
  dsimp only at done
  cases stack : s.currentStack c with
  | nil =>
    simp only [stack, List.isEmpty_nil, if_true] at done
    obtain ⟨rfl, _⟩ := Prod.mk.inj (Option.some.inj done)
    have none : s.stackOf c (s.currentLEU c) = [] := stack
    refine ⟨plain_push shaped.toSound plain (by simp) (by simp [stack]) label, push_service_leu s c r,
      push_service_interrupted s c r, ?_, ?_⟩
    · simp [State.openNames, stack_of_push_service, none, appendTop]
    · intro l other
      simp [State.openNames, stack_of_push_service, other]
  | cons top rest =>
    simp only [stack, List.isEmpty_cons, Bool.false_eq_true, if_false, bind, Option.bind_eq_some_iff] at done
    obtain ⟨⟨elem, s₁⟩, popped, s₂, stored, eq⟩ := done
    obtain ⟨rfl, _⟩ := Prod.mk.inj (Option.some.inj eq)
    have full := pushed_top r (c := c) (s := s) stack
    obtain ⟨rfl, rfl⟩ := Prod.mk.inj (Option.some.inj ((pop_top full).symm.trans popped))
    have here : top ∈ s.stackOf c (s.currentLEU c) := by
      rw [State.currentStack] at stack
      rw [stack]
      exact List.mem_cons_self ..
    obtain ⟨left, fresh⟩ := plain_close (c := c) plain stack r
    obtain ⟨h, tail, entries, _⟩ := shaped.frames c _ top here
    have sound₁ := (sound_pop (sound_push shaped.toSound c loose) popped).1
    have loose₁ := (sound_pop (sound_push shaped.toSound c loose) popped).2.1
    obtain ⟨heap, leu, service, interrupted, _⟩ := store_keeps stored
    have heap₂ : s₂.heap = s.heap := heap.trans (push_service_heap s c r)
    have deref : ∀ x, s₂.deref x = s.deref x := fun x => by simp only [State.deref, heap₂]
    have leu₂ : s₂.currentLEU = s.currentLEU := leu.trans (push_service_leu s c r)
    have frames : ∀ c' l, s₂.stackOf c' l = if c' = c ∧ l = s.currentLEU c then rest else s.stackOf c' l := by
      intro c' l
      rw [← stack_of_closed s c r rest]
      simp only [State.stackOf, service]
      rfl
    have plain₂ : Plain s₂ (some (c, s.currentLEU c)) := by
      refine plain_store (plain_ensure left _) ?_ stored
      intro x inside
      have inside : x ∈ top.entries.tail := by simpa [entries] using inside
      exact (deref_closed s c r rest x).symm ▸ plain.frames c _ top here x inside
    have sound₂ := sound_store (sound_ensure sound₁ _) (loose_ensure loose₁ _) stored
    refine ⟨plain_push sound₂ plain₂ ?_ ?_ (by rwa [deref]), ?_, ?_, ?_, ?_⟩
    · intro p member
      rw [leu₂]
      exact (Option.some.inj member).symm
    · intro below member
      rw [State.currentStack, leu₂, frames, if_pos ⟨rfl, rfl⟩] at member
      rw [deref]
      refine closing top (by rw [stack]; rfl) below.name fun same => fresh ?_
      rw [← same]
      exact List.mem_map_of_mem (List.mem_of_mem_head? member)
    · rw [push_service_leu, leu₂]
    · rw [push_service_interrupted, interrupted]
      exact push_service_interrupted s c r
    · have before : s.openNames c (s.currentLEU c) = top.name :: rest.map (·.name) := by
        rw [State.openNames, ← State.currentStack, stack]
        rfl
      rw [before, State.openNames, stack_of_push_service, leu₂, if_pos ⟨rfl, rfl⟩, names_append_top, frames,
        if_pos ⟨rfl, rfl⟩]
      rfl
    · intro l other
      rw [State.openNames, stack_of_push_service, leu₂, if_neg (fun here => other here.2), frames,
        if_neg (fun here => other here.2)]
      rfl

theorem plain_exit {b : Bool} (shaped : Shaped s) (plain : Plain s none) (shareable : e.eventType.Shareable true)
    (closing : ∀ top ∈ (s.currentStack e.cpu).head?, ∀ n, n ≠ top.name → e.Foreign n)
    (done : handleSRVEXIT (s.alloc e) e.cpu (s.next e.cpu) = some (t, b)) : Plain t none ∧
      t.currentLEU = s.currentLEU ∧ t.interrupted = s.interrupted ∧
      t.openNames e.cpu (s.currentLEU e.cpu) = (s.openNames e.cpu (s.currentLEU e.cpu)).tail ∧
      ∀ l, l ≠ s.currentLEU e.cpu → t.openNames e.cpu l = s.openNames e.cpu l :=
  plain_srvexit (s := s.alloc e) (shaped_alloc shaped e) (plain_alloc shaped.toSound plain e)
    (loose_next shaped.toSound e) (by rwa [deref_alloc_next]) (by rwa [deref_alloc_next]) done

theorem deref_new (heap : t.heap = (s.alloc e).heap) : t.deref (s.next e.cpu) = e := by
  have same : t.deref (s.next e.cpu) = (s.alloc e).deref (s.next e.cpu) := by simp only [State.deref, heap]
  exact same.trans (deref_alloc_next s e)

theorem plain_ctxsw (shaped : Shaped s) (plain : Plain s none) (type : e.eventType = .ctxsw)
    (done : handleCTXSW s e = some t) : Plain t none := by
  unfold handleCTXSW at done
  obtain rfl := Option.some.inj done
  have neutral : e.eventType.Neutral := by rw [type]; decide
  have heap := push_service_heap (s.alloc e) e.cpu (s.next e.cpu)
  have out : Plain (((s.alloc e).pushService e.cpu (s.next e.cpu)).setCurrentLEU e.cpu (.thread e.pid2)) none :=
    (plain_push_neutral shaped.toSound plain neutral).congr rfl (fun _ _ => rfl) fun _ _ => rfl
  have sound := sound_set_leu (sound_push_new shaped.toSound e) e.cpu (.thread e.pid2)
  have deref : (((s.alloc e).pushService e.cpu (s.next e.cpu)).setCurrentLEU e.cpu (.thread e.pid2)).deref
      (s.next e.cpu) = e := deref_new heap
  refine plain_ensure (plain_push sound out (by simp) ?_ ?_) _
  · intro top _
    rw [deref]
    exact foreign_of_neutral neutral _
  · rw [deref, type]
    simp

theorem plain_hirq_entry (shaped : Shaped s) (plain : Plain s none) (type : e.eventType = .hirqentry)
    (unrecursive : Unrecursive s e) (done : handleHIRQEntry s e = some t) : Plain t none := by
  have fresh := unrecursive.interrupt type
  unfold handleHIRQEntry at done
  have foreign : ∀ {n}, n ≠ irqService e.pid1 → e.Foreign n := fun other => by
    simpa [Entry.Foreign, Entry.opens, Entry.closes, type] using other
  have pushed := plain_push_new shaped.toSound plain
    (fun n member => foreign fun same => fresh.1 (same ▸ member)) (by simp [type])
  have aside : Plain (((s.alloc e).pushService e.cpu (s.next e.cpu)).interrupt e.cpu e.pid1) none :=
    pushed.congr rfl (fun _ _ => rfl) fun _ _ => rfl
  have sound := sound_ensure (sound_interrupt (sound_push_new shaped.toSound e) e.cpu e.pid1)
    (.hardwareInterrupt e.pid1)
  have names : ∀ l, ((((s.alloc e).pushService e.cpu (s.next e.cpu)).interrupt e.cpu e.pid1).ensureLEU
      (.hardwareInterrupt e.pid1)).openNames e.cpu l = s.openNames e.cpu l := by
    intro l
    have stack : ((((s.alloc e).pushService e.cpu (s.next e.cpu)).interrupt e.cpu e.pid1).ensureLEU
        (.hardwareInterrupt e.pid1)).stackOf e.cpu l =
      ((s.alloc e).pushService e.cpu (s.next e.cpu)).stackOf e.cpu l := rfl
    rw [State.openNames, stack, stack_of_push_service]
    split
    · rw [names_append_top]
      rfl
    · rfl
  have current : ((((s.alloc e).pushService e.cpu (s.next e.cpu)).interrupt e.cpu e.pid1).ensureLEU
      (.hardwareInterrupt e.pid1)).currentLEU e.cpu = .hardwareInterrupt e.pid1 := by
    simp [State.interrupt, State.ensureLEU, State.setCurrentLEU]
  have opened := plain_new_service (e := e) sound (plain_ensure aside _) (irqService e.pid1)
    (by rw [current, names]; exact fresh.2)
    (by rw [current, names]; exact fun n member => foreign fun same => fresh.2 (same ▸ member))
  exact plain_append_last (sound_push_new_service sound e _ (by simp [EventType.Opening, type])) opened done

theorem plain_hirq_exit (shaped : Shaped s) (plain : Plain s none) (type : e.eventType = .hirqexit)
    (nested : Nested s e) (unrecursive : Unrecursive s e) (done : handleHIRQExit s e = some t) : Plain t none := by
  simp only [Nested, type] at nested
  simp only [handleHIRQExit, bind, Option.bind_eq_some_iff] at done
  obtain ⟨⟨s₁, closed⟩, exited, rest⟩ := done
  have shareable : e.eventType.Shareable true := by simp [EventType.Shareable, type]
  have foreign : ∀ {n}, n ≠ irqService e.pid1 → e.Foreign n := fun other => by
    simpa [Entry.Foreign, Entry.opens, Entry.closes, type] using other
  obtain ⟨plain₁, leu, interrupted, here, others⟩ := plain_exit shaped plain shareable
    (fun top member n other => foreign ((nested top member).1 ▸ other)) exited
  obtain ⟨sound₁, heap⟩ := sound_srvexit (sound_alloc shaped.toSound e) (loose_next shaped.toSound e)
    (by rw [deref_alloc_next]; exact shareable) exited
  split at rest
  · split at rest
    · cases rest
    · rename_i back below aside
      have deref : (s₁.resume e.cpu back below).deref (s.next e.cpu) = e := deref_new heap
      have resumed : Plain (s₁.resume e.cpu back below) none := plain₁.congr rfl (fun _ _ => rfl) fun _ _ => rfl
      have sound := sound_resume sound₁ e.cpu back below
      refine plain_append_last (sound_push sound e.cpu (loose_again heap shareable))
        (plain_push sound resumed (by simp) ?_ (by rw [deref, type]; simp)) rest
      intro top member
      rw [deref]
      have current : (s₁.resume e.cpu back below).currentStack e.cpu = s₁.stackOf e.cpu back := by
        simp [State.currentStack, State.resume, State.setCurrentLEU, State.stackOf]
      rw [current] at member
      have member : top.name ∈ s₁.openNames e.cpu back := List.mem_map_of_mem (List.mem_of_mem_head? member)
      refine foreign fun same => ?_
      by_cases current : back = s.currentLEU e.cpu
      · -- The service of the interrupt has just been closed on this stack.
        subst current
        rw [here] at member
        cases stack : s.currentStack e.cpu with
        | nil =>
          rw [State.openNames, ← State.currentStack, stack] at member
          cases member
        | cons closed more =>
          have names := plain.names e.cpu (s.currentLEU e.cpu)
          rw [State.openNames, ← State.currentStack, stack] at member names
          rw [same, ← (nested closed (by rw [stack]; rfl)).1] at member
          exact (List.nodup_cons.mp names).1 member
      · rw [others back current, same] at member
        exact unrecursive.back type back (by rw [← interrupted, aside]; rfl) current member
  · exact Option.some.inj rest ▸ plain₁

theorem plain_migrate (plain : Plain s none) (done : handleMIGRATE s e = some t) : Plain t none := by
  rcases stack_of_migrate done with rfl | ⟨old, new, apart, heap, leus, frames⟩
  · exact plain
  · have deref : ∀ x, t.deref x = s.deref x := fun x => by simp [State.deref, heap]
    -- Every stack is one of before, maybe of the other CPU, or empty.
    have moved : ∀ c l, t.stackOf c l = [] ∨ ∃ c', t.stackOf c l = s.stackOf c' l := by
      intro c l
      rw [frames]
      split
      · split
        · exact .inl rfl
        · split
          · exact .inr ⟨old, rfl⟩
          · exact .inr ⟨c, rfl⟩
      · exact .inr ⟨c, rfl⟩
    refine ⟨?_, ?_, ?_, ?_⟩
    · intro c l
      rw [State.openNames]
      rcases moved c l with empty | ⟨c', same⟩
      · rw [empty]
        exact List.nodup_nil
      · rw [same]
        exact plain.names c' l
    · intro c l elem member x inside
      rw [deref]
      rcases moved c l with empty | ⟨c', same⟩
      · rw [empty] at member
        cases member
      · rw [same] at member
        exact plain.frames c' l elem member x inside
    · intro l n i member x inside
      rw [deref]
      simp only [State.instances, leus] at member
      exact plain.stored l n i member x inside
    · intro c l _ top first x last
      rw [deref]
      rcases moved c l with empty | ⟨c', same⟩
      · rw [empty] at first
        cases first
      · rw [same] at first
        exact plain.settled c' l (by simp) top first x last

theorem plain_loopstart (shaped : Shaped s) (plain : Plain s none) (type : e.eventType = .loopstart)
    (unrecursive : Unrecursive s e) (done : handleLOOPSTART s e = some t) : Plain t none := by
  have fresh := unrecursive.loop type
  unfold handleLOOPSTART at done
  have touched := plain_touch plain e.cpu
  have names : (s.touch e.cpu).openNames e.cpu ((s.touch e.cpu).currentLEU e.cpu) =
      s.openNames e.cpu (s.currentLEU e.cpu) := by simp [State.openNames]
  obtain rfl := Option.some.inj done
  split
  · exact touched
  · refine plain_new_service (sound_touch shaped.toSound e.cpu) touched e.location (by rwa [names]) ?_
    intro n member
    have other : e.location ≠ n := by
      rintro rfl
      exact fresh (names ▸ member)
    simpa [Entry.Foreign, Entry.opens, Entry.closes, type] using other

theorem head_not_inner {l : LEU} {elem : ServiceStackElement} {h : Ref} {tail : List Ref} (sound : Sound true s)
    (member : elem ∈ s.stackOf c l) (entries : elem.entries = h :: tail)
    (unshared : ¬ (s.deref h).eventType.Shareable true) : ¬ Inner s h := by
  intro inner
  obtain ⟨d, at_d⟩ := entries_of_member member
  have held : s.held (.frame c l d) = h :: tail := at_d.trans entries
  cases inner with
  | stored l' n i stored inside =>
    exact absurd (held_of_instance stored (List.mem_of_mem_tail (List.dropLast_subset _ inside))) fun ⟨k, again⟩ =>
      frame_not_stored sound member (by rw [entries]; exact List.mem_cons_self ..) unshared l' n k again
  | frame c' l' elem' member' inside =>
    obtain ⟨d', at_d'⟩ := entries_of_member member'
    have held' : s.held (.frame c' l' d') = elem'.entries := at_d'
    by_cases same : Place.frame c l d = .frame c' l' d'
    · have once := sound.once (.frame c l d)
      have equal : elem'.entries = h :: tail := by rw [← held', ← same, held]
      rw [equal] at inside
      rw [State.Once, held, List.pairwise_cons] at once
      exact unshared (once.1 h inside rfl)
    · refine unshared (sound.unshared _ (.frame c' l' d') h (by rw [held]; exact List.mem_cons_self ..) ?_ same)
      rw [held']
      exact List.mem_of_mem_tail inside

theorem plain_store_head {elem : ServiceStackElement} {h : Ref} (sound : Sound true s) (plain : Plain s busy)
    (loose : Loose true s elem.entries) (first : h ∈ elem.entries) (unshared : ¬ (s.deref h).eventType.Shareable true)
    (foreign : ∀ x ∈ elem.entries.tail.dropLast, x ≠ h ∧ (s.deref x).Foreign elem.name)
    (stored : (s.modify h fun f => { f with eventType := .loopstart }).pushServiceToLEU c elem = some t) :
    Sound true t ∧ Plain t busy := by
  have outside : ¬ Inner s h := by
    intro inner
    obtain ⟨p, held⟩ := inner_held inner
    exact unshared (loose.apart h first p held)
  have sound₁ := sound_modify sound h (fun f => { f with eventType := .loopstart })
    (fun shared => absurd shared unshared) fun _ => by simp [EventType.Opening]
  have loose₁ := loose_modify loose h (fun f => { f with eventType := .loopstart })
    fun shared => absurd shared unshared
  have plain₁ := plain_modify sound plain h (fun f => { f with eventType := .loopstart })
    fun inner => absurd inner outside
  refine ⟨sound_store sound₁ loose₁ stored, plain_store plain₁ ?_ stored⟩
  intro x inside
  obtain ⟨other, elsewhere⟩ := foreign x inside
  rwa [deref_modify_ne _ other]

theorem start_not_inner {l : LEU} {top : ServiceStackElement} {below : List ServiceStackElement} {h last : Ref}
    {tail : List Ref} (sound : Sound true s) (plain : Plain s none) (full : s.stackOf c l = top :: below)
    (entries : top.entries = h :: tail) (ends : top.entries.getLast? = some last)
    (start : (s.deref last).eventType = .loopstart) : ¬ Inner s last := by
  cases final : tail.getLast? with
  | none =>
    obtain rfl : last = h := by
      rw [entries, List.getLast?_eq_none_iff.mp final] at ends
      exact (Option.some.inj ends).symm
    have member : top ∈ s.stackOf c l := full ▸ List.mem_cons_self ..
    exact head_not_inner sound member entries (by simp [start, EventType.Shareable])
  | some x =>
    have settled := plain.settled c l (by simp) top (by rw [full]; rfl) x (by rw [entries]; exact final)
    obtain rfl : last = x := by simpa [entries, List.getLast?_cons, final] using ends.symm
    exact absurd start settled

theorem plain_looprstart (shaped : Shaped s) (plain : Plain s none) (type : e.eventType = .looprstart)
    (nested : Nested s e) (done : handleLOOPRSTART s e = some t) : Plain t none := by
  have back := nested_home nested
  simp only [Nested, type] at nested
  have touched := plain_touch plain e.cpu
  have sound := sound_touch shaped.toSound e.cpu
  unfold handleLOOPRSTART at done
  dsimp only at done
  cases stack : (s.touch e.cpu).currentStack e.cpu with
  | nil =>
    rw [stack] at done
    exact Option.some.inj done ▸ touched
  | cons top rest =>
    rw [stack] at done
    have full : (s.touch e.cpu).stackOf e.cpu ((s.touch e.cpu).currentLEU e.cpu) = top :: rest := stack
    have member : top ∈ (s.touch e.cpu).stackOf e.cpu ((s.touch e.cpu).currentLEU e.cpu) := by
      rw [full]
      exact List.mem_cons_self ..
    obtain ⟨h, tail, entries, _⟩ := sound.heads rfl _ _ top member
    simp only [bind, Option.bind_eq_some_iff] at done
    obtain ⟨last, getLast, later⟩ := done
    split at later
    · rename_i start
      obtain rfl := Option.some.inj later
      exact plain_modify sound touched last _ fun inner => absurd inner
        (start_not_inner sound touched full entries getLast start)
    · simp only [Option.bind_eq_some_iff] at later
      obtain ⟨⟨service, s₁⟩, popped, first, head?, s₂, stored, eq⟩ := later
      obtain rfl := Option.some.inj eq
      have grown := pushed_top (s := (s.touch e.cpu).alloc e) (c := e.cpu) ((s.touch e.cpu).next e.cpu) stack
      obtain ⟨rfl, rfl⟩ := Prod.mk.inj (Option.some.inj ((pop_top grown).symm.trans popped))
      have cpu := restarted_cpu shaped.toSound type back stack popped head? stored
      obtain ⟨left, fresh⟩ := plain_close (plain_alloc sound touched e) full ((s.touch e.cpu).next e.cpu)
      obtain ⟨sound₁, loose₁, _⟩ := sound_pop (sound_push_new sound e) popped
      obtain rfl : first = h := by simpa [entries] using head?.symm
      have old : ∀ x, (s.touch e.cpu).Valid x → ((((s.touch e.cpu).alloc e).pushService e.cpu
          ((s.touch e.cpu).next e.cpu)).setCurrentStack e.cpu rest).deref x = (s.touch e.cpu).deref x := by
        intro x valid
        rw [← deref_alloc (e := e) valid]
        exact deref_closed ..
      have before : s.currentStack e.cpu = top :: rest := by simpa [State.currentStack] using stack
      have loop : (s.deref first).eventType.looping = true := by
        simpa [State.loops, entries] using (nested top (by rw [before]; rfl)).1
      have unshared : ¬ ((((s.touch e.cpu).alloc e).pushService e.cpu ((s.touch e.cpu).next e.cpu)).setCurrentStack
          e.cpu rest |>.deref first).eventType.Shareable true := by
        rw [old first (valid_frame sound member (by simp [entries]))]
        exact looping_unshared loop
      obtain ⟨sound₂, plain₂⟩ : Sound true s₂ ∧ Plain s₂ (some (e.cpu, (s.touch e.cpu).currentLEU e.cpu)) := by
        refine plain_store_head sound₁ left loose₁ (by simp [entries]) unshared ?_ stored
        intro x inside
        have inside : x ∈ top.entries.tail := by simpa [entries] using inside
        rw [old x (valid_frame sound member (List.mem_of_mem_tail inside))]
        refine ⟨?_, touched.frames _ _ top member x inside⟩
        rintro rfl
        exact head_not_inner sound member entries (looping_unshared loop) (.frame _ _ top member inside)
      obtain ⟨_, leu, service, _⟩ := store_keeps stored
      have leu₂ : s₂.currentLEU = s.currentLEU := leu.trans (push_service_leu _ _ _)
      refine plain_open sound₂ plain₂ ?_ ?_ _ cpu
      · intro p here
        rw [leu₂]
        exact (Option.some.inj here).symm
      · have below : s₂.stackOf e.cpu (s₂.currentLEU e.cpu) = rest := by
          rw [leu₂]
          simp only [State.stackOf, service, State.modify]
          exact (stack_of_closed _ _ _ rest _ _).trans (if_pos ⟨rfl, rfl⟩)
        rw [State.openNames, below]
        exact fresh

theorem plain_loopstop (shaped : Shaped s) (plain : Plain s none) (type : e.eventType = .loopstop)
    (nested : Nested s e) (done : handleLOOPSTOP s e = some t) : Plain t none := by
  simp only [Nested, type] at nested
  have touched := plain_touch plain e.cpu
  have sound := sound_touch shaped.toSound e.cpu
  unfold handleLOOPSTOP at done
  dsimp only at done
  split at done
  · exact Option.some.inj done ▸ touched
  · rename_i service s₁ popped
    obtain ⟨left, foreign, _⟩ := plain_pop touched popped
    obtain ⟨sound₁, loose₁, heads⟩ := sound_pop sound popped
    obtain ⟨h, tail, entries, _⟩ := heads rfl
    obtain ⟨rest, full, rfl⟩ := pop_cases popped
    have before : s.currentStack e.cpu = service :: rest := by simpa [State.currentStack] using full
    have loop : (s.deref h).eventType.looping = true := by
      simpa [State.loops, entries] using nested service (by rw [before]; rfl)
    have member : service ∈ (s.touch e.cpu).stackOf e.cpu ((s.touch e.cpu).currentLEU e.cpu) := by
      rw [full]
      exact List.mem_cons_self ..
    simp only [entries, List.head?_cons] at done
    obtain ⟨s₂, stored, rfl⟩ := Option.map_eq_some_iff.mp done
    generalize copied : ({ ((s.touch e.cpu).setCurrentStack e.cpu rest).deref h with
      eventType := .looprstart, cycles := e.cycles } : Entry) = copy at stored
    have cpu : (((s.touch e.cpu).setCurrentStack e.cpu rest).deref h).cpu = copy.cpu := by rw [← copied]
    rw [cpu] at stored
    have free := loose_snoc sound₁ loose₁ copy
    have unshared : ¬ ((((s.touch e.cpu).setCurrentStack e.cpu rest).alloc copy).deref h).eventType.Shareable true := by
      rw [deref_alloc (loose₁.valid h (by simp [entries]))]
      exact looping_unshared loop
    have stops : Sound true s₂ ∧ Plain s₂ (some (e.cpu, s.currentLEU e.cpu)) ∧ s₂.currentLEU = s.currentLEU := by
      have allocated := plain_alloc sound₁ left copy
      unfold State.storeLoop at stored
      split at stored
      · rw [← entries] at stored
        have ends : Sound true s₂ ∧ Plain s₂ (some (e.cpu, s.currentLEU e.cpu)) := by
          refine plain_store_head (sound_alloc sound₁ copy) allocated (entries ▸ free) (by simp [entries]) unshared ?_
            stored
          intro x inside
          have inside : x ∈ service.entries.tail := by simpa [entries] using inside
          rw [deref_alloc (loose₁.valid x (List.mem_of_mem_tail inside))]
          refine ⟨?_, foreign x inside⟩
          rintro rfl
          exact head_not_inner sound member entries (looping_unshared loop) (.frame _ _ service member inside)
        exact ⟨ends.1, ends.2, (store_keeps stored).2.1⟩
      · exact Option.some.inj stored ▸ ⟨sound_alloc sound₁ copy, allocated, rfl⟩
    obtain ⟨sound₂, plain₂, leu₂⟩ := stops
    have neutral : e.eventType.Neutral := by rw [type]; decide
    refine plain_push (sound_alloc sound₂ e) (plain_alloc sound₂ plain₂ e) ?_ ?_ ?_
    · intro p here
      rw [alloc_leu, leu₂]
      exact (Option.some.inj here).symm
    · intro top _
      rw [deref_alloc_next]
      exact foreign_of_neutral neutral _
    · rw [deref_alloc_next, type]
      simp

theorem plain_sync {operation : Sync} {temporary : Bool} (shaped : Shaped s) (plain : Plain s none)
    (type : e.eventType = .sync operation temporary) (done : handleSync s e operation = some t) : Plain t none := by
  unfold handleSync at done
  split at done
  · refine plain_with_peu shaped.toSound plain ?_ done
    rw [type]
    simp [EventType.Neutral]
  · rename_i v _
    obtain ⟨s₁, pushed, rfl⟩ := Option.map_eq_some_iff.mp done
    have sound := sound_touch shaped.toSound e.cpu
    have noted : Sound true ((s.touch e.cpu).noteUser e.cpu v operation) ∧
        Plain ((s.touch e.cpu).noteUser e.cpu v operation) none := by
      unfold State.noteUser
      split
      · exact ⟨sound, plain_touch plain e.cpu⟩
      · exact ⟨sound_modify sound v.entry _ id id,
          plain_modify sound (plain_touch plain e.cpu) v.entry _ fun _ => ⟨fun _ => id, id⟩⟩
    exact (plain_with_peu noted.1 noted.2 (by simp [EventType.Neutral]) pushed).congr rfl
      (fun _ _ => rfl) fun _ _ => rfl

theorem plain_label_packet {labelled : State × EventType} (sound : Sound true s) (plain : Plain s none)
    (neutral : e.eventType.Neutral) (done : s.labelPacket e = some labelled) :
    Sound true labelled.1 ∧ Plain labelled.1 none ∧ labelled.2.Neutral := by
  unfold State.labelPacket at done
  split at done
  · split at done
    · cases done
    · split at done
      · rename_i last _ packet
        have further : EventType.Neutral .pktqueuen := by decide
        obtain rfl := Option.some.inj done
        refine ⟨sound_modify sound last _ ?_ ?_, plain_modify sound plain last _ ?_, ?_⟩
        · intro shared
          simp [packet, EventType.Shareable] at shared
        · intro opening
          simp [packet, EventType.Opening] at opening
        · exact fun _ => ⟨fun n _ => foreign_of_neutral further n, fun _ => further.2.2.2.1⟩
        · simp [EventType.Neutral]
      · exact Option.some.inj done ▸ ⟨sound, plain, neutral⟩
  · exact Option.some.inj done ▸ ⟨sound, plain, neutral⟩

theorem plain_pktqueue (shaped : Shaped s) (plain : Plain s none) (neutral : e.eventType.Neutral)
    (done : handlePKTQUEUE s e = some t) : Plain t none := by
  unfold handlePKTQUEUE at done
  obtain ⟨labelled, label, rfl⟩ := Option.map_eq_some_iff.mp done
  obtain ⟨sound, plain, neutral⟩ := plain_label_packet shaped.toSound plain neutral label
  exact plain_push_neutral sound plain neutral

theorem plain_handle (shaped : Shaped s) (plain : Plain s none) (nested : Nested s e)
    (unrecursive : Unrecursive s e) (done : handleEvent s e = some t) : Plain t none := by
  have neutral : e.eventType.Neutral → ∀ {u}, s.pushPlain e = some u → Plain u none := by
    intro neutral u pushed
    obtain rfl := Option.some.inj pushed
    exact plain_push_neutral shaped.toSound plain neutral
  unfold handleEvent at done
  split at done
  · rename_i type
    exact plain_ctxsw shaped plain type done
  · exact plain_migrate plain done
  · rename_i type
    exact plain_hirq_entry shaped plain type unrecursive done
  · rename_i type
    exact plain_hirq_exit shaped plain type nested unrecursive done
  · rename_i type
    exact plain_looprstart shaped plain type nested done
  · rename_i type
    exact plain_loopstart shaped plain type unrecursive done
  · rename_i type
    exact plain_loopstop shaped plain type nested done
  · rename_i type
    exact plain_with_peu shaped.toSound plain (by rw [type]; decide) done
  · rename_i type
    exact plain_sync shaped plain type done
  · rename_i type
    exact plain_pktqueue shaped plain (by rw [type]; decide) done
  · rename_i type
    exact plain_pktqueue shaped plain (by rw [type]; decide) done
  · rename_i type
    have fresh := unrecursive.service (.inl type)
    obtain rfl := Option.some.inj done
    refine plain_new_service (e := { e with packetId := "0" }) shaped.toSound plain e.service fresh ?_
    intro n member
    have other : e.service ≠ n := fun same => fresh (same ▸ member)
    simpa [Entry.Foreign, Entry.opens, Entry.closes, type] using other
  · rename_i type
    simp only [Nested, type] at nested
    obtain ⟨⟨u, closed⟩, exited, rfl⟩ := Option.map_eq_some_iff.mp done
    refine (plain_exit shaped plain (.inr (.inl type)) ?_ exited).1
    intro top member n other
    have apart : e.service ≠ n := fun same => other (same.symm.trans (nested top member).1.symm)
    simpa [Entry.Foreign, Entry.opens, Entry.closes, type] using apart
  · rename_i type
    unfold handleSRVQUEUE at done
    split at done
    · rename_i queued
      obtain rfl := Option.some.inj done
      refine plain_push_new (e := { e with service := (softirqs e.service).getD e.service }) shaped.toSound plain
        ?_ (by simp [type])
      intro n _
      simp [Entry.Foreign, Entry.opens, Entry.closes, type, queued, ENQUEUE, DEQUEUE]
    · rename_i taken
      have fresh := unrecursive.service (.inr ⟨type, taken⟩)
      obtain rfl := Option.some.inj done
      refine plain_new_service (e := { e with packetId := "0" }) shaped.toSound plain e.service fresh ?_
      intro n member
      have other : e.service ≠ n := fun same => fresh (same ▸ member)
      simp [Entry.Foreign, Entry.opens, Entry.closes, type, other]
  · rename_i type
    unfold handleTEMPSYNCH at done
    obtain rfl := Option.some.inj done
    exact (plain_push_neutral (e := { e with tempVarId := s.tempVarId }) shaped.toSound plain
      (by rw [type]; decide)).congr rfl (fun _ _ => rfl) fun _ _ => rfl
  all_goals rename_i type
  all_goals first
    | exact neutral (by rw [type]; decide) done
    | exact Option.some.inj done ▸ plain

end Steps

def PlainLine (r : Run) (l : Line) : Prop := ∀ e ∈ r.entryOf l, Nested r.state e ∧ Unrecursive r.state e

instance (r : Run) (l : Line) : Decidable (PlainLine r l) := by
  unfold PlainLine
  infer_instance

theorem plain_line {r t : Run} {l : Line} (shaped : Shaped r.state) (plain : Plain r.state none)
    (guard : PlainLine r l) (done : r.line l = some t) : Shaped t.state ∧ Plain t.state none := by
  refine line_rule (P := fun s => Shaped s ∧ Plain s none) ⟨shaped, plain⟩ done ?_ ?_ ?_
  · intro _ _ _ _ both
    exact ⟨both.1.congr rfl (fun _ _ => rfl) fun _ _ => rfl, both.2.congr rfl (fun _ _ => rfl) fun _ _ => rfl⟩
  · have empty : ∀ c l, r.resetOnEOD.state.stackOf c l = [] := fun c l => by simp [State.stackOf, Run.resetOnEOD]
    refine ⟨shaped_eod shaped, ⟨?_, ?_, plain.stored, ?_⟩⟩
    · intro c l
      rw [State.openNames, empty]
      exact List.nodup_nil
    · intro c l elem member
      rw [empty] at member
      cases member
    · intro c l _ top first
      rw [empty] at first
      cases first
  · intro e s made both handled
    obtain ⟨nested, service, loop, interrupt, back⟩ := guard e made
    exact ⟨shaped_handle both.1 nested handled,
      plain_handle both.1 both.2 nested ⟨service, loop, interrupt, back⟩ handled⟩

theorem plain_initial : Plain State.initial none where
  names _ _ := List.nodup_nil
  frames _ _ _ member := by cases member
  stored _ _ _ member := by cases member
  settled _ _ _ _ first := by cases first

theorem plain_run {ls : List Line} {r t : Run} (shaped : Shaped r.state) (plain : Plain r.state none)
    (guard : TransitionRuns.Guarded Run.line PlainLine r ls) (done : r.lines ls = some t) :
    Shaped t.state ∧ Plain t.state none := by
  induction ls generalizing r with
  | nil => exact Option.some.inj done ▸ ⟨shaped, plain⟩
  | cons l ls ih =>
    obtain ⟨u, first, rest⟩ := Option.bind_eq_some_iff.mp done
    obtain ⟨shaped, plain⟩ := plain_line shaped plain guard.1 first
    exact ih shaped plain (guard.2 u first) rest

end Analyse
