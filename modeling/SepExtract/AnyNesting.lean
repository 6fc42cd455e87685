import SepExtract.AnalysePeu
import SepExtract.HandlerMoves

/- Traces nested in any way. Whatever the order of services, loops and context switches, no
   handler panics, as long as interrupts are not left more often than they are entered. The
   interrupts of a PEU may be relabelled by a loop that is restarted inside them; then the scan
   sees fewer of them, and has no match where it had none before. -/
namespace Analyse

def EventType.Unscanned (t : EventType) : Prop :=
  t ≠ .hirqentry ∧ t ≠ .hirqexit ∧ ∀ operation temp, t ≠ .sync operation temp

def EventType.Steady (t : EventType) : Prop := t = .hirqexit ∨ ∃ operation temp, t = .sync operation temp

/-- An entry after a change: it is the same for the scan, or is no longer looked at. -/
structure Weaker (a b : Entry) : Prop where
  service : a.service = b.service
  type : a.eventType.unlabelled = b.eventType.unlabelled ∨ a.eventType.Unscanned ∧ ¬ b.eventType.Steady

theorem weaker_refl (a : Entry) : Weaker a a := ⟨rfl, Or.inl rfl⟩

theorem unscanned_unlabelled (t : EventType) : t.unlabelled.Unscanned ↔ t.Unscanned := by
  cases t <;> simp [EventType.unlabelled, EventType.Unscanned]

theorem steady_unlabelled (t : EventType) : t.unlabelled.Steady ↔ t.Steady := by
  cases t <;> simp [EventType.unlabelled, EventType.Steady]

theorem weaker_trans {a b c : Entry} (first : Weaker a b) (second : Weaker b c) : Weaker a c := by
  refine ⟨first.service.trans second.service, ?_⟩
  rcases first.type with same | ⟨unseen, loose⟩
  · rcases second.type with equal | ⟨unseen, loose⟩
    · exact Or.inl (same.trans equal)
    · rw [← unscanned_unlabelled, ← same, unscanned_unlabelled] at unseen
      exact Or.inr ⟨unseen, loose⟩
  · rcases second.type with equal | ⟨-, still⟩
    · rw [← steady_unlabelled, equal, steady_unlabelled] at loose
      exact Or.inr ⟨unseen, loose⟩
    · exact Or.inr ⟨unseen, still⟩

structure PeuScan.Below (index : Nat) (a b : PeuScan) : Prop where
  synchvar : a.synchvar = b.synchvar
  irq : a.interruptWithIndex ≠ 0 → b.interruptWithIndex ≠ 0 ∧ 0 < index
  compl : a.intwithcompl ≠ 0 → b.intwithcompl ≠ 0

theorem below_synch {n : Nat} {a b : PeuScan} (below : a.Below n b) (service : String)
    (miss : (b.synch service).2 = false) :
    (a.synch service).1.Below n (b.synch service).1 ∧ (a.synch service).2 = false := by
  unfold PeuScan.synch at miss ⊢
  rw [below.synchvar]
  split at miss
  · next empty =>
    rw [if_pos empty, if_pos empty]
    exact ⟨⟨rfl, below.irq, below.compl⟩, rfl⟩
  · next named =>
    rw [if_neg named, if_neg named]
    refine ⟨below, ?_⟩
    simp only [decide_eq_false_iff_not, not_and, not_not] at miss ⊢
    exact fun same => not_not.mp fun some => below.compl some (miss same)

theorem below_complete {n : Nat} {a b : PeuScan} (below : a.Below n b) : a.complete.Below n b.complete := by
  unfold PeuScan.complete
  by_cases inside : a.interruptWithIndex ≠ 0
  · rw [if_pos inside, if_pos (below.irq inside).1]
    exact ⟨below.synchvar, below.irq, fun some => (below.irq some).1⟩
  · rw [if_neg inside]
    split
    · next outer => exact ⟨below.synchvar, below.irq, fun _ => outer⟩
    · exact below

theorem step_same {x y : Entry} (type : x.eventType.unlabelled = y.eventType.unlabelled) (service : x.service = y.service)
    (scan : PeuScan) (n : Nat) : scan.step n x = scan.step n y := by
  have label : x.unlabelled.eventType = y.unlabelled.eventType := type
  have name : x.unlabelled.service = y.unlabelled.service := service
  rw [← step_view scan n x, ← step_view scan n y]
  unfold PeuScan.step
  rw [label, name]

theorem step_unscanned {x : Entry} (unseen : x.eventType.Unscanned) (scan : PeuScan) (n : Nat) :
    scan.step n x = (scan, false) := by
  obtain ⟨entry, exit, sync⟩ := unseen
  unfold PeuScan.step
  split
  · next type => exact absurd type entry
  · next type => exact absurd type exit
  · next type => exact absurd type (sync _ _)
  · next type => exact absurd type (sync _ _)
  · rfl

theorem below_later {n : Nat} {a b : PeuScan} (below : a.Below n b) : a.Below (n + 1) b :=
  ⟨below.synchvar, fun some => ⟨(below.irq some).1, Nat.succ_pos n⟩, below.compl⟩

theorem below_step_same {n : Nat} {a b : PeuScan} {y : Entry} (below : a.Below n b) (miss : (b.step n y).2 = false) :
    (a.step n y).1.Below (n + 1) (b.step n y).1 ∧ (a.step n y).2 = false := by
  unfold PeuScan.step at miss ⊢
  split at miss
  · exact ⟨⟨below.synchvar, fun some => ⟨some, Nat.succ_pos n⟩, below.compl⟩, rfl⟩
  · exact ⟨⟨below.synchvar, fun some => absurd rfl some, below.compl⟩, rfl⟩
  · obtain ⟨after, silent⟩ := below_synch (below_complete below) y.service miss
    exact ⟨below_later after, silent⟩
  · obtain ⟨after, silent⟩ := below_synch below y.service miss
    exact ⟨below_later after, silent⟩
  · exact ⟨below_later below, rfl⟩

theorem below_step {n : Nat} {a b : PeuScan} {x y : Entry} (below : a.Below n b) (weaker : Weaker x y)
    (miss : (b.step n y).2 = false) : (a.step n x).1.Below (n + 1) (b.step n y).1 ∧ (a.step n x).2 = false := by
  rcases weaker.type with same | ⟨unseen, loose⟩
  · rw [step_same same weaker.service]
    exact below_step_same below miss
  · rw [step_unscanned unseen]
    refine ⟨?_, rfl⟩
    by_cases entry : y.eventType = .hirqentry
    · have step : b.step n y = ({ b with interruptWithIndex := n }, false) := by simp [PeuScan.step, entry]
      rw [step]
      refine ⟨below.synchvar, fun some => ⟨?_, Nat.succ_pos n⟩, below.compl⟩
      have positive := (below.irq some).2
      exact Nat.pos_iff_ne_zero.mp positive
    · have unscanned : y.eventType.Unscanned := by
        refine ⟨entry, fun exit => loose (Or.inl exit), fun operation temp sync => loose (Or.inr ⟨operation, temp, sync⟩)⟩
      rw [step_unscanned unscanned]
      exact below_later below

theorem silent_weaker {es fs : List Entry} (weaker : List.Forall₂ Weaker fs es) (silent_before : (silent es).isSome) :
    (silent fs).isSome := by
  have scans : ∀ {n : Nat} {a b b' : PeuScan}, a.Below n b → (es.zipIdx n).foldlM silentStep b = some b' →
      ((fs.zipIdx n).foldlM silentStep a).isSome := by
    clear silent_before
    induction weaker with
    | nil => exact fun _ _ => rfl
    | cons first rest ih =>
      intro n a b b' below scanned
      rw [List.zipIdx_cons, List.foldlM_cons, Option.bind_eq_bind, Option.bind_eq_some_iff] at scanned
      obtain ⟨next, here, later⟩ := scanned
      unfold silentStep at here
      dsimp only at here
      split at here
      · cases here
      · next miss =>
        obtain ⟨after, silent⟩ := below_step below first (by simpa using miss)
        rw [Option.some.inj here] at after
        rw [List.zipIdx_cons, List.foldlM_cons]
        simp only [silentStep, silent, Bool.false_eq_true, if_false]
        exact ih after later
  obtain ⟨scan, scanned⟩ := Option.isSome_iff_exists.mp silent_before
  exact scans ⟨rfl, fun some => absurd rfl some, fun some => absurd rfl some⟩ scanned

def State.Weakens (s t : State) : Prop := ∀ r, s.Valid r → t.Valid r ∧ Weaker (t.deref r) (s.deref r)

structure Calm (s : State) : Prop where
  valid : ∀ r ∈ s.currentPEU.entries, s.Valid r
  scan : (silent (s.currentPEU.entries.map s.view)).isSome

theorem calm_weakens {s t : State} (calm : Calm s) (weakens : s.Weakens t) (peu : t.currentPEU = s.currentPEU) :
    Calm t := by
  constructor
  · rw [peu]
    exact fun r member => (weakens r (calm.valid r member)).1
  · rw [peu]
    refine silent_weaker ?_ calm.scan
    rw [List.forall₂_map_left_iff, List.forall₂_map_right_iff]
    refine List.forall₂_same.mpr fun r member => ?_
    obtain ⟨_, weaker⟩ := weakens r (calm.valid r member)
    refine ⟨weaker.service, ?_⟩
    rcases weaker.type with same | ⟨unseen, loose⟩
    · exact Or.inl (congrArg EventType.unlabelled same)
    · exact Or.inr ⟨(unscanned_unlabelled _).mpr unseen, fun steady => loose ((steady_unlabelled _).mp steady)⟩

theorem calm_append {s : State} {r : Ref} (calm : Calm s) (valid : s.Valid r) :
    ∃ t, s.appendToPEU r = some t ∧ Calm t := by
  obtain ⟨t, done, _, rfl | empty | ⟨rfl, silent⟩⟩ := append_outcome calm.scan r
  · exact ⟨t, done, calm⟩
  · exact ⟨t, done, by simp [empty], by simp [empty, silent]⟩
  · refine ⟨_, done, fun q member => ?_, silent⟩
    rcases List.mem_append.mp member with old | new
    · exact calm.valid q old
    · exact List.mem_singleton.mp new ▸ valid

theorem top_entries {s : State} {c : Fin 2} {top : ServiceStackElement} {rest : List ServiceStackElement}
    (sound : Sound true s) (full : s.currentStack c = top :: rest) :
    (∃ h t, top.entries = h :: t) ∧ ∀ r ∈ top.entries, s.Valid r := by
  have full : s.stackOf c (s.currentLEU c) = top :: rest := full
  have member : top ∈ s.stackOf c (s.currentLEU c) := full ▸ List.mem_cons_self ..
  obtain ⟨h, t, entries, _⟩ := sound.heads rfl c _ top member
  exact ⟨⟨h, t, entries⟩, fun r inside => valid_frame sound member inside⟩

theorem calm_append_last {s : State} (sound : Sound true s) (calm : Calm s) (c : Fin 2) :
    ∃ t, s.appendLastToPEU c = some t ∧ Calm t := by
  unfold State.appendLastToPEU
  split
  · exact ⟨s, rfl, calm⟩
  · next top rest full =>
    obtain ⟨⟨h, t, entries⟩, valid⟩ := top_entries sound full
    have filled : top.entries ≠ [] := by simp [entries]
    rw [List.getLast?_eq_getLast_of_ne_nil filled]
    exact calm_append calm (valid _ (List.getLast_mem filled))

structure Continues (s : State) (d : Desk) : Prop where
  weakens : s.Weakens d.state
  leus : ∀ l, (s.leus l).isSome → (d.state.leus l).isSome
  appended : s.lastAppended.isSome → d.state.lastAppended.isSome

theorem continues_start (s : State) (hand : Option ServiceStackElement) (switched : Bool) :
    Continues s ⟨s, hand, switched⟩ :=
  ⟨fun _ valid => ⟨valid, weaker_refl _⟩, fun _ known => known, fun some => some⟩

theorem continues_modify {s : State} {d : Desk} {r : Ref} {f : Entry → Entry} (continues : Continues s d)
    (weaker : Weaker (f (d.state.deref r)) (d.state.deref r)) :
    Continues s { d with state := d.state.modify r f } := by
  refine ⟨fun x valid => ?_, continues.leus, continues.appended⟩
  obtain ⟨before, weak⟩ := continues.weakens x valid
  refine ⟨(valid_modify r f).mpr before, ?_⟩
  dsimp only
  by_cases here : x = r
  · subst here
    rw [deref_modify_self f before]
    exact weaker_trans weaker weak
  · rw [deref_modify_ne f here]
    exact weak

theorem continues_keep {s : State} {a b : Desk} (continues : Continues s a) (heap : b.state.heap = a.state.heap)
    (leus : ∀ l, (a.state.leus l).isSome → (b.state.leus l).isSome)
    (appended : a.state.lastAppended.isSome → b.state.lastAppended.isSome) : Continues s b := by
  refine ⟨?_, fun l known => leus l (continues.leus l known), fun some => appended (continues.appended some)⟩
  simpa only [State.Weakens, State.Valid, State.deref, heap] using continues.weakens

theorem ensure_leus (s : State) (k l : LEU) : ((s.ensureLEU k).leus l).isSome = (decide (l = k) || (s.leus l).isSome) := by
  unfold State.ensureLEU
  by_cases same : l = k
  · simp [same]
  · simp [same]

theorem store_leus {s t : State} {c : Fin 2} {elem : ServiceStackElement} (stored : s.pushServiceToLEU c elem = some t)
    (l : LEU) : (t.leus l).isSome = (s.leus l).isSome := by
  unfold State.pushServiceToLEU at stored
  dsimp only at stored
  split at stored
  · cases stored
  · next m known =>
    obtain rfl := Option.some.inj stored
    by_cases same : l = s.currentLEU c
    · subst same
      simp [known]
    · simp [same]

theorem continues_move {e : Entry} {s : State} {a b : Desk} (move : Move true e a b) (continues : Continues s a) :
    Continues s b := by
  cases move with
  | alloc x =>
    refine ⟨fun r valid => ?_, continues.leus, continues.appended⟩
    obtain ⟨before, weaker⟩ := continues.weakens r valid
    refine ⟨valid_alloc before, ?_⟩
    dsimp only
    rw [deref_alloc before]
    exact weaker
  | relabel r f before after kept =>
    refine continues_modify continues ⟨by rw [kept], Or.inr ⟨?_, fun steady => ?_⟩⟩
    · rcases after (a.state.deref r) with type | type <;> simp [type, EventType.Unscanned]
    · have opening := before rfl
      rcases steady with type | ⟨operation, temp, type⟩ <;> simp [type, EventType.Opening] at opening
  | packet r type before =>
    exact continues_modify continues ⟨rfl, Or.inr ⟨by simp [EventType.Unscanned], by simp [before, EventType.Steady]⟩⟩
  | fill => exact continues_modify continues ⟨rfl, Or.inl rfl⟩
  | note v operation =>
    unfold State.noteUser
    split
    · exact continues
    · exact continues_modify continues ⟨rfl, Or.inl rfl⟩
  | push c r =>
    refine continues_keep continues (push_entry_heap ..) (fun l known => by simpa using known) fun some => ?_
    unfold State.pushEntry
    split
    · exact some
    · rfl
  | last => exact continues_keep continues rfl (fun _ known => known) fun _ => rfl
  | pop t elem popped =>
    obtain ⟨rest, _, rfl⟩ := pop_cases popped
    exact continues_keep continues rfl (fun _ known => known) fun some => some
  | store t elem taken stored =>
    obtain ⟨heap, _, _, _, _, _, last⟩ := store_keeps stored
    exact continues_keep continues heap (fun l known => by rw [store_leus stored]; exact known) fun some => by
      dsimp only
      rw [last]
      exact some
  | ensure k =>
    refine continues_keep continues rfl (fun l known => ?_) fun some => some
    dsimp only
    rw [ensure_leus, known, Bool.or_true]
  | touch => exact continues_keep continues rfl (fun _ known => known) fun some => some
  | opens => exact continues_keep continues rfl (fun _ known => known) fun some => some
  | extend => exact continues_keep continues rfl (fun _ known => known) fun some => some
  | drop => exact continues_keep continues rfl (fun _ known => known) fun some => some
  | switch => exact continues_keep continues rfl (fun _ known => known) fun some => some
  | peu => exact continues_keep continues rfl (fun _ known => known) fun some => some
  | temps => exact continues_keep continues rfl (fun _ known => known) fun some => some

theorem continues_moves {e : Entry} {s : State} {hand : Option ServiceStackElement} {switched : Bool} {d : Desk}
    (moves : Moves true e ⟨s, hand, switched⟩ d) : Continues s d :=
  moves_keep (fun _ _ => continues_move) moves (continues_start s hand switched)

section Totality
variable {s : State} {e : Entry}

theorem register_call_peu (s : State) (e : Entry) : (s.registerCall e).currentPEU = s.currentPEU := by
  unfold State.registerCall
  split
  · rfl
  · exact push_entry_peu ..

theorem new_service_peu (s : State) (e : Entry) (name : String) :
    (s.pushNewService e name).currentPEU = s.currentPEU := by
  unfold State.pushNewService
  dsimp only
  split
  · exact open_service_peu ..
  · exact (open_service_peu ..).trans (register_call_peu ..)

theorem store_total {c : Fin 2} (mapped : (s.leus (s.currentLEU c)).isSome) (elem : ServiceStackElement) :
    ∃ t, s.pushServiceToLEU c elem = some t := by
  obtain ⟨m, known⟩ := Option.isSome_iff_exists.mp mapped
  unfold State.pushServiceToLEU
  simp [known]

theorem calm_of_moves {d : Desk} (calm : Calm s) (moves : Moves true e ⟨s, none, false⟩ d)
    (peu : d.state.currentPEU = s.currentPEU) : Calm d.state :=
  calm_weakens calm (continues_moves moves).weakens peu

theorem total_srvexit (s : State) (c : Fin 2) (r : Ref) : ∃ t closed, handleSRVEXIT s c r = some (t, closed) ∧
    t.currentPEU = s.currentPEU ∧ t.interrupted = s.interrupted := by
  unfold handleSRVEXIT
  dsimp only
  cases full : s.currentStack c with
  | nil => exact ⟨_, _, rfl, by simp, by simp⟩
  | cons top rest =>
    have popped := pop_top (pushed_top r full)
    rw [List.isEmpty_cons, if_neg (by simp), popped]
    let u := (s.pushService c r).setCurrentStack c rest
    obtain ⟨t, stored⟩ := store_total (s := u.ensureLEU (u.currentLEU c)) (c := c)
      (by rw [ensure_leus]; simp [State.ensureLEU]) { top with entries := top.entries ++ [r] }
    obtain ⟨_, _, _, aside, _, peu, _⟩ := store_keeps stored
    refine ⟨t.pushService c r, true,
      congrArg (fun o : Option State => o.bind fun v => some (v.pushService c r, true)) stored, ?_, ?_⟩
    · rw [push_service_peu, peu]
      exact push_service_peu ..
    · rw [push_service_interrupted, aside]
      exact push_service_interrupted ..

theorem weakens_alloc (s : State) (x : Entry) {t : State} (heap : t.heap = (s.alloc x).heap) : s.Weakens t := by
  intro r valid
  have same : t.deref r = s.deref r := by
    rw [← deref_alloc (e := x) valid]
    simp only [State.deref, heap]
  refine ⟨?_, by rw [same]; exact weaker_refl _⟩
  have after : (s.alloc x).Valid r := valid_alloc valid
  simpa only [State.Valid, heap] using after

theorem total_with_peu (sound : Sound true s) (calm : Calm s) (x : Entry) : ∃ t, s.pushWithPEU x = some t ∧ Calm t := by
  refine calm_append_last (sound_push_new sound x) ?_ x.cpu
  exact calm_weakens calm (weakens_alloc s x (push_service_heap ..)) (push_service_peu ..)

theorem total_sync (sound : Sound true s) (calm : Calm s) (e : Entry) (operation : Sync) :
    ∃ t, handleSync s e operation = some t ∧ Calm t := by
  unfold handleSync
  split
  · exact total_with_peu sound calm e
  · next v _ =>
    have noted : Sound true ((s.touch e.cpu).noteUser e.cpu v operation) ∧
        Calm ((s.touch e.cpu).noteUser e.cpu v operation) := by
      unfold State.noteUser
      split
      · exact ⟨sound_touch sound e.cpu, calm.valid, calm.scan⟩
      · refine ⟨sound_modify (sound_touch sound e.cpu) v.entry _ id id, ?_⟩
        refine calm_weakens calm
          (continues_modify (continues_start (s.touch e.cpu) none false) ⟨rfl, Or.inl rfl⟩).weakens rfl
    obtain ⟨t, pushed, after⟩ := total_with_peu noted.1 noted.2 { e with eventType := .sync operation true }
    exact ⟨t.countTempVar e.service v operation, congrArg (Option.map fun s => s.countTempVar e.service v operation) pushed,
      after.valid, after.scan⟩

theorem total_hirq_entry (sound : Sound true s) (calm : Calm s) (type : e.eventType = .hirqentry) :
    ∃ t, handleHIRQEntry s e = some t ∧ Calm t := by
  have before : Moves true e ⟨s, none, false⟩ ⟨(s.alloc e).pushService e.cpu (s.next e.cpu), none, false⟩ :=
    moves_push_new e (fun _ => rfl) .refl
  have known := sound_ensure (sound_interrupt (sound_push_new sound e) e.cpu e.pid1) (.hardwareInterrupt e.pid1)
  have moves := moves_new_service e (irqService e.pid1)
    ((before.tail (.switch _ _ _ rfl (Or.inr (Or.inl ⟨type, rfl, rfl⟩)))).tail (.ensure _ (.hardwareInterrupt e.pid1))) rfl
  refine calm_append_last (sound_push_new_service known e _ (by rw [type]; simp [EventType.Opening])) ?_ e.cpu
  refine calm_of_moves calm moves ((new_service_peu ..).trans ?_)
  exact push_service_peu ..

theorem total_hirq_exit (sound : Sound true s) (calm : Calm s) (type : e.eventType = .hirqexit)
    (aside : s.interrupted ≠ []) : ∃ t, handleHIRQExit s e = some t ∧ Calm t := by
  obtain ⟨u, closed, exited, peu, same⟩ := total_srvexit (s.alloc e) e.cpu (s.next e.cpu)
  have shareable : e.eventType.Shareable true := Or.inr (Or.inr (Or.inl type))
  obtain ⟨left, heap⟩ := sound_srvexit (sound_alloc sound e) (loose_next sound e)
    (by rw [deref_alloc_next]; exact shareable) exited
  unfold handleHIRQExit
  dsimp only
  rw [exited]
  cases closed with
  | false => exact ⟨u, rfl, calm_weakens calm (weakens_alloc s e heap) peu⟩
  | true =>
    cases rest : u.interrupted with
    | nil => exact absurd (same.symm.trans rest) aside
    | cons leu others =>
      have resumed := sound_push (sound_resume left e.cpu leu others) e.cpu (loose_again (s := s) (e := e) heap shareable)
      obtain ⟨t, appended, after⟩ := calm_append_last resumed (calm_weakens calm
        (weakens_alloc s e ((push_service_heap ..).trans heap)) ((push_service_peu ..).trans peu)) e.cpu
      refine ⟨t, ?_, after⟩
      simpa [rest] using appended

theorem total_looprstart (sound : Sound true s) (e : Entry) (mapped : (s.leus (s.currentLEU e.cpu)).isSome) :
    ∃ t, handleLOOPRSTART s e = some t ∧ t.currentPEU = s.currentPEU := by
  unfold handleLOOPRSTART
  dsimp only
  cases full : (s.touch e.cpu).currentStack e.cpu with
  | nil => exact ⟨_, rfl, rfl⟩
  | cons top rest =>
    obtain ⟨⟨h, tail, entries⟩, _⟩ := top_entries (sound_touch sound e.cpu) full
    obtain ⟨last, found⟩ : ∃ last, top.entries.getLast? = some last :=
      Option.isSome_iff_exists.mp (by simp [entries])
    dsimp only
    rw [found]
    dsimp only [bind, Option.bind_some]
    split
    · exact ⟨_, rfl, rfl⟩
    · have popped := pop_top (pushed_top ((s.touch e.cpu).next e.cpu)
        (show ((s.touch e.cpu).alloc e).stackOf e.cpu (((s.touch e.cpu).alloc e).currentLEU e.cpu) = top :: rest from full))
      have first : (top.entries ++ [(s.touch e.cpu).next e.cpu]).head? = some h := by simp [entries]
      rw [popped]
      dsimp only [Option.bind_some]
      rw [first]
      dsimp only [Option.bind_some]
      let u := (((s.touch e.cpu).alloc e).pushService e.cpu ((s.touch e.cpu).next e.cpu)).setCurrentStack e.cpu rest
      obtain ⟨v, stored⟩ := store_total (s := u.modify h fun f => { f with eventType := .loopstart }) (c := e.cpu)
        (by simpa [u, State.modify, State.setCurrentStack, State.alloc, State.touch] using mapped)
        { top with entries := top.entries ++ [(s.touch e.cpu).next e.cpu] }
      obtain ⟨_, _, _, _, _, peu, _⟩ := store_keeps stored
      refine ⟨_, congrArg (fun o : Option State => o.bind _) stored, (open_service_peu ..).trans (peu.trans ?_)⟩
      exact push_service_peu ..

theorem total_loopstop (sound : Sound true s) (e : Entry) (mapped : (s.leus (s.currentLEU e.cpu)).isSome) :
    ∃ t, handleLOOPSTOP s e = some t ∧ t.currentPEU = s.currentPEU := by
  unfold handleLOOPSTOP
  dsimp only
  cases full : (s.touch e.cpu).currentStack e.cpu with
  | nil =>
    have empty : (s.touch e.cpu).pop e.cpu = none := by simp [State.pop, full]
    rw [empty]
    exact ⟨_, rfl, rfl⟩
  | cons top rest =>
    have popped : (s.touch e.cpu).pop e.cpu = some (top, (s.touch e.cpu).setCurrentStack e.cpu rest) := pop_top full
    obtain ⟨⟨h, tail, entries⟩, _⟩ := top_entries (sound_touch sound e.cpu) full
    have first : top.entries.head? = some h := by simp [entries]
    rw [popped]
    dsimp only
    rw [first]
    dsimp only
    let u := (s.touch e.cpu).setCurrentStack e.cpu rest
    let copy : Entry := { u.deref h with eventType := .looprstart, cycles := e.cycles }
    have stored : ∃ v, (u.alloc copy).storeLoop e.cpu { top with entries := top.entries ++ [u.next copy.cpu] } h = some v ∧
        v.currentPEU = s.currentPEU := by
      unfold State.storeLoop
      split
      · obtain ⟨v, stored⟩ := store_total (s := (u.alloc copy).modify h fun f => { f with eventType := .loopstart })
          (c := e.cpu) mapped { top with entries := top.entries ++ [u.next copy.cpu] }
        obtain ⟨_, _, _, _, _, peu, _⟩ := store_keeps stored
        exact ⟨v, stored, peu⟩
      · exact ⟨_, rfl, rfl⟩
    obtain ⟨v, stored, peu⟩ := stored
    refine ⟨(v.alloc e).pushService e.cpu (v.next e.cpu), ?_, (push_service_peu ..).trans peu⟩
    exact congrArg (Option.map fun s => (s.alloc e).pushService e.cpu (s.next e.cpu)) stored

theorem total_pktqueue (e : Entry) (appended : s.lastAppended.isSome) :
    ∃ t, handlePKTQUEUE s e = some t ∧ t.currentPEU = s.currentPEU := by
  obtain ⟨last, known⟩ := Option.isSome_iff_exists.mp appended
  have labelled : ∃ u, s.labelPacket e = some u ∧ u.1.currentPEU = s.currentPEU := by
    unfold State.labelPacket
    rw [known]
    dsimp only
    split
    · split
      · exact ⟨_, rfl, rfl⟩
      · exact ⟨_, rfl, rfl⟩
    · exact ⟨_, rfl, rfl⟩
  obtain ⟨u, done, peu⟩ := labelled
  unfold handlePKTQUEUE
  rw [done]
  exact ⟨_, rfl, (push_service_peu ..).trans peu⟩

/-- No handler panics: the running LEU has a map and some entry was appended before, unless the
    event is a context switch, and an interrupt that is left was entered. -/
theorem handle_total (sound : Sound true s) (homed : Homed s) (calm : Calm s) (stays : e.eventType ≠ .migrate)
    (mapped : e.eventType ≠ .ctxsw → (s.leus (s.currentLEU e.cpu)).isSome)
    (appended : e.eventType ≠ .ctxsw → s.lastAppended.isSome)
    (aside : e.eventType = .hirqexit → s.interrupted ≠ []) : ∃ t, handleEvent s e = some t ∧ Calm t := by
  have quiet : (∃ t, handleEvent s e = some t ∧ t.currentPEU = s.currentPEU) → ∃ t, handleEvent s e = some t ∧ Calm t := by
    rintro ⟨t, done, peu⟩
    obtain ⟨switched, moves⟩ := handle_moves (fun _ => ⟨sound, homed_restarts homed e⟩) stays done
    exact ⟨t, done, calm_of_moves calm moves peu⟩
  have plain : ∃ t, s.pushPlain e = some t ∧ t.currentPEU = s.currentPEU := ⟨_, rfl, push_service_peu ..⟩
  have switch : ∃ t, handleCTXSW s e = some t ∧ t.currentPEU = s.currentPEU :=
    ⟨_, rfl, (push_service_peu ..).trans (push_service_peu ..)⟩
  have declare : ∃ t, handleTEMPSYNCH s e = some t ∧ t.currentPEU = s.currentPEU := ⟨_, rfl, push_service_peu ..⟩
  cases type : e.eventType with
  | migrate => exact absurd type stays
  | hirqentry => simpa [handleEvent, type] using total_hirq_entry sound calm type
  | hirqexit => simpa [handleEvent, type] using total_hirq_exit sound calm type (aside type)
  | peustart => simpa [handleEvent, type, handlePEUSTART] using total_with_peu sound calm e
  | sync operation temp =>
    cases temp with
    | false => simpa [handleEvent, type] using total_sync sound calm e operation
    | true => exact ⟨s, by simp [handleEvent, type], calm⟩
  | looprstart => exact quiet (by simpa [handleEvent, type] using total_looprstart sound e (mapped (by simp [type])))
  | loopstop => exact quiet (by simpa [handleEvent, type] using total_loopstop sound e (mapped (by simp [type])))
  | pktqueue => exact quiet (by simpa [handleEvent, type] using total_pktqueue e (appended (by simp [type])))
  | pktqueuen => exact quiet (by simpa [handleEvent, type] using total_pktqueue e (appended (by simp [type])))
  | srvexit =>
    obtain ⟨t, closed, exited, peu, _⟩ := total_srvexit (s.alloc e) e.cpu (s.next e.cpu)
    exact quiet ⟨t, by simp [handleEvent, type, exited], peu⟩
  | ctxsw => exact quiet (by simpa [handleEvent, type] using switch)
  | srventry => exact quiet ⟨_, by simp only [handleEvent, type]; rfl, new_service_peu ..⟩
  | srvqueue =>
    refine quiet ?_
    simp only [handleEvent, type, handleSRVQUEUE]
    split
    · exact ⟨_, rfl, push_service_peu ..⟩
    · exact ⟨_, rfl, new_service_peu ..⟩
  | loopstart =>
    refine quiet ?_
    simp only [handleEvent, type, handleLOOPSTART]
    split
    · exact ⟨_, rfl, rfl⟩
    · exact ⟨_, rfl, new_service_peu ..⟩
  | tempsynch => exact quiet (by simpa [handleEvent, type] using declare)
  | queuecond => exact quiet (by simpa [handleEvent, type] using plain)
  | statecond => exact quiet (by simpa [handleEvent, type] using plain)
  | statequeue => exact quiet (by simpa [handleEvent, type] using plain)
  | sleep => exact quiet (by simpa [handleEvent, type] using plain)
  | ttwakeup => exact quiet (by simpa [handleEvent, type] using plain)
  | wakeup => exact quiet (by simpa [handleEvent, type] using plain)
  | pktextr => exact ⟨s, by simp [handleEvent, type], calm⟩
  | pktextrn => exact ⟨s, by simp [handleEvent, type], calm⟩
  | threadcond => exact ⟨s, by simp [handleEvent, type], calm⟩
  | other => exact ⟨s, by simp [handleEvent, type], calm⟩

end Totality

/-- What one line does to the interrupts of each CPU, as far as lines are analysed: those entered
    ahead of those left, from the first context switch of the CPU in the segment on. -/
structure IrqBalance where
  limbo : Fin 2 → Bool
  ahead : Fin 2 → Int

def IrqBalance.initial : IrqBalance := ⟨fun _ => true, fun _ => 0⟩

def EventType.irqs : EventType → Int
  | .hirqentry => 1
  | .hirqexit => -1
  | _ => 0

def IrqBalance.line (x : IrqBalance) : Line → IrqBalance
  | .eod => .initial
  | .columns f =>
    match f.cpu.bind cpuOf with
    | none => x
    | some c =>
      if x.limbo c ∧ f.eventType ≠ .ctxsw then x
      else ⟨Function.update x.limbo c false, Function.update x.ahead c (x.ahead c + f.eventType.irqs)⟩
  | .idQueue _ _ | .idSynch _ _ | .short | .panics => x

def IrqsNested (x : IrqBalance) (l : Line) : Prop := ∀ c, 0 ≤ (x.line l).ahead c

instance (x : IrqBalance) (l : Line) : Decidable (IrqsNested x l) :=
  inferInstanceAs (Decidable (∀ c, 0 ≤ (x.line l).ahead c))

def Line.Regular : Line → Prop
  | .columns f => (f.cpu.bind cpuOf).isSome ∧ f.currentPid.isSome ∧ f.cyc.isSome ∧ f.pid1.isSome ∧ f.pid2.isSome ∧
      f.eventType ≠ .migrate
  | .eod | .idQueue _ _ | .idSynch _ _ => True
  | .short | .panics => False

instance : DecidablePred Line.Regular
  | .columns _ => inferInstanceAs (Decidable (_ ∧ _ ∧ _ ∧ _ ∧ _ ∧ _))
  | .eod => isTrue trivial
  | .idQueue _ _ => isTrue trivial
  | .idSynch _ _ => isTrue trivial
  | .short => isFalse id
  | .panics => isFalse id

/-- Every CPU that is analysed runs an LEU that is known, and those put aside are known and as
    many as the interrupts to be left. -/
structure Ready (x : IrqBalance) (s : State) : Prop where
  sound : Sound true s
  homed : Homed s
  calm : Calm s
  current : ∀ c, x.limbo c = false → (s.leus (s.currentLEU c)).isSome
  appended : ∀ c, x.limbo c = false → s.lastAppended.isSome
  aside : ∀ l ∈ s.interrupted, (s.leus l).isSome
  depth : x.ahead 0 + x.ahead 1 ≤ s.interrupted.length
  positive : ∀ c, 0 ≤ x.ahead c

section Events
variable {x : IrqBalance} {s t : State} {e : Entry}

theorem ready_initial : Ready .initial .initial := by
  refine ⟨sound_initial, homed_initial, ⟨by simp [State.initial], rfl⟩, by simp [IrqBalance.initial],
    by simp [IrqBalance.initial],
    by simp [State.initial], by decide, fun _ => Int.le_refl 0⟩

theorem aside_after (stays : e.eventType ≠ .migrate) (done : handleEvent s e = some t) :
    (e.eventType = .hirqentry ∧ t.interrupted = s.currentLEU e.cpu :: s.interrupted) ∨
    (e.eventType = .hirqexit ∧ ∃ l, s.interrupted = l :: t.interrupted) ∨
    (e.eventType ≠ .hirqentry ∧ t.interrupted = s.interrupted) := by
  have after : ∀ switched, Moves false e ⟨s, none, false⟩ ⟨t, none, switched⟩ → Runs e s ⟨t, none, switched⟩ :=
    fun switched moves => moves_keep (fun _ _ => runs_move) moves (runs_start e s)
  by_cases entry : e.eventType = .hirqentry
  · simp only [handleEvent, entry] at done
    obtain ⟨l, change, _⟩ := (after true (moves_hirq_entry entry done)).after rfl
    rcases change with ⟨type, _⟩ | ⟨_, _, aside⟩ | ⟨type, _⟩
    · simp [entry] at type
    · exact Or.inl ⟨entry, aside⟩
    · simp [entry] at type
  · obtain ⟨switched, moves⟩ : ∃ switched, Moves false e ⟨s, none, false⟩ ⟨t, none, switched⟩ :=
      handle_moves nofun stays done
    cases switched with
    | false => exact Or.inr (Or.inr ⟨entry, ((after _ moves).before rfl).2⟩)
    | true =>
      obtain ⟨l, change, _⟩ := (after _ moves).after rfl
      rcases change with ⟨_, _, aside⟩ | ⟨type, _⟩ | ⟨type, aside⟩
      · exact Or.inr (Or.inr ⟨entry, aside⟩)
      · exact absurd type entry
      · exact Or.inr (Or.inl ⟨type, l, aside⟩)

theorem current_ctxsw (s : State) (e : Entry) :
    ∃ t, handleCTXSW s e = some t ∧ (t.leus (t.currentLEU e.cpu)).isSome ∧ t.lastAppended.isSome := by
  refine ⟨_, rfl, ?_, rfl⟩
  have here : ((((s.alloc e).pushService e.cpu (s.next e.cpu)).setCurrentLEU e.cpu (.thread e.pid2)).pushService e.cpu
      (s.next e.cpu)).currentLEU e.cpu = .thread e.pid2 := by
    rw [push_service_leu]
    exact Function.update_self ..
  rw [ensure_leus, Bool.or_eq_true, decide_eq_true_eq]
  exact Or.inl here

theorem known_hirq_entry (type : e.eventType = .hirqentry) (done : handleHIRQEntry s e = some t) :
    (t.leus (t.currentLEU e.cpu)).isSome := by
  have moves : Moves true e ⟨s, none, false⟩ ⟨t, none, true⟩ := moves_hirq_entry type done
  have runs := moves_keep (fun _ _ => runs_move) moves (runs_start e s)
  obtain ⟨l, change, current⟩ := runs.after rfl
  have here : t.currentLEU e.cpu = .hardwareInterrupt e.pid1 := by
    rcases change with ⟨other, _⟩ | ⟨_, irq, _⟩ | ⟨other, _⟩
    · simp [type] at other
    · rw [current, irq]
      exact Function.update_self ..
    · simp [type] at other
  let u := ((((s.alloc e).pushService e.cpu (s.next e.cpu)).interrupt e.cpu e.pid1).ensureLEU (.hardwareInterrupt e.pid1))
  have later : Moves true e ⟨u, none, true⟩ ⟨t, none, true⟩ := moves_append_last (moves_new_service e _ .refl rfl) done
  rw [here]
  refine (continues_moves later).leus _ ?_
  simp [u, ensure_leus]

theorem current_after (sound : Sound true s) (homed : Homed s) (stays : e.eventType ≠ .migrate)
    (done : handleEvent s e = some t)
    (mapped : e.eventType ≠ .ctxsw → (s.leus (s.currentLEU e.cpu)).isSome)
    (aside : ∀ l ∈ s.interrupted, (s.leus l).isSome) : (t.leus (t.currentLEU e.cpu)).isSome := by
  by_cases switch : e.eventType = .ctxsw
  · obtain ⟨u, switched, known, _⟩ := current_ctxsw s e
    simp only [handleEvent, switch] at done
    obtain rfl := Option.some.inj (switched.symm.trans done)
    exact known
  by_cases entry : e.eventType = .hirqentry
  · simp only [handleEvent, entry] at done
    exact known_hirq_entry entry done
  obtain ⟨switched, moves⟩ := handle_moves (fun _ => ⟨sound, homed_restarts homed e⟩) stays done
  have runs := moves_keep (fun _ _ => runs_move) moves (runs_start e s)
  refine (continues_moves moves).leus _ ?_
  cases switched with
  | false =>
    rw [(runs.before rfl).1]
    exact mapped switch
  | true =>
    obtain ⟨l, change, current⟩ := runs.after rfl
    rcases change with ⟨type, _⟩ | ⟨type, _⟩ | ⟨_, left⟩
    · exact absurd type switch
    · exact absurd type entry
    · rw [show t.currentLEU e.cpu = l by rw [current]; exact Function.update_self ..]
      exact aside l (by simp [left])

theorem ready_event (ready : Ready x s) (stays : e.eventType ≠ .migrate)
    (awake : x.limbo e.cpu = false ∨ e.eventType = .ctxsw) (nested : 0 ≤ x.ahead e.cpu + e.eventType.irqs) :
    ∃ t, handleEvent s e = some t ∧ Ready ⟨Function.update x.limbo e.cpu false,
      Function.update x.ahead e.cpu (x.ahead e.cpu + e.eventType.irqs)⟩ t := by
  have running : e.eventType ≠ .ctxsw → x.limbo e.cpu = false := fun other => awake.resolve_right other
  have total : x.ahead 0 + x.ahead 1 = x.ahead e.cpu + x.ahead (1 - e.cpu) := by
    have cpus : e.cpu = 0 ∨ e.cpu = 1 := by omega
    rcases cpus with c | c <;> simp [c]
    omega
  have apart : (1 - e.cpu : Fin 2) ≠ e.cpu := by omega
  have positive := ready.positive (1 - e.cpu)
  have depth := ready.depth
  obtain ⟨t, done, calm⟩ := handle_total ready.sound ready.homed ready.calm stays
    (fun other => ready.current _ (running other)) (fun other => ready.appended _ (running other)) (fun exit empty => by
      rw [exit, EventType.irqs] at nested
      rw [empty, List.length_nil] at depth
      omega)
  have back := homed_restarts ready.homed e
  obtain ⟨switched, moves⟩ := handle_moves (fun _ => ⟨ready.sound, back⟩) stays done
  have continues := continues_moves moves
  have runs := moves_keep (fun _ _ => runs_move) moves (runs_start e s)
  have others : ∀ c, c ≠ e.cpu → t.currentLEU c = s.currentLEU c := by
    intro c other
    cases switched with
    | false => rw [(runs.before rfl).1]
    | true =>
      obtain ⟨l, _, current⟩ := runs.after rfl
      rw [current, Function.update_of_ne other]
  have aside := aside_after stays done
  refine ⟨t, done, sound_handle ready.sound (fun _ => back) done, homed_handle ready.sound ready.homed stays done, calm,
    fun c now => ?_, fun c now => ?_, ?_, ?_, fun c => ?_⟩
  · by_cases here : c = e.cpu
    · rw [here]
      exact current_after ready.sound ready.homed stays done (fun other => ready.current _ (running other)) ready.aside
    · rw [others c here]
      exact continues.leus _ (ready.current c (by simpa [here] using now))
  · by_cases switch : e.eventType = .ctxsw
    · obtain ⟨u, switched, _, last⟩ := current_ctxsw s e
      simp only [handleEvent, switch] at done
      obtain rfl := Option.some.inj (switched.symm.trans done)
      exact last
    · exact continues.appended (ready.appended e.cpu (running switch))
  · intro l member
    refine continues.leus l ?_
    rcases aside with ⟨entry, more⟩ | ⟨_, k, fewer⟩ | ⟨_, same⟩
    · rw [more] at member
      rcases List.mem_cons.mp member with rfl | before
      · exact ready.current e.cpu (running (by simp [entry]))
      · exact ready.aside l before
    · exact ready.aside l (by simp [fewer, member])
    · exact ready.aside l (same ▸ member)
  · have sum : Function.update x.ahead e.cpu (x.ahead e.cpu + e.eventType.irqs) 0 +
        Function.update x.ahead e.cpu (x.ahead e.cpu + e.eventType.irqs) 1 =
          x.ahead 0 + x.ahead 1 + e.eventType.irqs := by
      have cpus : e.cpu = 0 ∨ e.cpu = 1 := by omega
      rcases cpus with c | c <;> simp [c] <;> omega
    dsimp only
    rw [sum]
    rcases aside with ⟨entry, more⟩ | ⟨exit, k, fewer⟩ | ⟨entry, same⟩
    · rw [entry, more, List.length_cons, EventType.irqs]
      omega
    · rw [fewer, List.length_cons] at depth
      rw [exit, EventType.irqs]
      omega
    · have fewer : e.eventType.irqs ≤ 0 := by
        unfold EventType.irqs
        split
        · next type => exact absurd type entry
        · decide
        · decide
      rw [same]
      omega
  · dsimp only
    by_cases here : c = e.cpu
    · rw [here, Function.update_self]
      exact nested
    · rw [Function.update_of_ne here]
      exact ready.positive c

end Events

structure Keeps (x : IrqBalance) (r : Run) : Prop where
  going : r.returned = false
  limbo : ∀ c, x.limbo c = (r.traceState c).limbo
  ready : Ready x r.state

theorem ready_maps {x : IrqBalance} {s : State} (ready : Ready x s) (addr synch : String → Option Int) (longest : Int) :
    Ready x { s with addrMap := addr, addrMapSynch := synch, longestLocationString := longest } :=
  ⟨ready.sound.congr rfl (fun _ _ => rfl) fun _ _ => rfl, ready.homed.congr rfl fun _ _ => rfl,
    ⟨ready.calm.valid, ready.calm.scan⟩,
    ready.current, ready.appended, ready.aside, ready.depth, ready.positive⟩

theorem ready_eod {x : IrqBalance} {r : Run} (ready : Ready x r.state) : Ready .initial r.resetOnEOD.state := by
  have homed : Homed r.resetOnEOD.state :=
    ⟨ready.homed.arenas, fun c l elem member => by simp [State.stackOf, Run.resetOnEOD] at member⟩
  refine ⟨sound_eod ready.sound, homed, ⟨by simp [Run.resetOnEOD], rfl⟩, by simp [IrqBalance.initial],
    by simp [IrqBalance.initial], ready.aside, ?_, fun _ => Int.le_refl 0⟩
  exact Int.natCast_nonneg _

theorem keeps_columns {x : IrqBalance} {r : Run} {f : Columns} (keeps : Keeps x r) (regular : (Line.columns f).Regular)
    (nested : IrqsNested x (.columns f)) : ∃ t, r.columns f = some t ∧ Keeps (x.line (.columns f)) t := by
  obtain ⟨cpu, pid, cyc, pid1, pid2, stays⟩ := regular
  obtain ⟨c, known⟩ := Option.isSome_iff_exists.mp cpu
  have limbo := keeps.limbo c
  by_cases skipped : x.limbo c = true ∧ f.eventType ≠ .ctxsw
  · have same : x.line (.columns f) = x := by simp only [IrqBalance.line, known, if_pos skipped]
    rw [same]
    refine ⟨r, ?_, keeps⟩
    rw [limbo] at skipped
    simp [Run.columns, known, skipped]
  · obtain ⟨pid, hpid⟩ := Option.isSome_iff_exists.mp pid
    obtain ⟨cyc, hcyc⟩ := Option.isSome_iff_exists.mp cyc
    obtain ⟨pid1, hpid1⟩ := Option.isSome_iff_exists.mp pid1
    obtain ⟨pid2, hpid2⟩ := Option.isSome_iff_exists.mp pid2
    have after : x.line (.columns f) = ⟨Function.update x.limbo c false,
        Function.update x.ahead c (x.ahead c + f.eventType.irqs)⟩ := by
      simp only [IrqBalance.line, known, if_neg skipped]
    have balance := nested c
    rw [after] at balance ⊢
    dsimp only at balance
    rw [Function.update_self] at balance
    let e := f.entry c pid pid1 pid2 ((r.traceState c).advance cyc).cycles r.lineNumber
    obtain ⟨t, done, ready⟩ := ready_event (e := e) (ready_maps keeps.ready r.state.addrMap r.state.addrMapSynch
      (max r.state.longestLocationString e.location.utf8ByteSize)) stays (awake_of_read skipped) balance
    refine ⟨{ r with traceState := Function.update r.traceState c ((r.traceState c).advance cyc), state := t }, ?_,
      keeps.going, fun d => ?_, ready⟩
    · have done : handleEvent (r.state.measureLocation e.location) e = some t := done
      rw [limbo] at skipped
      simp only [Run.columns, known, bind, Option.bind_some, if_neg skipped, hpid, hcyc, hpid1, hpid2]
      exact congrArg (fun o : Option State => o.bind _) done
    · dsimp only
      by_cases here : d = c
      · rw [here, Function.update_self, Function.update_self]
        rfl
      · rw [Function.update_of_ne here, Function.update_of_ne here]
        exact keeps.limbo d

theorem keeps_line {x : IrqBalance} {r : Run} {l : Line} (keeps : Keeps x r) (regular : l.Regular)
    (nested : IrqsNested x l) : ∃ t, r.line l = some t ∧ Keeps (x.line l) t := by
  have going := keeps.going
  unfold Run.line
  rw [if_neg (by simp [going])]
  cases l with
  | short => exact regular.elim
  | panics => exact regular.elim
  | idQueue addr id => exact ⟨_, rfl, going, keeps.limbo, ready_maps keeps.ready ..⟩
  | idSynch addr id => exact ⟨_, rfl, going, keeps.limbo, ready_maps keeps.ready ..⟩
  | eod => exact ⟨_, rfl, going, fun _ => rfl, ready_eod keeps.ready⟩
  | columns f =>
    exact keeps_columns (r := { r with lineNumber := r.lineNumber + 1 }) ⟨going, keeps.limbo, keeps.ready⟩ regular nested

theorem keeps_run {ls : List Line} {x : IrqBalance} {r : Run} (keeps : Keeps x r) (regular : ∀ l ∈ ls, l.Regular)
    (nested : TransitionRuns.Guarded (fun x l => some (IrqBalance.line x l)) IrqsNested x ls) :
    ∃ t y, r.lines ls = some t ∧ Keeps y t := by
  induction ls generalizing x r with
  | nil => exact ⟨r, x, rfl, keeps⟩
  | cons l ls ih =>
    obtain ⟨here, later⟩ := nested
    obtain ⟨u, first, after⟩ := keeps_line keeps (regular l (List.mem_cons_self ..)) here
    obtain ⟨t, y, done, kept⟩ := ih after (fun l member => regular l (List.mem_cons_of_mem _ member)) (later _ rfl)
    refine ⟨t, y, ?_, kept⟩
    unfold Run.lines
    rw [List.foldlM_cons, first]
    exact done

def crossedLines : List String :=
  ["SRVEXIT 1 2 1 0 0 0 f a", "CTXSW 0 1 1 1 2 0 0 a", "HIRQENTRY 0 2 2 5 0 0 0 a", "LOOPRSTART 0 2 3 0 0 0 0 a",
   "CTXSW 0 2 4 2 3 0 0 a", "HIRQEXIT 0 3 5 5 0 0 0 a", "CTXSW 1 1 2 1 4 0 0 a", "PKTQUEUEN 1 4 3 0 0 5 0 a",
   "LOOPSTOP 1 4 4 0 0 0 0 a", "EOD", "CTXSW 0 3 6 3 2 0 0 a", "SRVEXIT 0 2 7 0 0 0 g a"]

end Analyse
