import SepExtract.HandlerMoves
import SepExtract.ServicePicture

/- The analyser's stacks against the words of a trace. On every well-formed trace of one CPU
   the stack of an LEU is the list of the brackets open in its word, and the instances stored
   for it are the brackets that were closed, with the events at their own level. -/
namespace Analyse
open Nesting

def Execution.picture (x : Execution) : Picture where
  current := x.current
  interrupted := x.interrupted
  stack l := (scan shown (x.word l)).stack
  done l n := completed (x.word l) n
  opened l := (x.word l).any opensService
  known l := l ∈ x.current :: x.interrupted ∧ l ≠ .nobody

section Words
variable {c : Fin 2} {x : Execution} {p q : Picture} {s : State}

theorem tracks_congr (tracks : Tracks c p s) (current : q.current = p.current)
    (interrupted : q.interrupted = p.interrupted) (stack : ∀ l, q.stack l = p.stack l)
    (done : ∀ l n, q.done l n = p.done l n) (opened : ∀ l, p.opened l = true → q.opened l = true)
    (known : ∀ l, q.known l → p.known l) : Tracks c q s where
  current := by rw [current]; exact tracks.current
  interrupted := by rw [interrupted]; exact tracks.interrupted
  frames l := by rw [stack]; exact tracks.frames l
  stored l n := by rw [done]; exact tracks.stored l n
  known l member := tracks.known l (known l member)
  last := by rw [current]; exact tracks.last
  keys c' l key := ⟨(tracks.keys c' l key).1, opened l (tracks.keys c' l key).2⟩

theorem word_add (x : Execution) (y : Sym Kind Entry) (l : LEU) :
    (x.add y).word l = if l = x.current then x.word l ++ [y] else x.word l := by
  unfold Execution.add
  by_cases here : l = x.current
  · subst here
    simp
  · simp [here]

theorem tracks_add {y : Sym Kind Entry} (tracks : Tracks c q s) (current : q.current = x.current)
    (interrupted : q.interrupted = x.interrupted)
    (stack : q.stack x.current = (scan shown (x.word x.current ++ [y])).stack)
    (done : ∀ n, q.done x.current n = completed (x.word x.current ++ [y]) n)
    (others : ∀ l, l ≠ x.current → q.stack l = (scan shown (x.word l)).stack ∧
      ∀ n, q.done l n = completed (x.word l) n)
    (opened : ∀ l, q.opened l = true → ((x.add y).word l).any opensService = true)
    (known : ∀ l ∈ x.current :: x.interrupted, l ≠ .nobody → q.known l) :
    Tracks c (x.add y).picture s := by
  refine tracks_congr tracks current.symm interrupted.symm ?_ ?_ opened fun l member =>
    known l member.1 member.2
  · intro l
    simp only [Execution.picture, word_add]
    split
    · rename_i here
      rw [here, stack]
    · rename_i other
      exact (others l other).1.symm
  · intro l n
    simp only [Execution.picture, word_add]
    split
    · rename_i here
      rw [here, done]
    · rename_i other
      exact ((others l other).2 n).symm

theorem any_add {y : Sym Kind Entry} (l : LEU) (before : (x.word l).any opensService = true) :
    ((x.add y).word l).any opensService = true := by
  rw [word_add]
  split
  · simp [before]
  · exact before

theorem tracks_add_known {a : Entry} {known : LEU → Prop}
    (tracks : Tracks c { x.picture.setStack (note [a] (x.picture.stack x.current)) with known := known } s)
    (knows : ∀ l ∈ x.current :: x.interrupted, l ≠ .nobody → known l) :
    Tracks c (x.add (.plain a)).picture s := by
  refine tracks_add tracks rfl rfl ?_ ?_ ?_ (fun l => any_add l) knows
  · rw [scan_snoc]
    exact set_stack_stack x.picture _
  · intro n
    simp [Picture.setStack, Execution.picture, completed, scan_snoc, Scan.step]
  · intro l other
    refine ⟨?_, fun n => rfl⟩
    exact Function.update_of_ne other _ _

theorem tracks_add_plain {a : Entry}
    (tracks : Tracks c (x.picture.setStack (note [a] (x.picture.stack x.current))) s) :
    Tracks c (x.add (.plain a)).picture s :=
  tracks_add_known tracks fun _ member awake => ⟨member, awake⟩

theorem tracks_add_opens {k : Kind} {a : Entry}
    (tracks : Tracks c ((if k = .loop then x.picture else x.picture.mark).setStack
      (⟨k, a, []⟩ :: note ([a].filter shown) (x.picture.stack x.current))) s) :
    Tracks c (x.add (.opens k a)).picture s := by
  have same : (if k = .loop then x.picture else x.picture.mark).current = x.current := by split <;> rfl
  have stack : (if k = .loop then x.picture else x.picture.mark).stack = x.picture.stack := by split <;> rfl
  have done : (if k = .loop then x.picture else x.picture.mark).done = x.picture.done := by split <;> rfl
  refine tracks_add tracks same (by split <;> rfl) ?_ ?_ ?_ ?_ ?_
  · rw [scan_snoc]
    simp only [Picture.setStack, same, Function.update_self, Scan.step]
    rfl
  · intro n
    simp only [Picture.setStack, done]
    simp [Execution.picture, completed, scan_snoc, Scan.step]
  · intro l other
    simp only [Picture.setStack, same, stack, done, Function.update_of_ne other]
    exact ⟨rfl, fun n => rfl⟩
  · intro l
    by_cases loop : k = .loop
    · simp only [loop, if_true]
      exact any_add l
    · simp only [loop, if_false, Picture.setStack, Picture.mark]
      by_cases here : l = x.current
      · subst here
        intro _
        rw [word_add, if_pos rfl]
        cases k with
        | loop => exact absurd rfl loop
        | service => simp [opensService]
        | irq => simp [opensService]
      · have apart : l ≠ x.picture.current := here
        rw [Function.update_of_ne apart]
        exact any_add l
  · intro l member awake
    split <;> exact ⟨member, awake⟩

theorem top_kind {w : List (Sym Kind Entry)} {k : Kind} {b : Entry} {f : Frame Kind Entry}
    {st : List (Frame Kind Entry)} (piece : Piece (w ++ [.closes k b])) (top : (scan shown w).stack = f :: st) :
    f.kind = k := by
  have pending := scan_pending shown w (piece_init piece)
  rw [top] at pending
  cases pending with
  | @frame w u st k' a outer inside =>
    exact (kinds_match inside (r := []) (by simpa using piece)).symm

theorem completed_closes {w : List (Sym Kind Entry)} {k : Kind} {b : Entry} {f : Frame Kind Entry}
    {st : List (Frame Kind Entry)} (top : (scan shown w).stack = f :: st) (n : String) :
    completed (w ++ [.closes k b]) n = completed w n ++
      if f.kind ≠ .loop ∧ bracketName f.kind f.opening = n then [f.opening :: (f.items ++ [b])] else [] := by
  unfold completed
  rw [scan_snoc, Scan.step, top]
  simp only [List.filter_append, List.map_append]
  congr 1
  by_cases named : f.kind ≠ .loop ∧ bracketName f.kind f.opening = n
  · simp [isService, named, bracketEntries]
  · simp [isService, named]

theorem tracks_add_closes {k : Kind} {a : Entry} {f : Frame Kind Entry} {st : List (Frame Kind Entry)}
    (top : x.picture.stack x.current = f :: st) (service : f.kind ≠ .loop)
    (tracks : Tracks c ((x.picture.finish (bracketName f.kind f.opening)
      (f.opening :: (f.items ++ [a]))).setStack (note [a] st)) s) :
    Tracks c (x.add (.closes k a)).picture s := by
  have brackets : (scan shown (x.word x.current)).stack = f :: st := top
  refine tracks_add tracks rfl rfl ?_ ?_ ?_ (fun l => any_add l) fun l member awake => ⟨member, awake⟩
  · rw [scan_snoc, Scan.step, brackets]
    exact set_stack_stack _ _
  · intro n
    rw [completed_closes brackets]
    by_cases named : bracketName f.kind f.opening = n
    · simp [Picture.setStack, Picture.finish, Execution.picture, named, service]
    · simp [Picture.setStack, Picture.finish, Execution.picture, named, Ne.symm named]
  · intro l other
    simp [Picture.setStack, Picture.finish, Execution.picture, other]

theorem tracks_add_closes_loop {k : Kind} {a : Entry}
    (top : ∀ f st, x.picture.stack x.current = f :: st → f.kind = .loop)
    (tracks : Tracks c (x.picture.setStack (note [a] (x.picture.stack x.current).tail)) s) :
    Tracks c (x.add (.closes k a)).picture s := by
  refine tracks_add tracks rfl rfl ?_ ?_ ?_ (fun l => any_add l) fun l member awake => ⟨member, awake⟩
  · refine (set_stack_stack x.picture _).trans ?_
    rw [scan_snoc, Scan.step]
    cases brackets : (scan shown (x.word x.current)).stack with
    | nil => simp [Execution.picture, brackets, note]
    | cons f st => simp [Execution.picture, brackets]
  · intro n
    simp only [Picture.setStack, Execution.picture]
    cases brackets : (scan shown (x.word x.current)).stack with
    | nil => simp [completed, scan_snoc, Scan.step, brackets]
    | cons f st => simp [completed_closes brackets, top f st brackets]
  · intro l other
    simp [Picture.setStack, Execution.picture, other]

end Words

structure Context (x : Execution) : Prop where
  nodup : (x.current :: x.interrupted).Nodup
  irqs : ∀ l ∈ (x.current :: x.interrupted).dropLast, ∃ f ∈ (scan shown (x.word l)).stack, f.kind = .irq

theorem irq_noted (items : List Entry) {st : List (Frame Kind Entry)} (inside : ∃ f ∈ st, f.kind = .irq) :
    ∃ f ∈ note items st, f.kind = .irq := by
  obtain ⟨f, member, kind⟩ := inside
  cases st with
  | nil => cases member
  | cons g st =>
    rcases List.mem_cons.mp member with rfl | member
    · exact ⟨_, List.mem_cons_self .., kind⟩
    · exact ⟨f, List.mem_cons_of_mem _ member, kind⟩

theorem irq_kept {w : List (Sym Kind Entry)} {y : Sym Kind Entry} (piece : Piece (w ++ [y]))
    (other : ∀ b, y ≠ .closes .irq b) (inside : ∃ f ∈ (scan shown w).stack, f.kind = .irq) :
    ∃ f ∈ (scan shown (w ++ [y])).stack, f.kind = .irq := by
  rw [scan_snoc]
  cases y with
  | plain a => exact irq_noted _ inside
  | opens k a =>
    obtain ⟨f, member, kind⟩ := irq_noted ([a].filter shown) inside
    exact ⟨f, List.mem_cons_of_mem _ member, kind⟩
  | closes k b =>
    obtain ⟨f, member, kind⟩ := inside
    simp only [Scan.step]
    cases top : (scan shown w).stack with
    | nil => simp [top] at member
    | cons g st =>
      rw [top] at member
      rcases List.mem_cons.mp member with rfl | member
      · have same := top_kind piece top
        rw [kind] at same
        exact absurd (same ▸ rfl) (other b)
      · exact irq_noted _ ⟨f, member, kind⟩

theorem irq_plain {w : List (Sym Kind Entry)} {a : Entry}
    (inside : ∃ f ∈ (scan shown w).stack, f.kind = .irq) :
    ∃ f ∈ (scan shown (w ++ [.plain a])).stack, f.kind = .irq := by
  rw [scan_snoc]
  exact irq_noted _ inside

theorem irq_add_plain {x : Execution} {a : Entry} {l : LEU}
    (inside : ∃ f ∈ (scan shown (x.word l)).stack, f.kind = .irq) :
    ∃ f ∈ (scan shown ((x.add (.plain a)).word l)).stack, f.kind = .irq := by
  rw [word_add]
  split
  · exact irq_plain inside
  · exact inside

theorem context_add {x : Execution} {y : Sym Kind Entry} (context : Context x)
    (piece : Piece ((x.add y).word x.current)) (other : ∀ b, y ≠ .closes .irq b) : Context (x.add y) where
  nodup := context.nodup
  irqs l member := by
    have before := context.irqs l member
    rw [word_add] at piece ⊢
    rw [if_pos rfl] at piece
    split
    · rename_i here
      rw [here] at before ⊢
      exact irq_kept piece other before
    · exact before

theorem step_ctxsw (x : Execution) {e : Entry} (type : e.eventType = .ctxsw) :
    x.step e = { x.add (.plain e.noted) with current := .thread e.pid2 }.add (.plain e.noted) := by
  simp [Execution.step, Entry.symbol, type]

theorem step_hirqentry (x : Execution) {e : Entry} (type : e.eventType = .hirqentry) :
    x.step e = { x.add (.plain e.noted) with
      current := .hardwareInterrupt e.pid1
      interrupted := x.current :: x.interrupted }.add (.opens .irq e.noted) := by
  simp [Execution.step, Entry.symbol, type]

theorem step_hirqexit {x : Execution} {e : Entry} {leu : LEU} {rest : List LEU} (type : e.eventType = .hirqexit)
    (aside : x.interrupted = leu :: rest) :
    x.step e = { x.add (.closes .irq e.noted) with current := leu, interrupted := rest }.add (.plain e.noted) := by
  simp [Execution.step, Entry.symbol, type, aside]

theorem step_symbol (x : Execution) {e : Entry} {y : Sym Kind Entry} (symbol : e.symbol = some y)
    (switch : e.eventType ≠ .ctxsw) (entry : e.eventType ≠ .hirqentry) (leave : e.eventType ≠ .hirqexit) :
    x.step e = x.add y := by
  unfold Execution.step
  rw [symbol]
  dsimp only
  split
  · exact absurd ‹_› switch
  · exact absurd ‹_› entry
  · exact absurd ‹_› leave
  · rfl

theorem step_nothing (x : Execution) {e : Entry} (symbol : e.symbol = none) : x.step e = x := by
  simp [Execution.step, symbol]

theorem context_ctxsw {x : Execution} {e : Entry} (type : e.eventType = .ctxsw) (outside : Switches x e) :
    Context (x.step e) := by
  simp only [Switches, type] at outside
  rw [step_ctxsw x type]
  constructor
  · simp [Execution.add, outside.1]
  · simp [Execution.add, outside.1]

theorem context_hirqentry {x : Execution} {e : Entry} (context : Context x) (type : e.eventType = .hirqentry)
    (other : Switches x e) : Context (x.step e) := by
  simp only [Switches, type] at other
  rw [step_hirqentry x type]
  constructor
  · exact List.nodup_cons.mpr ⟨other, context.nodup⟩
  · intro l member
    rw [word_add]
    split
    · rw [scan_snoc]
      exact ⟨_, List.mem_cons_self .., rfl⟩
    · rename_i other
      refine irq_add_plain (context.irqs l ?_)
      exact (List.mem_cons.mp member).resolve_left other

theorem context_hirqexit {x : Execution} {e : Entry} {leu : LEU} {rest : List LEU} (context : Context x)
    (type : e.eventType = .hirqexit) (aside : x.interrupted = leu :: rest) : Context (x.step e) := by
  obtain ⟨nodup, irqs⟩ := context
  rw [aside] at nodup irqs
  rw [step_hirqexit type aside]
  constructor
  · exact (List.nodup_cons.mp nodup).2
  · intro l member
    refine irq_add_plain ?_
    have apart : l ≠ x.current := by
      rintro rfl
      exact (List.nodup_cons.mp nodup).1 ((List.dropLast_sublist _).subset member)
    have same : (x.add (.closes .irq e.noted)).word l = x.word l := by rw [word_add, if_neg apart]
    have before := irqs l (List.mem_cons_of_mem _ member)
    rw [← same] at before
    exact before

section Handlers
variable {c : Fin 2} {x : Execution} {s : State} {e : Entry}

theorem handle_push (e' : Entry) (tracks : Tracks c x.picture s) (sound : Sound true s) (quiet : Quiet s)
    (cpu : e'.cpu = c) (seen : e'.unlabelled = e.noted) (step : x.step e = x.add (.plain e.noted)) :
    Tracks c (x.step e).picture ((s.alloc e').pushService e'.cpu (s.next e'.cpu)) ∧
      Quiet ((s.alloc e').pushService e'.cpu (s.next e'.cpu)) := by
  rw [step]
  exact ⟨tracks_add_plain (tracks_push_new tracks sound cpu seen), quiet_extend quiet (extends_push_new s e')⟩

theorem last_pushed {r : Ref} {top : ServiceStackElement} {rest : List ServiceStackElement}
    (full : (s.pushService c r).currentStack c = top :: rest) : top.entries.getLast? = some r := by
  rw [State.currentStack, push_service_leu, stack_of_push_service, if_pos ⟨rfl, rfl⟩] at full
  cases stack : s.stackOf c (s.currentLEU c) with
  | nil => simp [stack, appendTop] at full
  | cons top' rest' =>
    rw [stack, appendTop] at full
    rw [← (List.cons.inj full).1]
    simp

theorem handle_push_peu (e' : Entry) (tracks : Tracks c x.picture s) (sound : Sound true s) (quiet : Quiet s)
    (cpu : e'.cpu = c) (seen : e'.unlabelled = e.noted) (type : ¬ e.noted.eventType.InLoop)
    (step : x.step e = x.add (.plain e.noted)) :
    ∃ t, s.pushWithPEU e' = some t ∧ Tracks c (x.step e).picture t ∧ Quiet t := by
  obtain ⟨tracked, quiet'⟩ := handle_push e' tracks sound quiet cpu seen step
  have heap := push_service_heap (s.alloc e') e'.cpu (s.next e'.cpu)
  obtain ⟨t, appended, relabels, quiet''⟩ := append_last_to_peu quiet' (c := e'.cpu) fun top rest full =>
    ⟨s.next e'.cpu, last_pushed full, by simpa [State.Valid, heap] using valid_next s e', by
      rw [view_of_heap heap, view_alloc_next, seen]
      exact type⟩
  exact ⟨t, appended, tracks_relabel tracked relabels, quiet''⟩

theorem view_pushed {s : State} {e' : Entry} (seen : e'.unlabelled = e.noted) :
    ((s.alloc e').pushService e'.cpu (s.next e'.cpu)).view (s.next e'.cpu) = e.noted := by
  rw [view_of_heap (push_service_heap (s.alloc e') e'.cpu (s.next e'.cpu)), view_alloc_next, seen]

theorem handle_ctxsw (tracks : Tracks c x.picture s) (sound : Sound true s) (quiet : Quiet s) (cpu : e.cpu = c)
    (type : e.eventType = .ctxsw) (orderly : Orderly x e) :
    ∃ t, handleCTXSW s e = some t ∧ Tracks c (x.step e).picture t ∧ Quiet t := by
  subst cpu
  have outside := orderly.switches
  simp only [Switches, type] at outside
  have seen : e.unlabelled = e.noted := by simp [Entry.noted, Entry.rewritten, type]
  have left := tracks_add_plain (tracks_push_new tracks sound rfl seen)
  have switched := tracks_switch left (.thread e.pid2) x.interrupted
    (t := ((s.alloc e).pushService e.cpu (s.next e.cpu)).setCurrentLEU e.cpu (.thread e.pid2)) rfl
    left.interrupted rfl rfl rfl rfl
  have entered := tracks_push switched (r := s.next e.cpu) (view_pushed seen)
  refine ⟨_, rfl, ?_, quiet_extend quiet ((extends_push_new s e).trans ?_)⟩
  · rw [step_ctxsw x type]
    refine tracks_add_known (x := { x.add (.plain e.noted) with current := .thread e.pid2 })
      (tracks_ensure entered (.thread e.pid2)) fun l member _ => Or.inl ?_
    simpa [Execution.add, outside.1] using member
  · exact extends_of_heap (push_service_heap _ e.cpu (s.next e.cpu)) (push_service_peu _ e.cpu (s.next e.cpu))

theorem tracks_enter {x' : Execution} {known : LEU → Prop}
    (tracks : Tracks c { x.picture with current := x'.current, interrupted := x'.interrupted, known := known } s)
    (word : x'.word = x.word) (knows : ∀ l ∈ x'.current :: x'.interrupted, l ≠ .nobody → known l) :
    Tracks c x'.picture s := by
  refine tracks_congr tracks rfl rfl ?_ ?_ ?_ fun l member => knows l member.1 member.2
  · intro l
    simp only [Execution.picture, word]
  · intro l n
    simp only [Execution.picture, word]
  · intro l
    simp only [Execution.picture, word]
    exact id

theorem new_service_top (s : State) (e : Entry) (name : String) :
    ∃ r rest, (s.pushNewService e name).currentStack e.cpu = ⟨name, [r], []⟩ :: rest ∧
      (s.pushNewService e name).Valid r ∧ (s.pushNewService e name).view r = e.unlabelled := by
  unfold State.pushNewService
  dsimp only
  generalize (if ((s.touch e.cpu).currentStack e.cpu).isEmpty = true then s.touch e.cpu
    else (s.touch e.cpu).registerCall e) = u
  refine ⟨u.next e.cpu, u.stackOf e.cpu (u.currentLEU e.cpu), ?_, ?_, ?_⟩
  · rw [State.currentStack, open_service_leu, stack_of_open_service _ _ _ _ e name rfl, if_pos ⟨rfl, rfl⟩]
  · simpa [State.Valid, open_service_heap] using valid_next u e
  · rw [view_of_heap (open_service_heap u e.cpu e name), view_alloc_next]

theorem handle_hirqentry (tracks : Tracks c x.picture s) (sound : Sound true s) (quiet : Quiet s) (cpu : e.cpu = c)
    (type : e.eventType = .hirqentry) :
    ∃ t, handleHIRQEntry s e = some t ∧ Tracks c (x.step e).picture t ∧ Quiet t := by
  subst cpu
  have seen : e.unlabelled = e.noted := by simp [Entry.noted, Entry.rewritten, type]
  have noted : e.noted.eventType = .hirqentry := by rw [← seen]; simp [Entry.unlabelled, type, EventType.unlabelled]
  let s₁ := (s.alloc e).pushService e.cpu (s.next e.cpu)
  let s₂ := (s₁.interrupt e.cpu e.pid1).ensureLEU (.hardwareInterrupt e.pid1)
  let x₂ : Execution := { x.add (.plain e.noted) with
    current := .hardwareInterrupt e.pid1
    interrupted := x.current :: x.interrupted }
  have left : Tracks e.cpu (x.add (.plain e.noted)).picture s₁ :=
    tracks_add_plain (tracks_push_new tracks sound rfl seen)
  have current : s₁.currentLEU e.cpu = x.current := left.current
  have aside : s₁.interrupted = x.interrupted := left.interrupted
  have switched := tracks_switch left (.hardwareInterrupt e.pid1) (x.current :: x.interrupted)
    (t := s₁.interrupt e.cpu e.pid1) rfl (by simp [State.interrupt, current, aside]) rfl rfl rfl rfl
  have entered : Tracks e.cpu x₂.picture s₂ := by
    refine tracks_enter (tracks_ensure switched (.hardwareInterrupt e.pid1)) rfl fun l member awake => ?_
    rcases List.mem_cons.mp member with here | member
    · exact Or.inl here
    · exact Or.inr ⟨member, awake⟩
  have sound₂ : Sound true s₂ := sound_ensure (sound_interrupt (sound_push_new sound e) e.cpu e.pid1) _
  have opened := tracks_opens (k := .irq) (irqService e.pid1) (tracks_mark entered) sound₂ rfl
    (by simp [Picture.mark]) seen (by rw [← seen]; rfl) (by simp [noted, EventType.InLoop])
  have quiet₂ : Quiet (s₂.pushNewService e (irqService e.pid1)) := by
    refine quiet_extend quiet ((extends_push_new s e).trans (Extends.trans ?_ (extends_new_service s₂ e _)))
    exact extends_of_heap rfl rfl
  obtain ⟨r, rest, full, valid, view⟩ := new_service_top s₂ e (irqService e.pid1)
  obtain ⟨t, appended, relabels, quiet₃⟩ := append_last_to_peu quiet₂ (c := e.cpu) fun top rest' full' => by
    rw [full] at full'
    obtain ⟨rfl, _⟩ := List.cons.inj full'
    exact ⟨r, rfl, valid, by rw [view, seen, noted]; simp [EventType.InLoop]⟩
  refine ⟨t, appended, ?_, quiet₃⟩
  rw [step_hirqentry x type]
  exact tracks_add_opens (x := x₂) (tracks_relabel opened relabels)

theorem irq_innermost {leu : LEU} {rest : List LEU} (context : Context x) (aside : x.interrupted = leu :: rest)
    (type : e.eventType = .hirqexit) (whole : Piece ((x.step e).word x.current)) :
    ∃ f st, x.picture.stack x.current = f :: st ∧ f.kind = .irq := by
  obtain ⟨g, member, _⟩ := context.irqs x.current (by rw [aside]; simp)
  have apart : x.current ≠ leu := by
    rintro rfl
    have nodup := context.nodup
    rw [aside] at nodup
    simp at nodup
  have piece : Piece (x.word x.current ++ [.closes .irq e.noted]) := by
    rw [step_hirqexit type aside, word_add, if_neg apart] at whole
    have same : (x.add (.closes .irq e.noted)).word x.current = _ := word_add x _ _
    rw [if_pos rfl] at same
    exact same ▸ whole
  cases top : (scan shown (x.word x.current)).stack with
  | nil => simp [top] at member
  | cons f st => exact ⟨f, st, top, top_kind piece top⟩

theorem handle_hirqexit (tracks : Tracks c x.picture s) (sound : Sound true s) (quiet : Quiet s)
    (context : Context x) (cpu : e.cpu = c) (type : e.eventType = .hirqexit) (orderly : Orderly x e)
    (pieces : ∀ l, Piece ((x.step e).word l)) :
    ∃ t, handleHIRQExit s e = some t ∧ Tracks c (x.step e).picture t ∧ Quiet t := by
  subst cpu
  have inside := orderly.switches
  simp only [Switches, type] at inside
  obtain ⟨leu, rest, aside⟩ := List.exists_cons_of_ne_nil inside
  have seen : e.unlabelled = e.noted := by simp [Entry.noted, Entry.rewritten, type]
  have noted : e.noted.eventType = .hirqexit := by rw [← seen]; simp [Entry.unlabelled, type, EventType.unlabelled]
  obtain ⟨f, st, innermost, kind⟩ := irq_innermost context aside type (pieces x.current)
  have service : f.kind ≠ .loop := by rw [kind]; decide
  obtain ⟨s₁, exited, heap, peu, last, closed⟩ := tracks_closes (tracks_alloc tracks sound e)
    ((view_alloc_next s e).trans seen) innermost service
  have left := tracks_add_closes (k := .irq) innermost service closed
  have aside₁ : s₁.interrupted = leu :: rest := left.interrupted.trans aside
  let x₂ : Execution := { x.add (.closes .irq e.noted) with current := leu, interrupted := rest }
  have resumed : Tracks e.cpu x₂.picture (s₁.resume e.cpu leu rest) := by
    have appended : (s₁.resume e.cpu leu rest).lastAppended.isSome := by
      rw [show (s₁.resume e.cpu leu rest).lastAppended = s₁.lastAppended from rfl, last]
      rfl
    refine tracks_enter (tracks_switch left leu rest rfl rfl rfl rfl rfl appended) rfl
      fun l member awake => ⟨?_, awake⟩
    have inside := List.mem_cons_of_mem x.current member
    rwa [← aside] at inside
  have view : (s₁.resume e.cpu leu rest).view (s.next e.cpu) = e.noted := by
    rw [view_of_heap (show (s₁.resume e.cpu leu rest).heap = (s.alloc e).heap from heap), view_alloc_next, seen]
  have heap₂ := push_service_heap (s₁.resume e.cpu leu rest) e.cpu (s.next e.cpu)
  have quiet₂ : Quiet ((s₁.resume e.cpu leu rest).pushService e.cpu (s.next e.cpu)) := by
    refine quiet_extend quiet ((extends_alloc s e).trans (extends_of_heap (heap₂.trans heap) ?_))
    exact (push_service_peu (s₁.resume e.cpu leu rest) e.cpu (s.next e.cpu)).trans peu
  obtain ⟨t, appended, relabels, quiet₃⟩ := append_last_to_peu quiet₂ (c := e.cpu) fun top below full =>
    ⟨s.next e.cpu, last_pushed full, by rw [State.Valid, heap₂.trans heap]; exact valid_next s e, by
      rw [view_of_heap heap₂, view, noted]
      simp [EventType.InLoop]⟩
  refine ⟨t, ?_, ?_, quiet₃⟩
  · simp only [handleHIRQExit, exited, bind, Option.bind_some, if_true, aside₁]
    exact appended
  · rw [step_hirqexit type aside]
    exact tracks_relabel (tracks_add_plain (x := x₂) (tracks_push resumed view)) relabels

theorem looping_of_orderly (type : e.eventType = .looprstart) (orderly : Orderly x e) :
    ∀ f st, x.picture.stack x.picture.current = f :: st → f.kind = .loop := by
  intro f st top
  have brackets : (scan shown (x.word x.current)).stack = f :: st := top
  exact orderly.restarts type f.kind (by simp [innermost, brackets])

theorem looping_of_piece {b : Entry} (piece : Piece (x.word x.current ++ [.closes .loop b])) :
    ∀ f st, x.picture.stack x.picture.current = f :: st → f.kind = .loop :=
  fun _ _ top => top_kind piece top

theorem handle_looprstart (tracks : Tracks c x.picture s) (sound : Sound true s) (quiet : Quiet s) (cpu : e.cpu = c)
    (type : e.eventType = .looprstart) (back : RestartsHome s e) (orderly : Orderly x e)
    (awake : x.current ≠ .nobody) : ∃ t, handleLOOPRSTART s e = some t ∧ Tracks c (x.step e).picture t ∧ Quiet t := by
  have seen : e.unlabelled = e.noted := by simp [Entry.noted, Entry.rewritten, type]
  obtain ⟨t, done, extended, tracked⟩ := tracks_looprstart tracks sound cpu type back
    (looping_of_orderly type orderly) ⟨List.mem_cons_self .., awake⟩
  refine ⟨t, done, ?_, quiet_extend quiet extended⟩
  rw [step_symbol x (y := .plain e.noted) (by simp [Entry.symbol, type]) (by simp [type]) (by simp [type])
    (by simp [type])]
  rw [seen] at tracked
  exact tracks_add_plain tracked

theorem handle_loopstart (tracks : Tracks c x.picture s) (sound : Sound true s) (quiet : Quiet s) (cpu : e.cpu = c)
    (type : e.eventType = .loopstart) :
    ∃ t, handleLOOPSTART s e = some t ∧ Tracks c (x.step e).picture t ∧ Quiet t := by
  have seen : e.unlabelled = e.noted := by simp [Entry.noted, Entry.rewritten, type]
  obtain ⟨t, done, extended, tracked⟩ := tracks_loopstart tracks sound cpu type
  refine ⟨t, done, ?_, quiet_extend quiet extended⟩
  rw [step_symbol x (y := .opens .loop e.noted) (by simp [Entry.symbol, type]) (by simp [type]) (by simp [type])
    (by simp [type])]
  rw [seen] at tracked
  exact tracks_add_opens tracked

theorem handle_loopstop (tracks : Tracks c x.picture s) (sound : Sound true s) (quiet : Quiet s) (cpu : e.cpu = c)
    (type : e.eventType = .loopstop) (pieces : ∀ l, Piece ((x.step e).word l)) (awake : x.current ≠ .nobody) :
    ∃ t, handleLOOPSTOP s e = some t ∧ Tracks c (x.step e).picture t ∧ Quiet t := by
  have seen : e.unlabelled = e.noted := by simp [Entry.noted, Entry.rewritten, type]
  have step := step_symbol x (e := e) (y := .closes .loop e.noted) (by simp [Entry.symbol, type])
    (by simp [type]) (by simp [type]) (by simp [type])
  have piece := pieces x.current
  rw [step, word_add, if_pos rfl] at piece
  obtain ⟨t, done, extended, tracked⟩ := tracks_loopstop tracks sound cpu (looping_of_piece piece)
    ⟨List.mem_cons_self .., awake⟩
  refine ⟨t, done, ?_, quiet_extend quiet extended⟩
  rw [seen] at tracked
  rw [step]
  exact tracks_add_closes_loop (looping_of_piece piece) tracked

theorem handle_service (e' : Entry) (tracks : Tracks c x.picture s) (sound : Sound true s) (quiet : Quiet s)
    (cpu : e'.cpu = c) (seen : e'.unlabelled = e.noted) (type : ¬ e.noted.eventType.InLoop)
    (step : x.step e = x.add (.opens .service e.noted)) :
    Tracks c (x.step e).picture (s.pushNewService e' e'.service) ∧
      Quiet (s.pushNewService e' e'.service) := by
  refine ⟨?_, quiet_extend quiet (extends_new_service s e' e'.service)⟩
  rw [step]
  exact tracks_add_opens (tracks_opens (k := .service) e'.service (tracks_mark tracks) sound cpu
    (by simp [Picture.mark]) seen (by rw [← seen]; rfl) (by simp [type]))

theorem tracks_unopened {p : Picture} (tracks : Tracks c p s) (none : p.stack p.current = []) :
    s.currentStack c = [] := by
  obtain ⟨fs, below, split, _, frames⟩ := tracks.frames p.current
  rw [none] at split
  obtain ⟨rfl, _⟩ := List.append_eq_nil_iff.mp split.symm
  rw [State.currentStack, tracks.current]
  exact List.forall₂_nil_right_iff.mp frames

theorem handle_srvexit (tracks : Tracks c x.picture s) (sound : Sound true s) (quiet : Quiet s) (cpu : e.cpu = c)
    (type : e.eventType = .srvexit) (pieces : ∀ l, Piece ((x.step e).word l)) :
    ∃ t, (handleSRVEXIT (s.alloc e) e.cpu (s.next e.cpu)).map Prod.fst = some t ∧
      Tracks c (x.step e).picture t ∧ Quiet t := by
  subst cpu
  have seen : e.unlabelled = e.noted := by simp [Entry.noted, Entry.rewritten, type]
  have step := step_symbol x (e := e) (y := .closes .service e.noted) (by simp [Entry.symbol, type])
    (by simp [type]) (by simp [type]) (by simp [type])
  have piece := pieces x.current
  rw [step, word_add, if_pos rfl] at piece
  rw [step]
  have stored := tracks_alloc tracks sound e
  have view := (view_alloc_next s e).trans seen
  cases top : x.picture.stack x.current with
  | nil =>
    have empty := tracks_unopened stored top
    refine ⟨(s.alloc e).pushService e.cpu (s.next e.cpu), ?_, ?_, quiet_extend quiet (extends_push_new s e)⟩
    · simp [handleSRVEXIT, empty]
    · have pushed := tracks_push stored view
      refine tracks_add_closes_loop (fun f st other => ?_) ?_
      · rw [top] at other
        cases other
      · have same : x.picture.stack x.picture.current = [] := top
        rw [same] at pushed
        rw [top]
        exact pushed
  | cons f st =>
    have service : f.kind ≠ .loop := by
      rw [top_kind piece top]
      decide
    obtain ⟨t, exited, heap, peu, _, closed⟩ := tracks_closes stored view top service
    exact ⟨t, by rw [exited]; rfl, tracks_add_closes top service closed,
      quiet_extend quiet ((extends_alloc s e).trans (extends_of_heap heap peu))⟩

theorem relabels_trivial (s t : State) (currentLEU : t.currentLEU = s.currentLEU)
    (stack : t.serviceStack = s.serviceStack) (interrupted : t.interrupted = s.interrupted)
    (leus : t.leus = s.leus) (last : t.lastAppended = s.lastAppended) (heap : t.heap = s.heap) :
    Relabels s t where
  currentLEU := currentLEU
  serviceStack := stack
  interrupted := interrupted
  leus := leus
  lastAppended := last
  view r := by rw [view_of_heap heap]
  valid r := by simp [State.Valid, heap]

theorem handle_sync {operation : Sync} (tracks : Tracks c x.picture s) (sound : Sound true s) (quiet : Quiet s)
    (cpu : e.cpu = c) (type : e.eventType = .sync operation false) :
    ∃ t, handleSync s e operation = some t ∧ Tracks c (x.step e).picture t ∧ Quiet t := by
  subst cpu
  have step := step_symbol x (e := e) (y := .plain e.noted) (by simp [Entry.symbol, type])
    (by simp [type]) (by simp [type]) (by simp [type])
  have kind : ¬ e.noted.eventType.InLoop := by
    simp [Entry.noted, Entry.rewritten, Entry.unlabelled, type, EventType.unlabelled, EventType.InLoop]
  unfold handleSync
  split
  · exact handle_push_peu e tracks sound quiet rfl (by simp [Entry.noted, Entry.rewritten, type]) kind step
  · rename_i v _
    have touched := tracks_touch tracks e.cpu
    have noted : Relabels (s.touch e.cpu) ((s.touch e.cpu).noteUser e.cpu v operation) ∧
        ((s.touch e.cpu).noteUser e.cpu v operation).currentPEU = s.currentPEU ∧
        Sound true ((s.touch e.cpu).noteUser e.cpu v operation) := by
      have sound' := sound_touch sound e.cpu
      unfold State.noteUser
      split
      · exact ⟨relabels_trivial _ _ rfl rfl rfl rfl rfl rfl, rfl, sound'⟩
      · exact ⟨relabels_modify _ _ _ rfl, rfl, sound_modify sound' v.entry _ id id⟩
    obtain ⟨relabels, peu, sound'⟩ := noted
    have quiet' : Quiet ((s.touch e.cpu).noteUser e.cpu v operation) :=
      quiet_relabel (quiet_extend quiet (extends_touch s e.cpu)) relabels peu
    obtain ⟨t, pushed, tracked, quiet''⟩ := handle_push_peu { e with eventType := .sync operation true }
      (tracks_relabel touched relabels) sound' quiet' rfl
      (by simp [Entry.noted, Entry.rewritten, Entry.unlabelled, type, EventType.unlabelled]) kind step
    have counted : Relabels t (t.countTempVar e.service v operation) :=
      relabels_trivial _ _ rfl rfl rfl rfl rfl rfl
    exact ⟨_, Option.map_eq_some_iff.mpr ⟨t, pushed, rfl⟩, tracks_relabel tracked counted,
      quiet_relabel quiet'' counted rfl⟩

theorem label_packet (sound : Sound true s) (quiet : Quiet s) (appended : s.lastAppended.isSome)
    (type : e.eventType = .pktqueue ∨ e.eventType = .pktqueuen) :
    ∃ t label, s.labelPacket e = some (t, label) ∧ Relabels s t ∧ Sound true t ∧ Quiet t ∧
      (label = .pktqueue ∨ label = .pktqueuen) := by
  have same : Relabels s s := relabels_trivial s s rfl rfl rfl rfl rfl rfl
  obtain ⟨last, hlast⟩ := Option.isSome_iff_exists.mp appended
  unfold State.labelPacket
  split
  · simp only [hlast]
    split
    · rename_i packet
      have relabels : Relabels s (s.modify last fun l => { l with eventType := .pktqueuen }) :=
        relabels_modify s last _ (by simp [Entry.unlabelled, packet, EventType.unlabelled])
      refine ⟨_, _, rfl, relabels, ?_, quiet_relabel quiet relabels rfl, Or.inl rfl⟩
      refine sound_modify sound last _ (fun shared => ?_) fun opening => ?_
      · rw [packet] at shared
        simp [EventType.Shareable] at shared
      · rw [packet] at opening
        simp [EventType.Opening] at opening
    · exact ⟨s, _, rfl, same, sound, quiet, type⟩
  · exact ⟨s, _, rfl, same, sound, quiet, type⟩

theorem handle_pktqueue (tracks : Tracks c x.picture s) (sound : Sound true s) (quiet : Quiet s) (cpu : e.cpu = c)
    (type : e.eventType = .pktqueue ∨ e.eventType = .pktqueuen) (awake : x.current ≠ .nobody) :
    ∃ t, handlePKTQUEUE s e = some t ∧ Tracks c (x.step e).picture t ∧ Quiet t := by
  obtain ⟨u, label, labelled, relabels, sound', quiet', kind⟩ := label_packet sound quiet (tracks.last awake) type
  have step : x.step e = x.add (.plain e.noted) := by
    refine step_symbol x ?_ ?_ ?_ ?_
    all_goals rcases type with type | type <;> simp [Entry.symbol, type]
  have seen : { e with eventType := label, packetId := toString (GoText.parseIntValue 16 e.packetId) }.unlabelled =
      e.noted := by
    rcases type with type | type <;> rcases kind with rfl | rfl
    all_goals simp [Entry.noted, Entry.rewritten, Entry.unlabelled, type, EventType.unlabelled]
  obtain ⟨tracked, quiet''⟩ := handle_push { e with
    eventType := label
    packetId := toString (GoText.parseIntValue 16 e.packetId) } (tracks_relabel tracks relabels) sound' quiet'
    cpu seen step
  refine ⟨_, ?_, tracked, quiet''⟩
  unfold handlePKTQUEUE
  rw [labelled]
  rfl

theorem migrate_stays (tracks : Tracks c x.picture s) (cpu : e.cpu = c) (type : e.eventType = .migrate)
    (orderly : Orderly x e) : handleMIGRATE s e = some s := by
  have stays : s.holder (.thread e.pid1) e.pid2 = none := by
    refine List.find?_eq_none.mpr fun cpu' _ => ?_
    simp only [decide_eq_true_eq, not_and, Bool.not_eq_true]
    intro other
    by_contra key
    obtain ⟨here, opened⟩ := tracks.keys cpu' (.thread e.pid1) (Bool.eq_true_of_not_eq_false key)
    have unopened := orderly.stays type (by rw [cpu, ← here]; exact other)
    simp [Execution.picture, unopened] at opened
  simp [handleMIGRATE, stays]

theorem handle_migrate (tracks : Tracks c x.picture s) (quiet : Quiet s) (cpu : e.cpu = c)
    (type : e.eventType = .migrate) (orderly : Orderly x e) :
    ∃ t, handleMIGRATE s e = some t ∧ Tracks c (x.step e).picture t ∧ Quiet t := by
  rw [step_nothing x (by simp [Entry.symbol, type])]
  exact ⟨s, migrate_stays tracks cpu type orderly, tracks, quiet⟩

/-- One event: the handler succeeds and the picture is that of the longer execution. -/
theorem handle_event (tracks : Tracks c x.picture s) (sound : Sound true s) (quiet : Quiet s) (context : Context x)
    (cpu : e.cpu = c) (back : RestartsHome s e) (orderly : Orderly x e) (pieces : ∀ l, Piece ((x.step e).word l))
    (awake : e.eventType = .ctxsw ∨ x.current ≠ .nobody) :
    ∃ t, handleEvent s e = some t ∧ Tracks c (x.step e).picture t ∧ Quiet t := by
  unfold handleEvent
  split
  · rename_i type
    exact handle_ctxsw tracks sound quiet cpu type orderly
  · rename_i type
    exact handle_migrate tracks quiet cpu type orderly
  · rename_i type
    exact handle_hirqentry tracks sound quiet cpu type
  · rename_i type
    exact handle_hirqexit tracks sound quiet context cpu type orderly pieces
  · rename_i type
    exact handle_looprstart tracks sound quiet cpu type back orderly (awake.resolve_left (by simp [type]))
  · rename_i type
    exact handle_loopstart tracks sound quiet cpu type
  · rename_i type
    exact handle_loopstop tracks sound quiet cpu type pieces (awake.resolve_left (by simp [type]))
  · rename_i type
    refine handle_push_peu e tracks sound quiet cpu ?_ ?_ (step_symbol x ?_ ?_ ?_ ?_)
    all_goals simp [Entry.noted, Entry.rewritten, Entry.unlabelled, Entry.symbol, EventType.unlabelled,
      EventType.InLoop, type]
  · rename_i type
    exact handle_sync tracks sound quiet cpu type
  · rename_i type
    exact handle_pktqueue tracks sound quiet cpu (Or.inl type) (awake.resolve_left (by simp [type]))
  · rename_i type
    exact handle_pktqueue tracks sound quiet cpu (Or.inr type) (awake.resolve_left (by simp [type]))
  · rename_i type
    have opened := handle_service (e := e) { e with packetId := "0" } tracks sound quiet cpu
      (by simp [Entry.noted, Entry.rewritten, type])
      (by simp [Entry.noted, Entry.rewritten, Entry.unlabelled, EventType.unlabelled, EventType.InLoop, type])
      (step_symbol x (by simp [Entry.symbol, type]) (by simp [type]) (by simp [type]) (by simp [type]))
    exact ⟨_, rfl, opened⟩
  · rename_i type
    exact handle_srvexit tracks sound quiet cpu type pieces
  · rename_i type
    unfold handleSRVQUEUE
    split
    · rename_i enqueue
      have pushed := handle_push (e := e) { e with service := (softirqs e.service).getD e.service } tracks sound
        quiet cpu (by simp [Entry.noted, Entry.rewritten, type, enqueue])
        (step_symbol x (by simp [Entry.symbol, type, enqueue]) (by simp [type]) (by simp [type]) (by simp [type]))
      exact ⟨_, rfl, pushed⟩
    · rename_i dequeue
      have opened := handle_service (e := e) { e with packetId := "0" } tracks sound quiet cpu
        (by simp [Entry.noted, Entry.rewritten, type, dequeue])
        (by simp [Entry.noted, Entry.rewritten, Entry.unlabelled, EventType.unlabelled, EventType.InLoop, type,
          dequeue])
        (step_symbol x (by simp [Entry.symbol, type, dequeue]) (by simp [type]) (by simp [type]) (by simp [type]))
      exact ⟨_, rfl, opened⟩
  · rename_i type
    obtain ⟨tracked, quiet'⟩ := handle_push (e := e) { e with tempVarId := s.tempVarId } tracks sound quiet cpu
      (by simp [Entry.noted, Entry.rewritten, Entry.unlabelled, type])
      (step_symbol x (by simp [Entry.symbol, type]) (by simp [type]) (by simp [type]) (by simp [type]))
    refine ⟨_, rfl, tracks_relabel tracked ?_, quiet_relabel quiet' ?_ rfl⟩
    all_goals exact relabels_trivial _ _ rfl rfl rfl rfl rfl rfl
  all_goals rename_i type
  all_goals first
    | rw [step_nothing x (by simp [Entry.symbol, type])]
      exact ⟨s, rfl, tracks, quiet⟩
    | exact ⟨_, rfl, handle_push e tracks sound quiet cpu
        (by simp [Entry.noted, Entry.rewritten, type])
        (step_symbol x (by simp [Entry.symbol, type]) (by simp [type]) (by simp [type]) (by simp [type]))⟩

end Handlers

structure Follows (c : Fin 2) (es : List Entry) (s : State) : Prop where
  tracks : Tracks c (execution es).picture s
  sound : Sound true s
  homed : Homed s
  quiet : Quiet s
  context : Context (execution es)
  awake : es ≠ [] → LEU.nobody ∉ (execution es).current :: (execution es).interrupted

theorem follows_initial (c : Fin 2) : Follows c [] .initial where
  tracks :=
    { current := rfl
      interrupted := rfl
      frames := fun _ => ⟨[], [], rfl, by simp, .nil⟩
      stored := fun _ _ => rfl
      known := by simp [Execution.picture, execution, Execution.initial]
      last := fun awake => absurd rfl awake
      keys := by simp [State.keyed, State.initial] }
  sound := sound_initial
  homed := homed_initial
  quiet := quiet_nothing rfl
  context := ⟨by simp [execution, Execution.initial], by simp [execution, Execution.initial]⟩
  awake := fun some => absurd rfl some

theorem follows_analysis {c : Fin 2} {es : List Entry} {s t : State} (follows : Follows c es s)
    (same : t.analysis = s.analysis) : Follows c es t := by
  simp only [State.analysis, State.mk.injEq] at same
  obtain ⟨heap, leu, stack, aside, peu, leus, _, last, _⟩ := same
  have relabels := relabels_trivial s t leu stack aside leus last heap
  have sound : Sound true t := follows.sound.congr heap (fun _ _ => by simp only [State.stackOf, stack])
    fun _ _ => by simp only [State.instances, leus]
  have homed : Homed t := follows.homed.congr heap fun _ _ => by simp only [State.stackOf, stack]
  exact ⟨tracks_relabel follows.tracks relabels, sound, homed, quiet_relabel follows.quiet relabels peu,
    follows.context, follows.awake⟩

theorem awake_step {x : Execution} {e : Entry} (switches : Switches x e)
    (awake : e.eventType = .ctxsw ∨ LEU.nobody ∉ x.current :: x.interrupted) :
    LEU.nobody ∉ (x.step e).current :: (x.step e).interrupted := by
  have others : e.eventType ≠ .ctxsw → LEU.nobody ∉ x.current :: x.interrupted := awake.resolve_left
  cases symbol : e.symbol with
  | none =>
    rw [step_nothing x symbol]
    refine others fun type => ?_
    simp [Entry.symbol, type] at symbol
  | some y =>
    by_cases switch : e.eventType = .ctxsw
    · simp only [Switches, switch] at switches
      simp [step_ctxsw x switch, Execution.add, switches.1]
    · by_cases entry : e.eventType = .hirqentry
      · simpa [step_hirqentry x entry, Execution.add] using others switch
      · by_cases leave : e.eventType = .hirqexit
        · simp only [Switches, leave] at switches
          obtain ⟨leu, rest, aside⟩ := List.exists_cons_of_ne_nil switches
          have before := others switch
          rw [aside] at before
          rw [step_hirqexit leave aside]
          exact fun member => before (List.mem_cons_of_mem _ member)
        · rw [step_symbol x symbol switch entry leave]
          exact others switch

theorem context_event {x : Execution} {e : Entry} (context : Context x) (switches : Switches x e)
    (pieces : ∀ l, Piece ((x.step e).word l)) : Context (x.step e) := by
  cases symbol : e.symbol with
  | none =>
    rw [step_nothing x symbol]
    exact context
  | some y =>
    by_cases switch : e.eventType = .ctxsw
    · exact context_ctxsw switch switches
    · by_cases entry : e.eventType = .hirqentry
      · exact context_hirqentry context entry switches
      · by_cases leave : e.eventType = .hirqexit
        · simp only [Switches, leave] at switches
          obtain ⟨leu, rest, aside⟩ := List.exists_cons_of_ne_nil switches
          exact context_hirqexit context leave aside
        · rw [step_symbol x symbol switch entry leave] at pieces ⊢
          refine context_add context (pieces x.current) ?_
          rintro b rfl
          unfold Entry.symbol at symbol
          split at symbol <;> simp_all
          split at symbol <;> simp_all

theorem follows_step {c : Fin 2} {es : List Entry} {e : Entry} {s : State} (ok : WellFormed (es ++ [e]))
    (follows : Follows c es s) (cpu : e.cpu = c) (first : es = [] → e.eventType = .ctxsw) :
    ∃ t, handleEvent s e = some t ∧ Follows c (es ++ [e]) t := by
  obtain ⟨_, orderly⟩ := ok.init
  have pieces := ok.nested
  rw [execution_snoc] at pieces
  have awake : e.eventType = .ctxsw ∨ LEU.nobody ∉ (execution es).current :: (execution es).interrupted := by
    by_cases empty : es = []
    · exact Or.inl (first empty)
    · exact Or.inr (follows.awake empty)
  have running : e.eventType = .ctxsw ∨ (execution es).current ≠ .nobody :=
    awake.imp_right fun none nobody => none (by rw [nobody]; exact List.mem_cons_self ..)
  have back := homed_restarts follows.homed e
  obtain ⟨t, handled, tracks, quiet⟩ := handle_event follows.tracks follows.sound follows.quiet follows.context
    cpu back orderly pieces running
  refine ⟨t, handled, ?_⟩
  constructor
  · rw [execution_snoc]
    exact tracks
  · exact sound_handle follows.sound (fun _ => back) handled
  · by_cases type : e.eventType = .migrate
    · have stays := migrate_stays follows.tracks cpu type orderly
      simp only [handleEvent, type, stays] at handled
      exact Option.some.inj handled ▸ follows.homed
    · exact homed_handle follows.sound follows.homed type handled
  · exact quiet
  · rw [execution_snoc]
    exact context_event follows.context orderly.switches pieces
  · rw [execution_snoc]
    exact fun _ => awake_step orderly.switches awake

theorem follows_run {c : Fin 2} {ls : List Line} (lines : ∀ l ∈ ls, l.OnCPU c)
    (ok : WellFormed (entriesOf c ls)) :
    ∃ r, Run.initial.lines ls = some r ∧ Follows c (entriesOf c ls) r.state :=
  run_entries lines ok (fun _ _ ok => ok.init.1) (follows_initial c)
    (fun _ _ _ follows same => follows_analysis follows same)
    fun _ _ _ ok follows cpu first => follows_step ok follows cpu first

theorem completed_brackets {es : List Entry} (sorted : es.Pairwise fun a b => a.lineNr < b.lineNr) (l : LEU)
    (piece : Piece ((execution es).word l)) :
    ∃ brackets : List (Pair Kind Entry), brackets.Nodup ∧
      (∀ p, p ∈ brackets ↔ Matched shown ((execution es).word l) p ∧ p.kind ≠ .loop) ∧
      ∀ n, completed ((execution es).word l) n =
        (brackets.filter fun p => decide (bracketName p.kind p.opening = n)).map bracketEntries := by
  refine ⟨(scan shown ((execution es).word l)).pairs.filter fun p => decide (p.kind ≠ .loop), ?_, ?_, ?_⟩
  · have all := (openings_perm shown ((execution es).word l)).nodup_iff.mpr (openings_nodup sorted l)
    exact (List.Nodup.of_map Pair.opening (List.nodup_append.mp all).1).filter _
  · intro p
    rw [List.mem_filter, decide_eq_true_iff, mem_pairs_iff shown _ piece]
  · intro n
    rw [List.filter_filter]
    unfold completed
    congr 1
    refine List.filter_congr fun p _ => ?_
    simp [isService, Bool.and_comm]

/-- The run ends, and what is stored for each LEU is one instance for every service and
    interrupt closed in its word. -/
def Reconstructs (c : Fin 2) (file : List String) : Prop :=
  ∃ r, run file = some r ∧ ∀ l, ∃ brackets : List (Pair Kind Entry), brackets.Nodup ∧
    (∀ p, p ∈ brackets ↔
      Matched shown ((execution (entriesOf c (file.map lexLine))).word l) p ∧ p.kind ≠ .loop) ∧
    ∀ n, r.state.services l n =
      (brackets.filter fun p => decide (bracketName p.kind p.opening = n)).map bracketEntries

theorem services_reconstructed (c : Fin 2) (file : List String) (lines : ∀ l ∈ file.map lexLine, l.OnCPU c)
    (ok : WellFormed (entriesOf c (file.map lexLine))) : Reconstructs c file := by
  obtain ⟨r, done, follows⟩ := follows_run lines ok
  refine ⟨r, done, fun l => ?_⟩
  obtain ⟨brackets, nodup, members, named⟩ := completed_brackets (entries_sorted c _) l (ok.nested l)
  refine ⟨brackets, nodup, members, fun n => ?_⟩
  rw [← named, follows.tracks.stored]
  rfl

def interruptedCall : List String :=
  ["CTXSW 0 1 1 1 2 0 0 a",
   "SRVENTRY 0 2 2 0 0 0 send a",
   "LOOPSTART 0 2 3 0 0 0 0 b",
   "LOOPRSTART 0 2 4 0 0 0 0 b",
   "HIRQENTRY 0 2 5 7 0 0 0 c",
   "HIRQEXIT 0 2 6 7 0 0 0 c",
   "LOOPSTOP 0 2 7 0 0 0 0 b",
   "SRVENTRY 0 2 8 0 0 0 soft irq_exit",
   "SRVEXIT 0 2 9 0 0 0 soft d",
   "SRVEXIT 0 2 9 0 0 0 send a"]

theorem services_reconstructed_interrupted_call : Reconstructs 0 interruptedCall := by
  have all : (∀ l ∈ interruptedCall.map lexLine, l.OnCPU 0) ∧
      (∀ l ∈ (leusOf (entriesOf 0 (interruptedCall.map lexLine))).dedup,
        check [] ((execution (entriesOf 0 (interruptedCall.map lexLine))).word l) = some []) ∧
      TransitionRuns.Guarded (fun x e => some (x.step e)) Orderly .initial
        (entriesOf 0 (interruptedCall.map lexLine)) := by decide +kernel
  exact services_reconstructed 0 interruptedCall all.1 ⟨nested_of_check all.2.1, all.2.2⟩

def strayRestart : List String :=
  ["CTXSW 0 1 1 1 2 0 0 a",
   "SRVENTRY 0 2 2 0 0 0 send a",
   "LOOPRSTART 0 2 3 0 0 0 0 b",
   "SRVEXIT 0 2 4 0 0 0 send a"]

theorem stray_restart_splits_a_service : ¬ ∀ (c : Fin 2) (file : List String),
    (∀ l ∈ file.map lexLine, l.OnCPU c) →
    (∀ l, Piece ((execution (entriesOf c (file.map lexLine))).word l)) →
    TransitionRuns.Guarded (fun x e => some (x.step e)) Switches .initial (entriesOf c (file.map lexLine)) →
    Reconstructs c file := by
  intro every
  obtain ⟨r, done, stored⟩ := every 0 strayRestart (by decide +kernel) (nested_of_check (by decide +kernel))
    (by decide +kernel)
  obtain ⟨brackets, _, members, named⟩ := stored (.thread 2)
  have split : ((run strayRestart).map fun r => (r.state.services (.thread 2) "send").map fun es =>
      es.map Entry.eventType) = some [[.looprstart, .srvexit]] := by decide +kernel
  rw [done, Option.map_some, named] at split
  have opened : ∀ a ∈ openings ((execution (entriesOf 0 (strayRestart.map lexLine))).word (.thread 2)),
      a.eventType ≠ .looprstart := by decide +kernel
  obtain ⟨p, member, first⟩ : ∃ p ∈ brackets, p.opening.eventType = .looprstart := by
    obtain ⟨es, inside, types⟩ := List.mem_map.mp
      (Option.some.inj split ▸ List.mem_cons_self .. : [EventType.looprstart, .srvexit] ∈ _)
    obtain ⟨p, member, rfl⟩ := List.mem_map.mp inside
    exact ⟨p, (List.mem_filter.mp member).1, (List.cons.inj types).1⟩
  exact opened _ (matched_opening ((members p).mp member).1) first

end Analyse
