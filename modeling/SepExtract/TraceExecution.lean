import Mathlib.Data.List.Dedup
import SepExtract.AnalyseRun
import SepExtract.Nesting
import SepExtract.TransitionRuns

/- What a trace of one CPU says was executed, told without the analyser's stacks: the events
   of the trace, the LEU that runs at each of them, and for each LEU the word of its events
   with the brackets they open and close. -/
namespace Analyse
open GoText Nesting

def Line.OnCPU (c : Fin 2) : Line → Prop
  | .columns f => f.cpu.bind cpuOf = some c ∧ f.currentPid.isSome ∧ f.cyc.isSome ∧ f.pid1.isSome ∧
      f.pid2.isSome
  | .idQueue _ _ | .idSynch _ _ | .short => True
  | .eod | .panics => False

instance (c : Fin 2) (l : Line) : Decidable (l.OnCPU c) := by
  cases l <;> unfold Line.OnCPU <;> infer_instance

structure Reader where
  clock : PerCPUTraceState
  lineNumber : Nat
  entries : List Entry

def Reader.initial : Reader := ⟨.initial, 0, []⟩

def Reader.event (c : Fin 2) (r : Reader) (f : Columns) : Reader :=
  if r.clock.limbo ∧ f.eventType ≠ .ctxsw then r
  else
    match f.currentPid, f.cyc, f.pid1, f.pid2 with
    | some currentPid, some cyc, some pid1, some pid2 =>
      let clock := r.clock.advance cyc
      let e := f.entry c currentPid pid1 pid2 clock.cycles r.lineNumber
      { r with clock := clock, entries := r.entries ++ [e] }
    | _, _, _, _ => r

def Reader.line (c : Fin 2) (r : Reader) (l : Line) : Reader :=
  let r := { r with lineNumber := r.lineNumber + 1 }
  match l with
  | .columns f => r.event c f
  | _ => r

def entriesOf (c : Fin 2) (ls : List Line) : List Entry := (ls.foldl (Reader.line c) .initial).entries

inductive Kind where
  | service | irq | loop
  deriving DecidableEq, Repr

def EventType.unlabelled : EventType → EventType
  | .pktqueuen => .pktqueue
  | .sync operation _ => .sync operation false
  | type => type

/-- An entry up to its relabelling and to the fields that are filled in later. -/
def Entry.unlabelled (e : Entry) : Entry :=
  { e with eventType := e.eventType.unlabelled, tempVarId := 0, tempVars := [], peuDuration := 0, peuIRQ := 0 }

def Entry.rewritten (e : Entry) : Entry :=
  match e.eventType with
  | .srventry => { e with packetId := "0" }
  | .srvqueue =>
    if e.pid1 = ENQUEUE then { e with service := (softirqs e.service).getD e.service }
    else { e with packetId := "0" }
  | .pktqueue | .pktqueuen => { e with packetId := toString (parseIntValue 16 e.packetId) }
  | _ => e

def Entry.noted (e : Entry) : Entry := e.rewritten.unlabelled

/-- What an event is for the LEU that executes it; an event no handler looks at is nothing. -/
def Entry.symbol (e : Entry) : Option (Sym Kind Entry) :=
  match e.eventType with
  | .srventry => some (.opens .service e.noted)
  | .srvqueue => some (if e.pid1 = ENQUEUE then .plain e.noted else .opens .service e.noted)
  | .srvexit => some (.closes .service e.noted)
  | .hirqentry => some (.opens .irq e.noted)
  | .hirqexit => some (.closes .irq e.noted)
  | .loopstart => some (.opens .loop e.noted)
  | .loopstop => some (.closes .loop e.noted)
  | .ctxsw | .looprstart | .peustart | .sync _ false | .pktqueue | .pktqueuen | .tempsynch | .queuecond
  | .statecond | .statequeue | .sleep | .ttwakeup | .wakeup => some (.plain e.noted)
  | .migrate | .sync _ true | .pktextr | .pktextrn | .threadcond | .other _ => none

structure Execution where
  current : LEU
  interrupted : List LEU
  word : LEU → List (Sym Kind Entry)

def Execution.initial : Execution := ⟨.nobody, [], fun _ => []⟩

def Execution.add (x : Execution) (y : Sym Kind Entry) : Execution :=
  { x with word := Function.update x.word x.current (x.word x.current ++ [y]) }

def Execution.step (x : Execution) (e : Entry) : Execution :=
  match e.symbol with
  | none => x
  | some y =>
    match e.eventType with
    | .ctxsw => { x.add y with current := .thread e.pid2 }.add y
    | .hirqentry =>
      let irq := LEU.hardwareInterrupt e.pid1
      { x.add (.plain e.noted) with current := irq, interrupted := x.current :: x.interrupted }.add y
    | .hirqexit =>
      match x.interrupted with
      | [] => x.add y
      | leu :: rest => { x.add y with current := leu, interrupted := rest }.add (.plain e.noted)
    | _ => x.add y

def execution (es : List Entry) : Execution := es.foldl Execution.step .initial

def shown (e : Entry) : Bool := !contains e.location "irq_exit"

def innermost (w : List (Sym Kind Entry)) : Option Kind := (scan shown w).stack.head?.map Frame.kind

def opensService : Sym Kind Entry → Bool
  | .opens .loop _ | .closes _ _ | .plain _ => false
  | .opens _ _ => true

def Switches (x : Execution) (e : Entry) : Prop :=
  match e.eventType with
  | .ctxsw => x.interrupted = [] ∧ x.current ≠ .thread e.pid2
  | .hirqentry => LEU.hardwareInterrupt e.pid1 ∉ x.current :: x.interrupted
  | .hirqexit => x.interrupted ≠ []
  | _ => True

theorem switches_iff (x : Execution) (e : Entry) :
    ((e.eventType = .ctxsw → x.interrupted = [] ∧ x.current ≠ .thread e.pid2) ∧
      (e.eventType = .hirqentry → LEU.hardwareInterrupt e.pid1 ∉ x.current :: x.interrupted) ∧
      (e.eventType = .hirqexit → x.interrupted ≠ [])) ↔ Switches x e := by
  unfold Switches
  cases e.eventType <;> simp

instance (x : Execution) (e : Entry) : Decidable (Switches x e) := decidable_of_iff _ (switches_iff x e)

/-- Also, a loop restarts inside that loop, and a thread that has run a service stays on its
    CPU. -/
structure Orderly (x : Execution) (e : Entry) : Prop where
  switches : Switches x e
  restarts : e.eventType = .looprstart → ∀ k ∈ innermost (x.word x.current), k = .loop
  stays : e.eventType = .migrate → cpuOf e.pid2 ≠ some e.cpu →
    (x.word (.thread e.pid1)).any opensService = false

instance (x : Execution) (e : Entry) : Decidable (Orderly x e) :=
  decidable_of_iff (Switches x e ∧ (e.eventType = .looprstart → ∀ k ∈ innermost (x.word x.current), k = .loop) ∧
    (e.eventType = .migrate → cpuOf e.pid2 ≠ some e.cpu →
      (x.word (.thread e.pid1)).any opensService = false))
    ⟨fun ⟨switches, restarts, stays⟩ => ⟨switches, restarts, stays⟩,
     fun ⟨switches, restarts, stays⟩ => ⟨switches, restarts, stays⟩⟩

structure WellFormed (es : List Entry) : Prop where
  nested : ∀ l, Piece ((execution es).word l)
  orderly : TransitionRuns.Guarded (fun x e => some (x.step e)) Orderly .initial es

theorem execution_snoc (es : List Entry) (e : Entry) :
    execution (es ++ [e]) = (execution es).step e := by
  simp [execution]

theorem run_execution (es : List Entry) (x : Execution) :
    TransitionRuns.run (fun x e => some (x.step e)) x es = some (es.foldl Execution.step x) := by
  induction es generalizing x with
  | nil => rfl
  | cons e es ih => exact ih (x.step e)

theorem word_step (x : Execution) (e : Entry) (l : LEU) : ∃ v, (x.step e).word l = x.word l ++ v := by
  have add : ∀ (x : Execution) y, ∃ v, (x.add y).word l = x.word l ++ v := by
    intro x y
    unfold Execution.add
    by_cases here : l = x.current
    · subst here
      exact ⟨[y], by simp⟩
    · exact ⟨[], by simp [here]⟩
  have twice : ∀ (x x' : Execution) y y', x'.word = (x.add y).word →
      ∃ v, (x'.add y').word l = x.word l ++ v := by
    intro x x' y y' same
    obtain ⟨v, first⟩ := add x y
    obtain ⟨v', second⟩ := add x' y'
    exact ⟨v ++ v', by rw [second, same, first, List.append_assoc]⟩
  unfold Execution.step
  split
  · exact ⟨[], by simp⟩
  · split
    · exact twice x _ _ _ rfl
    · exact twice x _ _ _ rfl
    · split
      · exact add x _
      · exact twice x _ _ _ rfl
    · exact add x _

theorem piece_prefix {Kind Item : Type*} {u v : List (Sym Kind Item)} (piece : Piece (u ++ v)) : Piece u := by
  obtain ⟨l, r, balanced⟩ := piece
  exact ⟨l, v ++ r, by simpa using balanced⟩

theorem WellFormed.init {es : List Entry} {e : Entry} (ok : WellFormed (es ++ [e])) :
    WellFormed es ∧ Orderly (execution es) e := by
  obtain ⟨before, last⟩ := TransitionRuns.guarded_snoc ok.orderly
  refine ⟨⟨fun l => ?_, before⟩, last _ (run_execution es .initial)⟩
  have whole := ok.nested l
  rw [execution_snoc] at whole
  obtain ⟨v, grown⟩ := word_step (execution es) e l
  rw [grown] at whole
  exact piece_prefix whole

structure Reads (c : Fin 2) (r : Run) (reader : Reader) : Prop where
  clock : r.traceState c = reader.clock
  lineNumber : r.lineNumber = reader.lineNumber
  going : r.returned = false
  limbo : reader.clock.limbo = true ↔ reader.entries = []

def State.analysis (s : State) : State :=
  { s with addrMap := fun _ => none, addrMapSynch := fun _ => none, longestLocationString := 0 }

theorem line_reads {c : Fin 2} {r : Run} {reader : Reader} {l : Line} (reads : Reads c r reader)
    (line : l.OnCPU c) :
    (∃ t, r.line l = some t ∧ Reads c t (reader.line c l) ∧ t.state.analysis = r.state.analysis ∧
      (reader.line c l).entries = reader.entries) ∨
    ∃ e t, r.line l = (handleEvent (r.state.measureLocation e.location) e).map t ∧ e.cpu = c ∧
      (reader.entries = [] → e.eventType = .ctxsw) ∧ (∀ s, Reads c (t s) (reader.line c l)) ∧
      (∀ s, (t s).state = s) ∧ (reader.line c l).entries = reader.entries ++ [e] := by
  obtain ⟨clock, number, going, limbo⟩ := reads
  cases l with
  | panics => cases line
  | eod => cases line
  | short =>
    exact Or.inl ⟨{ r with lineNumber := r.lineNumber + 1 }, by simp [Run.line, going],
      ⟨clock, by simp [Reader.line, number], going, limbo⟩, rfl, rfl⟩
  | idQueue addr id =>
    exact Or.inl ⟨{ r with lineNumber := r.lineNumber + 1 }.setAddr addr id, by simp [Run.line, going],
      ⟨clock, by simp [Run.setAddr, Reader.line, number], going, limbo⟩, rfl, rfl⟩
  | idSynch addr id =>
    exact Or.inl ⟨{ r with lineNumber := r.lineNumber + 1 }.setAddrSynch addr id,
      by simp [Run.line, going],
      ⟨clock, by simp [Run.setAddrSynch, Reader.line, number], going, limbo⟩, rfl, rfl⟩
  | columns f =>
    obtain ⟨cpu, pid, cyc, pid1, pid2⟩ := line
    obtain ⟨pid, hpid⟩ := Option.isSome_iff_exists.mp pid
    obtain ⟨cyc, hcyc⟩ := Option.isSome_iff_exists.mp cyc
    obtain ⟨pid1, hpid1⟩ := Option.isSome_iff_exists.mp pid1
    obtain ⟨pid2, hpid2⟩ := Option.isSome_iff_exists.mp pid2
    by_cases skipped : reader.clock.limbo = true ∧ f.eventType ≠ .ctxsw
    · refine Or.inl ⟨{ r with lineNumber := r.lineNumber + 1 }, ?_, ?_, rfl, ?_⟩
      · simp [Run.line, going, Run.columns, cpu, clock, skipped]
      · simpa [Reader.line, Reader.event, skipped] using
          (⟨clock, by simp [number], going, limbo⟩ :
            Reads c { r with lineNumber := r.lineNumber + 1 }
              { reader with lineNumber := reader.lineNumber + 1 })
      · simp [Reader.line, Reader.event, skipped]
    · refine Or.inr ⟨f.entry c pid pid1 pid2 (reader.clock.advance cyc).cycles (reader.lineNumber + 1),
        fun s => { r with
          traceState := Function.update r.traceState c (reader.clock.advance cyc)
          lineNumber := r.lineNumber + 1
          state := s }, ?_, rfl, ?_, ?_, fun s => rfl, ?_⟩
      · simp only [Run.line, going, Bool.false_eq_true, if_false, Run.columns, cpu, clock, skipped, number,
          hpid, hcyc, hpid1, hpid2, bind, Option.bind_some]
        cases handleEvent (r.state.measureLocation _) _ <;> rfl
      · intro nothing
        exact by_contra fun other => skipped ⟨limbo.mpr nothing, other⟩
      · intro s
        simp only [Reader.line, Reader.event, skipped, if_false, hpid, hcyc, hpid1, hpid2]
        exact ⟨by simp, by simp [number], going, by simp [PerCPUTraceState.advance]⟩
      · simp [Reader.line, Reader.event, skipped, hpid, hcyc, hpid1, hpid2]

theorem reader_entries (c : Fin 2) (r : Reader) (l : Line) :
    (r.line c l).entries = r.entries ∨
      ∃ e, (r.line c l).entries = r.entries ++ [e] ∧ e.lineNr = r.lineNumber + 1 := by
  unfold Reader.line
  dsimp only
  split
  · unfold Reader.event
    split
    · exact Or.inl rfl
    · split
      · exact Or.inr ⟨_, rfl, rfl⟩
      · exact Or.inl rfl
  · exact Or.inl rfl

/-- The rule for runs over the lines of one CPU: what holds of the initial state, does not
    depend on the maps of addresses, and is carried on by the handlers event by event. -/
theorem run_entries {c : Fin 2} {P : List Entry → State → Prop} {W : List Entry → Prop} {ls : List Line}
    (lines : ∀ l ∈ ls, l.OnCPU c) (whole : W (entriesOf c ls))
    (init : ∀ es e, W (es ++ [e]) → W es) (start : P [] .initial)
    (other : ∀ es s t, P es s → t.analysis = s.analysis → P es t)
    (step : ∀ es e s, W (es ++ [e]) → P es s → e.cpu = c → (es = [] → e.eventType = .ctxsw) →
      ∃ t, handleEvent s e = some t ∧ P (es ++ [e]) t) :
    ∃ r, Run.initial.lines ls = some r ∧ P (entriesOf c ls) r.state := by
  suffices reads : ∃ r, Run.initial.lines ls = some r ∧ Reads c r (ls.foldl (Reader.line c) .initial) ∧
      P (entriesOf c ls) r.state by
    obtain ⟨r, done, _, holds⟩ := reads
    exact ⟨r, done, holds⟩
  induction ls using List.reverseRecOn with
  | nil => exact ⟨Run.initial, rfl, ⟨rfl, rfl, rfl, by simp [Reader.initial, PerCPUTraceState.initial]⟩, start⟩
  | append_singleton ls l ih =>
    have line := lines l (by simp)
    have earlier : ∀ k ∈ ls, k.OnCPU c := fun k member => lines k (by simp [member])
    have last : entriesOf c (ls ++ [l]) = ((ls.foldl (Reader.line c) .initial).line c l).entries := by
      simp [entriesOf]
    have shorter : W (entriesOf c ls) := by
      rw [last] at whole
      rcases reader_entries c (ls.foldl (Reader.line c) .initial) l with none | ⟨e, one, _⟩
      · rwa [none] at whole
      · rw [one] at whole
        exact init _ e whole
    obtain ⟨r, done, reads, holds⟩ := ih earlier shorter
    have joined : Run.initial.lines (ls ++ [l]) = r.line l := by
      simp only [Run.lines, List.foldlM_append, List.foldlM_cons, List.foldlM_nil] at done ⊢
      simp [done]
    rw [joined, List.foldl_append]
    rcases line_reads reads line with ⟨t, next, reads', same, none⟩ |
      ⟨e, t, next, cpu, first, reads', state, one⟩
    · refine ⟨t, next, reads', ?_⟩
      rw [last, none]
      exact other _ _ _ holds same
    · rw [last, one] at whole ⊢
      obtain ⟨s, handled, holds'⟩ := step _ e (r.state.measureLocation e.location) whole
        (other _ r.state _ holds rfl) cpu first
      refine ⟨t s, by rw [next, handled]; rfl, reads' s, ?_⟩
      rw [state]
      exact holds'

theorem entries_sorted (c : Fin 2) (ls : List Line) :
    (entriesOf c ls).Pairwise fun a b => a.lineNr < b.lineNr := by
  suffices sorted : (entriesOf c ls).Pairwise (fun a b => a.lineNr < b.lineNr) ∧
      ∀ e ∈ entriesOf c ls, e.lineNr ≤ (ls.foldl (Reader.line c) .initial).lineNumber from sorted.1
  unfold entriesOf
  induction ls using List.reverseRecOn with
  | nil => exact ⟨.nil, by simp [Reader.initial]⟩
  | append_singleton ls l ih =>
    rw [List.foldl_append]
    generalize ls.foldl (Reader.line c) .initial = r at ih
    obtain ⟨sorted, bound⟩ := ih
    have number : (r.line c l).lineNumber = r.lineNumber + 1 := by
      unfold Reader.line
      dsimp only
      split
      · unfold Reader.event
        split
        · rfl
        · split <;> rfl
      · rfl
    rw [List.foldl_cons, List.foldl_nil, number]
    rcases reader_entries c r l with none | ⟨e, one, line⟩
    · rw [none]
      exact ⟨sorted, fun e member => Nat.le_succ_of_le (bound e member)⟩
    · rw [one]
      constructor
      · refine List.pairwise_append.mpr ⟨sorted, by simp, fun a member b last => ?_⟩
        rw [List.mem_singleton.mp last, line]
        exact Nat.lt_succ_of_le (bound a member)
      · intro a member
        rcases List.mem_append.mp member with old | new
        · exact Nat.le_succ_of_le (bound a old)
        · rw [List.mem_singleton.mp new, line]

theorem noted_line (e : Entry) : e.noted.lineNr = e.lineNr := by
  unfold Entry.noted Entry.rewritten Entry.unlabelled
  split
  · rfl
  · split <;> rfl
  · rfl
  · rfl
  · rfl

theorem symbol_openings {e : Entry} {y : Sym Kind Entry} (symbol : e.symbol = some y) :
    (openings [y]).Sublist [e.noted] := by
  unfold Entry.symbol at symbol
  split at symbol
  all_goals first
    | cases symbol; done
    | (obtain rfl := Option.some.inj symbol
       first
         | exact List.Sublist.refl _
         | exact List.nil_sublist _
         | (split
            · exact List.nil_sublist _
            · exact List.Sublist.refl _))

theorem openings_add (x : Execution) (y : Sym Kind Entry) (l : LEU) :
    openings ((x.add y).word l) = openings (x.word l) ++ if l = x.current then openings [y] else [] := by
  unfold Execution.add
  by_cases here : l = x.current
  · subst here
    simp [openings_append]
  · simp [here]

theorem openings_step (x : Execution) (e : Entry) (l : LEU) :
    ∃ new, openings ((x.step e).word l) = openings (x.word l) ++ new ∧ new.Sublist [e.noted] := by
  have plain : ∀ (x : Execution) a, openings ((x.add (.plain a)).word l) = openings (x.word l) := by
    intro x a
    rw [openings_add]
    simp [openings]
  have other : ∀ (x : Execution) y, e.symbol = some y →
      ∃ new, openings ((x.add y).word l) = openings (x.word l) ++ new ∧ new.Sublist [e.noted] := by
    intro x y symbol
    refine ⟨_, openings_add x y l, ?_⟩
    split
    · exact symbol_openings symbol
    · exact List.nil_sublist _
  unfold Execution.step
  split
  · exact ⟨[], by simp, List.nil_sublist _⟩
  · rename_i y symbol
    split
    · rename_i type
      obtain rfl : y = .plain e.noted := by simpa [Entry.symbol, type] using symbol.symm
      refine ⟨[], ?_, List.nil_sublist _⟩
      rw [plain, List.append_nil]
      exact plain x e.noted
    · obtain ⟨new, grown, sub⟩ := other { x.add (.plain e.noted) with
        current := .hardwareInterrupt e.pid1
        interrupted := x.current :: x.interrupted } y symbol
      refine ⟨new, ?_, sub⟩
      rw [grown]
      exact congrArg (· ++ new) (plain x e.noted)
    · split
      · exact other x y symbol
      · obtain ⟨new, grown, sub⟩ := other x y symbol
        refine ⟨new, ?_, sub⟩
        rw [plain]
        exact grown
    · exact other x y symbol

theorem opening_lines_nodup {es : List Entry} (sorted : es.Pairwise fun a b => a.lineNr < b.lineNr) (l : LEU) :
    ((openings ((execution es).word l)).map Entry.lineNr).Nodup := by
  have sub : (openings ((execution es).word l)).Sublist (es.map Entry.noted) := by
    clear sorted
    induction es using List.reverseRecOn with
    | nil => exact List.nil_sublist _
    | append_singleton es e ih =>
      obtain ⟨new, grown, last⟩ := openings_step (execution es) e l
      rw [execution_snoc, grown, List.map_append]
      exact ih.append last
  refine (sub.map Entry.lineNr).nodup ?_
  rw [List.map_map, List.Nodup, List.pairwise_map]
  refine sorted.imp fun less => ?_
  simp only [Function.comp, noted_line]
  exact Nat.ne_of_lt less

theorem openings_nodup {es : List Entry} (sorted : es.Pairwise fun a b => a.lineNr < b.lineNr) (l : LEU) :
    (openings ((execution es).word l)).Nodup := (opening_lines_nodup sorted l).of_map

structure Within (ls : List LEU) (x : Execution) : Prop where
  current : x.current ∈ ls
  aside : ∀ l ∈ x.interrupted, l ∈ ls
  word : ∀ l, l ∉ ls → x.word l = []

theorem within_add {ls : List LEU} {x : Execution} (inside : Within ls x) (y : Sym Kind Entry) :
    Within ls (x.add y) where
  current := inside.current
  aside := inside.aside
  word l outside := by
    have apart : l ≠ x.current := by
      rintro rfl
      exact outside inside.current
    simpa [Execution.add, apart] using inside.word l outside

theorem within_step {ls : List LEU} {x : Execution} {e : Entry} (inside : Within ls x)
    (thread : .thread e.pid2 ∈ ls) (irq : .hardwareInterrupt e.pid1 ∈ ls) : Within ls (x.step e) := by
  unfold Execution.step
  split
  · exact inside
  · split
    · refine within_add ?_ _
      exact ⟨thread, inside.aside, (within_add inside _).word⟩
    · refine within_add ?_ _
      refine ⟨irq, fun l member => ?_, (within_add inside _).word⟩
      rcases List.mem_cons.mp member with rfl | member
      · exact inside.current
      · exact inside.aside l member
    · split
      · exact within_add inside _
      · rename_i leu rest aside
        refine within_add ?_ _
        refine ⟨inside.aside leu (by simp [aside]), fun l member => ?_, (within_add inside _).word⟩
        exact inside.aside l (by simp [aside, member])
    · exact within_add inside _

def leusOf (es : List Entry) : List LEU :=
  .nobody :: es.flatMap fun e => [.thread e.pid2, .hardwareInterrupt e.pid1]

theorem within_execution (es : List Entry) : Within (leusOf es) (execution es) := by
  suffices runs : ∀ ls, (∀ e ∈ es, LEU.thread e.pid2 ∈ ls ∧ LEU.hardwareInterrupt e.pid1 ∈ ls) →
      ∀ x, Within ls x → Within ls (es.foldl Execution.step x) by
    refine runs _ (fun e member => ?_) _ ⟨by simp [leusOf, Execution.initial], by simp [Execution.initial],
      fun _ _ => rfl⟩
    simp only [leusOf, List.mem_cons, List.mem_flatMap]
    exact ⟨Or.inr ⟨e, member, by simp⟩, Or.inr ⟨e, member, by simp⟩⟩
  intro ls
  induction es with
  | nil => exact fun _ x inside => inside
  | cons e es ih =>
    intro members x inside
    have first := members e (List.mem_cons_self ..)
    exact ih (fun k member => members k (List.mem_cons_of_mem e member)) _
      (within_step inside first.1 first.2)

theorem nested_of_check {es : List Entry}
    (checked : ∀ l ∈ (leusOf es).dedup, check [] ((execution es).word l) = some []) (l : LEU) :
    Piece ((execution es).word l) := by
  by_cases inside : l ∈ leusOf es
  · exact piece_of_check (checked l (List.mem_dedup.mpr inside))
  · rw [(within_execution es).word l inside]
    exact piece_of_check rfl

end Analyse
