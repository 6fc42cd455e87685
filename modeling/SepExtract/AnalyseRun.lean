import SepExtract.AnalyseState
import SepExtract.WrappingCounter

/- The main loop of analyse.go: per-CPU cycle bookkeeping, the wait for the first context
   switch after every end-of-data mark, and the call of the handlers. -/
namespace Analyse
open GoText

structure PerCPUTraceState where
  first : Bool
  limbo : Bool
  lastCycle : Int
  cycles : Int
  cyc : Int
  deriving DecidableEq, Repr

def PerCPUTraceState.initial : PerCPUTraceState := ⟨true, true, 0, 0, 0⟩

def delta (a b : Int) : Int := WrappingCounter.delta 0xFFFFFFFF a b

def PerCPUTraceState.advance (ts : PerCPUTraceState) (cyc : Int) : PerCPUTraceState where
  first := false
  limbo := false
  lastCycle := ts.cycles
  cycles := ts.cycles + delta (if ts.first then cyc else ts.cyc) cyc
  cyc := cyc

/-- The variables of run. A process id that does not parse makes run return at that line. -/
structure Run where
  traceState : Fin 2 → PerCPUTraceState
  state : State
  lineNumber : Nat
  returned : Bool

def Run.initial : Run := ⟨fun _ => .initial, .initial, 0, false⟩

def Run.resetOnEOD (r : Run) : Run :=
  { r with
    traceState := fun cpu => { r.traceState cpu with first := true, limbo := true }
    state := { r.state with
      serviceStack := fun _ => none
      currentLEU := fun _ => .nobody
      tempVars := fun _ => none
      currentPEU := ⟨none, []⟩ } }

def Columns.entry (f : Columns) (cpu : Fin 2) (currentPid pid1 pid2 cycles : Int) (lineNr : Nat) :
    Entry where
  eventType := f.eventType
  cpu := cpu
  currentPid := currentPid
  pid1 := pid1
  pid2 := pid2
  packetId := f.packetId
  service := f.service
  location := f.location
  cycles := cycles
  lineNr := lineNr
  tempVarId := 0
  tempVars := []
  peuDuration := 0
  peuIRQ := 0

def State.measureLocation (s : State) (location : String) : State :=
  { s with longestLocationString := max s.longestLocationString location.utf8ByteSize }

def Run.columns (r : Run) (f : Columns) : Option Run := do
  let cpu ← f.cpu.bind cpuOf
  if (r.traceState cpu).limbo ∧ f.eventType ≠ .ctxsw then some r
  else
    match f.currentPid with
    | none => some { r with returned := true }
    | some currentPid => do
      let cyc ← f.cyc
      let ts := (r.traceState cpu).advance cyc
      let pid1 ← f.pid1
      let pid2 ← f.pid2
      let e := f.entry cpu currentPid pid1 pid2 ts.cycles r.lineNumber
      let s ← handleEvent (r.state.measureLocation e.location) e
      some { r with traceState := Function.update r.traceState cpu ts, state := s }

def Run.setAddr (r : Run) (addr : String) (id : Int) : Run :=
  { r with state := { r.state with addrMap := Function.update r.state.addrMap addr (some id) } }

def Run.setAddrSynch (r : Run) (addr : String) (id : Int) : Run :=
  let synch := Function.update r.state.addrMapSynch addr (some id)
  { r with state := { r.state with addrMapSynch := synch } }

def Run.line (r : Run) (l : Line) : Option Run :=
  if r.returned then some r
  else
    let r := { r with lineNumber := r.lineNumber + 1 }
    match l with
    | .panics => none
    | .eod => some r.resetOnEOD
    | .idQueue addr id => some (r.setAddr addr id)
    | .idSynch addr id => some (r.setAddrSynch addr id)
    | .short => some r
    | .columns f => r.columns f

def Run.lines (r : Run) (ls : List Line) : Option Run := ls.foldlM Run.line r

def run (file : List String) : Option Run := Run.initial.lines (file.map lexLine)

def Run.entryOf (r : Run) : Line → Option Entry
  | .columns f =>
    if r.returned then none
    else do
      let cpu ← f.cpu.bind cpuOf
      if (r.traceState cpu).limbo ∧ f.eventType ≠ .ctxsw then none
      else
        let currentPid ← f.currentPid
        let cyc ← f.cyc
        let pid1 ← f.pid1
        let pid2 ← f.pid2
        let cycles := ((r.traceState cpu).advance cyc).cycles
        some (f.entry cpu currentPid pid1 pid2 cycles (r.lineNumber + 1))
  | _ => none

theorem awake_of_read {limbo : Bool} {type : EventType} (read : ¬ (limbo = true ∧ type ≠ .ctxsw)) :
    limbo = false ∨ type = .ctxsw := by
  cases limbo with
  | false => exact Or.inl rfl
  | true => exact Or.inr (by_contra fun other => read ⟨rfl, other⟩)

theorem read_of_awake {limbo : Bool} {type : EventType} (awake : limbo = false ∨ type = .ctxsw) :
    ¬ (limbo = true ∧ type ≠ .ctxsw) := by
  rintro ⟨rfl, other⟩
  exact awake.elim (fun same => Bool.noConfusion same) other

theorem columns_cases {r t : Run} {f : Columns} (done : r.columns f = some t) :
    ∃ cpu, f.cpu.bind cpuOf = some cpu ∧
      (((r.traceState cpu).limbo = true ∧ f.eventType ≠ .ctxsw ∧ t = r) ∨
       (((r.traceState cpu).limbo = false ∨ f.eventType = .ctxsw) ∧
         ((f.currentPid = none ∧ t = { r with returned := true }) ∨
          ∃ currentPid cyc pid1 pid2 s, f.currentPid = some currentPid ∧ f.cyc = some cyc ∧
            f.pid1 = some pid1 ∧ f.pid2 = some pid2 ∧
            handleEvent (r.state.measureLocation f.location)
              (f.entry cpu currentPid pid1 pid2 ((r.traceState cpu).advance cyc).cycles r.lineNumber) =
                some s ∧
            t = { r with
              traceState := Function.update r.traceState cpu ((r.traceState cpu).advance cyc)
              state := s }))) := by
  simp only [Run.columns, bind, Option.bind_eq_some_iff] at done
  obtain ⟨cpu, known, rest⟩ := done
  refine ⟨cpu, Option.bind_eq_some_iff.mpr known, ?_⟩
  split at rest
  · rename_i skipped
    exact Or.inl ⟨skipped.1, skipped.2, (Option.some.inj rest).symm⟩
  · rename_i read
    refine Or.inr ⟨awake_of_read read, ?_⟩
    split at rest
    · rename_i unreadable
      exact Or.inl ⟨unreadable, (Option.some.inj rest).symm⟩
    · rename_i currentPid pid
      simp only [Option.bind_eq_some_iff] at rest
      obtain ⟨cyc, hcyc, pid1, h1, pid2, h2, s, handled, eq⟩ := rest
      exact Or.inr ⟨currentPid, cyc, pid1, pid2, s, pid, hcyc, h1, h2, handled,
        (Option.some.inj eq).symm⟩

theorem entry_of_columns {r : Run} {l : Line} {e : Entry} (made : r.entryOf l = some e) :
    ∃ f cyc, l = .columns f ∧ r.returned = false ∧ f.cpu.bind cpuOf = some e.cpu ∧
      ((r.traceState e.cpu).limbo = false ∨ f.eventType = .ctxsw) ∧ f.currentPid.isSome = true ∧
      f.cyc = some cyc ∧ e.cycles = ((r.traceState e.cpu).advance cyc).cycles := by
  cases l with
  | columns f =>
    simp only [Run.entryOf, bind] at made
    split at made
    · cases made
    · rename_i going
      simp only [Option.bind_eq_some_iff] at made
      obtain ⟨cpu, known, rest⟩ := made
      split at rest
      · cases rest
      · rename_i read
        simp only [Option.bind_eq_some_iff] at rest
        obtain ⟨pid, hpid, cyc, hcyc, _, _, _, _, eq⟩ := rest
        obtain rfl := Option.some.inj eq
        exact ⟨f, cyc, rfl, by simpa using going, Option.bind_eq_some_iff.mpr known,
          awake_of_read read, by simp [hpid], hcyc, rfl⟩
  | eod => cases made
  | idQueue => cases made
  | idSynch => cases made
  | short => cases made
  | panics => cases made

theorem line_clock {r t : Run} {l : Line} (done : r.line l = some t) :
    t.traceState = r.traceState ∨
    (l = .eod ∧ t.traceState = fun cpu => { r.traceState cpu with first := true, limbo := true }) ∨
    ∃ f cpu cyc, l = .columns f ∧ f.cpu.bind cpuOf = some cpu ∧ f.cyc = some cyc ∧
      t.traceState = Function.update r.traceState cpu ((r.traceState cpu).advance cyc) := by
  unfold Run.line at done
  split at done
  · exact Or.inl (by rw [← Option.some.inj done])
  · cases l with
    | panics => cases done
    | eod => exact Or.inr (Or.inl ⟨rfl, by rw [← Option.some.inj done]; rfl⟩)
    | idQueue addr id => exact Or.inl (by rw [← Option.some.inj done]; rfl)
    | idSynch addr id => exact Or.inl (by rw [← Option.some.inj done]; rfl)
    | short => exact Or.inl (by rw [← Option.some.inj done])
    | columns f =>
      obtain ⟨cpu, known, ⟨_, _, rfl⟩ | ⟨_, ⟨_, rfl⟩ | ⟨_, cyc, _, _, s, _, hcyc, _, _, _, rfl⟩⟩⟩ :=
        columns_cases done
      · exact Or.inl rfl
      · exact Or.inl rfl
      · exact Or.inr (Or.inr ⟨f, cpu, cyc, rfl, known, hcyc, rfl⟩)

theorem line_of_entry {r t : Run} {l : Line} {e : Entry} (made : r.entryOf l = some e)
    (done : r.line l = some t) :
    ∃ f cyc, l = .columns f ∧ f.cyc = some cyc ∧ f.cpu.bind cpuOf = some e.cpu ∧
      t.traceState e.cpu = (r.traceState e.cpu).advance cyc ∧
      e.cycles = ((r.traceState e.cpu).advance cyc).cycles := by
  obtain ⟨f, cyc, rfl, going, known, awake, pid, hcyc, cycles⟩ := entry_of_columns made
  refine ⟨f, cyc, rfl, hcyc, known, ?_, cycles⟩
  simp only [Run.line, going, Bool.false_eq_true, if_false] at done
  obtain ⟨cpu, known', rest⟩ := columns_cases done
  obtain rfl : e.cpu = cpu := Option.some.inj (known.symm.trans known')
  rcases rest with ⟨limbo, other, _⟩ | ⟨_, ⟨unreadable, _⟩ | ⟨_, cyc', _, _, s, _, hcyc', _, _, _, rfl⟩⟩
  · rcases awake with awake | switch
    · simp [awake] at limbo
    · exact absurd switch other
  · simp [unreadable] at pid
  · obtain rfl : cyc = cyc' := Option.some.inj (hcyc.symm.trans hcyc')
    simp

theorem line_effect {r t : Run} {l : Line} (done : r.line l = some t) :
    (∃ e, r.entryOf l = some e ∧ handleEvent (r.state.measureLocation e.location) e = some t.state) ∨
    (r.entryOf l = none ∧ l = .eod ∧ r.returned = false ∧ t.state = r.resetOnEOD.state) ∨
    (r.entryOf l = none ∧ ¬ (l = .eod ∧ r.returned = false) ∧ ∃ addr synch,
      t.state = { r.state with addrMap := addr, addrMapSynch := synch }) := by
  unfold Run.line at done
  split at done
  · rename_i returned
    obtain rfl := Option.some.inj done
    refine Or.inr (Or.inr ⟨?_, fun eod => by simp [returned] at eod, _, _, rfl⟩)
    cases l with
    | columns f => simp [Run.entryOf, returned]
    | eod => rfl
    | idQueue => rfl
    | idSynch => rfl
    | short => rfl
    | panics => rfl
  · rename_i going
    cases l with
    | panics => cases done
    | eod => exact Or.inr (Or.inl ⟨rfl, rfl, by simpa using going, by rw [← Option.some.inj done]; rfl⟩)
    | idQueue addr id =>
      exact Or.inr (Or.inr ⟨rfl, by simp, _, _, by rw [← Option.some.inj done]; rfl⟩)
    | idSynch addr id =>
      exact Or.inr (Or.inr ⟨rfl, by simp, _, _, by rw [← Option.some.inj done]; rfl⟩)
    | short => exact Or.inr (Or.inr ⟨rfl, by simp, _, _, by rw [← Option.some.inj done]⟩)
    | columns f =>
      obtain ⟨cpu, known, ⟨limbo, other, rfl⟩ | ⟨awake, ⟨unreadable, rfl⟩ |
        ⟨currentPid, cyc, pid1, pid2, s, hpid, hcyc, hpid1, hpid2, handled, rfl⟩⟩⟩ := columns_cases done
      · refine Or.inr (Or.inr ⟨?_, by simp, _, _, rfl⟩)
        dsimp only at limbo
        simp [Run.entryOf, going, known, limbo, other]
      · refine Or.inr (Or.inr ⟨?_, by simp, _, _, rfl⟩)
        simp [Run.entryOf, going, known, unreadable]
      · have read := read_of_awake awake
        refine Or.inl ⟨_, ?_, handled⟩
        dsimp only at read
        simp [Run.entryOf, going, known, read, hpid, hcyc, hpid1, hpid2]

/-- The rule for one line: what does not depend on the maps of addresses and the longest
    location, and is kept by the reset and by the handlers, is kept by the line. -/
theorem line_rule {P : State → Prop} {r t : Run} {l : Line} (holds : P r.state) (done : r.line l = some t)
    (maps : ∀ s addr synch longest, P s →
      P { s with addrMap := addr, addrMapSynch := synch, longestLocationString := longest })
    (eod : P r.resetOnEOD.state)
    (event : ∀ e s, r.entryOf l = some e → P (r.state.measureLocation e.location) →
      handleEvent (r.state.measureLocation e.location) e = some s → P s) : P t.state := by
  rcases line_effect done with ⟨e, made, handled⟩ | ⟨_, _, _, reset⟩ | ⟨_, _, addr, synch, same⟩
  · exact event e t.state made (maps r.state _ _ _ holds) handled
  · exact reset ▸ eod
  · rw [same]
    exact maps r.state addr synch _ holds

end Analyse
