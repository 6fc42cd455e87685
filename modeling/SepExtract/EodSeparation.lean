import SepExtract.EodSimulation
import SepExtract.InterleavingIndependence

/- An end-of-data mark separates two texts. After the mark the analysis goes on from what the
   first text has left, and records for the second text what it records for it alone, on
   clocks that have moved on; what it has recorded for the first text stays as it is. A loop
   that is stopped on another CPU than the one it has begun on mixes the two clocks. -/
namespace Analyse
open GoText TransitionRuns

/-- Clocks that differ by a constant. The last reading counts only once there is one. -/
structure LaterClock (shift : Int) (a b : PerCPUTraceState) : Prop where
  first : b.first = a.first
  limbo : b.limbo = a.limbo
  cycles : b.cycles = a.cycles + shift
  reading : a.first = false → b.cyc = a.cyc

theorem later_advance {shift : Int} {a b : PerCPUTraceState} (later : LaterClock shift a b) (cyc : Int) :
    LaterClock shift (a.advance cyc) (b.advance cyc) where
  first := rfl
  limbo := rfl
  cycles := by
    simp only [PerCPUTraceState.advance, later.cycles, later.first]
    cases fresh : a.first with
    | true => simp [Int.add_right_comm]
    | false => simp [later.reading fresh, Int.add_right_comm]
  reading _ := rfl

structure LaterRun (π : Prior) (r t : Run) : Prop where
  state : Later π r.state t.state
  clock : ∀ c, LaterClock (π.base c) (r.traceState c) (t.traceState c)
  lines : t.lineNumber = π.lines + r.lineNumber
  going : t.returned = r.returned

variable {π : Prior} {r t : Run}

theorem later_reset (later : LaterRun π r t) : LaterRun π r.resetOnEOD t.resetOnEOD where
  state :=
    { later.state with
      stack := fun _ => rfl
      leu := rfl
      temps := fun _ => rfl
      peu := rfl
      started := by
        intro x start
        cases start
      along := by
        intro x member
        cases member }
  clock c := ⟨rfl, rfl, (later.clock c).cycles, by simp [Run.resetOnEOD]⟩
  lines := later.lines
  going := later.going

theorem later_entry (later : LaterRun π r t) (f : Columns) (c : Fin 2) (pid cyc pid1 pid2 : Int) :
    t.entry f c pid cyc pid1 pid2 = π.read (r.entry f c pid cyc pid1 pid2) := by
  simp only [Run.entry, Columns.entry, Prior.read, (later_advance (later.clock c) cyc).cycles, later.lines,
    Nat.add_assoc]

def LoopsHomeLine (r : Run) (l : Line) : Prop := ∀ e ∈ r.entryOf l, LoopsHome r.state e

instance (r : Run) (l : Line) : Decidable (LoopsHomeLine r l) := by
  unfold LoopsHomeLine
  infer_instance

theorem later_line (later : LaterRun π r t) (sound : Sound true r.state) {l : Line} {q : Run}
    (home : LoopsHomeLine r l) (done : r.line l = some q) : ∃ u, t.line l = some u ∧ LaterRun π q u := by
  cases ended : r.returned with
  | true =>
    have ended' : t.returned = true := later.going.trans ended
    simp only [Run.line, ended, if_true, Option.some.injEq] at done
    exact ⟨t, by simp [Run.line, ended'], done ▸ later⟩
  | false =>
    have going : t.returned = false := later.going.trans ended
    have next : LaterRun π { r with lineNumber := r.lineNumber + 1 } { t with lineNumber := t.lineNumber + 1 } :=
      ⟨later.state, later.clock, by simp [later.lines, Nat.add_assoc], later.going⟩
    have whole := done
    unfold Run.line at done ⊢
    rw [if_neg (by simp [ended])] at done
    rw [if_neg (by simp [going])]
    cases l with
    | panics => cases done
    | eod =>
      obtain rfl := Option.some.inj done
      exact ⟨_, rfl, later_reset next⟩
    | idQueue addr id =>
      obtain rfl := Option.some.inj done
      exact ⟨_, rfl, ⟨{ later.state with }, later.clock, next.lines, later.going⟩⟩
    | idSynch addr id =>
      obtain rfl := Option.some.inj done
      exact ⟨_, rfl, ⟨{ later.state with }, later.clock, next.lines, later.going⟩⟩
    | short =>
      obtain rfl := Option.some.inj done
      exact ⟨_, rfl, next⟩
    | columns f =>
      obtain ⟨c, cpu, rest⟩ := columns_cases done
      have limbo : (t.traceState c).limbo = (r.traceState c).limbo := (later.clock c).limbo
      rcases rest with ⟨asleep, type, rfl⟩ | ⟨awake, ⟨unreadable, rfl⟩ |
        ⟨pid, cyc, pid1, pid2, s, hpid, hcyc, hpid1, hpid2, _, _⟩⟩
      · refine ⟨_, ?_, next⟩
        simp [Run.columns, cpu, limbo, show (r.traceState c).limbo = true from asleep, type]
      · refine ⟨{ t with lineNumber := t.lineNumber + 1, returned := true }, ?_,
          ⟨next.state, next.clock, next.lines, rfl⟩⟩
        have read := read_of_awake awake
        rw [← limbo] at read
        simp [Run.columns, cpu, read, unreadable]
      · have read : ¬ ((r.traceState c).limbo = true ∧ f.eventType ≠ .ctxsw) := read_of_awake awake
        have read' := read
        rw [← limbo] at read'
        obtain ⟨made, here⟩ := line_event ended cpu hpid hcyc hpid1 hpid2 read
        obtain ⟨_, there⟩ := line_event going cpu hpid hcyc hpid1 hpid2 read'
        rw [here] at whole
        obtain ⟨s, handled, rfl⟩ := Option.map_eq_some_iff.mp whole
        have measured : Later π (r.state.measureLocation f.location) (t.state.measureLocation f.location) :=
          { later.state with }
        obtain ⟨u, handled', later'⟩ := forward_handle (e := r.entry f c pid cyc pid1 pid2) measured
          (sound_measure sound f.location) (home _ made) s handled
        refine ⟨t.after c cyc u, ?_, ⟨later', fun d => ?_, next.lines, later.going⟩⟩
        · rw [later_entry later, handled'] at there
          rw [Run.line, if_neg (by simp [going])] at there
          exact there
        · by_cases same : d = c
          · subst same
            simpa [Run.after] using later_advance (later.clock d) cyc
          · simpa [Run.after, same] using later.clock d

theorem later_lines {ls : List Line} {q : Run} (later : LaterRun π r t) (sound : Sound true r.state)
    (home : Guarded Run.line LoopsHomeLine r ls) (done : r.lines ls = some q) :
    ∃ u, t.lines ls = some u ∧ LaterRun π q u := by
  induction ls generalizing r t with
  | nil =>
    obtain rfl := Option.some.inj done
    exact ⟨t, rfl, later⟩
  | cons l ls ih =>
    rw [lines_cons] at done
    obtain ⟨s, first, rest⟩ := Option.bind_eq_some_iff.mp done
    obtain ⟨u, first', later'⟩ := later_line later sound home.1 first
    have sound' := sound_line sound (fun _ e made => loops_restart (home.1 e made)) first
    obtain ⟨v, rest', later''⟩ := ih later' sound' (home.2 s first) rest
    exact ⟨v, by rw [lines_cons, first']; exact rest', later''⟩

def Run.records (r : Run) (l : LEU) (n : String) : List (List Entry) :=
  (r.state.instances l n).map fun i => i.entries.map r.state.deref

def Run.prior (r : Run) : Prior where
  heap := r.state.heap
  interrupted := r.state.interrupted
  stored := r.state.instances
  ids := r.state.tempVarId
  base := fun c => (r.traceState c).cycles
  lines := r.lineNumber + 1

/-- The entry as it is recorded behind an earlier text: the clock of its CPU, the lines and the
    variables go on from there. -/
def Entry.behind (r : Run) (e : Entry) : Entry :=
  { e with
    cycles := e.cycles + (r.traceState e.cpu).cycles
    lineNr := r.lineNumber + 1 + e.lineNr
    tempVarId := if e.eventType = .tempsynch then r.state.tempVarId + e.tempVarId else e.tempVarId }

theorem later_initial (π : Prior) (m : State) (heap : m.heap = π.heap) (stack : m.serviceStack = fun _ => none)
    (leu : m.currentLEU = fun _ => .nobody) (aside : m.interrupted = π.interrupted)
    (stored : m.instances = π.stored) (temps : m.tempVars = fun _ => none) (ids : m.tempVarId = π.ids)
    (peu : m.currentPEU = ⟨none, []⟩) : Later π .initial m where
  sized c := by simp [heap, State.initial]
  kept r _ := by simp [State.deref, Prior.deref, heap]
  shifted r valid := absurd valid (by simp [State.Valid, State.initial])
  cpus r := by simp [State.deref, State.initial, Entry.blank]
  stack c := by simp [stack, State.initial]
  leu := leu
  aside := by simp [aside, State.initial]
  instances l n := by
    rw [stored]
    simp [State.instances, State.initial]
  known l here := by cases here
  last r same := by cases same
  temps v := by simp [temps, State.initial]
  ids := by simp [ids, State.initial]
  peu := peu
  started r same := by cases same
  along r member := by cases member

theorem later_after_mark {r q : Run} (going : r.returned = false) (marked : r.line .eod = some q) :
    LaterRun r.prior .initial q := by
  rw [Run.line, if_neg (by simp [going])] at marked
  obtain rfl := Option.some.inj marked
  exact
    { state := later_initial _ _ rfl rfl rfl rfl rfl rfl rfl rfl
      clock := fun c => ⟨rfl, rfl, by simp [Run.resetOnEOD, Run.initial, Run.prior, PerCPUTraceState.initial],
        by simp [Run.initial, PerCPUTraceState.initial]⟩
      lines := rfl
      going := going }

def Line.Readable : Line → Prop
  | .columns f => f.currentPid.isSome
  | _ => True

instance : (l : Line) → Decidable l.Readable
  | .columns f => inferInstanceAs (Decidable (f.currentPid.isSome = true))
  | .eod | .idQueue _ _ | .idSynch _ _ | .short | .panics => isTrue trivial

theorem going_line {r t : Run} {l : Line} (going : r.returned = false) (readable : l.Readable)
    (done : r.line l = some t) : t.returned = false := by
  rw [Run.line, if_neg (by simp [going])] at done
  cases l with
  | panics => cases done
  | eod | short | idQueue | idSynch => exact Option.some.inj done ▸ going
  | columns f =>
    obtain ⟨c, _, ⟨_, _, rfl⟩ | ⟨_, ⟨unreadable, _⟩ | ⟨_, _, _, _, s, _, _, _, _, _, rfl⟩⟩⟩ := columns_cases done
    · exact going
    · simp [Line.Readable, unreadable] at readable
    · exact going

theorem going_lines {ls : List Line} {r t : Run} (going : r.returned = false) (readable : ∀ l ∈ ls, l.Readable)
    (done : r.lines ls = some t) : t.returned = false := by
  induction ls generalizing r with
  | nil => exact Option.some.inj done ▸ going
  | cons l ls ih =>
    rw [lines_cons] at done
    obtain ⟨s, first, rest⟩ := Option.bind_eq_some_iff.mp done
    exact ih (going_line going (readable l (List.mem_cons_self ..)) first)
      (fun k member => readable k (List.mem_cons_of_mem l member)) rest

theorem later_records {r t : Run} (later : LaterRun π r t) (sound : Sound false r.state)
    (valid : ∀ l n, ∀ i ∈ π.stored l n, ∀ x ∈ i.entries, x.index < (π.heap x.cpu).length) (l : LEU) (n : String) :
    t.records l n = (π.stored l n).map (fun i => i.entries.map π.deref) ++ (r.records l n).map (List.map π.entry) := by
  rw [Run.records, later.state.instances, List.map_append, List.map_map]
  congr 1
  · refine List.map_congr_left fun i member => List.map_congr_left fun x inside => ?_
    exact later.state.kept x (valid l n i member x inside)
  · rw [Run.records, List.map_map]
    refine List.map_congr_left fun i member => ?_
    simp only [Function.comp_apply, Prior.case, List.map_map]
    refine List.map_congr_left fun x inside => ?_
    exact later.state.shifted x (valid_instance sound member inside)

/-- An end-of-data mark separates: the records of both texts stand side by side. Those of the
    first text are as they were, those of the second are those of the second text alone with one
    constant added to the cycles of each CPU, provided its loops stay on the CPU they begin on. -/
theorem eod_separates {t₁ t₂ : List String} {mark : String} {r₁ r₂ : Run}
    (readable : ∀ l ∈ t₁.map lexLine, l.Readable) (eod : lexLine mark = .eod)
    (first : run t₁ = some r₁) (second : run t₂ = some r₂)
    (home : Guarded Run.line LoopsHomeLine .initial (t₂.map lexLine)) :
    ∃ r, run (t₁ ++ mark :: t₂) = some r ∧
      ∀ l n, r.records l n = r₁.records l n ++ (r₂.records l n).map (List.map (Entry.behind r₁)) := by
  have going := going_lines rfl readable first
  have sound₁ : Sound false r₁.state := sound_run sound_initial first
  obtain ⟨s, marked⟩ : ∃ s, r₁.line .eod = some s := by simp [Run.line, going]
  obtain ⟨r, there, after⟩ := later_lines (later_after_mark going marked) sound_initial home second
  refine ⟨r, ?_, fun l n => ?_⟩
  · unfold run at first ⊢
    rw [List.map_append, Run.lines, List.foldlM_append]
    unfold Run.lines at first there
    rw [first, List.map_cons, eod]
    simp only [Option.bind_eq_bind, Option.bind_some, List.foldlM_cons, marked, there]
  · exact later_records after (sound_run sound_initial second)
      (fun l n i member x inside => valid_instance sound₁ member inside) l n

def brokenOff : List String :=
  ["CTXSW 0 1 1 1 2 0 0 a", "SRVENTRY 0 1 2 0 0 0 g a", "SRVEXIT 0 1 5 0 0 0 g a",
   "SRVENTRY 0 1 6 0 0 0 f a", "HIRQENTRY 0 1 8 5 0 0 0 a"]

def takenUp : List String :=
  ["HIRQEXIT 0 1 90 5 0 0 0 a", "SRVEXIT 0 1 91 0 0 0 f a", "CTXSW 0 1 92 1 2 0 0 a",
   "SRVENTRY 0 1 93 0 0 0 f a", "HIRQENTRY 0 1 94 5 0 0 0 a", "HIRQEXIT 0 1 95 5 0 0 0 a",
   "SRVEXIT 0 1 97 0 0 0 f a"]

theorem eod_separates_inside_interrupt : ∃ r₁ r₂ r, run brokenOff = some r₁ ∧ run takenUp = some r₂ ∧
    r₁.state.interrupted = [.thread 2] ∧ run (brokenOff ++ "EOD" :: takenUp) = some r ∧
    r.records (.thread 2) "f" =
      r₁.records (.thread 2) "f" ++ (r₂.records (.thread 2) "f").map (List.map (Entry.behind r₁)) ∧
    (r₂.records (.thread 2) "f").length = 1 := by
  have before : ∀ l ∈ brokenOff.map lexLine, l.Readable := by decide +kernel
  have home : Guarded Run.line LoopsHomeLine .initial (takenUp.map lexLine) := by decide +kernel
  obtain ⟨r₁, first⟩ := Option.isSome_iff_exists.mp (by decide +kernel : (run brokenOff).isSome)
  obtain ⟨r₂, second⟩ := Option.isSome_iff_exists.mp (by decide +kernel : (run takenUp).isSome)
  have inside : ∀ r ∈ run brokenOff, r.state.interrupted = [.thread 2] := by decide +kernel
  have stored : ∀ r ∈ run takenUp, (r.records (.thread 2) "f").length = 1 := by decide +kernel
  obtain ⟨r, whole, records⟩ := eod_separates before (by decide +kernel : lexLine "EOD" = .eod) first second home
  exact ⟨r₁, r₂, r, first, second, inside r₁ first, whole, records (.thread 2) "f", stored r₂ second⟩

def Entry.apart (e : Entry) : Entry := { e with lineNr := 0, tempVarId := 0 }

def Entry.shifted (shift : Fin 2 → Int) (e : Entry) : Entry := { e with cycles := e.cycles + shift e.cpu }

def shortText : List String := ["CTXSW 0 1 1 1 2 0 0 a", "SRVENTRY 0 2 5 0 0 0 f a"]

def migratedLoop : List String :=
  ["CTXSW 0 1 1 1 2 0 0 a", "CTXSW 1 1 1 1 3 0 0 a", "SRVENTRY 0 2 2 0 0 0 f a", "LOOPSTART 0 2 3 0 0 0 b l",
   "LOOPRSTART 0 2 4 0 0 0 b l", "CTXSW 0 2 5 2 4 0 0 a", "MIGRATE 0 4 6 2 1 0 0 0", "CTXSW 1 3 7 3 2 0 0 a",
   "LOOPSTOP 1 2 9 0 0 0 b l"]

/-- A complete line that is no end-of-data mark and no event of an interrupt. -/
def Line.uninterrupted : Line → Bool
  | .columns f => f.currentPid.isSome && f.eventType != .hirqentry && f.eventType != .hirqexit
  | _ => false

/-- The iteration stored by the stop ends with an entry of CPU 0 that has the cycles of CPU 1, and only
    the clock of CPU 0 has moved on in the first text: no constant for CPU 0 fits both ends. -/
theorem migrated_loop_mixes_clocks : ¬ ∀ (t₁ t₂ : List String) (r₁ r₂ r : Run),
    (∀ l ∈ (t₁ ++ t₂).map lexLine, l.uninterrupted) → run t₁ = some r₁ → run t₂ = some r₂ →
    run (t₁ ++ "EOD" :: t₂) = some r → ∃ shift : Fin 2 → Int, ∀ l n,
      ((r.records l n).map (List.map Entry.apart)).Perm
        ((r₁.records l n ++ (r₂.records l n).map (List.map (Entry.shifted shift))).map (List.map Entry.apart)) := by
  intro separates
  obtain ⟨r₁, first⟩ := Option.isSome_iff_exists.mp (by decide +kernel : (run shortText).isSome)
  obtain ⟨r₂, second⟩ := Option.isSome_iff_exists.mp (by decide +kernel : (run migratedLoop).isSome)
  obtain ⟨r, whole⟩ := Option.isSome_iff_exists.mp
    (by decide +kernel : (run (shortText ++ "EOD" :: migratedLoop)).isSome)
  have nothing : ∀ r ∈ run shortText, r.records (.thread 2) "l" = [] := by decide +kernel
  have alone : ∀ r ∈ run migratedLoop, (r.records (.thread 2) "l").map (List.map fun e => (e.cpu, e.cycles)) =
      [[(0, 3), (0, 4), (1, 6), (0, 8)]] := by decide +kernel
  have behind : ∀ r ∈ run (shortText ++ "EOD" :: migratedLoop),
      (r.records (.thread 2) "l").map (List.map Entry.cycles) = [[7, 8, 6, 8]] := by decide +kernel
  have complete : ∀ l ∈ (shortText ++ migratedLoop).map lexLine, l.uninterrupted := by decide +kernel
  obtain ⟨shift, same⟩ := separates _ _ r₁ r₂ r complete first second whole
  have cycles := (same (.thread 2) "l").map (List.map Entry.cycles)
  have shifted := congrArg (List.map (List.map fun x : Fin 2 × Int => x.2 + shift x.1)) (alone r₂ second)
  simp only [List.map_map, Function.comp_def, nothing r₁ first, List.nil_append, Entry.apart, Entry.shifted]
    at cycles shifted
  rw [behind r whole, shifted] at cycles
  simp at cycles
  omega

end Analyse
