import SepExtract.AnalyseRun
import SepExtract.DelayScripts

/- Cycle counts against the counters they are read from. A trace line carries the low 32
   bits of its CPU's counter; run, intraosdelay and migrationdelay add up differences of
   those readings. Between two lines of a CPU the sum is the distance of the counters
   exactly when no wrap lies between them. -/
namespace CycleUnwrapping
open GoText WrappingCounter

/-- A line of the trace with the counter its CPU had when it was recorded. -/
structure Stamped where
  text : String
  counter : Int

def texts (t : List Stamped) : List String := t.map Stamped.text

def Carries (x : Stamped) : Prop :=
  ∀ field ∈ (splitWhitespace x.text)[3]?, atoi field = some (x.counter % 4294967296)

def cpuNumber (x : Stamped) : Option Int := (splitWhitespace x.text)[1]?.bind atoi

def MonotonePerCPU (t : List Stamped) : Prop :=
  t.Pairwise fun x y => cpuNumber x = cpuNumber y → (cpuNumber x).isSome = true → x.counter ≤ y.counter

theorem lex_columns {s : String} {f : Analyse.Columns} (lexed : Analyse.lexLine s = .columns f) :
    (splitWhitespace s)[1]?.bind atoi = f.cpu ∧ (splitWhitespace s)[3]?.bind atoi = f.cyc := by
  have made := Analyse.columns_of_lex lexed
  unfold Analyse.columnsLine at made
  split at made
  · rename_i fields
    obtain rfl := Analyse.Line.columns.inj made
    rw [fields]
    exact ⟨rfl, rfl⟩
  · cases made

theorem carried_reading {x : Stamped} {f : Analyse.Columns} {cyc : Int} (carries : Carries x)
    (lexed : Analyse.lexLine x.text = .columns f) (read : f.cyc = some cyc) :
    cyc = x.counter % 4294967296 := by
  have columns := (lex_columns lexed).2
  rw [read, Option.bind_eq_some_iff] at columns
  obtain ⟨field, here, number⟩ := columns
  exact Option.some.inj (number.symm.trans (carries field here))

theorem cpu_of_eq {n : Int} {cpu : Fin 2} (known : Analyse.cpuOf n = some cpu) : n = cpu.val := by
  unfold Analyse.cpuOf at known
  split at known
  · obtain rfl := Option.some.inj known
    simpa
  · split at known
    · obtain rfl := Option.some.inj known
      simpa
    · cases known

theorem cpu_number_of_columns {x : Stamped} {f : Analyse.Columns} {cpu : Fin 2}
    (lexed : Analyse.lexLine x.text = .columns f)
    (known : f.cpu.bind Analyse.cpuOf = some cpu) : cpuNumber x = some (cpu.val : Int) := by
  obtain ⟨n, column, known⟩ := Option.bind_eq_some_iff.mp known
  rw [cpuNumber, (lex_columns lexed).1, column, cpu_of_eq known]

namespace Analyser
open Analyse

def clock (cpu : Fin 2) (r : Run) : Clock := ⟨(r.traceState cpu).cyc, (r.traceState cpu).cycles⟩

theorem clock_advance {cpu : Fin 2} {r : Run} (started : (r.traceState cpu).first = false) (cyc : Int) :
    (⟨((r.traceState cpu).advance cyc).cyc, ((r.traceState cpu).advance cyc).cycles⟩ : Clock) =
      (clock cpu r).advance (4294967296 - 1) cyc := by
  simp [PerCPUTraceState.advance, started, clock, Clock.advance, Analyse.delta]

theorem line_samples (cpu : Fin 2) (r : Run) (x : Stamped) (t : Run)
    (started : (r.traceState cpu).first = false)
    (admitted : Carries x ∧ lexLine x.text ≠ .eod) (done : r.line (lexLine x.text) = some t) :
    (t.traceState cpu).first = false ∧
      (clock cpu t = clock cpu r ∨ cpuNumber x = some (cpu.val : Int) ∧
        clock cpu t = (clock cpu r).advance (4294967296 - 1) (x.counter % 4294967296)) := by
  rcases line_clock done with same | ⟨eod, _⟩ | ⟨f, cpu', cyc, lexed, known, read, moved⟩
  · exact ⟨by rw [same]; exact started, Or.inl (by simp [clock, same])⟩
  · exact absurd eod admitted.2
  · by_cases here : cpu = cpu'
    · subst here
      have reading := carried_reading admitted.1 lexed read
      refine ⟨by simp [moved, PerCPUTraceState.advance], Or.inr ⟨cpu_number_of_columns lexed known, ?_⟩⟩
      rw [← reading, ← clock_advance started]
      simp [clock, moved]
    · have same : t.traceState cpu = r.traceState cpu := by rw [moved, Function.update_of_ne here]
      exact ⟨by rw [same]; exact started, Or.inl (by simp [clock, same])⟩

theorem run_append (before after : List Stamped) :
    run (texts (before ++ after)) =
      (run (texts before)).bind fun r => after.foldlM (fun r x => r.line (lexLine x.text)) r := by
  simp only [run, Run.lines, texts, List.map_append, List.map_map, List.foldlM_append,
    List.foldlM_map, Option.bind_eq_bind]
  rfl

theorem cycles_drift {before between : List Stamped} {a b : Stamped} {ra rb : Run} {ea eb : Entry}
    (carries : ∀ x ∈ a :: (between ++ [b]), Carries x) (monotone : MonotonePerCPU (a :: (between ++ [b])))
    (segment : ∀ x ∈ between, lexLine x.text ≠ .eod)
    (runA : run (texts before) = some ra) (runB : run (texts (before ++ a :: between)) = some rb)
    (madeA : ra.entryOf (lexLine a.text) = some ea) (madeB : rb.entryOf (lexLine b.text) = some eb)
    (cpus : ea.cpu = eb.cpu) :
    Drift 4294967296 a.counter b.counter (eb.cycles - ea.cycles) := by
  rw [run_append, runA, Option.bind_some, List.foldlM_cons, Option.bind_eq_bind,
    Option.bind_eq_some_iff] at runB
  obtain ⟨r, first, rest⟩ := runB
  obtain ⟨f, cyc, lexed, read, known, moved, cycles⟩ := line_of_entry madeA first
  have numberA := cpu_number_of_columns lexed known
  obtain rfl := carried_reading (carries a (by simp)) lexed read
  obtain ⟨g, cycB, lexedB, _, knownB, _, _, readB, cyclesB⟩ := entry_of_columns madeB
  have numberB : cpuNumber b = some (ea.cpu.val : Int) := cpu_number_of_columns lexedB (cpus ▸ knownB)
  obtain rfl := carried_reading (carries b (by simp)) lexedB readB
  obtain ⟨lower, ordered⟩ := List.pairwise_cons.mp monotone
  have started : (r.traceState ea.cpu).first = false := by rw [moved]; rfl
  have begun : Follows 4294967296 a.counter ea.cycles (clock ea.cpu r) a.counter := by
    refine ⟨by simp [clock, moved, PerCPUTraceState.advance], ?_⟩
    have zero : (clock ea.cpu r).cycles - ea.cycles = 0 := by simp [clock, moved, cycles]
    rw [zero]
    exact drift_refl _ _
  obtain ⟨good, now, follows, later⟩ := follows_run (by decide) (line_samples ea.cpu) started begun
    (fun x member same => lower x member (numberA.trans same.symm) (by simp [numberA]))
    (ordered.imp fun order same same' => order (same.trans same'.symm) (by simp [same]))
    (fun x member => ⟨carries x (by simp [member]), segment x member⟩) rest
  have final := (follows_advance (by decide) follows (later numberB)).drift
  rw [← clock_advance good] at final
  rwa [cyclesB, ← cpus]

end Analyser

namespace Scripts
open DelayScripts

theorem reading_cycles {x : Stamped} {cyc : Int} (carries : Carries x)
    (read : reading (splitWhitespace x.text) = .cycles cyc) :
    cyc = x.counter % 4294967296 ∧ cpuNumber x = some 0 := by
  unfold reading at read
  split at read
  · cases read
  · split at read
    · cases read
    · split at read
      · cases read
      · rename_i zero
        split at read
        · cases read
        · rename_i text here
          split at read
          · cases read
          · rename_i n number
            obtain rfl := Reading.cycles.inj read
            refine ⟨Option.some.inj (number.symm.trans (carries text here)), ?_⟩
            have column : (splitWhitespace x.text)[1]? = some "0" := by simpa using zero
            rw [cpuNumber, column]
            decide

section Accumulation
variable {Script : Type} {line : Script → String → Option Script} {clock : Script → Clock}

def Accumulates (line : Script → String → Option Script) (clock : Script → Clock) : Prop :=
  ∀ s text t, line s text = some t →
    match reading (splitWhitespace text) with
    | .cycles cyc => clock t = (clock s).advance 0xFFFFFFFF cyc
    | _ => clock t = clock s

theorem cycles_drift (accumulates : Accumulates line clock) {before between : List Stamped}
    {a b : Stamped} {s0 sa sb : Script} {cycA cycB : Int}
    (carries : ∀ x ∈ a :: (between ++ [b]), Carries x) (monotone : MonotonePerCPU (a :: (between ++ [b])))
    (runA : (texts (before ++ [a])).foldlM line s0 = some sa)
    (runB : (texts (before ++ a :: (between ++ [b]))).foldlM line s0 = some sb)
    (readA : reading (splitWhitespace a.text) = .cycles cycA)
    (readB : reading (splitWhitespace b.text) = .cycles cycB) :
    Drift 4294967296 a.counter b.counter ((clock sb).cycles - (clock sa).cycles) := by
  have joined : before ++ a :: (between ++ [b]) = (before ++ [a]) ++ (between ++ [b]) := by simp
  rw [joined, texts, List.map_append, List.foldlM_append, Option.bind_eq_bind] at runB
  rw [texts] at runA
  rw [runA, Option.bind_some, List.map_append, List.foldlM_append, Option.bind_eq_bind,
    Option.bind_eq_some_iff] at runB
  obtain ⟨s, middle, last⟩ := runB
  have lastStep : line s b.text = some sb := by simpa using last
  rw [List.map_append, List.foldlM_append, Option.bind_eq_bind, Option.bind_eq_some_iff] at runA
  obtain ⟨s1, _, firstStep⟩ := runA
  have firstStep : line s1 a.text = some sa := by simpa using firstStep
  have movedA := accumulates _ _ _ firstStep
  have movedB := accumulates _ _ _ lastStep
  rw [readA] at movedA
  rw [readB] at movedB
  obtain ⟨rfl, numberA⟩ := reading_cycles (carries a (by simp)) readA
  obtain ⟨rfl, numberB⟩ := reading_cycles (carries b (by simp)) readB
  obtain ⟨lower, ordered⟩ := List.pairwise_cons.mp monotone
  have begun : Follows 4294967296 a.counter (clock sa).cycles (clock sa) a.counter := by
    refine ⟨by rw [movedA]; rfl, ?_⟩
    rw [Int.sub_self]
    exact drift_refl _ _
  have steps : ∀ s (x : Stamped) t, True → Carries x → line s x.text = some t → True ∧
      (clock t = clock s ∨ cpuNumber x = some 0 ∧
        clock t = (clock s).advance (4294967296 - 1) (x.counter % 4294967296)) := by
    intro s x t _ carried stepped
    refine ⟨trivial, ?_⟩
    have moved := accumulates s x.text t stepped
    split at moved
    · rename_i cyc read
      obtain ⟨rfl, number⟩ := reading_cycles carried read
      exact Or.inr ⟨number, moved⟩
    · exact Or.inl moved
  rw [List.foldlM_map] at middle
  obtain ⟨_, now, follows, later⟩ := follows_run (by decide) steps trivial begun
    (fun x member same => lower x member (numberA.trans same.symm) (by simp [numberA]))
    (ordered.imp fun order same same' => order (same.trans same'.symm) (by simp [same]))
    (fun x member => carries x (by simp [member])) middle
  have final := (follows_advance (by decide) follows (later numberB)).drift
  rwa [movedB]

end Accumulation

def intraClock (s : IntraOsDelay.Script) : Clock := ⟨s.lastCycles, s.cycles⟩

theorem intra_packet_clock {s t : IntraOsDelay.Script} {eventType seqno : Int}
    (done : s.packet eventType seqno = some t) : intraClock t = intraClock s := by
  simp only [IntraOsDelay.Script.packet, IntraOsDelay.Script.print] at done
  repeat' split at done
  all_goals cases done
  all_goals rfl

theorem intra_accumulates : Accumulates IntraOsDelay.Script.line intraClock := by
  intro s text t done
  simp only [IntraOsDelay.Script.line] at done
  split at done <;> rename_i read <;> rw [read] <;> dsimp only
  · obtain rfl := Option.some.inj done; rfl
  · obtain rfl := Option.some.inj done; rfl
  · cases done
  · obtain rfl := Option.some.inj done; rfl
  · split at done
    · obtain rfl := Option.some.inj done; rfl
    · split at done
      · cases done
      · obtain rfl := Option.some.inj done; rfl
      · exact intra_packet_clock done

def migrationClock (s : MigrationDelay.Script) : Clock := ⟨s.lastCycles, s.cycles⟩

theorem migration_packet_clock (s : MigrationDelay.Script) (eventType seqno : Int) :
    migrationClock (s.packet eventType seqno) = migrationClock s := by
  simp only [MigrationDelay.Script.packet, MigrationDelay.Script.print]
  repeat' split
  all_goals rfl

theorem after_migration_clock {s t : MigrationDelay.Script} {entry : List String}
    (done : s.afterMigration entry = some t) : migrationClock t = migrationClock s := by
  simp only [MigrationDelay.Script.afterMigration] at done
  split at done
  · obtain rfl := Option.some.inj done; rfl
  · split at done
    · obtain rfl := Option.some.inj done; rfl
    · split at done
      · cases done
      · obtain rfl := Option.some.inj done; rfl
      · obtain rfl := Option.some.inj done
        exact migration_packet_clock s _ _

theorem migration_accumulates (pid : Int) :
    Accumulates (MigrationDelay.Script.line pid) migrationClock := by
  intro s text t done
  simp only [MigrationDelay.Script.line] at done
  split at done <;> rename_i read <;> rw [read] <;> dsimp only
  · obtain rfl := Option.some.inj done; rfl
  · obtain rfl := Option.some.inj done; rfl
  · cases done
  · obtain rfl := Option.some.inj done; rfl
  · split at done
    · split at done
      · obtain rfl := Option.some.inj done; rfl
      · split at done
        · obtain rfl := Option.some.inj done; rfl
        · exact after_migration_clock done
    · exact after_migration_clock done

end Scripts

/-- The two lines are entries of one CPU that run hands to its handlers in one segment. -/
structure SameSegment (before between : List Stamped) (a b : Stamped) (ea eb : Analyse.Entry) : Prop where
  first : ∃ r, Analyse.run (texts before) = some r ∧ r.entryOf (Analyse.lexLine a.text) = some ea
  second : ∃ r, Analyse.run (texts (before ++ a :: between)) = some r ∧
    r.entryOf (Analyse.lexLine b.text) = some eb
  cpus : ea.cpu = eb.cpu
  segment : ∀ x ∈ between, Analyse.lexLine x.text ≠ .eod

def Counted (x : Stamped) : Prop := ∃ cyc, DelayScripts.reading (splitWhitespace x.text) = .cycles cyc

/-- Between two lines of one CPU all three programs accumulate the distance of the
    counters if and only if the counters are in the same window of 2^32 values. -/
theorem cycles_exact_iff_same_window (before between : List Stamped) (a b : Stamped)
    (carries : ∀ x ∈ a :: (between ++ [b]), Carries x)
    (monotone : MonotonePerCPU (a :: (between ++ [b]))) :
    (∀ ea eb, SameSegment before between a b ea eb →
      (eb.cycles - ea.cycles = b.counter - a.counter ↔
        a.counter / 4294967296 = b.counter / 4294967296)) ∧
    (Counted a → Counted b →
      (∀ sa sb, DelayScripts.IntraOsDelay.main (texts (before ++ [a])) = some sa →
        DelayScripts.IntraOsDelay.main (texts (before ++ a :: (between ++ [b]))) = some sb →
        (sb.cycles - sa.cycles = b.counter - a.counter ↔
          a.counter / 4294967296 = b.counter / 4294967296)) ∧
      (∀ pid sa sb, DelayScripts.MigrationDelay.main pid (texts (before ++ [a])) = some sa →
        DelayScripts.MigrationDelay.main pid (texts (before ++ a :: (between ++ [b]))) = some sb →
        (sb.cycles - sa.cycles = b.counter - a.counter ↔
          a.counter / 4294967296 = b.counter / 4294967296))) := by
  refine ⟨fun ea eb same => ?_, fun ⟨_, readA⟩ ⟨_, readB⟩ =>
    ⟨fun sa sb runA runB => ?_, fun pid sa sb runA runB => ?_⟩⟩
  · obtain ⟨ra, runA, madeA⟩ := same.first
    obtain ⟨rb, runB, madeB⟩ := same.second
    exact (Analyser.cycles_drift carries monotone same.segment runA runB madeA madeB same.cpus).exact
  · exact (Scripts.cycles_drift Scripts.intra_accumulates carries monotone runA runB readA readB).exact
  · exact (Scripts.cycles_drift (Scripts.migration_accumulates pid) carries monotone runA runB
      readA readB).exact

instance (x : Stamped) : Decidable (Carries x) := by unfold Carries; infer_instance

instance (t : List Stamped) : Decidable (MonotonePerCPU t) := by unfold MonotonePerCPU; infer_instance

def cyclesAfter (before : List Stamped) (x : Stamped) : Option (Fin 2 × Int) :=
  ((Analyse.run (texts before)).bind fun r => r.entryOf (Analyse.lexLine x.text)).map fun e =>
    (e.cpu, e.cycles)

theorem same_segment (before between : List Stamped) (a b : Stamped) (cpu : Fin 2) (m n : Int)
    (first : cyclesAfter before a = some (cpu, m))
    (second : cyclesAfter (before ++ a :: between) b = some (cpu, n))
    (segment : ∀ x ∈ between, Analyse.lexLine x.text ≠ .eod) :
    ∃ ea eb, SameSegment before between a b ea eb ∧ ea.cycles = m ∧ eb.cycles = n := by
  simp only [cyclesAfter, Option.map_eq_some_iff, Option.bind_eq_some_iff, Prod.mk.injEq] at first second
  obtain ⟨ea, madeA, cpuA, cyclesA⟩ := first
  obtain ⟨eb, madeB, cpuB, cyclesB⟩ := second
  exact ⟨ea, eb, ⟨madeA, madeB, cpuA.trans cpuB.symm, segment⟩, cyclesA, cyclesB⟩

def switchAt (counter : Int) : Stamped :=
  ⟨"CTXSW 0 5 " ++ toString (counter % 4294967296) ++ " 5 6 0 0 0", counter⟩

theorem cycles_exact_without_wrap :
    ∃ ea eb, SameSegment [] [switchAt 200] (switchAt 100) (switchAt 350) ea eb ∧
      eb.cycles - ea.cycles = 350 - 100 := by
  obtain ⟨ea, eb, same, _⟩ := same_segment [] [switchAt 200] (switchAt 100) (switchAt 350) 0 0 250
    (by decide +kernel) (by decide +kernel) (by decide +kernel)
  exact ⟨ea, eb, same, ((cycles_exact_iff_same_window [] [switchAt 200] (switchAt 100) (switchAt 350)
    (by decide +kernel) (by decide +kernel)).1 ea eb same).mpr (by decide)⟩

theorem wrap_loses_a_cycle : ¬ ∀ (before between : List Stamped) (a b : Stamped),
    (∀ x ∈ a :: (between ++ [b]), Carries x) → MonotonePerCPU (a :: (between ++ [b])) →
    b.counter - a.counter < 4294967296 → ∀ ea eb, SameSegment before between a b ea eb →
    eb.cycles - ea.cycles = b.counter - a.counter := by
  intro exact
  obtain ⟨ea, eb, same, cyclesA, cyclesB⟩ := same_segment [] [] (switchAt 4294967290) (switchAt 4294967300) 0 0 9
    (by decide +kernel) (by decide +kernel) (by decide +kernel)
  have equal := exact [] [] (switchAt 4294967290) (switchAt 4294967300) (by decide +kernel)
    (by decide +kernel) (by decide) ea eb same
  rw [cyclesA, cyclesB] at equal
  exact absurd equal (by decide)

end CycleUnwrapping
