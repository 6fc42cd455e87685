import SepExtract.CpuLocality
import SepExtract.TraceExecution

/- Two traces that merge the lines of the same two CPUs. The analysis of a merge is compared
   with the analysis of each CPU's lines alone, so two merges are compared through these. -/
namespace Analyse
open Nesting

def Line.cpu : Line → Option (Fin 2)
  | .columns f => f.cpu.bind cpuOf
  | _ => none

def ofCPU (c : Fin 2) (ls : List Line) : List Line := ls.filter fun l => decide (l.cpu = some c)

/-- A readable event about LEUs of its own CPU, or a line that carries no event. -/
def Line.Fits (own : LEU → Fin 2) : Line → Prop
  | .columns f => ∃ c, Line.OnCPU c (.columns f) ∧ f.eventType ∉ [.migrate, .tempsynch, .peustart] ∧
      (f.eventType = .ctxsw → ∀ pid ∈ f.pid2, own (.thread pid) = c) ∧
      (f.eventType = .hirqentry → ∀ nr ∈ f.pid1, own (.hardwareInterrupt nr) = c)
  | .idQueue _ _ | .idSynch _ _ | .short => True
  | .eod | .panics => False

instance (own : LEU → Fin 2) : (l : Line) → Decidable (l.Fits own)
  | .columns _ => by unfold Line.Fits; infer_instance
  | .idQueue _ _ | .idSynch _ _ | .short => isTrue trivial
  | .eod | .panics => isFalse id

def SharedOwn (own : LEU → Fin 2) (r : Run) (l : Line) : Prop :=
  ∀ e ∈ r.entryOf l, ReadsOwn own r.state e

instance (own : LEU → Fin 2) (r : Run) (l : Line) : Decidable (SharedOwn own r l) := by
  unfold SharedOwn
  infer_instance

def Run.recorded (r : Run) (l : LEU) (n : String) : List (List Entry) :=
  (r.state.instances l n).map fun i => i.entries.map fun x => (r.state.deref x).unnumbered

variable {own : LEU → Fin 2} {c : Fin 2}

structure Agree (own : LEU → Fin 2) (c : Fin 2) (r p : Run) : Prop where
  state : Alike own c r.state p.state
  clock : r.traceState c = p.traceState c
  going : r.returned = false ∧ p.returned = false
  home : (r.traceState c).limbo = false → own (r.state.currentLEU c) = c

theorem agree_initial (own : LEU → Fin 2) (c : Fin 2) : Agree own c .initial .initial where
  state := by
    refine ⟨rfl, ?_, rfl, ?_, rfl, rfl, fun _ _ => rfl, ?_, ?_, ⟨fun _ => rfl, fun _ => rfl⟩, rfl, rfl⟩
    · intro e member
      cases member
    · intro l elem member
      cases member
    · intro l _ n i member
      cases member
    · intro r _ same
      cases same
  clock := rfl
  going := ⟨rfl, rfl⟩
  home awake := by cases awake

theorem lines_cons (r : Run) (l : Line) (ls : List Line) :
    r.lines (l :: ls) = (r.line l).bind fun t => t.lines ls := rfl

theorem line_idle {r : Run} {l : Line} (fits : l.Fits own) (cpu : l.cpu = none) (going : r.returned = false) :
    ∃ t, r.line l = some t ∧ ∀ d p, Agree own d r p → Agree own d t p := by
  cases l with
  | panics => cases fits
  | eod => cases fits
  | columns f =>
    obtain ⟨c, line, _⟩ := fits
    cases cpu.symm.trans line.1
  | short =>
    exact ⟨{ r with lineNumber := r.lineNumber + 1 }, by simp [Run.line, going],
      fun d p agree => ⟨{ agree.state with }, agree.clock, agree.going, agree.home⟩⟩
  | idQueue addr id =>
    exact ⟨{ r with lineNumber := r.lineNumber + 1 }.setAddr addr id, by simp [Run.line, going],
      fun d p agree => ⟨{ agree.state with }, agree.clock, agree.going, agree.home⟩⟩
  | idSynch addr id =>
    exact ⟨{ r with lineNumber := r.lineNumber + 1 }.setAddrSynch addr id, by simp [Run.line, going],
      fun d p agree => ⟨{ agree.state with }, agree.clock, agree.going, agree.home⟩⟩

def Run.after (r : Run) (c : Fin 2) (cyc : Int) (s : State) : Run :=
  { r with
    traceState := Function.update r.traceState c ((r.traceState c).advance cyc)
    state := s
    lineNumber := r.lineNumber + 1 }

def Run.entry (r : Run) (f : Columns) (c : Fin 2) (pid cyc pid1 pid2 : Int) : Entry :=
  f.entry c pid pid1 pid2 ((r.traceState c).advance cyc).cycles (r.lineNumber + 1)

theorem line_event {r : Run} {f : Columns} {pid cyc pid1 pid2 : Int} (going : r.returned = false)
    (cpu : f.cpu.bind cpuOf = some c) (hpid : f.currentPid = some pid) (hcyc : f.cyc = some cyc)
    (hpid1 : f.pid1 = some pid1) (hpid2 : f.pid2 = some pid2)
    (awake : ¬ ((r.traceState c).limbo = true ∧ f.eventType ≠ .ctxsw)) :
    r.entryOf (.columns f) = some (r.entry f c pid cyc pid1 pid2) ∧
    r.line (.columns f) = (handleEvent (r.state.measureLocation f.location)
      (r.entry f c pid cyc pid1 pid2)).map (r.after c cyc) := by
  constructor
  · simp [Run.entryOf, going, cpu, awake, hpid, hcyc, hpid1, hpid2, Run.entry]
  · simp only [Run.line, going, Bool.false_eq_true, if_false, Run.columns, cpu, awake, hpid, hcyc, hpid1, hpid2,
      bind, Option.bind_some]
    have location : (r.entry f c pid cyc pid1 pid2).location = f.location := rfl
    change ((handleEvent (r.state.measureLocation (r.entry f c pid cyc pid1 pid2).location)
      (r.entry f c pid cyc pid1 pid2)).bind _) = _
    rw [location]
    cases handleEvent (r.state.measureLocation f.location) (r.entry f c pid cyc pid1 pid2) with
    | none => rfl
    | some s => simp [Run.after, going]

theorem line_agree {r p : Run} {l : Line} (agree : Agree own c r p) (fits : l.Fits own) (cpu : l.cpu = some c)
    (shared : SharedOwn own r l) :
    (r.line l = none ∧ p.line l = none) ∨
    ∃ t q, r.line l = some t ∧ p.line l = some q ∧ Agree own c t q ∧
      ∀ d, d ≠ c → ∀ u, Agree own d r u → Agree own d t u := by
  cases l with
  | columns f =>
    obtain ⟨c', ⟨known, hpid, hcyc, hpid1, hpid2⟩, kind, next, taken⟩ := fits
    obtain rfl : c = c' := Option.some.inj (cpu.symm.trans known)
    obtain ⟨pid, hpid⟩ := Option.isSome_iff_exists.mp hpid
    obtain ⟨cyc, hcyc⟩ := Option.isSome_iff_exists.mp hcyc
    obtain ⟨pid1, hpid1⟩ := Option.isSome_iff_exists.mp hpid1
    obtain ⟨pid2, hpid2⟩ := Option.isSome_iff_exists.mp hpid2
    by_cases skipped : (r.traceState c).limbo = true ∧ f.eventType ≠ .ctxsw
    · have skipped' := skipped
      rw [agree.clock] at skipped'
      refine Or.inr ⟨{ r with lineNumber := r.lineNumber + 1 }, { p with lineNumber := p.lineNumber + 1 }, ?_, ?_,
        ⟨{ agree.state with }, agree.clock, agree.going, agree.home⟩,
        fun d _ u agree => ⟨{ agree.state with }, agree.clock, agree.going, agree.home⟩⟩
      · simp [Run.line, agree.going.1, Run.columns, known, skipped]
      · simp [Run.line, agree.going.2, Run.columns, known, skipped']
    · have awake := skipped
      rw [agree.clock] at awake
      obtain ⟨made, here⟩ := line_event agree.going.1 known hpid hcyc hpid1 hpid2 skipped
      obtain ⟨_, there⟩ := line_event agree.going.2 known hpid hcyc hpid1 hpid2 awake
      have renumbered : p.entry f c pid cyc pid1 pid2 =
          (r.entry f c pid cyc pid1 pid2).renumber (p.lineNumber + 1) := by
        simp only [Run.entry, agree.clock]
        rfl
      have reads := shared _ made
      have measured : Alike own c (r.state.measureLocation f.location) (p.state.measureLocation f.location) :=
        { agree.state with }
      have both := both_handle (e := r.entry f c pid cyc pid1 pid2) (n := p.lineNumber + 1) measured
        ⟨by simpa [Run.entry, Columns.entry] using kind, fun switch => next switch pid2 hpid2,
          fun irq => taken irq pid1 hpid1⟩
        ⟨reads.back, reads.latest⟩
        fun other => agree.home (by
          by_contra limbo
          exact skipped ⟨by simpa using limbo, other⟩)
      rw [here, there, renumbered]
      generalize handleEvent (r.state.measureLocation f.location) (r.entry f c pid cyc pid1 pid2) = x at both
      generalize handleEvent (p.state.measureLocation f.location) _ = y at both
      cases both with
      | none => exact Or.inl ⟨rfl, rfl⟩
      | some moved mine =>
        refine Or.inr ⟨_, _, rfl, rfl, ⟨moved.alike, ?_, agree.going, fun _ => mine⟩, ?_⟩
        · simp [Run.after, agree.clock]
        · intro d other u agree
          have frame := moved.elsewhere
          have away : Alike own d (r.state.measureLocation f.location) u.state := { agree.state with }
          refine ⟨alike_elsewhere away frame other, ?_, agree.going, ?_⟩
          · simp [Run.after, other, agree.clock]
          · intro awake
            have same : (r.traceState d).limbo = false := by simpa [Run.after, other] using awake
            rw [Run.after, frame.leu d other]
            exact agree.home same
  | panics => cases cpu
  | eod => cases cpu
  | short => cases cpu
  | idQueue addr id => cases cpu
  | idSynch addr id => cases cpu

/-- A merge panics exactly when one of the CPUs alone does, and agrees with each of them. -/
theorem merge_agrees {ls : List Line} {r : Run} {p : Fin 2 → Run} (agree : ∀ c, Agree own c r (p c))
    (fits : ∀ l ∈ ls, l.Fits own) (shared : TransitionRuns.Guarded Run.line (SharedOwn own) r ls) :
    (r.lines ls = none ∧ ∃ c, (p c).lines (ofCPU c ls) = none) ∨
    ∃ (t : Run) (q : Fin 2 → Run), r.lines ls = some t ∧
      ∀ c, (p c).lines (ofCPU c ls) = some (q c) ∧ Agree own c t (q c) := by
  induction ls generalizing r p with
  | nil => exact Or.inr ⟨r, p, rfl, fun c => ⟨rfl, agree c⟩⟩
  | cons l ls ih =>
    have first := fits l (List.mem_cons_self ..)
    have later : ∀ k ∈ ls, k.Fits own := fun k member => fits k (List.mem_cons_of_mem l member)
    cases cpu : l.cpu with
    | none =>
      obtain ⟨t, done, kept⟩ := line_idle first cpu (agree 0).going.1
      have skip : ∀ c, ofCPU c (l :: ls) = ofCPU c ls := fun c => by simp [ofCPU, cpu]
      simp only [lines_cons, done, Option.bind_some, skip]
      exact ih (fun c => kept c (p c) (agree c)) later (shared.2 t done)
    | some c =>
      have own_lines : ofCPU c (l :: ls) = l :: ofCPU c ls := by simp [ofCPU, cpu]
      have other_lines : ∀ d, d ≠ c → ofCPU d (l :: ls) = ofCPU d ls := fun d other => by
        simp [ofCPU, cpu, Ne.symm other]
      rcases line_agree (agree c) first cpu shared.1 with ⟨here, there⟩ | ⟨t, q, here, there, agree', kept⟩
      · refine Or.inl ⟨by rw [lines_cons, here]; rfl, c, ?_⟩
        rw [own_lines, lines_cons, there]
        rfl
      · have step : ∀ d, (Function.update p c q d).lines (ofCPU d ls) = (p d).lines (ofCPU d (l :: ls)) := by
          intro d
          by_cases same : d = c
          · subst same
            rw [own_lines, lines_cons, there]
            simp
          · rw [other_lines d same]
            simp [same]
        have next : ∀ d, Agree own d t (Function.update p c q d) := by
          intro d
          by_cases same : d = c
          · subst same
            simpa using agree'
          · simpa [same] using kept d same (p d) (agree d)
        have rest := ih next later (shared.2 t here)
        simp only [step] at rest
        rw [lines_cons, here]
        exact rest

theorem recorded_agree {r p : Run} {l : LEU} (agree : Agree own (own l) r p) (n : String) :
    r.recorded l n = p.recorded l n := by
  have same : r.state.instances l n = p.state.instances l n := by
    simp only [State.instances, agree.state.leus l rfl]
  unfold Run.recorded
  rw [← same]
  refine List.map_congr_left fun i member => List.map_congr_left fun x inside => ?_
  exact alike_deref agree.state (agree.state.stored l rfl n i member x inside)

/-- Two merges of the same two traces record the same, and panic in the same cases, when every
    interrupt exit and every further packet extract finds its own CPU's data in the shared state. -/
theorem merges_recorded_alike {a b : List String} (fits : ∀ l ∈ a.map lexLine, l.Fits own)
    (fits' : ∀ l ∈ b.map lexLine, l.Fits own)
    (same : ∀ c, ofCPU c (a.map lexLine) = ofCPU c (b.map lexLine))
    (shared : TransitionRuns.Guarded Run.line (SharedOwn own) .initial (a.map lexLine))
    (shared' : TransitionRuns.Guarded Run.line (SharedOwn own) .initial (b.map lexLine)) :
    (run a).map Run.recorded = (run b).map Run.recorded ∧
      ((run a).isSome ↔ ∀ c, (Run.initial.lines (ofCPU c (a.map lexLine))).isSome) := by
  unfold run
  rcases merge_agrees (agree_initial own) fits shared with ⟨here, c, alone⟩ | ⟨t, q, here, alone⟩
  · have fails : ¬ ∀ c, (Run.initial.lines (ofCPU c (a.map lexLine))).isSome := fun all => by
      simpa [alone] using all c
    refine ⟨?_, by simp [here, fails]⟩
    rcases merge_agrees (agree_initial own) fits' shared' with ⟨there, _⟩ | ⟨_, q, _, alone'⟩
    · rw [here, there]
    · rw [same c, (alone' c).1] at alone
      cases alone
  · refine ⟨?_, by simp [here, fun c => (alone c).1]⟩
    rcases merge_agrees (agree_initial own) fits' shared' with ⟨_, c, alone'⟩ | ⟨u, q', there, alone'⟩
    · rw [← same c, (alone c).1] at alone'
      cases alone'
    · rw [here, there]
      refine congrArg some (funext fun l => funext fun n => ?_)
      have alone_same : q (own l) = q' (own l) := by
        have equal := (alone (own l)).1
        rw [same, (alone' (own l)).1] at equal
        exact (Option.some.inj equal).symm
      rw [recorded_agree (alone (own l)).2, recorded_agree (alone' (own l)).2, alone_same]

def twoCPUs : LEU → Fin 2
  | .thread 3 | .hardwareInterrupt 6 => ⟨1, Nat.one_lt_two⟩
  | _ => ⟨0, Nat.zero_lt_two⟩

def sequential : List String :=
  ["CTXSW 0 1 1 1 2 0 0 a", "SRVENTRY 0 1 2 0 0 0 f a", "HIRQENTRY 0 1 3 5 0 0 0 a",
   "HIRQEXIT 0 1 4 5 0 0 0 a", "SRVEXIT 0 1 5 0 0 0 f a",
   "CTXSW 1 1 1 1 3 0 0 a", "HIRQENTRY 1 1 2 6 0 0 0 a", "HIRQEXIT 1 1 3 6 0 0 0 a"]

def inTurn : List String :=
  ["CTXSW 0 1 1 1 2 0 0 a", "CTXSW 1 1 1 1 3 0 0 a", "SRVENTRY 0 1 2 0 0 0 f a",
   "HIRQENTRY 1 1 2 6 0 0 0 a", "HIRQEXIT 1 1 3 6 0 0 0 a",
   "HIRQENTRY 0 1 3 5 0 0 0 a", "HIRQEXIT 0 1 4 5 0 0 0 a", "SRVEXIT 0 1 5 0 0 0 f a"]

def overlapping : List String :=
  ["CTXSW 0 1 1 1 2 0 0 a", "CTXSW 1 1 1 1 3 0 0 a", "SRVENTRY 0 1 2 0 0 0 f a",
   "HIRQENTRY 0 1 3 5 0 0 0 a", "HIRQENTRY 1 1 2 6 0 0 0 a",
   "HIRQEXIT 0 1 4 5 0 0 0 a", "HIRQEXIT 1 1 3 6 0 0 0 a", "SRVEXIT 0 1 5 0 0 0 f a"]

theorem merges_recorded_alike_in_turn :
    (run sequential).map Run.recorded = (run inTurn).map Run.recorded ∧
      ((run sequential).isSome ↔ ∀ c, (Run.initial.lines (ofCPU c (sequential.map lexLine))).isSome) := by
  have all : (∀ l ∈ sequential.map lexLine, l.Fits twoCPUs) ∧ (∀ l ∈ inTurn.map lexLine, l.Fits twoCPUs) ∧
      (∀ c, ofCPU c (sequential.map lexLine) = ofCPU c (inTurn.map lexLine)) ∧
      TransitionRuns.Guarded Run.line (SharedOwn twoCPUs) .initial (sequential.map lexLine) ∧
      TransitionRuns.Guarded Run.line (SharedOwn twoCPUs) .initial (inTurn.map lexLine) := by
    decide +kernel
  exact merges_recorded_alike all.1 all.2.1 all.2.2.1 all.2.2.2.1 all.2.2.2.2

/-- In the overlapping merge the exit on CPU 0 takes over the thread that CPU 1 has put aside,
    and the service is never stored. -/
theorem overlapping_interrupts_lose_a_service : ¬ ∀ (own : LEU → Fin 2) (a b : List String),
    (∀ l ∈ a.map lexLine, l.Fits own) → (∀ l ∈ b.map lexLine, l.Fits own) →
    (∀ c, ofCPU c (a.map lexLine) = ofCPU c (b.map lexLine)) →
    (∀ c, WellFormed (entriesOf c (ofCPU c (a.map lexLine)))) →
    (run a).map Run.recorded = (run b).map Run.recorded := by
  intro every
  have all : (∀ l ∈ sequential.map lexLine, l.Fits twoCPUs) ∧ (∀ l ∈ overlapping.map lexLine, l.Fits twoCPUs) ∧
      (∀ c, ofCPU c (sequential.map lexLine) = ofCPU c (overlapping.map lexLine)) ∧
      (∀ c, ∀ l ∈ (leusOf (entriesOf c (ofCPU c (sequential.map lexLine)))).dedup,
        check [] ((execution (entriesOf c (ofCPU c (sequential.map lexLine)))).word l) = some []) ∧
      (∀ c, TransitionRuns.Guarded (fun x e => some (x.step e)) Orderly .initial
        (entriesOf c (ofCPU c (sequential.map lexLine)))) := by
    decide +kernel
  have equal := every twoCPUs sequential overlapping all.1 all.2.1 all.2.2.1
    fun c => ⟨nested_of_check (all.2.2.2.1 c), all.2.2.2.2 c⟩
  have counts : ((run sequential).map Run.recorded).map (fun f => (f (.thread 2) "f").length) = some 1 ∧
      ((run overlapping).map Run.recorded).map (fun f => (f (.thread 2) "f").length) = some 0 := by
    decide +kernel
  rw [equal, counts.2] at counts
  cases counts.1

end Analyse
