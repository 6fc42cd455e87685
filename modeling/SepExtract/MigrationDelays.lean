import Mathlib.Data.List.Induction
import SepExtract.IntraOsPairing

/- The migrations and delays migrationdelay.go finds in a trace of usnl, against the threads
   probe_sepext_migrate was called for. The script compares the pid of the running thread, and
   a lastMigration of 0 stands for no migration yet. -/
namespace DelayScripts.MigrationDelay
open GoText TracerKernel NumberTexts UsnlTraceText
open WrappingCounter (Clock)
open IntraOsDelay (Record Extracted extractOf reading_entry extract_entry type_name_pktextr)

def probeMigrate (newCPU pid : UInt16) (cycles : UInt32) (currpid cpu : UInt16) : Sepentry :=
  ⟨.migrate, cycles, pid.toUInt32, newCPU.toUInt32, 0, 0, 0, currpid, cpu⟩

def migratedThread (e : Sepentry) : Int := e.pid1.toNat

/-- A segment of the trace up to some record: the clock of CPU 0, which runs on through EOD, the
    packet extracts of CPU 0 and the cycles of the migrations of one thread, latest first. -/
structure Segment where
  clock : Clock
  extracts : List Extracted
  migrations : List Int

def Segment.initial : Segment := ⟨⟨0, 0⟩, [], []⟩

def Segment.tick (h : Segment) (e : Sepentry) : Clock := h.clock.advance 0xFFFFFFFF e.cycles.toNat

def Segment.after (pid : Int) (h : Segment) : Record → Segment
  | .eod => ⟨h.clock, [], []⟩
  | .entry e =>
    if e.cpu ≠ 0 then h
    else
      { clock := h.tick e
        extracts := if e.type = .pktextract then extractOf e (h.tick e) :: h.extracts else h.extracts
        migrations :=
          if e.type = .migrate ∧ migratedThread e = pid then (h.tick e).cycles :: h.migrations else h.migrations }

def segment (pid : Int) (records : List Record) : Segment := records.foldl (Segment.after pid) .initial

def restarted : List Extracted → Option Int
  | [] => none
  | x :: older => if x.eventType = 0 then some x.cycles else restarted older

def restartOf (seqno : Int) : List Extracted → Option Int
  | [] => none
  | x :: older => if x.seqno = seqno ∧ x.eventType = 1 then restarted older else restartOf seqno older

def Treats (s t : Script) : Prop :=
  t.out = s.out ++ [.migration t.cycles] ∧ t.lastMigration = t.cycles ∧ t.lastMigration ≠ 0

structure Faithful (pid : Int) (before : List Record) (e : Sepentry) (s t : Script) : Prop where
  migrations : Treats s t ↔ e.cpu = 0 ∧ e.type = .migrate ∧ migratedThread e = pid
  delays : ∀ last ∈ (segment pid before).migrations.head?, ∀ seqno delay since,
    .deltaMigr seqno delay since ∈ t.out.drop s.out.length →
      ∃ restart ∈ restartOf seqno (segment pid before).extracts,
        delay = ((segment pid before).tick e).cycles - restart ∧
        since = ((segment pid before).tick e).cycles - last

/-- The running thread stands for the migrated one, and the clock of CPU 0 has left 0. -/
def Agrees (pid : Int) (before : List Record) (e : Sepentry) : Prop :=
  e.cpu = 0 → e.type = .migrate →
    (((e.currpid.toNat : Int) = pid ∧ ((segment pid before).tick e).cycles ≠ 0) ↔ migratedThread e = pid)

instance (pid : Int) (before : List Record) (e : Sepentry) : Decidable (Agrees pid before e) :=
  inferInstanceAs (Decidable (_ → _ → (_ ↔ _)))

def ForEntries (records : List Record) (P : List Record → Sepentry → Prop) : Prop :=
  ∀ before e after, records = before ++ .entry e :: after → P before e

def entriesAfter : List Record → List Record → List (List Record × Sepentry)
  | _, [] => []
  | before, .eod :: rest => entriesAfter (before ++ [.eod]) rest
  | before, .entry e :: rest => (before, e) :: entriesAfter (before ++ [.entry e]) rest

theorem entries_after (before rest : List Record) (P : List Record → Sepentry → Prop) :
    (∀ p ∈ entriesAfter before rest, P p.1 p.2) ↔ ForEntries rest fun more e => P (before ++ more) e := by
  induction rest generalizing before with
  | nil => simp [entriesAfter, ForEntries]
  | cons r rest ih =>
    have later : (∀ p ∈ entriesAfter (before ++ [r]) rest, P p.1 p.2) ↔
        ForEntries rest fun more e => P (before ++ r :: more) e := by
      simpa only [List.append_assoc, List.singleton_append] using ih (before ++ [r])
    have split : (ForEntries (r :: rest) fun more e => P (before ++ more) e) ↔
        (∀ e, r = .entry e → P before e) ∧ ForEntries rest fun more e => P (before ++ r :: more) e := by
      constructor
      · intro all
        refine ⟨fun e here => ?_, fun more e after rest => all (r :: more) e after (by simp [rest])⟩
        simpa using all [] e rest (by simp [here])
      · rintro ⟨first, others⟩ more e after here
        cases more with
        | nil =>
          obtain ⟨here, -⟩ := List.cons_eq_cons.mp here
          simpa using first e here
        | cons x more =>
          obtain ⟨rfl, below⟩ := List.cons_eq_cons.mp here
          exact others more e after below
    rw [split, ← later]
    cases r with
    | eod => simp [entriesAfter]
    | entry e => simp [entriesAfter]

instance (records : List Record) (P : List Record → Sepentry → Prop) [∀ before e, Decidable (P before e)] :
    Decidable (ForEntries records P) :=
  decidable_of_iff _ (entries_after [] records P)

def Record.Traced : Record → Prop
  | .eod => True
  | .entry e => e.type ≠ .typeFirst

instance : DecidablePred Record.Traced
  | .eod => isTrue trivial
  | .entry e => inferInstanceAs (Decidable (e.type ≠ .typeFirst))

theorem type_name_migrate (t : SepentryType) : typeName t = "MIGRATE" ↔ t = .migrate := by
  cases t <;> decide

def Script.tick (s : Script) (e : Sepentry) : Script :=
  { s with cycles := s.cycles + delta s.lastCycles e.cycles.toNat, lastCycles := e.cycles.toNat }

def Script.record (pid : Int) (s : Script) : Record → Script
  | .eod => { s.print .eod with packets := fun _ => none, rxstart := -1, lastMigration := 0 }
  | .entry e =>
    if e.cpu ≠ 0 then s
    else if e.type = .migrate then
      if (e.currpid.toNat : Int) = pid then
        { (s.tick e).print (.migration (s.tick e).cycles) with lastMigration := (s.tick e).cycles }
      else s.tick e
    else if e.type = .pktextract ∧ s.lastMigration ≠ 0 then
      (s.tick e).packet ((e.pid2.toNat % 65536 : Nat) : Int) (e.data.toNat : Int)
    else s.tick e

theorem after_migration_entry (s : Script) (e : Sepentry) : s.afterMigration (words e) =
    some (if e.type = .pktextract ∧ s.lastMigration ≠ 0 then
      s.packet ((e.pid2.toNat % 65536 : Nat) : Int) (e.data.toNat : Int) else s) := by
  have head : (words e).head? = some "PKTEXTR" ↔ e.type = .pktextract := by simp [words, type_name_pktextr]
  unfold Script.afterMigration
  rw [extract_entry]
  by_cases none : s.lastMigration = 0
  · simp [none]
  · by_cases extract : e.type = .pktextract
    · simp [none, head, extract]
    · simp [none, head, extract]

theorem line_record (pid : Int) (s : Script) {r : Record} (traced : Record.Traced r) :
    s.line pid r.text = some (s.record pid r) := by
  cases r with
  | eod =>
    have split : splitWhitespace "EOD" = ["EOD"] := by decide +kernel
    unfold Script.line Record.text
    rw [split]
    rfl
  | entry e =>
    have head : (words e).head? = some "MIGRATE" ↔ e.type = .migrate := by simp [words, type_name_migrate]
    have running : (words e)[2]?.bind (parseInt 10) = some (e.currpid.toNat : Int) :=
      parse_numeral (by decide) (by decide) (by have := e.currpid.toNat_lt; omega)
    unfold Script.line Record.text
    rw [split_line traced]
    dsimp only
    rw [reading_entry]
    by_cases core : e.cpu = 0
    · rw [if_pos core]
      dsimp only
      rw [running, Script.record, if_neg (not_not.mpr core)]
      by_cases migrate : e.type = .migrate
      · rw [if_pos (head.mpr migrate), if_pos migrate]
        by_cases watched : (e.currpid.toNat : Int) = pid
        · simp only [ne_eq, watched, not_true_eq_false, if_false, if_true, after_migration_entry, migrate]
          rfl
        · simp only [ne_eq, watched, not_false_eq_true, if_true, if_false]
          rfl
      · rw [if_neg (migrate ∘ head.mp), if_neg migrate, after_migration_entry]
        rfl
    · rw [if_neg core, Script.record, if_pos core]

theorem main_records (pid : Int) {records : List Record} (traced : ∀ r ∈ records, Record.Traced r) :
    main pid (records.map Record.text) = some (records.foldl (Script.record pid) .initial) := by
  unfold main
  generalize Script.initial = s
  induction records generalizing s with
  | nil => rfl
  | cons r rest ih =>
    rw [List.map_cons, List.foldlM_cons, line_record pid s (traced r (List.mem_cons_self ..))]
    exact ih (fun x member => traced x (List.mem_cons_of_mem r member)) _

structure Mirrors (s : Script) (h : Segment) : Prop where
  lastCycles : s.lastCycles = h.clock.reading
  cycles : s.cycles = h.clock.cycles
  positive : 0 ≤ h.clock.cycles
  range : 0 ≤ h.clock.reading ∧ h.clock.reading ≤ 0xFFFFFFFF
  past : 0 ≤ s.lastMigration ∧ s.lastMigration ≤ h.clock.cycles
  migrations : if s.lastMigration = 0 then h.migrations = [] else h.migrations.head? = some s.lastMigration
  before : s.lastMigration = 0 → s.rxstart = -1
  rxstart : if s.rxstart = -1 then s.packets = fun _ => none else restarted h.extracts = some s.rxstart
  packets : ∀ seqno, ∀ v ∈ s.packets seqno, seqno ≠ 0 ∧ restartOf seqno h.extracts = some v

theorem mirrors_initial : Mirrors .initial .initial := by
  refine ⟨rfl, rfl, by decide, by decide, by decide, rfl, fun _ => rfl, rfl, fun _ v stored => by cases stored⟩

theorem mirrors_eod {s : Script} {h : Segment} (mirrors : Mirrors s h) (pid : Int) :
    Mirrors (s.record pid .eod) (h.after pid .eod) := by
  refine ⟨mirrors.lastCycles, mirrors.cycles, mirrors.positive, mirrors.range, ⟨Int.le_refl 0, mirrors.positive⟩, rfl,
    fun _ => rfl, rfl, fun _ v stored => by cases stored⟩

theorem mirrors_tick {s : Script} {h : Segment} (mirrors : Mirrors s h) (e : Sepentry) :
    Mirrors (s.tick e) ⟨h.tick e, h.extracts, h.migrations⟩ := by
  have small := e.cycles.toNat_lt
  have range := mirrors.range
  have positive := mirrors.positive
  have past := mirrors.past
  have later : h.clock.cycles ≤ (h.tick e).cycles := by
    simp only [Segment.tick, Clock.advance, WrappingCounter.delta]
    split <;> omega
  refine ⟨rfl, ?_, positive.trans later, ?_, ⟨past.1, past.2.trans later⟩, mirrors.migrations, mirrors.before,
    mirrors.rxstart, mirrors.packets⟩
  · simp only [Script.tick, Segment.tick, Clock.advance, mirrors.cycles, mirrors.lastCycles, delta]
  · simp only [Segment.tick, Clock.advance]
    omega

theorem mirrors_migrated {s : Script} {h : Segment} (mirrors : Mirrors s h) :
    Mirrors { s.print (.migration s.cycles) with lastMigration := s.cycles }
      ⟨h.clock, h.extracts, if h.clock.cycles ≠ 0 then h.clock.cycles :: h.migrations else h.migrations⟩ := by
  have past := mirrors.past
  have cycles := mirrors.cycles
  have positive := mirrors.positive
  have migrations := mirrors.migrations
  refine ⟨mirrors.lastCycles, mirrors.cycles, mirrors.positive, mirrors.range, ?_, ?_, fun now => ?_, mirrors.rxstart,
    mirrors.packets⟩
  · dsimp only
    omega
  · dsimp only
    by_cases zero : h.clock.cycles = 0
    · rw [if_pos (cycles.trans zero), if_neg (not_not.mpr zero)]
      rw [if_pos (by omega)] at migrations
      exact migrations
    · rw [if_neg (by omega), if_pos zero, cycles]
      rfl
  · dsimp only at now
    exact mirrors.before (by omega)

section Packets
variable {s : Script} {h : Segment} {x : Extracted}

theorem mirrors_extract {t : Script} (mirrors : Mirrors s h)
    (same : t.lastCycles = s.lastCycles ∧ t.cycles = s.cycles ∧ t.lastMigration = s.lastMigration)
    (before : t.lastMigration = 0 → t.rxstart = -1)
    (rxstart : if t.rxstart = -1 then t.packets = fun _ => none else restarted (x :: h.extracts) = some t.rxstart)
    (packets : ∀ seqno, ∀ v ∈ t.packets seqno, seqno ≠ 0 ∧ restartOf seqno (x :: h.extracts) = some v) :
    Mirrors t ⟨h.clock, x :: h.extracts, h.migrations⟩ := by
  obtain ⟨lastCycles, cycles, lastMigration⟩ := same
  constructor
  · exact lastCycles.trans mirrors.lastCycles
  · exact cycles.trans mirrors.cycles
  · exact mirrors.positive
  · exact mirrors.range
  · rw [lastMigration]
    exact mirrors.past
  · rw [lastMigration]
    exact mirrors.migrations
  · exact before
  · exact rxstart
  · exact packets

theorem mirrors_unseen (mirrors : Mirrors s h) (none : s.lastMigration = 0) :
    Mirrors s ⟨h.clock, x :: h.extracts, h.migrations⟩ := by
  have closed := mirrors.before none
  have empty := mirrors.rxstart
  rw [if_pos closed] at empty
  refine mirrors_extract mirrors ⟨rfl, rfl, rfl⟩ mirrors.before ?_ fun seqno v stored => ?_
  · rw [if_pos closed]
    exact empty
  · rw [empty] at stored
    cases stored

theorem restarted_other (other : x.eventType ≠ 0) : restarted (x :: h.extracts) = restarted h.extracts := by
  rw [restarted, if_neg other]

theorem restart_of_other {seqno : Int} (other : ¬ (x.seqno = seqno ∧ x.eventType = 1)) :
    restartOf seqno (x :: h.extracts) = restartOf seqno h.extracts := by
  rw [restartOf, if_neg other]

theorem mirrors_other (mirrors : Mirrors s h) (event : x.eventType ≠ 0)
    (number : x.eventType = 1 → s.rxstart = -1 ∨ x.seqno = 0) :
    Mirrors s ⟨h.clock, x :: h.extracts, h.migrations⟩ := by
  have restart := mirrors.rxstart
  refine mirrors_extract mirrors ⟨rfl, rfl, rfl⟩ mirrors.before ?_ fun seqno v stored => ?_
  · rw [restarted_other event]
    exact restart
  · obtain ⟨filled, known⟩ := mirrors.packets seqno v stored
    refine ⟨filled, ?_⟩
    rw [restart_of_other ?_]
    · exact known
    · rintro ⟨here, receive⟩
      rcases number receive with closed | zero
      · rw [if_pos closed] at restart
        rw [restart] at stored
        cases stored
      · exact filled (here.symm.trans zero)

theorem mirrors_restart (mirrors : Mirrors s h) (event : x.eventType = 0) (now : x.cycles = h.clock.cycles)
    (migrated : s.lastMigration ≠ 0) :
    Mirrors { s with rxstart := s.cycles } ⟨h.clock, x :: h.extracts, h.migrations⟩ := by
  have positive := mirrors.positive
  have cycles := mirrors.cycles
  refine mirrors_extract mirrors ⟨rfl, rfl, rfl⟩ (fun none => absurd none migrated) ?_ fun seqno v stored => ?_
  · rw [if_neg (by dsimp only; omega), restarted, if_pos event, now, ← cycles]
  · rw [restart_of_other (by simp [event])]
    exact mirrors.packets seqno v stored

theorem mirrors_receive (mirrors : Mirrors s h) (event : x.eventType = 1) (opened : s.rxstart ≠ -1)
    (filled : x.seqno ≠ 0) :
    Mirrors { s.print (.received x.seqno) with packets := Function.update s.packets x.seqno (some s.rxstart) }
      ⟨h.clock, x :: h.extracts, h.migrations⟩ := by
  have restart := mirrors.rxstart
  rw [if_neg opened] at restart
  refine mirrors_extract mirrors ⟨rfl, rfl, rfl⟩ mirrors.before ?_ fun seqno v stored => ?_
  · rw [restarted_other (by simp [event])]
    exact (if_neg opened).mpr restart
  · by_cases here : x.seqno = seqno
    · subst here
      simp only [Function.update_self, Option.mem_def, Option.some.injEq] at stored
      refine ⟨filled, ?_⟩
      rw [restartOf, if_pos ⟨rfl, event⟩, ← stored]
      exact restart
    · dsimp only at stored
      rw [Function.update_of_ne (Ne.symm here)] at stored
      rw [restart_of_other fun hit => here hit.1]
      exact mirrors.packets seqno v stored

theorem mirrors_sent (mirrors : Mirrors s h) (event : x.eventType = 2) (out : List Printed) :
    Mirrors { s with packets := Function.update s.packets x.seqno none, out := out }
      ⟨h.clock, x :: h.extracts, h.migrations⟩ := by
  have restart := mirrors.rxstart
  refine mirrors_extract mirrors ⟨rfl, rfl, rfl⟩ mirrors.before ?_ fun seqno v stored => ?_
  · dsimp only
    rw [restarted_other (by simp [event])]
    split at restart
    · next closed =>
      rw [if_pos closed, restart]
      exact Function.update_eq_self x.seqno (fun _ => none)
    · next opened =>
      rw [if_neg opened]
      exact restart
  · by_cases here : x.seqno = seqno
    · subst here
      simp at stored
    · dsimp only at stored
      rw [Function.update_of_ne (Ne.symm here)] at stored
      rw [restart_of_other (by simp [event])]
      exact mirrors.packets seqno v stored

theorem mirrors_print (mirrors : Mirrors s h) (p : Printed) : Mirrors (s.print p) h :=
  ⟨mirrors.lastCycles, mirrors.cycles, mirrors.positive, mirrors.range, mirrors.past, mirrors.migrations,
    mirrors.before, mirrors.rxstart, mirrors.packets⟩

theorem mirrors_packet (mirrors : Mirrors s h) (now : x.cycles = h.clock.cycles) (migrated : s.lastMigration ≠ 0) :
    Mirrors (s.packet x.eventType x.seqno) ⟨h.clock, x :: h.extracts, h.migrations⟩ ∧
      ∃ lines, (s.packet x.eventType x.seqno).out = s.out ++ lines ∧
        ∀ seqno delay since, .deltaMigr seqno delay since ∈ lines → ∃ restart ∈ restartOf seqno h.extracts,
          delay = h.clock.cycles - restart ∧ since = h.clock.cycles - s.lastMigration := by
  unfold Script.packet
  split
  · next event => exact ⟨mirrors_restart mirrors event now migrated, [], by simp, by simp⟩
  · next restart =>
    split
    · next event =>
      split
      · next closed => exact ⟨mirrors_other mirrors restart fun _ => Or.inl closed, [], by simp, by simp⟩
      · next opened =>
        split
        · next filled => exact ⟨mirrors_receive mirrors event opened filled, [.received x.seqno], rfl, by simp⟩
        · next zero => exact ⟨mirrors_other mirrors restart fun _ => Or.inr (not_not.mp zero), [], by simp, by simp⟩
    · next receive =>
      split
      · next event =>
        split
        · dsimp only
          split
          · exact ⟨mirrors_other (mirrors_print mirrors _) restart fun one => absurd one receive,
              [.sent x.seqno], rfl, by simp⟩
          · next v stored =>
            refine ⟨mirrors_sent mirrors event _, [.sent x.seqno, .deltaMigr x.seqno _ _], List.append_assoc .., ?_⟩
            intro seqno delay since printed
            simp only [List.mem_cons, reduceCtorEq, List.not_mem_nil, or_false, false_or, Printed.deltaMigr.injEq]
              at printed
            obtain ⟨rfl, rfl, rfl⟩ := printed
            refine ⟨v, (mirrors.packets x.seqno v stored).2, ?_, ?_⟩
            · rw [← mirrors.cycles]
              rfl
            · rw [← mirrors.cycles]
              rfl
        · exact ⟨mirrors_other mirrors restart fun one => absurd one receive, [], by simp, by simp⟩
      · exact ⟨mirrors_other mirrors restart fun one => absurd one receive, [], by simp, by simp⟩

end Packets

def Prints (h : Segment) (e : Sepentry) (s t : Script) : Prop :=
  ∃ lines, t.out = s.out ++ lines ∧ ∀ seqno delay since, .deltaMigr seqno delay since ∈ lines →
    ∃ restart ∈ restartOf seqno h.extracts,
      delay = (h.tick e).cycles - restart ∧ h.migrations.head? = some ((h.tick e).cycles - since)

theorem prints_same {h : Segment} {e : Sepentry} {s t : Script} (same : t.out = s.out) : Prints h e s t :=
  ⟨[], by simp [same], by simp⟩

theorem mirrors_entry {pid : Int} {s : Script} {h : Segment} {e : Sepentry} (mirrors : Mirrors s h)
    (agrees : e.cpu = 0 → e.type = .migrate →
      (((e.currpid.toNat : Int) = pid ∧ (h.tick e).cycles ≠ 0) ↔ migratedThread e = pid)) :
    Mirrors (s.record pid (.entry e)) (h.after pid (.entry e)) ∧ Prints h e s (s.record pid (.entry e)) := by
  have ticked := mirrors_tick mirrors e
  simp only [Script.record, Segment.after]
  by_cases core : e.cpu = 0
  · rw [if_neg (not_not.mpr core), if_neg (not_not.mpr core)]
    by_cases migrate : e.type = .migrate
    · have agree := agrees core migrate
      have other : e.type ≠ .pktextract := by simp [migrate]
      rw [if_pos migrate, if_neg other]
      by_cases watched : (e.currpid.toNat : Int) = pid
      · rw [if_pos watched]
        refine ⟨?_, [.migration _], rfl, by simp⟩
        have migrated := mirrors_migrated ticked
        simp only [migrate, true_and, ← agree, watched]
        exact migrated
      · have absent : ¬ (e.type = .migrate ∧ migratedThread e = pid) := fun hit => watched (agree.mpr hit.2).1
        rw [if_neg watched, if_neg absent]
        exact ⟨ticked, prints_same rfl⟩
    · have stays : ¬ (e.type = .migrate ∧ migratedThread e = pid) := fun hit => migrate hit.1
      rw [if_neg migrate, if_neg stays]
      by_cases extract : e.type = .pktextract
      · rw [if_pos extract]
        by_cases none : s.lastMigration = 0
        · rw [if_neg fun hit => hit.2 none]
          exact ⟨mirrors_unseen ticked none, prints_same rfl⟩
        · rw [if_pos ⟨extract, none⟩]
          have migrations := mirrors.migrations
          rw [if_neg none] at migrations
          obtain ⟨after, lines, out, delays⟩ :=
            mirrors_packet (x := extractOf e (h.tick e)) ticked rfl none
          refine ⟨after, lines, out, fun seqno delay since printed => ?_⟩
          obtain ⟨restart, known, first, second⟩ := delays seqno delay since printed
          refine ⟨restart, known, first, migrations.trans (congrArg some ?_)⟩
          dsimp only [Script.tick] at second ⊢
          omega
      · have unseen : ¬ (e.type = .pktextract ∧ s.lastMigration ≠ 0) := fun hit => extract hit.1
        rw [if_neg unseen, if_neg extract]
        exact ⟨ticked, prints_same rfl⟩
  · rw [if_pos core, if_pos core]
    exact ⟨mirrors, prints_same rfl⟩

theorem mirrors_records {pid : Int} {records : List Record} (agree : ForEntries records (Agrees pid)) :
    Mirrors (records.foldl (Script.record pid) .initial) (segment pid records) := by
  induction records using List.reverseRecOn with
  | nil => exact mirrors_initial
  | append_singleton before r ih =>
    have earlier : ForEntries before (Agrees pid) := by
      intro first e after split
      exact agree first e (after ++ [r]) (by simp [split])
    unfold segment
    rw [List.foldl_append, List.foldl_append]
    cases r with
    | eod => exact mirrors_eod (ih earlier) pid
    | entry e => exact (mirrors_entry (ih earlier) (agree before e [] rfl)).1

theorem packet_frame (s : Script) (eventType seqno : Int) :
    (s.packet eventType seqno).cycles = s.cycles ∧ (s.packet eventType seqno).lastCycles = s.lastCycles ∧
      ∃ lines, (s.packet eventType seqno).out = s.out ++ lines ∧ ∀ cycles, .migration cycles ∉ lines := by
  unfold Script.packet
  split
  · exact ⟨rfl, rfl, [], by simp, by simp⟩
  · split
    · split
      · exact ⟨rfl, rfl, [], by simp, by simp⟩
      · split
        · exact ⟨rfl, rfl, [.received seqno], rfl, by simp⟩
        · exact ⟨rfl, rfl, [], by simp, by simp⟩
    · split
      · split
        · dsimp only
          split
          · exact ⟨rfl, rfl, [.sent seqno], rfl, by simp⟩
          · exact ⟨rfl, rfl, [.sent seqno, .deltaMigr seqno _ _], List.append_assoc .., by simp⟩
        · exact ⟨rfl, rfl, [], by simp, by simp⟩
      · exact ⟨rfl, rfl, [], by simp, by simp⟩

theorem clock_entry (pid : Int) (s : Script) {e : Sepentry} (core : e.cpu = 0) :
    (s.record pid (.entry e)).cycles = (s.tick e).cycles ∧
      (s.record pid (.entry e)).lastCycles = (s.tick e).lastCycles := by
  rw [Script.record, if_neg (not_not.mpr core)]
  split
  · split <;> exact ⟨rfl, rfl⟩
  · split
    · exact ⟨(packet_frame ..).1, (packet_frame ..).2.1⟩
    · exact ⟨rfl, rfl⟩

theorem clock_records (pid : Int) (records : List Record) :
    (records.foldl (Script.record pid) .initial).lastCycles = (segment pid records).clock.reading ∧
    (records.foldl (Script.record pid) .initial).cycles = (segment pid records).clock.cycles := by
  induction records using List.reverseRecOn with
  | nil => exact ⟨rfl, rfl⟩
  | append_singleton before r ih =>
    unfold segment at ih ⊢
    rw [List.foldl_append, List.foldl_append]
    simp only [List.foldl_cons, List.foldl_nil]
    cases r with
    | eod => exact ih
    | entry e =>
      rw [Segment.after]
      by_cases core : e.cpu = 0
      · obtain ⟨cycles, reading⟩ := clock_entry pid (before.foldl (Script.record pid) .initial) core
        rw [cycles, reading, if_neg (not_not.mpr core)]
        simp only [Script.tick, Segment.tick, Clock.advance, ih.1, ih.2, delta, and_self]
      · rw [Script.record, if_pos core, if_pos core]
        exact ih

theorem treats_iff (pid : Int) (s : Script) (e : Sepentry) : Treats s (s.record pid (.entry e)) ↔
    e.cpu = 0 ∧ e.type = .migrate ∧ (e.currpid.toNat : Int) = pid ∧ (s.tick e).cycles ≠ 0 := by
  have silent : ∀ t : Script, t.out = s.out → ¬ Treats s t := by
    rintro t same ⟨out, -, -⟩
    have count := congrArg List.length (same.symm.trans out)
    simp at count
  rw [Script.record]
  by_cases core : e.cpu = 0
  · rw [if_neg (not_not.mpr core)]
    by_cases migrate : e.type = .migrate
    · rw [if_pos migrate]
      by_cases watched : (e.currpid.toNat : Int) = pid
      · rw [if_pos watched]
        exact ⟨fun treats => ⟨core, migrate, watched, treats.2.2⟩, fun hit => ⟨rfl, rfl, hit.2.2.2⟩⟩
      · rw [if_neg watched]
        exact iff_of_false (silent _ rfl) fun hit => watched hit.2.2.1
    · rw [if_neg migrate]
      refine iff_of_false ?_ fun hit => migrate hit.2.1
      split
      · obtain ⟨-, -, lines, out, none⟩ := packet_frame (s.tick e) ((e.pid2.toNat % 65536 : Nat) : Int) e.data.toNat
        rintro ⟨printed, -, -⟩
        have same := List.append_cancel_left (out.symm.trans printed)
        exact none _ (by rw [same]; exact List.mem_singleton_self _)
      · exact silent _ rfl
  · rw [if_pos core]
    exact iff_of_false (silent _ rfl) fun hit => core hit.1

theorem tick_records (pid : Int) (records : List Record) (e : Sepentry) :
    ((records.foldl (Script.record pid) .initial).tick e).cycles = ((segment pid records).tick e).cycles := by
  obtain ⟨reading, cycles⟩ := clock_records pid records
  simp only [Script.tick, Segment.tick, Clock.advance, reading, cycles, delta]

/-- The script gets through every trace. The lines it takes for migrations are those of the
    entries about the watched thread, with the delays after them as asked, exactly when at every
    migration entry of CPU 0 the watched thread is the migrated one if and only if it is the
    running one and the clock of CPU 0 is not at 0. -/
theorem migration_delays_iff (pid : Int) {records : List Record} (traced : ∀ r ∈ records, Record.Traced r) :
    (main pid (records.map Record.text)).isSome ∧
    (ForEntries records (fun before e => ∃ s t, main pid (before.map Record.text) = some s ∧
        s.line pid (usnlLine e) = some t ∧ Faithful pid before e s t) ↔
      ForEntries records (Agrees pid)) := by
  refine ⟨by rw [main_records pid traced]; rfl, ?_, fun agree before e after split => ?_⟩
  · intro faithful before e after split core migrate
    obtain ⟨s, t, start, line, treats, -⟩ := faithful before e after split
    subst split
    rw [main_records pid fun r member => traced r (List.mem_append_left _ member)] at start
    cases start
    have step := line_record pid (before.foldl (Script.record pid) .initial) (traced (.entry e) (by simp))
    cases line.symm.trans step
    rw [treats_iff, tick_records] at treats
    simpa only [core, migrate, true_and] using treats
  · subst split
    have earlier : ForEntries before (Agrees pid) := by
      intro first x later split
      exact agree first x (later ++ .entry e :: after) (by simp [split])
    have here := agree before e after rfl
    have start := main_records pid fun r member => traced r (List.mem_append_left (.entry e :: after) member)
    have step := line_record pid (before.foldl (Script.record pid) .initial) (traced (.entry e) (by simp))
    refine ⟨_, _, start, step, ?_, fun last latest seqno delay since printed => ?_⟩
    · rw [treats_iff, tick_records]
      refine and_congr_right fun core => and_congr_right fun migrate => here core migrate
    · obtain ⟨-, lines, out, delays⟩ := mirrors_entry (mirrors_records earlier) here
      rw [out, List.drop_left] at printed
      obtain ⟨restart, known, first, second⟩ := delays seqno delay since printed
      have same := Option.some.inj (second.symm.trans latest)
      exact ⟨restart, known, first, by omega⟩

def migratingReceiver : List Record :=
  [.entry (probeMigrate 0 7 4 7 0), IntraOsDelay.extractAt 6 0 0, IntraOsDelay.extractAt 7 1 5,
    IntraOsDelay.extractAt 12 2 5, .eod]

theorem migration_delays_receiver :
    (main 7 (migratingReceiver.map Record.text)).map Script.out =
      some [.migration 4, .received 5, .sent 5, .deltaMigr 5 6 8, .eod] ∧
    ForEntries migratingReceiver (fun before e => ∃ s t, main 7 (before.map Record.text) = some s ∧
      s.line 7 (usnlLine e) = some t ∧ Faithful 7 before e s t) := by
  obtain ⟨-, faithful⟩ := migration_delays_iff 7 (by decide : ∀ r ∈ migratingReceiver, Record.Traced r)
  exact ⟨by decide +kernel, faithful.mpr (by decide)⟩

theorem migration_by_another_thread :
    (main 7 ([Record.entry (probeMigrate 0 7 4 9 0)].map Record.text)).map Script.out = some [] ∧
    (main 9 ([Record.entry (probeMigrate 0 7 4 9 0)].map Record.text)).map Script.out = some [.migration 4] ∧
    ¬ ForEntries [.entry (probeMigrate 0 7 4 9 0)] (fun before e => ∃ s t, main 7 (before.map Record.text) = some s ∧
      s.line 7 (usnlLine e) = some t ∧ Faithful 7 before e s t) := by
  refine ⟨by decide +kernel, by decide +kernel, fun faithful => ?_⟩
  obtain ⟨s, t, -, line, treats, -⟩ := faithful [] (probeMigrate 0 7 4 9 0) [] rfl
  have step := line_record 7 s (r := .entry (probeMigrate 0 7 4 9 0)) (by decide)
  cases line.symm.trans step
  have watched := ((treats_iff 7 s _).mp (treats.mpr ⟨rfl, rfl, rfl⟩)).2.2.1
  exact absurd watched (by decide)

end DelayScripts.MigrationDelay
