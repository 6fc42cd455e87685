import SepExtract.AnalyseRun
import SepExtract.MigrationDelays
import SepExtract.PacketLabels
import SepExtract.TruncatedLines

/- Which cut lines the three programs that read traces get past. None of them looks at the number
   of fields before the first field it uses: run slices the line, the scripts take three fields
   for enough, and the packet extracts and ID lines are read by position. -/
namespace TruncatedTraces
open GoText TracerKernel NumberTexts TextFields UsnlTraceText
open DelayScripts.IntraOsDelay (Record)

def reports (out : List DelayScripts.Printed) : List DelayScripts.Printed := out.filter (· ≠ .error)

theorem reports_error (out : List DelayScripts.Printed) : reports (out ++ [.error]) = reports out := by simp [reports]

theorem reports_more {out : List DelayScripts.Printed} {p : DelayScripts.Printed} (found : p ≠ .error)
    (more : List DelayScripts.Printed) : reports (out ++ p :: more) ≠ reports out := by
  intro same
  have count := congrArg List.length same
  simp [reports, found] at count

/-- Where the line of a packet extract may be cut: not inside the cycles, the pids or before the
    data, unless the number there is empty and does not parse. -/
structure ExtractSafe (fields : List String) (silent : Prop) : Prop where
  cycles : fields.length = 4 → fields[3]? = some ""
  pid1 : fields.length ≠ 5
  pid2 : fields.length = 6 → fields[5]? = some ""
  data : 7 ≤ fields.length → fields[6]? = some "" ∨ silent

theorem extract_safe {e : Sepentry} {fields : List String} (cut : Truncated e fields) (four : 4 ≤ fields.length)
    (filled : fields[3]? ≠ some "") (silent : Prop) :
    (DelayScripts.extract fields = .panics ∧ ¬ ExtractSafe fields silent) ∨
    (DelayScripts.extract fields = .unreadable ∧ ExtractSafe fields silent) ∨
    ∃ seqno : Nat, DelayScripts.extract fields = .packet ((e.pid2.toNat % 65536 : Nat) : Int) seqno ∧
      (seqno = 0 ↔ e.data.toNat = 0) ∧ (ExtractSafe fields silent ↔ silent) := by
  rcases extract_cut cut with ⟨short, read⟩ | ⟨six, empty, read⟩ | ⟨six, some, read⟩ | ⟨seven, empty, read⟩ |
    ⟨seven, some, seqno, read, zero⟩
  · refine Or.inl ⟨read, fun safe => ?_⟩
    rcases Nat.eq_or_lt_of_le four with here | five
    · exact filled (safe.cycles here.symm)
    · exact safe.pid1 (by omega)
  · exact Or.inr (Or.inl ⟨read, ⟨by omega, by omega, fun _ => empty, by omega⟩⟩)
  · exact Or.inl ⟨read, fun safe => some (safe.pid2 six)⟩
  · exact Or.inr (Or.inl ⟨read, ⟨by omega, by omega, by omega, fun _ => Or.inl empty⟩⟩)
  · refine Or.inr (Or.inr ⟨seqno, read, zero, fun safe => ?_, fun quiet => ?_⟩)
    · exact (safe.data seven).resolve_left some
    · exact ⟨by omega, by omega, by omega, fun _ => Or.inr quiet⟩

namespace IntraOsDelay
open DelayScripts DelayScripts.IntraOsDelay

def Silent (s : Script) (e : Sepentry) : Prop :=
  e.pid2.toNat % 65536 = 0 ∨ e.pid2.toNat % 65536 = 4 ∨
  e.pid2.toNat % 65536 = 1 ∧ (s.rxstart = -1 ∨ e.data = 0) ∨ e.pid2.toNat % 65536 = 2 ∧ e.data = 0

def Safe (s : Script) (e : Sepentry) (fields : List String) : Prop :=
  e.cpu = 0 → fields.length ≠ 3 ∧ (e.type = .pktextract → ExtractSafe fields (Silent s e))

theorem silent_iff {s : Script} {e : Sepentry} {seqno : Nat} (zero : seqno = 0 ↔ e.data.toNat = 0) :
    (∃ t, s.packet ((e.pid2.toNat % 65536 : Nat) : Int) seqno = some t ∧ reports t.out = reports s.out) ↔ Silent s e := by
  have data : e.data = 0 ↔ seqno = 0 := by
    rw [zero, ← UInt32.toNat_inj]
    rfl
  unfold Silent
  rw [data]
  generalize e.pid2.toNat % 65536 = event
  by_cases start : event = 0
  · subst start
    simp [Script.packet]
  by_cases receive : event = 1
  · subst receive
    by_cases unmarked : s.rxstart = -1
    · simp [Script.packet, unmarked]
    · by_cases none : seqno = 0
      · subst none
        simp [Script.packet, unmarked]
      · simpa [Script.packet, unmarked, none, Script.print] using reports_more (by simp) []
  by_cases send : event = 2
  · subst send
    by_cases none : seqno = 0
    · subst none
      simp [Script.packet]
    · cases noted : s.packets seqno with
      | none => simpa [Script.packet, none, Script.print, noted] using reports_more (by simp) []
      | some v =>
        simpa [Script.packet, none, Script.print, noted, List.append_assoc] using reports_more (by simp) [_]
  by_cases other : event = 4
  · subst other
    simp [Script.packet]
  · have panics : s.packet event seqno = none := by
      unfold Script.packet
      rw [if_neg (by omega), if_neg (by omega), if_neg (by omega), if_neg (by omega)]
    simp [panics, start, receive, send, other]

theorem line_cut_iff {s : Script} {e : Sepentry} {cut : String} (truncated : Truncated e (splitWhitespace cut)) :
    (∃ t, s.line cut = some t ∧ reports t.out = reports s.out) ↔ Safe s e (splitWhitespace cut) := by
  have quiet : ∀ t : Script, t.out = s.out → ∃ u, some t = some u ∧ reports u.out = reports s.out :=
    fun t same => ⟨t, rfl, by rw [same]⟩
  unfold Script.line
  dsimp only
  rcases reading_cut truncated with ⟨skipped, read⟩ | ⟨core, three, read⟩ | ⟨core, four, empty, read⟩ |
    ⟨core, four, filled, cyc, read⟩
  · rw [read]
    refine iff_of_true (quiet s rfl) fun core => ?_
    have short := skipped.resolve_right (by simp [core])
    exact ⟨by omega, fun _ => ⟨by omega, by omega, by omega, by omega⟩⟩
  · rw [read]
    exact iff_of_false (by simp) fun safe => (safe core).1 three
  · rw [read]
    refine iff_of_true ⟨_, rfl, reports_error _⟩ fun _ => ?_
    exact ⟨by omega, fun _ => ⟨fun _ => empty, by omega, by omega, by omega⟩⟩
  · rw [read]
    have head := truncated_head truncated (by omega)
    have types : typeName e.type = "PKTEXTR" ↔ e.type = .pktextract := type_name_pktextr e.type
    dsimp only
    rw [head]
    by_cases extract : e.type = .pktextract
    · rw [if_neg (by simp [types.mpr extract])]
      have whole : Safe s e (splitWhitespace cut) ↔ ExtractSafe (splitWhitespace cut) (Silent s e) :=
        ⟨fun safe => (safe core).2 extract, fun safe _ => ⟨by omega, fun _ => safe⟩⟩
      rw [whole]
      rcases extract_safe truncated four filled (Silent s e) with ⟨panics, broken⟩ | ⟨unread, safe⟩ |
        ⟨seqno, packet, zero, safe⟩
      · rw [panics]
        exact iff_of_false (by simp) broken
      · rw [unread]
        exact iff_of_true ⟨_, rfl, reports_error _⟩ safe
      · rw [packet, safe]
        exact silent_iff (s := { s with cycles := _, lastCycles := cyc }) zero
    · rw [if_pos (by simpa [types] using extract)]
      refine iff_of_true (quiet _ rfl) fun _ => ⟨by omega, fun here => absurd here extract⟩

end IntraOsDelay

namespace MigrationDelay
open DelayScripts DelayScripts.MigrationDelay
open DelayScripts.IntraOsDelay (type_name_pktextr)

def Silent (s : Script) (e : Sepentry) : Prop :=
  (e.pid2.toNat % 65536 = 1 → s.rxstart = -1 ∨ e.data = 0) ∧ (e.pid2.toNat % 65536 = 2 → e.data = 0)

structure Safe (pid : Int) (s : Script) (e : Sepentry) (fields : List String) : Prop where
  cycles : e.cpu = 0 → fields.length ≠ 3
  migrate : e.cpu = 0 → e.type = .migrate → (e.currpid.toNat : Int) = pid → 4 ≤ fields.length → fields[3]? = some ""
  extract : e.cpu = 0 → e.type = .pktextract → s.lastMigration ≠ 0 → ExtractSafe fields (Silent s e)

theorem silent_iff {s : Script} {e : Sepentry} {seqno : Nat} (zero : seqno = 0 ↔ e.data.toNat = 0) :
    reports (s.packet ((e.pid2.toNat % 65536 : Nat) : Int) seqno).out = reports s.out ↔ Silent s e := by
  have data : e.data = 0 ↔ seqno = 0 := by
    rw [zero, ← UInt32.toNat_inj]
    rfl
  unfold Silent
  rw [data]
  generalize e.pid2.toNat % 65536 = event
  by_cases start : event = 0
  · subst start
    simp [Script.packet]
  by_cases receive : event = 1
  · subst receive
    by_cases unmarked : s.rxstart = -1
    · simp [Script.packet, unmarked]
    · by_cases none : seqno = 0
      · subst none
        simp [Script.packet, unmarked]
      · simpa [Script.packet, unmarked, none, Script.print] using reports_more (by simp) []
  by_cases send : event = 2
  · subst send
    by_cases none : seqno = 0
    · subst none
      simp [Script.packet]
    · cases noted : s.packets seqno with
      | none => simpa [Script.packet, none, Script.print, noted] using reports_more (by simp) []
      | some v =>
        simpa [Script.packet, none, Script.print, noted, List.append_assoc] using reports_more (by simp) [_]
  · have same : s.packet event seqno = s := by
      unfold Script.packet
      rw [if_neg (by omega), if_neg (by omega), if_neg (by omega)]
    simp [same, receive, send]

theorem after_other {e : Sepentry} {fields : List String} (head : fields.head? = some (typeName e.type))
    (other : e.type ≠ .pktextract) (s : Script) : s.afterMigration fields = some s := by
  unfold Script.afterMigration
  rw [head, if_pos (c := some (typeName e.type) ≠ some "PKTEXTR") (by simpa [type_name_pktextr] using other), ite_self]

theorem line_cut_iff {pid : Int} {s : Script} {e : Sepentry} {cut : String}
    (truncated : Truncated e (splitWhitespace cut)) :
    (∃ t, s.line pid cut = some t ∧ reports t.out = reports s.out) ↔ Safe pid s e (splitWhitespace cut) := by
  have quiet : ∀ t : Script, t.out = s.out → ∃ u, some t = some u ∧ reports u.out = reports s.out :=
    fun t same => ⟨t, rfl, by rw [same]⟩
  unfold Script.line
  dsimp only
  rcases reading_cut truncated with ⟨skipped, read⟩ | ⟨core, three, read⟩ | ⟨core, four, empty, read⟩ |
    ⟨core, four, filled, cyc, read⟩
  · rw [read]
    refine iff_of_true (quiet s rfl) ?_
    have short : e.cpu = 0 → (splitWhitespace cut).length < 3 := fun core => skipped.resolve_right (by simp [core])
    refine ⟨fun core => ?_, fun core _ _ long => ?_, fun core _ _ => ?_⟩
    · have := short core
      omega
    · have := short core
      omega
    · have := short core
      exact ⟨by omega, by omega, by omega, by omega⟩
  · rw [read]
    exact iff_of_false (by simp) fun safe => safe.cycles core three
  · rw [read]
    refine iff_of_true ⟨_, rfl, reports_error _⟩ ⟨fun _ => by omega, fun _ _ _ _ => empty, fun _ _ _ => ?_⟩
    exact ⟨fun _ => empty, by omega, by omega, by omega⟩
  · rw [read]
    have head := truncated_head truncated (by omega)
    have pid2 : (splitWhitespace cut)[2]? = some (numeral 10 e.currpid.toNat) := truncated_field truncated (by omega)
    have number : parseInt 10 (numeral 10 e.currpid.toNat) = some (e.currpid.toNat : Int) :=
      parse_numeral (by decide) (by decide) (by have := e.currpid.toNat_lt; omega)
    have migrates : typeName e.type = "MIGRATE" ↔ e.type = .migrate := type_name_migrate e.type
    have extracts : typeName e.type = "PKTEXTR" ↔ e.type = .pktextract := type_name_pktextr e.type
    dsimp only
    rw [head, pid2, Option.bind_some, number]
    by_cases migration : e.type = .migrate
    · rw [if_pos (by simp [migrates.mpr migration])]
      have other : e.type ≠ .pktextract := by simp [migration]
      dsimp only
      by_cases watched : (e.currpid.toNat : Int) = pid
      · rw [if_neg (by simpa using watched)]
        refine iff_of_false ?_ fun safe => filled (safe.migrate core migration watched four)
        rintro ⟨t, done, same⟩
        obtain rfl := Option.some.inj ((after_other head other _).symm.trans done)
        exact reports_more (by simp) [] same
      · rw [if_pos (by simpa using watched)]
        refine iff_of_true (quiet _ rfl) ⟨fun _ => by omega, fun _ _ here => absurd here watched, fun _ here => ?_⟩
        exact absurd here other
    · rw [if_neg (by simpa [migrates] using migration)]
      have rest : Safe pid s e (splitWhitespace cut) ↔ (e.type = .pktextract → s.lastMigration ≠ 0 →
          ExtractSafe (splitWhitespace cut) (Silent s e)) :=
        ⟨fun safe => safe.extract core, fun safe =>
          ⟨fun _ => by omega, fun _ here => absurd here migration, fun _ => safe⟩⟩
      rw [rest]
      by_cases extract : e.type = .pktextract
      · unfold Script.afterMigration
        dsimp only
        by_cases searching : s.lastMigration = 0
        · rw [if_pos searching]
          exact iff_of_true (quiet _ rfl) fun _ found => absurd searching found
        · have whole : (e.type = .pktextract → s.lastMigration ≠ 0 → ExtractSafe (splitWhitespace cut) (Silent s e)) ↔
              ExtractSafe (splitWhitespace cut) (Silent s e) :=
            ⟨fun safe => safe extract searching, fun safe _ _ => safe⟩
          rw [if_neg searching, if_neg (by simp [head, extracts.mpr extract]), whole]
          rcases extract_safe truncated four filled (Silent s e) with ⟨panics, broken⟩ | ⟨unread, safe⟩ |
            ⟨seqno, packet, zero, safe⟩
          · rw [panics]
            exact iff_of_false (by simp) broken
          · rw [unread]
            exact iff_of_true ⟨_, rfl, reports_error _⟩ safe
          · rw [packet, safe]
            constructor
            · rintro ⟨t, done, same⟩
              obtain rfl := Option.some.inj done
              exact (silent_iff (s := { s with cycles := _, lastCycles := cyc }) zero).mp same
            · intro silent
              exact ⟨_, rfl, (silent_iff (s := { s with cycles := _, lastCycles := cyc }) zero).mpr silent⟩
      · refine iff_of_true ⟨_, after_other head extract _, rfl⟩ fun here => absurd here extract

end MigrationDelay

namespace Analyser
open Analyse

/-- The event changes nothing: its location is not the longest, and it has no handler, moves a thread
    that has no stack to be moved, or is one of a loop where no service is open. -/
structure Inert (s : State) (e : Entry) : Prop where
  location : (e.location.utf8ByteSize : Int) ≤ s.longestLocationString
  passing : e.eventType.Passing = true
  migrate : e.eventType = .migrate → ∀ c, cpuOf e.pid2 ≠ some c →
    ((s.serviceStack c).bind fun m => m (.thread e.pid1)) = none
  loop : e.eventType = .loopstart ∨ e.eventType = .looprstart ∨ e.eventType = .loopstop →
    (s.serviceStack e.cpu).isSome ∧ s.currentStack e.cpu = []

section Inert
variable {s t : State} {e : Entry}

theorem measure_same (location : String) :
    s.measureLocation location = s ↔ (location.utf8ByteSize : Int) ≤ s.longestLocationString := by
  constructor
  · intro same
    have longest : max s.longestLocationString location.utf8ByteSize = s.longestLocationString :=
      congrArg State.longestLocationString same
    omega
  · intro short
    unfold State.measureLocation
    rw [max_eq_left short]

theorem touch_same (c : Fin 2) : s.touch c = s ↔ (s.serviceStack c).isSome := by
  constructor
  · intro same
    rw [← same]
    simp [State.touch]
  · intro known
    obtain ⟨maps, here⟩ := Option.isSome_iff_exists.mp known
    simp only [State.touch, here, Option.getD_some]
    rw [← here, Function.update_eq_self]

theorem not_appends_self : ¬ Appends s s := fun ⟨_, _, fresh, valid⟩ => fresh valid

theorem touched_only {location : String} (touched : s = (s.measureLocation location).touch e.cpu)
    (empty : (s.measureLocation location).currentStack e.cpu = []) :
    (location.utf8ByteSize : Int) ≤ s.longestLocationString ∧ (s.serviceStack e.cpu).isSome ∧
      s.currentStack e.cpu = [] := by
  have longest : s.longestLocationString = max s.longestLocationString location.utf8ByteSize :=
    congrArg State.longestLocationString touched
  refine ⟨by omega, ?_, empty⟩
  rw [touched]
  simp [State.touch]

theorem inert_loop (done : handleEvent (s.measureLocation e.location) e = some s)
    (loop : e.eventType = .loopstart ∨ e.eventType = .looprstart ∨ e.eventType = .loopstop) :
    (e.location.utf8ByteSize : Int) ≤ s.longestLocationString ∧ (s.serviceStack e.cpu).isSome ∧
      s.currentStack e.cpu = [] := by
  rcases loop with type | type | type
  · rcases loopstart_cases (by simpa [handleEvent, type] using done) with ⟨empty, touched⟩ | appends
    · exact touched_only touched empty
    · exact absurd appends not_appends_self
  · rcases looprstart_cases (by simpa [handleEvent, type] using done) with ⟨empty, touched⟩ | ⟨last, start, same⟩ | appends
    · exact touched_only touched empty
    · have start : (s.deref last).eventType = .loopstart := start
      have valid : s.Valid last := valid_of_type (by simp [start])
      have relabelled := congrArg (fun u => (u.deref last).eventType) same
      rw [deref_modify_self _ (s := (s.measureLocation e.location).touch e.cpu) valid, start] at relabelled
      cases relabelled
    · exact absurd appends not_appends_self
  · rcases loopstop_cases (by simpa [handleEvent, type] using done) with ⟨empty, touched⟩ | appends
    · exact touched_only touched empty
    · exact absurd appends not_appends_self

theorem holder_none_iff {leu : LEU} {target : Int} : s.holder leu target = none ↔
    ∀ c, cpuOf target ≠ some c → ((s.serviceStack c).bind fun m => m leu) = none := by
  simp [State.holder, Fin.forall_fin_two]

theorem migrate_same (done : handleMIGRATE (s.measureLocation e.location) e = some s) :
    (e.location.utf8ByteSize : Int) ≤ s.longestLocationString ∧ s.holder (.thread e.pid1) e.pid2 = none := by
  have same : (s.measureLocation e.location).holder (.thread e.pid1) e.pid2 = s.holder (.thread e.pid1) e.pid2 := rfl
  unfold handleMIGRATE at done
  dsimp only at done
  rw [same] at done
  cases held : s.holder (.thread e.pid1) e.pid2 with
  | none =>
    rw [held] at done
    exact ⟨(measure_same _).mp (Option.some.inj done), rfl⟩
  | some c =>
    have here := List.find?_some held
    rw [held] at done
    dsimp only at done
    split at done
    · cases done
    · split at done
      · cases done
      · have left := congrFun (congrArg State.serviceStack (Option.some.inj done)) c
        simp only [Function.update_self] at left
        rw [← left] at here
        cases maps : (s.measureLocation e.location).serviceStack c <;> simp [maps] at here

theorem inert_of_handle (done : handleEvent (s.measureLocation e.location) e = some s) : Inert s e := by
  have passing : e.eventType.Passing = true := by
    by_contra other
    have appends := appends_handle (by simpa using other) done
    exact not_appends_self (s := s) appends
  have ignored : handleEvent (s.measureLocation e.location) e = some (s.measureLocation e.location) →
      (e.location.utf8ByteSize : Int) ≤ s.longestLocationString := fun same =>
    (measure_same _).mp (Option.some.inj (same.symm.trans done))
  cases type : e.eventType with
  | migrate =>
    obtain ⟨short, none⟩ := migrate_same (by simpa [handleEvent, type] using done)
    exact ⟨short, passing, fun _ => holder_none_iff.mp none, by simp [type]⟩
  | loopstart | looprstart | loopstop =>
    obtain ⟨short, known⟩ := inert_loop done (by simp [type])
    exact ⟨short, passing, by simp [type], fun _ => known⟩
  | sync operation temporary =>
    cases temporary with
    | true => exact ⟨ignored (by simp [handleEvent, type]), passing, by simp [type], by simp [type]⟩
    | false => simp [type, EventType.Passing] at passing
  | pktextr | pktextrn | threadcond | other =>
    exact ⟨ignored (by simp [handleEvent, type]), passing, by simp [type], by simp [type]⟩
  | _ => simp [type, EventType.Passing] at passing

theorem handle_of_inert (inert : Inert s e) : handleEvent (s.measureLocation e.location) e = some s := by
  obtain ⟨short, passing, migrate, loop⟩ := inert
  rw [(measure_same _).mpr short]
  cases type : e.eventType with
  | migrate =>
    have none := holder_none_iff.mpr (migrate type)
    simp [handleEvent, type, handleMIGRATE, none]
  | loopstart =>
    obtain ⟨known, empty⟩ := loop (by simp [type])
    simp [handleEvent, type, handleLOOPSTART, (touch_same e.cpu).mpr known, empty]
  | looprstart =>
    obtain ⟨known, empty⟩ := loop (by simp [type])
    simp [handleEvent, type, handleLOOPRSTART, (touch_same e.cpu).mpr known, empty]
  | loopstop =>
    obtain ⟨known, empty⟩ := loop (by simp [type])
    simp [handleEvent, type, handleLOOPSTOP, (touch_same e.cpu).mpr known, State.pop, empty]
  | sync operation temporary =>
    cases temporary with
    | true => simp [handleEvent, type]
    | false => simp [type, EventType.Passing] at passing
  | pktextr | pktextrn | threadcond | other => simp [handleEvent, type]
  | _ => simp [type, EventType.Passing] at passing

theorem inert_iff : handleEvent (s.measureLocation e.location) e = some s ↔ Inert s e :=
  ⟨inert_of_handle, handle_of_inert⟩

end Inert

def addresses (r : Run) : Option String → Option (String → Option Int)
  | some "ID_QUEUE" => some r.state.addrMap
  | some "ID_SYNCH" => some r.state.addrMapSynch
  | _ => none

/-- The line is not shorter than three bytes; an ID line has an address, which is 0 or known with
    the same number already; and a line with a location, also an empty one, is not analysed or
    changes nothing. -/
structure Safe (r : Run) (e : Sepentry) (cut : String) : Prop where
  bytes : 3 ≤ cut.utf8ByteSize
  address : ∀ map ∈ addresses r (splitWhitespace cut).head?, ∃ addr, (splitWhitespace cut)[7]? = some addr ∧
    (addr = "0" ∨ map addr = some ((e.pid1.toNat % 65536 : Nat) : Int))
  event : (splitWhitespace cut).length = 9 →
    (addresses r (splitWhitespace cut).head? = none ∨ (splitWhitespace cut)[7]? = some "0") →
    (cpuOf e.cpu.toNat).isSome ∧ ∀ x ∈ r.entryOf (lexLine cut), Inert r.state x

theorem not_eod {e : Sepentry} {cut : String} (traced : e.type ≠ .typeFirst)
    (part : cut.toList <+: (usnlLine e).toList) : "EOD".toList.isPrefixOf cut.toList = false := by
  by_contra eod
  have begins := (List.isPrefixOf_iff_prefix.mp (by simpa using eod)).trans part
  rw [toList_line] at begins
  rcases prefix_append_cases begins with short | ⟨q, rest, _⟩
  · revert short traced
    cases e.type <;> decide
  · revert rest traced
    cases e.type <;> simp [typeName]

theorem columns_cut {e : Sepentry} {fields : List String} (truncated : Truncated e fields) :
    (fields.length < 9 ∧ columnsLine fields = .short) ∨
    (fields.length = 9 ∧ ∃ f currentPid cyc pid1 pid2, columnsLine fields = .columns f ∧
      f.cpu = some (e.cpu.toNat : Int) ∧ f.currentPid = some currentPid ∧ f.cyc = some cyc ∧ f.pid1 = some pid1 ∧
      f.pid2 = some pid2) := by
  have limits := truncated_length truncated
  rcases Nat.eq_or_lt_of_le limits.2 with nine | short
  · obtain ⟨k, w, last, found, _, rfl⟩ := truncated
    have inside := (List.getElem?_eq_some_iff.mp found).1
    rw [List.length_append, List.length_take, List.length_singleton] at nine
    obtain rfl : k = 8 := by omega
    have read : ∀ n, n < 2 ^ 32 → atoi (numeral 10 n) = some (n : Int) := fun n small =>
      parse_numeral (by decide) (by decide) (by omega)
    have cpu := e.cpu.toNat_lt
    have pid := e.currpid.toNat_lt
    have cycles := e.cycles.toNat_lt
    exact Or.inr ⟨rfl, _, _, _, _, _, rfl, read _ (by omega), read _ (by omega), read _ (by omega), read _ (by omega),
      read _ (by omega)⟩
  · refine Or.inl ⟨short, ?_⟩
    unfold columnsLine
    split
    · simp only [List.length_cons] at short
      omega
    · rfl

theorem columns_line_iff {r : Run} {e : Sepentry} {fields : List String} (truncated : Truncated e fields)
    (going : r.returned = false) :
    (∃ t, r.line (columnsLine fields) = some t ∧ t.state = r.state) ↔
      (fields.length = 9 → (cpuOf e.cpu.toNat).isSome ∧ ∀ x ∈ r.entryOf (columnsLine fields), Inert r.state x) := by
  simp only [← inert_iff]
  rcases columns_cut truncated with ⟨short, line⟩ | ⟨nine, f, currentPid, cyc, pid1, pid2, line, cpu, known⟩
  · rw [line]
    refine iff_of_true ⟨{ r with lineNumber := r.lineNumber + 1 }, ?_, rfl⟩ fun nine => by omega
    simp [Run.line, going]
  · obtain ⟨known_pid, known_cyc, known_pid1, known_pid2⟩ := known
    rw [line]
    simp only [nine, forall_const]
    have step : r.line (.columns f) = ({ r with lineNumber := r.lineNumber + 1 } : Run).columns f := by
      simp [Run.line, going]
    rw [step]
    unfold Run.columns Run.entryOf
    simp only [going, cpu, known_pid, known_cyc, known_pid1, known_pid2, bind, Option.bind_some, Bool.false_eq_true,
      if_false]
    cases core : cpuOf e.cpu.toNat with
    | none => simp
    | some c =>
      simp only [Option.bind_some, Option.isSome_some, true_and]
      by_cases skipped : (r.traceState c).limbo = true ∧ f.eventType ≠ .ctxsw
      · simp [skipped]
      · simp only [skipped, if_false, Option.mem_def, Option.some.injEq, forall_eq', Option.bind_eq_some_iff]
        constructor
        · rintro ⟨t, ⟨s, handled, rfl⟩, same⟩
          exact same ▸ handled
        · intro handled
          exact ⟨_, ⟨_, handled, rfl⟩, rfl⟩

theorem id_cut {e : Sepentry} {fields : List String} (truncated : Truncated e fields) (make : String → Int → Line) :
    (fields[7]? = none ∧ idLine fields make = some .panics) ∨
    (fields[7]? = some "0" ∧ idLine fields make = none) ∨
    ∃ addr, fields[7]? = some addr ∧ addr ≠ "0" ∧
      idLine fields make = some (make addr ((e.pid1.toNat % 65536 : Nat) : Int)) := by
  unfold idLine
  cases field : fields[7]? with
  | none => exact Or.inl ⟨rfl, rfl⟩
  | some addr =>
    refine Or.inr ?_
    dsimp only
    by_cases unset : addr = "0"
    · rw [if_pos unset]
      exact Or.inl ⟨congrArg some unset, rfl⟩
    · have long := (List.getElem?_eq_some_iff.mp field).1
      have pid1 : fields[4]? = some (numeral 10 (e.pid1.toNat % 65536)) := truncated_field truncated (by omega)
      have read : atoi (numeral 10 (e.pid1.toNat % 65536)) = some ((e.pid1.toNat % 65536 : Nat) : Int) :=
        parse_numeral (by decide) (by decide) (by omega)
      rw [if_neg unset, pid1, Option.bind_some, read]
      exact Or.inr ⟨addr, rfl, unset, rfl⟩

theorem update_same {A : Type*} {m : String → Option A} {addr : String} {id : A} :
    Function.update m addr (some id) = m ↔ m addr = some id := by
  constructor
  · intro same
    rw [← same, Function.update_self]
  · intro known
    rw [← known, Function.update_eq_self]

section Lines
variable {r : Run} {e : Sepentry} {cut : String}

theorem plain_line_iff (truncated : Truncated e (splitWhitespace cut)) (going : r.returned = false)
    (line : lexLine cut = columnsLine (splitWhitespace cut)) (bytes : 3 ≤ cut.utf8ByteSize)
    (address : ∀ map ∈ addresses r (splitWhitespace cut).head?, (splitWhitespace cut)[7]? = some "0") :
    (∃ t, r.line (lexLine cut) = some t ∧ t.state = r.state) ↔ Safe r e cut := by
  have unmapped : addresses r (splitWhitespace cut).head? = none ∨ (splitWhitespace cut)[7]? = some "0" := by
    cases known : addresses r (splitWhitespace cut).head? with
    | none => exact Or.inl rfl
    | some map => exact Or.inr (address map known)
  have event := columns_line_iff truncated going
  rw [← line] at event
  rw [event]
  constructor
  · intro nine
    exact ⟨bytes, fun map known => ⟨"0", address map known, Or.inl rfl⟩, fun long _ => nine long⟩
  · intro safe nine
    exact safe.event nine unmapped

theorem id_line_iff (truncated : Truncated e (splitWhitespace cut)) (going : r.returned = false)
    (bytes : 3 ≤ cut.utf8ByteSize) (make : String → Int → Line) {map : String → Option Int}
    (line : lexLine cut = (idLine (splitWhitespace cut) make).getD (columnsLine (splitWhitespace cut)))
    (known : addresses r (splitWhitespace cut).head? = some map)
    (set : ∀ addr id, (∃ t, r.line (make addr id) = some t ∧ t.state = r.state) ↔ map addr = some id) :
    (∃ t, r.line (lexLine cut) = some t ∧ t.state = r.state) ↔ Safe r e cut := by
  rcases id_cut truncated make with ⟨field, special⟩ | ⟨field, special⟩ | ⟨addr, field, filled, special⟩
  · rw [line, special]
    refine iff_of_false (by simp [Run.line, going]) fun safe => ?_
    obtain ⟨addr, here, _⟩ := safe.address map known
    rw [field] at here
    cases here
  · rw [special] at line
    exact plain_line_iff truncated going line bytes fun _ _ => field
  · rw [line, special, Option.getD_some, set]
    constructor
    · intro same
      refine ⟨bytes, fun other here => ?_, fun _ plain => ?_⟩
      · obtain rfl := Option.some.inj (known.symm.trans here)
        exact ⟨addr, field, Or.inr same⟩
      · rcases plain with none | zero
        · rw [known] at none
          cases none
        · exact absurd (Option.some.inj (field.symm.trans zero)) filled
    · intro safe
      obtain ⟨other, here, same⟩ := safe.address map known
      obtain rfl := Option.some.inj (field.symm.trans here)
      exact same.resolve_left filled

theorem line_cut_iff (traced : e.type ≠ .typeFirst) (part : cut.toList <+: (usnlLine e).toList)
    (going : r.returned = false) :
    (∃ t, r.line (lexLine cut) = some t ∧ t.state = r.state) ↔ Safe r e cut := by
  have truncated := cut_fields traced part
  by_cases bytes : cut.utf8ByteSize < 3
  · have line : lexLine cut = .panics := by simp [lexLine, bytes]
    rw [line]
    refine iff_of_false (by simp [Run.line, going]) fun safe => absurd safe.bytes (by omega)
  have eod : ¬ "EOD".toList.isPrefixOf cut.toList = true := by
    rw [not_eod traced part]
    decide
  by_cases queue : (splitWhitespace cut).head? = some "ID_QUEUE"
  · refine id_line_iff truncated going (by omega) .idQueue ?_ (by rw [queue]; rfl) fun addr id => ?_
    · unfold lexLine
      rw [if_neg bytes, if_neg eod]
      simp only [queue]
    · have step : r.line (.idQueue addr id) = some (({ r with lineNumber := r.lineNumber + 1 } : Run).setAddr addr id) := by
        simp [Run.line, going]
      rw [step, ← update_same]
      constructor
      · rintro ⟨t, done, same⟩
        obtain rfl := Option.some.inj done
        exact congrArg State.addrMap same
      · intro same
        refine ⟨_, rfl, ?_⟩
        simp [Run.setAddr, same]
  by_cases synch : (splitWhitespace cut).head? = some "ID_SYNCH"
  · refine id_line_iff truncated going (by omega) .idSynch ?_ (by rw [synch]; rfl) fun addr id => ?_
    · unfold lexLine
      rw [if_neg bytes, if_neg eod]
      simp only [synch]
    · have step : r.line (.idSynch addr id) =
          some (({ r with lineNumber := r.lineNumber + 1 } : Run).setAddrSynch addr id) := by
        simp [Run.line, going]
      rw [step, ← update_same]
      constructor
      · rintro ⟨t, done, same⟩
        obtain rfl := Option.some.inj done
        exact congrArg State.addrMapSynch same
      · intro same
        refine ⟨_, rfl, ?_⟩
        simp [Run.setAddrSynch, same]
  · have unmapped : addresses r (splitWhitespace cut).head? = none := by
      unfold addresses
      split
      · next here => exact absurd here queue
      · next here => exact absurd here synch
      · rfl
    refine plain_line_iff truncated going ?_ (by omega) (by simp [unmapped])
    unfold lexLine
    rw [if_neg bytes, if_neg eod]
    dsimp only
    split
    · next here => exact absurd here queue
    · next here => exact absurd here synch
    · rfl

end Lines

theorem going_line {r t : Run} {l : Line} (going : r.returned = false) (done : r.line l = some t)
    (pids : ∀ f, l = .columns f → f.currentPid.isSome) : t.returned = false := by
  unfold Run.line at done
  rw [if_neg (by simp [going])] at done
  cases l with
  | panics => cases done
  | columns f =>
    obtain ⟨cpu, _, ⟨_, _, rfl⟩ | ⟨_, ⟨none, _⟩ | ⟨_, _, _, _, _, _, _, _, _, _, rfl⟩⟩⟩ := columns_cases done
    · exact going
    · have known := pids f rfl
      simp [none] at known
    · exact going
  | eod => exact Option.some.inj done ▸ going
  | idQueue addr id => exact Option.some.inj done ▸ going
  | idSynch addr id => exact Option.some.inj done ▸ going
  | short => exact Option.some.inj done ▸ going

theorem going_run {complete : List Record} (traced : ∀ e, .entry e ∈ complete → e.type ≠ .typeFirst) {r t : Run}
    (going : r.returned = false) (done : r.lines (complete.map fun x => lexLine x.text) = some t) :
    t.returned = false := by
  induction complete generalizing r with
  | nil => exact Option.some.inj done ▸ going
  | cons x complete ih =>
    simp only [Run.lines, List.map_cons, List.foldlM_cons, bind, Option.bind_eq_some_iff] at done
    obtain ⟨u, first, rest⟩ := done
    refine ih (fun e member => traced e (by simp [member])) (going_line going first fun f lexed => ?_) rest
    have columns := columns_of_lex lexed
    cases x with
    | eod =>
      have short : columnsLine (splitWhitespace Record.eod.text) = .short := by decide
      rw [short] at columns
      cases columns
    | entry e =>
      have fields : splitWhitespace (Record.entry e).text = words e := split_line (traced e (by simp))
      rw [fields] at columns
      obtain rfl := Line.columns.inj columns
      have read : atoi (numeral 10 e.currpid.toNat) = some (e.currpid.toNat : Int) :=
        parse_numeral (by decide) (by decide) (by have := e.currpid.toNat_lt; omega)
      exact Option.isSome_iff_exists.mpr ⟨_, read⟩

end Analyser

def AsIfAbsent {S E : Type*} (main : List String → Option S) (effect : S → E) (complete : List Record)
    (cut : String) : Prop :=
  ∃ s t, main (complete.map Record.text) = some s ∧ main (complete.map Record.text ++ [cut]) = some t ∧
    effect t = effect s

theorem absent_iff {S E : Type*} {main : List String → Option S} (step : S → String → Option S) {effect : S → E}
    {complete : List Record} {cut : String} {P : S → Prop}
    (runs : ∀ ls, main (ls ++ [cut]) = (main ls).bind fun s => step s cut)
    (last : ∀ s, main (complete.map Record.text) = some s → ((∃ t, step s cut = some t ∧ effect t = effect s) ↔ P s)) :
    AsIfAbsent main effect complete cut ↔ ∃ s, main (complete.map Record.text) = some s ∧ P s := by
  unfold AsIfAbsent
  rw [runs]
  constructor
  · rintro ⟨s, t, done, rest, same⟩
    rw [done] at rest
    exact ⟨s, done, (last s done).mp ⟨t, rest, same⟩⟩
  · rintro ⟨s, done, safe⟩
    obtain ⟨t, rest, same⟩ := (last s done).mpr safe
    exact ⟨s, t, done, by rw [done]; exact rest, same⟩

def AnalyserSafe (r : Analyse.Run) : Record → String → Prop
  | .eod, _ => False
  | .entry e, cut => Analyser.Safe r e cut

def IntraOsSafe (s : DelayScripts.IntraOsDelay.Script) : Record → String → Prop
  | .eod, _ => True
  | .entry e, cut => IntraOsDelay.Safe s e (splitWhitespace cut)

def MigrationSafe (pid : Int) (s : DelayScripts.MigrationDelay.Script) : Record → String → Prop
  | .eod, _ => True
  | .entry e, cut => MigrationDelay.Safe pid s e (splitWhitespace cut)

theorem cut_eod {cut : String} (begun : cut ≠ "") (part : cut.toList <+: "EOD".toList) (unfinished : cut ≠ "EOD") :
    cut = "E" ∨ cut = "EO" := by
  have inits : cut.toList <+: ['E', 'O', 'D'] := part
  have text : ∀ cs : List Char, cut.toList = cs → cut = String.ofList cs := by
    rintro _ rfl
    exact String.ofList_toList.symm
  simp only [List.prefix_cons_iff, List.prefix_nil] at inits
  rcases inits with none | ⟨_, one, rfl | ⟨_, rfl, rfl | ⟨_, rfl, rfl⟩⟩⟩
  · exact absurd (text _ none) begun
  · exact Or.inl (text _ one)
  · exact Or.inr (text _ one)
  · exact absurd (text _ one) unfinished

theorem eod_ignored {records complete : List Record} {cut : String} (here : Cut records complete .eod cut) :
    DelayScripts.reading (splitWhitespace cut) = .ignored := by
  rcases cut_eod here.begun here.part here.unfinished with rfl | rfl
  · decide
  · decide

/-- A file that was cut off at any byte is read as its complete lines and at most one cut line. Each
    program gets past the cut line, as if it were absent, exactly if the line is safe for it. -/
theorem truncated_traces_iff {records : List Record} (traced : ∀ e, .entry e ∈ records → e.type ≠ .typeFirst) :
    (∀ bytes, bytes <+: fileOf records →
      (∃ complete, complete <+: records ∧ scanLines bytes = complete.map Record.text) ∨
      ∃ complete next cut, Cut records complete next cut ∧ scanLines bytes = complete.map Record.text ++ [cut]) ∧
    ∀ complete next cut, Cut records complete next cut →
      (AsIfAbsent Analyse.run Analyse.Run.state complete cut ↔
        ∃ r, Analyse.run (complete.map Record.text) = some r ∧ AnalyserSafe r next cut) ∧
      (AsIfAbsent DelayScripts.IntraOsDelay.main (fun s => reports s.out) complete cut ↔
        ∃ s, DelayScripts.IntraOsDelay.main (complete.map Record.text) = some s ∧ IntraOsSafe s next cut) ∧
      ∀ pid, AsIfAbsent (DelayScripts.MigrationDelay.main pid) (fun s => reports s.out) complete cut ↔
        ∃ s, DelayScripts.MigrationDelay.main pid (complete.map Record.text) = some s ∧ MigrationSafe pid s next cut := by
  refine ⟨fun bytes kept => prefix_lines kept, fun complete next cut here => ?_⟩
  have inside : ∀ {x}, x ∈ complete ++ [next] → x ∈ records := fun member => here.order.subset member
  refine ⟨?_, ?_, fun pid => ?_⟩
  · refine absent_iff (fun r cut => r.line (Analyse.lexLine cut)) (fun ls => ?_) fun r done => ?_
    · simp [Analyse.run, Analyse.Run.lines]
    · have lines : Analyse.Run.initial.lines (complete.map fun x => Analyse.lexLine x.text) = some r := by
        rw [Analyse.run, List.map_map] at done
        exact done
      have going : r.returned = false :=
        Analyser.going_run (fun e member => traced e (inside (by simp [member]))) rfl lines
      cases next with
      | eod =>
        refine iff_of_false ?_ id
        rcases cut_eod here.begun here.part here.unfinished with rfl | rfl
        · simp [Analyse.Run.line, going, show Analyse.lexLine "E" = .panics from by decide]
        · simp [Analyse.Run.line, going, show Analyse.lexLine "EO" = .panics from by decide]
      | entry e => exact Analyser.line_cut_iff (traced e (inside (by simp))) here.part going
  · refine absent_iff DelayScripts.IntraOsDelay.Script.line (fun ls => ?_) fun s done => ?_
    · simp [DelayScripts.IntraOsDelay.main]
    · cases next with
      | eod =>
        refine iff_of_true ⟨s, ?_, rfl⟩ trivial
        simp [DelayScripts.IntraOsDelay.Script.line, eod_ignored here]
      | entry e => exact IntraOsDelay.line_cut_iff (cut_fields (traced e (inside (by simp))) here.part)
  · refine absent_iff (DelayScripts.MigrationDelay.Script.line pid) (fun ls => ?_) fun s done => ?_
    · simp [DelayScripts.MigrationDelay.main]
    · cases next with
      | eod =>
        refine iff_of_true ⟨s, ?_, rfl⟩ trivial
        simp [DelayScripts.MigrationDelay.Script.line, eod_ignored here]
      | entry e => exact MigrationDelay.line_cut_iff (cut_fields (traced e (inside (by simp))) here.part)

def twoRecords : List Record :=
  [.entry ⟨.ctxswitch, 5, 1, 2, 0, 0, 0, 1, 0⟩, .entry ⟨.serviceentry, 9, 0, 0, 0, 0xc0008000, 0xc0009000, 2, 0⟩]

def firstRecord : List Record := [.entry ⟨.ctxswitch, 5, 1, 2, 0, 0, 0, 1, 0⟩]

def secondRecord : Record := .entry ⟨.serviceentry, 9, 0, 0, 0, 0xc0008000, 0xc0009000, 2, 0⟩

theorem cut_second {cut : String} (begun : cut ≠ "") (part : cut.toList.isPrefixOf secondRecord.text.toList = true)
    (unfinished : cut ≠ secondRecord.text) : Cut twoRecords firstRecord secondRecord cut :=
  ⟨List.prefix_refl _, begun, List.isPrefixOf_iff_prefix.mp part, unfinished⟩

theorem truncated_traces_cycles : Cut twoRecords firstRecord secondRecord "SRVENTRY   0 2 " ∧
    AsIfAbsent Analyse.run Analyse.Run.state firstRecord "SRVENTRY   0 2 " ∧
    AsIfAbsent DelayScripts.IntraOsDelay.main (fun s => reports s.out) firstRecord "SRVENTRY   0 2 " ∧
    AsIfAbsent (DelayScripts.MigrationDelay.main 7) (fun s => reports s.out) firstRecord "SRVENTRY   0 2 " := by
  have here : Cut twoRecords firstRecord secondRecord "SRVENTRY   0 2 " :=
    cut_second (by decide) (by decide +kernel) (by decide +kernel)
  have fields : splitWhitespace "SRVENTRY   0 2 " = ["SRVENTRY", "0", "2", ""] := by decide +kernel
  have traced : ∀ e, Record.entry e ∈ twoRecords → e.type ≠ .typeFirst := by
    simp [twoRecords]
  obtain ⟨analysed, intra, migration⟩ := (truncated_traces_iff traced).2 _ _ _ here
  obtain ⟨r, run⟩ := Option.isSome_iff_exists.mp
    (show (Analyse.run (firstRecord.map Record.text)).isSome = true from by decide +kernel)
  obtain ⟨s, main⟩ := Option.isSome_iff_exists.mp
    (show (DelayScripts.IntraOsDelay.main (firstRecord.map Record.text)).isSome = true from by decide +kernel)
  obtain ⟨t, main'⟩ := Option.isSome_iff_exists.mp
    (show (DelayScripts.MigrationDelay.main 7 (firstRecord.map Record.text)).isSome = true from by decide +kernel)
  refine ⟨here, analysed.mpr ⟨r, run, ?_⟩, intra.mpr ⟨s, main, ?_⟩, (migration 7).mpr ⟨t, main', ?_⟩⟩
  · exact ⟨by decide, by simp [fields, Analyser.addresses], by simp [fields]⟩
  · exact fun _ => ⟨by simp [fields], by simp⟩
  · exact ⟨by simp [fields], by simp, by simp⟩

theorem cut_line_panics :
    Cut twoRecords firstRecord secondRecord "S" ∧ Analyse.run (firstRecord.map Record.text ++ ["S"]) = none ∧
    Cut twoRecords firstRecord secondRecord "SRVENTRY   0 2" ∧
    DelayScripts.IntraOsDelay.main (firstRecord.map Record.text ++ ["SRVENTRY   0 2"]) = none ∧
    DelayScripts.MigrationDelay.main 7 (firstRecord.map Record.text ++ ["SRVENTRY   0 2"]) = none := by
  refine ⟨cut_second (by decide) (by decide +kernel) (by decide +kernel), ?_,
    cut_second (by decide) (by decide +kernel) (by decide +kernel), ?_, ?_⟩
  · exact Option.isNone_iff_eq_none.mp (by decide +kernel)
  · exact Option.isNone_iff_eq_none.mp (by decide +kernel)
  · exact Option.isNone_iff_eq_none.mp (by decide +kernel)

end TruncatedTraces
