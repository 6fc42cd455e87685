import SepExtract.DelayScripts
import SepExtract.UsnlTraceText

/- The delays intraosdelay.go prints for a trace of usnl, against the sends and receives of the
   trace: which receive a send is paired with, and which one the script has noted. -/
namespace DelayScripts.IntraOsDelay
open GoText TracerKernel NumberTexts UsnlTraceText
open WrappingCounter (Clock)

inductive Record where
  | eod
  | entry (e : Sepentry)
  deriving DecidableEq, Repr

def Record.text : Record → String
  | .eod => "EOD"
  | .entry e => usnlLine e

structure Extracted where
  eventType : Int
  seqno : Int
  cycles : Int
  deriving DecidableEq, Repr

/-- The cycles of the latest receive of a packet since its latest send; histories are of one
    segment and have the latest extract first. -/
def received (seqno : Int) : List Extracted → Option Int
  | [] => none
  | x :: older =>
    if x.seqno = seqno ∧ x.eventType = 2 then none
    else if x.seqno = seqno ∧ x.eventType = 1 then some x.cycles
    else received seqno older

def marked : List Extracted → Bool
  | [] => false
  | x :: older => if x.eventType = 0 then true else if x.eventType = 1 then false else marked older

/-- The receive the script has noted: the latest marked one since the latest send. -/
def noted (seqno : Int) : List Extracted → Option Int
  | [] => none
  | x :: older =>
    if x.seqno = seqno ∧ x.eventType = 2 then none
    else if x.seqno = seqno ∧ x.eventType = 1 ∧ marked older then some x.cycles
    else noted seqno older

inductive Due where
  | eod
  | send (x : Extracted) (before : List Extracted)

def extractOf (e : Sepentry) (c : Clock) : Extracted := ⟨(e.pid2.toNat % 65536 : Nat), e.data.toNat, c.cycles⟩

def dues : Clock → List Extracted → List Record → List Due
  | _, _, [] => []
  | c, _, .eod :: rest => .eod :: dues c [] rest
  | c, before, .entry e :: rest =>
    if e.cpu ≠ 0 then dues c before rest
    else
      let c := c.advance 0xFFFFFFFF e.cycles.toNat
      if e.type ≠ .pktextract then dues c before rest
      else
        let x := extractOf e c
        if x.eventType = 2 ∧ x.seqno ≠ 0 then .send x before :: dues c (x :: before) rest
        else dues c (x :: before) rest

/-- The DELTA line that a pairing of sends with receives asks for; none stands for EOD. -/
def Due.line (pairing : Int → List Extracted → Option Int) : Due → Option (Option (Int × Int))
  | .eod => some none
  | .send x before => (pairing x.seqno before).map fun v => some (x.seqno, x.cycles - v)

def Due.Answered : Due → Prop
  | .eod => True
  | .send x before => noted x.seqno before = received x.seqno before

instance : DecidablePred Due.Answered
  | .eod => isTrue trivial
  | .send x before => inferInstanceAs (Decidable (noted x.seqno before = received x.seqno before))

def delayLine : Printed → Option (Option (Int × Int))
  | .eod => some none
  | .delta seqno cycles => some (some (seqno, cycles))
  | _ => none

def Record.Known : Record → Prop
  | .eod => True
  | .entry e => e.type ≠ .typeFirst ∧ (e.cpu = 0 → e.type = .pktextract →
      e.pid2.toNat % 65536 = 0 ∨ e.pid2.toNat % 65536 = 1 ∨ e.pid2.toNat % 65536 = 2 ∨ e.pid2.toNat % 65536 = 4)

instance : DecidablePred Record.Known
  | .eod => isTrue trivial
  | .entry _ => inferInstanceAs (Decidable (_ ∧ (_ → _ → _ ∨ _ ∨ _ ∨ _)))

theorem type_name_eod (t : SepentryType) : typeName t ≠ "EOD" := by
  cases t <;> decide

theorem type_name_pktextr (t : SepentryType) : typeName t = "PKTEXTR" ↔ t = .pktextract := by
  cases t <;> decide

theorem cpu_text (e : Sepentry) : numeral 10 e.cpu.toNat = "0" ↔ e.cpu = 0 := by
  constructor
  · intro text
    have value : numeral 10 e.cpu.toNat = numeral 10 (0 : UInt16).toNat := text
    exact UInt16.toNat_inj.mp (numeral_injective (by decide) (by decide) value)
  · intro core
    rw [core]
    rfl

theorem reading_entry (e : Sepentry) :
    reading (words e) = if e.cpu = 0 then .cycles e.cycles.toNat else .ignored := by
  have other : ¬ (words e).head? = some "EOD" := by simp [words, type_name_eod]
  have long : ¬ (words e).length < 3 := by simp [words, numbers]
  have number : atoi (numeral 10 e.cycles.toNat) = some (e.cycles.toNat : Int) :=
    parse_numeral (by decide) (by decide) (by have := e.cycles.toNat_lt; omega)
  have cpu : (words e)[1]? = some (numeral 10 e.cpu.toNat) := rfl
  have cycles : (words e)[3]? = some (numeral 10 e.cycles.toNat) := rfl
  unfold reading
  rw [if_neg other, if_neg long, cpu, cycles]
  simp only [ne_eq, Option.some.injEq, cpu_text, number]
  by_cases core : e.cpu = 0
  · rw [if_neg (by simpa using core), if_pos core]
  · rw [if_pos core, if_neg core]

theorem extract_entry (e : Sepentry) :
    extract (words e) = .packet ((e.pid2.toNat % 65536 : Nat) : Int) (e.data.toNat : Int) := by
  have event : parseInt 10 (numeral 10 (e.pid2.toNat % 65536)) = some ((e.pid2.toNat % 65536 : Nat) : Int) :=
    parse_numeral (by decide) (by decide) (by omega)
  have number : parseInt 16 (numeral 16 e.data.toNat) = some (e.data.toNat : Int) :=
    parse_numeral (by decide) (by decide) (by have := e.data.toNat_lt; omega)
  have five : (words e)[5]? = some (numeral 10 (e.pid2.toNat % 65536)) := rfl
  have six : (words e)[6]? = some (numeral 16 e.data.toNat) := rfl
  simp only [extract, five, six, event, number]

theorem line_entry {e : Sepentry} (traced : e.type ≠ .typeFirst) (s : Script) : s.line (usnlLine e) =
    if e.cpu = 0 then
      let s := { s with cycles := s.cycles + delta s.lastCycles e.cycles.toNat, lastCycles := e.cycles.toNat }
      if e.type = .pktextract then s.packet ((e.pid2.toNat % 65536 : Nat) : Int) (e.data.toNat : Int) else some s
    else some s := by
  have head : (words e).head? = some "PKTEXTR" ↔ e.type = .pktextract := by simp [words, type_name_pktextr]
  unfold Script.line
  rw [split_line traced]
  dsimp only
  rw [reading_entry, extract_entry]
  by_cases core : e.cpu = 0
  · rw [if_pos core, if_pos core]
    by_cases extract : e.type = .pktextract
    · simp [head, extract]
    · simp [head, extract]
  · rw [if_neg core, if_neg core]

theorem line_eod (s : Script) : s.line "EOD" = some { s.print .eod with packets := fun _ => none, rxstart := -1 } := by
  have split : splitWhitespace "EOD" = ["EOD"] := by decide +kernel
  unfold Script.line
  rw [split]
  rfl

structure Mirrors (s : Script) (c : Clock) (before : List Extracted) : Prop where
  lastCycles : s.lastCycles = c.reading
  cycles : s.cycles = c.cycles
  positive : 0 ≤ c.cycles
  range : 0 ≤ c.reading ∧ c.reading ≤ 0xFFFFFFFF
  rxstart : s.rxstart = -1 ↔ marked before = false
  packets : ∀ seqno, seqno ≠ 0 → s.packets seqno = noted seqno before

theorem mirrors_initial : Mirrors .initial ⟨0, 0⟩ [] := by
  refine ⟨rfl, rfl, by decide, by decide, by decide, fun _ _ => rfl⟩

theorem mirrors_advance {s : Script} {c : Clock} {before : List Extracted} (mirrors : Mirrors s c before)
    (cyc : UInt32) :
    Mirrors { s with cycles := s.cycles + delta s.lastCycles cyc.toNat, lastCycles := cyc.toNat }
      (c.advance 0xFFFFFFFF cyc.toNat) before := by
  have small := cyc.toNat_lt
  have range := mirrors.range
  have positive := mirrors.positive
  refine ⟨rfl, ?_, ?_, ?_, mirrors.rxstart, mirrors.packets⟩
  · simp only [Clock.advance, mirrors.cycles, mirrors.lastCycles, delta]
  · simp only [Clock.advance, WrappingCounter.delta]
    split <;> omega
  · simp only [Clock.advance]
    omega

theorem noted_other {x : Extracted} {before : List Extracted} {seqno : Int}
    (other : ¬ (x.seqno = seqno ∧ (x.eventType = 1 ∨ x.eventType = 2))) :
    noted seqno (x :: before) = noted seqno before := by
  have send : ¬ (x.seqno = seqno ∧ x.eventType = 2) := fun hit => other ⟨hit.1, Or.inr hit.2⟩
  have receive : ¬ (x.seqno = seqno ∧ x.eventType = 1 ∧ marked before = true) := by
    intro hit
    exact other ⟨hit.1, Or.inl hit.2.1⟩
  rw [noted, if_neg send, if_neg receive]

section Packets
variable {s : Script} {c : Clock} {before : List Extracted} {x : Extracted}

theorem mirrors_extract {t : Script} (mirrors : Mirrors s c before)
    (clock : t.lastCycles = s.lastCycles ∧ t.cycles = s.cycles)
    (rxstart : t.rxstart = -1 ↔ marked (x :: before) = false)
    (packets : ∀ seqno, seqno ≠ 0 → t.packets seqno = noted seqno (x :: before)) : Mirrors t c (x :: before) := by
  constructor
  · exact clock.1.trans mirrors.lastCycles
  · exact clock.2.trans mirrors.cycles
  · exact mirrors.positive
  · exact mirrors.range
  · exact rxstart
  · exact packets

theorem packets_update (mirrors : Mirrors s c before) {v : Option Int} (value : noted x.seqno (x :: before) = v)
    (seqno : Int) (filled : seqno ≠ 0) : Function.update s.packets x.seqno v seqno = noted seqno (x :: before) := by
  by_cases here : x.seqno = seqno
  · subst here
    rw [value]
    exact Function.update_self ..
  · rw [noted_other (fun hit => here hit.1), ← mirrors.packets seqno filled]
    exact Function.update_of_ne (Ne.symm here) ..

theorem packets_zero (mirrors : Mirrors s c before) (zero : x.seqno = 0) (seqno : Int) (filled : seqno ≠ 0) :
    s.packets seqno = noted seqno (x :: before) := by
  rw [noted_other (fun hit => filled (hit.1.symm.trans zero))]
  exact mirrors.packets seqno filled

theorem mirrors_restart (mirrors : Mirrors s c before) (event : x.eventType = 0) :
    Mirrors { s with rxstart := s.cycles } c (x :: before) := by
  have positive := mirrors.positive
  have cycles := mirrors.cycles
  refine mirrors_extract mirrors ⟨rfl, rfl⟩ ?_ fun seqno filled => ?_
  · simp only [marked, event, if_true, Bool.true_eq_false, iff_false]
    omega
  · rw [noted_other (by simp [event])]
    exact mirrors.packets seqno filled

theorem mirrors_receive (mirrors : Mirrors s c before) (event : x.eventType = 1) (now : x.cycles = c.cycles) :
    ∃ t, s.packet 1 x.seqno = some t ∧ Mirrors t c (x :: before) ∧
      t.out.filterMap delayLine = s.out.filterMap delayLine := by
  have unmarked : marked (x :: before) = false := by simp [marked, event]
  by_cases none : s.rxstart = -1
  · refine ⟨s, by simp [Script.packet, none], ?_, rfl⟩
    refine mirrors_extract mirrors ⟨rfl, rfl⟩ (by simp [unmarked, none]) fun seqno filled => ?_
    rw [noted, if_neg (by simp [event]), if_neg (by simp [mirrors.rxstart.mp none])]
    exact mirrors.packets seqno filled
  · have first : marked before = true := by simpa [mirrors.rxstart] using none
    by_cases zero : x.seqno = 0
    · have kept := packets_zero mirrors zero
      refine ⟨{ s with rxstart := -1 }, by simp [Script.packet, none, zero], ?_, rfl⟩
      exact mirrors_extract mirrors ⟨rfl, rfl⟩ (by simp [unmarked]) kept
    · have received : noted x.seqno (x :: before) = some s.cycles := by
        rw [noted, if_neg (by simp [event]), if_pos ⟨rfl, event, first⟩, now, ← mirrors.cycles]
      refine ⟨{ s.print (.received x.seqno) with
        packets := Function.update s.packets x.seqno (some s.cycles), rxstart := -1 },
        by simp [Script.packet, none, zero], ?_, by simp [Script.print, delayLine]⟩
      exact mirrors_extract mirrors ⟨rfl, rfl⟩ (by simp [unmarked]) (packets_update mirrors received)

theorem mirrors_send (mirrors : Mirrors s c before) (event : x.eventType = 2) (now : x.cycles = c.cycles) :
    ∃ t, s.packet 2 x.seqno = some t ∧ Mirrors t c (x :: before) ∧
      t.out.filterMap delayLine = s.out.filterMap delayLine ++
        if x.seqno ≠ 0 then ((Due.send x before).line noted).toList else [] := by
  have restart : s.rxstart = -1 ↔ marked (x :: before) = false := by
    rw [show marked (x :: before) = marked before by simp [marked, event]]
    exact mirrors.rxstart
  by_cases zero : x.seqno = 0
  · refine ⟨s, by simp [Script.packet, zero], ?_, by simp [zero]⟩
    exact mirrors_extract mirrors ⟨rfl, rfl⟩ restart (packets_zero mirrors zero)
  · have pending := mirrors.packets x.seqno zero
    have sent : noted x.seqno (x :: before) = none := by rw [noted, if_pos ⟨rfl, event⟩]
    have updated := packets_update mirrors sent
    cases stored : s.packets x.seqno with
    | none =>
      rw [stored] at pending
      rw [← stored, Function.update_eq_self] at updated
      refine ⟨s.print (.sent x.seqno), by simp [Script.packet, zero, Script.print, stored], ?_, ?_⟩
      · exact mirrors_extract mirrors ⟨rfl, rfl⟩ restart updated
      · simp [Script.print, delayLine, zero, Due.line, ← pending]
    | some v =>
      rw [stored] at pending
      refine ⟨{ (s.print (.sent x.seqno)).print (.delta x.seqno (s.cycles - v)) with
        packets := Function.update s.packets x.seqno none },
        by simp [Script.packet, zero, Script.print, stored], ?_, ?_⟩
      · exact mirrors_extract mirrors ⟨rfl, rfl⟩ restart updated
      · simp [Script.print, List.filterMap_cons, delayLine, zero, Due.line, ← pending, now, mirrors.cycles]

theorem mirrors_packet (mirrors : Mirrors s c before)
    (event : x.eventType = 0 ∨ x.eventType = 1 ∨ x.eventType = 2 ∨ x.eventType = 4) (now : x.cycles = c.cycles) :
    ∃ t, s.packet x.eventType x.seqno = some t ∧ Mirrors t c (x :: before) ∧
      t.out.filterMap delayLine = s.out.filterMap delayLine ++
        if x.eventType = 2 ∧ x.seqno ≠ 0 then ((Due.send x before).line noted).toList else [] := by
  rcases event with event | event | event | event
  · have restarted := mirrors_restart mirrors event
    exact ⟨{ s with rxstart := s.cycles }, by simp [Script.packet, event], restarted, by simp [event]⟩
  · obtain ⟨t, done, after, out⟩ := mirrors_receive mirrors event now
    exact ⟨t, by rw [event]; exact done, after, by simp [event, out]⟩
  · obtain ⟨t, done, after, out⟩ := mirrors_send mirrors event now
    refine ⟨t, by rw [event]; exact done, after, ?_⟩
    rw [out]
    simp only [event, true_and]
  · refine ⟨s, by simp [Script.packet, event], ?_, by simp [event]⟩
    refine mirrors_extract mirrors ⟨rfl, rfl⟩ ?_ fun seqno filled => ?_
    · rw [show marked (x :: before) = marked before by simp [marked, event]]
      exact mirrors.rxstart
    · rw [noted_other (by simp [event])]
      exact mirrors.packets seqno filled

end Packets

section Dues
variable {c : Clock} {before : List Extracted} {e : Sepentry} {rest : List Record}

theorem dues_other_cpu (other : e.cpu ≠ 0) : dues c before (.entry e :: rest) = dues c before rest := by
  rw [dues, if_pos other]

theorem dues_other_type (core : e.cpu = 0) (other : e.type ≠ .pktextract) :
    dues c before (.entry e :: rest) = dues (c.advance 0xFFFFFFFF e.cycles.toNat) before rest := by
  rw [dues, if_neg (not_not.mpr core)]
  exact if_pos other

theorem dues_extract (core : e.cpu = 0) (extract : e.type = .pktextract) (x : Extracted)
    (made : x = extractOf e (c.advance 0xFFFFFFFF e.cycles.toNat)) (pairing : Int → List Extracted → Option Int) :
    (dues c before (.entry e :: rest)).filterMap (Due.line pairing) =
      (if x.eventType = 2 ∧ x.seqno ≠ 0 then ((Due.send x before).line pairing).toList else []) ++
        (dues (c.advance 0xFFFFFFFF e.cycles.toNat) (x :: before) rest).filterMap (Due.line pairing) := by
  subst made
  rw [dues, if_neg (not_not.mpr core)]
  dsimp only
  rw [if_neg (not_not.mpr extract)]
  split
  · rw [List.filterMap_cons]
    cases (Due.send _ before).line pairing <;> rfl
  · rfl

end Dues

theorem prints_noted {records : List Record} {s : Script} {c : Clock} {before : List Extracted}
    (known : ∀ r ∈ records, r.Known) (mirrors : Mirrors s c before) :
    ∃ t, (records.map Record.text).foldlM Script.line s = some t ∧
      t.out.filterMap delayLine = s.out.filterMap delayLine ++ (dues c before records).filterMap (Due.line noted) := by
  induction records generalizing s c before with
  | nil => exact ⟨s, rfl, by simp [dues]⟩
  | cons r rest ih =>
    have others := fun x member => known x (List.mem_cons_of_mem r member)
    cases r with
    | eod =>
      have empty : Mirrors { s.print .eod with packets := fun _ => none, rxstart := -1 } c [] :=
        ⟨mirrors.lastCycles, mirrors.cycles, mirrors.positive, mirrors.range, by simp [marked], fun _ _ => rfl⟩
      obtain ⟨t, done, out⟩ := ih others empty
      refine ⟨t, ?_, ?_⟩
      · rw [List.map_cons, List.foldlM_cons, Record.text, line_eod]
        exact done
      · rw [out]
        simp [Script.print, delayLine, dues, Due.line]
    | entry e =>
      obtain ⟨traced, event⟩ := known (.entry e) (List.mem_cons_self ..)
      rw [List.map_cons, List.foldlM_cons, Record.text, line_entry traced]
      by_cases core : e.cpu = 0
      · rw [if_pos core]
        have ticked := mirrors_advance mirrors e.cycles
        by_cases extract : e.type = .pktextract
        · let x := extractOf e (c.advance 0xFFFFFFFF e.cycles.toNat)
          have number : x.eventType = 0 ∨ x.eventType = 1 ∨ x.eventType = 2 ∨ x.eventType = 4 := by
            have value := event core extract
            simp only [x, extractOf]
            omega
          obtain ⟨u, stepped, after, first⟩ := mirrors_packet ticked number rfl
          obtain ⟨t, done, out⟩ := ih others after
          refine ⟨t, ?_, ?_⟩
          · dsimp only
            rw [if_pos extract]
            simp only [x, extractOf] at stepped
            rw [stepped]
            exact done
          · rw [out, first, List.append_assoc, dues_extract core extract x rfl]
        · obtain ⟨t, done, out⟩ := ih others ticked
          refine ⟨t, ?_, ?_⟩
          · dsimp only
            rw [if_neg extract]
            exact done
          · rw [dues_other_type core extract]
            exact out
      · rw [if_neg core, dues_other_cpu core]
        exact ih others mirrors

theorem received_of_noted {seqno : Int} {before : List Extracted} (some : (noted seqno before).isSome) :
    (received seqno before).isSome := by
  induction before with
  | nil => cases some
  | cons x older ih =>
    rw [noted] at some
    rw [received]
    by_cases send : x.seqno = seqno ∧ x.eventType = 2
    · rw [if_pos send] at some
      cases some
    · rw [if_neg send] at some ⊢
      by_cases receive : x.seqno = seqno ∧ x.eventType = 1
      · rw [if_pos receive]
        rfl
      · rw [if_neg fun hit => receive ⟨hit.1, hit.2.1⟩] at some
        rw [if_neg receive]
        exact ih some

/-- Two selections from one list, one of which selects no more: they give the same list only
    if they agree everywhere. -/
theorem filterMap_eq_iff {A B : Type} {f g : A → Option B} (fewer : ∀ a, (f a).isSome → (g a).isSome) (l : List A) :
    l.filterMap f = l.filterMap g ↔ ∀ a ∈ l, f a = g a := by
  have shorter : ∀ l : List A, (l.filterMap f).length ≤ (l.filterMap g).length := by
    intro l
    induction l with
    | nil => exact Nat.le_refl _
    | cons a l ih =>
      rw [List.filterMap_cons, List.filterMap_cons]
      have here := fewer a
      cases first : f a with
      | none => cases g a <;> simp <;> omega
      | some b =>
        rw [first] at here
        obtain ⟨d, second⟩ := Option.isSome_iff_exists.mp (here rfl)
        rw [second]
        simpa using ih
  constructor
  · intro same
    induction l with
    | nil => simp
    | cons a l ih =>
      have rest := shorter l
      rw [List.filterMap_cons, List.filterMap_cons] at same
      have here := fewer a
      cases first : f a with
      | none =>
        cases second : g a with
        | none =>
          rw [first, second] at same
          simp only [List.mem_cons, forall_eq_or_imp]
          exact ⟨first.trans second.symm, ih same⟩
        | some d =>
          rw [first, second] at same
          have count := congrArg List.length same
          simp only [List.length_cons] at count
          omega
      | some b =>
        rw [first] at here
        obtain ⟨d, second⟩ := Option.isSome_iff_exists.mp (here rfl)
        rw [first, second] at same
        obtain ⟨rfl, later⟩ := List.cons_eq_cons.mp same
        simp only [List.mem_cons, forall_eq_or_imp]
        exact ⟨first.trans second.symm, ih later⟩
  · intro agree
    exact List.filterMap_congr agree

/-- The DELTA lines of every segment are those of the sends with a receive since the latest send
    of the packet, each with the cycles since the latest such receive, exactly when for every
    send that receive is the one noted, or as many cycles ago. -/
theorem delays_paired_iff {records : List Record} (known : ∀ r ∈ records, r.Known) :
    ∃ s, main (records.map Record.text) = some s ∧
      (s.out.filterMap delayLine = (dues ⟨0, 0⟩ [] records).filterMap (Due.line received) ↔
        ∀ d ∈ dues ⟨0, 0⟩ [] records, d.Answered) := by
  obtain ⟨s, done, out⟩ := prints_noted known mirrors_initial
  refine ⟨s, done, ?_⟩
  have fewer : ∀ d : Due, (d.line noted).isSome → (d.line received).isSome := by
    intro d some
    cases d with
    | eod => rfl
    | send x before =>
      simp only [Due.line, Option.isSome_map] at some ⊢
      exact received_of_noted some
  have start : Script.initial.out.filterMap delayLine = [] := rfl
  rw [out, start, List.nil_append, filterMap_eq_iff fewer]
  refine forall₂_congr fun d _ => ?_
  cases d with
  | eod => exact ⟨fun _ => trivial, fun _ => rfl⟩
  | send x before =>
    simp only [Due.line, Due.Answered]
    refine (Option.map_injective fun v w equal => ?_).eq_iff
    simp only [Option.some.injEq, Prod.mk.injEq, true_and] at equal
    omega

def extractAt (cycles event seqno : UInt32) : Record := .entry ⟨.pktextract, cycles, 0, event, seqno, 0, 0, 2, 0⟩

def twoPackets : List Record :=
  [extractAt 1 0 0, extractAt 2 1 5, extractAt 3 0 0, extractAt 4 1 6, extractAt 9 2 6, extractAt 11 2 5, .eod]

theorem delays_paired_crossing : ∃ s, main (twoPackets.map Record.text) = some s ∧
    s.out.filterMap delayLine = [some (6, 5), some (5, 9), none] := by
  obtain ⟨s, done, paired⟩ := delays_paired_iff (by decide : ∀ r ∈ twoPackets, r.Known)
  exact ⟨s, done, (paired.mpr (by decide)).trans (by decide)⟩

theorem burst_misses_a_delay : ∃ s, main ([extractAt 1 0 0, extractAt 2 1 5, extractAt 3 1 6, extractAt 9 2 6].map
      Record.text) = some s ∧ s.out.filterMap delayLine = [] ∧
    (dues ⟨0, 0⟩ [] [extractAt 1 0 0, extractAt 2 1 5, extractAt 3 1 6, extractAt 9 2 6]).filterMap (Due.line received) =
      [some (6, 6)] := by
  have ends : ∀ s ∈ main ([extractAt 1 0 0, extractAt 2 1 5, extractAt 3 1 6, extractAt 9 2 6].map Record.text),
      s.out.filterMap delayLine = [] := by decide +kernel
  obtain ⟨s, done⟩ := Option.isSome_iff_exists.mp (by decide +kernel :
    (main ([extractAt 1 0 0, extractAt 2 1 5, extractAt 3 1 6, extractAt 9 2 6].map Record.text)).isSome)
  exact ⟨s, done, ends s done, by decide⟩

end DelayScripts.IntraOsDelay
