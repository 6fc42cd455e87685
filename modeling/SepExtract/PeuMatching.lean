import SepExtract.AnalysePeu

/- Which interrupt ends a PEU. AppendToPEU remembers the first variable it meets and the
   interrupt of the latest completion of any variable, by its index, with 0 for none; asked for
   is the first variable with both a wait and a completion inside an interrupt. -/
namespace Analyse

/-- What has happened since the start of a PEU: the interrupts that are open, innermost first,
    the variables that were waited for, and the completions with the interrupts they were in. -/
structure PeuView where
  seen : Nat
  irqs : List Entry
  waits : List String
  completions : List (String × Option Entry)
  /-- the interrupt entered last, unless one was left since -/
  latest : Option Entry
  /-- the variable of the first operation -/
  first : Option String
  deriving DecidableEq

def PeuView.initial : PeuView := ⟨0, [], [], [], none, none⟩

def PeuView.after (x : PeuView) (e : Entry) : PeuView :=
  let x := { x with seen := x.seen + 1 }
  match e.eventType with
  | .hirqentry => { x with irqs := e :: x.irqs, latest := some e }
  | .hirqexit => { x with irqs := x.irqs.tail, latest := none }
  | .sync .compl _ =>
    { x with
      completions := x.completions ++ [(e.service, x.irqs.head?)]
      first := some (x.first.getD e.service) }
  | .sync .waitcompl _ => { x with waits := x.waits ++ [e.service], first := some (x.first.getD e.service) }
  | _ => x

def peuView (es : List Entry) : PeuView := es.foldl PeuView.after .initial

def PeuView.Paired (x : PeuView) (v : String) (h : Entry) : Prop := v ∈ x.waits ∧ (v, some h) ∈ x.completions

instance (x : PeuView) (v : String) (h : Entry) : Decidable (x.Paired v h) := inferInstanceAs (Decidable (_ ∧ _))

def PeuView.Unpaired (x : PeuView) : Prop := ∀ c ∈ x.completions, c.2.isSome → c.1 ∉ x.waits

instance (x : PeuView) : Decidable x.Unpaired := inferInstanceAs (Decidable (∀ c ∈ x.completions, _ → _))

theorem unpaired_iff (x : PeuView) : x.Unpaired ↔ ∀ v h, ¬ x.Paired v h := by
  constructor
  · rintro unpaired v h ⟨waited, completed⟩
    exact unpaired (v, some h) completed rfl waited
  · rintro none ⟨v, irq⟩ member inside waited
    obtain ⟨h, rfl⟩ := Option.isSome_iff_exists.mp inside
    exact none v h ⟨waited, member⟩

def EventType.Completes (t : EventType) : Prop := t.unlabelled = .sync .compl false

instance (t : EventType) : Decidable t.Completes := inferInstanceAs (Decidable (_ = _))

/-- As long as there is no pair: the first event is not an interrupt, a completion does not
    happen in an interrupt after one nested in it, one inside an interrupt is on the variable of
    the first operation, and of two completions before the wait neither is inside one. -/
def Clear (x : PeuView) (e : Entry) : Prop :=
  x.Unpaired → (e.eventType = .hirqentry → x.seen ≠ 0) ∧
    (e.eventType.Completes → x.latest = x.irqs.head? ∧
      (x.irqs ≠ [] → x.first.getD e.service = e.service) ∧
      (e.service ∉ x.waits → ∀ c ∈ x.completions, c.1 = e.service → c.2 = none ∧ x.irqs = []))

instance (x : PeuView) (e : Entry) : Decidable (Clear x e) :=
  inferInstanceAs (Decidable (_ → (_ → _) ∧ (_ → _ ∧ (_ → _) ∧ (_ → ∀ c ∈ x.completions, _ → _ ∧ _))))

structure Scans (es : List Entry) (x : PeuView) (scan : PeuScan) : Prop where
  seen : x.seen = es.length
  outside : scan.interruptWithIndex = 0 → x.latest = none
  inside : scan.interruptWithIndex ≠ 0 → ∃ h, es[scan.interruptWithIndex]? = some h ∧ x.latest = some h
  synchvar : scan.synchvar = x.first.getD ""
  named : x.first ≠ some ""
  fresh : x.first = none → x.waits = [] ∧ x.completions = []
  used : ∀ v ∈ x.first, v ∈ x.waits ∨ ∃ c ∈ x.completions, c.1 = v
  none : scan.intwithcompl = 0 → ∀ c ∈ x.completions, c.2 = none
  one : scan.intwithcompl ≠ 0 → ∃ v h, es[scan.intwithcompl]? = some h ∧ x.first = some v ∧
    (v, some h) ∈ x.completions ∧ ∀ c ∈ x.completions, ∀ h' ∈ c.2, c.1 = v ∧ h' = h

theorem scans_initial : Scans [] .initial ⟨0, "", 0⟩ := by
  refine ⟨rfl, fun _ => rfl, fun other => absurd rfl other, rfl, by simp [PeuView.initial], fun _ => ⟨rfl, rfl⟩,
    by simp [PeuView.initial], fun _ => by simp [PeuView.initial], fun other => absurd rfl other⟩

section Step
variable {es : List Entry} {x : PeuView} {scan : PeuScan} {e : Entry}

def Stepped (es : List Entry) (x : PeuView) (scan : PeuScan) (e : Entry) : Prop :=
  ((scan.step es.length e).2 = false ∧ Scans (es ++ [e]) (x.after e) (scan.step es.length e).1 ∧
    (x.after e).Unpaired) ∨
  ((scan.step es.length e).2 = true ∧ ∃ h, (es ++ [e])[(scan.step es.length e).1.intwithcompl]? = some h ∧
    (∃ v, (x.after e).Paired v h) ∧ ∀ v' h', (x.after e).Paired v' h' → h' = h)

theorem still_there {i : Nat} {h : Entry} (found : es[i]? = some h) : (es ++ [e])[i]? = some h := by
  have bound := (List.getElem?_eq_some_iff.mp found).1
  rw [List.getElem?_append_left bound]
  exact found

theorem scans_longer (scans : Scans es x scan) :
    Scans (es ++ [e]) { x with seen := x.seen + 1 } scan := by
  refine ⟨by simp [scans.seen], scans.outside, fun inside => ?_, scans.synchvar, scans.named, scans.fresh, scans.used,
    scans.none, fun some => ?_⟩
  · obtain ⟨h, found, latest⟩ := scans.inside inside
    exact ⟨h, still_there found, latest⟩
  · obtain ⟨v, h, found, rest⟩ := scans.one some
    exact ⟨v, h, still_there found, rest⟩

theorem stepped_silent {scan' : PeuScan} {x' : PeuView} (step : scan.step es.length e = (scan', false))
    (after : x.after e = x') (scans : Scans (es ++ [e]) x' scan') (unpaired : x'.Unpaired) : Stepped es x scan e := by
  subst after
  refine Or.inl ⟨by rw [step], ?_, unpaired⟩
  rw [step]
  exact scans

theorem stepped_hit {scan' : PeuScan} {x' : PeuView} {v : String} {h : Entry}
    (step : scan.step es.length e = (scan', true)) (after : x.after e = x')
    (found : (es ++ [e])[scan'.intwithcompl]? = some h) (paired : x'.Paired v h)
    (only : ∀ v' h', x'.Paired v' h' → h' = h) : Stepped es x scan e := by
  subst after
  refine Or.inr ⟨by rw [step], h, ?_, ⟨v, paired⟩, only⟩
  rw [step]
  exact found

theorem stepped_hirq_entry (scans : Scans es x scan) (unpaired : x.Unpaired) (clear : Clear x e)
    (type : e.eventType = .hirqentry) : Stepped es x scan e := by
  have longer := scans_longer (e := e) scans
  have later : es.length ≠ 0 := scans.seen ▸ (clear unpaired).1 type
  have step : scan.step es.length e = ({ scan with interruptWithIndex := es.length }, false) := by
    simp [PeuScan.step, type]
  have after : x.after e = { x with seen := x.seen + 1, irqs := e :: x.irqs, latest := some e } := by
    simp [PeuView.after, type]
  refine stepped_silent step after ⟨longer.seen, fun zero => absurd zero later, fun _ => ⟨e, by simp, rfl⟩,
    longer.synchvar, longer.named, longer.fresh, longer.used, longer.none, longer.one⟩ unpaired

theorem stepped_hirq_exit (scans : Scans es x scan) (unpaired : x.Unpaired) (type : e.eventType = .hirqexit) :
    Stepped es x scan e := by
  have longer := scans_longer (e := e) scans
  have step : scan.step es.length e = ({ scan with interruptWithIndex := 0 }, false) := by
    simp [PeuScan.step, type]
  have after : x.after e = { x with seen := x.seen + 1, irqs := x.irqs.tail, latest := none } := by
    simp [PeuView.after, type]
  refine stepped_silent step after ⟨longer.seen, fun _ => rfl, fun other => absurd rfl other, longer.synchvar,
    longer.named, longer.fresh, longer.used, longer.none, longer.one⟩ unpaired

theorem synch_cases (scans : Scans es x scan) (e : Entry) (n : Nat) :
    (x.first = none ∧ { scan with intwithcompl := n }.synch e.service =
      ({ scan with synchvar := e.service, intwithcompl := n }, false)) ∨
    ∃ v, x.first = some v ∧ { scan with intwithcompl := n }.synch e.service =
      ({ scan with intwithcompl := n }, decide (v = e.service ∧ n ≠ 0)) := by
  have same := scans.synchvar
  unfold PeuScan.synch
  cases first : x.first with
  | none =>
    rw [first] at same
    exact Or.inl ⟨rfl, if_pos same⟩
  | some v =>
    rw [first] at same
    have filled : v ≠ "" := fun empty => scans.named (by rw [first, empty])
    refine Or.inr ⟨v, rfl, ?_⟩
    dsimp only
    rw [same, Option.getD_some, if_neg filled]

theorem stepped_wait {temp : Bool} (scans : Scans es x scan) (unpaired : x.Unpaired) (named : e.service ≠ "")
    (type : e.eventType = .sync .waitcompl temp) : Stepped es x scan e := by
  have longer := scans_longer (e := e) scans
  have step : scan.step es.length e = { scan with intwithcompl := scan.intwithcompl }.synch e.service := by
    simp [PeuScan.step, type]
  have after : x.after e = { x with
      seen := x.seen + 1
      waits := x.waits ++ [e.service]
      first := some (x.first.getD e.service) } := by
    simp [PeuView.after, type]
  rcases synch_cases scans e scan.intwithcompl with ⟨first, synch⟩ | ⟨v, first, synch⟩
  · obtain ⟨-, empty⟩ := scans.fresh first
    refine stepped_silent (step.trans synch) after ⟨longer.seen, longer.outside, longer.inside, by simp [first],
      by simp [first, named], by simp, by simp [first], longer.none, fun some => ?_⟩ ?_
    · obtain ⟨v, h, _, _, member, _⟩ := scans.one some
      simp [empty] at member
    · simp [PeuView.Unpaired, empty]
  · by_cases hit : v = e.service ∧ scan.intwithcompl ≠ 0
    · obtain ⟨rfl, some⟩ := hit
      obtain ⟨v, h, found, same, member, only⟩ := scans.one some
      obtain rfl : e.service = v := Option.some.inj (first.symm.trans same)
      refine stepped_hit (step.trans (synch.trans (by simp [some]))) after (still_there found)
        ⟨List.mem_append_right _ (List.mem_singleton_self _), member⟩ fun v' h' paired => ?_
      exact (only (v', Option.some h') paired.2 h' rfl).2
    · refine stepped_silent (step.trans (synch.trans (by rw [decide_eq_false hit]))) after
        ⟨longer.seen, longer.outside, longer.inside, ?_, ?_, by simp, ?_, longer.none, fun some => ?_⟩ ?_
      · simpa [first] using scans.synchvar
      · simpa [first] using scans.named
      · intro w member
        obtain rfl : v = w := by simpa [first] using member
        rcases scans.used v (by simp [first]) with waited | completed
        · exact Or.inl (List.mem_append_left _ waited)
        · exact Or.inr completed
      · obtain ⟨v, h, found, same, rest⟩ := scans.one some
        exact ⟨v, h, still_there found, by simp [same], rest⟩
      · rintro ⟨w, irq⟩ member inside waited
        obtain ⟨h, rfl⟩ := Option.isSome_iff_exists.mp inside
        rcases List.mem_append.mp waited with before | now
        · exact unpaired _ member rfl before
        · have same : w = e.service := List.mem_singleton.mp now
          have some : scan.intwithcompl ≠ 0 := fun zero => by
            have none := scans.none zero _ member
            simp at none
          obtain ⟨v', h', _, known, _, only⟩ := scans.one some
          obtain rfl : v = v' := Option.some.inj (first.symm.trans known)
          exact hit ⟨(only _ member h rfl).1.symm.trans same, some⟩

theorem complete_cases (scans : Scans es x scan) (running : x.latest = x.irqs.head?) :
    (x.irqs = [] ∧ scan.complete = { scan with intwithcompl := scan.intwithcompl }) ∨
    ∃ h, scan.interruptWithIndex ≠ 0 ∧ es[scan.interruptWithIndex]? = some h ∧ x.irqs.head? = some h ∧
      scan.complete = { scan with intwithcompl := scan.interruptWithIndex } := by
  unfold PeuScan.complete
  by_cases zero : scan.interruptWithIndex = 0
  · refine Or.inl ⟨?_, by simp [zero]⟩
    have outside := scans.outside zero
    rw [running] at outside
    exact List.head?_eq_none_iff.mp outside
  · obtain ⟨h, found, latest⟩ := scans.inside zero
    exact Or.inr ⟨h, zero, found, running ▸ latest, by simp [zero]⟩

theorem stepped_compl_outside {temp : Bool} (scans : Scans es x scan) (unpaired : x.Unpaired) (named : e.service ≠ "")
    (type : e.eventType = .sync .compl temp) (outside : x.irqs = [])
    (complete : scan.complete = { scan with intwithcompl := scan.intwithcompl })
    (second : e.service ∉ x.waits → ∀ c ∈ x.completions, c.1 = e.service → c.2 = none ∧ x.irqs = []) :
    Stepped es x scan e := by
  have longer := scans_longer (e := e) scans
  have step : scan.step es.length e = { scan with intwithcompl := scan.intwithcompl }.synch e.service := by
    simp [PeuScan.step, type, complete]
  have after : x.after e = { x with
      seen := x.seen + 1
      completions := x.completions ++ [(e.service, none)]
      first := some (x.first.getD e.service) } := by
    simp [PeuView.after, type, outside]
  have still : ∀ waits, x.waits = waits → ∀ c ∈ x.completions ++ [(e.service, none)], c.2.isSome → c.1 ∉ waits := by
    rintro waits rfl c member inside
    rcases List.mem_append.mp member with before | now
    · exact unpaired c before inside
    · obtain rfl := List.mem_singleton.mp now
      cases inside
  rcases synch_cases scans e scan.intwithcompl with ⟨first, synch⟩ | ⟨v, first, synch⟩
  · obtain ⟨-, empty⟩ := scans.fresh first
    refine stepped_silent (step.trans synch) after ⟨longer.seen, longer.outside, longer.inside, by simp [first],
      by simp [first, named], by simp, by simp [first], ?_, fun nonzero => ?_⟩ (still _ rfl)
    · simp [empty]
    · obtain ⟨v, h, _, _, member, _⟩ := scans.one nonzero
      simp [empty] at member
  · -- with the variable noted, a second completion would have to be the wait
    have silent : ¬ (v = e.service ∧ scan.intwithcompl ≠ 0) := by
      rintro ⟨rfl, nonzero⟩
      obtain ⟨w, h, _, same, member, _⟩ := scans.one nonzero
      obtain rfl : e.service = w := Option.some.inj (first.symm.trans same)
      have none := (second (unpaired _ member rfl) _ member rfl).1
      cases none
    refine stepped_silent (step.trans (synch.trans (by rw [decide_eq_false silent]))) after
      ⟨longer.seen, longer.outside, longer.inside, ?_, ?_, by simp, ?_, fun zero c member => ?_, fun nonzero => ?_⟩
      (still _ rfl)
    · simpa [first] using scans.synchvar
    · simpa [first] using scans.named
    · intro w member
      obtain rfl : v = w := by simpa [first] using member
      rcases scans.used v (by simp [first]) with waited | ⟨c, completed, same⟩
      · exact Or.inl waited
      · exact Or.inr ⟨c, List.mem_append_left _ completed, same⟩
    · rcases List.mem_append.mp member with before | now
      · exact scans.none zero c before
      · rw [List.mem_singleton.mp now]
    · obtain ⟨w, h, found, same, member, only⟩ := scans.one nonzero
      refine ⟨w, h, still_there found, by simp [same], List.mem_append_left _ member, fun c inside h' here => ?_⟩
      rcases List.mem_append.mp inside with before | now
      · exact only c before h' here
      · rw [List.mem_singleton.mp now] at here
        cases here

theorem stepped_compl_inside {temp : Bool} {h : Entry} (scans : Scans es x scan) (unpaired : x.Unpaired)
    (named : e.service ≠ "") (type : e.eventType = .sync .compl temp) (noted : scan.interruptWithIndex ≠ 0)
    (found : es[scan.interruptWithIndex]? = some h) (inside : x.irqs.head? = some h)
    (complete : scan.complete = { scan with intwithcompl := scan.interruptWithIndex })
    (single : x.first.getD e.service = e.service)
    (second : e.service ∉ x.waits → ∀ c ∈ x.completions, c.1 = e.service → c.2 = none ∧ x.irqs = []) :
    Stepped es x scan e := by
  have longer := scans_longer (e := e) scans
  have step : scan.step es.length e = { scan with intwithcompl := scan.interruptWithIndex }.synch e.service := by
    simp [PeuScan.step, type, complete]
  have after : x.after e = { x with
      seen := x.seen + 1
      completions := x.completions ++ [(e.service, some h)]
      first := some (x.first.getD e.service) } := by
    simp [PeuView.after, type, inside]
  rcases synch_cases scans e scan.interruptWithIndex with ⟨first, synch⟩ | ⟨v, first, synch⟩
  · obtain ⟨unwaited, empty⟩ := scans.fresh first
    refine stepped_silent (step.trans synch) after ⟨longer.seen, longer.outside, longer.inside, by simp [first],
      by simp [first, named], by simp, by simp [first], fun zero => absurd zero noted, fun _ => ?_⟩ ?_
    · refine ⟨e.service, h, still_there found, by simp [first], by simp, fun c member h' here => ?_⟩
      obtain rfl : c = (e.service, some h) := by simpa [empty] using member
      exact ⟨rfl, (Option.some.inj here).symm⟩
    · simp [PeuView.Unpaired, unwaited]
  · obtain rfl : v = e.service := by simpa [first] using single
    have waited : e.service ∈ x.waits := by
      by_contra absent
      rcases scans.used e.service (by simp [first]) with waited | ⟨c, completed, same⟩
      · exact absent waited
      · have empty := (second absent c completed same).2
        simp [empty] at inside
    refine stepped_hit (step.trans (synch.trans (by rw [decide_eq_true ⟨rfl, noted⟩]))) after (still_there found)
      ⟨waited, List.mem_append_right _ (List.mem_singleton_self _)⟩ fun v' h' paired => ?_
    rcases List.mem_append.mp paired.2 with before | now
    · exact absurd paired.1 (unpaired _ before rfl)
    · simpa using (Prod.mk.inj (List.mem_singleton.mp now)).2

theorem stepped_compl {temp : Bool} (scans : Scans es x scan) (unpaired : x.Unpaired) (clear : Clear x e)
    (named : e.service ≠ "") (type : e.eventType = .sync .compl temp) : Stepped es x scan e := by
  have completes : e.eventType.Completes := by simp [EventType.Completes, EventType.unlabelled, type]
  obtain ⟨-, conditions⟩ := clear unpaired
  obtain ⟨running, single, second⟩ := conditions completes
  rcases complete_cases scans running with ⟨outside, complete⟩ | ⟨h, noted, found, inside, complete⟩
  · exact stepped_compl_outside scans unpaired named type outside complete second
  · have full : x.irqs ≠ [] := by
      intro empty
      simp [empty] at inside
    exact stepped_compl_inside scans unpaired named type noted found inside complete (single full) second

theorem stepped (scans : Scans es x scan) (unpaired : x.Unpaired) (clear : Clear x e) (named : e.service ≠ "") :
    Stepped es x scan e := by
  have other : scan.step es.length e = (scan, false) → x.after e = { x with seen := x.seen + 1 } →
      Stepped es x scan e := fun step after => stepped_silent step after (scans_longer scans) unpaired
  cases type : e.eventType with
  | hirqentry => exact stepped_hirq_entry scans unpaired clear type
  | hirqexit => exact stepped_hirq_exit scans unpaired type
  | sync operation temp =>
    cases operation with
    | compl => exact stepped_compl scans unpaired clear named type
    | waitcompl => exact stepped_wait scans unpaired named type
    | semup => exact other (by simp [PeuScan.step, type]) (by simp [PeuView.after, type])
    | semdown => exact other (by simp [PeuScan.step, type]) (by simp [PeuView.after, type])
  | _ => exact other (by simp [PeuScan.step, type]) (by simp [PeuView.after, type])

end Step

section Views
variable {es : List Entry} {v : String} {h : Entry}

theorem view_snoc (es : List Entry) (e : Entry) : peuView (es ++ [e]) = (peuView es).after e := by
  simp [peuView]

theorem paired_after {x : PeuView} (paired : x.Paired v h) (e : Entry) : (x.after e).Paired v h := by
  obtain ⟨waited, completed⟩ := paired
  unfold PeuView.after
  dsimp only
  split
  · exact ⟨waited, completed⟩
  · exact ⟨waited, completed⟩
  · exact ⟨waited, List.mem_append_left _ completed⟩
  · exact ⟨List.mem_append_left _ waited, completed⟩
  · exact ⟨waited, completed⟩

theorem paired_longer (paired : (peuView es).Paired v h) (fs : List Entry) : (peuView (es ++ fs)).Paired v h := by
  induction fs using List.reverseRecOn with
  | nil => simpa using paired
  | append_singleton fs e ih =>
    rw [← List.append_assoc, view_snoc]
    exact paired_after ih e

theorem silent_unlabelled (es : List Entry) : silent (es.map Entry.unlabelled) = silent es := by
  have same : ∀ (scan : PeuScan) (item : Entry × Nat),
      silentStep scan (Prod.map Entry.unlabelled id item) = silentStep scan item := by
    intro scan item
    simp [silentStep, step_view]
  unfold silent
  rw [List.zipIdx_map, List.foldlM_map]
  simp only [same]

theorem silent_init {e : Entry} {scan' : PeuScan} (scanned : silent (es ++ [e]) = some scan') :
    ∃ scan, silent es = some scan ∧ scan.step es.length e = (scan', false) := by
  cases before : silent es with
  | none =>
    unfold silent at before scanned
    rw [List.zipIdx_append, List.foldlM_append, before] at scanned
    cases scanned
  | some scan =>
    rw [silent_snoc before] at scanned
    refine ⟨scan, rfl, ?_⟩
    unfold silentStep at scanned
    dsimp only at scanned
    split at scanned
    · cases scanned
    · next miss =>
      rw [← Option.some.inj scanned]
      exact Prod.ext rfl (by simpa using miss)

def AllClear (es : List Entry) : Prop := TransitionRuns.Guarded (fun x e => some (PeuView.after x e)) Clear .initial es

instance (es : List Entry) : Decidable (AllClear es) := inferInstanceAs (Decidable (TransitionRuns.Guarded ..))

theorem all_clear_snoc {e : Entry} (clear : AllClear (es ++ [e])) : AllClear es ∧ Clear (peuView es) e := by
  obtain ⟨before, last⟩ := TransitionRuns.guarded_snoc clear
  refine ⟨before, last _ ?_⟩
  unfold peuView
  generalize PeuView.initial = x
  clear clear before last
  induction es generalizing x with
  | nil => rfl
  | cons a es ih => exact ih (x.after a)

theorem all_clear_prefix (fs : List Entry) (clear : AllClear (es ++ fs)) : AllClear es := by
  induction fs using List.reverseRecOn with
  | nil => simpa using clear
  | append_singleton fs e ih =>
    rw [← List.append_assoc] at clear
    exact ih (all_clear_snoc clear).1

theorem scans_silent {scan : PeuScan} (clear : AllClear es) (named : ∀ e ∈ es, e.service ≠ "")
    (scanned : silent es = some scan) : Scans es (peuView es) scan ∧ (peuView es).Unpaired := by
  induction es using List.reverseRecOn generalizing scan with
  | nil =>
    obtain rfl := Option.some.inj scanned
    exact ⟨scans_initial, by decide⟩
  | append_singleton es e ih =>
    obtain ⟨before, here⟩ := all_clear_snoc clear
    obtain ⟨last, scanned, step⟩ := silent_init scanned
    obtain ⟨scans, unpaired⟩ := ih before (fun a member => named a (List.mem_append_left _ member)) scanned
    rw [view_snoc]
    rcases stepped scans unpaired here (named e (by simp)) with ⟨_, next, still⟩ | ⟨hit, _⟩
    · rw [step] at next
      exact ⟨next, still⟩
    · rw [step] at hit
      cases hit

end Views

structure Passed (s : State) (p : Ref) (rs : List Ref) : Prop where
  valid : s.Valid p
  start : (s.deref p).eventType = .peustart
  zero : (s.deref p).peuDuration = 0 ∧ (s.deref p).peuIRQ = 0
  core : ∀ r ∈ p :: rs, (s.deref r).cpu = 0
  later : ∀ r ∈ rs, (s.deref r).eventType ≠ .peustart

theorem silent_deref (s : State) (rs : List Ref) : silent (rs.map s.view) = silent (rs.map s.deref) := by
  rw [← silent_unlabelled (rs.map s.deref), List.map_map]
  rfl

/-- What the calls come to: the PEU goes on, with no match in the list, or the first match has
    ended it. -/
theorem append_all {s : State} {p : Ref} {rs : List Ref} (passed : Passed s p rs) :
    ∃ t, (p :: rs).foldlM State.appendToPEU s = some t ∧
      ((t = { s with currentPEU := ⟨some p, rs⟩ } ∧ (silent (rs.map s.deref)).isSome) ∨
       ∃ us x vs scan hit, rs = us ++ x :: vs ∧ silent (us.map s.deref) = some scan ∧
        (scan.step us.length (s.deref x)).2 = true ∧
        (us ++ [x])[(scan.step us.length (s.deref x)).1.intwithcompl]? = some hit ∧
        t = { s with currentPEU := ⟨some p, us⟩ }.closePEU p hit) := by
  have core : ∀ r ∈ p :: rs, (s.deref r).cpu ≠ 1 := fun r member => by simp [passed.core r member]
  have first : s.appendToPEU p = some { s with currentPEU := ⟨some p, []⟩ } := by
    simp [State.appendToPEU, core p (List.mem_cons_self ..), passed.start]
  rw [List.foldlM_cons, first]
  have later := passed.later
  have start := passed.start
  clear passed first
  induction rs using List.reverseRecOn with
  | nil => exact ⟨_, rfl, Or.inl ⟨rfl, rfl⟩⟩
  | append_singleton rs r ih =>
    obtain ⟨t, done, outcome⟩ := ih (fun x member => core x (by simp at member ⊢; tauto))
      fun x member => later x (List.mem_append_left _ member)
    have done : rs.foldlM State.appendToPEU { s with currentPEU := ⟨some p, []⟩ } = some t := done
    have last : (rs ++ [r]).foldlM State.appendToPEU { s with currentPEU := ⟨some p, []⟩ } = t.appendToPEU r := by
      rw [List.foldlM_append, done]
      simp
    have here : (s.deref r).cpu ≠ 1 := core r (by simp)
    have other : (s.deref r).eventType ≠ .peustart := later r (by simp)
    rcases outcome with ⟨rfl, quiet⟩ | ⟨us, x, vs, scan, hit, split, scanned, matched, found, rfl⟩
    · obtain ⟨scan, scanned⟩ := Option.isSome_iff_exists.mp quiet
      have viewed : silent (rs.map s.view) = some scan := (silent_deref s rs).trans scanned
      rcases append_cases (s := { s with currentPEU := ⟨some p, rs⟩ }) here other rfl viewed with
        ⟨_, extended, silent⟩ | ⟨matched, hit, found, closed⟩
      · refine ⟨_, last.trans extended, Or.inl ⟨rfl, ?_⟩⟩
        rw [← silent_deref]
        exact Option.isSome_iff_exists.mpr ⟨_, silent⟩
      · exact ⟨_, last.trans closed, Or.inr ⟨rs, r, [], scan, hit, rfl, scanned, matched, found, rfl⟩⟩
    · refine ⟨_, last.trans ?_, Or.inr ⟨us, x, vs ++ [r], scan, hit, by simp [split], scanned, matched, found, rfl⟩⟩
      have apart : r ≠ p := fun same => other (same ▸ start)
      have kept : (({ s with currentPEU := ⟨some p, us⟩ } : State).closePEU p hit).deref r = s.deref r :=
        deref_modify_ne _ apart
      unfold State.appendToPEU
      rw [kept, if_neg here, if_neg other]
      rfl

/-- No call panics. And if the events are clear, the PEU keeps its zeros until some variable has
    been waited for and completed inside an interrupt, and then has the interrupt of the first
    such pair and the cycles up to it. -/
theorem peu_matching {s : State} {p : Ref} {rs : List Ref} (passed : Passed s p rs) :
    ∃ t, (p :: rs).foldlM State.appendToPEU s = some t ∧
      ((∀ r ∈ rs, (s.deref r).service ≠ "") → AllClear (rs.map s.deref) →
        ((∀ v h, ¬ (peuView (rs.map s.deref)).Paired v h) →
          (t.deref p).peuDuration = 0 ∧ (t.deref p).peuIRQ = 0) ∧
        ∀ us x vs, rs = us ++ x :: vs → (∀ v h, ¬ (peuView (us.map s.deref)).Paired v h) →
          ∀ v h, (peuView ((us ++ [x]).map s.deref)).Paired v h →
            (t.deref p).peuDuration = h.cycles - (s.deref p).cycles ∧ (t.deref p).peuIRQ = h.pid1) := by
  obtain ⟨t, done, outcome⟩ := append_all passed
  refine ⟨t, done, fun named clear => ?_⟩
  have filled : ∀ e ∈ rs.map s.deref, e.service ≠ "" := by simpa using named
  rcases outcome with ⟨rfl, quiet⟩ | ⟨us, x, vs, scan, hit, rfl, scanned, matched, found, rfl⟩
  · obtain ⟨scan, scanned⟩ := Option.isSome_iff_exists.mp quiet
    obtain ⟨-, unpaired⟩ := scans_silent clear filled scanned
    refine ⟨fun _ => passed.zero, fun us x vs split _ v h paired => ?_⟩
    have whole := paired_longer paired (vs.map s.deref)
    rw [← List.map_append, List.append_assoc, List.singleton_append, ← split] at whole
    exact absurd whole ((unpaired_iff _).mp unpaired v h)
  · rw [List.map_append, List.map_cons] at clear filled
    have begun : AllClear (us.map s.deref ++ [s.deref x]) := by
      refine all_clear_prefix (vs.map s.deref) ?_
      simpa using clear
    obtain ⟨before, here⟩ := all_clear_snoc begun
    obtain ⟨scans, unpaired⟩ := scans_silent before (fun e member => filled e (by simp [member])) scanned
    have count : us.length = (us.map s.deref).length := List.length_map .. |>.symm
    rw [count] at matched found
    rcases stepped scans unpaired here (filled _ (by simp)) with ⟨silent, _⟩ | ⟨_, h, there, ⟨v, paired⟩, only⟩
    · rw [matched] at silent
      cases silent
    · have reached : (peuView ((us ++ [x]).map s.deref)).Paired v h := by
        rw [List.map_append, List.map_singleton, view_snoc]
        exact paired
      have filled_in : (({ s with currentPEU := ⟨some p, us⟩ } : State).closePEU p hit).deref p =
          { s.deref p with peuDuration := (s.deref hit).cycles - (s.deref p).cycles, peuIRQ := (s.deref hit).pid1 } :=
        deref_modify_self _ passed.valid
      have entry : s.deref hit = h := by
        rw [← List.map_singleton, ← List.map_append, List.getElem?_map, found] at there
        exact Option.some.inj there
      refine ⟨fun none => ?_, fun us' x' vs' split none v' h' paired' => ?_⟩
      · have whole := paired_longer reached (vs.map s.deref)
        rw [← List.map_append, List.append_assoc, List.singleton_append] at whole
        exact absurd whole (none v h)
      · -- the first pair is where the scan has its match
        have same : us' = us ∧ x' = x := by
          rcases List.append_eq_append_iff.mp split with ⟨more, rfl, rest⟩ | ⟨more, rfl, rest⟩
          · cases more with
            | nil => exact ⟨by simp, (List.cons_eq_cons.mp rest).1.symm⟩
            | cons y more =>
              obtain ⟨rfl, -⟩ := List.cons_eq_cons.mp rest
              have early := paired_longer reached (more.map s.deref)
              rw [← List.map_append, List.append_assoc, List.singleton_append] at early
              exact absurd early (none v h)
          · cases more with
            | nil => exact ⟨by simp, (List.cons_eq_cons.mp rest).1⟩
            | cons y more =>
              obtain ⟨rfl, -⟩ := List.cons_eq_cons.mp rest
              have early := paired_longer paired' (more.map s.deref)
              rw [← List.map_append, List.append_assoc, List.singleton_append] at early
              exact absurd early ((unpaired_iff _).mp unpaired v' h')
        obtain ⟨rfl, rfl⟩ := same
        rw [List.map_append, List.map_singleton, view_snoc] at paired'
        obtain rfl := only v' h' paired'
        rw [filled_in, entry]
        exact ⟨rfl, rfl⟩

def peuState (es : List Entry) : State :=
  let start : Entry := { Entry.blank cpu0 with eventType := .peustart, cycles := 10 }
  { State.initial with heap := Function.update State.initial.heap cpu0 (start :: es) }

def peuEntry (type : EventType) (service : String) (pid1 cycles : Int) : Entry :=
  { Entry.blank cpu0 with eventType := type, service := service, pid1 := pid1, cycles := cycles }

def completedWait : List Entry :=
  [peuEntry (.sync .waitcompl false) "v" 0 12, peuEntry .hirqentry "h" 7 15, peuEntry (.sync .compl false) "v" 0 17]

theorem peu_matching_wait : ∃ t,
    [(⟨0, 0⟩ : Ref), ⟨0, 1⟩, ⟨0, 2⟩, ⟨0, 3⟩].foldlM State.appendToPEU (peuState completedWait) = some t ∧
      (t.deref ⟨0, 0⟩).peuDuration = 5 ∧ (t.deref ⟨0, 0⟩).peuIRQ = 7 := by
  have passed : Passed (peuState completedWait) ⟨0, 0⟩ [⟨0, 1⟩, ⟨0, 2⟩, ⟨0, 3⟩] :=
    ⟨Nat.zero_lt_succ _, by decide, by decide, by decide, by decide⟩
  obtain ⟨t, done, matched⟩ := peu_matching passed
  obtain ⟨-, pair⟩ := matched (by decide) (by decide)
  have none := (unpaired_iff (peuView ([(⟨0, 1⟩ : Ref), ⟨0, 2⟩].map (peuState completedWait).deref))).mp (by decide)
  exact ⟨t, done, pair [⟨0, 1⟩, ⟨0, 2⟩] ⟨0, 3⟩ [] rfl none "v" (peuEntry .hirqentry "h" 7 15) (by decide)⟩

def waitsForTwo : List Entry := peuEntry (.sync .waitcompl false) "u" 0 11 :: completedWait

theorem other_wait_hides_peu :
    (peuView waitsForTwo).Paired "v" (peuEntry .hirqentry "h" 7 15) ∧ ∃ t,
    [(⟨0, 0⟩ : Ref), ⟨0, 1⟩, ⟨0, 2⟩, ⟨0, 3⟩, ⟨0, 4⟩].foldlM State.appendToPEU (peuState waitsForTwo) = some t ∧
      (t.deref ⟨0, 0⟩).peuDuration = 0 ∧ (t.deref ⟨0, 0⟩).peuIRQ = 0 := by
  refine ⟨by decide, ?_⟩
  have ends : ∀ t ∈ [(⟨0, 0⟩ : Ref), ⟨0, 1⟩, ⟨0, 2⟩, ⟨0, 3⟩, ⟨0, 4⟩].foldlM State.appendToPEU (peuState waitsForTwo),
      (t.deref ⟨0, 0⟩).peuDuration = 0 ∧ (t.deref ⟨0, 0⟩).peuIRQ = 0 := by decide
  obtain ⟨t, done⟩ := Option.isSome_iff_exists.mp (by decide :
    ([(⟨0, 0⟩ : Ref), ⟨0, 1⟩, ⟨0, 2⟩, ⟨0, 3⟩, ⟨0, 4⟩].foldlM State.appendToPEU (peuState waitsForTwo)).isSome)
  exact ⟨t, done, ends t done⟩

end Analyse
