import SepExtract.AnalyseHeap
import SepExtract.TraceExecution

/- The events coupled with a PEU start. AppendToPEU scans all of them again for every event
   it is given; a scan that has met its match must not meet another, because the match has
   emptied the list it indexes. It never does: before the last event no scan had a match. -/
namespace Analyse

def State.view (s : State) (r : Ref) : Entry := (s.deref r).unlabelled

theorem view_of_heap {s t : State} (heap : t.heap = s.heap) : t.view = s.view := by
  funext r
  simp [State.view, State.deref, heap]

def EventType.InLoop (t : EventType) : Prop := t = .loopstart ∨ t = .looprstart

structure Relabels (s t : State) : Prop where
  currentLEU : t.currentLEU = s.currentLEU
  serviceStack : t.serviceStack = s.serviceStack
  interrupted : t.interrupted = s.interrupted
  leus : t.leus = s.leus
  lastAppended : t.lastAppended = s.lastAppended
  view : ∀ r, t.view r = s.view r
  valid : ∀ r, t.Valid r ↔ s.Valid r

theorem Relabels.trans {s t u : State} (first : Relabels s t) (second : Relabels t u) : Relabels s u where
  currentLEU := second.currentLEU.trans first.currentLEU
  serviceStack := second.serviceStack.trans first.serviceStack
  interrupted := second.interrupted.trans first.interrupted
  leus := second.leus.trans first.leus
  lastAppended := second.lastAppended.trans first.lastAppended
  view r := (second.view r).trans (first.view r)
  valid r := (second.valid r).trans (first.valid r)

theorem relabels_modify (s : State) (r : Ref) (f : Entry → Entry)
    (unseen : (f (s.deref r)).unlabelled = (s.deref r).unlabelled) : Relabels s (s.modify r f) where
  currentLEU := rfl
  serviceStack := rfl
  interrupted := rfl
  leus := rfl
  lastAppended := rfl
  valid x := valid_modify r f
  view x := by
    unfold State.view
    by_cases same : x = r
    · subst same
      by_cases valid : s.Valid x
      · rw [deref_modify_self f valid, unseen]
      · unfold State.Valid at valid
        simp [State.deref, State.modify, List.getElem?_eq_none (Nat.le_of_not_lt valid)]
    · rw [deref_modify_ne f same]

theorem step_view (scan : PeuScan) (index : Nat) (e : Entry) :
    scan.step index e.unlabelled = scan.step index e := by
  unfold PeuScan.step Entry.unlabelled
  cases e.eventType with
  | sync operation temp => cases operation <;> rfl
  | _ => rfl

def silentStep (scan : PeuScan) (item : Entry × Nat) : Option PeuScan :=
  let (scan, hit) := scan.step item.2 item.1
  if hit then none else some scan

def silent (es : List Entry) : Option PeuScan := es.zipIdx.foldlM silentStep ⟨0, "", 0⟩

theorem scan_silent {s : State} (items : List (Ref × Nat)) {scan scan' : PeuScan}
    (quiet : (items.map (Prod.map s.view id)).foldlM silentStep scan = some scan') :
    items.foldlM State.peuStep (s, scan) = some (s, scan') := by
  induction items generalizing scan with
  | nil => simpa using quiet
  | cons item items ih =>
    rw [List.map_cons, List.foldlM_cons, Option.bind_eq_bind, Option.bind_eq_some_iff] at quiet
    obtain ⟨next, first, later⟩ := quiet
    have same : scan.step item.2 (s.view item.1) = scan.step item.2 (s.deref item.1) :=
      step_view scan item.2 (s.deref item.1)
    have silent : State.peuStep (s, scan) item = some (s, next) := by
      simp only [silentStep, Prod.map_fst, Prod.map_snd, id_eq, same] at first
      simp only [State.peuStep]
      split at first
      · cases first
      · rename_i none
        rw [if_neg none, Option.some.inj first]
    rw [List.foldlM_cons, silent]
    exact ih later

def PeuScan.Behind (scan : PeuScan) (n : Nat) : Prop := scan.interruptWithIndex ≤ n ∧ scan.intwithcompl ≤ n

theorem behind_step {scan : PeuScan} {n index : Nat} (behind : scan.Behind n) (bound : index ≤ n)
    (e : Entry) : (scan.step index e).1.Behind n := by
  have synch : ∀ (scan : PeuScan) service, scan.Behind n → (scan.synch service).1.Behind n := by
    intro scan service behind
    unfold PeuScan.synch
    split
    · exact behind
    · exact behind
  have complete : scan.complete.Behind n := by
    unfold PeuScan.complete
    split
    · exact ⟨behind.1, behind.1⟩
    · exact behind
  unfold PeuScan.step
  split
  · exact ⟨bound, behind.2⟩
  · exact ⟨Nat.zero_le n, behind.2⟩
  · exact synch _ _ complete
  · exact synch _ _ behind
  · exact behind

theorem behind_scan (es : List Entry) {k n : Nat} {scan scan' : PeuScan} (behind : scan.Behind n)
    (bound : k + es.length ≤ n + 1) (done : (es.zipIdx k).foldlM silentStep scan = some scan') :
    scan'.Behind n := by
  induction es generalizing k scan with
  | nil => exact Option.some.inj done ▸ behind
  | cons e es ih =>
    rw [List.length_cons] at bound
    rw [List.zipIdx_cons, List.foldlM_cons, Option.bind_eq_bind, Option.bind_eq_some_iff] at done
    obtain ⟨next, first, later⟩ := done
    have here := behind_step behind (show k ≤ n by omega) e
    refine ih ?_ (by omega) later
    simp only [silentStep] at first
    split at first
    · cases first
    · exact Option.some.inj first ▸ here

structure Quiet (s : State) : Prop where
  valid : ∀ r ∈ s.currentPEU.entries, s.Valid r
  types : ∀ r ∈ s.currentPEU.entries, ¬ (s.view r).eventType.InLoop
  scan : (silent (s.currentPEU.entries.map s.view)).isSome

theorem quiet_nothing {s : State} (nothing : s.currentPEU.entries = []) : Quiet s := by
  constructor
  · simp [nothing]
  · simp [nothing]
  · simp [nothing, silent]

theorem quiet_keep {s t : State} (quiet : Quiet s) (peu : t.currentPEU = s.currentPEU)
    (valid : ∀ r, s.Valid r → t.Valid r)
    (view : ∀ r, s.Valid r → ¬ (s.view r).eventType.InLoop → t.view r = s.view r) : Quiet t := by
  have same : ∀ r ∈ s.currentPEU.entries, t.view r = s.view r := fun r member =>
    view r (quiet.valid r member) (quiet.types r member)
  constructor
  · rw [peu]
    exact fun r member => valid r (quiet.valid r member)
  · rw [peu]
    intro r member
    rw [same r member]
    exact quiet.types r member
  · rw [peu, List.map_congr_left same]
    exact quiet.scan

theorem quiet_relabel {s t : State} (quiet : Quiet s) (same : Relabels s t)
    (peu : t.currentPEU = s.currentPEU) : Quiet t :=
  quiet_keep quiet peu (fun r => (same.valid r).mpr) fun r _ _ => same.view r

theorem relabels_peu (s : State) (peu : OngoingPEU) : Relabels s { s with currentPEU := peu } where
  currentLEU := rfl
  serviceStack := rfl
  interrupted := rfl
  leus := rfl
  lastAppended := rfl
  view _ := rfl
  valid _ := Iff.rfl

def State.closePEU (s : State) (start hit : Ref) : State :=
  let duration := (s.deref hit).cycles - (s.deref start).cycles
  let irq := (s.deref hit).pid1
  { s.modify start fun e => { e with peuDuration := duration, peuIRQ := irq } with currentPEU := ⟨none, []⟩ }

theorem silent_snoc {es : List Entry} {scan : PeuScan} (scanned : silent es = some scan) (e : Entry) :
    silent (es ++ [e]) = silentStep scan (e, es.length) := by
  unfold silent at scanned ⊢
  rw [List.zipIdx_append, List.foldlM_append, scanned]
  cases step : silentStep scan (e, es.length) <;> simp [step]

theorem append_cases {s : State} {r start : Ref} {scan : PeuScan} (core : (s.deref r).cpu ≠ 1)
    (later : (s.deref r).eventType ≠ .peustart) (started : s.currentPEU.start = some start)
    (scanned : silent (s.currentPEU.entries.map s.view) = some scan) :
    ((scan.step s.currentPEU.entries.length (s.deref r)).2 = false ∧ s.appendToPEU r = some (s.extendPEU r) ∧
      silent ((s.currentPEU.entries ++ [r]).map s.view) =
        some (scan.step s.currentPEU.entries.length (s.deref r)).1) ∨
    ((scan.step s.currentPEU.entries.length (s.deref r)).2 = true ∧ ∃ hit,
      (s.currentPEU.entries ++ [r])[(scan.step s.currentPEU.entries.length (s.deref r)).1.intwithcompl]? = some hit ∧
      s.appendToPEU r = some (s.closePEU start hit)) := by
  have running : ¬ s.currentPEU.start.isNone = true := by simp [started]
  have extended : (s.extendPEU r).currentPEU.entries = s.currentPEU.entries ++ [r] := rfl
  have before : s.currentPEU.entries.zipIdx.foldlM State.peuStep (s.extendPEU r, ⟨0, "", 0⟩) =
      some (s.extendPEU r, scan) := by
    refine scan_silent _ ?_
    rw [← List.zipIdx_map]
    exact scanned
  have whole : s.appendToPEU r =
      (State.peuStep (s.extendPEU r, scan) (r, s.currentPEU.entries.length)).map Prod.fst := by
    unfold State.appendToPEU
    dsimp only
    rw [if_neg core, if_neg later, if_neg running, extended, List.zipIdx_append, List.foldlM_append, before]
    simp
  have behind : scan.Behind s.currentPEU.entries.length :=
    behind_scan (k := 0) _ ⟨Nat.zero_le _, Nat.zero_le _⟩ (by simp) scanned
  have bounds := behind_step behind (Nat.le_refl _) (s.deref r)
  rw [whole]
  unfold State.peuStep
  dsimp only
  cases hit : (scan.step s.currentPEU.entries.length (s.deref r)).2 with
  | false =>
    refine Or.inl ⟨rfl, ?_, ?_⟩
    · rw [show (s.extendPEU r).deref r = s.deref r from rfl, hit]
      rfl
    · rw [List.map_append, List.map_singleton, silent_snoc scanned]
      simp [silentStep, State.view, step_view, hit]
  | true =>
    have found : (scan.step s.currentPEU.entries.length (s.deref r)).1.intwithcompl <
        (s.currentPEU.entries ++ [r]).length := by
      have bound := bounds.2
      rw [List.length_append, List.length_singleton]
      omega
    refine Or.inr ⟨rfl, _, List.getElem?_eq_getElem found, ?_⟩
    have start_kept : (s.extendPEU r).currentPEU.start = some start := started
    rw [show (s.extendPEU r).deref r = s.deref r from rfl, hit]
    simp only [if_true, State.peuMatch, extended, List.getElem?_eq_getElem found, start_kept, bind, Option.bind_some,
      Option.map_some]
    rfl

theorem append_outcome {s : State} (quiet : (silent (s.currentPEU.entries.map s.view)).isSome) (r : Ref) :
    ∃ t, s.appendToPEU r = some t ∧ Relabels s t ∧ (t = s ∨ t.currentPEU.entries = [] ∨
      t = s.extendPEU r ∧ (silent ((s.currentPEU.entries ++ [r]).map s.view)).isSome) := by
  have same : Relabels s s := relabels_peu s s.currentPEU
  by_cases core : (s.deref r).cpu = 1
  · exact ⟨s, by simp [State.appendToPEU, core], same, Or.inl rfl⟩
  by_cases starts : (s.deref r).eventType = .peustart
  · exact ⟨{ s with currentPEU := ⟨some r, []⟩ }, by simp [State.appendToPEU, core, starts], relabels_peu s _,
      Or.inr (Or.inl rfl)⟩
  cases started : s.currentPEU.start with
  | none => exact ⟨s, by simp [State.appendToPEU, core, starts, started], same, Or.inl rfl⟩
  | some start =>
    obtain ⟨scan, scanned⟩ := Option.isSome_iff_exists.mp quiet
    rcases append_cases core starts started scanned with ⟨_, done, silent⟩ | ⟨_, hit, _, done⟩
    · exact ⟨_, done, relabels_peu s _, Or.inr (Or.inr ⟨rfl, Option.isSome_iff_exists.mpr ⟨_, silent⟩⟩)⟩
    · exact ⟨_, done, (relabels_modify s start _ rfl).trans (relabels_peu _ _), Or.inr (Or.inl rfl)⟩

theorem append_to_peu {s : State} {r : Ref} (quiet : Quiet s) (valid : s.Valid r)
    (type : ¬ (s.view r).eventType.InLoop) :
    ∃ t, s.appendToPEU r = some t ∧ Relabels s t ∧ Quiet t := by
  obtain ⟨t, done, relabels, rfl | empty | ⟨rfl, silent⟩⟩ := append_outcome quiet.scan r
  · exact ⟨t, done, relabels, quiet⟩
  · exact ⟨t, done, relabels, quiet_nothing empty⟩
  · refine ⟨_, done, relabels, ?_, ?_, silent⟩
    · intro q member
      rcases List.mem_append.mp member with old | new
      · exact quiet.valid q old
      · exact List.mem_singleton.mp new ▸ valid
    · intro q member
      rcases List.mem_append.mp member with old | new
      · exact quiet.types q old
      · exact List.mem_singleton.mp new ▸ type

theorem append_last_to_peu {s : State} {c : Fin 2} (quiet : Quiet s)
    (ready : ∀ top rest, s.currentStack c = top :: rest →
      ∃ r, top.entries.getLast? = some r ∧ s.Valid r ∧ ¬ (s.view r).eventType.InLoop) :
    ∃ t, s.appendLastToPEU c = some t ∧ Relabels s t ∧ Quiet t := by
  unfold State.appendLastToPEU
  split
  · exact ⟨s, rfl, relabels_peu s s.currentPEU, quiet⟩
  · rename_i top rest full
    obtain ⟨r, last, valid, type⟩ := ready top rest full
    rw [last]
    exact append_to_peu quiet valid type

end Analyse
