import SepExtract.PacketLabels
import SepExtract.UsnlTraceText

/- The extracts of one packet queue operation, from probe_sepext_pktqueue to the analyser. The
   probe marks all but the first of them PKTQUEUEN, and handlePKTQUEUE moves the mark on to all
   but the last, by way of the entry that was appended last on any CPU. -/
namespace PacketExtracts
open TracerKernel UsnlTraceText NumberTexts Analyse TransitionRuns

structure PktextrInfo where
  serviceId : UInt32
  extractStart : Nat
  numBytes : UInt32
  deriving DecidableEq, Repr

structure Call where
  type : SepentryType
  pid1 : UInt16
  pid2 : UInt16
  data : UInt32
  addr : UInt32
  deriving DecidableEq, Repr

/-- The arguments of probe_sepext_pktqueue; none is a null pointer. -/
structure Operation where
  pktdata : Option (Nat → UInt8)
  queue : UInt32
  head : UInt32
  op : UInt16

def PktextrInfo.value (x : PktextrInfo) (pktdata : Nat → UInt8) : UInt32 :=
  let byte (i : Nat) : UInt32 := (pktdata (x.extractStart + i)).toUInt32 <<< (8 * i).toUInt32
  if x.numBytes = 1 then byte 0
  else if x.numBytes = 2 then byte 0 ||| byte 1
  else byte 0 ||| byte 1 ||| byte 2 ||| byte 3

namespace Operation
variable (o : Operation) (pktdata : Nat → UInt8)

def call (type : SepentryType) (x : PktextrInfo) : Call :=
  ⟨type, o.op, o.queue.toUInt16, x.value pktdata, o.head⟩

def pointer : Call := ⟨.pktqueue, o.op, o.queue.toUInt16, 0, o.head⟩

def extract (found : PktextrInfo → Bool) (acc : List Call × Bool) (x : PktextrInfo) : List Call × Bool :=
  if found x then (acc.1 ++ [o.call pktdata (if acc.2 then .pktqueuen else .pktqueue) x], true) else acc

/-- The extractors for the operation, by the number of its queue or else by the queue's head. -/
def matching (semQueues : UInt32 → UInt32) (x : PktextrInfo) : Bool :=
  if o.queue ≠ 0 then x.serviceId = o.queue else o.head ≠ 0 ∧ semQueues x.serviceId = o.head

def extracts : List PktextrInfo → List Call
  | [] => []
  | x :: more => o.call pktdata .pktqueue x :: more.map (o.call pktdata .pktqueuen)

end Operation

def probePktqueue (piEntries : List PktextrInfo) (semQueues : UInt32 → UInt32) (o : Operation) : List Call :=
  match o.pktdata with
  | none => [o.pointer]
  | some pktdata =>
    let extracted :=
      if o.queue ≠ 0 then piEntries.foldl (o.extract pktdata fun x => x.serviceId = o.queue) ([], false)
      else if o.head ≠ 0 then
        piEntries.foldl (o.extract pktdata fun x => semQueues x.serviceId = o.head) ([], false)
      else ([], false)
    extracted.1 ++ if extracted.2 then [] else [o.pointer]

section Probe
variable (o : Operation) (pktdata : Nat → UInt8) (found : PktextrInfo → Bool) (calls : List Call)

theorem extract_more (l : List PktextrInfo) : l.foldl (o.extract pktdata found) (calls, true) =
    (calls ++ (l.filter found).map (o.call pktdata .pktqueuen), true) := by
  induction l generalizing calls with
  | nil => simp
  | cons x l ih =>
    rw [List.foldl_cons]
    by_cases hit : found x = true
    · rw [Operation.extract, if_pos hit, ih]
      simp [hit]
    · rw [Operation.extract, if_neg hit, ih]
      simp [hit]

theorem extract_all (l : List PktextrInfo) : l.foldl (o.extract pktdata found) (calls, false) =
    (calls ++ o.extracts pktdata (l.filter found), !(l.filter found).isEmpty) := by
  induction l with
  | nil => simp [Operation.extracts]
  | cons x l ih =>
    rw [List.foldl_cons]
    by_cases hit : found x = true
    · rw [Operation.extract, if_pos hit, extract_more]
      simp [hit, Operation.extracts]
    · rw [Operation.extract, if_neg hit, ih]
      simp [hit]

theorem probe_extracts {o pktdata} (packet : o.pktdata = some pktdata) (piEntries : List PktextrInfo)
    (semQueues : UInt32 → UInt32) (some : piEntries.filter (o.matching semQueues) ≠ []) :
    probePktqueue piEntries semQueues o = o.extracts pktdata (piEntries.filter (o.matching semQueues)) := by
  have searched : ∀ found, piEntries.filter found ≠ [] →
      ((piEntries.foldl (o.extract pktdata found) ([], false)).1 ++
        if (piEntries.foldl (o.extract pktdata found) ([], false)).2 then [] else [o.pointer]) =
      o.extracts pktdata (piEntries.filter found) := by
    intro found any
    rw [extract_all]
    simp [any]
  unfold probePktqueue
  simp only [packet]
  by_cases numbered : o.queue ≠ 0
  · have same : o.matching semQueues = fun x => decide (x.serviceId = o.queue) := by
      funext x
      simp [Operation.matching, numbered]
    rw [if_pos numbered, same]
    exact searched _ (same ▸ some)
  · have same : o.matching semQueues = fun x => decide (o.head ≠ 0) && decide (semQueues x.serviceId = o.head) := by
      funext x
      simp [Operation.matching, numbered]
    by_cases headed : o.head ≠ 0
    · have same : o.matching semQueues = fun x => decide (semQueues x.serviceId = o.head) := by
        funext x
        simp [same, headed]
      rw [if_neg numbered, if_pos headed, same]
      exact searched _ (same ▸ some)
    · simp [same, headed] at some

end Probe

structure Carried (c : Fin 2) (call : Call) (e : Entry) : Prop where
  type : e.eventType = .ofText (typeName call.type)
  cpu : e.cpu = c
  pid1 : e.pid1 = call.pid1.toNat
  pid2 : e.pid2 = call.pid2.toNat
  data : e.packetId = numeral 16 call.data.toNat

structure Item where
  own : Bool
  event : Entry

def ownEvents (items : List Item) : List Entry := (items.filter Item.own).map Item.event

structure Interleaved (c : Fin 2) (calls : List Call) (items : List Item) : Prop where
  own : List.Forall₂ (Carried c) calls (ownEvents items)
  first : items.head?.map Item.own = some true
  last : items.getLast?.map Item.own = some true

def handled (x : State × List Ref) (i : Item) : Option (State × List Ref) :=
  (handleEvent x.1 i.event).map fun t => (t, if i.own then x.2 ++ [x.1.next i.event.cpu] else x.2)

def Together (x : State × List Ref) (i : Item) : Prop := i.own = true → x.2 ≠ [] → x.1.lastAppended = x.2.getLast?

instance (x : State × List Ref) (i : Item) : Decidable (Together x i) :=
  inferInstanceAs (Decidable (i.own = true → x.2 ≠ [] → x.1.lastAppended = x.2.getLast?))

def Undisturbed (x : State × List Ref) (i : Item) : Prop :=
  i.own = true → ∀ t, handleEvent x.1 i.event = some t → ∀ q, x.1.Valid q → q ∉ x.2 →
    (t.deref q).eventType = (x.1.deref q).eventType

/-- The entries of the operation after its last one: all in the service that executed it, in
    order, with the values extracted, and labelled as further extracts but for the last. -/
structure Grouped (c : Fin 2) (s : State) (top : ServiceStackElement) (below : List ServiceStackElement)
    (values : List UInt32) (events : List Entry) (x : State × List Ref) : Prop where
  stored : x.1.stackOf c (s.currentLEU c) = { top with entries := top.entries ++ x.2 } :: below
  same : x.2.map x.1.view = events.map Entry.noted
  read : x.2.map (fun r => (x.1.deref r).packetId) = values.map fun v => numeral 10 v.toNat
  labels : x.2.map (fun r => (x.1.deref r).eventType) = List.replicate (values.length - 1) .pktqueuen ++ [.pktqueue]

structure Tracked (s : State) (pre : List Ref) (latest : Ref) : Prop where
  valid : ∀ r ∈ pre ++ [latest], s.Valid r
  marked : ∀ r ∈ pre ++ [latest], (s.deref r).eventType.Marked
  last : ∀ r ∈ pre, s.lastAppended ≠ some r

def Labelled (s : State) (pre : List Ref) (latest : Ref) : Prop :=
  (∀ r ∈ pre, (s.deref r).eventType = .pktqueuen) ∧ (s.deref latest).eventType = .pktqueue

section Steps
variable {s t : State} {pre : List Ref} {latest r : Ref} {e : Entry}

theorem labelled_packet (labelled : Labelled s pre latest) (member : r ∈ pre ++ [latest]) :
    (s.deref r).eventType.Packet := by
  rcases List.mem_append.mp member with old | here
  · rw [labelled.1 r old]
    rfl
  · rw [List.mem_singleton.mp here, labelled.2]
    rfl

theorem not_in_loop (labelled : Labelled s pre latest) (member : r ∈ pre ++ [latest]) :
    ¬ (s.deref r).eventType.InLoop := by
  rcases (packet_iff _).mp (labelled_packet labelled member) with type | type <;> simp [type, EventType.InLoop]

theorem tracked_after (tracked : Tracked s pre latest) (done : handleEvent s e = some t) :
    ∀ r ∈ pre ++ [latest], t.Valid r ∧ (t.deref r).eventType.Marked := by
  intro r member
  have keeps := packets_handle done
  exact ⟨(keeps r (tracked.valid r member) (tracked.marked r member)).1,
    marked_after keeps (tracked.valid r member) (tracked.marked r member)⟩

theorem tracked_other (tracked : Tracked s pre latest) (done : handleEvent s e = some t) : Tracked t pre latest := by
  have kept := tracked_after tracked done
  refine ⟨fun r member => (kept r member).1, fun r member => (kept r member).2, fun r member => ?_⟩
  rcases appends_or_idle done with ⟨q, appended, fresh, _⟩ | idle
  · intro last
    obtain rfl := Option.some.inj (appended.symm.trans last)
    exact fresh (tracked.valid q (by simp [member]))
  · rw [idle.last]
    exact tracked.last r member

theorem tracked_own (tracked : Tracked s pre latest) (packet : e.eventType.Packet) (done : handleEvent s e = some t) :
    Tracked t (pre ++ [latest]) (s.next e.cpu) := by
  have kept := tracked_after tracked done
  have extracts := extracts_handle packet done
  refine ⟨?_, ?_, ?_⟩
  · intro r member
    rcases List.mem_append.mp member with old | new
    · exact (kept r old).1
    · exact List.mem_singleton.mp new ▸ extracts.valid
  · intro r member
    rcases List.mem_append.mp member with old | new
    · exact (kept r old).2
    · obtain rfl := List.mem_singleton.mp new
      have type : (t.view (s.next e.cpu)).eventType = e.noted.eventType := congrArg Entry.eventType extracts.view
      refine Or.inl (type.trans ?_)
      rcases (packet_iff _).mp packet with type | type <;>
        simp [Entry.noted, Entry.rewritten, Entry.unlabelled, type, EventType.unlabelled]
  · intro r member last
    rw [extracts.last] at last
    exact next_invalid s e.cpu (Option.some.inj last ▸ tracked.valid r member)

theorem labelled_other (tracked : Tracked s pre latest) (done : handleEvent s e = some t)
    (labelled : Labelled t pre latest) : Labelled s pre latest := by
  have after : ∀ r ∈ pre ++ [latest], _ := fun r member =>
    (label_after done (tracked.valid r member) (tracked.marked r member)).resolve_left (not_in_loop labelled member)
  constructor
  · intro r member
    rcases after r (by simp [member]) with same | ⟨_, last, _⟩
    · exact same ▸ labelled.1 r member
    · exact absurd last (tracked.last r member)
  · rcases after latest (by simp) with same | ⟨_, _, changed⟩
    · exact same ▸ labelled.2
    · rw [labelled.2] at changed
      cases changed

/-- The labels are right after a further extract only if they were before and nothing was
    appended in between, unless an entry of another operation is relabelled. -/
theorem labelled_own (tracked : Tracked s pre latest) (type : e.eventType = .pktqueuen)
    (done : handleEvent s e = some t)
    (others : ∀ q, s.Valid q → q ∉ pre ++ [latest] → (t.deref q).eventType = (s.deref q).eventType)
    (labelled : Labelled t (pre ++ [latest]) (s.next e.cpu)) :
    Labelled s pre latest ∧ s.lastAppended = some latest := by
  obtain ⟨last, appended, new, labels⟩ := labels_pktqueuen type done
  have packet : (s.deref last).eventType = .pktqueue := by
    by_contra other
    rw [if_neg other, labelled.2] at new
    cases new
  have valid := valid_of_type (s := s) (r := last) (by simp [packet])
  have changed := labels last valid
  rw [if_pos ⟨rfl, packet⟩] at changed
  have member : last ∈ pre ++ [latest] := by
    by_contra other
    rw [others last valid other, packet] at changed
    cases changed
  obtain rfl : last = latest := by
    rcases List.mem_append.mp member with old | here
    · exact absurd appended (tracked.last last old)
    · exact List.mem_singleton.mp here
  refine ⟨⟨fun r old => ?_, packet⟩, appended⟩
  have apart : r ≠ last := fun here => tracked.last r old (here ▸ appended)
  have label := labels r (tracked.valid r (by simp [old]))
  rw [if_neg fun both => apart both.1] at label
  exact label ▸ labelled.1 r (by simp [old])

theorem labelled_next (tracked : Tracked s pre latest) (type : e.eventType = .pktqueuen)
    (done : handleEvent s e = some t) (labelled : Labelled s pre latest) (last : s.lastAppended = some latest) :
    Labelled t (pre ++ [latest]) (s.next e.cpu) := by
  obtain ⟨q, appended, new, labels⟩ := labels_pktqueuen type done
  obtain rfl := Option.some.inj (appended.symm.trans last)
  refine ⟨fun r member => ?_, by rw [new, if_pos labelled.2]⟩
  rw [labels r (tracked.valid r member)]
  split
  · rfl
  · next other =>
    rcases List.mem_append.mp member with old | here
    · exact labelled.1 r old
    · obtain rfl := List.mem_singleton.mp here
      exact absurd ⟨rfl, labelled.2⟩ other

end Steps

def Item.More (c : Fin 2) (i : Item) : Prop := i.own = true → i.event.eventType = .pktqueuen ∧ i.event.cpu = c

structure InPlace (c : Fin 2) (l : LEU) (top : ServiceStackElement) (below : List ServiceStackElement)
    (events : List Entry) (s : State) (pre : List Ref) (latest : Ref) : Prop where
  labelled : Labelled s pre latest
  views : (pre ++ [latest]).map s.view = events.map Entry.noted
  last : s.lastAppended = some latest
  leu : s.currentLEU c = l
  stored : s.stackOf c l = { top with entries := top.entries ++ (pre ++ [latest]) } :: below

def Lost (s : State) (pre : List Ref) (latest : Ref) : Prop := ∃ q, s.lastAppended = some q ∧ q ∉ pre ++ [latest]

section Runs
variable {c : Fin 2} {l : LEU} {top : ServiceStackElement} {below : List ServiceStackElement}
  {items : List Item} {i : Item} {events : List Entry} {s t : State} {pre : List Ref} {latest : Ref}
  {x y : State × List Ref}

theorem handled_own (own : i.own = true) (done : handled (s, pre) i = some y) :
    handleEvent s i.event = some y.1 ∧ y.2 = pre ++ [s.next i.event.cpu] := by
  obtain ⟨t, event, rfl⟩ := Option.map_eq_some_iff.mp done
  exact ⟨event, if_pos own⟩

theorem handled_other (other : i.own = false) (done : handled (s, pre) i = some y) :
    handleEvent s i.event = some y.1 ∧ y.2 = pre := by
  obtain ⟨t, event, rfl⟩ := Option.map_eq_some_iff.mp done
  exact ⟨event, if_neg (by simp [other])⟩

theorem packet_more (more : i.More c) (own : i.own = true) : i.event.eventType.Packet := by
  rw [EventType.Packet, (more own).1]
  rfl

theorem together_of_labelled (tracked : Tracked s pre latest) (more : ∀ i ∈ items, i.More c)
    (ran : run handled (s, pre ++ [latest]) items = some x)
    (undisturbed : Guarded handled Undisturbed (s, pre ++ [latest]) items)
    (labelled : ∀ pre' latest', x.2 = pre' ++ [latest'] → Labelled x.1 pre' latest') :
    Labelled s pre latest ∧ Guarded handled Together (s, pre ++ [latest]) items := by
  induction items generalizing s pre latest with
  | nil =>
    obtain rfl := Option.some.inj ran
    exact ⟨labelled pre latest rfl, trivial⟩
  | cons i items ih =>
    obtain ⟨⟨t, refs⟩, first, later⟩ := run_cons ran
    have rest : ∀ j ∈ items, j.More c := fun j member => more j (by simp [member])
    have goes : ∀ v, handled (s, pre ++ [latest]) i = some v → v = (t, refs) := fun v done =>
      Option.some.inj (done.symm.trans first)
    cases own : i.own with
    | true =>
      have type := (more i (by simp) own).1
      obtain ⟨done, rfl⟩ := handled_own own first
      obtain ⟨right, guarded⟩ := ih (tracked_own tracked (packet_more (more i (by simp)) own) done) rest later
        (undisturbed.2 _ first)
      obtain ⟨before, last⟩ := labelled_own tracked type done (undisturbed.1 own _ done) right
      refine ⟨before, fun _ _ => ?_, fun v done => goes v done ▸ guarded⟩
      simpa using last
    | false =>
      obtain ⟨done, rfl⟩ := handled_other own first
      obtain ⟨right, guarded⟩ := ih (tracked_other tracked done) rest later (undisturbed.2 _ first)
      refine ⟨labelled_other tracked done right, fun mine => ?_, fun v done => goes v done ▸ guarded⟩
      simp [own] at mine

theorem in_place_own (tracked : Tracked s pre latest) (place : InPlace c l top below events s pre latest)
    (more : i.More c) (own : i.own = true) (done : handleEvent s i.event = some t) :
    InPlace c l top below (events ++ [i.event]) t (pre ++ [latest]) (s.next i.event.cpu) := by
  obtain ⟨type, cpu⟩ := more own
  have extracts := extracts_handle (packet_more more own) done
  have labelled := labelled_next tracked type done place.labelled place.last
  have views : (pre ++ [latest]).map t.view = events.map Entry.noted := by
    rw [← place.views]
    refine List.map_congr_left fun r member => ?_
    have kept := (packets_handle done r (tracked.valid r member) (tracked.marked r member)).2
    exact (kept.resolve_left (not_in_loop labelled (List.mem_append_left _ member))).1
  refine ⟨labelled, ?_, extracts.last, ?_, ?_⟩
  · rw [List.map_append, views, List.map_append]
    simp [extracts.view]
  · rw [extracts.leu]
    exact place.leu
  · have stack := extracts.stack
    rw [cpu, place.leu, place.stored] at stack
    rw [stack, cpu]
    simp [appendTop]

theorem in_place_other (tracked : Tracked s pre latest) (place : InPlace c l top below events s pre latest)
    (stays : i.event.eventType = .migrate → l ≠ .thread i.event.pid1) (done : handleEvent s i.event = some t) :
    InPlace c l top below events t pre latest ∨ Lost t pre latest := by
  rcases appends_or_idle done with ⟨q, appended, fresh, _⟩ | idle
  · exact Or.inr ⟨q, appended, fun member => fresh (tracked.valid q member)⟩
  · left
    have same : ∀ r ∈ pre ++ [latest], t.deref r = s.deref r := fun r member =>
      idle.packets r (labelled_packet place.labelled member)
    refine ⟨⟨fun r member => ?_, ?_⟩, ?_, idle.last.trans place.last, ?_, ?_⟩
    · rw [same r (by simp [member])]
      exact place.labelled.1 r member
    · rw [same latest (by simp)]
      exact place.labelled.2
    · rw [← place.views]
      exact List.map_congr_left fun r member => congrArg Entry.unlabelled (same r member)
    · rw [idle.leu]
      exact place.leu
    · rw [idle.stack c l stays]
      exact place.stored

theorem lost_other (tracked : Tracked s pre latest) (lost : Lost s pre latest)
    (done : handleEvent s i.event = some t) : Lost t pre latest := by
  rcases appends_or_idle done with ⟨q, appended, fresh, _⟩ | idle
  · exact ⟨q, appended, fun member => fresh (tracked.valid q member)⟩
  · obtain ⟨q, last, apart⟩ := lost
    exact ⟨q, idle.last.trans last, apart⟩

theorem not_lost (together : Together (s, pre ++ [latest]) i) (own : i.own = true) : ¬ Lost s pre latest := by
  rintro ⟨q, last, apart⟩
  have here := together own (by simp)
  simp only [last, List.getLast?_append_cons, List.getLast?_singleton] at here
  exact apart (by simp [Option.some.inj here])

theorem in_place_run (tracked : Tracked s pre latest) (more : ∀ i ∈ items, i.More c)
    (stays : ∀ i ∈ items, i.event.eventType = .migrate → l ≠ .thread i.event.pid1)
    (ends : ∀ i ∈ items.getLast?, i.own = true)
    (place : InPlace c l top below events s pre latest ∨ items ≠ [] ∧ Lost s pre latest)
    (together : Guarded handled Together (s, pre ++ [latest]) items)
    (ran : run handled (s, pre ++ [latest]) items = some x) :
    ∃ pre' latest', x.2 = pre' ++ [latest'] ∧
      InPlace c l top below (events ++ ownEvents items) x.1 pre' latest' := by
  induction items generalizing events s pre latest with
  | nil =>
    obtain rfl := Option.some.inj ran
    rcases place with place | ⟨nonempty, _⟩
    · exact ⟨pre, latest, rfl, by simpa [ownEvents] using place⟩
    · exact absurd rfl nonempty
  | cons i items ih =>
    obtain ⟨⟨t, refs⟩, first, later⟩ := run_cons ran
    have rest : ∀ j ∈ items, j.More c := fun j member => more j (by simp [member])
    have rest_stays : ∀ j ∈ items, j.event.eventType = .migrate → l ≠ .thread j.event.pid1 := fun j member =>
      stays j (by simp [member])
    have rest_ends : ∀ j ∈ items.getLast?, j.own = true := by
      intro j member
      refine ends j ?_
      rw [List.getLast?_cons, member]
      rfl
    have guarded := together.2 _ first
    cases own : i.own with
    | true =>
      obtain ⟨done, rfl⟩ := handled_own own first
      have events : ownEvents (i :: items) = [i.event] ++ ownEvents items := by simp [ownEvents, own]
      rcases place with place | ⟨_, lost⟩
      · rw [events, ← List.append_assoc]
        exact ih (tracked_own tracked (packet_more (more i (by simp)) own) done) rest rest_stays rest_ends
          (Or.inl (in_place_own tracked place (more i (by simp)) own done)) guarded later
      · exact absurd lost (not_lost together.1 own)
    | false =>
      obtain ⟨done, rfl⟩ := handled_other own first
      have nonempty : items ≠ [] := by
        rintro rfl
        have mine := ends i (by simp)
        simp [own] at mine
      have events : ownEvents (i :: items) = ownEvents items := by simp [ownEvents, own]
      rw [events]
      refine ih (tracked_other tracked done) rest rest_stays rest_ends ?_ guarded later
      rcases place with place | ⟨_, lost⟩
      · exact (in_place_other tracked place (stays i (by simp)) done).imp id fun lost => ⟨nonempty, lost⟩
      · exact Or.inr ⟨nonempty, lost_other tracked lost done⟩

theorem undisturbed_of_together (more : ∀ i ∈ items, i.More c)
    (together : Guarded handled Together (s, pre ++ [latest]) items) :
    Guarded handled Undisturbed (s, pre ++ [latest]) items := by
  induction items generalizing s pre latest with
  | nil => trivial
  | cons i items ih =>
    refine ⟨fun own t done q valid apart => ?_, fun v step => ?_⟩
    · obtain ⟨last, appended, _, labels⟩ := labels_pktqueuen (more i (by simp) own).1 done
      have here : s.lastAppended = some latest := by simpa using together.1 own (by simp)
      obtain rfl := Option.some.inj (appended.symm.trans here)
      rw [labels q valid, if_neg]
      rintro ⟨rfl, _⟩
      exact apart (by simp)
    · have rest : ∀ j ∈ items, j.More c := fun j member => more j (by simp [member])
      have guarded := together.2 v step
      obtain ⟨t, refs⟩ := v
      cases own : i.own with
      | true =>
        obtain ⟨_, rfl⟩ := handled_own own step
        exact ih rest guarded
      | false =>
        obtain ⟨_, rfl⟩ := handled_other own step
        exact ih rest guarded

end Runs

theorem labels_list (s : State) {refs pre : List Ref} {latest : Ref} {values : List UInt32}
    (shape : refs = pre ++ [latest]) (count : refs.length = values.length) :
    refs.map (fun r => (s.deref r).eventType) = List.replicate (values.length - 1) .pktqueuen ++ [.pktqueue] ↔
      Labelled s pre latest := by
  rw [← count, shape, List.length_append, List.length_singleton, Nat.add_sub_cancel, List.map_append]
  constructor
  · intro eq
    obtain ⟨olds, new⟩ := List.append_inj eq (by simp)
    refine ⟨fun r member => ?_, by simpa using new⟩
    exact List.eq_of_mem_replicate (olds ▸ List.mem_map_of_mem member)
  · rintro ⟨olds, new⟩
    rw [List.map_congr_left olds, List.map_const']
    simp [new]

theorem read_pktqueue : EventType.ofText (typeName .pktqueue) = .pktqueue := by decide

theorem read_pktqueuen : EventType.ofText (typeName .pktqueuen) = .pktqueuen := by decide

theorem carried_packet {c : Fin 2} {o : Operation} {pktdata : Nat → UInt8} {x : PktextrInfo} {e : Entry}
    {type : SepentryType} (carried : Carried c (o.call pktdata type x) e) (packet : e.eventType.Packet) :
    e.noted.packetId = numeral 10 (x.value pktdata).toNat := by
  have text : e.noted.packetId = toString (GoText.parseIntValue 16 e.packetId) := by
    rcases (packet_iff _).mp packet with type | type <;> simp [Entry.noted, Entry.rewritten, Entry.unlabelled, type]
  have value : GoText.parseIntValue 16 (numeral 16 (x.value pktdata).toNat) = (x.value pktdata).toNat := by
    have small := (x.value pktdata).toNat_lt
    unfold GoText.parseIntValue GoText.minInt64 GoText.maxInt64
    rw [toList_numeral, signed_toDigits (by decide) (by decide)]
    dsimp only
    omega
  have number : ∀ n : Nat, toString (n : Int) = numeral 10 n := fun _ => rfl
  rw [text, carried.data]
  exact (congrArg toString value).trans (number _)

theorem carried_more {c : Fin 2} {o : Operation} {pktdata : Nat → UInt8} {more : List PktextrInfo} {events : List Entry}
    (carried : List.Forall₂ (Carried c) (more.map (o.call pktdata .pktqueuen)) events) :
    (∀ e ∈ events, e.eventType = .pktqueuen ∧ e.cpu = c) ∧
      events.map (fun e => e.noted.packetId) = more.map fun x => numeral 10 (x.value pktdata).toNat := by
  induction more generalizing events with
  | nil =>
    cases carried
    simp
  | cons x more ih =>
    cases carried with
    | cons first rest =>
      next e events =>
      obtain ⟨types, values⟩ := ih rest
      have type : e.eventType = .pktqueuen := first.type.trans read_pktqueuen
      have value := carried_packet first (by rw [type]; rfl)
      refine ⟨?_, ?_⟩
      · intro d member
        rcases List.mem_cons.mp member with rfl | later
        · exact ⟨type, first.cpu⟩
        · exact types d later
      · rw [List.map_cons, List.map_cons, value, values]

theorem tracked_first {c : Fin 2} {s t : State} {e : Entry} {top : ServiceStackElement}
    {below : List ServiceStackElement} (opened : s.currentStack c = top :: below) (type : e.eventType = .pktqueue)
    (cpu : e.cpu = c) (done : handleEvent s e = some t) :
    Tracked t [] (s.next e.cpu) ∧ InPlace c (s.currentLEU c) top below [e] t [] (s.next e.cpu) := by
  have packet : e.eventType.Packet := by
    rw [type]
    rfl
  have extracts := extracts_handle packet done
  obtain ⟨label, _⟩ := labels_pktqueue type done
  refine ⟨⟨?_, ?_, ?_⟩, ⟨⟨?_, label⟩, ?_, extracts.last, ?_, ?_⟩⟩
  · simpa using extracts.valid
  · simp [label, EventType.Marked, EventType.Packet, EventType.unlabelled]
  · simp
  · simp
  · simp [extracts.view]
  · rw [extracts.leu]
  · have stack := extracts.stack
    have before : s.stackOf c (s.currentLEU c) = top :: below := opened
    rw [cpu, before] at stack
    rw [stack, cpu]
    rfl

section Operation
variable {c : Fin 2} {s : State} {top : ServiceStackElement} {below : List ServiceStackElement} {i : Item}
  {rest : List Item} {values : List UInt32} {events : List Entry} {x : State × List Ref}

theorem together_of_grouped (opened : s.currentStack c = top :: below) (own : i.own = true)
    (type : i.event.eventType = .pktqueue) (cpu : i.event.cpu = c) (more : ∀ j ∈ rest, j.More c)
    (ran : run handled (s, []) (i :: rest) = some x) (grouped : Grouped c s top below values events x)
    (undisturbed : Guarded handled Undisturbed (s, []) (i :: rest)) :
    Guarded handled Together (s, []) (i :: rest) := by
  obtain ⟨⟨t, refs⟩, step, onward⟩ := run_cons ran
  obtain ⟨done, rfl⟩ := handled_own own step
  obtain ⟨tracked, _⟩ := tracked_first opened type cpu done
  have count : x.2.length = values.length := by simpa using congrArg List.length grouped.read
  have labelled : ∀ pre latest, x.2 = pre ++ [latest] → Labelled x.1 pre latest := fun _ _ refs =>
    (labels_list x.1 refs count).mp grouped.labels
  obtain ⟨_, guarded⟩ := together_of_labelled tracked more onward (undisturbed.2 _ step) labelled
  refine ⟨fun _ nonempty => absurd rfl nonempty, fun v again => ?_⟩
  exact Option.some.inj (step.symm.trans again) ▸ guarded

theorem grouped_of_together (opened : s.currentStack c = top :: below) (own : i.own = true)
    (type : i.event.eventType = .pktqueue) (cpu : i.event.cpu = c) (more : ∀ j ∈ rest, j.More c)
    (stays : ∀ j ∈ rest, j.event.eventType = .migrate → s.currentLEU c ≠ .thread j.event.pid1)
    (ends : ∀ j ∈ rest.getLast?, j.own = true)
    (texts : (i.event :: ownEvents rest).map (fun e => e.noted.packetId) = values.map fun v => numeral 10 v.toNat)
    (ran : run handled (s, []) (i :: rest) = some x) (together : Guarded handled Together (s, []) (i :: rest)) :
    Grouped c s top below values (i.event :: ownEvents rest) x ∧
      Guarded handled Undisturbed (s, []) (i :: rest) := by
  obtain ⟨⟨t, refs⟩, step, onward⟩ := run_cons ran
  obtain ⟨done, rfl⟩ := handled_own own step
  obtain ⟨tracked, place⟩ := tracked_first opened type cpu done
  have guarded := together.2 _ step
  obtain ⟨pre, latest, refs, place⟩ := in_place_run tracked more stays ends (Or.inl place) guarded onward
  have views := place.views
  rw [← refs] at views
  have read : x.2.map (fun r => (x.1.deref r).packetId) = values.map fun v => numeral 10 v.toNat := by
    have ids := congrArg (List.map Entry.packetId) views
    rw [List.map_map, List.map_map] at ids
    exact ids.trans texts
  have count : x.2.length = values.length := by simpa using congrArg List.length read
  refine ⟨⟨?_, views, read, (labels_list x.1 refs count).mpr place.labelled⟩, ?_, fun v again => ?_⟩
  · rw [refs]
    exact place.stored
  · exact fun _ u event q valid _ => (labels_pktqueue type event).2 q valid
  · exact Option.some.inj (step.symm.trans again) ▸ undisturbed_of_together more guarded

end Operation

/-- The probe traces the matching extractors in order, the first as PKTQUEUE and the others as
    PKTQUEUEN. Whatever is traced between them, the analyser moves the mark on to all but the last
    of the entries, keeps them together in the service and leaves those of other operations alone
    exactly when nothing else is appended between them. -/
theorem extracts_grouped_iff (piEntries : List PktextrInfo) (semQueues : UInt32 → UInt32) {o : Operation}
    {pktdata : Nat → UInt8} (packet : o.pktdata = some pktdata) (any : piEntries.filter (o.matching semQueues) ≠ [])
    {c : Fin 2} {s : State} {top : ServiceStackElement} {below : List ServiceStackElement}
    (opened : s.currentStack c = top :: below) {items : List Item}
    (between : Interleaved c (probePktqueue piEntries semQueues o) items)
    (stays : ∀ i ∈ items, i.event.eventType = .migrate → s.currentLEU c ≠ .thread i.event.pid1) :
    probePktqueue piEntries semQueues o = o.extracts pktdata (piEntries.filter (o.matching semQueues)) ∧
    ((∃ x, run handled (s, []) items = some x ∧
        Grouped c s top below ((piEntries.filter (o.matching semQueues)).map fun x => x.value pktdata)
          (ownEvents items) x ∧ Guarded handled Undisturbed (s, []) items) ↔
      (run handled (s, []) items).isSome ∧ Guarded handled Together (s, []) items) := by
  have traced := probe_extracts packet piEntries semQueues any
  refine ⟨traced, ?_⟩
  have carried := between.own
  rw [traced] at carried
  generalize piEntries.filter (o.matching semQueues) = found at any carried
  obtain ⟨y, more, rfl⟩ := List.exists_cons_of_ne_nil any
  obtain ⟨i, rest, rfl⟩ : ∃ i rest, items = i :: rest := by
    cases items with
    | nil => simpa using between.first
    | cons i rest => exact ⟨i, rest, rfl⟩
  have own : i.own = true := by simpa using between.first
  have events : ownEvents (i :: rest) = i.event :: ownEvents rest := by simp [ownEvents, own]
  rw [events] at carried ⊢
  obtain ⟨first, later⟩ := List.forall₂_cons.mp carried
  obtain ⟨types, values⟩ := carried_more later
  have type : i.event.eventType = .pktqueue := first.type.trans read_pktqueue
  have furthers : ∀ j ∈ rest, j.More c := fun j member mine =>
    types j.event (List.mem_map_of_mem (List.mem_filter.mpr ⟨member, mine⟩))
  constructor
  · rintro ⟨x, ran, grouped, undisturbed⟩
    exact ⟨by simp [ran], together_of_grouped opened own type first.cpu furthers ran grouped undisturbed⟩
  · rintro ⟨going, together⟩
    obtain ⟨x, ran⟩ := Option.isSome_iff_exists.mp going
    have ends : ∀ j ∈ rest.getLast?, j.own = true := by
      intro j last
      have ending := between.last
      rw [List.getLast?_cons, last] at ending
      simpa using ending
    have texts : (i.event :: ownEvents rest).map (fun e => e.noted.packetId) =
        ((y :: more).map fun x => x.value pktdata).map fun v => numeral 10 v.toNat := by
      have one : i.event.noted.packetId = numeral 10 (y.value pktdata).toNat :=
        carried_packet first (by rw [type]; rfl)
      rw [List.map_map, List.map_cons, List.map_cons]
      exact congrArg₂ List.cons one values
    obtain ⟨grouped, undisturbed⟩ := grouped_of_together opened own type first.cpu furthers
      (fun j member => stays j (by simp [member])) ends texts ran together
    exact ⟨x, ran, grouped, undisturbed⟩

def twoExtractors : List PktextrInfo := [⟨3, 0, 1⟩, ⟨4, 1, 1⟩, ⟨3, 1, 2⟩]

def payload (i : Nat) : UInt8 := if i = 0 then 5 else 7

def enqueued : Operation := ⟨some payload, 3, 0xc0de0000, 0⟩

def eventOn (cpu : Fin 2) (type : EventType) (pid1 pid2 : Int) (data : String) : Entry :=
  { Entry.blank cpu with eventType := type, pid1 := pid1, pid2 := pid2, packetId := data, service := "f" }

def inService : State :=
  ((handleEvent .initial (eventOn cpu0 .ctxsw 1 2 "0")).bind fun s =>
    handleEvent s (eventOn cpu0 .srventry 0 0 "0")).getD .initial

def around (others : List Entry) : List Item :=
  ⟨true, eventOn cpu0 .pktqueue 0 3 "5"⟩ ::
    (others.map (⟨false, ·⟩) ++ [⟨true, eventOn cpu0 .pktqueuen 0 3 "707"⟩])

theorem around_interleaved (others : List Entry) :
    Interleaved 0 (probePktqueue twoExtractors (fun _ => 0) enqueued) (around others) := by
  have own : ownEvents (around others) = [eventOn 0 .pktqueue 0 3 "5", eventOn 0 .pktqueuen 0 3 "707"] := by
    simp [ownEvents, around, List.filter_map, Function.comp_def]
  refine ⟨?_, rfl, by rw [around, ← List.cons_append, List.getLast?_concat]; rfl⟩
  rw [own]
  refine .cons ⟨?_, rfl, ?_, ?_, ?_⟩ (.cons ⟨?_, rfl, ?_, ?_, ?_⟩ .nil) <;> decide

theorem extracts_grouped_migration : ∃ x, run handled (inService, []) (around [eventOn 1 .migrate 9 0 "0"]) = some x ∧
    x.2.map (fun r => (x.1.deref r).eventType) = [.pktqueuen, .pktqueue] ∧
    x.2.map (fun r => (x.1.deref r).packetId) = ["5", "1799"] := by
  have packet : enqueued.pktdata = some payload := rfl
  have values : (twoExtractors.filter (enqueued.matching fun _ => 0)).map (fun x => x.value payload) = [5, 1799] := by
    decide
  obtain ⟨top, below, opened⟩ : ∃ top below, inService.currentStack 0 = top :: below := ⟨_, _, rfl⟩
  obtain ⟨x, ran, grouped, _⟩ := (extracts_grouped_iff twoExtractors (fun _ => 0) packet (by decide) opened
    (around_interleaved [eventOn 1 .migrate 9 0 "0"]) (by decide)).2.mpr ⟨by decide, by decide⟩
  rw [values] at grouped
  exact ⟨x, ran, grouped.labels, grouped.read⟩

theorem interrupt_splits_extracts :
    Interleaved 0 (probePktqueue twoExtractors (fun _ => 0) enqueued)
      (around [eventOn 0 .hirqentry 5 0 "0", eventOn 0 .hirqexit 5 0 "0"]) ∧
    (run handled (inService, []) (around [eventOn 0 .hirqentry 5 0 "0", eventOn 0 .hirqexit 5 0 "0"])).map
      (fun x => x.2.map fun r => (x.1.deref r).eventType) = some [.pktqueue, .pktqueuen] :=
  ⟨around_interleaved _, by decide⟩

end PacketExtracts
