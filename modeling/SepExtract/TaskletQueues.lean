import Mathlib
import SepExtract.LinkedLists
import SepExtract.TransitionRuns

/- The two tasklet lists of a CPU in softirq.c, singly linked with a pointer to the pointer at
   their end: the functions that put a tasklet on a list and the actions that take a list. -/
namespace TaskletQueues
open LinkedLists TransitionRuns

variable {T : Type}

inductive Vec where
  | lo
  | hi
deriving DecidableEq

/-- What a tail points to: the head of a list or the next field of a tasklet. -/
inductive Slot (T : Type) where
  | head (v : Vec)
  | next (t : T)
deriving DecidableEq

structure Action (T : Type) where
  vec : Vec
  list : Option T
  current : Option T
  /-- The tasklets that were reached, and whether they were neither locked nor disabled. -/
  reached : List (T × Bool)
  dequeued : List T
  ran : List T

structure State (T : Type) where
  next : T → Option T
  head : Vec → Option T
  tail : Vec → Slot T
  /-- TASKLET_STATE_SCHED. -/
  sched : T → Bool
  action : Option (Action T)
  bug : Bool

def lastSlot (v : Vec) (l : List T) : Slot T :=
  match l.getLast? with
  | none => .head v
  | some t => .next t

structure Represents (s : State T) (lists : Vec → List T) (held : List T) : Prop where
  linked : ∀ v, Seg s.next (s.head v) (lists v) none
  tail : ∀ v, s.tail v = lastSlot v (lists v)
  held : Seg s.next (s.action.bind Action.list) held none
  sound : s.bug = false

def everywhere (s : State T) (lists : Vec → List T) (held : List T) : List T :=
  lists .lo ++ (lists .hi ++ ((s.action.bind Action.current).toList ++ held))

def Holds (s : State T) (held : List T) : Prop :=
  ∃ lists, Represents s lists held ∧ (everywhere s lists held).Nodup ∧
    ∀ t, s.sched t = true ↔ t ∈ everywhere s lists held

def Kept (s : State T) : Prop := ∃ held, Holds s held

section
variable {lists : Vec → List T} {held : List T} {v w : Vec} {x : T}

theorem apart_lists (apart : (lists .lo ++ (lists .hi ++ held)).Nodup) (first : x ∈ lists v) (second : x ∈ lists w) :
    v = w := by
  have disjoint := List.disjoint_of_nodup_append apart
  cases v <;> cases w
  · rfl
  · exact (disjoint first (List.mem_append_left _ second)).elim
  · exact (disjoint second (List.mem_append_left _ first)).elim
  · rfl

theorem apart_held (apart : (lists .lo ++ (lists .hi ++ held)).Nodup) (first : x ∈ lists v) : x ∉ held := by
  intro second
  cases v with
  | lo => exact List.disjoint_of_nodup_append apart first (List.mem_append_right _ second)
  | hi => exact List.disjoint_of_nodup_append (List.Nodup.of_append_right apart) first second

end

variable [DecidableEq T]

def State.initial : State T := ⟨fun _ => none, fun _ => none, .head, fun _ => false, none, false⟩

namespace State

def store (s : State T) : Slot T → Option T → State T
  | .head v, p => { s with head := Function.update s.head v p }
  | .next t, p => { s with next := Function.update s.next t p }

/-- t->next = NULL; *tail = t; tail = &t->next. -/
def append (s : State T) (v : Vec) (t : T) : State T :=
  let s := { s with next := Function.update s.next t none }
  let s := s.store (s.tail v) (some t)
  { s with tail := Function.update s.tail v (.next t) }

def taskletSchedule (s : State T) (t : T) : State T := s.append .lo t

def taskletHiSchedule (s : State T) (t : T) : State T := s.append .hi t

def taskletHiScheduleFirst (s : State T) (t : T) : State T :=
  { s with next := Function.update s.next t (s.head .hi), head := Function.update s.head .hi (some t) }

def setSched (s : State T) (t : T) : State T := { s with sched := Function.update s.sched t true }

/-- An action up to its loop. -/
def take (s : State T) (v : Vec) : State T :=
  { s with
    head := Function.update s.head v none
    tail := Function.update s.tail v (.head v)
    action := some ⟨v, s.head v, none, [], [], []⟩ }

/-- t = list; list = list->next. -/
def advance (s : State T) (a : Action T) (t : T) : State T :=
  { s with action := some { a with list := s.next t, current := some t } }

/-- The tasklet t of an action is run, or put back on the list. -/
def dispatch (s : State T) (a : Action T) (t : T) (locked disabled : Bool) : State T :=
  if !locked && !disabled then
    { s with
      sched := Function.update s.sched t false
      bug := s.bug || !s.sched t
      action := some ⟨a.vec, a.list, none, a.reached ++ [(t, true)], a.dequeued ++ [t], a.ran ++ [t]⟩ }
  else
    { s with action := some { a with current := none, reached := a.reached ++ [(t, false)] } }.append a.vec t

end State

/-- The calls, and the sections of the actions between which interrupts may come. -/
inductive Call (T : Type) where
  | taskletSchedule (t : T)
  | taskletHiSchedule (t : T)
  | taskletHiScheduleFirst (t : T)
  | begin (v : Vec)
  | advance
  | dispatch (locked disabled : Bool)
  | finish

def step (s : State T) : Call T → Option (State T)
  | .taskletSchedule t => if s.sched t then none else some ((s.setSched t).taskletSchedule t)
  | .taskletHiSchedule t => if s.sched t then none else some ((s.setSched t).taskletHiSchedule t)
  | .taskletHiScheduleFirst t => if s.sched t then none else some ((s.setSched t).taskletHiScheduleFirst t)
  | .begin v => if s.action.isSome then none else some (s.take v)
  | .advance =>
    match s.action with
    | some ⟨v, some t, none, reached, dequeued, ran⟩ =>
      some (s.advance ⟨v, some t, none, reached, dequeued, ran⟩ t)
    | _ => none
  | .dispatch locked disabled =>
    match s.action with
    | some ⟨v, list, some t, reached, dequeued, ran⟩ =>
      some (s.dispatch ⟨v, list, some t, reached, dequeued, ran⟩ t locked disabled)
    | _ => none
  | .finish =>
    match s.action with
    | some ⟨_, none, none, _, _, _⟩ => some { s with action := none }
    | _ => none

section
variable {s : State T} {lists : Vec → List T} {held : List T} {v w : Vec} {t x : T}

theorem append_represents (rep : Represents s lists held) (apart : (lists .lo ++ (lists .hi ++ held)).Nodup)
    (new : ∀ v, t ∉ lists v) (free : t ∉ held) (v : Vec) :
    Represents (s.append v t) (Function.update lists v (lists v ++ [t])) held := by
  have tail := rep.tail v
  unfold lastSlot at tail
  rcases List.eq_nil_or_concat (lists v) with empty | ⟨front, last, list⟩
  · -- the tail points to the head
    rw [empty, List.getLast?_nil] at tail
    simp only [State.append, tail, State.store]
    refine ⟨fun w => ?_, fun w => ?_, (seg_update free none).mpr rep.held, rep.sound⟩
    · by_cases here : w = v
      · subst here
        simp [empty, Seg]
      · simp only [Function.update_of_ne here]
        exact (seg_update (new w) none).mpr (rep.linked w)
    · by_cases here : w = v
      · subst here
        simp [lastSlot]
      · simp only [Function.update_of_ne here]
        exact rep.tail w
  · -- the tail points to the next field of the last tasklet
    rw [List.concat_eq_append] at list
    rw [list, List.getLast?_concat] at tail
    have inside : last ∈ lists v := by simp [list]
    have segment := rep.linked v
    rw [list] at segment
    have outside : t ∉ front ++ [last] := list ▸ new v
    simp only [State.append, tail, State.store]
    refine ⟨fun w => ?_, fun w => ?_, ?_, rep.sound⟩
    · by_cases here : w = v
      · subst here
        rw [Function.update_self, list]
        refine seg_concat.mpr ⟨seg_relink ((seg_update outside none).mpr segment) (seg_once segment) (some t), ?_⟩
        dsimp only
        rw [Function.update_of_ne (ne_of_mem_of_not_mem inside (new w)).symm, Function.update_self]
      · simp only [Function.update_of_ne here]
        have other : last ∉ lists w := fun again => here (apart_lists apart again inside)
        exact (seg_update other _).mpr ((seg_update (new w) none).mpr (rep.linked w))
    · by_cases here : w = v
      · subst here
        simp [lastSlot]
      · simp only [Function.update_of_ne here]
        exact rep.tail w
    · exact (seg_update (apart_held apart inside) _).mpr ((seg_update free none).mpr rep.held)

theorem everywhere_append (lists : Vec → List T) (v : Vec) (t : T) (rest : List T) :
    (Function.update lists v (lists v ++ [t]) .lo ++ (Function.update lists v (lists v ++ [t]) .hi ++ rest)).Perm
      (t :: (lists .lo ++ (lists .hi ++ rest))) := by
  rw [List.perm_iff_count]
  intro x
  cases v <;> simp [Function.update, List.count_append, List.count_cons] <;> omega

theorem store_rest (s : State T) (slot : Slot T) (p : Option T) :
    (s.store slot p).action = s.action ∧ (s.store slot p).sched = s.sched := by
  cases slot <;> exact ⟨rfl, rfl⟩

theorem append_action (s : State T) (v : Vec) (t : T) : (s.append v t).action = s.action := (store_rest _ _ _).1

theorem append_sched (s : State T) (v : Vec) (t : T) : (s.append v t).sched = s.sched := (store_rest _ _ _).2

omit [DecidableEq T] in
theorem apart_of_everywhere (distinct : (everywhere s lists held).Nodup) :
    (lists .lo ++ (lists .hi ++ held)).Nodup := by
  refine distinct.sublist ?_
  exact ((List.sublist_append_right _ _).append_left _).append_left _

omit [DecidableEq T] in
theorem not_mem_everywhere (absent : t ∉ everywhere s lists held) : (∀ v, t ∉ lists v) ∧ t ∉ held := by
  simp only [everywhere, List.mem_append, not_or] at absent
  refine ⟨fun v => ?_, absent.2.2.2⟩
  cases v with
  | lo => exact absent.1
  | hi => exact absent.2.1

theorem sched_insert {l l' : List T} (sched : ∀ x, s.sched x = true ↔ x ∈ l) (perm : l'.Perm (t :: l)) (x : T) :
    Function.update s.sched t true x = true ↔ x ∈ l' := by
  rw [perm.mem_iff, List.mem_cons, ← sched x]
  by_cases here : x = t
  · simp [here]
  · simp [here]

theorem holds_append (holds : Holds s held) (clear : s.sched t = false) (v : Vec) :
    Holds ((s.setSched t).append v t) held := by
  obtain ⟨lists, rep, distinct, sched⟩ := holds
  have absent : t ∉ everywhere s lists held := by
    rw [← sched t, clear]
    exact Bool.false_ne_true
  obtain ⟨new, free⟩ := not_mem_everywhere absent
  have marked : Represents (s.setSched t) lists held := ⟨rep.linked, rep.tail, rep.held, rep.sound⟩
  have perm := everywhere_append lists v t ((s.action.bind Action.current).toList ++ held)
  refine ⟨_, append_represents marked (apart_of_everywhere distinct) new free v, ?_, fun x => ?_⟩
  · rw [everywhere, append_action]
    exact perm.nodup_iff.mpr (List.nodup_cons.mpr ⟨absent, distinct⟩)
  · rw [everywhere, append_action, append_sched]
    exact sched_insert sched perm x

theorem holds_first (holds : Holds s held) (clear : s.sched t = false) (filled : s.head .hi ≠ none) :
    Holds ((s.setSched t).taskletHiScheduleFirst t) held := by
  obtain ⟨lists, rep, distinct, sched⟩ := holds
  have absent : t ∉ everywhere s lists held := by
    rw [← sched t, clear]
    exact Bool.false_ne_true
  obtain ⟨new, free⟩ := not_mem_everywhere absent
  have list : lists .hi ≠ [] := by
    intro empty
    have linked := rep.linked .hi
    rw [empty] at linked
    exact filled linked
  have perm : (lists .lo ++ (t :: lists .hi ++ ((s.action.bind Action.current).toList ++ held))).Perm
      (t :: everywhere s lists held) := by
    rw [List.perm_iff_count]
    intro x
    simp only [everywhere, List.count_append, List.count_cons]
    omega
  refine ⟨Function.update lists .hi (t :: lists .hi), ⟨fun v => ?_, fun v => ?_, ?_, rep.sound⟩, ?_, fun x => ?_⟩
  · cases v with
    | lo => exact (seg_update (new .lo) _).mpr (rep.linked .lo)
    | hi =>
      refine ⟨rfl, ?_⟩
      simp only [State.taskletHiScheduleFirst, State.setSched, Function.update_self]
      exact (seg_update (new .hi) _).mpr (rep.linked .hi)
  · cases v with
    | lo => exact rep.tail .lo
    | hi =>
      obtain ⟨first, rest, shape⟩ := List.exists_cons_of_ne_nil list
      have tail := rep.tail .hi
      simp only [Function.update_self, lastSlot, shape, List.getLast?_cons_cons] at tail ⊢
      exact tail
  · exact (seg_update free _).mpr rep.held
  · exact perm.nodup_iff.mpr (List.nodup_cons.mpr ⟨absent, distinct⟩)
  · exact sched_insert sched perm x

/-- In front of an empty list the tail still points to the head. -/
theorem not_kept_first (kept : Kept s) (empty : s.head .hi = none) :
    ¬ Kept ((s.setSched t).taskletHiScheduleFirst t) := by
  rintro ⟨held, lists, rep, -, -⟩
  obtain ⟨_, old, before, -, -⟩ := kept
  have none := seg_head (before.linked .hi)
  have tail := before.tail .hi
  have linked := seg_head (rep.linked .hi)
  have after := rep.tail .hi
  simp only [State.taskletHiScheduleFirst, State.setSched, Function.update_self] at linked after
  rw [empty, eq_comm, List.head?_eq_none_iff] at none
  rw [none] at tail
  rw [tail] at after
  unfold lastSlot at after
  cases last : (lists .hi).getLast? with
  | none =>
    rw [List.getLast?_eq_none_iff.mp last] at linked
    cases linked
  | some x =>
    rw [last] at after
    cases after

theorem holds_take {l : List T} (kept : Kept s) (idle : s.action = none) (list : Seg s.next (s.head v) l none) :
    Holds (s.take v) l := by
  obtain ⟨held, lists, rep, distinct, sched⟩ := kept
  obtain rfl := seg_unique list (rep.linked v)
  have empty : held = [] := by
    have linked := seg_head rep.held
    rw [idle] at linked
    exact List.head?_eq_none_iff.mp linked.symm
  subst empty
  have perm : (Function.update lists v [] .lo ++ (Function.update lists v [] .hi ++ ([] ++ lists v))).Perm
      (everywhere s lists []) := by
    rw [List.perm_iff_count]
    intro x
    cases v
    · simp [everywhere, idle, List.count_append]
      omega
    · simp [everywhere, idle, List.count_append]
  refine ⟨Function.update lists v [], ⟨fun w => ?_, fun w => ?_, rep.linked v, rep.sound⟩,
    perm.nodup_iff.mpr distinct, fun x => (sched x).trans perm.mem_iff.symm⟩
  · by_cases here : w = v
    · subst here
      simp [State.take, Seg]
    · simp only [State.take, Function.update_of_ne here]
      exact rep.linked w
  · by_cases here : w = v
    · subst here
      simp [State.take, lastSlot]
    · simp only [State.take, Function.update_of_ne here]
      exact rep.tail w

omit [DecidableEq T] in
theorem holds_advance {a : Action T} (holds : Holds s held) (going : s.action = some a) (list : a.list = some t)
    (none : a.current = none) : ∃ rest, held = t :: rest ∧ Holds (s.advance a t) rest := by
  obtain ⟨lists, rep, distinct, sched⟩ := holds
  have linked := rep.held
  rw [going, Option.bind_some, list] at linked
  cases held with
  | nil => cases linked
  | cons x rest =>
    obtain ⟨same, later⟩ := linked
    obtain rfl := Option.some.inj same
    have places : everywhere (s.advance a t) lists rest = everywhere s lists (t :: rest) := by
      simp [everywhere, State.advance, going, none]
    exact ⟨rest, rfl, lists, ⟨rep.linked, rep.tail, later, rep.sound⟩, places ▸ distinct, places ▸ sched⟩

theorem holds_dispatch {a : Action T} (holds : Holds s held) (going : s.action = some a)
    (current : a.current = some t) (locked disabled : Bool) : Holds (s.dispatch a t locked disabled) held := by
  obtain ⟨lists, rep, distinct, sched⟩ := holds
  have places : everywhere s lists held = lists .lo ++ (lists .hi ++ (t :: held)) := by
    simp [everywhere, going, current]
  rw [places] at distinct sched
  have perm : (lists .lo ++ (lists .hi ++ (t :: held))).Perm (t :: (lists .lo ++ (lists .hi ++ held))) := by
    rw [List.perm_iff_count]
    intro x
    simp only [List.count_append, List.count_cons]
    omega
  have fresh := List.nodup_cons.mp (perm.nodup_iff.mp distinct)
  have listed := rep.held
  rw [going, Option.bind_some] at listed
  unfold State.dispatch
  split
  · -- run: it is nowhere any more
    have on : s.sched t = true := (sched t).mpr (by simp)
    refine ⟨lists, ⟨rep.linked, rep.tail, listed, ?_⟩, fresh.2, fun x => ?_⟩
    · simp [rep.sound, on]
    · have member := sched x
      rw [perm.mem_iff, List.mem_cons] at member
      simp only [everywhere, Option.bind_some, Option.toList_none, List.nil_append]
      by_cases here : x = t
      · subst here
        simpa using fresh.1
      · rw [Function.update_of_ne here, member]
        simp [here]
  · -- locked or disabled: back on the list
    have still : Represents { s with action := some { a with current := none, reached := a.reached ++ [(t, false)] } }
        lists held := ⟨rep.linked, rep.tail, listed, rep.sound⟩
    simp only [List.mem_append, not_or] at fresh
    have new : ∀ v, t ∉ lists v := by
      intro v
      cases v with
      | lo => exact fresh.1.1
      | hi => exact fresh.1.2.1
    have back := everywhere_append lists a.vec t held
    refine ⟨_, append_represents still fresh.2 new fresh.1.2.2 a.vec, ?_, fun x => ?_⟩
    · rw [everywhere, append_action]
      exact (back.trans perm.symm).nodup_iff.mpr distinct
    · rw [everywhere, append_action, append_sched]
      exact (sched x).trans (back.trans perm.symm).mem_iff.symm

omit [DecidableEq T] in
theorem holds_finish {a : Action T} (holds : Holds s held) (going : s.action = some a) (list : a.list = none)
    (none : a.current = none) : held = [] ∧ Holds { s with action := .none } held := by
  obtain ⟨lists, rep, distinct, sched⟩ := holds
  have linked := rep.held
  rw [going, Option.bind_some, list] at linked
  have places : everywhere { s with action := .none } lists held = everywhere s lists held := by
    simp [everywhere, going, none]
  exact ⟨List.head?_eq_none_iff.mp (seg_head linked).symm, lists, ⟨rep.linked, rep.tail, linked, rep.sound⟩,
    places ▸ distinct, places ▸ sched⟩

theorem step_cases {c : Call T} {s' : State T} (done : step s c = some s') :
    (∃ v t, s.sched t = false ∧ s' = (s.setSched t).append v t) ∨
    (∃ t, c = .taskletHiScheduleFirst t ∧ s.sched t = false ∧ s' = (s.setSched t).taskletHiScheduleFirst t) ∨
    (∃ v, c = .begin v ∧ s.action = none ∧ s' = s.take v) ∨
    (∃ a t, s.action = some a ∧ a.list = some t ∧ a.current = none ∧ s' = s.advance a t) ∨
    (∃ a t locked disabled, s.action = some a ∧ a.current = some t ∧ s' = s.dispatch a t locked disabled) ∨
    (∃ a, c = .finish ∧ s.action = some a ∧ a.list = none ∧ a.current = none ∧ s' = { s with action := none }) := by
  cases c with
  | taskletSchedule t =>
    simp only [step] at done
    split at done
    · cases done
    · rename_i clear
      exact .inl ⟨.lo, t, by simpa using clear, (Option.some.inj done).symm⟩
  | taskletHiSchedule t =>
    simp only [step] at done
    split at done
    · cases done
    · rename_i clear
      exact .inl ⟨.hi, t, by simpa using clear, (Option.some.inj done).symm⟩
  | taskletHiScheduleFirst t =>
    simp only [step] at done
    split at done
    · cases done
    · rename_i clear
      exact .inr (.inl ⟨t, rfl, by simpa using clear, (Option.some.inj done).symm⟩)
  | begin v =>
    simp only [step] at done
    split at done
    · cases done
    · rename_i idle
      exact .inr (.inr (.inl ⟨v, rfl, by simpa using idle, (Option.some.inj done).symm⟩))
  | advance =>
    simp only [step] at done
    split at done
    · rename_i going
      exact .inr (.inr (.inr (.inl ⟨_, _, going, rfl, rfl, (Option.some.inj done).symm⟩)))
    · cases done
  | dispatch locked disabled =>
    simp only [step] at done
    split at done
    · rename_i going
      exact .inr (.inr (.inr (.inr (.inl ⟨_, _, locked, disabled, going, rfl, (Option.some.inj done).symm⟩))))
    · cases done
  | finish =>
    simp only [step] at done
    split at done
    · rename_i going
      exact .inr (.inr (.inr (.inr (.inr ⟨_, rfl, going, rfl, rfl, (Option.some.inj done).symm⟩))))
    · cases done

def FirstFilled (s : State T) : Call T → Prop
  | .taskletHiScheduleFirst _ => s.head .hi ≠ none
  | _ => True

theorem step_kept {c : Call T} {s' : State T} (kept : Kept s) (filled : FirstFilled s c) (done : step s c = some s') :
    Kept s' := by
  obtain ⟨held, holds⟩ := kept
  rcases step_cases done with ⟨v, t, clear, rfl⟩ | ⟨t, rfl, clear, rfl⟩ | ⟨v, rfl, idle, rfl⟩ |
    ⟨a, t, going, list, none, rfl⟩ | ⟨a, t, locked, disabled, going, current, rfl⟩ | ⟨a, rfl, going, list, none, rfl⟩
  · exact ⟨held, holds_append holds clear v⟩
  · exact ⟨held, holds_first holds clear filled⟩
  · obtain ⟨lists, rep, _⟩ := id holds
    exact ⟨_, holds_take ⟨held, holds⟩ idle (rep.linked v)⟩
  · obtain ⟨rest, _, after⟩ := holds_advance holds going list none
    exact ⟨rest, after⟩
  · exact ⟨held, holds_dispatch holds going current locked disabled⟩
  · exact ⟨held, (holds_finish holds going list none).2⟩

def Action.runnable (a : Action T) : List T := (a.reached.filter Prod.snd).map Prod.fst

def Acting (l : List T) (s : State T) : Prop :=
  ∃ a held, s.action = some a ∧ Holds s held ∧ a.reached.map Prod.fst ++ (a.current.toList ++ held) = l ∧
    a.dequeued = a.runnable ∧ a.ran = a.runnable

theorem step_acting {l : List T} {c : Call T} {s' : State T} (acting : Acting l s) (filled : FirstFilled s c)
    (going : c ≠ .finish) (done : step s c = some s') : Acting l s' := by
  obtain ⟨a, held, action, holds, taken, dequeued, ran⟩ := acting
  rcases step_cases done with ⟨v, t, clear, rfl⟩ | ⟨t, rfl, clear, rfl⟩ | ⟨v, rfl, idle, rfl⟩ |
    ⟨b, t, same, list, none, rfl⟩ | ⟨b, t, locked, disabled, same, current, rfl⟩ | ⟨b, rfl, _⟩
  · exact ⟨a, held, by rw [append_action]; exact action, holds_append holds clear v, taken, dequeued, ran⟩
  · exact ⟨a, held, action, holds_first holds clear filled, taken, dequeued, ran⟩
  · cases idle.symm.trans action
  · obtain rfl := Option.some.inj (action.symm.trans same)
    obtain ⟨rest, rfl, after⟩ := holds_advance holds action list none
    refine ⟨_, rest, rfl, after, ?_, dequeued, ran⟩
    rw [← taken, none]
    rfl
  · obtain rfl := Option.some.inj (action.symm.trans same)
    have after := holds_dispatch holds action current locked disabled
    rw [current, Option.toList_some, List.singleton_append] at taken
    by_cases free : (!locked && !disabled) = true
    · rw [State.dispatch, if_pos free] at after ⊢
      refine ⟨_, held, rfl, after, ?_, ?_, ?_⟩
      · simp [← taken]
      · simp [dequeued, Action.runnable]
      · simp [ran, Action.runnable]
    · rw [State.dispatch, if_neg free] at after ⊢
      refine ⟨_, held, append_action _ _ _, after, ?_, ?_, ?_⟩
      · simp [← taken]
      · simp [dequeued, Action.runnable]
      · simp [ran, Action.runnable]
  · exact (going rfl).elim

end

/-- After every call each scheduled tasklet is in one place; and an action reaches each tasklet of the list it takes
    once, and runs and traces once those it finds neither locked nor disabled. -/
structure Lossless (calls : List (Call T)) : Prop where
  kept : ∀ before s, before <+: calls → run step .initial before = some s → Kept s
  once : ∀ before v during s l u, before ++ .begin v :: during ++ [.finish] <+: calls → .finish ∉ during →
    run step .initial before = some s → Seg s.next (s.head v) l none →
    run step .initial (before ++ .begin v :: during) = some u →
    ∃ a, u.action = some a ∧ a.reached.map Prod.fst = l ∧ l.Nodup ∧ a.dequeued = a.runnable ∧ a.ran = a.runnable

omit [DecidableEq T] in
theorem kept_initial : Kept (State.initial : State T) :=
  ⟨[], fun _ => [], ⟨fun _ => rfl, fun _ => rfl, rfl, rfl⟩, List.nodup_nil,
    fun _ => by simp [State.initial, everywhere]⟩

section
variable {calls before during : List (Call T)} {s u : State T} {v : Vec} {l : List T}

theorem run_kept (filled : Guarded step FirstFilled .initial calls) (done : run step .initial calls = some s) :
    Kept s :=
  invariant_of_guarded Kept (fun _ _ _ kept admitted stepped => step_kept kept admitted stepped) kept_initial filled
    done

theorem run_acting (acting : Acting l s) (filled : Guarded step FirstFilled s during) (going : .finish ∉ during)
    (done : run step s during = some u) : Acting l u := by
  induction during generalizing s with
  | nil =>
    obtain rfl := Option.some.inj done
    exact acting
  | cons c during ih =>
    obtain ⟨t, first, later⟩ := run_cons done
    rw [List.mem_cons, not_or] at going
    exact ih (step_acting acting filled.1 (Ne.symm going.1) first) (filled.2 t first) going.2 later

theorem acting_done (acting : Acting l u) (ends : step u .finish = some s) :
    ∃ a, u.action = some a ∧ a.reached.map Prod.fst = l ∧ a.dequeued = a.runnable ∧ a.ran = a.runnable := by
  obtain ⟨a, held, action, holds, taken, dequeued, ran⟩ := acting
  obtain ⟨b, same, list, none⟩ : ∃ b, u.action = some b ∧ b.list = none ∧ b.current = none := by
    simp only [step] at ends
    split at ends
    · rename_i going
      exact ⟨_, going, rfl, rfl⟩
    · cases ends
  obtain rfl := Option.some.inj (action.symm.trans same)
  obtain ⟨rfl, _⟩ := holds_finish holds action list none
  refine ⟨a, action, ?_, dequeued, ran⟩
  simpa [none] using taken

theorem action_once (filled : Guarded step FirstFilled .initial (before ++ .begin v :: during ++ [.finish]))
    (whole : ∃ t, run step .initial (before ++ .begin v :: during ++ [.finish]) = some t) (going : .finish ∉ during)
    (first : run step .initial before = some s) (list : Seg s.next (s.head v) l none)
    (middle : run step .initial (before ++ .begin v :: during) = some u) :
    ∃ a, u.action = some a ∧ a.reached.map Prod.fst = l ∧ a.dequeued = a.runnable ∧ a.ran = a.runnable := by
  obtain ⟨t, whole⟩ := whole
  obtain ⟨_, same, last⟩ := run_append whole
  obtain rfl := Option.some.inj (middle.symm.trans same)
  obtain ⟨_, ends, _⟩ := run_cons last
  obtain ⟨admitted, _⟩ := guarded_append filled middle
  obtain ⟨early, late⟩ := guarded_append admitted first
  obtain ⟨_, same, rest⟩ := run_append middle
  obtain rfl := Option.some.inj (first.symm.trans same)
  obtain ⟨taken, begins, rest⟩ := run_cons rest
  have kept := run_kept early first
  have acting : Acting l taken := by
    have idle : s.action = none := by
      simp only [step] at begins
      split at begins
      · cases begins
      · rename_i idle
        simpa using idle
    simp only [step, idle, Option.isSome_none, Bool.false_eq_true, if_false, Option.some.injEq] at begins
    subst begins
    exact ⟨_, l, rfl, holds_take kept idle list, by simp, rfl, rfl⟩
  exact acting_done (run_acting acting (late.2 taken begins) going rest) ends

end

theorem tasklets_lossless_iff {calls : List (Call T)} {s : State T} (done : run step .initial calls = some s) :
    Lossless calls ↔ Guarded step FirstFilled .initial calls := by
  constructor
  · intro lossless
    by_contra refused
    obtain ⟨before, c, after, t, rfl, _, reached, empty⟩ := first_unguarded refused
    obtain ⟨_, same, later⟩ := run_append done
    obtain rfl := Option.some.inj (reached.symm.trans same)
    obtain ⟨u, stepped, _⟩ := run_cons later
    have kept := lossless.kept before t (List.prefix_append _ _) reached
    have next : before ++ [c] <+: before ++ c :: after := by simp
    have still := lossless.kept (before ++ [c]) u next (run_snoc reached stepped)
    cases c with
    | taskletHiScheduleFirst x =>
      simp only [step] at stepped
      split at stepped
      · cases stepped
      · obtain rfl := Option.some.inj stepped
        exact not_kept_first kept (not_not.mp empty) still
    | _ => exact empty trivial
  · intro filled
    refine ⟨fun before t early reached => ?_, fun before v during t l u early going first list middle => ?_⟩
    · obtain ⟨rest, rfl⟩ := early
      exact run_kept (guarded_append filled reached).1 reached
    · obtain ⟨rest, rfl⟩ := early
      obtain ⟨ended, whole, _⟩ := run_append done
      obtain ⟨a, action, taken, logged⟩ :=
        action_once (guarded_append filled whole).1 ⟨ended, whole⟩ going first list middle
      exact ⟨a, action, taken, seg_nodup list, logged⟩

def firstOnEmpty : List (Call Nat) :=
  [.taskletHiScheduleFirst 0, .taskletHiSchedule 1, .begin .hi, .advance, .dispatch false false, .finish]

theorem tasklets_lossless_iff_first :
    Lossless firstOnEmpty ↔ Guarded step FirstFilled .initial firstOnEmpty :=
  tasklets_lossless_iff (s := ((run step .initial firstOnEmpty).getD .initial)) rfl

theorem first_tasklet_lost :
    (∃ s, run step .initial firstOnEmpty = some s ∧ s.sched 0 = true ∧ s.head .lo = none ∧ s.head .hi = none ∧
      s.action.isNone = true) ∧ ¬ Lossless firstOnEmpty := by
  have lost : ∃ s, run step .initial firstOnEmpty = some s ∧ s.sched 0 = true ∧ s.head .lo = none ∧
      s.head .hi = none ∧ s.action.isNone = true := ⟨_, rfl, rfl, rfl, rfl, rfl⟩
  refine ⟨lost, fun lossless => ?_⟩
  obtain ⟨s, done, on, lo, hi, idle⟩ := lost
  obtain ⟨held, lists, rep, _, sched⟩ := lossless.kept firstOnEmpty s List.prefix_rfl done
  have action := Option.isNone_iff_eq_none.mp idle
  have first := seg_head (rep.linked .lo)
  have second := seg_head (rep.linked .hi)
  have third := seg_head rep.held
  rw [lo] at first
  rw [hi] at second
  rw [action] at third
  have place := (sched 0).mp on
  rw [everywhere, List.head?_eq_none_iff.mp first.symm, List.head?_eq_none_iff.mp second.symm,
    List.head?_eq_none_iff.mp third.symm, action] at place
  cases place

end TaskletQueues
