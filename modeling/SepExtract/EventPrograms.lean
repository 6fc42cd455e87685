import Mathlib.Data.List.Basic

/- Structured programs that emit events. A program is followed on all of its paths at
   once: a monitor reads the events, and the condition that `holds` generates for a program
   says in which monitor state each way of leaving it ends. A loop is asked to leave the
   monitor where it found it, so its invariant is the state at its head. -/
namespace EventPrograms
variable {Event Value State : Type}

inductive Cmd (Event Value : Type) where
  | skip
  | emit (event : Event)
  | call
  | seq (first second : Cmd Event Value)
  | choose (left right : Cmd Event Value)
  | pick (body : Value → Cmd Event Value)
  | loop (body : Cmd Event Value)
  | brk
  | cont
  | ret

/-- How an execution leaves a command; `cut` is an execution that has not left it. -/
inductive Outcome where
  | normal | broke | continued | returned | cut
  deriving DecidableEq, Repr

def Outcome.leaving : Outcome → Option Outcome
  | .normal | .continued => none
  | .broke => some .normal
  | .returned => some .returned
  | .cut => some .cut

def block : List (Cmd Event Value) → Cmd Event Value
  | [] => .skip
  | c :: rest => .seq c (block rest)

def maybe (body : Cmd Event Value) : Cmd Event Value := .choose body .skip

/-- The emitted words of a command, path by path. A call emits one of the callees' words. -/
inductive Exec (callee : List Event → Prop) : Cmd Event Value → List Event → Outcome → Prop where
  | skip : Exec callee .skip [] .normal
  | emit (e : Event) : Exec callee (.emit e) [e] .normal
  | emitCut (e : Event) : Exec callee (.emit e) [] .cut
  | call {w : List Event} (emitted : callee w) : Exec callee .call w .normal
  | callCut : Exec callee .call [] .cut
  | seq {a b : Cmd Event Value} {u w : List Event} {o : Outcome}
      (first : Exec callee a u .normal) (second : Exec callee b w o) :
      Exec callee (.seq a b) (u ++ w) o
  | stop {a b : Cmd Event Value} {u : List Event} {o : Outcome}
      (first : Exec callee a u o) (left : o ≠ .normal) : Exec callee (.seq a b) u o
  | left {a b : Cmd Event Value} {w : List Event} {o : Outcome}
      (taken : Exec callee a w o) : Exec callee (.choose a b) w o
  | right {a b : Cmd Event Value} {w : List Event} {o : Outcome}
      (taken : Exec callee b w o) : Exec callee (.choose a b) w o
  | pick {body : Value → Cmd Event Value} (v : Value) {w : List Event} {o : Outcome}
      (taken : Exec callee (body v) w o) : Exec callee (.pick body) w o
  | again {body : Cmd Event Value} {u w : List Event} {o last : Outcome}
      (pass : Exec callee body u o) (next : o.leaving = none)
      (rest : Exec callee (.loop body) w last) : Exec callee (.loop body) (u ++ w) last
  | leave {body : Cmd Event Value} {u : List Event} {o last : Outcome}
      (pass : Exec callee body u o) (left : o.leaving = some last) :
      Exec callee (.loop body) u last
  | brk : Exec callee .brk [] .broke
  | cont : Exec callee .cont [] .continued
  | ret : Exec callee .ret [] .returned

/-- The words of an execution with the words of interrupts anywhere between its events. -/
inductive Interrupted (callee : List Event → Prop) : List Event → List Event → Prop where
  | nil : Interrupted callee [] []
  | event (e : Event) {u w : List Event} (rest : Interrupted callee u w) :
      Interrupted callee (e :: u) (e :: w)
  | interrupt {x : List Event} (emitted : callee x) {u w : List Event}
      (rest : Interrupted callee u w) : Interrupted callee u (x ++ w)

def Emits (callee : List Event → Prop) (c : Cmd Event Value) (w : List Event) (o : Outcome) : Prop :=
  ∃ u, Exec callee c u o ∧ Interrupted callee u w

theorem uninterrupted {callee : List Event → Prop} (w : List Event) : Interrupted callee w w := by
  induction w with
  | nil => exact .nil
  | cons e w ih => exact .event e ih

theorem emits_of_exec {callee : List Event → Prop} {c : Cmd Event Value} {w : List Event} {o : Outcome}
    (path : Exec callee c w o) : Emits callee c w o := ⟨w, path, uninterrupted w⟩

/-- The condition under which every execution of the command from the monitor state `s` ends
    as the postcondition asks. -/
def holds (step : State → Event → State) (c : Cmd Event Value)
    (post : Outcome → State → Prop) (s : State) : Prop :=
  match c with
  | .skip => post .normal s
  | .emit e => post .cut s ∧ post .normal (step s e)
  | .call => post .cut s ∧ post .normal s
  | .seq a b => holds step a (fun o t => if o = .normal then holds step b post t else post o t) s
  | .choose a b => holds step a post s ∧ holds step b post s
  | .pick body => ∀ v, holds step (body v) post s
  | .loop body =>
    holds step body (fun o t => match o.leaving with | none => t = s | some last => post last t) s
  | .brk => post .broke s
  | .cont => post .continued s
  | .ret => post .returned s

section monitor
variable {step : State → Event → State} {callee : List Event → Prop}
  (neutral : ∀ s w, callee w → w.foldl step s = s)
include neutral

/-- Every path ends as the generated condition says. -/
theorem exec_post {c : Cmd Event Value} {w : List Event} {o : Outcome} (path : Exec callee c w o) :
    ∀ {post : Outcome → State → Prop} {s : State}, holds step c post s → post o (w.foldl step s) := by
  induction path with
  | skip | brk | cont | ret => exact fun condition => condition
  | emit e => exact fun condition => condition.2
  | emitCut e => exact fun condition => condition.1
  | callCut => exact fun condition => condition.1
  | call emitted =>
    intro post s condition
    rw [neutral s _ emitted]
    exact condition.2
  | seq first second firstIh secondIh =>
    intro post s condition
    have between := firstIh condition
    rw [List.foldl_append]
    exact secondIh (by simpa using between)
  | stop first left ih =>
    intro post s condition
    simpa [left] using ih condition
  | left taken ih => exact fun condition => ih condition.1
  | right taken ih => exact fun condition => ih condition.2
  | pick v taken ih => exact fun condition => ih (condition v)
  | again pass next rest passIh restIh =>
    intro post s condition
    have back := passIh condition
    simp only [next] at back
    rw [List.foldl_append, back]
    exact restIh condition
  | leave pass left ih =>
    intro post s condition
    simpa [left] using ih condition

theorem interrupted_neutral {u w : List Event} (between : Interrupted callee u w) :
    ∀ s, w.foldl step s = u.foldl step s := by
  induction between with
  | nil => exact fun s => rfl
  | event e rest ih => exact fun s => ih (step s e)
  | interrupt emitted rest ih =>
    intro s
    rw [List.foldl_append, neutral s _ emitted]
    exact ih s

theorem emits_post {c : Cmd Event Value} {w : List Event} {o : Outcome} (path : Emits callee c w o)
    {post : Outcome → State → Prop} {s : State} (condition : holds step c post s) :
    post o (w.foldl step s) := by
  obtain ⟨u, executed, between⟩ := path
  rw [interrupted_neutral neutral between]
  exact exec_post neutral executed condition

end monitor

section conditions
variable {step : State → Event → State} {post : Outcome → State → Prop} {s : State}

@[simp ↓] theorem holds_skip : holds step (.skip : Cmd Event Value) post s ↔ post .normal s := Iff.rfl

@[simp ↓] theorem holds_emit (e : Event) : holds step (.emit e : Cmd Event Value) post s ↔
    post .cut s ∧ post .normal (step s e) := Iff.rfl

@[simp ↓] theorem holds_call : holds step (.call : Cmd Event Value) post s ↔
    post .cut s ∧ post .normal s := Iff.rfl

@[simp ↓] theorem holds_brk : holds step (.brk : Cmd Event Value) post s ↔ post .broke s := Iff.rfl

@[simp ↓] theorem holds_cont : holds step (.cont : Cmd Event Value) post s ↔ post .continued s := Iff.rfl

@[simp ↓] theorem holds_ret : holds step (.ret : Cmd Event Value) post s ↔ post .returned s := Iff.rfl

@[simp ↓] theorem holds_block_nil : holds step (block [] : Cmd Event Value) post s ↔ post .normal s :=
  Iff.rfl

@[simp ↓] theorem holds_block_cons (c : Cmd Event Value) (rest : List (Cmd Event Value)) :
    holds step (block (c :: rest)) post s ↔
      holds step c (fun o t => if o = .normal then holds step (block rest) post t else post o t) s :=
  Iff.rfl

@[simp ↓] theorem holds_choose (a b : Cmd Event Value) : holds step (.choose a b) post s ↔
    holds step a post s ∧ holds step b post s := Iff.rfl

@[simp ↓] theorem holds_maybe (c : Cmd Event Value) : holds step (maybe c) post s ↔
    holds step c post s ∧ post .normal s := Iff.rfl

@[simp ↓] theorem holds_pick (body : Value → Cmd Event Value) : holds step (.pick body) post s ↔
    ∀ v, holds step (body v) post s := Iff.rfl

@[simp ↓] theorem holds_loop (body : Cmd Event Value) : holds step (.loop body) post s ↔
    holds step body
      (fun o t => match o.leaving with | none => t = s | some last => post last t) s := Iff.rfl

end conditions

end EventPrograms
