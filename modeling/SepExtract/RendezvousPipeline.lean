import SepExtract.TransitionRuns

/- Three routines joined by two channels without buffers: the first sends the items, the second
   goes through phases and hands some results on, the third prints them. The program ends
   when the second routine returns, whatever the third is doing. -/
namespace RendezvousPipeline
open TransitionRuns

variable {P A B : Type}

/-- What the second routine does with an item: its next phase, none if the item is the last it
    takes, and the result it hands on. -/
structure Worker (P A B : Type) where
  take : P → A → Option P × Option B

def Worker.results (w : Worker P A B) : Option P → List A → List B
  | some p, a :: rest => (w.take p a).2.toList ++ w.results (w.take p a).1 rest
  | _, _ => []

structure Net (P A B : Type) where
  pending : List A
  closedIn : Bool
  /-- none once the second routine has left its loop -/
  phase : Option P
  sending : Option B
  closedOut : Bool
  /-- received by the third routine and not yet printed -/
  held : Option B
  printed : List B
  exited : Bool

def Net.initial (p : P) (items : List A) : Net P A B := ⟨items, false, some p, none, false, none, [], false⟩

inductive Action where
  | receive | closeIn | endOfInput | handOver | closeOut | print | exit
  deriving DecidableEq, Repr

def Worker.act (w : Worker P A B) (n : Net P A B) : Action → Option (Net P A B)
  | .receive =>
    match n.phase, n.sending, n.pending with
    | some p, none, a :: rest =>
      some { n with pending := rest, phase := (w.take p a).1, sending := (w.take p a).2 }
    | _, _, _ => none
  | .closeIn => if n.pending = [] ∧ n.closedIn = false then some { n with closedIn := true } else none
  | .endOfInput =>
    if n.phase.isSome ∧ n.sending.isNone ∧ n.pending = [] ∧ n.closedIn = true then
      some { n with phase := none }
    else none
  | .handOver =>
    match n.sending, n.held with
    | some b, none => some { n with sending := none, held := some b }
    | _, _ => none
  | .closeOut =>
    if n.phase.isNone ∧ n.sending.isNone ∧ n.closedOut = false then some { n with closedOut := true } else none
  | .print =>
    match n.held with
    | some b => some { n with held := none, printed := n.printed ++ [b] }
    | none => none
  | .exit => if n.closedOut = true then some { n with exited := true } else none

def Worker.step (w : Worker P A B) (n : Net P A B) (a : Action) : Option (Net P A B) :=
  if n.exited then none else w.act n a

variable {w : Worker P A B} {p : P} {items : List A}

@[simp] theorem results_nil (q : Option P) : w.results q [] = [] := by cases q <;> rfl

@[simp] theorem results_none (l : List A) : w.results none l = [] := by cases l <;> rfl

def Worker.after (w : Worker P A B) : Option P → List A → Option P
  | some p, a :: rest => w.after (w.take p a).1 rest
  | q, _ => q

theorem results_append (q : Option P) (first second : List A) :
    w.results q (first ++ second) = w.results q first ++ w.results (w.after q first) second := by
  induction first generalizing q with
  | nil => cases q <;> simp [Worker.after]
  | cons a first ih =>
    cases q with
    | none => simp [Worker.after]
    | some p => simp [Worker.results, Worker.after, ih]

structure Kept (w : Worker P A B) (results : List B) (n : Net P A B) : Prop where
  inOrder : results = n.printed ++ n.held.toList ++ n.sending.toList ++ w.results n.phase n.pending
  closed : n.closedOut = true → n.phase = none ∧ n.sending = none
  exit : n.exited = true → n.closedOut = true

theorem kept_initial (w : Worker P A B) (p : P) (items : List A) :
    Kept w (w.results (some p) items) (.initial p items) := by
  refine ⟨?_, nofun, nofun⟩
  simp [Net.initial]

theorem kept_act {results : List B} {n m : Net P A B} {a : Action} (kept : Kept w results n)
    (done : w.act n a = some m) : Kept w results m := by
  obtain ⟨order, closed, exit⟩ := kept
  cases a with
  | receive =>
    simp only [Worker.act] at done
    split at done
    · rename_i p a rest phase sending pending
      cases done
      have running : n.closedOut = false := by
        by_contra h
        rw [(closed (by simpa using h)).1] at phase
        cases phase
      refine ⟨?_, fun h => absurd h (by simp [running]), exit⟩
      rw [order, phase, sending, pending]
      simp [Worker.results]
    · cases done
  | closeIn =>
    simp only [Worker.act, Option.ite_none_right_eq_some, Option.some.injEq] at done
    obtain ⟨_, rfl⟩ := done
    exact ⟨order, closed, exit⟩
  | endOfInput =>
    simp only [Worker.act, Option.ite_none_right_eq_some, Option.some.injEq] at done
    obtain ⟨⟨_, _, empty, _⟩, rfl⟩ := done
    refine ⟨?_, fun h => ⟨rfl, (closed h).2⟩, exit⟩
    rw [order, empty]
    simp
  | handOver =>
    simp only [Worker.act] at done
    split at done
    · rename_i b sending held
      cases done
      refine ⟨?_, fun h => ⟨(closed h).1, rfl⟩, exit⟩
      rw [order, sending, held]
      simp
    · cases done
  | closeOut =>
    simp only [Worker.act, Option.ite_none_right_eq_some, Option.some.injEq, Option.isNone_iff_eq_none] at done
    obtain ⟨⟨phase, sending, _⟩, rfl⟩ := done
    exact ⟨order, fun _ => ⟨phase, sending⟩, fun _ => rfl⟩
  | print =>
    simp only [Worker.act] at done
    split at done
    · rename_i b held
      cases done
      refine ⟨?_, closed, exit⟩
      rw [order, held]
      simp
    · cases done
  | exit =>
    simp only [Worker.act, Option.ite_none_right_eq_some, Option.some.injEq] at done
    obtain ⟨closing, rfl⟩ := done
    exact ⟨order, closed, fun _ => closing⟩

theorem kept_run {n : Net P A B} {acts : List Action} (done : run w.step (.initial p items) acts = some n) :
    Kept w (w.results (some p) items) n := by
  refine invariant_of_run _ ?_ (kept_initial w p items) done
  intro m a m' kept moved
  unfold Worker.step at moved
  split at moved
  · cases moved
  · exact kept_act kept moved

theorem exited_results {n : Net P A B} {acts : List Action} (done : run w.step (.initial p items) acts = some n)
    (exited : n.exited = true) : n.printed ++ n.held.toList = w.results (some p) items := by
  have kept := kept_run done
  obtain ⟨phase, sending⟩ := kept.closed (kept.exit exited)
  rw [kept.inOrder, phase, sending]
  simp

end RendezvousPipeline
