import SepExtract.TransitionRuns

/- Three routines joined by two bounded channels, under every schedule: the first sends the
   items and closes, the second passes each through a function with a memory, the third emits
   the results and reports the end. Every schedule ends, and with the results in order. -/
namespace ChannelPipeline
open TransitionRuns

variable {S A B O : Type}

structure Stages (S A B O : Type) where
  capacity : Nat
  transform : S → A → B × S
  /-- none is a crash of the program -/
  emit : B → Option O

def Stages.outputs (p : Stages S A B O) : S → List A → List B
  | _, [] => []
  | s, a :: rest => (p.transform s a).1 :: p.outputs (p.transform s a).2 rest

structure Net (S A B O : Type) where
  pending : List A
  closedFirst : Bool
  first : List A
  memory : S
  held : Option B
  closedSecond : Bool
  second : List B
  emitted : List O
  crashed : Bool
  exited : Bool

def Net.initial (memory : S) (items : List A) : Net S A B O :=
  ⟨items, false, [], memory, none, false, [], [], false, false⟩

inductive Action where
  | read | closeFirst | receive | forward | closeSecond | emit | finish
  deriving DecidableEq, Repr

def Stages.act (p : Stages S A B O) (n : Net S A B O) : Action → Option (Net S A B O)
  | .read =>
    match n.pending with
    | [] => none
    | a :: rest => if n.first.length < p.capacity then some { n with pending := rest, first := n.first ++ [a] } else none
  | .closeFirst => if n.pending = [] ∧ n.closedFirst = false then some { n with closedFirst := true } else none
  | .receive =>
    match n.held, n.first with
    | none, a :: rest =>
      let result := p.transform n.memory a
      some { n with first := rest, held := some result.1, memory := result.2 }
    | _, _ => none
  | .forward =>
    match n.held with
    | none => none
    | some b => if n.second.length < p.capacity then some { n with held := none, second := n.second ++ [b] } else none
  | .closeSecond =>
    if n.first = [] ∧ n.closedFirst = true ∧ n.held.isNone ∧ n.closedSecond = false then
      some { n with closedSecond := true }
    else none
  | .emit =>
    match n.second with
    | [] => none
    | b :: rest =>
      match p.emit b with
      | none => some { n with second := rest, crashed := true }
      | some o => some { n with second := rest, emitted := n.emitted ++ [o] }
  | .finish =>
    if n.second = [] ∧ n.closedSecond = true ∧ n.exited = false then some { n with exited := true } else none

def Stages.step (p : Stages S A B O) (n : Net S A B O) (a : Action) : Option (Net S A B O) :=
  if n.crashed ∨ n.exited then none else p.act n a

variable {p : Stages S A B O} {s : S} {items : List A}

/-- Where the results are: emitted, on their way, or still to be computed. -/
structure Kept (p : Stages S A B O) (results : List B) (n : Net S A B O) : Prop where
  inOrder : n.crashed = false → ∃ passed, passed.map p.emit = n.emitted.map some ∧
    results = passed ++ (n.second ++ (n.held.toList ++ p.outputs n.memory (n.first ++ n.pending)))
  crash : n.crashed = true → ∃ b ∈ results, p.emit b = none
  first : n.closedFirst = true → n.pending = []
  second : n.closedSecond = true → n.closedFirst = true ∧ n.first = [] ∧ n.held = none
  exit : n.exited = true → n.closedSecond = true ∧ n.second = []

theorem kept_initial (p : Stages S A B O) (s : S) (items : List A) :
    Kept p (p.outputs s items) (.initial s items) := by
  refine ⟨fun _ => ⟨[], rfl, ?_⟩, ?_, ?_, ?_, ?_⟩ <;> simp [Net.initial]

theorem kept_act {results : List B} {n m : Net S A B O} {a : Action} (kept : Kept p results n)
    (running : n.crashed = false) (open' : n.exited = false) (done : p.act n a = some m) : Kept p results m := by
  obtain ⟨passed, shown, order⟩ := kept.inOrder running
  cases a with
  | read =>
    simp only [Stages.act] at done
    split at done
    · cases done
    · rename_i a rest list
      simp only [Option.ite_none_right_eq_some, Option.some.injEq] at done
      obtain ⟨_, rfl⟩ := done
      have notClosed : n.closedFirst = false := by
        by_contra closed
        have none := kept.first (by simpa using closed)
        rw [list] at none
        cases none
      refine ⟨fun _ => ⟨passed, shown, ?_⟩, kept.crash, fun closed => ?_, fun closed => ?_, kept.exit⟩
      · rw [order, list]
        simp
      · rw [notClosed] at closed
        cases closed
      · have closed := (kept.second closed).1
        rw [notClosed] at closed
        cases closed
  | closeFirst =>
    simp only [Stages.act, Option.ite_none_right_eq_some, Option.some.injEq] at done
    obtain ⟨⟨none, _⟩, rfl⟩ := done
    exact ⟨kept.inOrder, kept.crash, fun _ => none, fun closed => ⟨rfl, (kept.second closed).2⟩, kept.exit⟩
  | receive =>
    simp only [Stages.act] at done
    split at done
    · rename_i a rest free list
      obtain rfl := Option.some.inj done
      refine ⟨fun _ => ⟨passed, shown, ?_⟩, kept.crash, kept.first, fun closed => ?_, kept.exit⟩
      · rw [order, free, list]
        rfl
      · have empty := (kept.second closed).2.1
        rw [list] at empty
        cases empty
    · cases done
  | forward =>
    simp only [Stages.act] at done
    split at done
    · cases done
    · rename_i b holds
      simp only [Option.ite_none_right_eq_some, Option.some.injEq] at done
      obtain ⟨_, rfl⟩ := done
      have notClosed : n.closedSecond = false := by
        by_contra closed
        have none := (kept.second (by simpa using closed)).2.2
        rw [holds] at none
        cases none
      refine ⟨fun _ => ⟨passed, shown, ?_⟩, kept.crash, kept.first, fun closed => ?_, fun exited => ?_⟩
      · rw [order, holds]
        simp
      · rw [notClosed] at closed
        cases closed
      · rw [open'] at exited
        cases exited
  | closeSecond =>
    simp only [Stages.act, Option.ite_none_right_eq_some, Option.some.injEq] at done
    obtain ⟨⟨empty, closed, free, _⟩, rfl⟩ := done
    exact ⟨kept.inOrder, kept.crash, kept.first, fun _ => ⟨closed, empty, Option.isNone_iff_eq_none.mp free⟩,
      fun exited => by rw [open'] at exited; cases exited⟩
  | emit =>
    simp only [Stages.act] at done
    split at done
    · cases done
    · rename_i b rest list
      have exited : n.exited = true → n.closedSecond = true ∧ rest = [] := by
        intro exited
        rw [open'] at exited
        cases exited
      split at done
      · rename_i fails
        obtain rfl := Option.some.inj done
        refine ⟨fun fine => absurd fine (by simp), fun _ => ⟨b, ?_, fails⟩, kept.first, kept.second, exited⟩
        rw [order, list]
        simp
      · rename_i o text
        obtain rfl := Option.some.inj done
        refine ⟨fun _ => ⟨passed ++ [b], ?_, ?_⟩, kept.crash, kept.first, kept.second, exited⟩
        · simp [shown, text]
        · rw [order, list]
          simp
  | finish =>
    simp only [Stages.act, Option.ite_none_right_eq_some, Option.some.injEq] at done
    obtain ⟨⟨none, closed, _⟩, rfl⟩ := done
    exact ⟨kept.inOrder, kept.crash, kept.first, kept.second, fun _ => ⟨closed, none⟩⟩

theorem step_cases {n m : Net S A B O} {a : Action} (done : p.step n a = some m) :
    n.crashed = false ∧ n.exited = false ∧ p.act n a = some m := by
  simp only [Stages.step, Option.ite_none_left_eq_some, not_or, Bool.not_eq_true] at done
  exact ⟨done.1.1, done.1.2, done.2⟩

theorem kept_run {acts : List Action} {n : Net S A B O} (reached : run p.step (.initial s items) acts = some n) :
    Kept p (p.outputs s items) n := by
  refine invariant_of_run (Kept p (p.outputs s items)) (fun n a m kept done => ?_) (kept_initial p s items) reached
  obtain ⟨running, open', done⟩ := step_cases done
  exact kept_act kept running open' done

def Net.work (n : Net S A B O) : Nat :=
  4 * n.pending.length + 3 * n.first.length + 2 * n.held.toList.length + n.second.length +
    (!n.closedFirst).toNat + (!n.closedSecond).toNat + (!n.exited).toNat

theorem work_step {n m : Net S A B O} {a : Action} (done : p.step n a = some m) : m.work + 1 = n.work := by
  obtain ⟨_, _, done⟩ := step_cases done
  cases a with
  | read =>
    simp only [Stages.act] at done
    split at done
    · cases done
    · rename_i list
      simp only [Option.ite_none_right_eq_some, Option.some.injEq] at done
      obtain ⟨_, rfl⟩ := done
      simp only [Net.work, list, List.length_cons, List.length_append, List.length_nil]
      omega
  | closeFirst =>
    simp only [Stages.act, Option.ite_none_right_eq_some, Option.some.injEq] at done
    obtain ⟨⟨_, closed⟩, rfl⟩ := done
    simp only [Net.work, closed, Bool.not_false, Bool.not_true, Bool.toNat_true, Bool.toNat_false]
    omega
  | receive =>
    simp only [Stages.act] at done
    split at done
    · rename_i free list
      obtain rfl := Option.some.inj done
      simp only [Net.work, list, free, List.length_cons, Option.toList_some, Option.toList_none, List.length_nil]
      omega
    · cases done
  | forward =>
    simp only [Stages.act] at done
    split at done
    · cases done
    · rename_i holds
      simp only [Option.ite_none_right_eq_some, Option.some.injEq] at done
      obtain ⟨_, rfl⟩ := done
      simp only [Net.work, holds, List.length_append, List.length_cons, Option.toList_some, Option.toList_none,
        List.length_nil]
      omega
  | closeSecond =>
    simp only [Stages.act, Option.ite_none_right_eq_some, Option.some.injEq] at done
    obtain ⟨⟨_, _, _, closed⟩, rfl⟩ := done
    simp only [Net.work, closed, Bool.not_false, Bool.not_true, Bool.toNat_true, Bool.toNat_false]
    omega
  | emit =>
    simp only [Stages.act] at done
    split at done
    · cases done
    · rename_i list
      split at done <;>
        (obtain rfl := Option.some.inj done
         simp only [Net.work, list, List.length_cons]
         omega)
  | finish =>
    simp only [Stages.act, Option.ite_none_right_eq_some, Option.some.injEq] at done
    obtain ⟨⟨_, _, running⟩, rfl⟩ := done
    simp only [Net.work, running, Bool.not_false, Bool.not_true, Bool.toNat_true, Bool.toNat_false]

theorem work_run {acts : List Action} {n m : Net S A B O} (reached : run p.step n acts = some m) :
    acts.length + m.work = n.work := by
  induction acts generalizing n with
  | nil =>
    simp only [run, Option.some.injEq] at reached
    simp [reached]
  | cons a rest ih =>
    obtain ⟨t, first, later⟩ := run_cons reached
    have one := work_step first
    have others := ih later
    simp only [List.length_cons]
    omega

theorem enabled {n : Net S A B O} (room : 0 < p.capacity)
    (running : n.crashed = false) (open' : n.exited = false) : ∃ a, (p.step n a).isSome := by
  have act : ∀ a, (p.act n a).isSome → ∃ a, (p.step n a).isSome := by
    intro a can
    exact ⟨a, by simpa [Stages.step, running, open'] using can⟩
  cases hasSecond : n.second with
  | cons b rest =>
    refine act .emit ?_
    simp only [Stages.act, hasSecond]
    split <;> rfl
  | nil =>
    cases closed : n.closedSecond with
    | true => exact act .finish (by simp [Stages.act, hasSecond, closed, open'])
    | false =>
      cases holds : n.held with
      | some b => exact act .forward (by simp [Stages.act, holds, hasSecond, room])
      | none =>
        cases hasFirst : n.first with
        | cons a rest => exact act .receive (by simp [Stages.act, holds, hasFirst])
        | nil =>
          cases ended : n.closedFirst with
          | true => exact act .closeSecond (by simp [Stages.act, hasFirst, ended, holds, closed])
          | false =>
            cases list : n.pending with
            | nil => exact act .closeFirst (by simp [Stages.act, list, ended])
            | cons a rest => exact act .read (by simp [Stages.act, list, hasFirst, room])

/-- If no result crashes the third routine, every schedule takes a bounded number of steps, can
    go on until the program exits, and has then emitted the results of all items in order. -/
theorem schedule {results : List O} {acts : List Action} {n : Net S A B O} (room : 0 < p.capacity)
    (emits : (p.outputs s items).map p.emit = results.map some)
    (reached : run p.step (.initial s items) acts = some n) :
    n.crashed = false ∧ acts.length ≤ 4 * items.length + 3 ∧
    ((∀ a, p.step n a = none) → n.exited = true) ∧ (n.exited = true → n.emitted = results) := by
  have kept := kept_run reached
  have running : n.crashed = false := by
    by_contra crashed
    obtain ⟨b, member, fails⟩ := kept.crash (by simpa using crashed)
    have shown : p.emit b ∈ results.map some := emits ▸ List.mem_map_of_mem member
    simp [fails] at shown
  refine ⟨running, ?_, fun stuck => ?_, fun exited => ?_⟩
  · have total := work_run reached
    have start : (Net.initial s items : Net S A B O).work = 4 * items.length + 3 := by
      simp [Net.work, Net.initial]
    omega
  · by_contra open'
    obtain ⟨a, can⟩ := enabled room running (by simpa using open')
    rw [stuck a] at can
    cases can
  · obtain ⟨passed, shown, order⟩ := kept.inOrder running
    obtain ⟨closed, empty⟩ := kept.exit exited
    obtain ⟨ended, none, free⟩ := kept.second closed
    rw [empty, free, none, kept.first ended] at order
    simp only [Option.toList_none, Stages.outputs, List.append_nil] at order
    rw [order, shown] at emits
    exact List.map_injective_iff.mpr (fun _ _ => Option.some.inj) emits

end ChannelPipeline
