import Mathlib.Algebra.BigOperators.Group.Finset.Basic
import Mathlib.Data.List.Basic

/- Finite runs of a transition function that may refuse an action. Every reachable
   state is the end of such a run, so a safety result is stated over all action lists. -/
namespace TransitionRuns
variable {State Action : Type*}

/-- The state after the listed actions, or none when one of them is not enabled. -/
def run (step : State → Action → Option State) : State → List Action → Option State
  | s, [] => some s
  | s, a :: rest => (step s a).bind fun t => run step t rest

/-- Every listed action is taken in a state that admits it. -/
def Guarded (step : State → Action → Option State) (guard : State → Action → Prop) :
    State → List Action → Prop
  | _, [] => True
  | s, a :: rest => guard s a ∧ ∀ t, step s a = some t → Guarded step guard t rest

variable {step : State → Action → Option State} {guard : State → Action → Prop}

instance Guarded.decidable [∀ s a, Decidable (guard s a)] :
    ∀ s acts, Decidable (Guarded step guard s acts)
  | _, [] => isTrue trivial
  | s, a :: rest =>
    match h : step s a with
    | none => decidable_of_iff (guard s a) (by simp [Guarded, h])
    | some t =>
      have := Guarded.decidable t rest
      decidable_of_iff (guard s a ∧ Guarded step guard t rest) (by simp [Guarded, h])

theorem guarded_mono {weaker : State → Action → Prop} (implied : ∀ s a, guard s a → weaker s a) {s : State}
    {acts : List Action} (admitted : Guarded step guard s acts) : Guarded step weaker s acts := by
  induction acts generalizing s with
  | nil => trivial
  | cons a rest ih => exact ⟨implied s a admitted.1, fun t first => ih (admitted.2 t first)⟩

theorem guarded_of_forall {s : State} {acts : List Action} (all : ∀ s, ∀ a ∈ acts, guard s a) :
    Guarded step guard s acts := by
  induction acts generalizing s with
  | nil => trivial
  | cons a rest ih =>
    exact ⟨all s a List.mem_cons_self, fun _ _ => ih fun t b member => all t b (List.mem_cons_of_mem a member)⟩

theorem run_cons {s u : State} {a : Action} {rest : List Action}
    (h : run step s (a :: rest) = some u) :
    ∃ t, step s a = some t ∧ run step t rest = some u := by
  simpa [run, Option.bind_eq_some_iff] using h

theorem guarded_snoc {s : State} {acts : List Action} {a : Action}
    (admitted : Guarded step guard s (acts ++ [a])) :
    Guarded step guard s acts ∧ ∀ t, run step s acts = some t → guard t a := by
  induction acts generalizing s with
  | nil =>
    refine ⟨trivial, fun t done => ?_⟩
    obtain rfl := Option.some.inj done
    exact admitted.1
  | cons b rest ih =>
    refine ⟨⟨admitted.1, fun t first => (ih (admitted.2 t first)).1⟩, fun u done => ?_⟩
    obtain ⟨t, first, later⟩ := run_cons done
    exact (ih (admitted.2 t first)).2 u later

theorem run_append {s u : State} {before after : List Action}
    (h : run step s (before ++ after) = some u) :
    ∃ t, run step s before = some t ∧ run step t after = some u := by
  induction before generalizing s with
  | nil => exact ⟨s, rfl, h⟩
  | cons a rest ih =>
    obtain ⟨t, first, later⟩ := run_cons h
    obtain ⟨t', middle, last⟩ := ih later
    exact ⟨t', by simp [run, first, middle], last⟩

theorem run_snoc {s t u : State} {before : List Action} {a : Action} (done : run step s before = some t)
    (last : step t a = some u) : run step s (before ++ [a]) = some u := by
  induction before generalizing s with
  | nil =>
    obtain rfl := Option.some.inj done
    simp [run, last]
  | cons b rest ih =>
    obtain ⟨v, first, later⟩ := run_cons done
    simp [run, first, ih later]

theorem guarded_append {s t : State} {before after : List Action}
    (admitted : Guarded step guard s (before ++ after)) (done : run step s before = some t) :
    Guarded step guard s before ∧ Guarded step guard t after := by
  induction before generalizing s with
  | nil =>
    obtain rfl := Option.some.inj done
    exact ⟨trivial, admitted⟩
  | cons a rest ih =>
    obtain ⟨u, first, later⟩ := run_cons done
    refine ⟨⟨admitted.1, fun v same => ?_⟩, (ih (admitted.2 u first) later).2⟩
    obtain rfl := Option.some.inj (first.symm.trans same)
    exact (ih (admitted.2 u first) later).1

theorem first_unguarded {s : State} {acts : List Action} (refused : ¬ Guarded step guard s acts) :
    ∃ before a after t, acts = before ++ a :: after ∧ Guarded step guard s before ∧
      run step s before = some t ∧ ¬ guard t a := by
  induction acts generalizing s with
  | nil => exact (refused trivial).elim
  | cons a rest ih =>
    by_cases here : guard s a
    · have later : ∃ t, step s a = some t ∧ ¬ Guarded step guard t rest := by
        by_contra all
        push Not at all
        exact refused ⟨here, all⟩
      obtain ⟨t, first, rest'⟩ := later
      obtain ⟨before, b, after, u, rfl, admitted, done, no⟩ := ih rest'
      refine ⟨a :: before, b, after, u, rfl, ⟨here, fun v same => ?_⟩, by simp [run, first, done], no⟩
      obtain rfl := Option.some.inj (first.symm.trans same)
      exact admitted
    · exact ⟨[], a, rest, s, rfl, trivial, rfl, here⟩

/-- The invariant rule: what holds at first and is kept by every admitted step
    holds at the end of every run whose steps are all admitted. -/
theorem invariant_of_guarded (inv : State → Prop)
    (kept : ∀ s a t, inv s → guard s a → step s a = some t → inv t)
    {s u : State} {acts : List Action} (start : inv s)
    (admitted : Guarded step guard s acts) (finished : run step s acts = some u) : inv u := by
  induction acts generalizing s with
  | nil =>
    simp only [run, Option.some.injEq] at finished
    exact finished ▸ start
  | cons a rest ih =>
    obtain ⟨t, first, later⟩ := run_cons finished
    exact ih (kept s a t start admitted.1 first) (admitted.2 t first) later

theorem invariant_of_run (inv : State → Prop) (kept : ∀ s a t, inv s → step s a = some t → inv t)
    {s u : State} {acts : List Action} (start : inv s) (finished : run step s acts = some u) : inv u := by
  induction acts generalizing s with
  | nil =>
    simp only [run, Option.some.injEq] at finished
    exact finished ▸ start
  | cons a rest ih =>
    obtain ⟨t, first, later⟩ := run_cons finished
    exact ih (kept s a t start first) later

/-- A count that never falls stays where it was exactly when every step is admitted, if the admitted steps are those
    that leave it alone. -/
theorem guarded_iff_unmoved (inv : State → Prop) (count : State → Nat)
    (kept : ∀ s a t, inv s → step s a = some t → inv t ∧ count s ≤ count t ∧ (count t = count s ↔ guard s a))
    {s u : State} {acts : List Action} (start : inv s) (done : run step s acts = some u) :
    count s ≤ count u ∧ (count u = count s ↔ Guarded step guard s acts) := by
  induction acts generalizing s with
  | nil =>
    obtain rfl := Option.some.inj done
    exact ⟨Nat.le_refl _, iff_of_true rfl trivial⟩
  | cons a rest ih =>
    obtain ⟨t, first, later⟩ := run_cons done
    obtain ⟨sound, up, here⟩ := kept s a t start first
    obtain ⟨above, onwards⟩ := ih sound later
    refine ⟨Nat.le_trans up above, ?_⟩
    have only : (∀ v, step s a = some v → Guarded step guard v rest) ↔ Guarded step guard t rest := by
      rw [first]
      exact ⟨fun all => all t rfl, fun admitted v same => Option.some.inj same ▸ admitted⟩
    rw [Guarded, only, ← here, ← onwards]
    omega

section
variable {I A M : Type*} [DecidableEq I] [AddCommMonoid M]

/-- A measure summed over the members of a family when one of them changes: the old value on one side balances the new
    one on the other. -/
theorem sum_update {s : Finset I} {i : I} (measure : A → M) (f : I → A) (a : A) (member : i ∈ s) :
    ∑ x ∈ s, measure (Function.update f i a x) + measure (f i) = ∑ x ∈ s, measure (f x) + measure a := by
  have rest : ∑ x ∈ s.erase i, measure (Function.update f i a x) = ∑ x ∈ s.erase i, measure (f x) := by
    refine Finset.sum_congr rfl fun x other => ?_
    rw [Function.update_of_ne (Finset.ne_of_mem_erase other)]
  rw [← Finset.add_sum_erase s _ member, ← Finset.add_sum_erase s (fun x => measure (f x)) member, rest,
    Function.update_self, add_comm (measure a), add_assoc, add_comm (measure a), ← add_assoc]
  rw [add_comm (measure (f i))]

end

end TransitionRuns
