import Mathlib.Tactic.Linarith
import Mathlib.Data.Int.Basic

/- Differences of a counter that is read modulo M. The difference taken here adds the
   largest residue, one less than the modulus, on a wrap. Summed up it falls short of the
   distance the counter has gone by at least one for every wrap, and is exact only inside
   one window of M values. -/
namespace WrappingCounter

/-- The difference of two readings when the largest one is top. -/
def delta (top a b : Int) : Int := if b < a then (top - a) + b else b - a

/-- What is gained by adding up differences against the distance from start to now. -/
structure Drift (M start now gained : Int) : Prop where
  ordered : start ≤ now
  short : gained ≤ now - start
  exact : gained = now - start ↔ start / M = now / M

theorem drift_refl (M x : Int) : Drift M x x 0 := ⟨le_rfl, by simp, by simp⟩

/-- One step of a counter falls short unless it stays in its window. -/
theorem drift_delta {M x y : Int} (positive : 0 < M) (le : x ≤ y) :
    Drift M x y (delta (M - 1) (x % M) (y % M)) := by
  have hx := Int.emod_add_mul_ediv x M
  have hy := Int.emod_add_mul_ediv y M
  have windows : x / M ≤ y / M := Int.ediv_le_ediv positive le
  have below_x := Int.emod_lt_of_pos x positive
  have below_y := Int.emod_lt_of_pos y positive
  have nonneg_x := Int.emod_nonneg x (ne_of_gt positive)
  have nonneg_y := Int.emod_nonneg y (ne_of_gt positive)
  have gap : x / M = y / M ∨ M * (x / M) + M ≤ M * (y / M) := by
    rcases eq_or_lt_of_le windows with same | later
    · exact Or.inl same
    · right
      nlinarith
  unfold delta
  rcases gap with same | apart
  · have order : x % M ≤ y % M := by
      rw [same] at hx
      omega
    rw [if_neg (not_lt.mpr order)]
    refine ⟨le, ?_, iff_of_true ?_ same⟩ <;> rw [same] at hx <;> omega
  · have other : ¬ x / M = y / M := fun same => by
      rw [same] at apart
      omega
    split
    · exact ⟨le, by omega, iff_of_false (by omega) other⟩
    · exact ⟨le, by omega, iff_of_false (by omega) other⟩

theorem drift_trans {M x y z g h : Int} (positive : 0 < M) (first : Drift M x y g)
    (second : Drift M y z h) : Drift M x z (g + h) := by
  have order := le_trans first.ordered second.ordered
  have shortG := first.short
  have shortH := second.short
  have lower := Int.ediv_le_ediv positive first.ordered
  have upper := Int.ediv_le_ediv positive second.ordered
  refine ⟨order, by omega, fun all => ?_, fun same => ?_⟩
  · have exactG : g = y - x := by omega
    have exactH : h = z - y := by omega
    exact (first.exact.mp exactG).trans (second.exact.mp exactH)
  · have sameG := first.exact.mpr (le_antisymm lower (same ▸ upper))
    have sameH := second.exact.mpr (le_antisymm upper (same ▸ lower))
    omega

structure Clock where
  reading : Int
  cycles : Int

def Clock.advance (c : Clock) (top reading : Int) : Clock :=
  ⟨reading, c.cycles + delta top c.reading reading⟩

structure Follows (M start base : Int) (c : Clock) (last : Int) : Prop where
  reading : c.reading = last % M
  drift : Drift M start last (c.cycles - base)

theorem follows_advance {M start base last next : Int} {c : Clock} (positive : 0 < M)
    (follows : Follows M start base c last) (later : last ≤ next) :
    Follows M start base (c.advance (M - 1) (next % M)) next := by
  refine ⟨rfl, ?_⟩
  have step := drift_trans positive follows.drift (drift_delta positive later)
  rw [← follows.reading] at step
  have sum : (c.advance (M - 1) (next % M)).cycles - base =
      c.cycles - base + delta (M - 1) c.reading (next % M) := by
    simp only [Clock.advance]
    omega
  rwa [sum]

section Runs
variable {State Line : Type*} {M start base : Int} {step : State → Line → Option State}
  {clock : State → Clock} {sampled admitted : Line → Prop} {counter : Line → Int} {good : State → Prop}

/-- Steps that leave the clock alone or sample the counter of their line keep following a
    counter that never goes back, up to any later sample. -/
theorem follows_run (positive : 0 < M)
    (steps : ∀ s x t, good s → admitted x → step s x = some t → good t ∧
      (clock t = clock s ∨ sampled x ∧ clock t = (clock s).advance (M - 1) (counter x % M)))
    {xs : List Line} {b : Line} {s t : State} {last : Int} (begun : good s)
    (follows : Follows M start base (clock s) last)
    (later : ∀ x ∈ xs ++ [b], sampled x → last ≤ counter x)
    (ordered : (xs ++ [b]).Pairwise fun x y => sampled x → sampled y → counter x ≤ counter y)
    (allowed : ∀ x ∈ xs, admitted x) (done : xs.foldlM step s = some t) :
    good t ∧ ∃ now, Follows M start base (clock t) now ∧ (sampled b → now ≤ counter b) := by
  induction xs generalizing s last with
  | nil =>
    obtain rfl : s = t := by simpa using done
    exact ⟨begun, last, follows, later b (by simp)⟩
  | cons x xs ih =>
    rw [List.foldlM_cons, Option.bind_eq_bind, Option.bind_eq_some_iff] at done
    obtain ⟨u, first, rest⟩ := done
    obtain ⟨fine, kept | ⟨taken, moved⟩⟩ := steps s x u begun (allowed x (by simp)) first
    · exact ih fine (kept ▸ follows) (fun y member => later y (List.mem_cons_of_mem x member))
        (List.pairwise_cons.mp ordered).2 (fun y member => allowed y (List.mem_cons_of_mem x member)) rest
    · have next := follows_advance positive follows (later x (by simp) taken)
      exact ih fine (moved ▸ next) (fun y member => (List.pairwise_cons.mp ordered).1 y member taken)
        (List.pairwise_cons.mp ordered).2 (fun y member => allowed y (List.mem_cons_of_mem x member)) rest

end Runs

end WrappingCounter
