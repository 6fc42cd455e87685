import Mathlib.Logic.Basic
import Mathlib.Data.Option.Basic

/- Loops with break and return, as for (;;) of C, with a total-correctness rule and a simulation rule. -/
namespace LoopControl

variable {S T : Type}

inductive Control (S : Type) where
  | next (s : S)
  | brk (s : S)
  | ret (s : S)

namespace Control

def map (f : S → T) : Control S → Control T
  | .next s => .next (f s)
  | .brk s => .brk (f s)
  | .ret s => .ret (f s)

def After (next brk ret : S → Prop) : Control S → Prop
  | .next s => next s
  | .brk s => brk s
  | .ret s => ret s

end Control

/-- for (;;) with a body; none if it takes more turns than the fuel. -/
def loop (body : S → Option (Control S)) : Nat → S → Option (Control S)
  | 0, _ => none
  | fuel + 1, s => (body s).bind fun
    | .next s => loop body fuel s
    | .brk s => some (.brk s)
    | .ret s => some (.ret s)

/-- An invariant and a measure of the turns left: the loop ends, with a break or a return. -/
theorem loop_total {body : S → Option (Control S)} {inv brk ret : S → Prop} (measure : S → Nat)
    (turn : ∀ s, inv s → ∃ c, body s = some c ∧ c.After (fun s' => inv s' ∧ measure s' < measure s) brk ret)
    {s : S} {fuel : Nat} (start : inv s) (enough : measure s < fuel) :
    ∃ c, loop body fuel s = some c ∧ c.After (fun _ => False) brk ret := by
  induction fuel generalizing s with
  | zero => cases enough
  | succ fuel ih =>
    obtain ⟨c, step, after⟩ := turn s start
    simp only [loop, step, Option.bind_some]
    cases c with
    | next s' => exact ih after.1 (Nat.lt_of_lt_of_le after.2 (Nat.le_of_lt_succ enough))
    | brk s' => exact ⟨_, rfl, after⟩
    | ret s' => exact ⟨_, rfl, after⟩

/-- A loop whose turns are those of another one, seen through a function. -/
theorem loop_simulates {body : S → Option (Control S)} {body' : T → Option (Control T)} {f : S → T}
    (turn : ∀ s, body' (f s) = (body s).map (Control.map f)) (fuel : Nat) (s : S) :
    loop body' fuel (f s) = (loop body fuel s).map (Control.map f) := by
  induction fuel generalizing s with
  | zero => rfl
  | succ fuel ih =>
    simp only [loop, turn]
    cases body s with
    | none => rfl
    | some c =>
      cases c with
      | next s' => exact ih s'
      | brk s' => rfl
      | ret s' => rfl

end LoopControl
