import Mathlib.Algebra.Order.Group.Nat
import Mathlib.Data.Nat.ModEq

/- A sender numbers its frames 0, 1, 2 and so on, and the receiver says up to which number it may
   go. The numbers are exchanged modulo M. As long as the credit stays below M the residues tell
   it, and an offered residue stands for one number in reach. -/
namespace CreditWindow

/-- The frames sent so far, and the number up to which frames may be sent. -/
structure Account where
  sent : Nat
  granted : Nat
  deriving DecidableEq, Repr

def distance (M s m : Nat) : Nat := (m + (M - s % M)) % M

section Residues
variable {M : Nat} (positive : 0 < M)
include positive

theorem fill_residue (s : Nat) : s + (M - s % M) = M * (s / M + 1) := by
  have split := Nat.mod_add_div s M
  have below := Nat.mod_lt s positive
  rw [Nat.mul_add, Nat.mul_one]
  omega

theorem distance_add (s d : Nat) : distance M s (s + d) = d % M := by
  have swap : s + d + (M - s % M) = d + M * (s / M + 1) := by
    rw [← fill_residue positive s]
    omega
  rw [distance, swap, Nat.add_mul_mod_self_left]

theorem add_distance (s m : Nat) : (s + distance M s m) % M = m % M := by
  have swap : s + (m + (M - s % M)) = m + M * (s / M + 1) := by
    rw [← fill_residue positive s]
    omega
  rw [distance, Nat.add_mod_mod, swap, Nat.add_mul_mod_self_left]

end Residues

theorem distance_residues (M s m : Nat) : distance M (s % M) (m % M) = distance M s m := by
  rw [distance, distance, Nat.mod_mod, Nat.mod_add_mod]

namespace Account

structure Within (bound : Nat) (a : Account) : Prop where
  reached : a.sent ≤ a.granted
  bounded : a.granted ≤ a.sent + bound

def send (a : Account) : Account := { a with sent := a.sent + 1 }

/-- The offered residue is taken if it stands for a number in reach. -/
def offer (M bound : Nat) (a : Account) (w : Nat) : Account :=
  if distance M a.sent w ≤ bound then { a with granted := a.sent + distance M a.sent w } else a

variable {M bound : Nat} {a : Account}

theorem within_send (within : a.Within bound) (credit : a.sent < a.granted) : a.send.Within bound := by
  obtain ⟨reached, bounded⟩ := within
  refine ⟨credit, ?_⟩
  change a.granted ≤ a.sent + 1 + bound
  omega

theorem within_offer (within : a.Within bound) (w : Nat) : (a.offer M bound w).Within bound := by
  unfold offer
  split
  · rename_i near
    exact ⟨Nat.le_add_right .., Nat.add_le_add_left near _⟩
  · exact within

@[simp] theorem sent_offer (w : Nat) : (a.offer M bound w).sent = a.sent := by
  unfold offer
  split <;> rfl

theorem distance_within (small : bound < M) (within : a.Within bound) :
    distance M a.sent a.granted = a.granted - a.sent := by
  obtain ⟨reached, bounded⟩ := within
  have split : a.granted = a.sent + (a.granted - a.sent) := by omega
  rw [split, distance_add (by omega), Nat.mod_eq_of_lt (by omega)]
  omega

theorem granted_offer (positive : 0 < M) (w : Nat) :
    (a.offer M bound w).granted % M = if distance M a.sent w ≤ bound then w % M else a.granted % M := by
  unfold offer
  split
  · exact add_distance positive a.sent w
  · rfl

end Account
end CreditWindow
