import Mathlib.Data.List.Nodup
import Mathlib.Logic.Function.Basic

/- Singly linked lists: the cells met on the way along a next field. -/
namespace LinkedLists

variable {C : Type} {next next' : C → Option C} {p q r : Option C} {l m : List C} {x : C}

/-- Following next from p visits the cells l and arrives at q. -/
def Seg (next : C → Option C) : Option C → List C → Option C → Prop
  | p, [], q => p = q
  | p, x :: l, q => p = some x ∧ Seg next (next x) l q

theorem seg_append : Seg next p (l ++ m) q ↔ ∃ r, Seg next p l r ∧ Seg next r m q := by
  induction l generalizing p with
  | nil => simp [Seg]
  | cons x l ih => simp only [List.cons_append, Seg, ih, and_assoc, exists_and_left]

theorem seg_concat : Seg next p (l ++ [x]) q ↔ Seg next p l (some x) ∧ next x = q := by
  rw [seg_append]
  constructor
  · rintro ⟨_, front, rfl, last⟩
    exact ⟨front, last⟩
  · rintro ⟨front, last⟩
    exact ⟨some x, front, rfl, last⟩

theorem seg_congr (agree : ∀ x ∈ l, next' x = next x) : Seg next' p l q ↔ Seg next p l q := by
  induction l generalizing p with
  | nil => exact Iff.rfl
  | cons x l ih =>
    simp only [Seg, agree x List.mem_cons_self]
    rw [ih fun y inside => agree y (List.mem_cons_of_mem x inside)]

theorem seg_unique (first : Seg next p l none) (second : Seg next p m none) : l = m := by
  induction l generalizing p m with
  | nil =>
    obtain rfl := first
    cases m with
    | nil => rfl
    | cons y m => cases second.1
  | cons x l ih =>
    obtain ⟨rfl, rest⟩ := first
    cases m with
    | nil => cases second
    | cons y m =>
      obtain ⟨same, other⟩ := second
      obtain rfl := Option.some.inj same
      rw [ih rest other]

theorem seg_nodup (ends : Seg next p l none) : l.Nodup := by
  induction l generalizing p with
  | nil => exact List.nodup_nil
  | cons x l ih =>
    refine List.nodup_cons.mpr ⟨fun again => ?_, ih ends.2⟩
    obtain ⟨front, back, rfl⟩ := List.append_of_mem again
    obtain ⟨_, _, rest⟩ := seg_append.mp ends.2
    have short := congrArg List.length (seg_unique ends.2 rest.2)
    simp only [List.length_append, List.length_cons] at short
    omega

theorem seg_once (ends : Seg next p (l ++ x :: m) none) : x ∉ l := by
  have distinct := List.disjoint_of_nodup_append (seg_nodup ends)
  exact fun again => distinct again List.mem_cons_self

theorem seg_head (ends : Seg next p l none) : p = l.head? := by
  cases l with
  | nil => exact ends
  | cons x l => exact ends.1

variable [DecidableEq C]

theorem seg_update (outside : x ∉ l) (v : Option C) :
    Seg (Function.update next x v) p l q ↔ Seg next p l q := by
  refine seg_congr fun y inside => ?_
  have other : y ≠ x := ne_of_mem_of_not_mem inside outside
  rw [Function.update_of_ne other]

theorem seg_relink (whole : Seg next p (l ++ [x]) q) (once : x ∉ l) (v : Option C) :
    Seg (Function.update next x v) p (l ++ [x]) v :=
  seg_concat.mpr ⟨(seg_update once v).mpr (seg_concat.mp whole).1, Function.update_self x v next⟩

end LinkedLists
