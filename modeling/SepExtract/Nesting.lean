import Mathlib.Data.List.Basic
import Mathlib.Data.List.Induction
import Mathlib.Data.List.Perm.Basic
import Mathlib.Tactic.Linarith

/- Words with brackets of several kinds, and a stack machine that reads them. The machine
   may start in the middle of a well-nested word: closing brackets it has not seen opened
   are dropped. On every contiguous piece of a well-nested word what it completes are the
   matched pairs of the piece, each once, with the symbols at their own level. -/
namespace Nesting
variable {Kind Item : Type*}

inductive Sym (Kind Item : Type*) where
  | opens (k : Kind) (a : Item)
  | closes (k : Kind) (a : Item)
  | plain (a : Item)
  deriving DecidableEq

inductive Balanced : List (Sym Kind Item) → Prop where
  | nil : Balanced []
  | plain (a : Item) {w : List (Sym Kind Item)} (rest : Balanced w) : Balanced (.plain a :: w)
  | bracket (k : Kind) (a b : Item) {u w : List (Sym Kind Item)} (inside : Balanced u)
      (rest : Balanced w) : Balanced (.opens k a :: (u ++ .closes k b :: w))

def Piece (w : List (Sym Kind Item)) : Prop := ∃ l r, Balanced (l ++ w ++ r)

/-- The symbols outside all brackets of the word, a bracket counting as its two ends; an
    opening symbol can be hidden. The number is the depth at the start. -/
def levelAt (shown : Item → Bool) : Nat → List (Sym Kind Item) → List Item
  | _, [] => []
  | 0, .plain a :: w => a :: levelAt shown 0 w
  | 0, .opens _ a :: w => [a].filter shown ++ levelAt shown 1 w
  | 0, .closes _ a :: w => a :: levelAt shown 0 w
  | n + 1, .plain _ :: w => levelAt shown (n + 1) w
  | n + 1, .opens _ _ :: w => levelAt shown (n + 2) w
  | 1, .closes _ a :: w => a :: levelAt shown 0 w
  | n + 2, .closes _ _ :: w => levelAt shown (n + 1) w

def level (shown : Item → Bool) (w : List (Sym Kind Item)) : List Item := levelAt shown 0 w

theorem level_at_inside (shown : Item → Bool) {u : List (Sym Kind Item)} (balanced : Balanced u) :
    ∀ n w, levelAt shown (n + 1) (u ++ w) = levelAt shown (n + 1) w := by
  induction balanced with
  | nil => exact fun n w => rfl
  | plain a rest ih =>
    intro n w
    simp only [List.cons_append, levelAt]
    exact ih n w
  | bracket k a b inside rest ihInside ihRest =>
    intro n w
    simp only [List.cons_append, List.append_assoc, levelAt]
    rw [ihInside (n + 1)]
    simp only [levelAt]
    exact ihRest n w

theorem level_bracket (shown : Item → Bool) (k : Kind) (a b : Item) {u : List (Sym Kind Item)}
    (inside : Balanced u) (w : List (Sym Kind Item)) :
    level shown (.opens k a :: (u ++ .closes k b :: w)) = [a].filter shown ++ b :: level shown w := by
  simp only [level, levelAt]
  rw [level_at_inside shown inside 0]
  simp only [levelAt]

theorem level_append (shown : Item → Bool) {u : List (Sym Kind Item)} (balanced : Balanced u)
    (w : List (Sym Kind Item)) : level shown (u ++ w) = level shown u ++ level shown w := by
  induction balanced with
  | nil => rfl
  | plain a rest ih =>
    simp only [List.cons_append, level, levelAt, List.cons.injEq, true_and]
    exact ih
  | bracket k a b inside rest _ ih =>
    rw [List.cons_append, List.append_assoc, List.cons_append, level_bracket shown k a b inside,
      level_bracket shown k a b inside, ih]
    simp

theorem balanced_append {u w : List (Sym Kind Item)} (first : Balanced u) (second : Balanced w) :
    Balanced (u ++ w) := by
  induction first with
  | nil => exact second
  | plain a rest ih => exact .plain a ih
  | bracket k a b inside rest _ ih =>
    rw [List.cons_append, List.append_assoc, List.cons_append]
    exact .bracket k a b inside ih

def excess : List (Sym Kind Item) → Int
  | [] => 0
  | .opens _ _ :: w => excess w + 1
  | .closes _ _ :: w => excess w - 1
  | .plain _ :: w => excess w

theorem excess_append (u w : List (Sym Kind Item)) : excess (u ++ w) = excess u + excess w := by
  induction u with
  | nil => simp [excess]
  | cons x u ih => cases x <;> simp [excess, ih] <;> omega

theorem excess_balanced {u : List (Sym Kind Item)} (balanced : Balanced u) : excess u = 0 := by
  induction balanced with
  | nil => rfl
  | plain a rest ih => simpa [excess] using ih
  | bracket k a b inside rest ihInside ihRest => simp [excess, excess_append, ihInside, ihRest]

def Closed (w : List (Sym Kind Item)) : Prop := ∀ u v, w = u ++ v → excess v ≤ 0

theorem closed_append {u w : List (Sym Kind Item)} (first : Closed u) (second : Closed w) :
    Closed (u ++ w) := by
  intro x y split
  rcases List.append_eq_append_iff.mp split with ⟨z, rfl, rfl⟩ | ⟨z, rfl, rfl⟩
  · exact second z y rfl
  · have left := first x z rfl
    have right := second [] w rfl
    rw [excess_append]
    omega

theorem closed_balanced {u : List (Sym Kind Item)} (balanced : Balanced u) : Closed u := by
  induction balanced with
  | nil =>
    intro x y split
    obtain ⟨rfl, rfl⟩ := List.append_eq_nil_iff.mp split.symm
    simp [excess]
  | plain a rest ih =>
    intro x y split
    cases x with
    | nil =>
      subst split
      simpa [excess] using (excess_balanced rest).le
    | cons _ x => exact ih x y (List.cons.inj split).2
  | @bracket k a b u w inside rest ihInside ihRest =>
    intro x y split
    cases x with
    | nil =>
      subst split
      simp [excess, excess_append, excess_balanced inside, excess_balanced rest]
    | cons _ x =>
      have tail := (List.cons.inj split).2
      have closing : Closed (.closes k b :: w) := by
        intro x y split
        cases x with
        | nil =>
          subst split
          simp [excess, excess_balanced rest]
        | cons _ x => exact ihRest x y (List.cons.inj split).2
      exact closed_append ihInside closing x y tail

theorem pending_unique {l l' u u' : List (Sym Kind Item)} {k k' : Kind} {a a' : Item}
    (balanced : Balanced u) (balanced' : Balanced u')
    (same : l ++ .opens k a :: u = l' ++ .opens k' a' :: u') :
    l = l' ∧ k = k' ∧ a = a' ∧ u = u' := by
  have longer : ∀ {l l' u u' : List (Sym Kind Item)} {k k' a a'}, Balanced u → Balanced u' →
      ∀ x z, l' = l ++ x :: z → l ++ .opens k a :: u = l' ++ .opens k' a' :: u' → False := by
    rintro l _ u u' k k' a a' balanced balanced' x z rfl same
    rw [List.append_assoc, List.append_cancel_left_eq, List.cons_append] at same
    obtain ⟨rfl, rfl⟩ := List.cons.inj same
    have closed := closed_balanced balanced z _ rfl
    simp [excess, excess_balanced balanced'] at closed
  rcases List.append_eq_append_iff.mp same with ⟨z, rfl, back⟩ | ⟨z, rfl, back⟩
  · cases z with
    | nil =>
      obtain ⟨⟨rfl, rfl⟩, rfl⟩ : (_ ∧ _) ∧ _ := by simpa using back
      simp
    | cons x z => exact (longer balanced balanced' x z rfl same).elim
  · cases z with
    | nil =>
      obtain ⟨⟨rfl, rfl⟩, rfl⟩ : (_ ∧ _) ∧ _ := by simpa using back
      simp
    | cons x z => exact (longer balanced' balanced x z rfl same.symm).elim

theorem closed_not_pending {w l u : List (Sym Kind Item)} {k : Kind} {a : Item} (closed : Closed w)
    (balanced : Balanced u) : w ≠ l ++ .opens k a :: u := by
  rintro rfl
  have := closed l _ rfl
  simp [excess, excess_balanced balanced] at this

inductive Closes : List Kind → List (Sym Kind Item) → Prop where
  | nil {u : List (Sym Kind Item)} (last : Balanced u) : Closes [] u
  | cons {u w : List (Sym Kind Item)} {st : List Kind} (k : Kind) (b : Item) (first : Balanced u)
      (rest : Closes st w) : Closes (k :: st) (u ++ .closes k b :: w)

theorem closes_push {st : List Kind} {u w : List (Sym Kind Item)} (balanced : Balanced u)
    (closes : Closes st w) : Closes st (u ++ w) := by
  cases closes with
  | nil last => exact .nil (balanced_append balanced last)
  | cons k b first rest =>
    rw [← List.append_assoc]
    exact .cons k b (balanced_append balanced first) rest

section Kinds
variable [DecidableEq Kind]

def check : List Kind → List (Sym Kind Item) → Option (List Kind)
  | st, [] => some st
  | st, .plain _ :: w => check st w
  | st, .opens k _ :: w => check (k :: st) w
  | [], .closes _ _ :: _ => none
  | k' :: st, .closes k _ :: w => if k = k' then check st w else none

theorem check_append (st : List Kind) (u w : List (Sym Kind Item)) :
    check st (u ++ w) = (check st u).bind fun st => check st w := by
  induction u generalizing st with
  | nil => rfl
  | cons x u ih =>
    cases x with
    | plain a => exact ih st
    | opens k a => exact ih (k :: st)
    | closes k a =>
      cases st with
      | nil => rfl
      | cons k' st =>
        simp only [List.cons_append, check]
        split
        · exact ih st
        · rfl

theorem check_balanced {u : List (Sym Kind Item)} (balanced : Balanced u) (st : List Kind) :
    check st u = some st := by
  induction balanced generalizing st with
  | nil => rfl
  | plain a rest ih => exact ih st
  | bracket k a b inside rest ihInside ihRest =>
    simp only [check]
    rw [check_append, ihInside]
    simpa [check] using ihRest st

theorem closes_of_check {st : List Kind} {w : List (Sym Kind Item)} (checked : check st w = some []) :
    Closes st w := by
  induction w generalizing st with
  | nil =>
    obtain rfl := Option.some.inj checked
    exact .nil .nil
  | cons x w ih =>
    cases x with
    | plain a => exact closes_push (.plain a .nil) (ih checked)
    | opens k a =>
      obtain ⟨u, rest, b, rfl, inside, after⟩ : ∃ u rest b, w = u ++ .closes k b :: rest ∧ Balanced u ∧
          Closes st rest := by
        cases ih checked with
        | cons k b first rest => exact ⟨_, _, b, rfl, first, rest⟩
      simpa using closes_push (.bracket k a b inside .nil) after
    | closes k b =>
      cases st with
      | nil => cases checked
      | cons k' st =>
        simp only [check] at checked
        split at checked
        · rename_i same
          subst same
          exact .cons k b .nil (ih checked)
        · cases checked

theorem balanced_of_check {w : List (Sym Kind Item)} (checked : check [] w = some []) : Balanced w := by
  cases closes_of_check checked with
  | nil balanced => exact balanced

theorem piece_of_check {w : List (Sym Kind Item)} (checked : check [] w = some []) : Piece w :=
  ⟨[], [], by simpa using balanced_of_check checked⟩

theorem kinds_match {l u r : List (Sym Kind Item)} {k k' : Kind} {a b : Item} (inside : Balanced u)
    (piece : Piece (l ++ .opens k a :: (u ++ .closes k' b :: r))) : k' = k := by
  obtain ⟨x, y, balanced⟩ := piece
  have whole := check_balanced balanced []
  rw [List.append_assoc, List.append_assoc, ← List.append_assoc x l, check_append] at whole
  obtain ⟨st, _, rest⟩ := Option.bind_eq_some_iff.mp whole
  simp only [List.cons_append, List.append_assoc, check] at rest
  rw [check_append, check_balanced inside] at rest
  simp only [Option.bind_some, check] at rest
  by_contra other
  simp [other] at rest

end Kinds

structure Frame (Kind Item : Type*) where
  kind : Kind
  opening : Item
  items : List Item

structure Pair (Kind Item : Type*) where
  kind : Kind
  opening : Item
  items : List Item
  closing : Item

structure Scan (Kind Item : Type*) where
  stack : List (Frame Kind Item)
  pairs : List (Pair Kind Item)

def note (items : List Item) : List (Frame Kind Item) → List (Frame Kind Item)
  | [] => []
  | f :: st => { f with items := f.items ++ items } :: st

def Scan.step (shown : Item → Bool) (s : Scan Kind Item) : Sym Kind Item → Scan Kind Item
  | .plain a => { s with stack := note [a] s.stack }
  | .opens k a => { s with stack := ⟨k, a, []⟩ :: note ([a].filter shown) s.stack }
  | .closes _ b =>
    match s.stack with
    | [] => s
    | f :: st => ⟨note [b] st, s.pairs ++ [⟨f.kind, f.opening, f.items, b⟩]⟩

def scan (shown : Item → Bool) (w : List (Sym Kind Item)) : Scan Kind Item :=
  w.foldl (Scan.step shown) ⟨[], []⟩

theorem scan_snoc (shown : Item → Bool) (w : List (Sym Kind Item)) (x : Sym Kind Item) :
    scan shown (w ++ [x]) = (scan shown w).step shown x := by
  simp [scan]

/-- The stack is the list of the unmatched opening brackets of the word, innermost first. -/
inductive Pending (shown : Item → Bool) : List (Sym Kind Item) → List (Frame Kind Item) → Prop where
  | closed {w : List (Sym Kind Item)} (none : Closed w) : Pending shown w []
  | frame {w u : List (Sym Kind Item)} {st : List (Frame Kind Item)} (k : Kind) (a : Item)
      (outer : Pending shown w st) (inside : Balanced u) :
      Pending shown (w ++ .opens k a :: u) (⟨k, a, level shown u⟩ :: note ([a].filter shown) st)

def Matched (shown : Item → Bool) (w : List (Sym Kind Item)) (p : Pair Kind Item) : Prop :=
  ∃ l u r, w = l ++ .opens p.kind p.opening :: (u ++ .closes p.kind p.closing :: r) ∧ Balanced u ∧
    p.items = level shown u

def openings (w : List (Sym Kind Item)) : List Item :=
  w.filterMap fun
    | .opens _ a => some a
    | _ => none

theorem openings_append (u w : List (Sym Kind Item)) : openings (u ++ w) = openings u ++ openings w :=
  List.filterMap_append ..

theorem matched_opening {shown : Item → Bool} {w : List (Sym Kind Item)} {p : Pair Kind Item}
    (matched : Matched shown w p) : p.opening ∈ openings w := by
  obtain ⟨l, u, r, rfl, _⟩ := matched
  rw [openings_append, List.mem_append]
  exact Or.inr (by simp [openings])

theorem note_openings (items : List Item) (st : List (Frame Kind Item)) :
    (note items st).map Frame.opening = st.map Frame.opening := by
  cases st <;> rfl

theorem pending_push {shown : Item → Bool} {w v : List (Sym Kind Item)} {st : List (Frame Kind Item)}
    (pending : Pending shown w st) (balanced : Balanced v) :
    Pending shown (w ++ v) (note (level shown v) st) := by
  cases pending with
  | closed none => exact .closed (closed_append none (closed_balanced balanced))
  | @frame w u st k a outer inside =>
    rw [List.append_assoc, List.cons_append]
    have grown := Pending.frame k a outer (balanced_append inside balanced)
    rw [level_append shown inside] at grown
    exact grown

theorem closed_snoc {w : List (Sym Kind Item)} (closed : Closed w) (k : Kind) (b : Item) :
    Closed (w ++ [.closes k b]) := by
  refine closed_append closed ?_
  intro x y split
  cases x with
  | nil =>
    subst split
    simp [excess]
  | cons _ x =>
    obtain ⟨rfl, rfl⟩ := List.append_eq_nil_iff.mp (List.cons.inj split).2.symm
    simp [excess]

theorem note_note (xs ys : List Item) (st : List (Frame Kind Item)) :
    note ys (note xs st) = note (xs ++ ys) st := by
  cases st <;> simp [note]

theorem piece_init {w : List (Sym Kind Item)} {x : Sym Kind Item} (piece : Piece (w ++ [x])) : Piece w := by
  obtain ⟨l, r, balanced⟩ := piece
  exact ⟨l, x :: r, by simpa using balanced⟩

theorem matched_snoc {shown : Item → Bool} {w : List (Sym Kind Item)} {x : Sym Kind Item}
    {p : Pair Kind Item} :
    Matched shown (w ++ [x]) p ↔ Matched shown w p ∨
      x = .closes p.kind p.closing ∧ ∃ l u, w = l ++ .opens p.kind p.opening :: u ∧ Balanced u ∧
        p.items = level shown u := by
  constructor
  · rintro ⟨l, u, r, split, balanced, items⟩
    rcases List.eq_nil_or_concat r with rfl | ⟨r, y, rfl⟩
    · right
      have joined : w ++ [x] = (l ++ .opens p.kind p.opening :: u) ++ [.closes p.kind p.closing] := by
        simpa using split
      obtain ⟨front, last⟩ := List.append_inj' joined rfl
      exact ⟨by simpa using last, l, u, front, balanced, items⟩
    · left
      have joined : w ++ [x] =
          (l ++ .opens p.kind p.opening :: (u ++ .closes p.kind p.closing :: r)) ++ [y] := by
        simpa [List.concat_eq_append] using split
      exact ⟨l, u, r, (List.append_inj' joined rfl).1, balanced, items⟩
  · rintro (⟨l, u, r, rfl, balanced, items⟩ | ⟨rfl, l, u, rfl, balanced, items⟩)
    · exact ⟨l, u, r ++ [x], by simp, balanced, items⟩
    · exact ⟨l, u, [], by simp, balanced, items⟩

theorem openings_perm (shown : Item → Bool) (w : List (Sym Kind Item)) :
    ((scan shown w).pairs.map Pair.opening ++ (scan shown w).stack.map Frame.opening).Perm
      (openings w) := by
  induction w using List.reverseRecOn with
  | nil => exact List.Perm.nil
  | append_singleton w x ih =>
    rw [scan_snoc, openings_append]
    cases x with
    | plain a => simpa [Scan.step, note_openings, openings] using ih
    | opens k a =>
      simp only [Scan.step, List.map_cons, note_openings, openings, List.filterMap_cons,
        List.filterMap_nil]
      have last : (a :: openings w).Perm (openings w ++ [a]) := (List.perm_append_singleton a (openings w)).symm
      exact (List.perm_middle.trans (List.Perm.cons a ih)).trans last
    | closes k b =>
      have none : openings [Sym.closes k b] = ([] : List Item) := rfl
      rw [none, List.append_nil]
      simp only [Scan.step]
      generalize scan shown w = s at ih
      cases s with
      | mk stack pairs =>
        cases stack with
        | nil => exact ih
        | cons f st => simpa [note_openings] using ih

section Scanning
variable [DecidableEq Kind]

theorem scan_pending (shown : Item → Bool) (w : List (Sym Kind Item)) (piece : Piece w) :
    Pending shown w (scan shown w).stack := by
  induction w using List.reverseRecOn with
  | nil => exact .closed (closed_balanced .nil)
  | append_singleton w x ih =>
    have before := ih (piece_init piece)
    rw [scan_snoc]
    cases x with
    | plain a => exact pending_push before (.plain a .nil)
    | opens k a => exact Pending.frame k a before .nil
    | closes k b =>
      simp only [Scan.step]
      generalize scan shown w = s at before
      cases s with
      | mk stack pairs =>
        dsimp only at before ⊢
        cases before with
        | closed none => exact .closed (closed_snoc none k b)
        | @frame w u st k' a outer inside =>
          obtain rfl : k = k' := kinds_match inside (r := []) (by simpa using piece)
          have pair : Balanced (.opens k a :: (u ++ .closes k b :: [])) := .bracket k a b inside .nil
          have done := pending_push outer pair
          rw [level_bracket shown k a b inside] at done
          simpa [note_note, level, levelAt] using done

/-- The pairs completed on a piece of a well-nested word are its matched pairs. -/
theorem mem_pairs_iff (shown : Item → Bool) (w : List (Sym Kind Item)) (piece : Piece w)
    (p : Pair Kind Item) : p ∈ (scan shown w).pairs ↔ Matched shown w p := by
  induction w using List.reverseRecOn with
  | nil =>
    simp only [scan, List.foldl_nil, List.not_mem_nil, false_iff]
    rintro ⟨l, u, r, split, _⟩
    simp at split
  | append_singleton w x ih =>
    have before := ih (piece_init piece)
    have pending := scan_pending shown w (piece_init piece)
    rw [scan_snoc, matched_snoc, ← before]
    cases x with
    | plain a => simp [Scan.step]
    | opens k a => simp [Scan.step]
    | closes k b =>
      simp only [Scan.step]
      generalize scan shown w = s at pending
      cases s with
      | mk stack pairs =>
        dsimp only at pending ⊢
        cases pending with
        | closed none =>
          simp only [iff_self_or]
          rintro ⟨_, l, u, split, balanced, _⟩
          exact absurd split (closed_not_pending none balanced)
        | @frame w u st k' a outer inside =>
          obtain rfl : k = k' := kinds_match inside (r := []) (by simpa using piece)
          simp only [List.mem_append, List.mem_singleton]
          refine or_congr_right ⟨?_, ?_⟩
          · rintro rfl
            exact ⟨rfl, w, u, rfl, inside, rfl⟩
          · rintro ⟨closing, l, v, split, balanced, items⟩
            obtain ⟨rfl, kind, opening, rfl⟩ := pending_unique inside balanced split
            obtain ⟨_, closing⟩ := Sym.closes.inj closing
            cases p
            simp_all

end Scanning

end Nesting
