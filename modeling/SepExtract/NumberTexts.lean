import Mathlib.Tactic.IntervalCases
import SepExtract.TextFields

/- Numbers written in a base up to 16 and read back by the functions of the Go library. -/
namespace NumberTexts
open GoText TextFields

/-- A number as the formats with u, d and x print it. -/
def numeral (base n : Nat) : String := String.ofList (Nat.toDigits base n)

@[simp] theorem toList_numeral (base n : Nat) : (numeral base n).toList = Nat.toDigits base n :=
  String.toList_ofList

theorem digit_digitChar {d : Nat} (small : d < 16) : digit d.digitChar = some d := by
  interval_cases d <;> rfl

theorem digits_append (base n : Nat) (xs ys : List Char) :
    digits base n (xs ++ ys) = (digits base n xs).bind fun m => digits base m ys := by
  induction xs generalizing n with
  | nil => rfl
  | cons c xs ih =>
    simp only [List.cons_append, digits]
    split
    · split
      · exact ih _
      · rfl
    · rfl

section Base
variable {base : Nat} (lower : 1 < base) (upper : base ≤ 16)
include lower upper

theorem digits_toDigits (n : Nat) : digits base 0 (Nat.toDigits base n) = some n := by
  have one : ∀ m d, d < base → digits base m [d.digitChar] = some (m * base + d) := by
    intro m d small
    simp [digits, digit_digitChar (Nat.lt_of_lt_of_le small upper), small]
  induction n using Nat.strongRecOn with
  | ind n ih =>
    rw [Nat.toDigits_eq_if lower]
    split
    · rename_i small
      simpa using one 0 n small
    · rename_i large
      have smaller : n / base < n := Nat.div_lt_self (by omega) lower
      rw [digits_append, ih _ smaller, Option.bind_some, one _ _ (Nat.mod_lt n (by omega)), Nat.mul_comm,
        Nat.div_add_mod]

theorem unsigned_toDigits (n : Nat) : unsigned base (Nat.toDigits base n) = some n := by
  have filled : Nat.toDigits base n ≠ [] := Nat.toDigits_ne_nil
  cases list : Nat.toDigits base n with
  | nil => exact absurd list filled
  | cons c rest =>
    have read := digits_toDigits lower upper n
    rw [list] at read
    exact read

theorem toDigits_digits (n : Nat) : ∀ c ∈ Nat.toDigits base n, ∃ d < base, c = d.digitChar := by
  induction n using Nat.strongRecOn with
  | ind n ih =>
    rw [Nat.toDigits_eq_if lower]
    split
    · rename_i small
      intro c member
      exact ⟨n, small, List.mem_singleton.mp member⟩
    · rename_i large
      intro c member
      rcases List.mem_append.mp member with high | low
      · exact ih _ (Nat.div_lt_self (by omega) lower) c high
      · exact ⟨n % base, Nat.mod_lt n (by omega), List.mem_singleton.mp low⟩

theorem free_numeral {bad : Char → Bool} (none : ∀ d < 16, bad (Nat.digitChar d) = false) (n : Nat) :
    Free bad (numeral base n) := by
  intro c member
  rw [toList_numeral] at member
  obtain ⟨d, small, rfl⟩ := toDigits_digits lower upper n c member
  exact none d (Nat.lt_of_lt_of_le small upper)

theorem signed_toDigits (n : Nat) : signed base (Nat.toDigits base n) = some (n : Int) := by
  have read := unsigned_toDigits lower upper n
  have plain : ∀ c ∈ Nat.toDigits base n, c ≠ '-' ∧ c ≠ '+' := by
    intro c member
    obtain ⟨d, small, rfl⟩ := toDigits_digits lower upper n c member
    have small : d < 16 := by omega
    interval_cases d <;> decide
  unfold signed
  split
  · rename_i rest list
    exact absurd rfl (plain '-' (by rw [list]; exact List.mem_cons_self ..)).1
  · rename_i rest list
    exact absurd rfl (plain '+' (by rw [list]; exact List.mem_cons_self ..)).2
  · rw [read]
    rfl

theorem parse_numeral {n : Nat} (small : n < 9223372036854775808) : parseInt base (numeral base n) = some (n : Int) := by
  unfold parseInt
  rw [toList_numeral, signed_toDigits lower upper]
  have range : minInt64 ≤ (n : Int) ∧ (n : Int) ≤ maxInt64 := by
    unfold minInt64 maxInt64
    omega
  exact if_pos range

theorem numeral_injective {n m : Nat} (same : numeral base n = numeral base m) : n = m := by
  have read := unsigned_toDigits lower upper n
  rw [← toList_numeral, same, toList_numeral, unsigned_toDigits lower upper m] at read
  exact (Option.some.inj read).symm

end Base

theorem numeral_ne_empty (base n : Nat) : numeral base n ≠ "" := by
  intro empty
  have list := congrArg String.toList empty
  rw [toList_numeral] at list
  exact Nat.toDigits_ne_nil list

theorem length_numeral_le {base n k : Nat} (lower : 1 < base) (pos : 0 < k) :
    (numeral base n).length ≤ k ↔ n < base ^ k := by
  rw [← String.length_toList, toList_numeral]
  exact Nat.length_toDigits_le_iff lower pos

section Numerals
variable {base : Nat} (lower : 1 < base)
include lower

theorem prefix_toDigits {n : Nat} {p : List Char} (cut : p <+: Nat.toDigits base n) (some : p ≠ []) :
    ∃ m ≤ n, p = Nat.toDigits base m ∧ (m = 0 ↔ n = 0) := by
  induction n using Nat.strongRecOn with
  | ind n ih =>
    have whole : p = Nat.toDigits base n → ∃ m ≤ n, p = Nat.toDigits base m ∧ (m = 0 ↔ n = 0) :=
      fun same => ⟨n, Nat.le_refl n, same, Iff.rfl⟩
    by_cases small : n < base
    · rw [Nat.toDigits_of_lt_base small] at cut
      refine whole ?_
      rw [Nat.toDigits_of_lt_base small]
      cases p with
      | nil => exact absurd rfl some
      | cons c p =>
        obtain ⟨rfl, rest⟩ := List.cons_prefix_cons.mp cut
        rw [List.prefix_nil.mp rest]
    · have high : Nat.toDigits base n = Nat.toDigits base (n / base) ++ [(n % base).digitChar] := by
        rw [Nat.toDigits_eq_if lower, if_neg small]
      rcases List.prefix_concat_iff.mp (high ▸ cut) with same | shorter
      · exact whole (same.trans high.symm)
      · have smaller : n / base < n := Nat.div_lt_self (by omega) lower
        obtain ⟨m, le, digits, zero⟩ := ih _ smaller shorter
        refine ⟨m, by omega, digits, ?_⟩
        have positive : n / base ≠ 0 := by
          rw [Ne, Nat.div_eq_zero_iff]
          omega
        omega

theorem prefix_numeral {n : Nat} {part : String} (cut : part.toList <+: (numeral base n).toList) (some : part ≠ "") :
    ∃ m ≤ n, part = numeral base m ∧ (m = 0 ↔ n = 0) := by
  rw [toList_numeral] at cut
  obtain ⟨m, le, digits, zero⟩ := prefix_toDigits lower cut (by simpa using some)
  refine ⟨m, le, ?_, zero⟩
  rw [numeral, ← digits, String.ofList_toList]

end Numerals

end NumberTexts
