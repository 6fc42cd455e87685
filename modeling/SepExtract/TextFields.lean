import Mathlib
import SepExtract.GoText

/- Strings without characters of a class, and lines made of such strings: joining is
   injective, and a line of columns is split at its white space into the columns again. -/
namespace TextFields

def Free (bad : Char → Bool) (s : String) : Prop := ∀ c ∈ s.toList, bad c = false

variable {bad : Char → Bool}

instance (s : String) : Decidable (Free bad s) := List.decidableBAll (fun c => bad c = false) s.toList

theorem free_append (s t : String) : Free bad (s ++ t) ↔ Free bad s ∧ Free bad t := by
  simp only [Free, String.toList_append, List.mem_append]
  constructor
  · exact fun free => ⟨fun c member => free c (Or.inl member), fun c member => free c (Or.inr member)⟩
  · rintro ⟨left, right⟩ c (member | member)
    · exact left c member
    · exact right c member

theorem free_mono {worse : Char → Bool} {s : String} (free : Free worse s)
    (implied : ∀ c, bad c = true → worse c = true) : Free bad s := by
  intro c member
  by_contra hit
  have worse := implied c (by simpa using hit)
  rw [free c member] at worse
  cases worse

theorem free_nat (digits : ∀ c, c.isDigit = true → bad c = false) (n : Nat) : Free bad (toString n) := by
  intro c member
  have list : (toString n).toList = Nat.toDigits 10 n := String.toList_ofList
  rw [list] at member
  exact digits c (Nat.isDigit_of_mem_toDigits (by omega) (by omega) member)

theorem free_int (digits : ∀ c, c.isDigit = true → bad c = false) (minus : bad '-' = false) (n : Int) :
    Free bad (toString n) := by
  cases n with
  | ofNat m => exact free_nat digits m
  | negSucc m =>
    have split : toString (Int.negSucc m) = "-" ++ toString (m + 1) := rfl
    rw [split, free_append]
    refine ⟨fun c member => ?_, free_nat digits (m + 1)⟩
    obtain rfl : c = '-' := by simpa using member
    exact minus

theorem free_intercalate {s : String} {ts : List String} (between : Free bad s) (parts : ∀ t ∈ ts, Free bad t) :
    Free bad (s.intercalate ts) := by
  induction ts with
  | nil => exact fun c member => by simp at member
  | cons t ts ih =>
    have first := parts t (List.mem_cons_self ..)
    cases ts with
    | nil => simpa using first
    | cons u us =>
      rw [String.intercalate_cons_cons, free_append, free_append]
      exact ⟨⟨first, between⟩, ih fun v member => parts v (List.mem_cons_of_mem t member)⟩

theorem intercalate_injective {sep : Char} {ts us : List String} (left : ∀ t ∈ ts, Free (· == sep) t)
    (right : ∀ u ∈ us, Free (· == sep) u) (filled : ts ≠ []) (filled' : us ≠ [])
    (same : (String.singleton sep).intercalate ts = (String.singleton sep).intercalate us) : ts = us := by
  have split : ∀ vs : List String, (∀ v ∈ vs, Free (· == sep) v) → vs ≠ [] →
      (((String.singleton sep).intercalate vs).toList).splitOn sep = vs.map String.toList := by
    intro vs free filled
    rw [String.toList_intercalate, String.toList_singleton]
    refine List.splitOn_intercalate sep (fun l member inside => ?_) (by simpa using filled)
    obtain ⟨v, here, rfl⟩ := List.mem_map.mp member
    simpa using free v here sep inside
  have equal := split ts left filled
  rw [same, split us right filled'] at equal
  exact List.map_injective_iff.mpr (fun _ _ => String.toList_inj.mp) equal.symm

theorem pieces_free (inRun : Bool) (cs : List Char) :
    ∀ w ∈ GoText.pieces inRun cs, ∀ c ∈ w, GoText.isSpace c = false := by
  fun_induction GoText.pieces inRun cs with
  | case1 => simp
  | case2 c rest space ih => exact ih
  | case3 inRun c rest space run ih =>
    intro w member
    rcases List.mem_cons.mp member with rfl | member
    · simp
    · exact ih w member
  | case4 inRun c rest other none ih =>
    intro w member d inside
    rw [List.mem_singleton.mp member, List.mem_singleton] at inside
    rw [inside]
    simpa using other
  | case5 inRun c rest other word words split ih =>
    rw [split] at ih
    intro w member d inside
    rcases List.mem_cons.mp member with rfl | member
    · rcases List.mem_cons.mp inside with rfl | inside
      · simpa using other
      · exact ih word (List.mem_cons_self ..) d inside
    · exact ih w (List.mem_cons_of_mem word member) d inside

theorem split_free (s : String) : ∀ t ∈ GoText.splitWhitespace s, Free GoText.isSpace t := by
  intro t member c inside
  obtain ⟨w, here, rfl⟩ := List.mem_map.mp member
  rw [String.toList_ofList] at inside
  exact pieces_free false s.toList w here c inside

theorem pieces_word {inRun : Bool} {w : List Char} (rest : List Char) (free : ∀ c ∈ w, GoText.isSpace c = false)
    (starts : inRun = false ∨ w ≠ []) : GoText.pieces inRun (w ++ ' ' :: rest) = w :: GoText.pieces true rest := by
  induction w generalizing inRun with
  | nil =>
    obtain rfl : inRun = false := starts.resolve_right (by simp)
    rfl
  | cons c w ih =>
    have plain : ¬ GoText.isSpace c = true := by simp [free c (List.mem_cons_self ..)]
    rw [List.cons_append, GoText.pieces, if_neg plain,
      ih (fun d member => free d (List.mem_cons_of_mem c member)) (Or.inl rfl)]

theorem pieces_spaces (k : Nat) (rest : List Char) :
    GoText.pieces true (List.replicate k ' ' ++ rest) = GoText.pieces true rest := by
  induction k with
  | zero => rfl
  | succ k ih =>
    rw [List.replicate_succ, List.cons_append, GoText.pieces, if_pos (by decide), if_pos rfl, ih]

theorem pieces_last {inRun : Bool} {w : List Char} (free : ∀ c ∈ w, GoText.isSpace c = false) (filled : w ≠ []) :
    GoText.pieces inRun w = [w] := by
  induction w generalizing inRun with
  | nil => exact absurd rfl filled
  | cons c w ih =>
    have plain : ¬ GoText.isSpace c = true := by simp [free c (List.mem_cons_self ..)]
    rw [GoText.pieces, if_neg plain]
    cases w with
    | nil => rfl
    | cons d w => rw [ih (fun e member => free e (List.mem_cons_of_mem c member)) (by simp)]

theorem pieces_padded {inRun : Bool} {w : List Char} {k : Nat} (rest : List Char)
    (free : ∀ c ∈ w, GoText.isSpace c = false) (filled : w ≠ []) (gap : 0 < k) :
    GoText.pieces inRun (w ++ (List.replicate k ' ' ++ rest)) = w :: GoText.pieces true rest := by
  obtain ⟨k, rfl⟩ := Nat.exists_eq_add_of_lt gap
  rw [Nat.zero_add, List.replicate_succ, List.cons_append, pieces_word _ free (Or.inr filled), pieces_spaces]

theorem pieces_glued {inRun : Bool} {w : List Char} {rest head : List Char} {tail : List (List Char)}
    (free : ∀ c ∈ w, GoText.isSpace c = false) (filled : w ≠ []) (after : GoText.pieces false rest = head :: tail) :
    GoText.pieces inRun (w ++ rest) = (w ++ head) :: tail := by
  induction w generalizing inRun with
  | nil => exact absurd rfl filled
  | cons c w ih =>
    have plain : ¬ GoText.isSpace c = true := by simp [free c (List.mem_cons_self ..)]
    rw [List.cons_append, GoText.pieces, if_neg plain]
    cases w with
    | nil =>
      rw [List.nil_append, after]
      rfl
    | cons d w =>
      rw [ih (fun e member => free e (List.mem_cons_of_mem c member)) (by simp)]
      rfl

theorem pieces_ne_nil (inRun : Bool) (cs : List Char) : GoText.pieces inRun cs ≠ [] := by
  fun_induction GoText.pieces inRun cs <;> simp_all

theorem length_le_bytes (cs : List Char) : cs.length ≤ (String.ofList cs).utf8ByteSize := by
  induction cs with
  | nil => exact Nat.zero_le _
  | cons c cs ih =>
    have one : 1 ≤ (String.ofList [c]).utf8ByteSize := by
      have size : (String.ofList [c]).utf8ByteSize = c.utf8Size := by simp
      rw [size]
      exact c.utf8Size_pos
    rw [← List.singleton_append, String.ofList_append, String.utf8ByteSize_append, List.length_append]
    exact Nat.add_le_add one ih

theorem bytes_le_length (cs : List Char) : (String.ofList cs).utf8ByteSize ≤ 4 * cs.length := by
  induction cs with
  | nil => exact Nat.zero_le _
  | cons c cs ih =>
    have size : (String.ofList [c]).utf8ByteSize = c.utf8Size := by simp
    have four := c.utf8Size_le_four
    rw [← List.singleton_append, String.ofList_append, String.utf8ByteSize_append, size, List.length_append,
      List.length_singleton]
    omega

theorem length_intercalate_le (words : List String) :
    (" ".intercalate words).length ≤ (words.map fun w => w.length + 1).sum := by
  induction words with
  | nil => simp
  | cons w words ih =>
    cases words with
    | nil => simp
    | cons v words =>
      have space : " ".length = 1 := rfl
      rw [String.intercalate_cons_cons, String.length_append, String.length_append, space, List.map_cons, List.sum_cons]
      omega

theorem prefix_append_cases {A : Type*} {p a b : List A} (cut : p <+: a ++ b) :
    p <+: a ∨ ∃ q, p = a ++ q ∧ q <+: b := by
  rcases List.prefix_or_prefix_of_prefix cut (List.prefix_append a b) with short | ⟨q, rfl⟩
  · exact Or.inl short
  · exact Or.inr ⟨q, rfl, (List.prefix_append_right_inj a).mp cut⟩

theorem pieces_prefix {inRun : Bool} {w q : List Char} (free : ∀ c ∈ w, GoText.isSpace c = false) (part : q <+: w) :
    GoText.pieces inRun q = [q] := by
  cases q with
  | nil => rfl
  | cons c q => exact pieces_last (fun d member => free d (part.subset member)) (by simp)

theorem pieces_cut {ws : List (List Char)} (plain : ∀ w ∈ ws, (∀ c ∈ w, GoText.isSpace c = false) ∧ w ≠ []) (some : ws ≠ [])
    {p : List Char} (cut : p <+: [' '].intercalate ws) (inRun : Bool) :
    ∃ k w part, ws[k]? = Option.some w ∧ part <+: w ∧ GoText.pieces inRun p = ws.take k ++ [part] := by
  induction ws generalizing p inRun with
  | nil => exact absurd rfl some
  | cons w ws ih =>
    obtain ⟨free, filled⟩ := plain w (by simp)
    cases ws with
    | nil =>
      have whole : p <+: w := by simpa using cut
      exact ⟨0, w, p, rfl, whole, pieces_prefix free whole⟩
    | cons v ws =>
      have joined : [' '].intercalate (w :: v :: ws) = w ++ (' ' :: [' '].intercalate (v :: ws)) := by
        simp [List.intercalate]
      rw [joined] at cut
      rcases prefix_append_cases cut with short | ⟨q, rfl, more⟩
      · exact ⟨0, w, p, rfl, short, pieces_prefix free short⟩
      · cases q with
        | nil =>
          rw [List.append_nil]
          exact ⟨0, w, w, rfl, List.prefix_refl w, pieces_prefix free (List.prefix_refl w)⟩
        | cons c q =>
          obtain ⟨rfl, later⟩ := List.cons_prefix_cons.mp more
          obtain ⟨k, u, part, here, begins, split⟩ := ih (fun u member => plain u (by simp [member])) (by simp) later true
          refine ⟨k + 1, u, part, here, begins, ?_⟩
          rw [pieces_word q free (Or.inr filled), split]
          rfl

end TextFields
