import SepExtract.IntraOsPairing

/- A trace file that ends inside a line, as when usnl is killed. The programs see the complete
   lines and the beginning of the next one: some of its words, and a part of one word, which may
   be empty, or a shorter number. -/
namespace TruncatedTraces
open GoText TracerKernel NumberTexts TextFields UsnlTraceText
open DelayScripts.IntraOsDelay (Record cpu_text)

def Truncated (e : Sepentry) (fields : List String) : Prop :=
  ∃ k w last, (words e)[k]? = some w ∧ last.toList <+: w.toList ∧ fields = (words e).take k ++ [last]

theorem cut_fields {e : Sepentry} {cut : String} (traced : e.type ≠ .typeFirst)
    (part : cut.toList <+: (usnlLine e).toList) : Truncated e (splitWhitespace cut) := by
  have free := type_name_free e.type
  have filled : (typeName e.type).toList ≠ [] := by simpa using type_name_ne_empty traced
  have joined : (" ".intercalate (numbers e)).toList = [' '].intercalate ((numbers e).map String.toList) :=
    String.toList_intercalate
  rw [toList_line, ← List.singleton_append, ← List.append_assoc (List.replicate _ ' '), ← List.replicate_succ'] at part
  have at_type : ∀ p, p <+: (typeName e.type).toList → cut.toList = p → Truncated e (splitWhitespace cut) := by
    intro p short here
    refine ⟨0, _, cut, rfl, here ▸ short, ?_⟩
    rw [splitWhitespace, here, pieces_prefix free short, ← here]
    simp
  rcases prefix_append_cases part with short | ⟨q, here, rest⟩
  · exact at_type _ short rfl
  · rcases prefix_append_cases rest with gap | ⟨p, rfl, more⟩
    · obtain ⟨j, rfl⟩ : ∃ j, q = List.replicate j ' ' := ⟨_, (List.prefix_replicate_iff.mp gap).2⟩
      cases j with
      | zero => exact at_type _ (List.prefix_refl _) (by simpa using here)
      | succ j =>
        refine ⟨1, _, "", rfl, by simp, ?_⟩
        have split : pieces false ((typeName e.type).toList ++ (List.replicate (j + 1) ' ' ++ [])) = _ :=
          pieces_padded [] free filled (by omega)
        rw [List.append_nil] at split
        rw [splitWhitespace, here, split]
        simp [words, pieces]
    · rw [joined] at more
      have plain : ∀ w ∈ (numbers e).map String.toList, (∀ c ∈ w, isSpace c = false) ∧ w ≠ [] := by
        intro w member
        obtain ⟨u, here, rfl⟩ := List.mem_map.mp member
        exact ⟨numbers_free e u here, by simpa using numbers_ne_empty e u here⟩
      obtain ⟨k, w, last, found, begins, split⟩ := pieces_cut plain (by simp [numbers]) more true
      rw [List.getElem?_map, Option.map_eq_some_iff] at found
      obtain ⟨u, found, rfl⟩ := found
      refine ⟨k + 1, u, String.ofList last, found, by simpa using begins, ?_⟩
      rw [splitWhitespace, here, pieces_padded p free filled (by omega), split]
      simp [words, List.map_take]

/-- What usnl has written for some records. Its texts are ASCII, so characters are bytes. -/
def fileOf (records : List Record) : List Char := records.flatMap fun r => r.text.toList ++ ['\n']

/-- The tokens of bufio.ScanLines: an empty last line is none. -/
def scanLines (bytes : List Char) : List String :=
  let parts := bytes.splitOn '\n'
  ((if parts.getLast? = some [] then parts.dropLast else parts).map dropCR).map String.ofList

structure Cut (records complete : List Record) (next : Record) (cut : String) : Prop where
  order : complete ++ [next] <+: records
  begun : cut ≠ ""
  part : cut.toList <+: next.text.toList
  unfinished : cut ≠ next.text

theorem text_free (r : Record) : Free isBreak r.text := by
  cases r with
  | eod => decide
  | entry e => exact line_free e

theorem prefix_file {records : List Record} {bytes : List Char} (kept : bytes <+: fileOf records) :
    ∃ complete rest cut, records = complete ++ rest ∧ bytes = fileOf complete ++ cut ∧
      (cut = [] ∨ ∃ next more, rest = next :: more ∧ cut <+: next.text.toList) := by
  induction records generalizing bytes with
  | nil =>
    obtain rfl : bytes = [] := List.prefix_nil.mp kept
    exact ⟨[], [], [], rfl, rfl, Or.inl rfl⟩
  | cons r records ih =>
    have file : fileOf (r :: records) = r.text.toList ++ '\n' :: fileOf records := by simp [fileOf]
    rw [file] at kept
    rcases prefix_append_cases kept with short | ⟨q, rfl, rest⟩
    · exact ⟨[], r :: records, bytes, rfl, rfl, Or.inr ⟨r, records, rfl, short⟩⟩
    · cases q with
      | nil =>
        exact ⟨[], r :: records, r.text.toList, rfl, by simp [fileOf], Or.inr ⟨r, records, rfl, List.prefix_refl _⟩⟩
      | cons c q =>
        obtain ⟨rfl, later⟩ := List.cons_prefix_cons.mp rest
        obtain ⟨complete, others, cut, rfl, rfl, last⟩ := ih later
        exact ⟨r :: complete, others, cut, rfl, by simp [fileOf], last⟩

theorem scan_file (complete : List Record) {cut : List Char} (clean : ∀ c ∈ cut, isBreak c = false) :
    scanLines (fileOf complete ++ cut) =
      complete.map Record.text ++ if cut = [] then [] else [String.ofList cut] := by
  have lines : ∀ l ∈ complete.map (fun r => r.text.toList) ++ [cut], ∀ c ∈ l, isBreak c = false := by
    intro l member
    rcases List.mem_append.mp member with old | last
    · obtain ⟨r, _, rfl⟩ := List.mem_map.mp old
      exact text_free r
    · exact List.mem_singleton.mp last ▸ clean
  have joined : fileOf complete ++ cut = ['\n'].intercalate (complete.map (fun r => r.text.toList) ++ [cut]) := by
    clear lines
    induction complete with
    | nil => simp [fileOf]
    | cons r complete ih =>
      have next : ['\n'].intercalate (r.text.toList :: (complete.map (fun r => r.text.toList) ++ [cut])) =
          r.text.toList ++ '\n' :: ['\n'].intercalate (complete.map (fun r => r.text.toList) ++ [cut]) := by
        cases complete <;> simp [List.intercalate]
      rw [List.map_cons, List.cons_append, next, ← ih]
      simp [fileOf]
  have split : (fileOf complete ++ cut).splitOn '\n' = complete.map (fun r => r.text.toList) ++ [cut] := by
    rw [joined]
    refine List.splitOn_intercalate '\n' (fun l member inside => ?_) (by simp)
    have clean := lines l member '\n' inside
    revert clean
    decide
  have kept : ∀ l ∈ complete.map (fun r => r.text.toList) ++ [cut], dropCR l = l := by
    intro l member
    refine if_neg fun last => ?_
    have clean := lines l member '\r' (List.mem_of_getLast? last)
    revert clean
    decide
  unfold scanLines
  simp only [split, List.getLast?_concat, Option.some.injEq, List.dropLast_concat]
  split
  · next empty =>
    rw [List.map_congr_left (fun l member => kept l (by simp [member])), List.map_id']
    simp
  · next more =>
    rw [List.map_congr_left kept, List.map_id']
    simp

theorem prefix_lines {records : List Record} {bytes : List Char} (kept : bytes <+: fileOf records) :
    (∃ complete, complete <+: records ∧ scanLines bytes = complete.map Record.text) ∨
    ∃ complete next cut, Cut records complete next cut ∧ scanLines bytes = complete.map Record.text ++ [cut] := by
  obtain ⟨complete, rest, cut, rfl, rfl, last⟩ := prefix_file kept
  rcases last with rfl | ⟨next, more, rfl, begins⟩
  · refine Or.inl ⟨complete, List.prefix_append _ _, ?_⟩
    rw [scan_file complete (by simp)]
    simp
  · have scanned := scan_file complete fun c member => text_free next c (begins.subset member)
    by_cases empty : cut = []
    · refine Or.inl ⟨complete, List.prefix_append _ _, ?_⟩
      rw [scanned, if_pos empty, List.append_nil]
    · rw [if_neg empty] at scanned
      by_cases whole : String.ofList cut = next.text
      · refine Or.inl ⟨complete ++ [next], ⟨more, by simp⟩, ?_⟩
        rw [scanned, whole, List.map_append]
        rfl
      · refine Or.inr ⟨complete, next, _, ⟨⟨more, by simp⟩, by simpa using empty, by simpa using begins, whole⟩, scanned⟩

section Fields
variable {e : Sepentry} {fields : List String}

theorem truncated_length (cut : Truncated e fields) : 1 ≤ fields.length ∧ fields.length ≤ 9 := by
  obtain ⟨k, w, last, found, _, rfl⟩ := cut
  have inside := (List.getElem?_eq_some_iff.mp found).1
  have nine : (words e).length = 9 := rfl
  rw [List.length_append, List.length_take, List.length_singleton]
  omega

theorem truncated_field (cut : Truncated e fields) {j : Nat} (before : j + 1 < fields.length) :
    fields[j]? = (words e)[j]? := by
  obtain ⟨k, w, last, found, _, rfl⟩ := cut
  have inside := (List.getElem?_eq_some_iff.mp found).1
  rw [List.length_append, List.length_take, List.length_singleton] at before
  rw [List.getElem?_append_left (by rw [List.length_take]; omega), List.getElem?_take_of_lt (by omega)]

theorem truncated_last (cut : Truncated e fields) {j : Nat} (here : fields.length = j + 1) :
    ∃ w last, (words e)[j]? = some w ∧ fields[j]? = some last ∧ last.toList <+: w.toList := by
  obtain ⟨k, w, last, found, begins, rfl⟩ := cut
  have inside := (List.getElem?_eq_some_iff.mp found).1
  rw [List.length_append, List.length_take, List.length_singleton] at here
  obtain rfl : k = j := by omega
  refine ⟨w, last, found, ?_, begins⟩
  rw [List.getElem?_append_right (by rw [List.length_take]; omega), List.length_take, Nat.min_eq_left (by omega),
    Nat.sub_self]
  rfl

theorem truncated_head (cut : Truncated e fields) (more : 2 ≤ fields.length) :
    fields.head? = some (typeName e.type) := by
  rw [List.head?_eq_getElem?, truncated_field cut (by omega)]
  rfl

theorem head_not_eod (cut : Truncated e fields) : fields.head? ≠ some "EOD" := by
  intro eod
  rcases Nat.lt_or_ge fields.length 2 with one | more
  · obtain ⟨w, last, found, here, begins⟩ := truncated_last cut (j := 0) (by have := truncated_length cut; omega)
    rw [← List.head?_eq_getElem?, eod] at here
    obtain rfl := Option.some.inj here
    obtain rfl := Option.some.inj found
    revert begins
    cases e.type <;> decide
  · rw [truncated_head cut more] at eod
    exact DelayScripts.IntraOsDelay.type_name_eod e.type (Option.some.inj eod)

theorem parse_cut {base n : Nat} {last : String} (lower : 1 < base) (upper : base ≤ 16) (small : n < 2 ^ 32)
    (begins : last.toList <+: (numeral base n).toList) :
    (last = "" ∧ parseInt base last = none) ∨
      (last ≠ "" ∧ ∃ m : Nat, parseInt base last = some (m : Int) ∧ (m = 0 ↔ n = 0)) := by
  by_cases empty : last = ""
  · exact Or.inl ⟨empty, by rw [empty]; rfl⟩
  · obtain ⟨m, le, rfl, zero⟩ := prefix_numeral lower begins empty
    exact Or.inr ⟨empty, m, parse_numeral lower upper (by omega), zero⟩

theorem reading_cut (cut : Truncated e fields) :
    ((fields.length < 3 ∨ e.cpu ≠ 0) ∧ DelayScripts.reading fields = .ignored) ∨
    (e.cpu = 0 ∧ fields.length = 3 ∧ DelayScripts.reading fields = .panics) ∨
    (e.cpu = 0 ∧ fields.length = 4 ∧ fields[3]? = some "" ∧ DelayScripts.reading fields = .unreadable) ∨
    (e.cpu = 0 ∧ 4 ≤ fields.length ∧ fields[3]? ≠ some "" ∧ ∃ cyc, DelayScripts.reading fields = .cycles cyc) := by
  unfold DelayScripts.reading
  rw [if_neg (head_not_eod cut)]
  by_cases short : fields.length < 3
  · rw [if_pos short]
    exact Or.inl ⟨Or.inl short, rfl⟩
  · have cpu : fields[1]? = some (numeral 10 e.cpu.toNat) := truncated_field cut (by omega)
    rw [if_neg short, cpu]
    by_cases core : e.cpu = 0
    · have zero := (cpu_text e).mpr core
      rw [if_neg (by simp [zero])]
      have small : e.cycles.toNat < 2 ^ 32 := e.cycles.toNat_lt
      rcases Nat.lt_or_ge fields.length 4 with three | four
      · refine Or.inr (Or.inl ⟨core, by omega, ?_⟩)
        rw [List.getElem?_eq_none (by omega)]
      · refine Or.inr (Or.inr ?_)
        rcases Nat.eq_or_lt_of_le four with exact_four | five
        · obtain ⟨w, last, found, here, begins⟩ := truncated_last cut (j := 3) exact_four.symm
          obtain rfl := Option.some.inj found
          rw [here]
          rcases parse_cut (by decide) (by decide) small begins with ⟨rfl, unread⟩ | ⟨filled, m, read, _⟩
          · exact Or.inl ⟨core, exact_four.symm, rfl, by simp [atoi, unread]⟩
          · exact Or.inr ⟨core, four, by simpa using filled, m, by simp [atoi, read]⟩
        · have here : fields[3]? = some (numeral 10 e.cycles.toNat) := truncated_field cut (by omega)
          have read : parseInt 10 (numeral 10 e.cycles.toNat) = some (e.cycles.toNat : Int) :=
            parse_numeral (by decide) (by decide) (by omega)
          rw [here]
          exact Or.inr ⟨core, four, by simp [numeral_ne_empty], e.cycles.toNat, by simp [atoi, read]⟩
    · have other : numeral 10 e.cpu.toNat ≠ "0" := fun text => core ((cpu_text e).mp text)
      rw [if_pos (by simpa using other)]
      exact Or.inl ⟨Or.inr core, rfl⟩

theorem extract_cut (cut : Truncated e fields) :
    (fields.length ≤ 5 ∧ DelayScripts.extract fields = .panics) ∨
    (fields.length = 6 ∧ fields[5]? = some "" ∧ DelayScripts.extract fields = .unreadable) ∨
    (fields.length = 6 ∧ fields[5]? ≠ some "" ∧ DelayScripts.extract fields = .panics) ∨
    (fields.length = 7 ∧ fields[6]? = some "" ∧ DelayScripts.extract fields = .unreadable) ∨
    (7 ≤ fields.length ∧ fields[6]? ≠ some "" ∧ ∃ seqno : Nat,
      DelayScripts.extract fields = .packet ((e.pid2.toNat % 65536 : Nat) : Int) seqno ∧ (seqno = 0 ↔ e.data.toNat = 0)) := by
  have event : parseInt 10 (numeral 10 (e.pid2.toNat % 65536)) = some ((e.pid2.toNat % 65536 : Nat) : Int) :=
    parse_numeral (by decide) (by decide) (by omega)
  have small : e.data.toNat < 2 ^ 32 := e.data.toNat_lt
  unfold DelayScripts.extract
  rcases Nat.lt_or_ge fields.length 6 with five | six
  · refine Or.inl ⟨by omega, ?_⟩
    rw [List.getElem?_eq_none (by omega)]
  · refine Or.inr ?_
    rcases Nat.eq_or_lt_of_le six with exact_six | seven
    · obtain ⟨w, last, found, here, begins⟩ := truncated_last cut (j := 5) exact_six.symm
      obtain rfl := Option.some.inj found
      rw [here, List.getElem?_eq_none (by omega)]
      rcases parse_cut (by decide) (by decide) (by omega) begins with ⟨rfl, unread⟩ | ⟨filled, m, read, _⟩
      · exact Or.inl ⟨exact_six.symm, rfl, by simp [unread]⟩
      · exact Or.inr (Or.inl ⟨exact_six.symm, by simpa using filled, by simp [read]⟩)
    · refine Or.inr (Or.inr ?_)
      have here : fields[5]? = some (numeral 10 (e.pid2.toNat % 65536)) := truncated_field cut (by omega)
      simp only [here, event]
      rcases Nat.eq_or_lt_of_le seven with exact_seven | eight
      · obtain ⟨w, last, found, here, begins⟩ := truncated_last cut (j := 6) exact_seven.symm
        obtain rfl := Option.some.inj found
        rw [here]
        rcases parse_cut (by decide) (by decide) small begins with ⟨rfl, unread⟩ | ⟨filled, m, read, zero⟩
        · exact Or.inl ⟨exact_seven.symm, rfl, by simp [unread]⟩
        · exact Or.inr ⟨seven, by simpa using filled, m, by simp [read], zero⟩
      · have here : fields[6]? = some (numeral 16 e.data.toNat) := truncated_field cut (by omega)
        have read : parseInt 16 (numeral 16 e.data.toNat) = some (e.data.toNat : Int) :=
          parse_numeral (by decide) (by decide) (by omega)
        rw [here]
        exact Or.inr ⟨seven, by simp [numeral_ne_empty], e.data.toNat, by simp [read], Iff.rfl⟩

end Fields

end TruncatedTraces
