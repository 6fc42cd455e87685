import Mathlib.Data.List.Induction
import Mathlib.Logic.Function.Basic
import SepExtract.ChannelPipeline
import SepExtract.NumberTexts

/- resolve.go: the symbols of System.map, the words of a trace line that are addresses, and the
   columns printed. The three goroutines are the stages of a pipeline with channels of 1000. -/
namespace Resolve
open GoText NumberTexts

def maxDist : Nat := 16384

/-- strings.Split at single spaces. -/
def splitSpace (s : String) : List String := (s.toList.splitOn ' ').map String.ofList

/-- The underscores ParseInt admits in base 0: one between two digits, or after the 0x. -/
def underscoreOK : Bool → List Char → Bool
  | before, [] => before
  | before, c :: rest => if c = '_' then before && underscoreOK false rest else underscoreOK true rest

def parseHex (word : String) : Option Int :=
  if word = "" ∨ underscoreOK true word.toList = false then none
  else ((digits 16 0 (word.toList.filter (· ≠ '_'))).map Int.ofNat).filter (· ≤ maxInt64)

/-- A line of System.map: an address that does not parse ends the program, a line of fewer than
    three fields makes it panic. -/
def readSymbol (line : String) : Option (Int × String) :=
  match splitSpace line with
  | address :: _ :: name :: _ => (parseHex address).map fun d => (d, name)
  | _ => none

abbrev Table := Int → Option String

def Table.put (table : Table) (symbol : Int × String) : Table := Function.update table symbol.1 (some symbol.2)

def loadSymbols (systemMap : List String) : Option Table :=
  (scannedLines systemMap).foldlM (fun table line => (readSymbol line).map (Table.put table)) fun _ => none

/-- The loop over the distances, with the number of them that are left. -/
def search (table : Table) (address : Int) : Nat → Nat → Option (String × Nat)
  | _, 0 => none
  | offset, left + 1 =>
    match table (address - offset) with
    | some res => some (res, offset)
    | none => search table address (offset + 1) left

def symbolText (symbol : String) (offset : Nat) : String :=
  if offset = 0 then symbol else symbol ++ "+" ++ numeral 16 offset

def resolveWord (table cache : Table) (word : String) : String × Table :=
  if word.utf8ByteSize ≠ 8 then (word, cache)
  else
    match parseHex word with
    | none => (word, cache)
    | some address =>
      let found :=
        match cache address with
        | some v => (v, 0, cache)
        | none =>
          let hit := (search table address 0 maxDist).getD ("", maxDist)
          (hit.1, hit.2, Function.update cache address (some ""))
      if found.1 ≠ "" then
        let text := symbolText found.1 found.2.1
        (text, Function.update found.2.2 address (some text))
      else (word, found.2.2)

def resolveWords (table : Table) : Table → List String → List String × Table
  | cache, [] => ([], cache)
  | cache, word :: rest =>
    let first := resolveWord table cache word
    let others := resolveWords table first.2 rest
    (first.1 :: others.1, others.2)

def widths : List Nat := [13, 3, 6, 13, 25, 6, 9, 30, 30]

/-- Printf with a minus: the width counts characters. -/
def leftAligned (width : Nat) (s : String) : String := s ++ String.ofList (List.replicate (width - s.length) ' ')

/-- The line printed; a tenth word has no width, and indexing for it panics. -/
def render : List Nat → List String → Option String
  | _, [] => some ""
  | widths, s :: rest =>
    if s = "" then render widths rest
    else
      match widths with
      | [] => none
      | width :: more => (render more rest).map (leftAligned width s ++ ·)

def stages (table : Table) : ChannelPipeline.Stages Table String (List String) String where
  capacity := 1000
  transform cache line := resolveWords table cache (splitSpace line)
  emit := render widths

def start (file : List String) : ChannelPipeline.Net Table String (List String) String :=
  .initial (fun _ => none) (scannedLines file)

def translate (table : Table) (word : String) : String :=
  if word.utf8ByteSize ≠ 8 then word
  else
    match (parseHex word).bind fun address => search table address 0 maxDist with
    | none => word
    | some (symbol, offset) => symbolText symbol offset

def resolvedLine (table : Table) (line : String) : Option String :=
  render widths ((splitSpace line).map (translate table))

def Listed (symbols : List (Int × String)) (s : Int) (name : String) : Prop :=
  ∃ before after, symbols = before ++ (s, name) :: after ∧ ∀ p ∈ after, p.1 ≠ s

/-- The symbol below an address, less than MAX_DIST away from it and the nearest one. -/
structure Nearest (symbols : List (Int × String)) (a s : Int) (name : String) : Prop where
  listed : Listed symbols s name
  below : s ≤ a
  near : a - s < 16384
  greatest : ∀ s' name', Listed symbols s' name' → s' ≤ a → s' ≤ s

def Replacement (symbols : List (Int × String)) (word text : String) : Prop :=
  match (if word.utf8ByteSize = 8 then parseHex word else none) with
  | none => text = word
  | some a =>
    (∃ s name, Nearest symbols a s name ∧ text = name ++ (if a = s then "" else "+" ++ numeral 16 (a - s).toNat)) ∨
      (¬ ∃ s name, Listed symbols s name ∧ s ≤ a ∧ a - s < 16384) ∧ text = word

section Tables
variable {symbols : List (Int × String)} {table : Table}

theorem listed_snoc (symbols : List (Int × String)) (p : Int × String) (s : Int) (name : String) :
    Listed (symbols ++ [p]) s name ↔ if p.1 = s then p.2 = name else Listed symbols s name := by
  split
  · rename_i here
    constructor
    · rintro ⟨before, after, eq, apart⟩
      rcases List.eq_nil_or_concat after with rfl | ⟨rest, last, rfl⟩
      · obtain ⟨_, same⟩ := List.append_inj' eq rfl
        exact congrArg Prod.snd (List.singleton_inj.mp same)
      · rw [List.concat_eq_append, ← List.cons_append, ← List.append_assoc] at eq
        obtain ⟨_, same⟩ := List.append_inj' eq rfl
        exact absurd (List.singleton_inj.mp same ▸ here) (apart last (by simp))
    · rintro rfl
      exact ⟨symbols, [], by rw [← here], by simp⟩
  · rename_i other
    constructor
    · rintro ⟨before, after, eq, apart⟩
      rcases List.eq_nil_or_concat after with rfl | ⟨rest, last, rfl⟩
      · obtain ⟨_, same⟩ := List.append_inj' eq rfl
        exact absurd (congrArg Prod.fst (List.singleton_inj.mp same)) other
      · rw [List.concat_eq_append, ← List.cons_append, ← List.append_assoc] at eq
        obtain ⟨front, _⟩ := List.append_inj' eq rfl
        exact ⟨before, rest, front, fun q member => apart q (by simp [member])⟩
    · rintro ⟨before, after, rfl, apart⟩
      refine ⟨before, after ++ [p], by simp, fun q member => ?_⟩
      rcases List.mem_append.mp member with inside | last
      · exact apart q inside
      · exact List.mem_singleton.mp last ▸ other

theorem table_listed (symbols : List (Int × String)) (s : Int) (name : String) :
    symbols.foldl Table.put (fun _ => none) s = some name ↔
      Listed symbols s name := by
  induction symbols using List.reverseRecOn with
  | nil => simp [Listed]
  | append_singleton symbols p ih =>
    rw [List.foldl_append, List.foldl_cons, List.foldl_nil, listed_snoc, ← ih, Table.put]
    split
    · rename_i here
      rw [here, Function.update_self, Option.some.injEq]
    · rename_i other
      rw [Function.update_of_ne (Ne.symm other)]

theorem load_symbols {systemMap : List String} (read : (scannedLines systemMap).mapM readSymbol = some symbols) :
    loadSymbols systemMap = some (symbols.foldl Table.put fun _ => none) := by
  unfold loadSymbols
  generalize scannedLines systemMap = lines at read
  have step : ∀ table : Table, lines.foldlM (fun table line => (readSymbol line).map (Table.put table)) table =
      some (symbols.foldl Table.put table) := by
    induction lines generalizing symbols with
    | nil =>
      intro table
      obtain rfl : symbols = [] := by simpa using read.symm
      rfl
    | cons line rest ih =>
      intro table
      rw [List.mapM_cons] at read
      simp only [Option.bind_eq_bind, Option.bind_eq_some_iff, Option.pure_def, Option.some.injEq] at read
      obtain ⟨s, first, others, later, rfl⟩ := read
      rw [List.foldlM_cons, first]
      exact ih later _
  exact step _

theorem search_some {address : Int} {offset left found : Nat} {symbol : String}
    (hit : search table address offset left = some (symbol, found)) :
    offset ≤ found ∧ found < offset + left ∧ table (address - found) = some symbol ∧
      ∀ closer, offset ≤ closer → closer < found → table (address - closer) = none := by
  induction left generalizing offset with
  | zero => cases hit
  | succ left ih =>
    simp only [search] at hit
    split at hit
    · rename_i res here
      obtain ⟨rfl, rfl⟩ := Prod.mk.inj (Option.some.inj hit)
      exact ⟨Nat.le_refl _, by omega, here, fun closer above below => by omega⟩
    · rename_i none
      obtain ⟨above, below, there, closest⟩ := ih hit
      refine ⟨by omega, by omega, there, fun closer above below => ?_⟩
      rcases Nat.eq_or_lt_of_le above with rfl | above
      · exact none
      · exact closest closer above below

theorem search_none {address : Int} {offset left : Nat} (miss : search table address offset left = none) :
    ∀ distance, offset ≤ distance → distance < offset + left → table (address - distance) = none := by
  induction left generalizing offset with
  | zero =>
    intro distance above below
    omega
  | succ left ih =>
    simp only [search] at miss
    split at miss
    · cases miss
    · rename_i none
      intro distance above below
      rcases Nat.eq_or_lt_of_le above with rfl | above
      · exact none
      · exact ih miss distance above (by omega)

theorem translate_replaces (correct : ∀ s name, table s = some name ↔ Listed symbols s name) (word : String) :
    Replacement symbols word (translate table word) := by
  unfold Replacement translate
  by_cases eight : word.utf8ByteSize = 8
  · rw [if_pos eight, if_neg (by simpa using eight)]
    cases number : parseHex word with
    | none => rfl
    | some a =>
      dsimp only [Option.bind_some]
      cases hit : search table a 0 maxDist with
      | none =>
        refine Or.inr ⟨?_, rfl⟩
        rintro ⟨s, name, listed, below, near⟩
        have empty := search_none hit (a - s).toNat (by omega) (by unfold maxDist; omega)
        have same : a - ((a - s).toNat : Int) = s := by omega
        rw [same, (correct s name).mpr listed] at empty
        cases empty
      | some found =>
        obtain ⟨symbol, offset⟩ := found
        obtain ⟨_, bound, here, closest⟩ := search_some hit
        unfold maxDist at bound
        refine Or.inl ⟨a - offset, symbol, ⟨(correct _ _).mp here, by omega, by omega, ?_⟩, ?_⟩
        · intro s' name' listed below
          by_contra above
          have empty := closest (a - s').toNat (by omega) (by omega)
          have same : a - ((a - s').toNat : Int) = s' := by omega
          rw [same, (correct s' name').mpr listed] at empty
          cases empty
        · have distance : (a - (a - (offset : Int))).toNat = offset := by omega
          dsimp only
          rw [distance]
          unfold symbolText
          by_cases zero : offset = 0
          · rw [if_pos zero, if_pos (by omega), String.append_empty]
          · rw [if_neg zero, if_neg (by omega), String.append_assoc]
  · rw [if_neg eight, if_pos (by simpa using eight)]

end Tables

section Cache
variable {table : Table}

def Named (table : Table) : Prop := ∀ s name, table s = some name → name ≠ ""

def Coherent (table cache : Table) : Prop := ∀ a v, cache a = some v →
  v = match search table a 0 maxDist with
    | none => ""
    | some (symbol, offset) => symbolText symbol offset

theorem symbol_text_ne_empty {symbol : String} (filled : symbol ≠ "") (offset : Nat) : symbolText symbol offset ≠ "" := by
  unfold symbolText
  split
  · exact filled
  · intro empty
    have size := congrArg String.length empty
    simp only [String.length_append] at size
    have plus : "+".length = 1 := rfl
    have zero : "".length = 0 := rfl
    omega

theorem coherent_update {cache : Table} {a : Int} {v : String} (coherent : Coherent table cache)
    (right : v = match search table a 0 maxDist with
      | none => ""
      | some (symbol, offset) => symbolText symbol offset) : Coherent table (Function.update cache a (some v)) := by
  intro b w stored
  by_cases here : b = a
  · subst here
    rw [Function.update_self] at stored
    exact Option.some.inj stored ▸ right
  · rw [Function.update_of_ne here] at stored
    exact coherent b w stored

theorem resolve_word {cache : Table} (named : Named table) (coherent : Coherent table cache) (word : String) :
    (resolveWord table cache word).1 = translate table word ∧ Coherent table (resolveWord table cache word).2 := by
  unfold resolveWord translate
  split
  · exact ⟨rfl, coherent⟩
  · cases parseHex word with
    | none => exact ⟨rfl, coherent⟩
    | some a =>
      dsimp only [Option.bind_some]
      have filled : ∀ symbol offset, search table a 0 maxDist = some (symbol, offset) → symbol ≠ "" :=
        fun symbol offset hit => named _ symbol (search_some hit).2.2.1
      cases stored : cache a with
      | some v =>
        have right := coherent a v stored
        dsimp only
        cases hit : search table a 0 maxDist with
        | none =>
          rw [hit] at right
          rw [if_neg (by simpa using right)]
          exact ⟨rfl, coherent⟩
        | some found =>
          obtain ⟨symbol, offset⟩ := found
          rw [hit] at right
          have text : v ≠ "" := right ▸ symbol_text_ne_empty (filled symbol offset hit) offset
          rw [if_pos text]
          have same : symbolText v 0 = v := rfl
          rw [same]
          exact ⟨right, coherent_update coherent (by rw [hit]; exact right)⟩
      | none =>
        dsimp only
        cases hit : search table a 0 maxDist with
        | none =>
          rw [Option.getD_none, if_neg (by simp)]
          exact ⟨rfl, coherent_update coherent (by rw [hit])⟩
        | some found =>
          obtain ⟨symbol, offset⟩ := found
          rw [Option.getD_some, if_pos (filled symbol offset hit), Function.update_idem]
          exact ⟨rfl, coherent_update coherent (by rw [hit])⟩

theorem resolve_words {cache : Table} (named : Named table) (coherent : Coherent table cache) (words : List String) :
    (resolveWords table cache words).1 = words.map (translate table) ∧
      Coherent table (resolveWords table cache words).2 := by
  induction words generalizing cache with
  | nil => exact ⟨rfl, coherent⟩
  | cons word rest ih =>
    obtain ⟨text, after⟩ := resolve_word named coherent word
    obtain ⟨others, last⟩ := ih after
    exact ⟨by simp only [resolveWords, text, others, List.map_cons], last⟩

theorem outputs_stages {cache : Table} (named : Named table) (coherent : Coherent table cache) (file : List String) :
    (stages table).outputs cache file = file.map fun line => (splitSpace line).map (translate table) := by
  induction file generalizing cache with
  | nil => rfl
  | cons line rest ih =>
    obtain ⟨words, after⟩ := resolve_words named coherent (splitSpace line)
    have others := ih after
    simp only [ChannelPipeline.Stages.outputs, List.map_cons]
    exact List.cons_eq_cons.mpr ⟨words, others⟩

theorem translate_eq_empty (named : Named table) (word : String) : translate table word = "" ↔ word = "" := by
  unfold translate
  split
  · exact Iff.rfl
  · rename_i eight
    have filled : word ≠ "" := by
      rintro rfl
      exact eight (by decide)
    split
    · exact Iff.rfl
    · rename_i symbol offset hit
      obtain ⟨a, _, hit⟩ := Option.bind_eq_some_iff.mp hit
      have text := symbol_text_ne_empty (named _ symbol (search_some hit).2.2.1) offset
      exact ⟨fun empty => absurd empty text, fun empty => absurd empty filled⟩

theorem render_some {widths : List Nat} {words : List String}
    (narrow : (words.filter (· ≠ "")).length ≤ widths.length) : (render widths words).isSome := by
  induction words generalizing widths with
  | nil => rfl
  | cons s rest ih =>
    simp only [render]
    split
    · rename_i empty
      exact ih (by simpa [empty] using narrow)
    · rename_i filled
      rw [List.filter_cons_of_pos (by simpa using filled)] at narrow
      cases widths with
      | nil => simp at narrow
      | cons width more =>
        rw [Option.isSome_map]
        exact ih (by simpa using narrow)

theorem resolved_line_some (named : Named table) {line : String}
    (narrow : ((splitSpace line).filter (· ≠ "")).length ≤ 9) : (resolvedLine table line).isSome := by
  refine render_some ?_
  have same : ∀ words : List String,
      ((words.map (translate table)).filter (· ≠ "")).length = (words.filter (· ≠ "")).length := by
    intro words
    rw [List.filter_map, List.length_map]
    congr 1
    refine List.filter_congr fun word _ => ?_
    simp [translate_eq_empty named]
  rw [same]
  exact narrow

end Cache

theorem map_some_of_isSome {A B : Type} {f : A → Option B} {l : List A} (defined : ∀ a ∈ l, (f a).isSome) :
    ∃ results : List B, l.map f = results.map some := by
  induction l with
  | nil => exact ⟨[], rfl⟩
  | cons a l ih =>
    obtain ⟨b, first⟩ := Option.isSome_iff_exists.mp (defined a (List.mem_cons_self ..))
    obtain ⟨results, rest⟩ := ih fun x member => defined x (List.mem_cons_of_mem a member)
    exact ⟨b :: results, by rw [List.map_cons, List.map_cons, first, rest]⟩

theorem schedule_resolved {table : Table} {file : List String} {acts : List ChannelPipeline.Action}
    {n : ChannelPipeline.Net Table String (List String) String} (named : Named table)
    (narrow : ∀ line ∈ scannedLines file, ((splitSpace line).filter (· ≠ "")).length ≤ 9)
    (reached : TransitionRuns.run (stages table).step (start file) acts = some n) :
    n.crashed = false ∧ acts.length ≤ 4 * (scannedLines file).length + 3 ∧
    ((∀ a, (stages table).step n a = none) → n.exited = true) ∧
    (n.exited = true → n.emitted.map some = (scannedLines file).map (resolvedLine table)) := by
  obtain ⟨results, shown⟩ := map_some_of_isSome fun line member => resolved_line_some named (narrow line member)
  have empty : Coherent table fun _ => none := fun a v stored => by cases stored
  have emits := outputs_stages named empty (scannedLines file)
  obtain ⟨running, bound, ends, order⟩ := ChannelPipeline.schedule (by decide : 0 < 1000)
    (by rw [emits, List.map_map]; exact shown) reached
  refine ⟨running, bound, ends, fun exited => ?_⟩
  rw [order exited]
  exact shown.symm

end Resolve
