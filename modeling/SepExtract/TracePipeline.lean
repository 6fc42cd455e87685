import SepExtract.SymbolResolution
import SepExtract.UsnlTraceText

/- A trace on its way from usnl.c through resolve.go to the split of analyse.go: what the nine
   columns of a line hold in the end. -/
namespace TracePipeline
open GoText NumberTexts TextFields Resolve TracerKernel UsnlTraceText

/-- The symbols of a kernel: high addresses, and names that are words. -/
def KernelSymbols (table : Table) : Prop :=
  ∀ s name, table s = some name → 0xc0000000 ≤ s ∧ name ≠ "" ∧ Free isSpace name

def columns (table : Table) (e : Sepentry) : List String :=
  [typeName e.type, numeral 10 e.cpu.toNat, numeral 10 e.currpid.toNat, numeral 10 e.cycles.toNat,
   numeral 10 e.pid1.toNat, numeral 10 e.pid2.toNat, numeral 16 e.data.toNat,
   translate table (numeral 16 e.addr.toNat), translate table (numeral 16 e.location.toNat)]

structure Traced (e : Sepentry) : Prop where
  type : e.type ≠ .typeFirst
  cpu : e.cpu.toNat < 2
  pid1 : e.pid1.toNat < 65536
  pid2 : e.pid2.toNat < 65536

section Words
variable {table : Table}

theorem digits_decimal {cs : List Char} {n a : Nat} (decimal : ∀ c ∈ cs, ∃ d < 10, c = Nat.digitChar d)
    (read : digits 16 n cs = some a) : 15 * a + 9 ≤ (15 * n + 9) * 16 ^ cs.length := by
  induction cs generalizing n with
  | nil =>
    obtain rfl := Option.some.inj read
    simp
  | cons c cs ih =>
    obtain ⟨d, small, rfl⟩ := decimal c (List.mem_cons_self ..)
    have value : digits 16 n (d.digitChar :: cs) = digits 16 (n * 16 + d) cs := by
      simp [digits, digit_digitChar (by omega : d < 16), (by omega : d < 16)]
    rw [value] at read
    have later := ih (fun x member => decimal x (List.mem_cons_of_mem _ member)) read
    calc 15 * a + 9 ≤ (15 * (n * 16 + d) + 9) * 16 ^ cs.length := later
      _ ≤ ((15 * n + 9) * 16) * 16 ^ cs.length := Nat.mul_le_mul_right _ (by omega)
      _ = (15 * n + 9) * 16 ^ (cs.length + 1) := by rw [Nat.pow_succ', Nat.mul_assoc]

theorem translate_low (symbols : KernelSymbols table) {word : String}
    (low : word.utf8ByteSize = 8 → ∀ a, parseHex word = some a → a < 0xc0000000) : translate table word = word := by
  unfold Resolve.translate
  split
  · rfl
  · rename_i eight
    split
    · rfl
    · rename_i symbol offset hit
      obtain ⟨a, number, hit⟩ := Option.bind_eq_some_iff.mp hit
      have below := low (by simpa using eight) a number
      have high := (symbols _ symbol (search_some hit).2.2.1).1
      omega

theorem translate_typeName (symbols : KernelSymbols table) (t : SepentryType) :
    translate table (typeName t) = typeName t := by
  refine translate_low symbols fun eight a number => ?_
  have none : (typeName t).utf8ByteSize = 8 → parseHex (typeName t) = none := by
    cases t <;> decide
  rw [none eight] at number
  cases number

theorem translate_decimal (symbols : KernelSymbols table) (n : Nat) :
    translate table (numeral 10 n) = numeral 10 n := by
  refine translate_low symbols fun eight a number => ?_
  have decimal : ∀ c ∈ Nat.toDigits 10 n, ∃ d < 10, c = Nat.digitChar d :=
    toDigits_digits (by decide) (by decide) n
  have short : (Nat.toDigits 10 n).length ≤ 8 := eight ▸ length_le_bytes _
  have plain : (Nat.toDigits 10 n).filter (· ≠ '_') = Nat.toDigits 10 n := by
    refine List.filter_eq_self.mpr fun c member => ?_
    obtain ⟨d, small, rfl⟩ := decimal c member
    simp
  simp only [parseHex, toList_numeral, plain, Option.ite_none_left_eq_some, Option.filter_eq_some_iff,
    Option.map_eq_some_iff] at number
  obtain ⟨_, ⟨m, read, rfl⟩, _⟩ := number
  have bound := digits_decimal decimal read
  have power : 16 ^ (Nat.toDigits 10 n).length ≤ 16 ^ 8 := Nat.pow_le_pow_right (by decide) short
  have small : m < 0xc0000000 := by omega
  exact Int.ofNat_lt.mpr small

theorem translate_ne_empty (symbols : KernelSymbols table) {word : String} (filled : word ≠ "") :
    translate table word ≠ "" :=
  fun empty => filled ((translate_eq_empty (fun s name stored => (symbols s name stored).2.1) word).mp empty)

theorem translate_free (symbols : KernelSymbols table) {word : String} (free : Free isSpace word) :
    Free isSpace (translate table word) := by
  unfold Resolve.translate
  split
  · exact free
  · split
    · exact free
    · rename_i symbol offset hit
      obtain ⟨a, _, hit⟩ := Option.bind_eq_some_iff.mp hit
      have name := (symbols _ symbol (search_some hit).2.2.1).2.2
      unfold symbolText
      split
      · exact name
      · rw [free_append, free_append]
        exact ⟨⟨name, by decide⟩, free_numeral (by decide) (by decide) (by decide) offset⟩

theorem render_skip (widths : List Nat) (k : Nat) (rest : List String) :
    render widths (List.replicate k "" ++ rest) = render widths rest := by
  induction k with
  | zero => rfl
  | succ k ih => simpa [List.replicate_succ, render] using ih

theorem render_words {widths : List Nat} {words : List String} (same : widths.length = words.length)
    (filled : ∀ w ∈ words, w ≠ "") :
    render widths words = some ((List.zipWith leftAligned widths words).foldr (· ++ ·) "") := by
  induction words generalizing widths with
  | nil =>
    cases widths with
    | nil => rfl
    | cons width more => simp at same
  | cons w words ih =>
    cases widths with
    | nil => simp at same
    | cons width more =>
      rw [render, if_neg (filled w (List.mem_cons_self ..))]
      rw [ih (by simpa using same) fun v member => filled v (List.mem_cons_of_mem w member)]
      rfl

def translated (table : Table) (e : Sepentry) : List String :=
  [typeName e.type, numeral 10 e.cpu.toNat, numeral 10 e.currpid.toNat, numeral 10 e.cycles.toNat,
   numeral 10 (e.pid1.toNat % 65536), numeral 10 (e.pid2.toNat % 65536), translate table (numeral 16 e.data.toNat),
   translate table (numeral 16 e.addr.toNat), translate table (numeral 16 e.location.toNat)]

theorem resolved_line (symbols : KernelSymbols table) {e : Sepentry} (traced : e.type ≠ .typeFirst) :
    resolvedLine table (usnlLine e) = some ((List.zipWith leftAligned widths (translated table e)).foldr (· ++ ·) "") := by
  have empty : translate table "" = "" := by
    unfold Resolve.translate
    exact if_pos (by decide)
  have split : (splitSpace (usnlLine e)).map (translate table) =
      typeName e.type :: (List.replicate (typePadding e.type) "" ++ (translated table e).tail) := by
    have decimal := translate_decimal symbols
    rw [splitSpace, splitOn_line]
    simp only [List.map_cons, List.map_append, List.map_replicate, List.map_map, String.ofList_toList,
      translate_typeName symbols, Function.comp_def, List.map_id']
    have none : String.ofList [] = "" := rfl
    rw [none, empty]
    simp [numbers, translated, decimal]
  have filled : ∀ w ∈ translated table e, w ≠ "" := by
    have hex := fun n => translate_ne_empty symbols (numeral_ne_empty 16 n)
    simp [translated, hex, numeral_ne_empty, type_name_ne_empty traced]
  have skip : render widths (typeName e.type :: (List.replicate (typePadding e.type) "" ++ (translated table e).tail)) =
      render widths (translated table e) := by
    have first := type_name_ne_empty traced
    simp only [widths, translated, List.tail_cons, render, first, if_false, render_skip]
  rw [resolvedLine, split, skip]
  exact render_words rfl filled

theorem pieces_column {inRun : Bool} {width : Nat} {w rest : String} (free : Free isSpace w) (filled : w ≠ "")
    (fits : w.length < width) :
    pieces inRun (leftAligned width w ++ rest).toList = w.toList :: pieces true rest.toList := by
  rw [leftAligned, String.toList_append, String.toList_append, String.toList_ofList, List.append_assoc]
  exact pieces_padded _ free (by simpa using filled) (by omega)

theorem column_full {width : Nat} {w : String} (fills : width ≤ w.length) : leftAligned width w = w := by
  rw [leftAligned, Nat.sub_eq_zero_of_le fills]
  exact String.append_empty

/-- The last three columns hold the number of the packet, the service and the location exactly
    when the number was not replaced and the service leaves room for a space. -/
theorem last_columns {number packet service location : String} (short : number.length ≤ 8)
    (packetFree : Free isSpace packet) (packetFilled : packet ≠ "") (serviceFree : Free isSpace service)
    (serviceFilled : service ≠ "") (locationFree : Free isSpace location) (locationFilled : location ≠ "") :
    (pieces true (leftAligned 9 packet ++ (leftAligned 30 service ++ (leftAligned 30 location ++ ""))).toList).take 3 =
      [number.toList, service.toList, location.toList] ↔ packet = number ∧ service.length < 30 := by
  have lastColumn : ∀ inRun, ∃ tail, pieces inRun (leftAligned 30 location ++ "").toList = location.toList :: tail := by
    intro inRun
    by_cases fits : location.length < 30
    · exact ⟨_, pieces_column locationFree locationFilled fits⟩
    · refine ⟨[], ?_⟩
      rw [column_full (by omega), String.append_empty]
      exact pieces_last locationFree (by simpa using locationFilled)
  by_cases packetFits : packet.length < 9
  · rw [pieces_column packetFree packetFilled packetFits]
    by_cases serviceFits : service.length < 30
    · obtain ⟨tail, last⟩ := lastColumn true
      rw [pieces_column serviceFree serviceFilled serviceFits, last]
      simp [serviceFits, String.toList_inj]
    · obtain ⟨tail, last⟩ := lastColumn false
      rw [column_full (by omega), String.toList_append,
        pieces_glued serviceFree (by simpa using serviceFilled) last]
      simp [serviceFits, locationFilled]
  · obtain ⟨head, tail, after⟩ := List.exists_cons_of_ne_nil
      (pieces_ne_nil false (leftAligned 30 service ++ (leftAligned 30 location ++ "")).toList)
    rw [column_full (by omega), String.toList_append, pieces_glued packetFree (by simpa using packetFilled) after]
    constructor
    · intro same
      have first := (List.cons_eq_cons.mp same).1
      have size := congrArg List.length first
      rw [List.length_append, String.length_toList, String.length_toList] at size
      omega
    · rintro ⟨rfl, _⟩
      omega

theorem first_columns {e : Sepentry} (traced : Traced e) (rest : String) :
    pieces false (leftAligned 13 (typeName e.type) ++ (leftAligned 3 (numeral 10 e.cpu.toNat) ++
      (leftAligned 6 (numeral 10 e.currpid.toNat) ++ (leftAligned 13 (numeral 10 e.cycles.toNat) ++
        (leftAligned 25 (numeral 10 (e.pid1.toNat % 65536)) ++
          (leftAligned 6 (numeral 10 (e.pid2.toNat % 65536)) ++ rest)))))).toList =
      (typeName e.type).toList :: (numeral 10 e.cpu.toNat).toList :: (numeral 10 e.currpid.toNat).toList ::
        (numeral 10 e.cycles.toNat).toList :: (numeral 10 (e.pid1.toNat % 65536)).toList ::
          (numeral 10 (e.pid2.toNat % 65536)).toList :: pieces true rest.toList := by
  have free : ∀ n, Free isSpace (numeral 10 n) := free_numeral (by decide) (by decide) (by decide)
  have width : ∀ n k, n < 10 ^ (k + 1) → (numeral 10 n).length ≤ k + 1 :=
    fun n k small => (length_numeral_le (by decide) (Nat.succ_pos k)).mpr small
  have type := type_name_length e.type
  have cpu := width e.cpu.toNat 0 (by have := traced.cpu; omega)
  have currpid := width e.currpid.toNat 4 (by have := e.currpid.toNat_lt; omega)
  have cycles := width e.cycles.toNat 9 (by have := e.cycles.toNat_lt; omega)
  have pid1 := width (e.pid1.toNat % 65536) 4 (by omega)
  have pid2 := width (e.pid2.toNat % 65536) 4 (by omega)
  rw [pieces_column (type_name_free e.type) (type_name_ne_empty traced.type) (by omega),
    pieces_column (free _) (numeral_ne_empty _ _) (by omega), pieces_column (free _) (numeral_ne_empty _ _) (by omega),
    pieces_column (free _) (numeral_ne_empty _ _) (by omega), pieces_column (free _) (numeral_ne_empty _ _) (by omega),
    pieces_column (free _) (numeral_ne_empty _ _) (by omega)]

end Words

theorem columns_iff {table : Table} (symbols : KernelSymbols table) {e : Sepentry} (traced : Traced e) {line : String}
    (printed : resolvedLine table (usnlLine e) = some line) :
    (splitWhitespace line).take 9 = columns table e ↔
      translate table (numeral 16 e.data.toNat) = numeral 16 e.data.toNat ∧
        (translate table (numeral 16 e.addr.toNat)).length < 30 := by
  have hex : ∀ n, Free isSpace (numeral 16 n) := free_numeral (by decide) (by decide) (by decide)
  have filled := fun n => translate_ne_empty symbols (numeral_ne_empty 16 n)
  have free := fun n => translate_free symbols (hex n)
  have number : (numeral 16 e.data.toNat).length ≤ 8 :=
    (length_numeral_le (by decide) (by decide)).mpr e.data.toNat_lt
  rw [resolved_line symbols traced.type] at printed
  obtain rfl := Option.some.inj printed
  rw [← last_columns number (free _) (filled _) (free _) (filled _) (free e.location.toNat) (filled _)]
  simp only [widths, translated, List.zipWith_cons_cons, List.zipWith_nil_left, List.foldr_cons, List.foldr_nil,
    splitWhitespace, first_columns traced]
  rw [← List.map_take]
  simp only [List.take_succ_cons, List.map_cons, String.ofList_toList, columns, Nat.mod_eq_of_lt traced.pid1,
    Nat.mod_eq_of_lt traced.pid2, List.cons.injEq, true_and]
  have texts : ∀ (ps : List (List Char)) (ws : List String), ps.map String.ofList = ws ↔ ps = ws.map String.toList := by
    intro ps ws
    constructor
    · rintro rfl
      simp [Function.comp_def]
    · rintro rfl
      simp [Function.comp_def]
  exact texts _ _

structure Carries (fields : List String) (e : Sepentry) : Prop where
  type : fields[0]? = some (typeName e.type)
  cpu : fields[1]?.bind atoi = some (e.cpu.toNat : Int)
  currpid : fields[2]?.bind atoi = some (e.currpid.toNat : Int)
  cycles : fields[3]?.bind atoi = some (e.cycles.toNat : Int)
  pid1 : fields[4]?.bind atoi = some (e.pid1.toNat : Int)
  pid2 : fields[5]?.bind atoi = some (e.pid2.toNat : Int)
  data : fields[6]?.bind (parseInt 16) = some (e.data.toNat : Int)

theorem columns_carry (table : Table) (e : Sepentry) : Carries (columns table e) e := by
  have ten : ∀ n < 9223372036854775808, atoi (numeral 10 n) = some (n : Int) :=
    fun n small => parse_numeral (by decide) (by decide) small
  have cycles := e.cycles.toNat_lt
  have pid1 := e.pid1.toNat_lt
  have pid2 := e.pid2.toNat_lt
  have data := e.data.toNat_lt
  have cpu := e.cpu.toNat_lt
  have currpid := e.currpid.toNat_lt
  exact ⟨rfl, ten _ (by omega), ten _ (by omega), ten _ (by omega), ten _ (by omega), ten _ (by omega),
    parse_numeral (by decide) (by decide) (by omega)⟩

theorem line_narrow (e : Sepentry) : ((splitSpace (usnlLine e)).filter (· ≠ "")).length ≤ 9 := by
  have pad : ∀ k, (List.replicate k "").filter (· ≠ "") = [] := by simp
  have none : String.ofList [] = "" := rfl
  rw [splitSpace, splitOn_line, List.map_cons, List.map_append, List.map_replicate, none, List.filter_cons]
  have others : ((List.map String.ofList ((numbers e).map String.toList)).filter (· ≠ "")).length ≤ 8 :=
    Nat.le_trans (List.length_filter_le ..) (by simp [numbers])
  rw [List.filter_append, pad, List.nil_append]
  split
  · rw [List.length_cons]
    omega
  · omega

theorem line_short (e : Sepentry) : (usnlLine e).utf8ByteSize < maxScanTokenSize := by
  have bytes := bytes_le_length (usnlLine e).toList
  rw [String.ofList_toList, String.length_toList] at bytes
  have ten : ∀ {n}, n < 2 ^ 32 → (numeral 10 n).length ≤ 10 := fun small =>
    (length_numeral_le (by decide) (by decide)).mpr (by omega)
  have hex : ∀ {n}, n < 2 ^ 32 → (numeral 16 n).length ≤ 8 := fun small =>
    (length_numeral_le (by decide) (by decide)).mpr (by omega)
  have type : (typestring e.type).length ≤ 20 := by
    cases e.type <;> decide
  have cpu := e.cpu.toNat_lt
  have currpid := e.currpid.toNat_lt
  have cpu : (numeral 10 e.cpu.toNat).length ≤ 10 := ten (by omega)
  have currpid : (numeral 10 e.currpid.toNat).length ≤ 10 := ten (by omega)
  have cycles := ten e.cycles.toNat_lt
  have pid1 : (numeral 10 (e.pid1.toNat % 65536)).length ≤ 10 := ten (by omega)
  have pid2 : (numeral 10 (e.pid2.toNat % 65536)).length ≤ 10 := ten (by omega)
  have data := hex e.data.toNat_lt
  have addr := hex e.addr.toNat_lt
  have location := hex e.location.toNat_lt
  have joined := length_intercalate_le (typestring e.type :: numbers e)
  simp only [numbers, List.map_cons, List.map_nil, List.sum_cons, List.sum_nil] at joined
  unfold usnlLine numbers at bytes ⊢
  unfold maxScanTokenSize
  omega

theorem scanned_trace (entries : List Sepentry) : scannedLines (entries.map usnlLine) = entries.map usnlLine := by
  have kept : ∀ l ∈ entries.map usnlLine, String.ofList (dropCR l.toList) = l := by
    intro l member
    obtain ⟨e, _, rfl⟩ := List.mem_map.mp member
    rw [dropCR, if_neg, String.ofList_toList]
    intro last
    have clean := line_free e '\r' (List.mem_of_getLast? last)
    revert clean
    decide
  rw [scanned_lines, linesOf, List.map_congr_left kept, List.map_id']
  intro l member
  obtain ⟨e, _, rfl⟩ := List.mem_map.mp member
  exact line_short e

/-- Every schedule of resolve.go on a trace of usnl: the splits of the lines are the columns of
    the entries exactly when no packet number is taken for an address of a symbol and every
    service is shorter than its column. -/
theorem trace_survives_iff {table : Table} {entries : List Sepentry} {acts : List ChannelPipeline.Action}
    {n : ChannelPipeline.Net Table String (List String) String} (symbols : KernelSymbols table)
    (traced : ∀ e ∈ entries, Traced e)
    (reached : TransitionRuns.run (stages table).step (start (entries.map usnlLine)) acts = some n)
    (exited : n.exited = true) :
    n.emitted.length = entries.length ∧ (∀ e ∈ entries, Carries (columns table e) e) ∧
    (n.emitted.map (fun line => (splitWhitespace line).take 9) = entries.map (columns table) ↔
      ∀ e ∈ entries, translate table (numeral 16 e.data.toNat) = numeral 16 e.data.toNat ∧
        (translate table (numeral 16 e.addr.toNat)).length < 30) := by
  have printed : n.emitted.map some = (entries.map usnlLine).map (resolvedLine table) := by
    rw [← scanned_trace entries]
    refine (schedule_resolved (fun s name stored => (symbols s name stored).2.1) (fun line member => ?_)
      reached).2.2.2 exited
    rw [scanned_trace] at member
    obtain ⟨e, _, rfl⟩ := List.mem_map.mp member
    exact line_narrow e
  have count : n.emitted.length = entries.length := by simpa using congrArg List.length printed
  refine ⟨count, fun e _ => columns_carry table e, ?_⟩
  rw [List.map_map] at printed
  generalize n.emitted = lines at printed count
  clear reached exited
  induction entries generalizing lines with
  | nil =>
    obtain rfl : lines = [] := by simpa using printed
    simp
  | cons e entries ih =>
    cases lines with
    | nil => cases count
    | cons line lines =>
      rw [List.map_cons, List.map_cons, List.cons_eq_cons, Function.comp_apply] at printed
      obtain ⟨first, others⟩ := printed
      rw [List.map_cons, List.map_cons, List.cons_eq_cons,
        columns_iff symbols (traced e (List.mem_cons_self ..)) first.symm,
        ih (fun x member => traced x (List.mem_cons_of_mem e member)) lines others (Nat.succ.inj count)]
      simp

def onlySymbol (name : String) : Table := fun a => if a = 0xc0008000 then some name else none

def calling (location : UInt32) : Sepentry := ⟨.serviceentry, 7, 0, 0, 1, 0xc0008000, location, 2, 0⟩

def resolveCall (name : String) (location : UInt32) : Option (ChannelPipeline.Net Table String (List String) String) :=
  TransitionRuns.run (stages (onlySymbol name)).step (start ([calling location].map usnlLine))
    [.read, .closeFirst, .receive, .forward, .closeSecond, .emit, .finish]

theorem only_symbol {name : String} (filled : name ≠ "") (free : Free isSpace name) : KernelSymbols (onlySymbol name) := by
  intro s other stored
  simp only [onlySymbol, Option.ite_none_right_eq_some, Option.some.injEq] at stored
  obtain ⟨rfl, rfl⟩ := stored
  exact ⟨by decide, filled, free⟩

theorem trace_survives_call : ∃ n, resolveCall "stext" 0xc0008000 = some n ∧
    n.emitted.map (fun line => (splitWhitespace line).take 9) = [columns (onlySymbol "stext") (calling 0xc0008000)] := by
  have symbols := only_symbol (by decide : "stext" ≠ "") (by decide)
  have ends : ∀ n ∈ resolveCall "stext" 0xc0008000, n.exited = true := by decide +kernel
  obtain ⟨n, reached⟩ := Option.isSome_iff_exists.mp (by decide +kernel : (resolveCall "stext" 0xc0008000).isSome)
  refine ⟨n, reached, (trace_survives_iff symbols ?_ reached (ends n reached)).2.2.mpr (by decide +kernel)⟩
  intro e member
  obtain rfl := List.mem_singleton.mp member
  exact ⟨by decide, by decide, by decide, by decide⟩

theorem long_name_runs_on : ∃ n, resolveCall "abcdefghijklmnopqrstuvwxyzabcd" 5 = some n ∧ n.exited = true ∧
    n.emitted.map (fun line => (splitWhitespace line).take 9) ≠
      [columns (onlySymbol "abcdefghijklmnopqrstuvwxyzabcd") (calling 5)] := by
  have ends : ∀ n ∈ resolveCall "abcdefghijklmnopqrstuvwxyzabcd" 5, n.exited = true ∧
      n.emitted.map (fun line => (splitWhitespace line).take 9) ≠
        [columns (onlySymbol "abcdefghijklmnopqrstuvwxyzabcd") (calling 5)] := by decide +kernel
  obtain ⟨n, reached⟩ := Option.isSome_iff_exists.mp
    (by decide +kernel : (resolveCall "abcdefghijklmnopqrstuvwxyzabcd" 5).isSome)
  exact ⟨n, reached, ends n reached⟩

end TracePipeline
