import SepExtract.GoText
import SepExtract.RendezvousPipeline

/- scripts/stats_parse.go: a table of statistics is read line by line, its preamble is printed
   as comments and its rows with commas. main does not wait for the goroutine that prints. -/
namespace StatsPipeline
open GoText (maxScanTokenSize)
open RendezvousPipeline TransitionRuns

abbrev Line := List UInt8

def space : UInt8 := 32
def tab : UInt8 := 9
def bar : UInt8 := 124
def dash : UInt8 := 45
def equals : UInt8 := 61
def colon : UInt8 := 58
def carriageReturn : UInt8 := 13

section Reading

def dropCR (l : Line) : Line := if l.getLast? = some carriageReturn then l.dropLast else l

/-- The lines of a file, given as the bytes between its newlines. -/
def linesOf (file : List Line) : List Line := file.map dropCR

def scannedLines (file : List Line) : List Line :=
  (file.takeWhile fun l => l.length < maxScanTokenSize).map dropCR

end Reading

section Parsing

def isDigit (c : UInt8) : Bool := 48 ≤ c && c ≤ 57

/-- The bytes of "| Col ". -/
def colText : Line := [bar, space, 67, 111, 108, space]

/-- The expression ^\| Col (\d+): (.*) \|$ of the column descriptions. -/
def colDescriptor (l : Line) : Bool :=
  colText.isPrefixOf l &&
    let rest := l.drop colText.length
    rest.takeWhile isDigit ≠ [] &&
      [colon, space].isPrefixOf (rest.dropWhile isDigit) &&
      [space, bar].isSuffixOf ((rest.dropWhile isDigit).drop 2)

/-- The expression ^=*$. -/
def tableSep (l : Line) : Bool := l.all (· = equals)

/-- The expression ^\|-*\|$. -/
def preambleSep : Line → Bool
  | c :: rest => c = bar && rest.dropWhile (· = dash) = [bar]
  | [] => false

/-- The expression ^\|-+\|.*$. -/
def headerSep : Line → Bool
  | c :: d :: rest => c = bar && d = dash && (rest.dropWhile (· = dash)).head? = some bar
  | _ => false

inductive Phase
  | preamble | header | result
  deriving DecidableEq, Repr

def comment (l : Line) : Line := [35, space] ++ l

def comma : Line := [44, space]

def trim (field : Line) : Line :=
  ((field.dropWhile fun c => c = space || c = tab).reverse.dropWhile fun c => c = space || c = tab).reverse

def appendField (outStr field : Line) : Line :=
  if trim field = [] then outStr
  else if outStr ≠ [] then outStr ++ comma ++ trim field
  else outStr ++ trim field

def parsePreamble (l : Line) : Option Phase × Option Line :=
  (if colDescriptor l then some .preamble else if preambleSep l then some .header else some .preamble,
    some (comment l))

def parseHeader (l : Line) : Option Phase × Option Line :=
  (if headerSep l then some .result else some .header, none)

def parseResultLine (l : Line) : Option Phase × Option Line :=
  if tableSep l then (none, none) else (some .result, some ((l.splitOn bar).foldl appendField []))

def parser : Worker Phase Line Line where
  take
    | .preamble => parsePreamble
    | .header => parseHeader
    | .result => parseResultLine

@[simp] theorem take_preamble (l : Line) : parser.take .preamble l = parsePreamble l := rfl
@[simp] theorem take_header (l : Line) : parser.take .header l = parseHeader l := rfl
@[simp] theorem take_result (l : Line) : parser.take .result l = parseResultLine l := rfl

def start (file : List Line) : Net Phase Line Line := .initial .preamble (scannedLines file)

end Parsing

section Expected

def rowText (l : Line) : Line :=
  comma.intercalate (((l.splitOn bar).map trim).filter (· ≠ []))

def preambleLines (lines : List Line) : List Line :=
  lines.takeWhile (!preambleSep ·) ++ (lines.dropWhile (!preambleSep ·)).take 1

def rowLines (lines : List Line) : List Line :=
  (((lines.dropWhile (!preambleSep ·)).drop 1).dropWhile (!headerSep ·)).drop 1 |>.takeWhile (!tableSep ·)

def expected (lines : List Line) : List Line :=
  (preambleLines lines).map comment ++ (rowLines lines).map rowText

theorem intercalate_merge (sep first second : Line) (rest : List Line) :
    sep.intercalate ((first ++ sep ++ second) :: rest) = sep.intercalate (first :: second :: rest) := by
  cases rest with
  | nil => simp [List.intercalate]
  | cons third rest => simp [List.intercalate]

theorem foldl_appendField (fields : List Line) (outStr : Line) : fields.foldl appendField outStr =
    comma.intercalate ((if outStr = [] then [] else [outStr]) ++ (fields.map trim).filter (· ≠ [])) := by
  induction fields generalizing outStr with
  | nil =>
    by_cases empty : outStr = []
    · simp [empty]
    · simp [empty]
  | cons field fields ih =>
    rw [List.foldl_cons, ih]
    by_cases blank : trim field = []
    · simp [appendField, blank]
    · by_cases empty : outStr = []
      · simp [appendField, blank, empty]
      · simp only [appendField, blank, empty, ne_eq, not_false_eq_true, if_true, if_false, List.map_cons,
          decide_true, List.filter_cons_of_pos, List.append_eq_nil_iff, and_false, List.singleton_append]
        exact intercalate_merge comma outStr (trim field) _

theorem row_text (l : Line) : (l.splitOn bar).foldl appendField [] = rowText l := by
  rw [foldl_appendField]
  simp [rowText]

theorem descriptor_not_separator {l : Line} (descriptor : colDescriptor l = true) : preambleSep l = false := by
  simp only [colDescriptor, Bool.and_eq_true] at descriptor
  obtain ⟨rest, rfl⟩ := List.isPrefixOf_iff_prefix.mp descriptor.1
  simp [preambleSep, colText, bar, dash, space]

theorem results_rows (lines : List Line) :
    parser.results (some .result) lines = (lines.takeWhile (!tableSep ·)).map rowText := by
  induction lines with
  | nil => rfl
  | cons l lines ih =>
    simp only [Worker.results, take_result, parseResultLine]
    by_cases closing : tableSep l = true
    · simp [closing]
    · simp only [closing, Bool.false_eq_true, if_false, row_text, Option.toList_some, List.singleton_append,
        Bool.not_false, List.takeWhile_cons_of_pos, List.map_cons, ih]

theorem results_header (lines : List Line) : parser.results (some .header) lines =
    (((lines.dropWhile (!headerSep ·)).drop 1).takeWhile (!tableSep ·)).map rowText := by
  induction lines with
  | nil => rfl
  | cons l lines ih =>
    simp only [Worker.results, take_header, parseHeader, Option.toList_none, List.nil_append]
    by_cases separator : headerSep l = true
    · simpa [separator] using results_rows lines
    · simpa [separator] using ih

theorem results_expected (lines : List Line) : parser.results (some .preamble) lines = expected lines := by
  induction lines with
  | nil => rfl
  | cons l lines ih =>
    simp only [Worker.results, take_preamble, parsePreamble, Option.toList_some, List.singleton_append]
    by_cases separator : preambleSep l = true
    · have plain : colDescriptor l = false := by
        by_contra descriptor
        rw [descriptor_not_separator (by simpa using descriptor)] at separator
        cases separator
      simpa [separator, plain, expected, preambleLines, rowLines] using results_header lines
    · have next : (if colDescriptor l = true then some Phase.preamble
          else if preambleSep l = true then some .header else some .preamble) = some .preamble := by
        simp [separator]
      rw [next]
      simpa [separator, expected, preambleLines, rowLines] using ih

theorem scannedLines_initial (file : List Line) : scannedLines file <+: linesOf file :=
  (List.takeWhile_prefix _).map dropCR

theorem expected_mono {lines more : List Line} (earlier : lines <+: more) : expected lines <+: expected more := by
  obtain ⟨rest, rfl⟩ := earlier
  rw [← results_expected, ← results_expected, results_append]
  exact List.prefix_append _ _

end Expected

/-- For every file and every schedule that ends the program: all of what the delivered lines give is
    printed but the line that the printing goroutine holds; so the output is what it should be
    exactly if it holds none, and no line as long as the buffer of the scanner cuts anything off. -/
theorem stats_printed_iff (file : List Line) (acts : List Action) {n : Net Phase Line Line}
    (done : run parser.step (start file) acts = some n) (exited : n.exited = true) :
    n.printed ++ n.held.toList = expected (scannedLines file) ∧
    (n.printed = expected (linesOf file) ↔
      n.held = none ∧ expected (scannedLines file) = expected (linesOf file)) := by
  have delivered : n.printed ++ n.held.toList = expected (scannedLines file) := by
    rw [exited_results done exited, results_expected]
  refine ⟨delivered, ?_⟩
  have shorter := (expected_mono (scannedLines_initial file)).length_le
  constructor
  · intro printed
    have none_held : n.held = none := by
      cases held : n.held with
      | none => rfl
      | some b =>
        have length := congrArg List.length delivered
        rw [printed, held] at length
        simp only [Option.toList_some, List.length_append, List.length_singleton] at length
        omega
    exact ⟨none_held, by rw [← delivered, none_held, printed]; simp⟩
  · intro ⟨none_held, same⟩
    rw [← same, ← delivered, none_held]
    simp

/-- A preamble separator, a header separator, the row "| 1 | 2 |" and the closing line. -/
def smallTable : List Line :=
  [[bar, bar], [bar, dash, bar], [bar, space, 49, space, bar, space, 50, space, bar], [equals]]

def patientSchedule : List Action :=
  [.receive, .handOver, .print, .receive, .receive, .handOver, .print, .receive, .closeOut, .exit]

theorem stats_printed_iff_patient : ∃ n, run parser.step (start smallTable) patientSchedule = some n ∧
    n.exited = true ∧ n.printed = expected (linesOf smallTable) := by
  refine ⟨_, rfl, rfl, ?_⟩
  exact (stats_printed_iff smallTable patientSchedule rfl rfl).2.mpr ⟨rfl, by decide +kernel⟩

def hastySchedule : List Action :=
  [.receive, .handOver, .print, .receive, .receive, .handOver, .receive, .closeOut, .exit]

theorem last_row_missing : ∃ n, run parser.step (start smallTable) hastySchedule = some n ∧ n.exited = true ∧
    n.printed = [comment [bar, bar]] ∧
    expected (linesOf smallTable) = [comment [bar, bar], [49] ++ comma ++ [50]] := by
  refine ⟨_, rfl, rfl, ?_, ?_⟩ <;> decide +kernel

end StatsPipeline
