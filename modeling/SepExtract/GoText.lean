import Mathlib.Data.List.Basic
import Mathlib.Data.List.TakeWhile

/- The text functions of the Go library that trace-reading programs use: the lines of a scanner,
   splitting at runs of white space, reading integers, and padding. Lengths are in bytes, as in Go. -/
namespace GoText

/-- bufio.MaxScanTokenSize: a line that fills the buffer of a scanner ends the scan. -/
def maxScanTokenSize : Nat := 64 * 1024

def dropCR (line : List Char) : List Char := if line.getLast? = some '\r' then line.dropLast else line

/-- The lines of a file, given as the texts between its newlines. -/
def linesOf (file : List String) : List String := file.map fun l => String.ofList (dropCR l.toList)

def scannedLines (file : List String) : List String :=
  linesOf (file.takeWhile fun l => l.utf8ByteSize < maxScanTokenSize)

theorem scanned_lines {file : List String} (short : ∀ l ∈ file, l.utf8ByteSize < maxScanTokenSize) :
    scannedLines file = linesOf file := by
  rw [scannedLines, List.takeWhile_eq_self_iff.mpr (by simpa using short)]

def isSpace (c : Char) : Bool :=
  c == ' ' || c == '\t' || c == '\n' || c == '\r' || c == '\x0c'

def pieces : Bool → List Char → List (List Char)
  | _, [] => [[]]
  | inRun, c :: rest =>
    if isSpace c then
      if inRun then pieces true rest else [] :: pieces true rest
    else
      match pieces false rest with
      | [] => [[c]]
      | word :: words => (c :: word) :: words

def splitWhitespace (s : String) : List String := (pieces false s.toList).map String.ofList

def digit (c : Char) : Option Nat :=
  if '0' ≤ c ∧ c ≤ '9' then some (c.toNat - '0'.toNat)
  else if 'a' ≤ c ∧ c ≤ 'f' then some (c.toNat - 'a'.toNat + 10)
  else if 'A' ≤ c ∧ c ≤ 'F' then some (c.toNat - 'A'.toNat + 10)
  else none

def digits (base : Nat) : Nat → List Char → Option Nat
  | n, [] => some n
  | n, c :: rest =>
    match digit c with
    | some d => if d < base then digits base (n * base + d) rest else none
    | none => none

def unsigned (base : Nat) : List Char → Option Nat
  | [] => none
  | cs => digits base 0 cs

def signed (base : Nat) : List Char → Option Int
  | '-' :: cs => (unsigned base cs).map fun n => -(n : Int)
  | '+' :: cs => (unsigned base cs).map fun n => (n : Int)
  | cs => (unsigned base cs).map fun n => (n : Int)

def minInt64 : Int := -9223372036854775808
def maxInt64 : Int := 9223372036854775807

/-- The number ParseInt returns, also when it reports an error. -/
def parseIntValue (base : Nat) (s : String) : Int :=
  match signed base s.toList with
  | none => 0
  | some n => max minInt64 (min n maxInt64)

def parseInt (base : Nat) (s : String) : Option Int :=
  match signed base s.toList with
  | none => none
  | some n => if minInt64 ≤ n ∧ n ≤ maxInt64 then some n else none

def atoi (s : String) : Option Int := parseInt 10 s

def contains (s sub : String) : Bool := s.toList.tails.any sub.toList.isPrefixOf

def ljust (s : String) (width : Int) : String :=
  s ++ String.ofList (List.replicate (width - s.utf8ByteSize).toNat ' ')

end GoText
