import Mathlib.Logic.Function.Basic
import SepExtract.GoText
import SepExtract.WrappingCounter

/- The two delay scripts, intraosdelay.go and migrationdelay.go. Both add up the cycles of
   the lines of CPU 0 and look for packet extracts; a step that panics gives none. -/
namespace DelayScripts
open GoText

def delta (a b : Int) : Int := WrappingCounter.delta 0xFFFFFFFF a b

inductive Reading where
  | eod | ignored | panics | unreadable
  | cycles (cyc : Int)
  deriving DecidableEq, Repr

def reading (entry : List String) : Reading :=
  if entry.head? = some "EOD" then .eod
  else if entry.length < 3 then .ignored
  else if entry[1]? ≠ some "0" then .ignored
  else
    match entry[3]? with
    | none => .panics
    | some text =>
      match atoi text with
      | none => .unreadable
      | some cyc => .cycles cyc

/-- The lines printed, apart from the echo of the input. -/
inductive Printed where
  | eod | error
  | received (seqno : Int)
  | sent (seqno : Int)
  | delta (seqno cycles : Int)
  | migration (cycles : Int)
  | deltaMigr (seqno cycles sinceMigration : Int)
  deriving DecidableEq, Repr

/-- The two numbers of a packet extract: an index out of range panics, a number that does
    not parse is reported. -/
inductive Extract where
  | panics | unreadable
  | packet (eventType seqno : Int)
  deriving DecidableEq, Repr

def extract (entry : List String) : Extract :=
  match entry[5]? with
  | none => .panics
  | some text =>
    match parseInt 10 text with
    | none => .unreadable
    | some eventType =>
      match entry[6]? with
      | none => .panics
      | some text =>
        match parseInt 16 text with
        | none => .unreadable
        | some seqno => .packet eventType seqno

namespace IntraOsDelay

structure Script where
  rxstart : Int
  lastCycles : Int
  cycles : Int
  packets : Int → Option Int
  out : List Printed

def Script.initial : Script := ⟨-1, 0, 0, fun _ => none, []⟩

def Script.print (s : Script) (p : Printed) : Script := { s with out := s.out ++ [p] }

def Script.packet (s : Script) (eventType seqno : Int) : Option Script :=
  if eventType = 0 then some { s with rxstart := s.cycles }
  else if eventType = 1 then
    if s.rxstart = -1 then some s
    else if seqno ≠ 0 then
      let packets := Function.update s.packets seqno (some s.cycles)
      some { s.print (.received seqno) with packets := packets, rxstart := -1 }
    else some { s with rxstart := -1 }
  else if eventType = 2 then
    if seqno ≠ 0 then
      let s := s.print (.sent seqno)
      match s.packets seqno with
      | none => some s
      | some v =>
        let packets := Function.update s.packets seqno none
        some { s.print (.delta seqno (s.cycles - v)) with packets := packets }
    else some s
  else if eventType = 4 then some s
  else none

def Script.line (s : Script) (line : String) : Option Script :=
  let entry := splitWhitespace line
  match reading entry with
  | .eod => some { s.print .eod with packets := fun _ => none, rxstart := -1 }
  | .ignored => some s
  | .panics => none
  | .unreadable => some (s.print .error)
  | .cycles cyc =>
    let s := { s with cycles := s.cycles + delta s.lastCycles cyc, lastCycles := cyc }
    if entry.head? ≠ some "PKTEXTR" then some s
    else
      match extract entry with
      | .panics => none
      | .unreadable => some (s.print .error)
      | .packet eventType seqno => s.packet eventType seqno

def main (file : List String) : Option Script := file.foldlM Script.line .initial

end IntraOsDelay

namespace MigrationDelay

structure Script where
  rxstart : Int
  lastCycles : Int
  cycles : Int
  lastMigration : Int
  packets : Int → Option Int
  out : List Printed

def Script.initial : Script := ⟨-1, 0, 0, 0, fun _ => none, []⟩

def Script.print (s : Script) (p : Printed) : Script := { s with out := s.out ++ [p] }

def Script.packet (s : Script) (eventType seqno : Int) : Script :=
  if eventType = 0 then { s with rxstart := s.cycles }
  else if eventType = 1 then
    if s.rxstart = -1 then s
    else if seqno ≠ 0 then
      let packets := Function.update s.packets seqno (some s.rxstart)
      { s.print (.received seqno) with packets := packets }
    else s
  else if eventType = 2 then
    if seqno ≠ 0 then
      let s := s.print (.sent seqno)
      match s.packets seqno with
      | none => s
      | some v =>
        let packets := Function.update s.packets seqno none
        { s.print (.deltaMigr seqno (s.cycles - v) (s.cycles - s.lastMigration)) with packets := packets }
    else s
  else s

def Script.afterMigration (s : Script) (entry : List String) : Option Script :=
  if s.lastMigration = 0 then some s
  else if entry.head? ≠ some "PKTEXTR" then some s
  else
    match extract entry with
    | .panics => none
    | .unreadable => some (s.print .error)
    | .packet eventType seqno => some (s.packet eventType seqno)

def Script.line (migratePid : Int) (s : Script) (line : String) : Option Script :=
  let entry := splitWhitespace line
  match reading entry with
  | .eod => some { s.print .eod with packets := fun _ => none, rxstart := -1, lastMigration := 0 }
  | .ignored => some s
  | .panics => none
  | .unreadable => some (s.print .error)
  | .cycles cyc =>
    let s := { s with cycles := s.cycles + delta s.lastCycles cyc, lastCycles := cyc }
    if entry.head? = some "MIGRATE" then
      match entry[2]?.bind (parseInt 10) with
      | none => some (s.print .error)
      | some pid =>
        if pid ≠ migratePid then some s
        else ({ s.print (.migration s.cycles) with lastMigration := s.cycles }).afterMigration entry
    else s.afterMigration entry

def main (migratePid : Int) (file : List String) : Option Script :=
  file.foldlM (Script.line migratePid) .initial

end MigrationDelay

end DelayScripts
