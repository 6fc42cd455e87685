import SepExtract.GoText

/- The lines of a trace as analyse.go reads them. A line is looked at field by field, and
   a field that does not parse stops the program only when it is reached, so the numbers
   of a line stay optional until then. -/
namespace Analyse
open GoText

inductive Sync where
  | compl | semdown | semup | waitcompl
  deriving DecidableEq, Repr

/-- The first column. The mark added to operations on a temporary variable is the flag of
    sync; a type no table or test of the program names is other. -/
inductive EventType where
  | ctxsw | migrate | hirqentry | hirqexit | looprstart | loopstart | loopstop | peustart
  | sync (operation : Sync) (temp : Bool)
  | pktqueue | pktqueuen | srventry | srvexit | srvqueue | tempsynch | queuecond | statecond
  | statequeue | sleep | ttwakeup | wakeup | pktextr | pktextrn | threadcond
  | other (text : String)
  deriving DecidableEq, Repr

def Sync.text : Sync → String
  | .compl => "COMPL"
  | .semdown => "SEMDOWN"
  | .semup => "SEMUP"
  | .waitcompl => "WAITCOMPL"

def EventType.text : EventType → String
  | .ctxsw => "CTXSW"
  | .migrate => "MIGRATE"
  | .hirqentry => "HIRQENTRY"
  | .hirqexit => "HIRQEXIT"
  | .looprstart => "LOOPRSTART"
  | .loopstart => "LOOPSTART"
  | .loopstop => "LOOPSTOP"
  | .peustart => "PEUSTART"
  | .sync operation false => operation.text
  | .sync operation true => operation.text ++ "\t(TEMP)"
  | .pktqueue => "PKTQUEUE"
  | .pktqueuen => "PKTQUEUEN"
  | .srventry => "SRVENTRY"
  | .srvexit => "SRVEXIT"
  | .srvqueue => "SRVQUEUE"
  | .tempsynch => "TEMPSYNCH"
  | .queuecond => "QUEUECOND"
  | .statecond => "STATECOND"
  | .statequeue => "STATEQUEUE"
  | .sleep => "SLEEP"
  | .ttwakeup => "TTWAKEUP"
  | .wakeup => "WAKEUP"
  | .pktextr => "PKTEXTR"
  | .pktextrn => "PKTEXTRN"
  | .threadcond => "THREADCOND"
  | .other text => text

def columnTypes : List EventType :=
  [.ctxsw, .migrate, .hirqentry, .hirqexit, .looprstart, .loopstart, .loopstop, .peustart,
   .sync .compl false, .sync .semdown false, .sync .semup false, .sync .waitcompl false,
   .pktqueue, .pktqueuen, .srventry, .srvexit, .srvqueue, .tempsynch, .queuecond, .statecond,
   .statequeue, .sleep, .ttwakeup, .wakeup, .pktextr, .pktextrn, .threadcond]

def EventType.ofText (text : String) : EventType :=
  (columnTypes.find? fun t => t.text == text).getD (.other text)

/-- A unit of execution: a thread, a hardware interrupt, or the zero value that stands for
    a CPU of which nothing is known yet. -/
inductive LEU where
  | nobody
  | thread (pid : Int)
  | hardwareInterrupt (nr : Int)
  deriving DecidableEq, Repr

def LEU.pid : LEU → Int
  | .nobody => 0
  | .thread pid => pid
  | .hardwareInterrupt nr => nr

structure TempVarEntry where
  name : String
  value : Int
  deriving DecidableEq, Repr

structure Entry where
  eventType : EventType
  cpu : Fin 2
  currentPid : Int
  pid1 : Int
  pid2 : Int
  packetId : String
  service : String
  location : String
  cycles : Int
  lineNr : Nat
  tempVarId : Nat
  tempVars : List TempVarEntry
  peuDuration : Int
  peuIRQ : Int
  deriving DecidableEq, Repr

/-- The columns of a line with at least nine of them; none is a number that does not parse. -/
structure Columns where
  eventType : EventType
  cpu : Option Int
  currentPid : Option Int
  cyc : Option Int
  pid1 : Option Int
  pid2 : Option Int
  packetId : String
  service : String
  location : String
  deriving DecidableEq, Repr

inductive Line where
  | eod
  | idQueue (addr : String) (id : Int)
  | idSynch (addr : String) (id : Int)
  | short
  | columns (f : Columns)
  | panics
  deriving DecidableEq, Repr

/-- An ID line with an address sets one of the two maps; its field 4 must be a number. -/
def idLine (entry : List String) (make : String → Int → Line) : Option Line :=
  match entry[7]? with
  | none => some .panics
  | some addr =>
    if addr = "0" then none
    else
      match entry[4]?.bind atoi with
      | none => some .panics
      | some id => some (make addr id)

def columnsLine (entry : List String) : Line :=
  match entry with
  | type :: cpu :: pid :: cyc :: pid1 :: pid2 :: packetId :: service :: location :: _ =>
    .columns ⟨.ofText type, atoi cpu, atoi pid, atoi cyc, atoi pid1, atoi pid2, packetId, service,
      location⟩
  | _ => .short

/-- The start of the loop body of run: slicing a line shorter than three bytes panics. -/
def lexLine (s : String) : Line :=
  if s.utf8ByteSize < 3 then .panics
  else if "EOD".toList.isPrefixOf s.toList then .eod
  else
    let entry := splitWhitespace s
    let special :=
      match entry.head? with
      | some "ID_QUEUE" => idLine entry .idQueue
      | some "ID_SYNCH" => idLine entry .idSynch
      | _ => none
    special.getD (columnsLine entry)

theorem columns_of_lex {s : String} {f : Columns} (lexed : lexLine s = .columns f) :
    columnsLine (splitWhitespace s) = .columns f := by
  have special : ∀ entry make, (∀ addr id, make addr id ≠ Line.columns f) → idLine entry make ≠ some (.columns f) := by
    intro entry make other made
    unfold idLine at made
    split at made
    · cases made
    · split at made
      · cases made
      · split at made
        · cases made
        · exact other _ _ (Option.some.inj made)
  unfold lexLine at lexed
  split at lexed
  · cases lexed
  · split at lexed
    · cases lexed
    · dsimp only at lexed
      split at lexed
      · cases hit : idLine (splitWhitespace s) Line.idQueue with
        | none => simpa [hit] using lexed
        | some l => exact absurd (hit.trans (by simpa [hit] using lexed)) (special _ _ (by simp))
      · cases hit : idLine (splitWhitespace s) Line.idSynch with
        | none => simpa [hit] using lexed
        | some l => exact absurd (hit.trans (by simpa [hit] using lexed)) (special _ _ (by simp))
      · exact lexed

end Analyse
