import Mathlib.Logic.Function.Basic
import SepExtract.AnalyseTrace

/- The state of the analysis and the handlers that run calls. Entries are shared through
   pointers and some of them are changed after they were stored, so they live in a heap;
   each CPU's lines allocate in an arena of their own. Service stacks have their top first.
   A handler that panics gives none. -/
namespace Analyse
open GoText

structure Ref where
  cpu : Fin 2
  index : Nat
  deriving DecidableEq, Repr

structure ServiceStackElement where
  name : String
  entries : List Ref
  packetIds : List Int
  deriving DecidableEq, Repr

structure LEUentry where
  entries : List Ref
  packetIds : List Int
  deriving DecidableEq, Repr

structure OngoingPEU where
  start : Option Ref
  entries : List Ref
  deriving DecidableEq, Repr

structure TempVar where
  entry : Ref
  value : Int
  deriving DecidableEq, Repr

structure State where
  heap : Fin 2 → List Entry
  currentLEU : Fin 2 → LEU
  serviceStack : Fin 2 → Option (LEU → Option (List ServiceStackElement))
  interrupted : List LEU
  currentPEU : OngoingPEU
  leus : LEU → Option (String → List LEUentry)
  tempVars : String → Option TempVar
  lastAppended : Option Ref
  tempVarId : Nat
  addrMap : String → Option Int
  addrMapSynch : String → Option Int
  longestLocationString : Int

def State.initial : State where
  heap _ := []
  currentLEU _ := .nobody
  serviceStack _ := none
  interrupted := []
  currentPEU := ⟨none, []⟩
  leus _ := none
  tempVars _ := none
  lastAppended := none
  tempVarId := 0
  addrMap _ := none
  addrMapSynch _ := none
  longestLocationString := -1

def Entry.blank (cpu : Fin 2) : Entry where
  eventType := .other ""
  cpu := cpu
  currentPid := 0
  pid1 := 0
  pid2 := 0
  packetId := ""
  service := ""
  location := ""
  cycles := 0
  lineNr := 0
  tempVarId := 0
  tempVars := []
  peuDuration := 0
  peuIRQ := 0

def State.deref (s : State) (r : Ref) : Entry := ((s.heap r.cpu)[r.index]?).getD (.blank r.cpu)

def State.next (s : State) (cpu : Fin 2) : Ref := ⟨cpu, (s.heap cpu).length⟩

def State.alloc (s : State) (e : Entry) : State :=
  { s with heap := Function.update s.heap e.cpu (s.heap e.cpu ++ [e]) }

def State.modify (s : State) (r : Ref) (f : Entry → Entry) : State :=
  { s with heap := Function.update s.heap r.cpu ((s.heap r.cpu).modify r.index f) }

def State.stackOf (s : State) (cpu : Fin 2) (leu : LEU) : List ServiceStackElement :=
  ((s.serviceStack cpu).bind fun m => m leu).getD []

/-- Reading the stack of a CPU makes its map if there is none. -/
def State.touch (s : State) (cpu : Fin 2) : State :=
  let maps := (s.serviceStack cpu).getD fun _ => none
  { s with serviceStack := Function.update s.serviceStack cpu (some maps) }

def State.currentStack (s : State) (cpu : Fin 2) : List ServiceStackElement :=
  s.stackOf cpu (s.currentLEU cpu)

def State.setCurrentStack (s : State) (cpu : Fin 2) (stack : List ServiceStackElement) : State :=
  let maps := (s.serviceStack cpu).getD fun _ => none
  let maps := Function.update maps (s.currentLEU cpu) (some stack)
  { s with serviceStack := Function.update s.serviceStack cpu (some maps) }

def State.setCurrentLEU (s : State) (cpu : Fin 2) (leu : LEU) : State :=
  { s with currentLEU := Function.update s.currentLEU cpu leu }

def State.pushEntry (s : State) (cpu : Fin 2) (r : Ref) : State :=
  match s.currentStack cpu with
  | [] => s
  | top :: rest =>
    { s.setCurrentStack cpu ({ top with entries := top.entries ++ [r] } :: rest) with
      lastAppended := some r }

def State.pushService (s : State) (cpu : Fin 2) (r : Ref) : State :=
  { (s.touch cpu).pushEntry cpu r with lastAppended := some r }

/-- A copy of the call goes to the calling service, unless it is made from irq_exit. -/
def State.registerCall (s : State) (e : Entry) : State :=
  if contains e.location "irq_exit" then s else (s.alloc e).pushEntry e.cpu (s.next e.cpu)

/-- A new element on the stack of a CPU. The copy of the entry goes to the CPU of the entry. -/
def State.openService (s : State) (cpu : Fin 2) (e : Entry) (newService : String) : State :=
  let s := s.setCurrentStack cpu (⟨newService, [], []⟩ :: s.currentStack cpu)
  (s.alloc e).pushService e.cpu (s.next e.cpu)

def State.pushNewService (s : State) (e : Entry) (newService : String) : State :=
  let s := s.touch e.cpu
  let s := if (s.currentStack e.cpu).isEmpty then s else s.registerCall e
  s.openService e.cpu e newService

def State.pop (s : State) (cpu : Fin 2) : Option (ServiceStackElement × State) :=
  match s.currentStack cpu with
  | [] => none
  | top :: rest => some (top, s.setCurrentStack cpu rest)

def State.ensureLEU (s : State) (leu : LEU) : State :=
  { s with leus := Function.update s.leus leu (some ((s.leus leu).getD fun _ => [])) }

/-- Writing to the map of an unknown LEU panics. -/
def State.pushServiceToLEU (s : State) (cpu : Fin 2) (elem : ServiceStackElement) : Option State :=
  let leu := s.currentLEU cpu
  match s.leus leu with
  | none => none
  | some m =>
    let cases := m elem.name ++ [⟨elem.entries, elem.packetIds⟩]
    some { s with leus := Function.update s.leus leu (some (Function.update m elem.name cases)) }

structure PeuScan where
  interruptWithIndex : Nat
  synchvar : String
  intwithcompl : Nat

def PeuScan.synch (scan : PeuScan) (service : String) : PeuScan × Bool :=
  if scan.synchvar = "" then ({ scan with synchvar := service }, false)
  else (scan, decide (scan.synchvar = service ∧ scan.intwithcompl ≠ 0))

def PeuScan.complete (scan : PeuScan) : PeuScan :=
  if scan.interruptWithIndex ≠ 0 then { scan with intwithcompl := scan.interruptWithIndex } else scan

def PeuScan.step (scan : PeuScan) (index : Nat) (e : Entry) : PeuScan × Bool :=
  match e.eventType with
  | .hirqentry => ({ scan with interruptWithIndex := index }, false)
  | .hirqexit => ({ scan with interruptWithIndex := 0 }, false)
  | .sync .compl _ => scan.complete.synch e.service
  | .sync .waitcompl _ => scan.synch e.service
  | _ => (scan, false)

/-- The duration and the interrupt go to the starting entry; a second match in one scan
    finds no entries any more and panics. -/
def State.peuMatch (s : State) (scan : PeuScan) : Option State := do
  let hit ← s.currentPEU.entries[scan.intwithcompl]?
  let start ← s.currentPEU.start
  let duration := (s.deref hit).cycles - (s.deref start).cycles
  let irq := (s.deref hit).pid1
  some { s.modify start fun e => { e with peuDuration := duration, peuIRQ := irq } with
    currentPEU := ⟨none, []⟩ }

def State.peuStep (acc : State × PeuScan) (item : Ref × Nat) : Option (State × PeuScan) :=
  let (scan, hit) := acc.2.step item.2 (acc.1.deref item.1)
  if hit then (acc.1.peuMatch scan).map fun s => (s, scan) else some (acc.1, scan)

def State.extendPEU (s : State) (r : Ref) : State :=
  { s with currentPEU := ⟨s.currentPEU.start, s.currentPEU.entries ++ [r]⟩ }

def State.appendToPEU (s : State) (r : Ref) : Option State :=
  let e := s.deref r
  if e.cpu = 1 then some s
  else if e.eventType = .peustart then some { s with currentPEU := ⟨some r, []⟩ }
  else if s.currentPEU.start.isNone then some s
  else
    let s := s.extendPEU r
    (s.currentPEU.entries.zipIdx.foldlM State.peuStep (s, ⟨0, "", 0⟩)).map Prod.fst

abbrev cpu0 : Fin 2 := 0

def State.appendLastToPEU (s : State) (cpu : Fin 2) : Option State :=
  match s.currentStack cpu with
  | [] => some s
  | top :: _ => top.entries.getLast?.bind s.appendToPEU

def irqService (nr : Int) : String := "HIRQ-" ++ toString nr

def handleCTXSW (s : State) (e : Entry) : Option State :=
  let r := s.next e.cpu
  let s := (s.alloc e).pushService e.cpu r
  let s := (s.setCurrentLEU e.cpu (.thread e.pid2)).pushService e.cpu r
  some (s.ensureLEU (.thread e.pid2))

def cpuOf (n : Int) : Option (Fin 2) := if n = 0 then some 0 else if n = 1 then some 1 else none

/-- A CPU of the map other than the target that holds a stack for the thread. The map has
    at most the keys 0 and 1, so the order of the iteration does not matter. -/
def State.holder (s : State) (leu : LEU) (newCPU : Int) : Option (Fin 2) :=
  [(0 : Fin 2), 1].find? fun cpu =>
    cpuOf newCPU ≠ some cpu ∧ ((s.serviceStack cpu).bind fun m => m leu).isSome

def handleMIGRATE (s : State) (e : Entry) : Option State :=
  let leu := LEU.thread e.pid1
  match s.holder leu e.pid2 with
  | none => some s
  | some cpu =>
    match cpuOf e.pid2 with
    | none => none
    | some target =>
      match s.serviceStack target with
      | none => none
      | some m =>
        let moved := Function.update m leu (some (s.stackOf cpu leu))
        let left := (s.serviceStack cpu).map fun old => Function.update old leu none
        let maps := Function.update s.serviceStack target (some moved)
        some { s with serviceStack := Function.update maps cpu left }

def handleSRVENTRY (s : State) (e : Entry) : Option State :=
  some (s.pushNewService { e with packetId := "0" } e.service)

def handleSRVEXIT (s : State) (cpu : Fin 2) (r : Ref) : Option (State × Bool) :=
  let empty := (s.currentStack cpu).isEmpty
  let s := s.pushService cpu r
  if empty then some (s, false)
  else do
    let (service, s) ← s.pop cpu
    let s ← (s.ensureLEU (s.currentLEU cpu)).pushServiceToLEU cpu service
    some (s.pushService cpu r, true)

def State.interrupt (s : State) (cpu : Fin 2) (nr : Int) : State :=
  { s.setCurrentLEU cpu (.hardwareInterrupt nr) with interrupted := s.currentLEU cpu :: s.interrupted }

def State.resume (s : State) (cpu : Fin 2) (leu : LEU) (rest : List LEU) : State :=
  { s.setCurrentLEU cpu leu with interrupted := rest }

def handleHIRQEntry (s : State) (e : Entry) : Option State :=
  let s := (s.alloc e).pushService e.cpu (s.next e.cpu)
  let s := (s.interrupt e.cpu e.pid1).ensureLEU (.hardwareInterrupt e.pid1)
  (s.pushNewService e (irqService e.pid1)).appendLastToPEU e.cpu

def handleHIRQExit (s : State) (e : Entry) : Option State := do
  let r := s.next e.cpu
  let (s, closed) ← handleSRVEXIT (s.alloc e) e.cpu r
  if closed then
    match s.interrupted with
    | [] => none
    | leu :: rest => ((s.resume e.cpu leu rest).pushService e.cpu r).appendLastToPEU e.cpu
  else some s

def handleLOOPSTART (s : State) (e : Entry) : Option State :=
  let s := s.touch e.cpu
  some (if (s.currentStack e.cpu).isEmpty then s else s.pushNewService e e.location)

/-- The loop on top of the stack starts again: its first iteration is relabelled, a later
    one is stored and a new one is opened. The copy of the first entry keeps its CPU, so that
    it does not reach the new element of a loop that has migrated. -/
def handleLOOPRSTART (s : State) (e : Entry) : Option State :=
  let s := s.touch e.cpu
  match s.currentStack e.cpu with
  | [] => some s
  | top :: _ => do
    let last ← top.entries.getLast?
    if (s.deref last).eventType = .loopstart then
      some (s.modify last fun l => { l with eventType := .looprstart, cycles := e.cycles })
    else
      let s := (s.alloc e).pushService e.cpu (s.next e.cpu)
      let (service, s) ← s.pop e.cpu
      let first ← service.entries.head?
      let s := s.modify first fun f => { f with eventType := .loopstart }
      let s ← s.pushServiceToLEU e.cpu service
      let firstEntry := { s.deref first with cycles := e.cycles, eventType := .looprstart }
      some (s.openService e.cpu firstEntry service.name)

def State.storeLoop (s : State) (cpu : Fin 2) (service : ServiceStackElement) (head : Ref) :
    Option State :=
  if (s.deref head).eventType = .looprstart then
    (s.modify head fun f => { f with eventType := .loopstart }).pushServiceToLEU cpu service
  else some s

def handleLOOPSTOP (s : State) (e : Entry) : Option State :=
  let s := s.touch e.cpu
  match s.pop e.cpu with
  | none => some s
  | some (service, s) =>
    match service.entries.head? with
    | none => none
    | some head =>
      let first := { s.deref head with eventType := .looprstart, cycles := e.cycles }
      let service := { service with entries := service.entries ++ [s.next first.cpu] }
      ((s.alloc first).storeLoop e.cpu service head).map fun s =>
        (s.alloc e).pushService e.cpu (s.next e.cpu)

def softirqs : String → Option String
  | "1" => some "run_timer_softirq"
  | "2" => some "net_tx_action"
  | "3" => some "net_rx_action"
  | _ => none

def ENQUEUE : Int := 0
def DEQUEUE : Int := 1

def handleSRVQUEUE (s : State) (e : Entry) : Option State :=
  if e.pid1 = ENQUEUE then
    let e := { e with service := (softirqs e.service).getD e.service }
    some ((s.alloc e).pushService e.cpu (s.next e.cpu))
  else some (s.pushNewService { e with packetId := "0" } e.service)

def State.pushWithPEU (s : State) (e : Entry) : Option State :=
  ((s.alloc e).pushService e.cpu (s.next e.cpu)).appendLastToPEU e.cpu

def handlePEUSTART (s : State) (e : Entry) : Option State := s.pushWithPEU e

def Sync.increments : Sync → Bool
  | .semup | .compl => true
  | .semdown | .waitcompl => false

def Sync.value (operation : Sync) : Int := if operation.increments then 1 else -1

def State.noteUser (s : State) (cpu : Fin 2) (v : TempVar) (operation : Sync) : State :=
  match s.currentStack cpu with
  | [] => s
  | top :: _ =>
    let user : TempVarEntry := ⟨top.name, operation.value⟩
    s.modify v.entry fun t => { t with tempVars := t.tempVars ++ [user] }

def State.countTempVar (s : State) (service : String) (v : TempVar) (operation : Sync) : State :=
  let value := v.value + operation.value
  let kept := if value = 0 then none else some ⟨v.entry, value⟩
  { s with tempVars := Function.update s.tempVars service kept }

def handleSync (s : State) (e : Entry) (operation : Sync) : Option State :=
  match s.tempVars e.service with
  | none => s.pushWithPEU e
  | some v =>
    let s := (s.touch e.cpu).noteUser e.cpu v operation
    (s.pushWithPEU { e with eventType := .sync operation true }).map fun s =>
      s.countTempVar e.service v operation

def handleTEMPSYNCH (s : State) (e : Entry) : Option State :=
  let e := { e with tempVarId := s.tempVarId }
  let r := s.next e.cpu
  let s := (s.alloc e).pushService e.cpu r
  let s := { s with tempVarId := s.tempVarId + 1 }
  some { s with tempVars := Function.update s.tempVars e.service (some ⟨r, 0⟩) }

def State.labelPacket (s : State) (e : Entry) : Option (State × EventType) :=
  if e.eventType = .pktqueuen then
    match s.lastAppended with
    | none => none
    | some last =>
      if (s.deref last).eventType = .pktqueue then
        some (s.modify last fun l => { l with eventType := .pktqueuen }, .pktqueue)
      else some (s, e.eventType)
  else some (s, e.eventType)

/-- The packet ids are appended to copies of the stack elements, so none of them is kept. -/
def handlePKTQUEUE (s : State) (e : Entry) : Option State :=
  let packetId := toString (parseIntValue 16 e.packetId)
  (s.labelPacket e).map fun labelled =>
    let e := { e with eventType := labelled.2, packetId := packetId }
    (labelled.1.alloc e).pushService e.cpu (labelled.1.next e.cpu)

def State.pushPlain (s : State) (e : Entry) : Option State :=
  some ((s.alloc e).pushService e.cpu (s.next e.cpu))

def handleEvent (s : State) (e : Entry) : Option State :=
  match e.eventType with
  | .ctxsw => handleCTXSW s e
  | .migrate => handleMIGRATE s e
  | .hirqentry => handleHIRQEntry s e
  | .hirqexit => handleHIRQExit s e
  | .looprstart => handleLOOPRSTART s e
  | .loopstart => handleLOOPSTART s e
  | .loopstop => handleLOOPSTOP s e
  | .peustart => handlePEUSTART s e
  | .sync operation false => handleSync s e operation
  | .pktqueue => handlePKTQUEUE s e
  | .pktqueuen => handlePKTQUEUE s e
  | .srventry => handleSRVENTRY s e
  | .srvexit => (handleSRVEXIT (s.alloc e) e.cpu (s.next e.cpu)).map Prod.fst
  | .srvqueue => handleSRVQUEUE s e
  | .tempsynch => handleTEMPSYNCH s e
  | .queuecond | .statecond | .statequeue | .sleep | .ttwakeup | .wakeup => s.pushPlain e
  | .sync _ true | .pktextr | .pktextrn | .threadcond | .other _ => some s

end Analyse
