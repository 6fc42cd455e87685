import SepExtract.AnalyseHeap

/- How analyse.go turns the recorded instances of the services into signatures. One loop walks
   over the entries of an instance and keeps the time of the last event and the cycles to
   deduct from the next duration; the events and the durations go to two lists. -/
namespace Analyse
open GoText

def named (names : List String) (id : Int) : Option String := if id < 0 then none else names[id.toNat]?

def stateIds : Int → Option String :=
  named ["definedindevicefile", "kernel:workpending", "kernel:reschedqdisk", "kernel:stopqdisk",
    "wl1251:readinterrupttype", "wl1251:interrupttype", "wl1251:interruptenabled", "wl1251:numtxcomplete",
    "kernel:ifforxmit", "wl1251:sizeofnextrxfromnic", "wl1251:triggernictx", "bcmdhd:singleread",
    "bcmdhd:dataavailable", "bcmdhd:ctrlframe"]

def synchIds : Int → Option String :=
  named ["temporary::completion", "bcm4329::dpc", "wl12xx:mcspirx", "wl12xx:mcspitx"]

def stateOperations : Int → Option String := named ["read", "write"]

def stateScopes : Int → Option String := named ["local", "global"]

def queueIds : Int → Option String :=
  named ["noloc", "ip::backlog", "bcm4329::driver::tx", "wl1251::driver::tx", "nic::rx", "nic::tx", "nic::Q",
    "dma::readycmd1", "dma::readycmd2", "dma::readycmd3", "dma::readycmd4", "dma::readycmd5", "dma::readycmd6",
    "dma::readycmd7", "dma::readycmd8", "dma::readycmd9", "dma::readycmd10", "dma::readycmd11",
    "dma::readycmd12", "dma::readycmd13", "dma::readycmd14", "dma::readycmd15", "dma::readycmd16", "qdisc",
    "SEPARATOR", "softirq::hi", "softirq::timer", "softirq::tx", "softirq::rx", "softirq::block",
    "softirq::block-iopoll", "softirq::tasklet", "softirq::sched", "softirq::hrtimer", "tasklet::scheduled",
    "tasklet::scheduled-hi", "hrtimer::scheduled", "omap2mcspi", "wl1251:hwwork", "HIRQ", "SEPARATOR",
    "dma::spisizes", "dma::spioperations"]

def getQueueId (id : Int) : String := (queueIds id).getD "UNKNOWN-QID"

/-- A text that is no number and a number that is no state both panic. -/
def getStateIdString (str : String) : Option String := (parseInt 16 str).bind stateIds

def Entry.getStateOperation (e : Entry) : String := (stateOperations e.pid1).getD ""

def getStateScope (id : Int) : String := (stateScopes id).getD "UNKNOWN-SCOPE"

def getStateScopeStr (str : String) : String := ((atoi str).bind stateScopes).getD "UNKNOWN-SCOPE"

def Entry.getQueueCond (e : Entry) : String := if e.packetId = "0" then "notempty" else "empty"

/-- An event of a signature. The program has the text only; the kinds of events it tells
    apart by where it appends them are constructors here. -/
inductive Event where
  | start
  | loopstart (arguments : String)
  | stop
  | restart
  | line (text : String)
  | peustart (text : String)
  | sleep (text : String)
  | wakeup (text : String)
  deriving DecidableEq, Repr

def Event.text : Event → String
  | .start => "0 START"
  | .loopstart arguments => "0 LOOPSTART\t\t" ++ arguments
  | .stop => "0 STOP\n"
  | .restart => "0 RESTART\n"
  | .line text | .peustart text | .sleep text | .wakeup text => text

inductive Duration where
  | processing (cycles : Int)
  | peu (cycles : Int)
  deriving DecidableEq, Repr

def Duration.cycles : Duration → Int
  | .processing cycles | .peu cycles => cycles

structure Signature where
  events : List Event
  duration : List Duration
  deriving DecidableEq, Repr

def Signature.key (signature : Signature) : String := "\n".intercalate (signature.events.map Event.text)

section Texts
variable (s : State)

def State.locationPadded (e : Entry) : String := ljust e.location s.longestLocationString

def Entry.loopstartArguments (e : Entry) : Option String :=
  (parseInt 16 e.packetId).bind fun pktId => (parseInt 16 e.service).map fun srv =>
    toString e.pid1 ++ " " ++ getQueueId e.pid2 ++ " " ++ getQueueId pktId ++ " " ++ toString srv

def State.loopText (e : Entry) : Option String :=
  e.loopstartArguments.map fun arguments => s.locationPadded e ++ " LOOP\t\t" ++ e.location ++ " " ++ arguments

def TempVarEntry.user (v : TempVarEntry) : String := toString v.value ++ " " ++ v.name

def State.tempsynchText (e : Entry) : String :=
  s.locationPadded e ++ " TEMPSYNCH\t" ++ " ".intercalate (e.tempVars.map TempVarEntry.user)

def State.synchText (e : Entry) (operation : Sync) : String :=
  let name := match s.addrMapSynch e.service with
    | some idx => (synchIds idx).getD ""
    | none => e.service
  s.locationPadded e ++ " " ++ operation.text ++ "\t\t" ++ name

def State.tempText (e : Entry) : String := s.locationPadded e ++ " " ++ e.eventType.text

def State.pktextrText (e : Entry) : String :=
  s.locationPadded e ++ " " ++ e.eventType.text ++ "\t" ++ e.packetId

def Entry.operation (e : Entry) : String :=
  if e.pid1 = 0 then
    if e.eventType = .pktqueuen then "ENQUEUEN" else "ENQUEUE"
  else
    if e.eventType = .pktqueuen then "DEQUEUEN" else "DEQUEUE"

/-- A packet id that is not in the map of addresses stands for queue 0. -/
def State.queueId (e : Entry) : String :=
  if e.pid2 ≠ 0 then getQueueId e.pid2
  else if e.packetId ≠ "0" then (queueIds ((s.addrMap e.packetId).getD 0)).getD "UNKNOWN"
  else "UNKNOWN"

def State.stateQueueId (e : Entry) : String :=
  if e.pid2 ≠ 0 then getQueueId e.pid2
  else
    match s.addrMap e.packetId with
    | some idx => if e.packetId ≠ "0" then (queueIds idx).getD "UNKNOWN" else "UNKNOWN"
    | none => "UNKNOWN"

def Entry.dequeued (srvkey : String) (e : Entry) : Entry :=
  if e.eventType = .srvqueue ∧ e.service ≠ srvkey ∧ e.pid1 ≠ 0 then { e with service := "0" } else e

def State.queueText (e : Entry) : String :=
  let head := s.locationPadded e ++ " " ++ e.operation ++ "\t\t" ++ e.eventType.text ++ " "
  match e.eventType with
  | .srvqueue => head ++ (if e.pid1 = 0 then e.service else "0") ++ " " ++ s.queueId e
  | .statequeue =>
    head ++ toString (parseIntValue 16 e.packetId) ++ " " ++ s.stateQueueId e ++ " " ++
      getStateScopeStr e.service
  | _ => head ++ e.packetId ++ " " ++ s.queueId e

def State.queuecondText (e : Entry) : String :=
  s.locationPadded e ++ " QUEUECOND\t" ++ getQueueId e.pid1 ++ " " ++ getQueueId e.pid2 ++ " " ++ e.getQueueCond

def State.statecondText (e : Entry) : Option String :=
  (getStateIdString e.service).map fun id =>
    s.locationPadded e ++ " STATECOND\t" ++ id ++ " " ++ e.getStateOperation ++ " " ++ getStateScope e.pid2 ++
      " " ++ toString (parseIntValue 16 e.packetId)

def Entry.peustartText (e : Entry) : String := e.location ++ " PEUSTART " ++ irqService e.peuIRQ

def State.callText (e : Entry) : String := s.locationPadded e ++ " CALL\t\t" ++ e.service

/-- No name of an LEU is ever entered in the table of names. -/
def State.wakeupText (e : Entry) : String :=
  s.locationPadded e ++ " TTWAKEUP\tUNKNOWN-LEU(pid=" ++ toString e.pid1 ++ ") " ++ e.packetId

def State.sleepText (e : Entry) : String := s.locationPadded e ++ " SLEEP"

end Texts

structure Walk where
  toDeduct : Int
  starti : Int
  startii : Int
  lastEvent : Int
  signature : Signature
  didSleep : Bool
  previous : EventType
  put : List Signature
  deriving DecidableEq, Repr

def Walk.initial : Walk := ⟨0, 0, 0, 0, ⟨[], []⟩, false, .other "", []⟩

def Walk.append (w : Walk) (event : Event) : Walk :=
  { w with signature := { w.signature with events := w.signature.events ++ [event] } }

def Walk.addDuration (w : Walk) (duration : Duration) : Walk :=
  { w with signature := { w.signature with duration := w.signature.duration ++ [duration] } }

def Walk.elapsed (w : Walk) (e : Entry) : Duration := .processing ((e.cycles - w.lastEvent) - w.toDeduct)

def Walk.begin (w : Walk) (event : Event) (e : Entry) : Walk :=
  { w.append event with lastEvent := e.cycles, toDeduct := 0 }

def Walk.emit (w : Walk) (event : Event) (e : Entry) : Walk :=
  { (w.addDuration (w.elapsed e)).append event with toDeduct := 0, lastEvent := e.cycles }

def Walk.leave (w : Walk) (event : Event) (e : Entry) : Walk :=
  { (w.append event).addDuration (w.elapsed e) with toDeduct := 0 }

def Walk.back (w : Walk) (e : Entry) : Walk := { w with lastEvent := e.cycles, toDeduct := 0 }

def Walk.finish (w : Walk) (event : Event) (e : Entry) : Walk :=
  let w := { (w.addDuration (w.elapsed e)).append event with toDeduct := 0 }
  { w with put := w.put ++ [w.signature] }

def Walk.peustart (w : Walk) (e : Entry) : Walk :=
  { ((w.addDuration (w.elapsed e)).addDuration (.peu e.peuDuration)).append (.peustart e.peustartText) with
    toDeduct := 0
    lastEvent := e.cycles }

/-- The end of the loop body, which some entries do not reach. -/
def Walk.next (w : Walk) (e : Entry) : Walk := { w with previous := e.eventType }

def EventType.waits (t : EventType) : Bool := contains t.text "SEMDOWN" || contains t.text "WAITCOMPL"

def Walk.ctxsw (s : State) (leu : LEU) (w : Walk) (e : Entry) : Walk :=
  if e.pid1 = leu.pid then
    if w.didSleep ∧ ¬ w.previous.waits then (w.leave (.sleep (s.sleepText e)) e).next e
    else { w with starti := e.cycles }.next e
  else if e.pid2 = leu.pid then
    if w.didSleep then { w with didSleep := false, lastEvent := e.cycles }.next e
    else { w with toDeduct := w.toDeduct + (e.cycles - w.starti) }
  else w.next e

def irqEnter : String := "irq_enter"

/-- The body of the loop, for an entry of an instance of the service. -/
def Walk.entry (s : State) (leu : LEU) (srvkey : String) (w : Walk) (e : Entry) : Option Walk :=
  match e.eventType with
  | .srventry =>
    if e.service = irqEnter ∧ e.service ≠ srvkey then
      some { w with starti := e.cycles, toDeduct := w.toDeduct + (e.cycles - e.cycles) }
    else if e.service = srvkey then some ((w.begin .start e).next e)
    else some ((w.leave (.line (s.callText e)) e).next e)
  | .hirqentry =>
    if srvkey ≠ irqService e.pid1 then some { w with startii := e.cycles }
    else some ((w.begin .start e).next e)
  | .hirqexit =>
    if srvkey ≠ irqService e.pid1 then some { w with toDeduct := w.toDeduct + (e.cycles - w.startii) }
    else some ((w.finish .stop e).next e)
  | .loopstart =>
    if e.location = srvkey then
      e.loopstartArguments.map fun arguments => (w.begin (.loopstart arguments) e).next e
    else (s.loopText e).map fun text => (w.emit (.line text) e).next e
  | .srvqueue =>
    if e.service ≠ srvkey then some ((w.emit (.line (s.queueText e)) e).next e)
    else if e.pid1 = DEQUEUE then some ((w.begin .start e).next e)
    else some (w.next e)
  | .srvexit =>
    if e.service = srvkey then some ((w.finish .stop e).next e)
    else if e.service ≠ irqEnter then some ((w.back e).next e)
    else some (w.next e)
  | .looprstart => some ((w.finish .restart e).next e)
  | .loopstop => some ((w.back e).next e)
  | .tempsynch => some ((w.emit (.line (s.tempsynchText e)) e).next e)
  | .sync operation false => some ((w.emit (.line (s.synchText e operation)) e).next e)
  | .sync _ true => some ((w.emit (.line (s.tempText e)) e).next e)
  | .pktextr | .pktextrn => some ((w.emit (.line (s.pktextrText e)) e).next e)
  | .pktqueue | .pktqueuen | .statequeue => some ((w.emit (.line (s.queueText e)) e).next e)
  | .queuecond => some ((w.emit (.line (s.queuecondText e)) e).next e)
  | .threadcond => none
  | .statecond => (s.statecondText e).map fun text => (w.emit (.line text) e).next e
  | .peustart => some ((w.peustart e).next e)
  | .ttwakeup =>
    if w.previous ≠ .sync .semup false ∧ w.previous ≠ .sync .compl false then
      some ((w.emit (.wakeup (s.wakeupText e)) e).next e)
    else some (w.next e)
  | .sleep => some { w with didSleep := true }
  | .ctxsw => some (w.ctxsw s leu e)
  | .other text =>
    if contains text "(TEMP)" then some ((w.emit (.line (s.tempText e)) e).next e) else some (w.next e)
  | .migrate | .wakeup => some (w.next e)

def State.walk (s : State) (leu : LEU) (srvkey : String) (w : Walk) (es : List Entry) : Option Walk :=
  es.foldlM (Walk.entry s leu srvkey) w

/-- The walk over the entries of an instance, as the loop reads and changes them. -/
def State.walkInstance (leu : LEU) (srvkey : String) : State × Walk → List Ref → Option (State × Walk) :=
  List.foldlM fun (s, w) r =>
    (w.entry s leu srvkey (s.deref r)).map fun w => (s.modify r (Entry.dequeued srvkey), w)

structure SignatureCollection where
  events : List Event
  durations : List (List Int)
  deriving DecidableEq, Repr

abbrev Profile := String → String → Option SignatureCollection

def SignatureCollection.add (duration : List Int) (c : SignatureCollection) : SignatureCollection :=
  { c with durations := c.durations ++ [duration] }

def Profile.putSignature (service : String) (p : Profile) (signature : Signature) : Profile :=
  let duration := signature.duration.map Duration.cycles
  let collection := ((p service signature.key).map (SignatureCollection.add duration)).getD
    ⟨signature.events, [duration]⟩
  Function.update p service (Function.update (p service) signature.key (some collection))

def State.signInstance (leu : LEU) (srvkey : String) (acc : State × Profile) (i : LEUentry) :
    Option (State × Profile) :=
  (State.walkInstance leu srvkey (acc.1, .initial) i.entries).map fun (s, w) =>
    (s, w.put.foldl (Profile.putSignature srvkey) acc.2)

def State.signService (acc : State × Profile) (key : LEU × String) : Option (State × Profile) :=
  (acc.1.instances key.1 key.2).foldlM (State.signInstance key.1 key.2) acc

def createSignatures (s : State) (keys : List (LEU × String)) : Option (State × Profile) :=
  keys.foldlM State.signService (s, fun _ _ => none)

structure Arithmetic (F : Type) where
  zero : F
  ofInt : Int → F
  add : F → F → F
  sub : F → F → F
  mul : F → F → F
  div : F → F → F
  abs : F → F
  trunc : F → Int

section Averages
variable {F : Type} (A : Arithmetic F)

/-- Add up under every index of the vectors; an index no vector has is not in the map. -/
def sumUp (term : Nat → Int → F) (durations : List (List Int)) (psindex : Nat) : Option F :=
  durations.foldl (fun sum d =>
    match d[psindex]? with
    | none => sum
    | some duration =>
      match sum with
      | some sum => some (A.add sum (term psindex duration))
      | none => some (term psindex duration)) none

def averages (durations : List (List Int)) : Nat → Option F :=
  sumUp A (fun _ duration => A.div (A.ofInt duration) (A.ofInt durations.length)) durations

def sds (durations : List (List Int)) (psindex : Nat) : Option F :=
  let average := fun index => (averages A durations index).getD A.zero
  (sumUp A (fun index duration => A.abs (A.sub (A.ofInt duration) (average index))) durations psindex).map
    fun sd => A.div sd (A.ofInt durations.length)

def written (durations : List (List Int)) (delayInd : Nat) : String :=
  toString (A.trunc ((averages A durations delayInd).getD A.zero)) ++ " " ++
    toString (A.trunc ((sds A durations delayInd).getD A.zero))

def processLine (durations : List (List Int)) (delayInd : Nat) : String :=
  "x                                PROCESS\t\t" ++ written A durations delayInd ++ "\n"

def isPeustart (text : String) : Bool := contains text "PEUSTART"

/-- What is written for the events: the index into the durations moves on by one after each
    event, and by one more at a PEU. -/
def writeEvents (durations : List (List Int)) : Nat → List Event → List String
  | _, [] => []
  | delayInd, event :: rest =>
    let text := event.text
    let peu := if isPeustart text then [" " ++ written A durations delayInd] else []
    let delayInd := if isPeustart text then delayInd + 1 else delayInd
    let process := if rest.isEmpty then [] else [processLine A durations delayInd]
    text :: (peu ++ "\n" :: (process ++ writeEvents durations (delayInd + 1) rest))

structure Fraction (F : Type) where
  percent : F
  count : Nat
  total : Nat
  collection : SignatureCollection

def fractions (profile : List SignatureCollection) : List (Fraction F) :=
  let signatureCount : Nat := (profile.map fun c => c.durations.length).sum
  profile.map fun c =>
    let percent := A.mul (A.div (A.ofInt c.durations.length) (A.ofInt signatureCount)) (A.ofInt 100)
    ⟨percent, c.durations.length, signatureCount, c⟩

def Fraction.writes (serviceName : String) (f : Fraction F) : List String :=
  ["SIGSTART\nNAME " ++ serviceName ++ "\nPEU cpu\nRESOURCES cycles normal\n",
    "FRACTION " ++ toString (A.trunc f.percent) ++ "%  " ++ toString f.count ++ " " ++ toString f.total ++ "\n\n"] ++
  writeEvents A f.collection.durations 0 f.collection.events ++ ["SIGEND\n\n"]

def storeSignatures (serviceName : String) (sorted : List (Fraction F)) : List (String × List String) :=
  sorted.zipIdx.map fun (f, fractionNr) =>
    ("./signatures.mine/" ++ serviceName ++ "0SIGNR" ++ toString fractionNr, f.writes A serviceName)

end Averages

end Analyse
