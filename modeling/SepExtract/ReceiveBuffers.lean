import Mathlib

/- The receive loop dhdsdio_readframes of dhd_sdio.c, with its read-ahead and its header-first
   path, and what becomes of the packets that it obtains with PKTGET. -/
namespace ReceiveBuffers

def firstread : Nat := 32

def sdpcmHdrlen : Nat := 12

def maxRxDatasz : Nat := 2048

def sdalign : Nat := 32

/-- The bytes of the frame header: the hardware header, then the software header at 4. -/
abbrev Header := Nat → UInt8

namespace Header

def len (h : Header) : Nat := (h 0).toNat + 256 * (h 1).toNat

def check (h : Header) : Nat := (h 2).toNat + 256 * (h 3).toNat

def seq (h : Header) : UInt8 := h 4

def chan (h : Header) : Nat := (h 5).toNat % 16

def glomdesc (h : Header) : Bool := 128 ≤ (h 5).toNat

def nextlen (h : Header) : Nat := (h 6).toNat

def doff (h : Header) : Nat := (h 7).toNat

def fcbits (h : Header) : UInt8 := h 8

def window (h : Header) : UInt8 := h 9

end Header

def controlChannel : Nat := 0

def eventChannel : Nat := 1

def glomChannel : Nat := 3

def testChannel : Nat := 15

structure Config where
  /-- bus->bus is SPI_BUS. -/
  spi : Bool
  readahead : Bool
  roundup : Nat
  blocksize : Nat
  forcealign : Bool
  retrydata : Bool

/-- What the loop keeps in the bus; a packet is named by the turn that obtained it. -/
structure Bus where
  rxSeq : UInt8
  nextlen : Nat
  rxskip : Bool
  glom : Bool
  glomd : Option Nat
  usebufpool : Bool
  flowcontrol : UInt8
  txMax : UInt8

structure Glommed where
  cnt : UInt8
  glom : Bool
  nextlen : Nat
  rxskip : Bool

structure Turn where
  /-- busstate is DHD_BUS_DOWN. -/
  down : Bool
  rxglom : Glommed
  /-- PKTGET succeeds. -/
  allocated : Bool
  headerRead : Bool
  /-- The read of the frame, or of what is left of it, succeeds. -/
  dataRead : Bool
  rxhdr : Header
  txSeq : UInt8
  /-- A NAK that dhdsdio_rxfail sends arrives. -/
  nak : Bool
  /-- dhdsdio_read_control asks for retransmission. -/
  controlFails : Bool
  /-- dhd_prot_hdrpull returns 0. -/
  hdrpull : Bool

inductive Event where
  | get (pkt : Nat)
  | free (pkt : Nat)
  | rxFrame (pkt : Nat)
  | testrcv (pkt : Nat)
  /-- The packet is stored as bus->glomd, where old was. -/
  | glomd (pkt : Nat) (old : Option Nat)
deriving DecidableEq

/-- How a turn goes on: with the next one, out of the loop, or to the label deliver. -/
inductive Read where
  | next (bus : Bus) (log : List Event)
  | stop (bus : Bus) (finished : Bool)
  | deliver (bus : Bus) (log : List Event)

def rxfail (t : Turn) (bus : Bus) (rtx : Bool) : Bus :=
  { bus with rxskip := bus.rxskip || (rtx && t.nak), nextlen := 0 }

def readControl (t : Turn) (bus : Bus) : Bus :=
  if t.controlFails then rxfail t bus true else bus

/-- The read-ahead length, flow control, sequence number and window of a header. -/
def noted (t : Turn) (bus : Bus) : Bus :=
  let h := t.rxhdr
  { bus with
    nextlen := if maxRxDatasz < h.nextlen * 16 then 0 else h.nextlen
    flowcontrol := h.fcbits
    rxSeq := h.seq
    txMax := if 0x40 < (h.window - t.txSeq).toNat then bus.txMax else h.window }

def pktfree2 (cfg : Config) (bus : Bus) (pkt : Nat) : List Event :=
  if !cfg.spi || bus.usebufpool then [.free pkt] else []

/-- The read-ahead path from its check of the header on. -/
def checked (cfg : Config) (i : Nat) (t : Turn) (nextlen : Nat) (bus : Bus) (got : List Event) : Read :=
  let h := t.rxhdr
  if h.len = 0 ∧ h.check = 0 then .next bus (got ++ pktfree2 cfg bus i)
  else if h.len ^^^ h.check ≠ 0xffff then .next (rxfail t bus false) (got ++ pktfree2 cfg bus i)
  else if h.len < sdpcmHdrlen then .next bus (got ++ pktfree2 cfg bus i)
  else if nextlen ≠ (h.len + 15) / 16 then .next (rxfail t bus (!cfg.spi)) (got ++ pktfree2 cfg bus i)
  else
    let bus := noted t bus
    if h.chan = controlChannel then
      if cfg.spi then .next (readControl t bus) (got ++ if bus.usebufpool then [.free i] else [])
      else .next (rxfail t { bus with nextlen := 0 } true) (got ++ pktfree2 cfg bus i)
    else if cfg.spi && !bus.usebufpool then .next bus got
    else if h.doff < sdpcmHdrlen ∨ h.len < h.doff then .next (rxfail t bus false) (got ++ pktfree2 cfg bus i)
    else .deliver bus got

def readAhead (cfg : Config) (i : Nat) (t : Turn) (bus : Bus) : Read :=
  let nextlen := bus.nextlen
  let bus := { bus with nextlen := 0 }
  if t.allocated then
    let bus := if cfg.spi then { bus with usebufpool := true } else bus
    if t.dataRead then checked cfg i t nextlen bus [.get i]
    else .next (rxfail t bus (!cfg.spi)) [.get i, .free i]
  else if cfg.spi then
    -- the frame is read into the control buffer
    let bus := { bus with usebufpool := false }
    if t.dataRead then checked cfg i t nextlen bus [] else .next (rxfail t bus false) []
  else .next bus []

def rdlen (cfg : Config) (len : Nat) : Nat :=
  let rdlen := len - firstread
  let pad := (cfg.blocksize - rdlen % cfg.blocksize) % 2 ^ 16
  let rdlen :=
    if cfg.roundup ≠ 0 ∧ cfg.blocksize ≠ 0 ∧ cfg.blocksize < rdlen then
      if pad ≤ cfg.roundup ∧ pad < cfg.blocksize ∧ rdlen + pad + firstread < maxRxDatasz then rdlen + pad else rdlen
    else if rdlen % sdalign ≠ 0 then rdlen + (sdalign - rdlen % sdalign)
    else rdlen
  if cfg.forcealign then (rdlen + 3) / 4 * 4 % 2 ^ 16 else rdlen

def readHeader (cfg : Config) (i : Nat) (t : Turn) (bus : Bus) : Read :=
  let h := t.rxhdr
  let retry := h.chan = eventChannel || cfg.retrydata
  if cfg.spi then .stop bus false
  else if !t.headerRead then .next (rxfail t bus true) []
  else if h.len = 0 ∧ h.check = 0 then .stop bus true
  else if h.len ^^^ h.check ≠ 0xffff then .next (rxfail t bus false) []
  else if h.len < sdpcmHdrlen then .next bus []
  else if h.doff < sdpcmHdrlen ∨ h.len < h.doff then .next (rxfail t bus false) []
  else
    let bus := noted t bus
    if h.chan = controlChannel then .next (readControl t bus) []
    else if maxRxDatasz < rdlen cfg h.len + firstread then .next (rxfail t bus false) []
    else if !t.allocated then .next (rxfail t bus retry) []
    else if !t.dataRead then .next (rxfail t bus retry) [.get i, .free i]
    else .deliver bus [.get i]

def read (cfg : Config) (i : Nat) (t : Turn) (bus : Bus) : Read :=
  if cfg.readahead && bus.nextlen != 0 then readAhead cfg i t bus else readHeader cfg i t bus

/-- From the label deliver on. -/
def deliver (i : Nat) (t : Turn) (bus : Bus) : Bus × List Event :=
  let h := t.rxhdr
  if h.chan = glomChannel then
    if h.glomdesc then ({ bus with glomd := some i }, [.glomd i bus.glomd]) else (rxfail t bus false, [])
  else if h.chan = testChannel then (bus, [.testrcv i])
  else if h.len - h.doff = 0 then (bus, [.free i])
  else if !t.hdrpull then (bus, [.free i])
  else (bus, [.rxFrame i])

def turnLog (cfg : Config) (i : Nat) (t : Turn) (bus : Bus) : List Event :=
  match read cfg i t bus with
  | .stop _ _ => []
  | .next _ log => log
  | .deliver bus log => log ++ (deliver i t bus).2

structure Visit where
  turn : Nat
  bus : Bus
  log : List Event

structure Loop where
  bus : Bus
  rxleft : Nat
  finished : Bool
  visits : List Visit

namespace Loop

def advance (s : Loop) (bus : Bus) : Loop :=
  { s with bus := { bus with rxSeq := bus.rxSeq + 1 }, rxleft := s.rxleft - 1 }

def glommed (s : Loop) (g : Glommed) : Loop :=
  { s with
    bus := { s.bus with
      glomd := none
      glom := g.glom
      nextlen := g.nextlen
      rxskip := g.rxskip
      rxSeq := s.bus.rxSeq + g.cnt }
    rxleft := (if g.cnt.toNat < s.rxleft then s.rxleft - g.cnt.toNat else 1) - 1 }

def run (cfg : Config) (turns : Nat → Turn) : Nat → Nat → Loop → Loop
  | 0, _, s => s
  | fuel + 1, i, s =>
    if s.bus.rxskip || s.rxleft == 0 || (turns i).down then s
    else if s.bus.glom || s.bus.glomd.isSome then run cfg turns fuel (i + 1) (s.glommed (turns i).rxglom)
    else
      let s : Loop := { s with visits := s.visits ++ [⟨i, s.bus, turnLog cfg i (turns i) s.bus⟩] }
      match read cfg i (turns i) s.bus with
      | .stop bus finished => { s with bus := bus, finished := finished }
      | .next bus _ => run cfg turns fuel (i + 1) (s.advance bus)
      | .deliver bus _ => run cfg turns fuel (i + 1) (s.advance (deliver i (turns i) bus).1)

end Loop

/-- dhdsdio_readframes; pktgen holds pktgen_count in the receive mode of the packet generator. -/
def readframes (cfg : Config) (turns : Nat → Turn) (bus : Bus) (maxframes : Nat) (pktgen : Option Nat) : Loop × Nat :=
  let maxframes := pktgen.getD maxframes
  let s := Loop.run cfg turns maxframes 0 ⟨bus, maxframes, false, []⟩
  let rxSeq := if s.bus.rxskip then s.bus.rxSeq - 1 else s.bus.rxSeq
  ({ s with bus := { s.bus with rxSeq := rxSeq } }, maxframes - s.rxleft)

inductive Disposed (pkt : Nat) : Event → Prop
  | free : Disposed pkt (.free pkt)
  | rxFrame : Disposed pkt (.rxFrame pkt)
  | testrcv : Disposed pkt (.testrcv pkt)
  | glomd : Disposed pkt (.glomd pkt none)

def Settled (v : Visit) : Prop := v.log = [] ∨ ∃ e, v.log = [.get v.turn, e] ∧ Disposed v.turn e

def Stray (cfg : Config) (turns : Nat → Turn) (v : Visit) : Prop :=
  (∃ bus log, read cfg v.turn (turns v.turn) v.bus = .deliver bus log) ∧
    (turns v.turn).rxhdr.chan = glomChannel ∧ (turns v.turn).rxhdr.glomdesc = false

def Proper (i : Nat) (bus : Bus) : Read → Prop
  | .next _ log => log = [] ∨ log = [.get i, .free i]
  | .stop _ _ => True
  | .deliver after log => log = [.get i] ∧ after.glomd = bus.glomd

section
variable {cfg : Config} {turns : Nat → Turn} {i nextlen : Nat} {t : Turn} {bus : Bus}

theorem pktfree2_owned (owned : cfg.spi = true → bus.usebufpool = true) : pktfree2 cfg bus i = [.free i] := by
  unfold pktfree2
  cases spi : cfg.spi with
  | false => rfl
  | true => simp [owned spi]

theorem proper_ite {c : Prop} [Decidable c] {r q : Read} (yes : c → Proper i bus r) (no : ¬ c → Proper i bus q) :
    Proper i bus (if c then r else q) := by
  split
  · exact yes ‹c›
  · exact no ‹¬ c›

theorem checked_packet (owned : cfg.spi = true → bus.usebufpool = true) :
    Proper i bus (checked cfg i t nextlen bus [.get i]) := by
  have freed : [.get i] ++ pktfree2 cfg bus i = [.get i, .free i] := by
    rw [pktfree2_owned owned]
    rfl
  unfold checked
  refine proper_ite (fun _ => .inr freed) fun _ => proper_ite (fun _ => .inr freed) fun _ => ?_
  refine proper_ite (fun _ => .inr freed) fun _ => proper_ite (fun _ => .inr freed) fun _ => ?_
  refine proper_ite (fun _ => proper_ite (fun spi => .inr ?_) fun _ => .inr freed) fun _ => ?_
  · change [Event.get i] ++ (if bus.usebufpool then [Event.free i] else []) = _
    rw [if_pos (owned spi)]
    rfl
  · refine proper_ite (fun missing => ?_) fun _ => proper_ite (fun _ => .inr freed) fun _ => ⟨rfl, rfl⟩
    obtain ⟨spi, unpooled⟩ := Bool.and_eq_true_iff.mp missing
    change (!bus.usebufpool) = true at unpooled
    rw [owned spi] at unpooled
    cases unpooled

theorem checked_control (spi : cfg.spi = true) (pool : bus.usebufpool = false) :
    Proper i bus (checked cfg i t nextlen bus []) := by
  have none : [] ++ pktfree2 cfg bus i = [] := by simp [pktfree2, spi, pool]
  unfold checked
  refine proper_ite (fun _ => .inl none) fun _ => proper_ite (fun _ => .inl none) fun _ => ?_
  refine proper_ite (fun _ => .inl none) fun _ => proper_ite (fun _ => .inl none) fun _ => ?_
  refine proper_ite (fun _ => proper_ite (fun _ => .inl ?_) fun _ => .inl none) fun _ => ?_
  · change [] ++ (if bus.usebufpool then [Event.free i] else []) = _
    rw [pool]
    rfl
  · refine proper_ite (fun _ => .inl rfl) fun pooled => ?_
    refine absurd ?_ pooled
    change (cfg.spi && !bus.usebufpool) = true
    rw [spi, pool]
    rfl

theorem readAhead_proper : Proper i bus (readAhead cfg i t bus) := by
  unfold readAhead
  refine proper_ite (fun _ => proper_ite (fun _ => ?_) fun _ => .inr rfl) fun _ => ?_
  · cases spi : cfg.spi with
    | false => exact checked_packet (by simp [spi])
    | true => exact checked_packet (fun _ => rfl)
  · refine proper_ite (fun spi => proper_ite (fun _ => ?_) fun _ => .inl rfl) fun _ => .inl rfl
    exact checked_control spi rfl

theorem readHeader_proper : Proper i bus (readHeader cfg i t bus) := by
  unfold readHeader
  refine proper_ite (fun _ => trivial) fun _ => proper_ite (fun _ => .inl rfl) fun _ => ?_
  refine proper_ite (fun _ => trivial) fun _ => proper_ite (fun _ => .inl rfl) fun _ => ?_
  refine proper_ite (fun _ => .inl rfl) fun _ => proper_ite (fun _ => .inl rfl) fun _ => ?_
  refine proper_ite (fun _ => .inl rfl) fun _ => proper_ite (fun _ => .inl rfl) fun _ => ?_
  refine proper_ite (fun _ => .inl rfl) fun _ => ?_
  exact proper_ite (fun _ => .inr rfl) fun _ => ⟨rfl, rfl⟩

theorem read_proper (cfg : Config) (i : Nat) (t : Turn) (bus : Bus) : Proper i bus (read cfg i t bus) := by
  unfold read
  split
  · exact readAhead_proper
  · exact readHeader_proper

theorem deliver_log (free : bus.glomd = none) :
    (t.rxhdr.chan = glomChannel ∧ t.rxhdr.glomdesc = false ∧ (deliver i t bus).2 = []) ∨
    (¬ (t.rxhdr.chan = glomChannel ∧ t.rxhdr.glomdesc = false) ∧ ∃ e, (deliver i t bus).2 = [e] ∧ Disposed i e) := by
  unfold deliver
  dsimp only
  split
  · rename_i glom
    cases flag : t.rxhdr.glomdesc with
    | false => exact .inl ⟨glom, rfl, rfl⟩
    | true => exact .inr ⟨by simp, .glomd i none, by rw [if_pos rfl, free], .glomd⟩
  · rename_i other
    refine .inr ⟨fun stray => other stray.1, ?_⟩
    split
    · exact ⟨_, rfl, .testrcv⟩
    split
    · exact ⟨_, rfl, .free⟩
    split
    · exact ⟨_, rfl, .free⟩
    · exact ⟨_, rfl, .rxFrame⟩

def Recorded (cfg : Config) (turns : Nat → Turn) (v : Visit) : Prop :=
  v.bus.glomd = none ∧ v.log = turnLog cfg v.turn (turns v.turn) v.bus

theorem settled_iff {v : Visit} (recorded : Recorded cfg turns v) : Settled v ↔ ¬ Stray cfg turns v := by
  obtain ⟨vacant, log⟩ := recorded
  have proper := read_proper cfg v.turn (turns v.turn) v.bus
  unfold Settled Stray
  rw [log, turnLog]
  cases step : read cfg v.turn (turns v.turn) v.bus with
  | next after log =>
    rw [step] at proper
    refine iff_of_true ?_ fun stray => ?_
    · rcases proper with none | freed
      · exact .inl none
      · exact .inr ⟨_, freed, .free⟩
    · obtain ⟨⟨_, _, other⟩, _⟩ := stray
      cases other
  | stop after finished =>
    refine iff_of_true (.inl rfl) fun stray => ?_
    obtain ⟨⟨_, _, other⟩, _⟩ := stray
    cases other
  | deliver after log =>
    rw [step] at proper
    obtain ⟨rfl, same⟩ := proper
    rcases deliver_log (i := v.turn) (t := turns v.turn) (same.trans vacant) with
      ⟨glom, flag, lost⟩ | ⟨other, e, kept, disposed⟩
    · refine iff_of_false (fun settled => ?_) fun fine => fine ⟨⟨after, _, rfl⟩, glom, flag⟩
      simp only [lost, List.append_nil] at settled
      obtain none | ⟨e, both, _⟩ := settled
      · cases none
      · cases both
    · refine iff_of_true (.inr ⟨e, by simp only [kept]; rfl, disposed⟩) fun stray => other stray.2

theorem stray_log {v : Visit} (recorded : Recorded cfg turns v) (stray : Stray cfg turns v) :
    v.log = [.get v.turn] := by
  obtain ⟨vacant, log⟩ := recorded
  obtain ⟨⟨after, got, step⟩, glom, flag⟩ := stray
  have proper := read_proper cfg v.turn (turns v.turn) v.bus
  rw [step] at proper
  obtain ⟨rfl, _⟩ := proper
  rw [log, turnLog, step]
  simp [deliver, glom, flag]

theorem run_recorded {fuel : Nat} {s : Loop} (before : ∀ v ∈ s.visits, Recorded cfg turns v) :
    ∀ v ∈ (Loop.run cfg turns fuel i s).visits, Recorded cfg turns v := by
  induction fuel generalizing i s with
  | zero => exact before
  | succ fuel ih =>
    simp only [Loop.run]
    split
    · exact before
    split
    · exact ih before
    · rename_i vacant
      have recorded : ∀ v ∈ s.visits ++ [⟨i, s.bus, turnLog cfg i (turns i) s.bus⟩], Recorded cfg turns v := by
        intro v inside
        rcases List.mem_append.mp inside with old | new
        · exact before v old
        · rw [List.mem_singleton.mp new]
          refine ⟨?_, rfl⟩
          simp only [Bool.or_eq_true, not_or, Bool.not_eq_true, Option.isSome_eq_false_iff] at vacant
          exact Option.isNone_iff_eq_none.mp vacant.2
      split
      · exact recorded
      · exact ih recorded
      · exact ih recorded

/-- The number of frames allowed bounds the turns, so the loop ends by its own tests. -/
theorem run_ends {fuel : Nat} {s : Loop} (enough : s.rxleft ≤ fuel) (more : Nat) :
    Loop.run cfg turns (fuel + more) i s = Loop.run cfg turns fuel i s := by
  induction fuel generalizing i s with
  | zero =>
    cases more with
    | zero => rfl
    | succ more =>
      have none : s.rxleft = 0 := Nat.le_zero.mp enough
      simp [Loop.run, none]
  | succ fuel ih =>
    rw [Nat.add_right_comm]
    simp only [Loop.run]
    split
    · rfl
    split
    · rw [ih]
      simp only [Loop.glommed]
      split <;> omega
    · split
      · rfl
      · rw [ih (Nat.sub_le_of_le_add enough)]
      · rw [ih (Nat.sub_le_of_le_add enough)]

end

theorem buffers_settled_iff (cfg : Config) (turns : Nat → Turn) (bus : Bus) (maxframes : Nat) (pktgen : Option Nat) :
    ((∀ v ∈ (readframes cfg turns bus maxframes pktgen).1.visits, Settled v) ↔
      ∀ v ∈ (readframes cfg turns bus maxframes pktgen).1.visits, ¬ Stray cfg turns v) ∧
    ∀ v ∈ (readframes cfg turns bus maxframes pktgen).1.visits, ∀ pkt old, .glomd pkt old ∈ v.log → old = none := by
  have recorded : ∀ v ∈ (readframes cfg turns bus maxframes pktgen).1.visits, Recorded cfg turns v :=
    run_recorded nofun
  refine ⟨forall₂_congr fun v inside => settled_iff (recorded v inside), fun v inside pkt old stored => ?_⟩
  by_cases stray : Stray cfg turns v
  · rw [stray_log (recorded v inside) stray] at stored
    simp at stored
  · rcases (settled_iff (recorded v inside)).mpr stray with none | ⟨e, log, disposed⟩
    · rw [none] at stored
      cases stored
    · rw [log] at stored
      simp only [List.mem_cons, reduceCtorEq, List.not_mem_nil, or_false, false_or] at stored
      subst stored
      cases disposed
      rfl

def superframe : Turn :=
  ⟨false, ⟨0, false, 0, false⟩, true, true, true, fun i => [16, 0, 0xef, 0xff, 0, 3, 0, 12, 0, 0].getD i 0, 0,
    true, false, true⟩

def superframeRead : Loop :=
  (readframes ⟨false, true, 0, 0, false, false⟩ (fun _ => superframe) ⟨0, 0, false, false, none, false, 0, 0⟩
    1 none).1

theorem superframe_lost :
    superframeRead.visits.map Visit.log = [[.get 0]] ∧ ¬ ∀ v ∈ superframeRead.visits, Settled v := by
  have logs : superframeRead.visits.map Visit.log = [[.get 0]] := by decide
  refine ⟨logs, fun settled => ?_⟩
  have first : [.get 0] ∈ superframeRead.visits.map Visit.log := by rw [logs]; exact List.mem_cons_self
  obtain ⟨v, inside, log⟩ := List.mem_map.mp first
  have short : v.log.length = 1 := congrArg List.length log
  rcases settled v inside with none | ⟨e, pair, _⟩
  · simp [none] at short
  · simp [pair] at short

end ReceiveBuffers
