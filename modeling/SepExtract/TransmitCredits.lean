import Mathlib
import SepExtract.CreditWindow
import SepExtract.PacketQueue
import SepExtract.ReceiveBuffers
import SepExtract.TransitionRuns

/- Sending under credits in dhd_sdio.c. The window byte of every frame received says how far tx_seq
   may go, and data and control frames are sent by several functions as long as it has not come up
   to tx_max. Both counters are bytes that wrap. -/
namespace TransmitCredits

open PacketQueue (Pktq dhdPrecEnq)
open CreditWindow

variable {ι P : Type}

def txretries : Nat := 2

structure Window where
  txSeq : UInt8
  txMax : UInt8
deriving DecidableEq

def Window.credit (w : Window) : UInt8 := w.txMax - w.txSeq

inductive Channel where
  | control
  | data
deriving DecidableEq

inductive Event where
  /-- A call of dhd_bcmsdh_send_buf with the sequence number in the header, and what it returns. -/
  | send (chan : Channel) (seq : UInt8) (ret : Int) (after : Window)
  /-- A frame or a superframe is received, with a window in its header. -/
  | offer (window : UInt8) (after : Window)
deriving DecidableEq

inductive Clk where
  | none
  | sdonly
  | pending
  | avail
deriving DecidableEq

structure Config where
  rx : ReceiveBuffers.Config
  txbound : Nat
  rxbound : Nat
  txminmax : Nat
  wmeDp : BitVec 8
  /-- DHDTHREAD is set and CONFIG_BCMDHD_DISABLE_EARLY_TX is not. -/
  earlyTx : Bool
  /-- The bus is run by interrupts, not polled. -/
  intr : Bool

structure Bus (P : Type) where
  cfg : Config
  rx : ReceiveBuffers.Bus
  txSeq : UInt8
  txq : Pktq P
  ctrlFrameStat : Bool
  /-- The sequence number in the frame that waits in ctrl_frame_buf. -/
  ctrlFrameSeq : UInt8
  clkstate : Clk
  fcstate : Bool
  /-- busstate is DHD_BUS_DOWN. -/
  down : Bool
  dongleReset : Bool
  log : List Event

structure Frame where
  /-- There is no packet with room for the header. -/
  nomem : Bool
  /-- What the tries to send it return. -/
  rets : Nat → Int
  /-- The read of intstatus fails. -/
  regfail : Bool

structure Status where
  clkstate : Clk
  fcstate : Bool
  flowcontrol : UInt8
  rxskip : Bool
  down : Bool
  /-- PKT_AVAILABLE, with the clock there to read it. -/
  available : Bool

structure Turn where
  /-- The frames of the early transmission. -/
  frames : Nat → Frame
  rx : ReceiveBuffers.Turn
  /-- The header of the superframe that dhdsdio_rxglom reads, if it gets that far. -/
  superframe : Option ReceiveBuffers.Header

structure Settings where
  cfg : Config
  clkstate : Clk
  down : Bool
  dongleReset : Bool

/-- Where a thread is between sections under the bus lock. -/
inductive Pc where
  | idle
  /-- In dhd_wait_for_event of dhd_bus_txctl. -/
  | waiting
  /-- In dhdsdio_readframes, with rxleft. -/
  | reading (rxleft : Nat)
  /-- In dhdsdio_dpc behind it, with rxdone. -/
  | sending (rxdone : Bool)
deriving DecidableEq

namespace Bus

def window (b : Bus P) : Window := ⟨b.txSeq, b.rx.txMax⟩

def dataok (b : Bus P) : Bool := 1 < b.window.credit && b.window.credit &&& 0x80 == 0

def txctlok (b : Bus P) : Bool := b.window.credit != 0 && b.window.credit &&& 0x80 == 0

def precMap (b : Bus P) : BitVec 32 := (~~~b.rx.flowcontrol.toBitVec).setWidth 32

/-- dhd_bcmsdh_send_buf, and the step of tx_seq behind it. -/
def sendBuf (chan : Channel) (seq : UInt8) (ret : Int) (b : Bus P) : Bus P :=
  let b := if ret = 0 then { b with txSeq := b.txSeq + 1 } else b
  { b with log := b.log ++ [.send chan seq ret b.window] }

def sendLoop (retry : Bool) (chan : Channel) (seq : UInt8) : Nat → (Nat → Int) → Bus P → Bus P
  | 0, rets, b => b.sendBuf chan seq (rets 0)
  | left + 1, rets, b =>
    if rets 0 < 0 ∧ retry then sendLoop retry chan seq left (fun i => rets (i + 1)) (b.sendBuf chan seq (rets 0))
    else b.sendBuf chan seq (rets 0)

def txpkt (f : Frame) (b : Bus P) : Bus P :=
  if b.dongleReset || f.nomem then b
  else b.sendLoop b.cfg.rx.retrydata .data b.txSeq txretries f.rets

/-- The loop of dhdsdio_sendfromq from frame cnt on; it gives out the number of frames. -/
def sendFrames (precMap : BitVec 32) (frames : Nat → Frame) : Nat → Nat → Bus P → Bus P × Nat
  | 0, cnt, b => (b, cnt)
  | left + 1, cnt, b =>
    if !b.dataok then (b, cnt)
    else
      match b.txq.mdeq precMap with
      | (none, txq) => ({ b with txq := txq }, cnt)
      | (some _, txq) =>
        let b := { b with txq := txq }.txpkt (frames cnt)
        -- in poll mode the status is read after every frame but the first
        if !b.cfg.intr && cnt != 0 && (frames cnt).regfail then (b, cnt)
        else sendFrames precMap frames left (cnt + 1) b

def sendfromq (maxframes : Nat) (frames : Nat → Frame) (b : Bus P) : Bus P × Nat :=
  b.sendFrames b.precMap frames maxframes 0

def txdata (pkt : P) (prec : Nat) (b : Bus P) : Bus P :=
  { b with txq := (dhdPrecEnq b.cfg.wmeDp b.txq pkt prec).queue }

/-- dhd_bus_txctl up to its wait. -/
def txctl (rets : Nat → Int) (b : Bus P) : Bus P × Pc :=
  if b.dongleReset then (b, .idle)
  else if !b.txctlok then ({ b with ctrlFrameStat := true, ctrlFrameSeq := b.txSeq }, .waiting)
  else (b.sendLoop true .control b.txSeq txretries rets, .idle)

/-- The rest of it; whether the frame has been sent or not, it no longer waits. -/
def woken (b : Bus P) : Bus P := { b with ctrlFrameStat := false }

def admits (b : Bus P) : Bool :=
  b.clkstate = .avail && !b.fcstate && b.txq.mlen (~~~b.rx.flowcontrol.toBitVec.setWidth 32) != 0 && b.dataok

def earlyTx (frames : Nat → Frame) (b : Bus P) : Bus P :=
  if b.cfg.earlyTx && b.admits then (b.sendfromq b.cfg.txbound frames).1 else b

/-- A header with a window is read, and the receiver leaves rx. -/
def receive (window : UInt8) (rx : ReceiveBuffers.Bus) (b : Bus P) : Bus P :=
  { b with rx := rx, log := b.log ++ [.offer window ⟨b.txSeq, rx.txMax⟩] }

def rxglom (superframe : Option ReceiveBuffers.Header) (rx : ReceiveBuffers.Bus) (b : Bus P) : Bus P :=
  match superframe with
  | none => { b with rx := rx }
  | some h => b.receive h.window { rx with txMax := if 0x40 < (h.window - b.txSeq).toNat then rx.txMax else h.window }

def left (b : Bus P) : Bus P :=
  { b with rx := { b.rx with rxSeq := if b.rx.rxskip then b.rx.rxSeq - 1 else b.rx.rxSeq } }

/-- A turn of the loop of dhdsdio_readframes that is entered. -/
def turn (t : Turn) (rxleft : Nat) (b : Bus P) : Bus P × Pc :=
  let loop : ReceiveBuffers.Loop := ⟨b.rx, rxleft, false, []⟩
  let rxTurn := { t.rx with txSeq := b.txSeq }
  if b.rx.glom || b.rx.glomd.isSome then
    let loop := loop.glommed t.rx.rxglom
    (b.rxglom t.superframe loop.bus, .reading loop.rxleft)
  else
    match ReceiveBuffers.read b.cfg.rx rxleft rxTurn b.rx with
    | .stop rx finished => ((b.receive t.rx.rxhdr.window rx).left, .sending finished)
    | .next rx _ => (b.receive t.rx.rxhdr.window (loop.advance rx).bus, .reading (loop.advance rx).rxleft)
    | .deliver rx _ =>
      let loop := loop.advance (ReceiveBuffers.deliver rxleft rxTurn rx).1
      (b.receive t.rx.rxhdr.window loop.bus, .reading loop.rxleft)

def readTurn (t : Turn) (rxleft : Nat) (b : Bus P) : Bus P × Pc :=
  if b.rx.rxskip || rxleft == 0 || b.down then (b.left, .sending false)
  else (b.earlyTx t.frames).turn t rxleft

/-- dhdsdio_dpc up to its reading of frames. -/
def dpc (status : Status) (b : Bus P) : Bus P × Pc :=
  if b.down then (b, .idle)
  else
    ({ b with
        clkstate := status.clkstate
        fcstate := status.fcstate
        down := status.down
        rx := { b.rx with flowcontrol := status.flowcontrol, rxskip := status.rxskip } },
      if status.available then .reading b.cfg.rxbound else .sending true)

/-- The rest of it. A control frame that waits gets the sequence number of now, and goes first. -/
def transmit (ret : Int) (frames : Nat → Frame) (rxdone : Bool) (b : Bus P) : Bus P :=
  if b.txctlok && b.ctrlFrameStat && b.clkstate = .avail then
    let b := { b with ctrlFrameSeq := b.txSeq }
    { b.sendBuf .control b.ctrlFrameSeq ret with ctrlFrameStat := false }
  else if b.admits && b.cfg.txbound != 0 then
    (b.sendfromq (if rxdone then b.cfg.txbound else min b.cfg.txbound b.cfg.txminmax) frames).1
  else b

def set (settings : Settings) (b : Bus P) : Bus P :=
  { b with
    cfg := settings.cfg
    clkstate := settings.clkstate
    down := settings.down
    dongleReset := settings.dongleReset }

def stop (b : Bus P) : Bus P :=
  { b with
    down := true
    clkstate := .sdonly
    txq := { b.txq with q := fun _ => [], len := 0 }
    rx := { b.rx with glom := false, glomd := none, rxskip := false, rxSeq := 0, txMax := 4 }
    txSeq := 0
    log := [] }

end Bus

inductive Act (P : Type) where
  | txdata (pkt : P) (prec : Nat)
  | txctl (rets : Nat → Int)
  | woken
  | dpc (status : Status)
  | turn (t : Turn)
  | transmit (ret : Int) (frames : Nat → Frame)
  | set (settings : Settings)

def Bus.perform (b : Bus P) : Pc → Act P → Option (Bus P × Pc)
  | .idle, .txdata pkt prec => some (b.txdata pkt prec, .idle)
  | .idle, .txctl rets => some (b.txctl rets)
  | .waiting, .woken => some (b.woken, .idle)
  | .idle, .dpc status => some (b.dpc status)
  | .reading rxleft, .turn t => some (b.readTurn t rxleft)
  | .sending rxdone, .transmit ret frames => some (b.transmit ret frames rxdone, .idle)
  | .idle, .set settings => some (b.set settings, .idle)
  | _, _ => none

structure System (ι P : Type) where
  bus : Bus P
  pc : ι → Pc

def step [DecidableEq ι] (s : System ι P) (a : ι × Act P) : Option (System ι P) :=
  (s.bus.perform (s.pc a.1) a.2).map fun done => ⟨done.1, Function.update s.pc a.1 done.2⟩

def Event.after : Event → Window
  | .send _ _ _ after => after
  | .offer _ after => after

def Event.delivers : Event → Bool
  | .send _ _ ret _ => ret == 0
  | .offer _ _ => false

def Window.last (w : Window) (log : List Event) : Window := log.foldl (fun _ e => e.after) w

/-- What an event may do to the counters. A frame carries tx_seq and takes a credit, and one of
    data leaves another. -/
def Event.InOrder (before : Window) : Event → Prop
  | .send chan seq ret after =>
    seq = before.txSeq ∧ 0 < before.credit ∧
      after = ⟨if ret = 0 then before.txSeq + 1 else before.txSeq, before.txMax⟩ ∧
      after.credit ≤ 0x40 ∧ (chan = .data → 0 < after.credit)
  | .offer window after =>
    after.txSeq = before.txSeq ∧ (after.txMax = before.txMax ∨ after.txMax = window) ∧ after.credit ≤ 0x40

def Orderly : Window → List Event → Prop
  | _, [] => True
  | w, e :: log => e.InOrder w ∧ Orderly e.after log

def Event.entered (a : Account) : Event → Account
  | .send _ _ ret _ => if ret = 0 then a.send else a
  | .offer window after => if after.txMax = window then a.offer 256 0x40 window.toNat else a

def fresh : Window := ⟨0, 4⟩

def account (log : List Event) : Account := log.foldl Event.entered ⟨0, 4⟩

/-- The counters are the residues of an account in which no frame is sent that was not granted. -/
structure Window.Accounted (w : Window) (a : Account) : Prop where
  txSeq : w.txSeq.toNat = a.sent % 256
  txMax : w.txMax.toNat = a.granted % 256
  within : a.Within 0x40

section Receiving
variable {cfg : ReceiveBuffers.Config} {i nextlen : Nat} {t : ReceiveBuffers.Turn} {rx : ReceiveBuffers.Bus}
  {got : List ReceiveBuffers.Event}

def bus : ReceiveBuffers.Read → ReceiveBuffers.Bus
  | .next rx _ => rx
  | .stop rx _ => rx
  | .deliver rx _ => rx

def Taken (window txSeq before after : UInt8) : Prop :=
  after = before ∨ after = window ∧ (window - txSeq).toNat ≤ 0x40

theorem taken_checks (window txSeq before : UInt8) :
    Taken window txSeq before (if 0x40 < (window - txSeq).toNat then before else window) := by
  by_cases far : 0x40 < (window - txSeq).toNat
  · exact Or.inl (if_pos far)
  · exact Or.inr ⟨if_neg far, Nat.le_of_not_lt far⟩

theorem taken_noted (t : ReceiveBuffers.Turn) (rx : ReceiveBuffers.Bus) :
    Taken t.rxhdr.window t.txSeq rx.txMax (ReceiveBuffers.noted t rx).txMax := taken_checks ..

theorem txMax_readControl : (ReceiveBuffers.readControl t rx).txMax = rx.txMax := by
  unfold ReceiveBuffers.readControl
  split <;> rfl

theorem txMax_deliver : (ReceiveBuffers.deliver i t rx).1.txMax = rx.txMax := by
  unfold ReceiveBuffers.deliver
  dsimp only
  split_ifs <;> rfl

def Offers (t : ReceiveBuffers.Turn) (rx : ReceiveBuffers.Bus) (r : ReceiveBuffers.Read) : Prop :=
  Taken t.rxhdr.window t.txSeq rx.txMax (bus r).txMax

theorem offers_ite {c : Prop} [Decidable c] {r q : ReceiveBuffers.Read} (yes : Offers t rx r) (no : Offers t rx q) :
    Offers t rx (if c then r else q) := by
  split
  · exact yes
  · exact no

theorem offers_kept {r : ReceiveBuffers.Read} (kept : (bus r).txMax = rx.txMax) : Offers t rx r := Or.inl kept

theorem offers_noted {r : ReceiveBuffers.Read} (noted : (bus r).txMax = (ReceiveBuffers.noted t rx).txMax) :
    Offers t rx r := by
  unfold Offers
  rw [noted]
  exact taken_noted t rx

theorem offers_checked : Offers t rx (ReceiveBuffers.checked cfg i t nextlen rx got) := by
  unfold ReceiveBuffers.checked
  -- the checks of the length come before the window is looked at
  refine offers_ite (offers_kept rfl) (offers_ite (offers_kept rfl) ?_)
  refine offers_ite (offers_kept rfl) (offers_ite (offers_kept rfl) ?_)
  refine offers_ite (offers_ite (offers_noted txMax_readControl) (offers_noted rfl)) ?_
  exact offers_ite (offers_noted rfl) (offers_ite (offers_noted rfl) (offers_noted rfl))

theorem offers_readAhead : Offers t rx (ReceiveBuffers.readAhead cfg i t rx) := by
  unfold ReceiveBuffers.readAhead
  refine offers_ite (offers_ite ?_ (offers_kept ?_)) (offers_ite (offers_ite ?_ (offers_kept rfl)) (offers_kept rfl))
  · cases cfg.spi <;> exact offers_checked
  · cases cfg.spi <;> rfl
  · exact offers_checked

theorem offers_readHeader : Offers t rx (ReceiveBuffers.readHeader cfg i t rx) := by
  unfold ReceiveBuffers.readHeader
  refine offers_ite (offers_kept rfl) (offers_ite (offers_kept rfl) (offers_ite (offers_kept rfl) ?_))
  refine offers_ite (offers_kept rfl) (offers_ite (offers_kept rfl) (offers_ite (offers_kept rfl) ?_))
  refine offers_ite (offers_noted txMax_readControl) (offers_ite (offers_noted rfl) ?_)
  exact offers_ite (offers_noted rfl) (offers_ite (offers_noted rfl) (offers_noted rfl))

theorem offers_read : Offers t rx (ReceiveBuffers.read cfg i t rx) := offers_ite offers_readAhead offers_readHeader

end Receiving

section Credits
variable {w : Window}

theorem credit_sent (w : Window) : Window.credit ⟨w.txSeq + 1, w.txMax⟩ = w.credit - 1 :=
  sub_add_eq_sub_sub w.txMax w.txSeq 1

theorem spent_le (credit : 0 < w.credit) (bounded : w.credit ≤ 0x40) : w.credit - 1 ≤ 0x40 := by
  have one : (1 : UInt8) ≤ w.credit := by
    rw [UInt8.le_iff_toNat_le]
    exact UInt8.lt_iff_toNat_lt.mp credit
  exact UInt8.le_trans (UInt8.sub_le one) bounded

theorem spare_left (spare : 1 < w.credit) : 0 < w.credit - 1 := by
  have one : (1 : UInt8) ≤ w.credit := UInt8.le_of_lt spare
  rw [UInt8.lt_iff_toNat_lt] at spare ⊢
  rw [UInt8.toNat_sub_of_le _ _ one]
  exact Nat.sub_pos_of_lt spare

end Credits

section Records
variable {w : Window} {e : Event} {log more : List Event}

theorem last_append : w.last (log ++ more) = (w.last log).last more := List.foldl_append

theorem orderly_append : Orderly w (log ++ more) ↔ Orderly w log ∧ Orderly (w.last log) more := by
  induction log generalizing w with
  | nil => exact (and_iff_right trivial).symm
  | cons e log ih =>
    change e.InOrder w ∧ Orderly e.after (log ++ more) ↔ (e.InOrder w ∧ Orderly e.after log) ∧ _
    rw [ih, and_assoc]
    rfl

theorem credit_after (inOrder : e.InOrder w) : e.after.credit ≤ 0x40 := by
  cases e with
  | send chan seq ret after => exact inOrder.2.2.2.1
  | offer window after => exact inOrder.2.2

theorem credit_last (credit : w.credit ≤ 0x40) (orderly : Orderly w log) : (w.last log).credit ≤ 0x40 := by
  induction log generalizing w with
  | nil => exact credit
  | cons e log ih => exact ih (credit_after orderly.1) orderly.2

theorem sent_entered (a : Account) : (e.entered a).sent = a.sent + e.delivers.toNat := by
  cases e with
  | send chan seq ret after => by_cases sent : ret = 0 <;> simp [Event.entered, Event.delivers, Account.send, sent]
  | offer window after =>
    rw [Event.entered]
    split
    · exact Account.sent_offer _
    · rfl

theorem sent_log (a : Account) : (log.foldl Event.entered a).sent = a.sent + log.countP Event.delivers := by
  induction log generalizing a with
  | nil => rfl
  | cons e log ih =>
    rw [List.foldl_cons, ih, sent_entered, List.countP_cons]
    cases e.delivers <;> simp [Nat.add_comm, Nat.add_left_comm]

end Records

section Accounts
variable {w : Window} {a : Account} {e : Event} {log : List Event}

theorem toNat_sub_distance (m s : UInt8) : (m - s).toNat = distance 256 s.toNat m.toNat := by
  rw [UInt8.toNat_sub, distance, Nat.mod_eq_of_lt s.toNat_lt, Nat.add_comm]

theorem credit_account (accounted : w.Accounted a) : w.credit.toNat = a.granted - a.sent := by
  rw [Window.credit, toNat_sub_distance, accounted.txSeq, accounted.txMax, distance_residues]
  exact Account.distance_within (by decide) accounted.within

theorem accounted_send (accounted : w.Accounted a) (credit : 0 < w.credit) :
    Window.Accounted ⟨w.txSeq + 1, w.txMax⟩ a.send := by
  have positive := UInt8.lt_iff_toNat_lt.mp credit
  rw [credit_account accounted] at positive
  refine ⟨?_, accounted.txMax, Account.within_send accounted.within (Nat.lt_of_sub_pos positive)⟩
  change (w.txSeq + 1).toNat = (a.sent + 1) % 256
  rw [UInt8.toNat_add, accounted.txSeq]
  exact Nat.mod_add_mod ..

theorem accounted_offer {window : UInt8} (accounted : w.Accounted a) (near : window - w.txSeq ≤ 0x40) :
    Window.Accounted ⟨w.txSeq, window⟩ (a.offer 256 0x40 window.toNat) := by
  have reach : distance 256 a.sent window.toNat ≤ 0x40 := by
    rw [← distance_residues, ← accounted.txSeq, Nat.mod_eq_of_lt window.toNat_lt, ← toNat_sub_distance]
    exact UInt8.le_iff_toNat_le.mp near
  refine ⟨?_, ?_, Account.within_offer accounted.within _⟩
  · rw [Account.sent_offer, ← accounted.txSeq]
  · rw [Account.granted_offer (by decide), if_pos reach, Nat.mod_eq_of_lt window.toNat_lt]

theorem accounted_event (accounted : w.Accounted a) (inOrder : e.InOrder w) : e.after.Accounted (e.entered a) := by
  cases e with
  | send chan seq ret after =>
    obtain ⟨_, credit, rfl, _⟩ := inOrder
    rw [Event.entered, Event.after]
    by_cases sent : ret = 0
    · rw [if_pos sent, if_pos sent]
      exact accounted_send accounted credit
    · rw [if_neg sent, if_neg sent]
      exact accounted
  | offer window after =>
    obtain ⟨txSeq, txMax⟩ := after
    obtain ⟨rfl, kept, near⟩ := inOrder
    rw [Event.entered]
    split
    · rename_i taken
      obtain rfl := taken
      exact accounted_offer accounted near
    · rename_i other
      obtain rfl := kept.resolve_right other
      exact accounted

theorem accounted_log (accounted : w.Accounted a) (orderly : Orderly w log) :
    (w.last log).Accounted (log.foldl Event.entered a) := by
  induction log generalizing w a with
  | nil => exact accounted
  | cons e log ih => exact ih (accounted_event accounted orderly.1) orderly.2

theorem accounted_fresh : fresh.Accounted ⟨0, 4⟩ := ⟨rfl, rfl, by decide, by decide⟩

end Accounts

def Progress (b c : Bus P) : Prop :=
  b.window.credit ≤ 0x40 → ∃ more, c.log = b.log ++ more ∧ Orderly b.window more ∧ c.window = b.window.last more

section Sections
variable {b c d : Bus P} {chan : Channel} {seq : UInt8} {retry : Bool} {frames : Nat → Frame}

theorem progress_silent (window : c.window = b.window) (log : c.log = b.log) : Progress b c := by
  intro _
  exact ⟨[], by rw [log, List.append_nil], trivial, window⟩

theorem progress_event {e : Event} (log : c.log = b.log ++ [e]) (window : c.window = e.after)
    (inOrder : b.window.credit ≤ 0x40 → e.InOrder b.window) : Progress b c := by
  intro bounded
  exact ⟨[e], log, ⟨inOrder bounded, trivial⟩, window⟩

theorem progress_trans (first : Progress b c) (later : Progress c d) : Progress b d := by
  intro bounded
  obtain ⟨more, log, orderly, window⟩ := first bounded
  have bounded := credit_last bounded orderly
  rw [← window] at bounded
  obtain ⟨rest, log', orderly', window'⟩ := later bounded
  refine ⟨more ++ rest, ?_, ?_, ?_⟩
  · rw [log', log, List.append_assoc]
  · exact orderly_append.mpr ⟨orderly, window ▸ orderly'⟩
  · rw [window', window, last_append]

theorem window_sendBuf (ret : Int) :
    (b.sendBuf chan seq ret).window = ⟨if ret = 0 then b.txSeq + 1 else b.txSeq, b.rx.txMax⟩ := by
  by_cases sent : ret = 0 <;> simp [Bus.sendBuf, Bus.window, sent]

theorem log_sendBuf (ret : Int) :
    (b.sendBuf chan seq ret).log = b.log ++ [.send chan seq ret (b.sendBuf chan seq ret).window] := by
  by_cases sent : ret = 0 <;> simp [Bus.sendBuf, Bus.window, sent]

def Covered (chan : Channel) (w : Window) : Prop := 0 < w.credit ∧ (chan = .data → 1 < w.credit)

theorem progress_sendBuf (covered : Covered chan b.window) (ret : Int) : Progress b (b.sendBuf chan b.txSeq ret) := by
  refine progress_event (log_sendBuf ret) rfl fun bounded => ?_
  refine ⟨rfl, covered.1, window_sendBuf ret, ?_⟩
  rw [window_sendBuf]
  by_cases sent : ret = 0
  · rw [if_pos sent, show b.txSeq = b.window.txSeq from rfl, show b.rx.txMax = b.window.txMax from rfl, credit_sent]
    exact ⟨spent_le covered.1 bounded, fun data => spare_left (covered.2 data)⟩
  · rw [if_neg sent]
    exact ⟨bounded, fun _ => covered.1⟩

theorem progress_sendLoop (left : Nat) (rets : Nat → Int) (covered : Covered chan b.window) :
    Progress b (b.sendLoop retry chan b.txSeq left rets) := by
  induction left generalizing b rets with
  | zero => exact progress_sendBuf covered _
  | succ left ih =>
    rw [Bus.sendLoop]
    split
    · -- a failed try leaves the counters, and the header stands for the next one
      rename_i failed
      have kept : (b.sendBuf chan b.txSeq (rets 0)).window = b.window := by
        rw [window_sendBuf, if_neg (by omega)]
        rfl
      have seq : b.txSeq = (b.sendBuf chan b.txSeq (rets 0)).txSeq := congrArg Window.txSeq kept.symm
      refine progress_trans (progress_sendBuf covered (rets 0)) ?_
      have next := ih (b := b.sendBuf chan b.txSeq (rets 0)) (fun i => rets (i + 1)) (kept ▸ covered)
      rw [← seq] at next
      exact next
    · exact progress_sendBuf covered _

theorem covered_of_dataok (ok : b.dataok = true) : Covered .data b.window := by
  have spare : 1 < b.window.credit := by simpa using (Bool.and_eq_true_iff.mp ok).1
  exact ⟨UInt8.lt_trans (by decide) spare, fun _ => spare⟩

theorem covered_of_txctlok (ok : b.txctlok = true) : Covered .control b.window := by
  have credit : b.window.credit ≠ 0 := by simpa using (Bool.and_eq_true_iff.mp ok).1
  refine ⟨?_, by simp⟩
  rw [UInt8.lt_iff_toNat_lt]
  exact Nat.pos_of_ne_zero fun zero => credit (UInt8.toNat_inj.mp zero)

theorem progress_txpkt (f : Frame) (ok : b.dataok = true) : Progress b (b.txpkt f) := by
  unfold Bus.txpkt
  split
  · exact progress_silent rfl rfl
  · exact progress_sendLoop _ _ (covered_of_dataok ok)

theorem progress_sendFrames (precMap : BitVec 32) (left cnt : Nat) :
    Progress b (b.sendFrames precMap frames left cnt).1 := by
  induction left generalizing b cnt with
  | zero => exact progress_silent rfl rfl
  | succ left ih =>
    rw [Bus.sendFrames]
    split
    · exact progress_silent rfl rfl
    · rename_i ok
      split
      · exact progress_silent rfl rfl
      · rename_i txq _
        have same : Progress b { b with txq := txq } := progress_silent rfl rfl
        have ok : b.dataok = true := by simpa using ok
        have sent := progress_trans same (progress_txpkt (frames cnt) ok)
        dsimp only
        split
        · exact sent
        · exact progress_trans sent (ih _)

theorem progress_sendfromq (maxframes : Nat) : Progress b (b.sendfromq maxframes frames).1 :=
  progress_sendFrames _ _ _

theorem progress_txctl (rets : Nat → Int) : Progress b (b.txctl rets).1 := by
  unfold Bus.txctl
  split
  · exact progress_silent rfl rfl
  · split
    · exact progress_silent rfl rfl
    · rename_i ok
      exact progress_sendLoop _ _ (covered_of_txctlok (by simpa using ok))

theorem progress_earlyTx : Progress b (b.earlyTx frames) := by
  unfold Bus.earlyTx
  split
  · exact progress_sendfromq _
  · exact progress_silent rfl rfl

theorem progress_receive {window : UInt8} {rx : ReceiveBuffers.Bus}
    (taken : Taken window b.txSeq b.rx.txMax rx.txMax) : Progress b (b.receive window rx) := by
  refine progress_event rfl rfl fun bounded => ?_
  obtain kept | ⟨offered, near⟩ := taken
  · refine ⟨rfl, Or.inl kept, ?_⟩
    rw [kept]
    exact bounded
  · refine ⟨rfl, Or.inr offered, ?_⟩
    rw [offered]
    exact UInt8.le_iff_toNat_le.mpr near

theorem progress_rxglom (superframe : Option ReceiveBuffers.Header) {rx : ReceiveBuffers.Bus}
    (kept : rx.txMax = b.rx.txMax) : Progress b (b.rxglom superframe rx) := by
  cases superframe with
  | none => exact progress_silent (congrArg (Window.mk b.txSeq) kept) rfl
  | some h =>
    have taken := taken_checks h.window b.txSeq rx.txMax
    exact progress_receive (kept ▸ taken)

theorem progress_left : Progress b b.left := progress_silent rfl rfl

theorem progress_turn (t : Turn) (rxleft : Nat) : Progress b (b.turn t rxleft).1 := by
  let rxTurn := { t.rx with txSeq := b.txSeq }
  have taken : Offers rxTurn b.rx (ReceiveBuffers.read b.cfg.rx rxleft rxTurn b.rx) := offers_read
  unfold Bus.turn
  dsimp only
  split
  · exact progress_rxglom _ rfl
  · split
    · rename_i found
      rw [found] at taken
      exact progress_trans (progress_receive taken) progress_left
    · rename_i found
      rw [found] at taken
      exact progress_receive taken
    · rename_i found
      rw [found] at taken
      refine progress_receive ?_
      change Taken _ _ _ (ReceiveBuffers.deliver _ _ _).1.txMax
      rw [txMax_deliver]
      exact taken

theorem progress_readTurn (t : Turn) (rxleft : Nat) : Progress b (b.readTurn t rxleft).1 := by
  unfold Bus.readTurn
  split
  · exact progress_left
  · exact progress_trans progress_earlyTx (progress_turn t rxleft)

theorem progress_dpc (status : Status) : Progress b (b.dpc status).1 := by
  unfold Bus.dpc
  split <;> exact progress_silent rfl rfl

theorem progress_transmit (ret : Int) (rxdone : Bool) : Progress b (b.transmit ret frames rxdone) := by
  unfold Bus.transmit
  split
  · rename_i ok
    simp only [Bool.and_eq_true] at ok
    let ready : Bus P := { b with ctrlFrameSeq := b.txSeq }
    have same : Progress b ready := progress_silent rfl rfl
    have covered : Covered .control ready.window := covered_of_txctlok ok.1.1
    have sent := progress_trans same (progress_sendBuf covered ret)
    exact progress_trans sent (progress_silent rfl rfl)
  · split
    · exact progress_sendfromq _
    · exact progress_silent rfl rfl

theorem progress_perform {pc : Pc} {act : Act P} {done : Bus P × Pc} (taken : b.perform pc act = some done) :
    Progress b done.1 := by
  unfold Bus.perform at taken
  split at taken
  · obtain rfl := Option.some.inj taken
    exact progress_silent rfl rfl
  · obtain rfl := Option.some.inj taken
    exact progress_txctl _
  · obtain rfl := Option.some.inj taken
    exact progress_silent rfl rfl
  · obtain rfl := Option.some.inj taken
    exact progress_dpc _
  · obtain rfl := Option.some.inj taken
    exact progress_readTurn _ _
  · obtain rfl := Option.some.inj taken
    exact progress_transmit _ _
  · obtain rfl := Option.some.inj taken
    exact progress_silent rfl rfl
  · cases taken

theorem progress_step [DecidableEq ι] {s t : System ι P} {a : ι × Act P} (taken : step s a = some t) :
    Progress s.bus t.bus := by
  obtain ⟨done, performed, rfl⟩ := Option.map_eq_some_iff.mp taken
  exact progress_perform performed

end Sections

theorem credits_respected [DecidableEq ι] {b : Bus P} {pc : ι → Pc} {acts : List (ι × Act P)} {s : System ι P}
    (done : TransitionRuns.run step ⟨b.stop, pc⟩ acts = some s) :
    Orderly fresh s.bus.log ∧ s.bus.window = fresh.last s.bus.log ∧
      ∀ log, log <+: s.bus.log →
        (fresh.last log).credit ≤ 0x40 ∧ (account log).sent = log.countP Event.delivers ∧
          (fresh.last log).Accounted (account log) := by
  have progress : Progress b.stop s.bus := by
    refine TransitionRuns.invariant_of_run (fun s => Progress b.stop s.bus) ?_ (progress_silent rfl rfl) done
    intro s a t earlier taken
    exact progress_trans earlier (progress_step taken)
  have bounded : fresh.credit ≤ 0x40 := by decide
  obtain ⟨more, recorded, orderly, window⟩ := progress bounded
  obtain rfl : s.bus.log = more := recorded
  refine ⟨orderly, window, ?_⟩
  rintro log ⟨rest, split⟩
  rw [← split] at orderly
  have orderly := (orderly_append.mp orderly).1
  refine ⟨credit_last bounded orderly, ?_, accounted_log accounted_fresh orderly⟩
  rw [account, sent_log, Nat.zero_add]

def sampleConfig : Config :=
  ⟨⟨false, true, 512, 512, true, false⟩, 20, 50, 1, 0, true, true⟩

def sampleBus : Bus Nat where
  cfg := sampleConfig
  rx := ⟨0, 0, false, false, none, false, 0, 4⟩
  txSeq := 9
  txq := Pktq.empty 8 64 fun _ => 64
  ctrlFrameStat := false
  ctrlFrameSeq := 0
  clkstate := .avail
  fcstate := false
  down := false
  dongleReset := false
  log := []

def sampleTurn (window : UInt8) : Turn where
  frames _ := ⟨false, fun _ => 0, false⟩
  rx := {
    down := false
    rxglom := ⟨0, false, 0, false⟩
    allocated := true
    headerRead := true
    dataRead := true
    rxhdr i := [12, 0, 0xf3, 0xff, 0, 0, 0, 12, 0, window].getD i 0
    txSeq := 0
    nak := false
    controlFails := false
    hdrpull := true }
  superframe := none

def sampleActs : List (Bool × Act Nat) :=
  [(false, .set ⟨sampleConfig, .avail, false, false⟩), (false, .txdata 7 0),
    (false, .dpc ⟨.avail, false, 0, false, false, false⟩), (false, .transmit 0 fun _ => ⟨false, fun _ => 0, false⟩),
    (true, .txctl fun i => if i = 0 then -1 else 0), (false, .dpc ⟨.avail, false, 0, false, false, true⟩),
    (false, .turn (sampleTurn 70)), (false, .turn (sampleTurn 66))]

theorem credits_respected_sample : ∃ s, TransitionRuns.run step ⟨sampleBus.stop, fun _ => .idle⟩ sampleActs = some s ∧
    s.bus.log = [.send .data 0 0 ⟨1, 4⟩, .send .control 1 (-1) ⟨1, 4⟩, .send .control 1 0 ⟨2, 4⟩,
      .offer 70 ⟨2, 4⟩, .offer 66 ⟨2, 66⟩] ∧
    Orderly fresh s.bus.log ∧ (fresh.last s.bus.log).Accounted (account s.bus.log) := by
  have ⟨s, done⟩ : ∃ s, TransitionRuns.run step ⟨sampleBus.stop, fun _ => .idle⟩ sampleActs = some s := ⟨_, rfl⟩
  have respected := credits_respected done
  refine ⟨s, done, ?_, respected.1, (respected.2.2 _ (List.prefix_refl _)).2.2⟩
  obtain rfl := Option.some.inj done
  decide

end TransmitCredits
