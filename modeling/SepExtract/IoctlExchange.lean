import Mathlib
import SepExtract.ReceiveBuffers
import SepExtract.TransitionRuns

/- The exchange of control messages with the dongle: dhd_prot_ioctl and what it calls in dhd_cdc.c, and the one place
   in dhd_sdio.c where dhdsdio_read_control leaves a control frame for dhd_bus_rxctl. -/
namespace IoctlExchange
open ReceiveBuffers (firstread sdalign)
open TransitionRuns

def cdcIoctlLen : Nat := 16

def wlcIoctlMaxlen : Nat := 8192

def maxCntlTimeout : Nat := 2

def eio : Int := -5

def etimedout : Int := -110

abbrev Bytes := Nat → UInt8

def byteOf (word i : Nat) : UInt8 := UInt8.ofNat (word / 256 ^ i)

def wordAt (b : Bytes) (i : Nat) : Nat :=
  (b i).toNat + 256 * (b (i + 1)).toNat + 65536 * (b (i + 2)).toNat + 16777216 * (b (i + 3)).toNat

def iocId (b : Bytes) : Nat := (b 10).toNat + 256 * (b 11).toNat

def iocError (b : Bytes) : Bool := (b 8).toNat % 2 = 1

def iocStatus (b : Bytes) : Int :=
  if wordAt b 12 < 2147483648 then wordAt b 12 else (wordAt b 12 : Int) - 4294967296

/-- What dhd_prot_ioctl is called with; the interfaces are numbered from 0 to 15. -/
structure Ioctl where
  ifidx : Nat
  cmd : Nat
  set : Bool
  /-- The other bits of the action, WL_IOCTL_ACTION_MASK applied. -/
  action : Nat
  buf : Option Bytes
  len : Nat

def message (reqid : Nat) (ioc : Ioctl) (old : Bytes) : Bytes := fun j =>
  if j < 4 then byteOf ioc.cmd j
  else if j < 8 then byteOf ioc.len (j - 4)
  else if j = 8 then UInt8.ofNat (ioc.action % 128 / 2 * 4 + if ioc.set then 2 else 0)
  else if j = 9 then UInt8.ofNat (ioc.ifidx % 16 * 16)
  else if j = 10 then UInt8.ofNat reqid
  else if j = 11 then UInt8.ofNat (reqid / 256)
  else if j < cdcIoctlLen then 0
  else
    match ioc.buf with
    | some buf => if j < cdcIoctlLen + ioc.len then buf (j - cdcIoctlLen) else old j
    | none => old j

structure Call where
  number : Nat
  ioc : Ioctl

/-- A control frame of the dongle, from its bus header on, whether the rest of it cannot be read, and the request that
    it is the answer to. -/
structure Frame where
  len : Nat
  doff : Nat
  bytes : Bytes
  unread : Bool
  answers : Nat

structure Ended where
  call : Call
  ret : Int
  buf : Option Bytes
  taken : Option Frame

structure Config where
  roundup : Nat
  blocksize : Nat
  maxctl : Nat
  forcealign : Bool

structure Dhd where
  reqid : Nat
  lastcmd : Nat
  /-- prot->msg and prot->buf behind it. -/
  msg : Bytes
  /-- prot->pending, with the call. -/
  call : Option Call
  dongleError : Int
  rxbuf : Bytes
  /-- Where in rxbuf the control data begin. -/
  rxctl : Nat
  rxlen : Nat
  rxcntTimeout : Nat
  txcntTimeout : Nat
  rxCtlpkts : Nat
  rxCtlerrs : Nat
  rxErrors : Nat
  rxcErrors : Nat
  busDown : Bool
  hangWasSent : Bool
  /-- The requests so far, and those of them that went to the dongle. -/
  requests : Nat
  sent : List Nat
  /-- The control frame that was left last. -/
  kept : Option Frame
  ended : List Ended

namespace Frame

def rdlen (cfg : Config) (f : Frame) : Nat :=
  let rdlen := f.len - firstread
  let rdlen :=
    if cfg.roundup ≠ 0 ∧ cfg.blocksize ≠ 0 ∧ cfg.blocksize < rdlen then
      let pad := cfg.blocksize - rdlen % cfg.blocksize
      if pad ≤ cfg.roundup ∧ pad < cfg.blocksize ∧ f.len + pad < cfg.maxctl then rdlen + pad else rdlen
    else if rdlen % sdalign ≠ 0 then rdlen + (sdalign - rdlen % sdalign)
    else rdlen
  if cfg.forcealign ∧ rdlen % 4 ≠ 0 then (rdlen + 3) / 4 * 4 else rdlen

def tooBig (cfg : Config) (f : Frame) : Bool :=
  firstread < f.len && (cfg.maxctl < f.rdlen cfg + firstread || cfg.maxctl < f.len - f.doff)

def dropped (cfg : Config) (f : Frame) : Bool := f.tooBig cfg || (firstread < f.len && f.unread)

def payload (f : Frame) : Bytes := fun j => f.bytes (f.doff + j)

end Frame

namespace Dhd

def control (s : Dhd) : Bytes := fun j => s.rxbuf (s.rxctl + j)

/-- dhdsdio_read_control: the first bytes are copied before anything is checked. -/
def readControl (cfg : Config) (s : Dhd) (f : Frame) : Dhd :=
  let s := { s with rxctl := 0, rxbuf := fun j => if j < firstread then f.bytes j else s.rxbuf j }
  if f.tooBig cfg then { s with rxErrors := s.rxErrors + 1 }
  else if f.dropped cfg then { s with rxcErrors := s.rxcErrors + 1 }
  else
    { s with
      rxbuf := fun j => if j < f.len ∨ j < firstread + f.rdlen cfg then f.bytes j else s.rxbuf j
      rxctl := f.doff
      rxlen := f.len - f.doff
      kept := some f }

def rxctlRet (rxcntTimeout rxlen : Nat) : Int :=
  if maxCntlTimeout ≤ rxcntTimeout then etimedout else if rxlen ≠ 0 then rxlen else eio

/-- dhd_bus_rxctl when the wait is over. -/
def busRxctl (s : Dhd) (msglen : Nat) (timeleft : Bool) : Int × Dhd :=
  let rxlen := s.rxlen
  let s := { s with
    msg := fun j => if j < min msglen rxlen then s.control j else s.msg j
    rxlen := 0
    rxcntTimeout := if timeleft then 0 else s.rxcntTimeout + 1
    rxCtlpkts := if rxlen ≠ 0 then s.rxCtlpkts + 1 else s.rxCtlpkts
    rxCtlerrs := if rxlen ≠ 0 then s.rxCtlerrs else s.rxCtlerrs + 1 }
  (rxctlRet s.rxcntTimeout rxlen, s)

/-- The end of dhd_prot_ioctl, and dhd_check_hang on what it returns. -/
def finish (s : Dhd) (c : Call) (ret : Int) (buf : Option Bytes) (taken : Option Frame) : Dhd :=
  let ret := if 0 ≤ ret then 0 else ret
  { s with
    call := none
    hangWasSent := s.hangWasSent || (ret ≠ 0 && (ret = etimedout || s.busDown))
    ended := s.ended ++ [⟨c, ret, buf, taken⟩] }

def copied (s : Dhd) (ioc : Ioctl) (ret : Int) : Option Bytes :=
  let len := if ret < ioc.len then ret.toNat else ioc.len
  if ioc.set then ioc.buf else ioc.buf.map fun buf j => if j < len then s.msg (cdcIoctlLen + j) else buf j

/-- What dhdcdc_query_ioctl and dhdcdc_set_ioctl do with an answer. -/
def accept (s : Dhd) (c : Call) (ret : Int) : Dhd :=
  { s with dongleError := if iocError s.msg then iocStatus s.msg else s.dongleError }.finish c
    (if iocError s.msg then iocStatus s.msg else ret) (s.copied c.ioc ret) s.kept

/-- One turn of the loop in dhdcdc_cmplt. -/
def resume (s : Dhd) (c : Call) (timeleft : Bool) : Dhd :=
  let r := s.busRxctl (c.ioc.len + cdcIoctlLen) timeleft
  if r.1 < 0 then r.2.finish c r.1 c.ioc.buf none
  else if iocId r.2.msg ≠ r.2.reqid then r.2
  else r.2.accept c r.1

end Dhd

inductive Tx where
  | sent
  | failed
  /-- The dongle gave no credit in time. -/
  | timedOut
  deriving DecidableEq

namespace Dhd

/-- A message is written, and dhd_bus_txctl called with it. -/
def transmit (s : Dhd) (ioc : Ioctl) (tx : Tx) : Dhd :=
  { s with
    reqid := (s.reqid + 1) % 65536
    lastcmd := ioc.cmd
    requests := s.requests + 1
    msg := message ((s.reqid + 1) % 65536) ioc s.msg
    txcntTimeout := if tx = Tx.timedOut then s.txcntTimeout + 1 else 0 }

/-- dhd_prot_ioctl up to the wait for the answer. -/
def ioctl (s : Dhd) (ioc : Ioctl) (tx : Tx) : Dhd :=
  let c : Call := ⟨s.requests + 1, ioc⟩
  let s := s.transmit ioc tx
  match tx with
  | .sent => { s with call := some c, sent := s.sent ++ [c.number] }
  | _ => s.finish c (if maxCntlTimeout ≤ s.txcntTimeout then etimedout else eio) ioc.buf none

end Dhd

inductive Action where
  | ioctl (ioc : Ioctl) (tx : Tx)
  | resume (timeleft : Bool)
  | frame (f : Frame)
  /-- dhd_bus_stop. -/
  | stop

/-- A call that is refused ends where it began; callers take turns, so there is one call at a time. -/
def step (cfg : Config) (s : Dhd) : Action → Option Dhd
  | .ioctl ioc tx =>
    if s.call.isSome then none
    else if s.busDown || s.hangWasSent || wlcIoctlMaxlen < ioc.len then
      some { s with hangWasSent := s.hangWasSent || s.busDown }
    else some (s.ioctl ioc tx)
  | .resume timeleft =>
    match s.call with
    | some c => some (s.resume c timeleft)
    | none => none
  | .frame f => if f.len < f.doff then none else some (s.readControl cfg f)
  | .stop => some { s with busDown := true, rxlen := 0 }

def Dhd.initial : Dhd :=
  ⟨0, 0, fun _ => 0, none, 0, fun _ => 0, 0, 0, 0, 0, 0, 0, 0, 0, false, false, 0, [], none, []⟩

/- The message of a request carries its number. -/

theorem iocId_message {reqid : Nat} (small : reqid < 65536) (ioc : Ioctl) (old : Bytes) :
    iocId (message reqid ioc old) = reqid := by
  have low : (message reqid ioc old 10).toNat = reqid % 256 := rfl
  have high : (message reqid ioc old 11).toNat = reqid / 256 % 256 := rfl
  unfold iocId
  omega

theorem iocError_message (reqid : Nat) (ioc : Ioctl) (old : Bytes) : iocError (message reqid ioc old) = false := by
  have flags : (message reqid ioc old 8).toNat = (ioc.action % 128 / 2 * 4 + if ioc.set then 2 else 0) % 256 := rfl
  rw [iocError, decide_eq_false_iff_not, flags]
  split
  · omega
  · omega

theorem message_buf {ioc : Ioctl} {buf : Bytes} (given : ioc.buf = some buf) {j : Nat} (inside : j < ioc.len)
    (reqid : Nat) (old : Bytes) : message reqid ioc old (cdcIoctlLen + j) = buf j := by
  unfold message cdcIoctlLen
  rw [given]
  simp only [show ¬ 16 + j < 4 by omega, show ¬ 16 + j < 8 by omega, show ¬ 16 + j = 8 by omega,
    show ¬ 16 + j = 9 by omega, show ¬ 16 + j = 10 by omega, show ¬ 16 + j = 11 by omega, show ¬ 16 + j < 16 by omega,
    show 16 + j < 16 + ioc.len by omega, if_false, if_true, Nat.add_sub_cancel_left]

/- What waits in the buffer for control frames. -/

theorem readControl_rest (cfg : Config) (s : Dhd) (f : Frame) :
    ∃ rxbuf rxctl rxlen kept rxErrors rxcErrors, s.readControl cfg f =
      { s with
        rxbuf := rxbuf, rxctl := rxctl, rxlen := rxlen, kept := kept, rxErrors := rxErrors,
        rxcErrors := rxcErrors } := by
  unfold Dhd.readControl
  simp only
  split
  · exact ⟨_, _, _, _, _, _, rfl⟩
  · split
    · exact ⟨_, _, _, _, _, _, rfl⟩
    · exact ⟨_, _, _, _, _, _, rfl⟩

theorem control_readControl {cfg : Config} {s : Dhd} {f : Frame} (stored : f.dropped cfg = false) :
    (s.readControl cfg f).rxlen = f.len - f.doff ∧ (s.readControl cfg f).kept = some f ∧
      ∀ j, f.doff + j < f.len → (s.readControl cfg f).control j = f.payload j := by
  have small : f.tooBig cfg = false := by
    unfold Frame.dropped at stored
    exact (Bool.or_eq_false_iff.1 stored).1
  simp only [Dhd.readControl, small, stored, Bool.false_eq_true, if_false, Dhd.control, Frame.payload]
  refine ⟨trivial, trivial, ?_⟩
  intro j inside
  rw [if_pos (Or.inl inside)]

theorem control_dropped {cfg : Config} {s : Dhd} {f : Frame} (dropped : f.dropped cfg = true) :
    (s.readControl cfg f).rxlen = s.rxlen ∧ (s.readControl cfg f).kept = s.kept ∧
      ∀ j, j < firstread → (s.readControl cfg f).control j = f.bytes j := by
  unfold Dhd.readControl
  simp only [dropped, if_true, Dhd.control]
  split
  all_goals
    refine ⟨rfl, rfl, ?_⟩
    intro j inside
    rw [Nat.zero_add]
    exact if_pos inside

/- What a call gets. -/

theorem msg_busRxctl (s : Dhd) (msglen : Nat) (timeleft : Bool) {j : Nat} (inside : j < min msglen s.rxlen) :
    (s.busRxctl msglen timeleft).2.msg j = s.control j :=
  if_pos inside

theorem rxctlRet_frame {timeouts rxlen : Nat} (success : ¬ Dhd.rxctlRet timeouts rxlen < 0) :
    rxlen ≠ 0 ∧ Dhd.rxctlRet timeouts rxlen = rxlen := by
  by_cases late : maxCntlTimeout ≤ timeouts
  · rw [Dhd.rxctlRet, if_pos late] at success
    exact absurd (by decide) success
  · by_cases empty : rxlen = 0
    · rw [Dhd.rxctlRet, if_neg late, if_neg (not_not.2 empty)] at success
      exact absurd (by decide) success
    · exact ⟨empty, by rw [Dhd.rxctlRet, if_neg late, if_pos empty]⟩

theorem busRxctl_in_time {s : Dhd} (msglen : Nat) (some_left : s.rxlen ≠ 0) :
    (s.busRxctl msglen true).1 = s.rxlen := by
  show Dhd.rxctlRet 0 s.rxlen = s.rxlen
  rw [Dhd.rxctlRet, if_neg (by decide), if_pos some_left]

theorem iocId_congr {b c : Bytes} (low : b 10 = c 10) (high : b 11 = c 11) : iocId b = iocId c := by
  unfold iocId
  rw [low, high]

def Returned (e : Ended) (f : Frame) : Prop :=
  e.call.ioc.set = false → ∀ buf, e.buf = some buf → ∀ j, j < e.call.ioc.len → cdcIoctlLen + j < f.len - f.doff →
    buf j = f.payload (cdcIoctlLen + j)

def Holds (s : Dhd) (f : Frame) : Prop :=
  s.rxlen = f.len - f.doff ∧ ∀ j, j < s.rxlen → s.control j = f.payload j

theorem returned_copied {s : Dhd} {c : Call} {timeleft : Bool} {value : Int} {taken : Option Frame} {f : Frame}
    (holds : Holds s f) :
    Returned ⟨c, value, (s.busRxctl (c.ioc.len + cdcIoctlLen) timeleft).2.copied c.ioc s.rxlen, taken⟩ f := by
  intro query buf given j inside answered
  have map : c.ioc.buf.map _ = some buf := (if_neg (Bool.eq_false_iff.1 query)).symm.trans given
  obtain ⟨own, _, rfl⟩ := Option.map_eq_some_iff.1 map
  rw [← holds.1] at answered
  have fits : j < if (s.rxlen : Int) < c.ioc.len then Int.toNat s.rxlen else c.ioc.len := by
    split
    · omega
    · exact inside
  have copied : cdcIoctlLen + j < min (c.ioc.len + cdcIoctlLen) s.rxlen := by
    refine Nat.lt_min.2 ⟨?_, answered⟩
    rw [Nat.add_comm]
    exact Nat.add_lt_add_right inside _
  rw [← holds.2 _ answered, ← msg_busRxctl s _ timeleft copied]
  exact if_pos fits

/- Answers of an honest dongle. -/

/-- Every control frame kept is an answer to a request sent and long enough to say to which one, none is dropped while
    another one waits, and no answer waits for as many requests as there are numbers for them. -/
def answering (cfg : Config) (s : Dhd) : Action → Bool
  | .frame f =>
    if f.dropped cfg then s.rxlen = 0
    else 12 ≤ f.len - f.doff && iocId f.payload = f.answers % 65536 && s.sent.contains f.answers
  | .resume _ => s.rxlen = 0 || s.kept.all fun f => s.requests < f.answers + 65536
  | _ => true

structure Matched (s : Dhd) : Prop where
  reqid : s.reqid = s.requests % 65536
  sent : ∀ n ∈ s.sent, n ≤ s.requests
  waiting : s.rxlen ≠ 0 → ∃ f, s.kept = some f ∧ Holds s f ∧ 12 ≤ s.rxlen ∧ iocId f.payload = f.answers % 65536 ∧
    f.answers ≤ s.requests
  numbered : ∀ c, s.call = some c → c.number = s.requests
  own : ∀ e ∈ s.ended, ∀ f, e.taken = some f → f.answers = e.call.number ∧ Returned e f

namespace Dhd

theorem matched_finish {s : Dhd} (matched : Matched s) {c : Call} {ret : Int} {buf : Option Bytes}
    {taken : Option Frame}
    (own : ∀ value f, taken = some f → f.answers = c.number ∧ Returned ⟨c, value, buf, taken⟩ f) :
    Matched (s.finish c ret buf taken) where
  reqid := matched.reqid
  sent := matched.sent
  waiting := matched.waiting
  numbered := nofun
  own := by
    intro e member f given
    rcases List.mem_append.1 member with old | new
    · exact matched.own e old f given
    · obtain rfl := List.mem_singleton.1 new
      exact own _ f given

theorem matched_busRxctl {s : Dhd} (matched : Matched s) (msglen : Nat) (timeleft : Bool) :
    Matched (s.busRxctl msglen timeleft).2 where
  reqid := matched.reqid
  sent := matched.sent
  waiting := fun some_left => absurd rfl some_left
  numbered := matched.numbered
  own := matched.own

theorem matched_resume {s : Dhd} (matched : Matched s) {c : Call} (waits : s.call = some c) (timeleft : Bool)
    (recent : s.rxlen ≠ 0 → ∀ f, s.kept = some f → s.requests < f.answers + 65536) :
    Matched (s.resume c timeleft) := by
  have read := matched_busRxctl matched (c.ioc.len + cdcIoctlLen) timeleft
  unfold resume
  simp only
  split
  · exact matched_finish read nofun
  case isFalse success =>
    split
    · exact read
    case isFalse same =>
      obtain ⟨some_left, ret⟩ := rxctlRet_frame success
      obtain ⟨f, kept, holds, long, id, known⟩ := matched.waiting some_left
      have at10 := msg_busRxctl s (c.ioc.len + cdcIoctlLen) timeleft (j := 10) (by unfold cdcIoctlLen; omega)
      have at11 := msg_busRxctl s (c.ioc.len + cdcIoctlLen) timeleft (j := 11) (by unfold cdcIoctlLen; omega)
      have at10 := at10.trans (holds.2 10 (by omega))
      have at11 := at11.trans (holds.2 11 (by omega))
      have equal : f.answers % 65536 = s.requests % 65536 := by
        rw [← id, ← iocId_congr at10 at11, ← matched.reqid]
        exact not_not.1 same
      have noted : ∀ d, Matched { (s.busRxctl (c.ioc.len + cdcIoctlLen) timeleft).2 with dongleError := d } :=
        fun _ => ⟨read.reqid, read.sent, read.waiting, read.numbered, read.own⟩
      apply matched_finish (noted _)
      intro value g given
      obtain rfl : f = g := Option.some.inj (kept.symm.trans given)
      have few := recent some_left f kept
      rw [matched.numbered c waits, show (s.busRxctl (c.ioc.len + cdcIoctlLen) timeleft).1 = _ from ret]
      exact ⟨by omega, returned_copied holds⟩

theorem matched_ioctl {s : Dhd} (matched : Matched s) (free : s.call = none) (ioc : Ioctl) (tx : Tx) :
    Matched (s.ioctl ioc tx) := by
  have begun : Matched (s.transmit ioc tx) := by
    refine ⟨?_, ?_, ?_, ?_, matched.own⟩
    · show (s.reqid + 1) % 65536 = (s.requests + 1) % 65536
      rw [matched.reqid]
      omega
    · intro n member
      exact Nat.le_succ_of_le (matched.sent n member)
    · intro some_left
      obtain ⟨f, kept, holds, long, id, known⟩ := matched.waiting some_left
      exact ⟨f, kept, holds, long, id, Nat.le_succ_of_le known⟩
    · intro c waits
      cases free.symm.trans waits
  cases tx with
  | sent =>
    refine ⟨begun.reqid, ?_, begun.waiting, ?_, begun.own⟩
    · intro n member
      rcases List.mem_append.1 member with old | new
      · exact begun.sent n old
      · rw [List.mem_singleton.1 new]
        rfl
    · rintro c ⟨⟩
      rfl
  | failed => exact matched_finish begun nofun
  | timedOut => exact matched_finish begun nofun

theorem matched_readControl {cfg : Config} {s : Dhd} (matched : Matched s) {f : Frame}
    (honest : answering cfg s (.frame f) = true) : Matched (s.readControl cfg f) := by
  have waiting : (s.readControl cfg f).rxlen ≠ 0 → ∃ g, (s.readControl cfg f).kept = some g ∧
      Holds (s.readControl cfg f) g ∧ 12 ≤ (s.readControl cfg f).rxlen ∧ iocId g.payload = g.answers % 65536 ∧
      g.answers ≤ s.requests := by
    intro some_left
    simp only [answering] at honest
    cases dropped : f.dropped cfg with
    | true =>
      rw [if_pos dropped, decide_eq_true_eq] at honest
      rw [(control_dropped dropped).1] at some_left
      exact absurd honest some_left
    | false =>
      simp only [dropped, Bool.false_eq_true, if_false, Bool.and_eq_true, decide_eq_true_eq,
        List.contains_iff_mem] at honest
      obtain ⟨⟨long, id⟩, member⟩ := honest
      obtain ⟨rxlen, kept, control⟩ := control_readControl (s := s) dropped
      refine ⟨f, kept, ⟨rxlen, ?_⟩, rxlen ▸ long, id, matched.sent _ member⟩
      intro j inside
      exact control j (by omega)
  obtain ⟨_, _, _, _, _, _, rest⟩ := readControl_rest cfg s f
  rw [rest] at waiting ⊢
  exact ⟨matched.reqid, matched.sent, waiting, matched.numbered, matched.own⟩

theorem of_step {cfg : Config} {s t : Dhd} {a : Action} {P : Dhd → Prop} (done : step cfg s a = some t)
    (refused : P { s with hangWasSent := s.hangWasSent || s.busDown })
    (ioctl : ∀ ioc tx, s.call = none → s.hangWasSent = false → P (s.ioctl ioc tx))
    (resume : ∀ c timeleft, a = .resume timeleft → s.call = some c → P (s.resume c timeleft))
    (frame : ∀ f, a = .frame f → P (s.readControl cfg f)) (stop : P { s with busDown := true, rxlen := 0 }) :
    P t := by
  cases a with
  | ioctl ioc tx =>
    simp only [step] at done
    split at done
    · cases done
    case isFalse free =>
      split at done
      · cases done
        exact refused
      case isFalse accepted =>
        cases done
        simp only [Bool.or_eq_true, not_or, Bool.not_eq_true] at accepted
        exact ioctl ioc tx (Option.not_isSome_iff_eq_none.1 free) accepted.1.2
  | resume timeleft =>
    simp only [step] at done
    split at done
    case h_1 c waits =>
      cases done
      exact resume c timeleft rfl waits
    · cases done
  | frame f =>
    simp only [step] at done
    split at done
    · cases done
    · cases done
      exact frame f rfl
  | stop =>
    cases done
    exact stop

theorem matched_step (cfg : Config) (s : Dhd) (a : Action) (t : Dhd) (matched : Matched s)
    (honest : answering cfg s a = true) (done : step cfg s a = some t) : Matched t := by
  refine of_step done ?_ ?_ ?_ ?_ ?_
  · exact ⟨matched.reqid, matched.sent, matched.waiting, matched.numbered, matched.own⟩
  · intro ioc tx free _
    exact matched_ioctl matched free ioc tx
  · rintro c timeleft rfl waits
    apply matched_resume matched waits
    intro some_left f kept
    simpa [answering, some_left, kept] using honest
  · rintro f rfl
    exact matched_readControl matched honest
  · exact ⟨matched.reqid, matched.sent, fun some_left => absurd rfl some_left, matched.numbered, matched.own⟩

end Dhd

structure Heard (acts : List Action) (s : Dhd) : Prop where
  kept : ∀ f, s.kept = some f → .frame f ∈ acts
  taken : ∀ e ∈ s.ended, ∀ f, e.taken = some f → .frame f ∈ acts

namespace Dhd

theorem heard_finish {acts : List Action} {s : Dhd} (heard : Heard acts s) {c : Call} {ret : Int} {buf : Option Bytes}
    {taken : Option Frame} (came : ∀ f, taken = some f → .frame f ∈ acts) :
    Heard acts (s.finish c ret buf taken) := by
  refine ⟨heard.kept, ?_⟩
  intro e member f given
  rcases List.mem_append.1 member with old | new
  · exact heard.taken e old f given
  · obtain rfl := List.mem_singleton.1 new
    exact came f given

theorem heard_step (cfg : Config) (acts : List Action) (s : Dhd) (a : Action) (t : Dhd) (heard : Heard acts s)
    (member : a ∈ acts) (done : step cfg s a = some t) : Heard acts t := by
  refine of_step done ?_ ?_ ?_ ?_ ?_
  · exact ⟨heard.kept, heard.taken⟩
  · intro ioc tx _ _
    have begun : Heard acts (s.transmit ioc tx) := ⟨heard.kept, heard.taken⟩
    cases tx with
    | sent => exact ⟨heard.kept, heard.taken⟩
    | failed => exact heard_finish begun nofun
    | timedOut => exact heard_finish begun nofun
  · intro c timeleft _ _
    have read : Heard acts (s.busRxctl (c.ioc.len + cdcIoctlLen) timeleft).2 := ⟨heard.kept, heard.taken⟩
    unfold resume
    simp only
    split
    · exact heard_finish read nofun
    · split
      · exact read
      · have noted : ∀ d, Heard acts { (s.busRxctl (c.ioc.len + cdcIoctlLen) timeleft).2 with dongleError := d } :=
          fun _ => ⟨heard.kept, heard.taken⟩
        exact heard_finish (noted _) heard.kept
  · rintro f rfl
    refine ⟨?_, ?_⟩
    · cases dropped : f.dropped cfg with
      | true =>
        rw [(control_dropped dropped).2.1]
        exact heard.kept
      | false =>
        rw [(control_readControl dropped).2.1]
        rintro g ⟨⟩
        exact member
    · obtain ⟨_, _, _, _, _, _, rest⟩ := readControl_rest cfg s f
      rw [rest]
      exact heard.taken
  · exact ⟨heard.kept, heard.taken⟩

end Dhd

/- Timeouts. -/

def Reported (s : Dhd) : Prop :=
  maxCntlTimeout ≤ s.rxcntTimeout ∨ maxCntlTimeout ≤ s.txcntTimeout → s.hangWasSent = true

def Silent (s t : Dhd) : Prop := s.hangWasSent = true → t.hangWasSent = true ∧ t.sent = s.sent

namespace Dhd

theorem silent_finish (s : Dhd) (c : Call) (ret : Int) (buf : Option Bytes) (taken : Option Frame) :
    Silent s (s.finish c ret buf taken) := by
  intro hang
  exact ⟨by simp [finish, hang], rfl⟩

theorem reported_finish {s : Dhd} {c : Call} {ret : Int} {buf : Option Bytes} {taken : Option Frame}
    (reported : ret = etimedout ∨ Reported s) : Reported (s.finish c ret buf taken) := by
  intro late
  rcases reported with rfl | reported
  · simp [finish, etimedout]
  · exact (silent_finish s c ret buf taken (reported late)).1

theorem timeouts_resume {s : Dhd} (reported : Reported s) (c : Call) (timeleft : Bool) :
    Reported (s.resume c timeleft) ∧ Silent s (s.resume c timeleft) := by
  unfold resume
  simp only
  by_cases late : maxCntlTimeout ≤ (s.busRxctl (c.ioc.len + cdcIoctlLen) timeleft).2.rxcntTimeout
  · have ret : (s.busRxctl (c.ioc.len + cdcIoctlLen) timeleft).1 = etimedout := if_pos late
    rw [ret, if_pos (by decide)]
    exact ⟨reported_finish (Or.inl rfl), silent_finish (s.busRxctl _ timeleft).2 _ _ _ _⟩
  · have read : Reported (s.busRxctl (c.ioc.len + cdcIoctlLen) timeleft).2 :=
      fun reached => reported (Or.inr (reached.resolve_left late))
    split
    · exact ⟨reported_finish (Or.inr read), silent_finish (s.busRxctl _ timeleft).2 _ _ _ _⟩
    · split
      · exact ⟨read, fun hang => ⟨hang, rfl⟩⟩
      · exact ⟨reported_finish (Or.inr read), fun hang => ⟨by simp [accept, finish, busRxctl, hang], rfl⟩⟩

theorem reported_ioctl {s : Dhd} (reported : Reported s) (ioc : Ioctl) (tx : Tx) : Reported (s.ioctl ioc tx) := by
  by_cases late : maxCntlTimeout ≤ (s.transmit ioc tx).txcntTimeout
  · cases tx with
    | timedOut =>
      simp only [ioctl, late, if_true]
      exact reported_finish (Or.inl rfl)
    | sent => exact absurd late (by simp [transmit, maxCntlTimeout])
    | failed => exact absurd late (by simp [transmit, maxCntlTimeout])
  · have begun : Reported (s.transmit ioc tx) := fun reached => reported (Or.inl (reached.resolve_right late))
    cases tx with
    | sent => exact begun
    | failed => exact reported_finish (Or.inr begun)
    | timedOut => exact reported_finish (Or.inr begun)

theorem timeouts_step (cfg : Config) {s t : Dhd} {a : Action} (reported : Reported s) (done : step cfg s a = some t) :
    Reported t ∧ Silent s t := by
  refine of_step (P := fun u => Reported u ∧ Silent s u) done ?_ ?_ ?_ ?_ ?_
  · exact ⟨fun late => by simp [reported late], fun hang => ⟨by simp [hang], rfl⟩⟩
  · intro ioc tx _ alive
    refine ⟨reported_ioctl reported ioc tx, fun hang => ?_⟩
    rw [alive] at hang
    cases hang
  · intro c timeleft _ _
    exact timeouts_resume reported c timeleft
  · intro f _
    obtain ⟨_, _, _, _, _, _, rest⟩ := readControl_rest cfg s f
    rw [rest]
    exact ⟨reported, fun hang => ⟨hang, rfl⟩⟩
  · exact ⟨reported, fun hang => ⟨hang, rfl⟩⟩

end Dhd

/- Frames that are not answers. -/

theorem resume_other {s : Dhd} {c : Call} (waiting : 12 ≤ s.rxlen) (other : iocId s.control ≠ s.reqid) :
    (s.resume c true).call = s.call ∧ (s.resume c true).rxlen = 0 ∧ (s.resume c true).ended = s.ended ∧
      (s.resume c true).rxCtlpkts = s.rxCtlpkts + 1 := by
  have ret := busRxctl_in_time (c.ioc.len + cdcIoctlLen) (show s.rxlen ≠ 0 by omega)
  have at10 := msg_busRxctl s (c.ioc.len + cdcIoctlLen) true (j := 10) (by unfold cdcIoctlLen; omega)
  have at11 := msg_busRxctl s (c.ioc.len + cdcIoctlLen) true (j := 11) (by unfold cdcIoctlLen; omega)
  have id : iocId (s.busRxctl (c.ioc.len + cdcIoctlLen) true).2.msg ≠
      (s.busRxctl (c.ioc.len + cdcIoctlLen) true).2.reqid := by
    rw [iocId_congr at10 at11]
    exact other
  have passed : ¬ ((s.rxlen : Int) < 0) := by omega
  unfold Dhd.resume
  simp only [ret, passed, if_false]
  rw [if_pos id]
  refine ⟨rfl, rfl, rfl, ?_⟩
  exact if_pos (by omega)

theorem copied_message {s : Dhd} {reqid : Nat} {ioc : Ioctl} {old : Bytes}
    (kept : ∀ j, 8 ≤ j → s.msg j = message reqid ioc old j) (ret : Int) : s.copied ioc ret = ioc.buf := by
  have bound : (if ret < ioc.len then ret.toNat else ioc.len) ≤ ioc.len := by
    split
    · omega
    · exact Nat.le_refl _
  unfold Dhd.copied
  simp only
  generalize (if ret < ioc.len then ret.toNat else ioc.len) = len at bound ⊢
  split
  · rfl
  · cases given : ioc.buf with
    | none => rfl
    | some buf =>
      rw [Option.map_some, Option.some.injEq]
      funext j
      split
      case isTrue inside =>
        rw [kept _ (by unfold cdcIoctlLen; omega), message_buf given (Nat.lt_of_lt_of_le inside bound)]
      · rfl

theorem resume_short {s : Dhd} {c : Call} {old : Bytes} (small : s.reqid < 65536)
    (own : s.msg = message s.reqid c.ioc old) (some_left : s.rxlen ≠ 0) (short : s.rxlen ≤ 8) :
    (s.resume c true).call = none ∧
      (s.resume c true).ended = s.ended ++ [⟨c, 0, c.ioc.buf, s.kept⟩] := by
  have kept : ∀ j, 8 ≤ j →
      (s.busRxctl (c.ioc.len + cdcIoctlLen) true).2.msg j = message s.reqid c.ioc old j := by
    intro j behind
    rw [← own]
    exact if_neg (by omega)
  have ret := busRxctl_in_time (c.ioc.len + cdcIoctlLen) some_left
  have id : iocId (s.busRxctl (c.ioc.len + cdcIoctlLen) true).2.msg =
      (s.busRxctl (c.ioc.len + cdcIoctlLen) true).2.reqid := by
    rw [iocId_congr (kept 10 (by decide)) (kept 11 (by decide)), iocId_message small]
    rfl
  have error : iocError (s.busRxctl (c.ioc.len + cdcIoctlLen) true).2.msg = false := by
    rw [iocError, kept 8 (Nat.le_refl 8)]
    exact iocError_message s.reqid c.ioc old
  have passed : ¬ ((s.rxlen : Int) < 0) := by omega
  unfold Dhd.resume
  simp only [ret, passed, if_false]
  rw [if_neg (not_not.2 id), Dhd.accept, copied_message kept]
  refine ⟨rfl, ?_⟩
  simp only [Dhd.finish, error, Bool.false_eq_true, if_false, if_pos (Int.not_lt.1 passed)]
  rfl

def query : Ioctl := ⟨0, 262, false, 0, some fun j => UInt8.ofNat j, 8⟩

def answerTo (n : Nat) : Frame :=
  ⟨36, 12, fun j => if j = 22 then byteOf n 0 else if j = 23 then byteOf n 1 else UInt8.ofNat j, false, n⟩

def usual : Config := ⟨512, 512, 8320, true⟩

def oneByte : Frame := ⟨13, 12, fun _ => 0, false, 0⟩

def tooLong : Frame := ⟨9000, 12, fun _ => 0, false, 0⟩

section
variable {cfg : Config} {acts : List Action} {s : Dhd}

/-- With an honest dongle a call takes no other answer than its own, also after calls that gave up on theirs, and a
    query returns what the dongle answered. -/
theorem ioctl_takes_own_answer (done : run (step cfg) Dhd.initial acts = some s)
    (honest : Guarded (step cfg) (fun s a => answering cfg s a = true) Dhd.initial acts) :
    ∀ e ∈ s.ended, ∀ f, e.taken = some f → .frame f ∈ acts ∧ f.answers = e.call.number ∧ Returned e f := by
  have start : Matched Dhd.initial := ⟨rfl, nofun, fun some_left => absurd rfl some_left, nofun, nofun⟩
  have matched := invariant_of_guarded Matched (Dhd.matched_step cfg) start honest done
  have silent : Heard acts Dhd.initial := ⟨nofun, nofun⟩
  have heard := invariant_of_guarded (Heard acts) (Dhd.heard_step cfg acts) silent
    (guarded_of_forall fun _ _ member => member) done
  exact fun e member f given => ⟨heard.taken e member f given, matched.own e member f given⟩

theorem ioctl_takes_own_answer_after_timeout :
    ∃ s e buf, run (step usual) Dhd.initial [.ioctl query .sent, .resume false, .ioctl query .sent,
        .frame (answerTo 1), .resume true, .frame (answerTo 2), .resume true] = some s ∧
      s.ended[1]? = some e ∧ e.taken = some (answerTo 2) ∧ e.call.number = 2 ∧ e.buf = some buf ∧
      ∀ j, j < 8 → buf j = UInt8.ofNat (28 + j) := by
  obtain ⟨s, e, buf, done, second, taken, query, given⟩ : ∃ s e buf, run (step usual) Dhd.initial
      [.ioctl query .sent, .resume false, .ioctl query .sent, .frame (answerTo 1), .resume true, .frame (answerTo 2),
        .resume true] = some s ∧ s.ended[1]? = some e ∧ e.taken = some (answerTo 2) ∧ e.call.ioc = query ∧
        e.buf = some buf := ⟨_, _, _, rfl, rfl, rfl, rfl, rfl⟩
  obtain ⟨_, number, returned⟩ := ioctl_takes_own_answer done (by decide) e (List.mem_of_getElem? second) _ taken
  refine ⟨s, e, buf, done, second, taken, number.symm, given, fun j inside => ?_⟩
  have answered := returned (by rw [query]; rfl) buf given j (by rw [query]; exact inside)
    (show 16 + j < 24 by omega)
  rw [answered]
  interval_cases j <;> rfl

theorem ioctl_silent_after_hang (done : run (step cfg) Dhd.initial acts = some s) :
    Reported s ∧ ∀ more t, run (step cfg) s more = some t → Silent s t := by
  have start : Reported Dhd.initial := fun late => absurd late (by decide)
  have reported := invariant_of_run Reported (fun _ _ _ before first => (Dhd.timeouts_step cfg before first).1) start
    done
  refine ⟨reported, fun more t later hang => ?_⟩
  have silent := invariant_of_run (fun u => Reported u ∧ u.hangWasSent = true ∧ u.sent = s.sent) ?_
    ⟨reported, hang, rfl⟩ later
  · exact silent.2
  · rintro u a v ⟨before, hung, same⟩ first
    obtain ⟨after, quiet⟩ := Dhd.timeouts_step cfg before first
    exact ⟨after, (quiet hung).1, (quiet hung).2.trans same⟩

theorem ioctl_silent_after_hang_twice :
    ∃ s, run (step usual) Dhd.initial
        [.ioctl query .sent, .resume false, .ioctl query .sent, .resume false] = some s ∧ s.hangWasSent = true ∧
      ∀ more t, run (step usual) s more = some t → t.sent = [1, 2] := by
  obtain ⟨s, done, late, sent⟩ : ∃ s, run (step usual) Dhd.initial [.ioctl query .sent, .resume false,
      .ioctl query .sent, .resume false] = some s ∧ maxCntlTimeout ≤ s.rxcntTimeout ∧ s.sent = [1, 2] :=
    ⟨_, rfl, by decide, rfl⟩
  have silent := ioctl_silent_after_hang done
  have hang := silent.1 (Or.inl late)
  exact ⟨s, done, hang, fun more t later => (silent.2 more t later hang).2.trans sent⟩

/-- A control frame too short to say what it answers ends a call that just sent its request: with success, and with
    the caller's own bytes for an answer. -/
theorem ioctl_takes_short_frame {ioc : Ioctl} {f : Frame} {u : Dhd} (stored : f.dropped cfg = false)
    (some_data : f.doff < f.len) (short : f.len ≤ f.doff + 8)
    (done : ((s.ioctl ioc .sent).readControl cfg f).resume ⟨s.requests + 1, ioc⟩ true = u) :
    u.call = none ∧ u.ended = s.ended ++ [⟨⟨s.requests + 1, ioc⟩, 0, ioc.buf, some f⟩] := by
  obtain ⟨rxlen, kept, _⟩ := control_readControl (s := s.ioctl ioc .sent) stored
  obtain ⟨_, _, _, _, _, _, rest⟩ := readControl_rest cfg (s.ioctl ioc .sent) f
  have own : ((s.ioctl ioc .sent).readControl cfg f).msg =
      message ((s.ioctl ioc .sent).readControl cfg f).reqid ioc s.msg := by
    rw [rest]
    rfl
  have small : ((s.ioctl ioc .sent).readControl cfg f).reqid < 65536 := by
    rw [rest]
    exact Nat.mod_lt _ (by decide)
  have ended : ((s.ioctl ioc .sent).readControl cfg f).ended = s.ended := by
    rw [rest]
    rfl
  rw [← done, ← ended, ← kept]
  exact resume_short small own (by omega) (by omega)

theorem ioctl_takes_short_frame_of_one_byte :
    ∃ u, run (step usual) Dhd.initial [.ioctl query .sent, .frame oneByte, .resume true] = some u ∧
      u.call = none ∧ u.ended = [⟨⟨1, query⟩, 0, query.buf, some oneByte⟩] := by
  obtain ⟨u, done, result⟩ : ∃ u, run (step usual) Dhd.initial [.ioctl query .sent, .frame oneByte, .resume true] =
      some u ∧ ((Dhd.initial.ioctl query .sent).readControl usual oneByte).resume ⟨1, query⟩ true = u :=
    ⟨_, rfl, rfl⟩
  obtain ⟨free, ended⟩ := ioctl_takes_short_frame (s := Dhd.initial) rfl (by decide) (by decide) result
  exact ⟨u, done, free, ended⟩

/-- A control frame that is dropped is read in place of an answer that waits, so that this answer is lost. -/
theorem ioctl_answer_lost {f : Frame} {c : Call} {u : Dhd} (waiting : 12 ≤ s.rxlen) (dropped : f.dropped cfg = true)
    (other : iocId f.bytes ≠ s.reqid) (done : (s.readControl cfg f).resume c true = u) :
    u.call = s.call ∧ u.rxlen = 0 ∧ u.ended = s.ended ∧ u.rxCtlpkts = s.rxCtlpkts + 1 := by
  obtain ⟨rxlen, _, control⟩ := control_dropped (s := s) dropped
  have id : iocId (s.readControl cfg f).control = iocId f.bytes :=
    iocId_congr (control 10 (by decide)) (control 11 (by decide))
  obtain ⟨_, _, _, _, _, _, rest⟩ := readControl_rest cfg s f
  have lost := resume_other (s := s.readControl cfg f) (c := c) (by omega) (by rw [id, rest]; exact other)
  rw [done, rest] at lost
  exact lost

theorem ioctl_answer_lost_to_long_frame :
    ∃ s u, run (step usual) Dhd.initial [.ioctl query .sent, .frame (answerTo 1)] = some s ∧
      run (step usual) s [.frame tooLong, .resume true] = some u ∧
      u.call.isSome = true ∧ u.rxlen = 0 ∧ u.ended = [] := by
  obtain ⟨s, u, done, later, waits, waiting, reqid, ended, result⟩ : ∃ s u,
      run (step usual) Dhd.initial [.ioctl query .sent, .frame (answerTo 1)] = some s ∧
        run (step usual) s [.frame tooLong, .resume true] = some u ∧
        s.call.isSome = true ∧ 12 ≤ s.rxlen ∧ s.reqid = 1 ∧ s.ended = [] ∧
        (s.readControl usual tooLong).resume ⟨1, query⟩ true = u :=
    ⟨_, _, rfl, rfl, rfl, by decide, rfl, rfl, rfl⟩
  have lost := ioctl_answer_lost waiting (by decide) (by rw [reqid]; decide) result
  exact ⟨s, u, done, later, by rw [lost.1]; exact waits, lost.2.1, lost.2.2.1.trans ended⟩

end

end IoctlExchange
