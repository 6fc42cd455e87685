import Mathlib
import SepExtract.ReceiveBuffers
import SepExtract.TransitionRuns

/- dhdsdio_rxglom of dhd_sdio.c: from a descriptor the packets for the subframes of a superframe, the attempts to read
   the superframe into them, and the checks before they are handed up. -/
namespace GlomChains
open ReceiveBuffers (Header sdpcmHdrlen sdalign eventChannel glomChannel maxRxDatasz)
open TransitionRuns

def dataChannel : Nat := 2

def bdcHeaderLen : Nat := 4

def roundUp (x y : Nat) : Nat := (x + (y - 1)) / y * y

structure Packet where
  id : Nat
  mem : Nat → UInt8
  cap : Nat
  off : Nat
  len : Nat

namespace Packet

def headerAt (p : Packet) (b : Nat) : Header := fun j => p.mem (b + j)

/-- The bytes from PKTDATA on. -/
def header (p : Packet) : Header := p.headerAt p.off

def pull (p : Packet) (n : Nat) : Packet := if p.len < n then p else { p with off := p.off + n, len := p.len - n }

/-- PKTPUSH, which panics when the buffer has no room in front. -/
def push (p : Packet) (n : Nat) : Option Packet :=
  if p.off < n then none else some { p with off := p.off - n, len := p.len + n }

def setLen (p : Packet) (n : Nat) : Packet := { p with len := n }

end Packet

def bdcVer (h : Header) : Nat := (h 0).toNat / 16

def bdcIfIdx (h : Header) : Nat := (h 2).toNat % 16

def bdcDataOffset (h : Header) : Nat := if bdcVer h = 2 then (h 3).toNat * 4 else 0

/-- dhd_prot_hdrpull; the interface is noted before the version is checked. -/
def hdrpull (p : Packet) (ifidx : Nat) : Nat × Option Packet :=
  if p.len < bdcHeaderLen then (ifidx, none)
  else
    let h := p.header
    if bdcVer h ≠ 2 ∧ bdcVer h ≠ 1 then (bdcIfIdx h, none)
    else
      let q := p.pull bdcHeaderLen
      if q.len < bdcDataOffset h then (bdcIfIdx h, none) else (bdcIfIdx h, some (q.pull (bdcDataOffset h)))

structure Tally where
  delivered : List (Nat × List Packet)
  rxglompkts : UInt32
  glomerr : UInt32
  rxglomfail : UInt32
  /-- The attempts to read a superframe that failed, the NAKs sent for them and the chains given up. -/
  failures : Nat
  naks : Nat
  abandoned : Nat
  /-- How many packets had gone up and chains been given up when the counters were last cleared. -/
  packetsBefore : Nat
  chainsBefore : Nat
  panicked : Bool

structure Account extends Tally where
  glomd : Option Packet
  /-- The chain bus->glom, empty when that is NULL. -/
  glom : List Packet
  /-- How many packets were obtained; those freed, and those in a chain behind the number that goes up. -/
  obtained : Nat
  freed : List Nat
  lost : List Nat
  /-- The most lengths that a descriptor had. -/
  longest : Nat

structure Bus extends Account where
  blocksize : Nat
  nextlen : Nat
  rxskip : Bool
  txSeq : UInt8
  txMax : UInt8
  rxrtx : UInt32
  rxBadseq : UInt32
  rxErrors : UInt32
  rxglomframes : UInt32

structure Buffer where
  mem : Nat → UInt8
  headroom : Nat
  addr : Nat

structure Attempt where
  rxseq : UInt8
  /-- PKTGET for each subframe. -/
  pktget : Nat → Option Buffer
  /-- The buffers of the chain after the read, unless that fails. -/
  read : Option (Nat → Nat → UInt8)
  /-- A NAK for the device was written in time. -/
  nak : Bool

def lengths (p : Packet) : List Nat :=
  let dlen := p.len % 65536
  if dlen % 2 = 1 then []
  else (List.range (dlen / 2)).map fun i => (p.header (2 * i)).toNat + 256 * (p.header (2 * i + 1)).toNat

/-- PKTGET with room for the alignment, and PKTALIGN. -/
def alignedPacket (b : Buffer) (id sublen : Nat) : Packet :=
  let datalign := roundUp b.addr sdalign - b.addr
  ⟨id, b.mem, b.headroom + sublen + sdalign, b.headroom + datalign, sublen⟩

/-- The loop over the lengths: the packets obtained, and whether the last one was. -/
def buildChain (blocksize : Nat) (pktget : Nat → Option Buffer) (obtained : Nat) :
    List Nat → Nat → List Packet → List Packet × Bool
  | [], _, chain => (chain, !chain.isEmpty)
  | sublen :: rest, totlen, chain =>
    if sublen < sdpcmHdrlen ∨ (chain.length % 256 = 0 ∧ sublen < 2 * sdpcmHdrlen) then (chain, false)
    else
      let totlen := (totlen + sublen) % 65536
      let sublen := if rest.isEmpty then (sublen + (roundUp totlen blocksize - totlen)) % 65536 else sublen
      match pktget chain.length with
      | none => (chain, false)
      | some b =>
        buildChain blocksize pktget obtained rest totlen
          (chain ++ [alignedPacket b (obtained + chain.length) sublen])

def fill (read : Nat → Nat → UInt8) : Nat → List Packet → List Packet
  | _, [] => []
  | i, p :: rest => { p with mem := read i } :: fill read (i + 1) rest

/-- The checks of the superframe header; the length of the packet is unsigned. -/
def badSuperframe (blocksize dlen : Nat) (p : Packet) : Bool :=
  let h := p.header
  h.len ^^^ h.check != 0xffff || roundUp h.len blocksize != dlen || h.chan != glomChannel || h.glomdesc ||
    h.doff < sdpcmHdrlen || (sdpcmHdrlen ≤ p.len && p.len - sdpcmHdrlen < h.doff)

def badSubframe (p : Packet) : Bool :=
  let h := p.header
  h.len ^^^ h.check != 0xffff || p.len % 65536 < h.len || h.len < sdpcmHdrlen ||
    (h.chan != dataChannel && h.chan != eventChannel) || h.doff < sdpcmHdrlen || h.len < h.doff

def strip (p : Packet) : Packet := (p.setLen p.header.len).pull p.header.doff

structure Processed where
  ifidx : Nat
  kept : List Packet
  freed : List Nat
  errors : Nat

/-- The loop over the packets of a chain that passed the checks. -/
def process : List Packet → Nat → Processed
  | [], ifidx => ⟨ifidx, [], [], 0⟩
  | p :: rest, ifidx =>
    if (strip p).len = 0 then
      let r := process rest ifidx
      { r with freed := p.id :: r.freed }
    else
      match hdrpull (strip p) ifidx with
      | (ifidx, none) =>
        let r := process rest ifidx
        { r with freed := p.id :: r.freed, errors := r.errors + 1 }
      | (ifidx, some q) =>
        let r := process rest ifidx
        { r with kept := q :: r.kept }

def badSeqs : List Packet → UInt8 → Nat
  | [], _ => 0
  | p :: rest, rxseq => (if rxseq ≠ p.header.seq then 1 else 0) + badSeqs rest (p.header.seq + 1)

namespace Bus

def rxfail (bus : Bus) (a : Attempt) (rtx : Bool) : Bus :=
  { bus with
    rxrtx := if rtx then bus.rxrtx + 1 else bus.rxrtx
    naks := if rtx then bus.naks + 1 else bus.naks
    rxskip := bus.rxskip || (rtx && a.nak)
    nextlen := 0 }

def takeDescriptor (bus : Bus) (a : Attempt) (glomd : Packet) : Bus :=
  let built := buildChain bus.blocksize a.pktget bus.obtained (lengths glomd) 0 []
  { bus with
    glom := if built.2 then built.1 else []
    longest := max bus.longest (lengths glomd).length
    glomd := none
    nextlen := 0
    obtained := bus.obtained + built.1.length
    freed := bus.freed ++ (if built.2 then [] else built.1.map Packet.id) ++ [glomd.id] }

def giveUp (bus : Bus) : Bus :=
  { bus with
    glomerr := 0
    freed := bus.freed ++ bus.glom.map Packet.id
    rxglomfail := bus.rxglomfail + 1
    abandoned := bus.abandoned + 1
    glom := [] }

def restore (bus : Bus) (sfdoff : Nat) : Option Bus :=
  match bus.glom with
  | [] => some bus
  | p :: rest => (p.push sfdoff).map fun q => { bus with glom := q :: rest }

/-- An attempt failed, with the superframe header removed from the first packet or before that. -/
def failed (bus : Bus) (a : Attempt) (sfdoff : Option Nat) : Bus :=
  let glomerr := bus.glomerr
  let bus := { bus with glomerr := bus.glomerr + 1, failures := bus.failures + 1 }
  if glomerr < 3 then
    match sfdoff with
    | none => bus.rxfail a true
    | some doff =>
      match bus.restore doff with
      | none => { bus with panicked := true }
      | some restored => restored.rxfail a true
  else (bus.rxfail a false).giveUp

def note (bus : Bus) (rxseq : UInt8) (h : Header) : Bus :=
  { bus with
    nextlen := if maxRxDatasz < h.nextlen * 16 then 0 else h.nextlen
    rxBadseq := if rxseq ≠ h.seq then bus.rxBadseq + 1 else bus.rxBadseq
    txMax := if 0x40 < h.window - bus.txSeq then bus.txMax else h.window }

/-- The packets go up in one chain; how many they are is counted in a byte. -/
def handUp (bus : Bus) (chain : List Packet) (rxseq : UInt8) : Bus × Nat :=
  let r := process chain 0
  let num := r.kept.length % 256
  ({ bus with
    glom := []
    rxBadseq := bus.rxBadseq + UInt32.ofNat (badSeqs chain rxseq)
    rxErrors := bus.rxErrors + UInt32.ofNat r.errors
    freed := bus.freed ++ r.freed
    delivered := if num ≠ 0 then bus.delivered ++ [(r.ifidx, r.kept.take num)] else bus.delivered
    lost := bus.lost ++ (r.kept.drop num).map Packet.id
    rxglomframes := bus.rxglomframes + 1
    rxglompkts := bus.rxglompkts + UInt32.ofNat num }, num)

def headless (read : Nat → Nat → UInt8) (p : Packet) (rest : List Packet) : List Packet :=
  let p := { p with mem := read 0 }
  p.pull p.header.doff :: fill read 1 rest

def refused (bus : Bus) (read : Nat → Nat → UInt8) (p : Packet) (rest : List Packet) : Bool :=
  badSuperframe bus.blocksize (((p :: rest).map Packet.len).sum % 65536) { p with mem := read 0 } ||
    (headless read p rest).any badSubframe

/-- The superframe is read into the chain and checked. -/
def readSuperframe (bus : Bus) (a : Attempt) : Bus × Nat :=
  match bus.glom with
  | [] => (bus, 0)
  | p :: rest =>
    match a.read with
    | none => ({ bus with rxErrors := bus.rxErrors + 1 }.failed a none, 0)
    | some read =>
      let h := Packet.header { p with mem := read 0 }
      let noted := { bus.note a.rxseq h with glom := headless read p rest }
      if bus.refused read p rest then
        let left := noted.failed a (some h.doff)
        (if left.panicked then left else { left with nextlen := 0 }, 0)
      else noted.handUp (headless read p rest) h.seq

/-- The part of dhdsdio_rxglom before there is a chain to read into. -/
def describe (bus : Bus) (a : Attempt) : Bus :=
  match bus.glomd with
  | some glomd => bus.takeDescriptor a glomd
  | none => bus

def rxglom (bus : Bus) (a : Attempt) : Bus × Nat := (bus.describe a).readSuperframe a

def stop (bus : Bus) : Bus :=
  { bus with
    freed := bus.freed ++ (bus.glomd.toList ++ bus.glom).map Packet.id
    glom := []
    glomd := none
    rxskip := false
    txSeq := 0
    txMax := 4 }

/-- The counters that IOV_CLEARCOUNTS and dhd_bus_clearcounts zero; glomerr is none of them. -/
def clearcounts (bus : Bus) : Bus :=
  { bus with
    rxErrors := 0
    rxrtx := 0
    rxBadseq := 0
    rxglomfail := 0
    rxglomframes := 0
    rxglompkts := 0
    packetsBefore := (bus.delivered.flatMap Prod.snd).length
    chainsBefore := bus.abandoned }

end Bus

inductive Op where
  /-- dhdsdio_readframes keeps a descriptor, which it does not read for while there is one or a chain. -/
  | descriptor (mem : Nat → UInt8) (cap off len : Nat)
  | rxglom (a : Attempt)
  | stop
  | clearcounts

def step (bus : Bus) (op : Op) : Option Bus :=
  if bus.panicked then none
  else
    match op with
    | .descriptor mem cap off len =>
      if bus.glomd.isSome || !bus.glom.isEmpty then none
      else some { bus with glomd := some ⟨bus.obtained, mem, cap, off, len⟩, obtained := bus.obtained + 1 }
    | .rxglom a => some (bus.rxglom a).1
    | .stop => some bus.stop
    | .clearcounts => some bus.clearcounts

def Bus.initial (blocksize : Nat) : Bus :=
  ⟨⟨⟨[], 0, 0, 0, 0, 0, 0, 0, 0, false⟩, none, [], 0, [], [], 0⟩, blocksize, 0, false, 0, 4, 0, 0, 0, 0⟩

/-- What no read, pull or push changes of a packet: which one it is, the end of its buffer and the end of its data. -/
def Packet.body (p : Packet) : Nat × Nat × Nat := (p.id, p.cap, p.off + p.len)

def Fits (body : Nat × Nat × Nat) : Prop := body.2.2 ≤ body.2.1

/-- A packet that goes up came out of a subframe at b: a header that passes its checks, a BDC header behind it, and
    the data from there to the end of the subframe. -/
structure Framed (p : Packet) (b : Nat) : Prop where
  check : (p.headerAt b).len ^^^ (p.headerAt b).check = 0xffff
  channel : (p.headerAt b).chan = dataChannel ∨ (p.headerAt b).chan = eventChannel
  offset : sdpcmHdrlen ≤ (p.headerAt b).doff
  version : bdcVer (p.headerAt (b + (p.headerAt b).doff)) = 2 ∨ bdcVer (p.headerAt (b + (p.headerAt b).doff)) = 1
  start : p.off = b + (p.headerAt b).doff + bdcHeaderLen + bdcDataOffset (p.headerAt (b + (p.headerAt b).doff))
  stop : p.off + p.len = b + (p.headerAt b).len
  room : b + (p.headerAt b).len ≤ p.cap

namespace Packet

theorem pull_of_le {p : Packet} {n : Nat} (h : n ≤ p.len) :
    p.pull n = { p with off := p.off + n, len := p.len - n } := by
  unfold pull
  rw [if_neg (by omega)]

theorem push_pull (p : Packet) (n : Nat) : (p.pull n).push n = if n ≤ p.len then some p else p.push n := by
  split
  case isTrue le =>
    rw [pull_of_le le]
    simp only [push, Nat.not_lt.2 (Nat.le_add_left _ _), if_false, Nat.add_sub_cancel, Nat.sub_add_cancel le]
  case isFalse gt => rw [pull, if_pos (Nat.not_le.1 gt)]

theorem pull_body (p : Packet) (n : Nat) : (p.pull n).body = p.body := by
  unfold pull
  split
  · rfl
  · simp only [body, Prod.mk.injEq, true_and]
    omega

theorem push_body {p q : Packet} {n : Nat} (pushed : p.push n = some q) : q.body = p.body := by
  unfold push at pushed
  split at pushed
  · cases pushed
  · cases pushed
    simp only [body, Prod.mk.injEq, true_and]
    omega

end Packet

structure Built (obtained n : Nat) (chain : List Packet) : Prop where
  ids : chain.map Packet.id = List.range' obtained chain.length
  fits : ∀ p ∈ chain, Fits p.body
  short : chain.length ≤ n

theorem Built.snoc {obtained n : Nat} {chain : List Packet} (built : Built obtained n chain) (b : Buffer)
    (sublen : Nat) : Built obtained (n + 1) (chain ++ [alignedPacket b (obtained + chain.length) sublen]) where
  ids := by
    rw [List.map_append, built.ids, List.length_append, List.length_singleton, List.range'_concat]
    simp [alignedPacket]
  fits := by
    intro p member
    rcases List.mem_append.1 member with old | new
    · exact built.fits p old
    · rw [List.mem_singleton.1 new]
      simp only [Fits, Packet.body, alignedPacket, roundUp, sdalign]
      omega
  short := by
    rw [List.length_append, List.length_singleton]
    exact Nat.succ_le_succ built.short

theorem built_buildChain (blocksize : Nat) (pktget : Nat → Option Buffer) {obtained n : Nat} (lens : List Nat)
    (totlen : Nat) {chain : List Packet} (built : Built obtained n chain) :
    Built obtained (n + lens.length) (buildChain blocksize pktget obtained lens totlen chain).1 := by
  induction lens generalizing n totlen chain with
  | nil => exact built
  | cons sublen rest ih =>
    have stopped : Built obtained (n + (rest.length + 1)) chain :=
      ⟨built.ids, built.fits, Nat.le_add_right_of_le built.short⟩
    unfold buildChain
    split
    · exact stopped
    · simp only
      split
      · exact stopped
      · rw [List.length_cons, Nat.add_comm rest.length, ← Nat.add_assoc]
        exact ih _ (built.snoc _ _)

/- The chain when the superframe was read into it. -/

theorem fill_body (read : Nat → Nat → UInt8) (i : Nat) (chain : List Packet) :
    (fill read i chain).map Packet.body = chain.map Packet.body := by
  induction chain generalizing i with
  | nil => rfl
  | cons p rest ih => simp [fill, ih, Packet.body]

theorem headless_body (read : Nat → Nat → UInt8) (p : Packet) (rest : List Packet) :
    (Bus.headless read p rest).map Packet.body = (p :: rest).map Packet.body := by
  simp only [Bus.headless, List.map_cons, Packet.pull_body, fill_body]
  rfl

theorem ids_of_body {l m : List Packet} (same : l.map Packet.body = m.map Packet.body) :
    l.map Packet.id = m.map Packet.id := by
  have first := congrArg (List.map Prod.fst) same
  rw [List.map_map, List.map_map] at first
  exact first

theorem fits_of_body {l m : List Packet} (same : l.map Packet.body = m.map Packet.body)
    (fits : ∀ p ∈ m, Fits p.body) : ∀ p ∈ l, Fits p.body := by
  rw [← List.forall_mem_map (f := Packet.body) (P := Fits)] at fits ⊢
  rwa [same]

/- What is made of a packet that passed the checks. -/

theorem framed_of_hdrpull {p q : Packet} {i j : Nat} (good : badSubframe p = false) (fits : Fits p.body)
    (pulled : hdrpull (strip p) i = (j, some q)) : q.id = p.id ∧ Framed q p.off := by
  simp only [badSubframe, Bool.or_eq_false_iff, bne_eq_false_iff_eq, decide_eq_false_iff_not, Nat.not_lt,
    Bool.and_eq_false_iff] at good
  obtain ⟨⟨⟨⟨⟨check, long⟩, short⟩, channel⟩, offset⟩, inside⟩ := good
  have stripped : strip p = { p with off := p.off + p.header.doff, len := p.header.len - p.header.doff } :=
    Packet.pull_of_le inside
  unfold hdrpull at pulled
  simp only [stripped] at pulled
  split at pulled
  · cases pulled
  case isFalse four =>
    simp only [Nat.not_lt] at four
    split at pulled
    · cases pulled
    case isFalse version =>
      rw [Packet.pull_of_le four] at pulled
      split at pulled
      · cases pulled
      case isFalse behind =>
        simp only [Nat.not_lt] at behind
        rw [Packet.pull_of_le behind] at pulled
        cases pulled
        have le := Nat.mod_le p.len 65536
        have inBuffer : p.off + p.len ≤ p.cap := fits
        refine ⟨rfl, check, channel, offset, ?_, rfl, ?_, (Nat.add_le_add_left (long.trans le) _).trans inBuffer⟩
        · by_contra neither
          exact version (not_or.1 neither)
        · show _ + (_ - _) = p.off + p.header.len
          simp only at four behind ⊢
          omega

structure Parted (chain : List Packet) (r : Processed) : Prop where
  owned : (r.kept.map Packet.id ++ r.freed).Perm (chain.map Packet.id)
  ordered : (r.kept.map Packet.id).Sublist (chain.map Packet.id)
  framed : ∀ q ∈ r.kept, ∃ b, Framed q b

theorem parted_process {chain : List Packet} (ifidx : Nat) (good : ∀ p ∈ chain, badSubframe p = false)
    (fits : ∀ p ∈ chain, Fits p.body) : Parted chain (process chain ifidx) := by
  induction chain generalizing ifidx with
  | nil => exact ⟨List.Perm.refl _, List.Sublist.refl _, nofun⟩
  | cons p rest ih =>
    rw [List.forall_mem_cons] at good fits
    have later := fun i => ih i good.2 fits.2
    unfold process
    split
    · exact ⟨List.perm_middle.trans ((later _).owned.cons p.id), (later _).ordered.cons p.id, (later _).framed⟩
    · split
      · exact ⟨List.perm_middle.trans ((later _).owned.cons p.id), (later _).ordered.cons p.id, (later _).framed⟩
      case h_2 q pulled =>
        obtain ⟨id, framed⟩ := framed_of_hdrpull good.1 fits.1 pulled
        refine ⟨?_, ?_, List.forall_mem_cons.2 ⟨⟨p.off, framed⟩, (later _).framed⟩⟩
        · rw [List.map_cons, List.map_cons, List.cons_append, id]
          exact (later _).owned.cons p.id
        · rw [List.map_cons, List.map_cons, id]
          exact (later _).ordered.cons_cons p.id

namespace Account

def deliveredIds (b : Account) : List Nat := (b.delivered.flatMap Prod.snd).map Packet.id

def places (b : Account) : List Nat :=
  b.glomd.toList.map Packet.id ++ b.glom.map Packet.id ++ b.freed ++ b.deliveredIds ++ b.lost

def retried (b : Account) (chain : List Packet) : Account :=
  { b with glom := chain, glomerr := b.glomerr + 1, failures := b.failures + 1, naks := b.naks + 1 }

def panics (b : Account) (chain : List Packet) : Account :=
  { b with glom := chain, glomerr := b.glomerr + 1, failures := b.failures + 1, panicked := true }

def givenUp (b : Account) : Account :=
  { b with
    glom := []
    freed := b.freed ++ b.glom.map Packet.id
    glomerr := 0
    failures := b.failures + 1
    rxglomfail := b.rxglomfail + 1
    abandoned := b.abandoned + 1 }

def handedUp (b : Account) (r : Processed) : Account :=
  let num := r.kept.length % 256
  { b with
    glom := []
    freed := b.freed ++ r.freed
    delivered := if num ≠ 0 then b.delivered ++ [(r.ifidx, r.kept.take num)] else b.delivered
    lost := b.lost ++ (r.kept.drop num).map Packet.id
    rxglompkts := b.rxglompkts + UInt32.ofNat num }

end Account

inductive Outcome (b : Account) : Account → Prop
  | idle (none_left : b.glom = []) : Outcome b b
  | retried (chain : List Packet) (more : b.glomerr < 3) (same : chain.map Packet.body = b.glom.map Packet.body) :
      Outcome b (b.retried chain)
  | panics (chain : List Packet) (more : b.glomerr < 3) (alive : b.panicked = false)
      (same : chain.map Packet.body = b.glom.map Packet.body) : Outcome b (b.panics chain)
  | givenUp (last : 3 ≤ b.glomerr) : Outcome b b.givenUp
  | handedUp (chain : List Packet) (same : chain.map Packet.body = b.glom.map Packet.body)
      (good : ∀ p ∈ chain, badSubframe p = false) : Outcome b (b.handedUp (process chain 0))

namespace Bus

theorem restore_account {bus left : Bus} {sfdoff : Nat} (restored : bus.restore sfdoff = some left) :
    ∃ chain, left.toAccount = { bus.toAccount with glom := chain } ∧
      chain.map Packet.body = bus.glom.map Packet.body := by
  unfold restore at restored
  split at restored
  · cases restored
    exact ⟨bus.glom, rfl, rfl⟩
  case h_2 p rest glom =>
    obtain ⟨q, pushed, rfl⟩ := Option.map_eq_some_iff.mp restored
    refine ⟨q :: rest, rfl, ?_⟩
    rw [glom, List.map_cons, List.map_cons, Packet.push_body pushed]

theorem failed_outcome (bus : Bus) (a : Attempt) (sfdoff : Option Nat) (alive : bus.panicked = false) :
    Outcome bus.toAccount (bus.failed a sfdoff).toAccount := by
  unfold failed
  simp only
  split
  case isTrue more =>
    cases sfdoff with
    | none => exact Outcome.retried bus.glom more rfl
    | some doff =>
      dsimp only
      split
      · exact Outcome.panics bus.glom more alive rfl
      case h_2 left restored =>
        obtain ⟨chain, account, same⟩ := restore_account restored
        simp only [rxfail, account, if_true]
        exact Outcome.retried chain more same
  case isFalse last => exact Outcome.givenUp (UInt32.not_lt.1 last)

theorem outcome_of_same {b c : Account} {chain : List Packet} (same : chain.map Packet.body = b.glom.map Packet.body)
    (nonempty : chain ≠ []) (outcome : Outcome { b with glom := chain } c) : Outcome b c := by
  cases outcome with
  | idle none_left => exact absurd none_left nonempty
  | retried left more body => exact Outcome.retried left more (body.trans same)
  | panics left more alive body => exact Outcome.panics left more alive (body.trans same)
  | givenUp last =>
    have equal : Account.givenUp { b with glom := chain } = b.givenUp := by
      simp only [Account.givenUp, ids_of_body same]
    rw [equal]
    exact Outcome.givenUp last
  | handedUp checked body good => exact Outcome.handedUp checked (body.trans same) good

theorem readSuperframe_outcome (bus : Bus) (a : Attempt) (alive : bus.panicked = false) :
    Outcome bus.toAccount (bus.readSuperframe a).1.toAccount := by
  unfold readSuperframe
  split
  case h_1 none_left => exact Outcome.idle none_left
  case h_2 p rest glom =>
    split
    · exact failed_outcome { bus with rxErrors := bus.rxErrors + 1 } a none alive
    case h_2 read _ =>
      have same : (headless read p rest).map Packet.body = bus.glom.map Packet.body := by
        rw [headless_body, glom]
      simp only
      split
      · apply outcome_of_same same (List.cons_ne_nil _ _)
        have outcome := failed_outcome { bus.note a.rxseq (Packet.header { p with mem := read 0 }) with
          glom := headless read p rest } a (some (Packet.header { p with mem := read 0 }).doff) alive
        split <;> exact outcome
      case isFalse good =>
        simp only [refused, Bool.or_eq_true, not_or, Bool.not_eq_true, List.any_eq_false] at good
        exact Outcome.handedUp (headless read p rest) same good.2

end Bus

structure Counted (b : Tally) : Prop where
  framed : ∀ c ∈ b.delivered, ∀ p ∈ c.2, ∃ base, Framed p base
  packets : ∃ n, (b.delivered.flatMap Prod.snd).length = b.packetsBefore + n ∧ b.rxglompkts = UInt32.ofNat n
  chains : ∃ n, b.abandoned = b.chainsBefore + n ∧ b.rxglomfail = UInt32.ofNat n
  tried : b.glomerr.toNat ≤ 3
  failures : b.failures = 4 * b.abandoned + b.glomerr.toNat
  naks : b.naks + b.panicked.toNat = 3 * b.abandoned + b.glomerr.toNat

structure Sound (b : Account) : Prop where
  owned : b.places.Perm (List.range b.obtained)
  single : b.glomd.isSome = true → b.glom = []
  ordered : (b.deliveredIds ++ b.glom.map Packet.id).Pairwise (· < ·)
  fits : ∀ p ∈ b.glom, Fits p.body
  short : b.glom.length ≤ b.longest
  lost : b.longest ≤ 255 → b.lost = []
  counted : Counted b.toTally

section
variable {b : Account}

theorem count_places (b : Account) (i : Nat) :
    b.places.count i = (b.glomd.toList.map Packet.id).count i + (b.glom.map Packet.id).count i + b.freed.count i +
      b.deliveredIds.count i + b.lost.count i := by
  simp only [Account.places, List.count_append]

theorem owned_of_count {c : Account} (k : Nat) (owned : b.places.Perm (List.range b.obtained))
    (more : c.obtained = b.obtained + k)
    (moved : ∀ i, c.places.count i = b.places.count i + (List.range' b.obtained k).count i) :
    c.places.Perm (List.range c.obtained) := by
  apply List.perm_iff_count.2
  intro i
  rw [moved, more, List.perm_iff_count.1 owned i, List.range_eq_range', List.range_eq_range', ← List.count_append,
    ← List.range'_append]
  simp

theorem toNat_glomerr (more : b.glomerr < 3) : b.glomerr.toNat < 3 ∧ (b.glomerr + 1).toNat = b.glomerr.toNat + 1 := by
  have few : b.glomerr.toNat < 3 := UInt32.lt_iff_toNat_lt.1 more
  refine ⟨few, ?_⟩
  rw [UInt32.toNat_add, UInt32.toNat_one]
  exact Nat.mod_eq_of_lt (by omega)

theorem sound_tried {c : Account} (sound : Sound b) (same : c.glom.map Packet.body = b.glom.map Packet.body)
    (others : c = { b with toTally := c.toTally, glom := c.glom }) (delivered : c.delivered = b.delivered)
    (counted : Counted c.toTally) : Sound c := by
  have ids : c.deliveredIds = b.deliveredIds := by rw [Account.deliveredIds, delivered]; rfl
  rw [others] at ids ⊢
  refine ⟨?_, ?_, ?_, fits_of_body same sound.fits, ?_, sound.lost, counted⟩
  · refine owned_of_count 0 sound.owned rfl ?_
    intro i
    rw [count_places, count_places, ids, ← ids_of_body same]
    rfl
  · intro some
    rw [sound.single some, List.map_nil, List.map_eq_nil_iff] at same
    exact same
  · rw [ids, ids_of_body same]
    exact sound.ordered
  · have length := congrArg List.length same
    rw [List.length_map, List.length_map] at length
    exact length.trans_le sound.short

theorem sound_retried (sound : Sound b) {chain : List Packet} (more : b.glomerr < 3)
    (same : chain.map Packet.body = b.glom.map Packet.body) : Sound (b.retried chain) := by
  obtain ⟨framed, packets, chains, _, failures, naks⟩ := sound.counted
  obtain ⟨few, next⟩ := toNat_glomerr more
  refine sound_tried sound same rfl rfl ⟨framed, packets, chains, ?_, ?_, ?_⟩ <;>
    · simp only [Account.retried, next]
      omega

theorem sound_panics (sound : Sound b) {chain : List Packet} (more : b.glomerr < 3) (alive : b.panicked = false)
    (same : chain.map Packet.body = b.glom.map Packet.body) : Sound (b.panics chain) := by
  obtain ⟨framed, packets, chains, _, failures, naks⟩ := sound.counted
  obtain ⟨few, next⟩ := toNat_glomerr more
  rw [alive, Bool.toNat_false] at naks
  refine sound_tried sound same rfl rfl ⟨framed, packets, chains, ?_, ?_, ?_⟩ <;>
    · simp only [Account.panics, next, Bool.toNat_true]
      omega

theorem ordered_deliveredIds (sound : Sound b) : b.deliveredIds.Pairwise (· < ·) :=
  List.Pairwise.sublist (List.sublist_append_left _ _) sound.ordered

theorem sound_of_emptied {c : Account} (sound : Sound b) (empty : c.glom = []) (obtained : c.obtained = b.obtained)
    (moved : ∀ i, c.places.count i = b.places.count i) (ordered : c.deliveredIds.Pairwise (· < ·))
    (lost : c.longest ≤ 255 → c.lost = []) (counted : Counted c.toTally) : Sound c where
  owned := owned_of_count 0 sound.owned obtained (by simpa using moved)
  single := fun _ => empty
  ordered := by rwa [empty, List.map_nil, List.append_nil]
  fits := by simp [empty]
  short := by simp [empty]
  lost := lost
  counted := counted

theorem sound_givenUp (sound : Sound b) (last : 3 ≤ b.glomerr) : Sound b.givenUp := by
  obtain ⟨framed, packets, ⟨n, chains, count⟩, tried, failures, naks⟩ := sound.counted
  have three : b.glomerr.toNat = 3 := Nat.le_antisymm tried (UInt32.le_iff_toNat_le.1 last)
  have ordered := ordered_deliveredIds sound
  refine sound_of_emptied sound rfl rfl ?_ ordered sound.lost
    ⟨framed, packets, ⟨n + 1, ?_, ?_⟩, Nat.zero_le 3, ?_, ?_⟩
  · intro i
    rw [count_places, count_places]
    simp only [Account.givenUp, Account.deliveredIds, List.count_append, List.map_nil, List.count_nil]
    omega
  · simp only [Account.givenUp]
    omega
  · simp only [Account.givenUp, count, UInt32.ofNat_add]
    rfl
  · simp only [Account.givenUp, UInt32.toNat_zero]
    omega
  · simp only [Account.givenUp, UInt32.toNat_zero]
    omega

theorem handedUp_delivered (b : Account) (r : Processed) :
    (b.handedUp r).delivered.flatMap Prod.snd =
      b.delivered.flatMap Prod.snd ++ r.kept.take (r.kept.length % 256) := by
  unfold Account.handedUp
  simp only
  split
  · simp
  case isFalse none_left =>
    rw [Decidable.not_not.1 none_left]
    simp

theorem sound_handedUp (sound : Sound b) {chain : List Packet}
    (same : chain.map Packet.body = b.glom.map Packet.body) (good : ∀ p ∈ chain, badSubframe p = false) :
    Sound (b.handedUp (process chain 0)) := by
  have parted := parted_process 0 good (fits_of_body same sound.fits)
  have delivered := handedUp_delivered b (process chain 0)
  have kept := List.take_append_drop ((process chain 0).kept.length % 256) (process chain 0).kept
  have ids : (b.handedUp (process chain 0)).deliveredIds =
      b.deliveredIds ++ ((process chain 0).kept.take ((process chain 0).kept.length % 256)).map Packet.id := by
    rw [Account.deliveredIds, delivered, List.map_append]
    rfl
  refine sound_of_emptied sound rfl rfl ?_ ?_ ?_ ?_
  · intro i
    have moved := List.perm_iff_count.1 parted.owned i
    rw [ids_of_body same, List.count_append, ← kept, List.map_append, List.count_append] at moved
    rw [count_places, count_places, ids]
    simp only [Account.handedUp, List.count_append, List.map_nil, List.count_nil]
    omega
  · have taken := ((List.take_sublist ((process chain 0).kept.length % 256) _).map Packet.id).trans parted.ordered
    rw [ids_of_body same] at taken
    rw [ids]
    exact List.Pairwise.sublist (List.Sublist.append_left taken _) sound.ordered
  · intro few
    have fewer := parted.ordered.length_le
    rw [ids_of_body same, List.length_map, List.length_map] at fewer
    have := sound.short
    have : b.longest ≤ 255 := few
    simp only [Account.handedUp]
    rw [Nat.mod_eq_of_lt (by omega), List.drop_length, sound.lost few]
    rfl
  · obtain ⟨framed, ⟨n, packets, count⟩, chains, tried, failures, naks⟩ := sound.counted
    refine ⟨?_, ⟨n + (process chain 0).kept.length % 256, ?_, ?_⟩, chains, tried, failures, naks⟩
    · intro c member p inside
      have up := List.mem_flatMap.2 ⟨c, member, inside⟩
      rw [delivered] at up
      rcases List.mem_append.1 up with old | new
      · obtain ⟨d, before, within⟩ := List.mem_flatMap.1 old
        exact framed d before p within
      · exact parted.framed p (List.mem_of_mem_take new)
    · rw [delivered, List.length_append, List.length_take, min_eq_left (Nat.mod_le _ _), packets, Nat.add_assoc]
      rfl
    · simp only [Account.handedUp, count, UInt32.ofNat_add]

theorem sound_outcome (sound : Sound b) {c : Account} (outcome : Outcome b c) : Sound c := by
  cases outcome with
  | idle none_left => exact sound
  | retried chain more same => exact sound_retried sound more same
  | panics chain more alive same => exact sound_panics sound more alive same
  | givenUp last => exact sound_givenUp sound last
  | handedUp chain same good => exact sound_handedUp sound same good

end

theorem sound_describe {bus : Bus} (a : Attempt) (sound : Sound bus.toAccount) :
    Sound (bus.describe a).toAccount := by
  unfold Bus.describe
  split
  case h_2 => exact sound
  case h_1 glomd held =>
    have empty := sound.single (by rw [held]; rfl)
    have built := built_buildChain bus.blocksize a.pktget (n := 0) (lengths glomd) 0
      (show Built bus.obtained 0 [] from ⟨rfl, nofun, Nat.le_refl 0⟩)
    have below : ∀ i ∈ bus.deliveredIds, i < bus.obtained := by
      intro i member
      apply List.mem_range.1
      apply sound.owned.subset
      simp only [Account.places, List.mem_append]
      exact Or.inl (Or.inr member)
    unfold Bus.takeDescriptor
    simp only
    generalize buildChain bus.blocksize a.pktget bus.obtained (lengths glomd) 0 [] = result at built ⊢
    obtain ⟨chain, complete⟩ := result
    simp only at built
    have owned := fun (c : Account) => owned_of_count (c := c) chain.length sound.owned
    have lost : max bus.longest (lengths glomd).length ≤ 255 → bus.lost = [] :=
      fun few => sound.lost ((Nat.le_max_left _ _).trans few)
    have delivered := ordered_deliveredIds sound
    cases complete with
    | false =>
      refine ⟨owned _ rfl ?_, fun _ => rfl, ?_, nofun, Nat.zero_le _, lost, sound.counted⟩
      · intro i
        rw [count_places, count_places, held, empty, ← built.ids]
        simp [Account.deliveredIds, List.count_append]
        omega
      · show (bus.deliveredIds ++ []).Pairwise (· < ·)
        rwa [List.append_nil]
    | true =>
      refine ⟨owned _ rfl ?_, nofun, ?_, built.fits, ?_, lost, sound.counted⟩
      · intro i
        rw [count_places, count_places, held, empty, ← built.ids]
        simp [Account.deliveredIds, List.count_append]
        omega
      · show (bus.deliveredIds ++ chain.map Packet.id).Pairwise (· < ·)
        rw [built.ids, List.pairwise_append]
        refine ⟨delivered, List.pairwise_lt_range', ?_⟩
        intro i old j new
        have := below i old
        have := List.mem_range'_1.1 new
        omega
      · have short := built.short
        rw [Nat.zero_add] at short
        exact short.trans (Nat.le_max_right _ _)

theorem describe_panicked (bus : Bus) (a : Attempt) : (bus.describe a).panicked = bus.panicked := by
  unfold Bus.describe
  split <;> rfl

theorem sound_rxglom {bus : Bus} (a : Attempt) (alive : bus.panicked = false) (sound : Sound bus.toAccount) :
    Sound (bus.rxglom a).1.toAccount :=
  sound_outcome (sound_describe a sound) (Bus.readSuperframe_outcome _ a ((describe_panicked bus a).trans alive))

theorem sound_clearcounts {bus : Bus} (sound : Sound bus.toAccount) : Sound bus.clearcounts.toAccount := by
  obtain ⟨framed, packets, chains, tried, failures, naks⟩ := sound.counted
  exact ⟨sound.owned, sound.single, sound.ordered, sound.fits, sound.short, sound.lost,
    ⟨framed, ⟨0, rfl, rfl⟩, ⟨0, rfl, rfl⟩, tried, failures, naks⟩⟩

theorem sound_stop {bus : Bus} (sound : Sound bus.toAccount) : Sound bus.stop.toAccount := by
  have ordered := ordered_deliveredIds sound
  refine sound_of_emptied sound rfl rfl ?_ ordered sound.lost sound.counted
  intro i
  rw [count_places, count_places]
  simp only [Bus.stop, Account.deliveredIds, List.count_append, List.map_append, List.map_nil, List.count_nil,
    Option.toList_none]
  omega

theorem sound_descriptor {bus : Bus} (sound : Sound bus.toAccount) (mem : Nat → UInt8) (cap off len : Nat)
    (none_held : bus.glomd = none) (empty : bus.glom = []) :
    Sound { bus.toAccount with
      glomd := some ⟨bus.obtained, mem, cap, off, len⟩, obtained := bus.obtained + 1 } where
  owned := by
    refine owned_of_count 1 sound.owned rfl ?_
    intro i
    rw [count_places, count_places, none_held]
    simp only [Account.deliveredIds, Option.toList_some, List.map_cons, List.map_nil, Option.toList_none,
      List.count_nil, List.range'_one]
    omega
  single := fun _ => empty
  ordered := sound.ordered
  fits := sound.fits
  short := sound.short
  lost := sound.lost
  counted := sound.counted

theorem sound_step (bus : Bus) (op : Op) (next : Bus) (sound : Sound bus.toAccount) (done : step bus op = some next) :
    Sound next.toAccount := by
  unfold step at done
  split at done
  · cases done
  case isFalse alive =>
    cases op with
    | descriptor mem cap off len =>
      simp only at done
      split at done
      · cases done
      case isFalse free =>
        simp only [Bool.or_eq_true, not_or, Bool.not_eq_true, Option.isSome_eq_false_iff, Option.isNone_iff_eq_none,
          Bool.not_eq_false', List.isEmpty_iff] at free
        cases done
        exact sound_descriptor sound mem cap off len free.1 free.2
    | rxglom a =>
      cases done
      exact sound_rxglom a (by simpa using alive) sound
    | stop =>
      cases done
      exact sound_stop sound
    | clearcounts =>
      cases done
      exact sound_clearcounts sound

theorem sound_run {blocksize : Nat} {ops : List Op} {bus : Bus}
    (done : run step (Bus.initial blocksize) ops = some bus) : Sound bus.toAccount := by
  have start : Sound (Bus.initial blocksize).toAccount :=
    ⟨List.Perm.refl _, fun _ => rfl, List.Pairwise.nil, nofun, Nat.le_refl 0, fun _ => rfl,
      ⟨nofun, ⟨0, rfl, rfl⟩, ⟨0, rfl, rfl⟩, Nat.zero_le 3, rfl, rfl⟩⟩
  exact invariant_of_run (fun s => Sound s.toAccount) sound_step start done

def Packet.place (p : Packet) : Nat × Nat × Nat := (p.id, p.off, p.len)

def announced (read : Nat → Nat → UInt8) (p : Packet) : Nat := Packet.header { p with mem := read 0 } |>.doff

theorem fill_places (read : Nat → Nat → UInt8) (i : Nat) (chain : List Packet) :
    (fill read i chain).map Packet.place = chain.map Packet.place := by
  induction chain generalizing i with
  | nil => rfl
  | cons p rest ih => simp [fill, ih, Packet.place]

/-- The header's space restored in a chain that it was pulled from. Pulled from a packet that is shorter, it was not
    taken from it. -/
theorem restore_headless (bus : Bus) {read : Nat → Nat → UInt8} {p : Packet} {rest : List Packet}
    (glom : bus.glom = Bus.headless read p rest) :
    if announced read p ≤ p.len then ∃ left, bus.restore (announced read p) = some left ∧
      left.panicked = bus.panicked ∧ left.glom.map Packet.place = (p :: rest).map Packet.place
    else if p.off < announced read p then bus.restore (announced read p) = none
    else ∃ left, bus.restore (announced read p) = some left ∧ left.panicked = bus.panicked ∧
      left.glom.map Packet.place =
        (p.id, p.off - announced read p, p.len + announced read p) :: rest.map Packet.place := by
  unfold Bus.restore announced
  rw [glom]
  simp only [Bus.headless, Packet.push_pull]
  split
  case isTrue room =>
    refine ⟨_, rfl, rfl, ?_⟩
    simp only [List.map_cons, fill_places]
    rfl
  case isFalse long =>
    simp only [Packet.push]
    split
    · rfl
    · refine ⟨_, rfl, rfl, ?_⟩
      simp only [List.map_cons, fill_places]
      rfl

theorem describe_glomerr (bus : Bus) (a : Attempt) : (bus.describe a).glomerr = bus.glomerr := by
  unfold Bus.describe
  split <;> rfl

theorem readSuperframe_refused {bus : Bus} {a : Attempt} {p : Packet} {rest : List Packet} {read : Nat → Nat → UInt8}
    (glom : bus.glom = p :: rest) (given : a.read = some read) (more : bus.glomerr < 3)
    (refused : bus.refused read p rest = true) :
    ∃ left : Bus, left.glom = Bus.headless read p rest ∧ left.panicked = bus.panicked ∧
      (left.restore (announced read p) = none → (bus.readSuperframe a).1.panicked = true) ∧
      ∀ back, left.restore (announced read p) = some back →
        (bus.readSuperframe a).1.panicked = back.panicked ∧ (bus.readSuperframe a).1.glom = back.glom := by
  refine ⟨{ bus.note a.rxseq (Packet.header { p with mem := read 0 }) with
    glom := Bus.headless read p rest, glomerr := bus.glomerr + 1, failures := bus.failures + 1 }, rfl, rfl, ?_, ?_⟩
  all_goals
    simp only [Bus.readSuperframe, glom, given, refused, if_true, Bus.failed, Bus.note, more]
  · intro lost
    simp only [announced] at lost
    simp only [lost, if_true]
  · intro back pushed
    simp only [announced] at pushed
    simp only [pushed]
    split <;> exact ⟨rfl, rfl⟩

def twoLengths : Op := .descriptor (fun j => [40, 0, 24, 0].getD j 0) 4 0 4

/-- A superframe of 64 bytes in two buffers with 64 bytes of headroom: its header, a subframe of 28 bytes with 12
    bytes of data for the first interface, and one of 24 bytes with 8. -/
def superframe (doff : UInt8) (i j : Nat) : UInt8 :=
  let frame : List UInt8 :=
    if i = 0 then
      [64, 0, 191, 255, 7, 3, 0, doff, 0, 9, 0, 0] ++ [28, 0, 227, 255, 7, 2, 0, 12, 0, 0, 0, 0] ++ [32, 0, 0, 0]
    else [24, 0, 231, 255, 8, 2, 0, 12, 0, 0, 0, 0] ++ [32, 0, 0, 0]
  frame.getD (j - 64) 0

def arranged (read : Option (Nat → Nat → UInt8)) : Attempt := ⟨7, fun _ => some ⟨fun _ => 0, 64, 64⟩, read, true⟩

def secondTime : List Op := [twoLengths, .rxglom (arranged none), .rxglom (arranged (some (superframe 12)))]

section
variable {blocksize : Nat} {ops : List Op} {bus : Bus}

/-- Every packet obtained is in one place, packets go up in the order in which they were obtained and as many as are
    counted since the counters were cleared, and none is lost when no descriptor has more lengths than its byte can
    count. -/
theorem glom_packets_accounted (done : run step (Bus.initial blocksize) ops = some bus) :
    bus.places.Perm (List.range bus.obtained) ∧ bus.deliveredIds.Pairwise (· < ·) ∧
      (∃ n, bus.deliveredIds.length = bus.packetsBefore + n ∧ bus.rxglompkts.toNat = n % 2 ^ 32) ∧
      (bus.longest ≤ 255 → bus.lost = []) := by
  have sound := sound_run done
  obtain ⟨n, packets, count⟩ := sound.counted.packets
  refine ⟨sound.owned, ordered_deliveredIds sound, ⟨n, ?_, ?_⟩, sound.lost⟩
  · rw [Account.deliveredIds, List.length_map, packets]
  · rw [count, UInt32.toNat_ofNat']

theorem glom_packets_accounted_retried :
    ∃ bus, run step (Bus.initial 16) secondTime = some bus ∧ bus.deliveredIds = [1, 2] ∧ bus.rxglompkts.toNat = 2 ∧
      bus.lost = [] := by
  obtain ⟨bus, done, delivered, few, before⟩ : ∃ bus, run step (Bus.initial 16) secondTime = some bus ∧
      bus.deliveredIds = [1, 2] ∧ bus.longest ≤ 255 ∧ bus.packetsBefore = 0 := ⟨_, rfl, by decide, by decide, rfl⟩
  obtain ⟨_, _, ⟨n, packets, count⟩, lost⟩ := glom_packets_accounted done
  rw [delivered, before, Nat.zero_add] at packets
  exact ⟨bus, done, delivered, by rw [count, ← packets]; rfl, lost few⟩

theorem glom_delivers_framed (done : run step (Bus.initial blocksize) ops = some bus) :
    ∀ c ∈ bus.delivered, ∀ p ∈ c.2, ∃ base, Framed p base :=
  (sound_run done).counted.framed

theorem glom_delivers_framed_both :
    ∃ bus, run step (Bus.initial 16) secondTime = some bus ∧ bus.delivered.length = 1 ∧
      ∀ c ∈ bus.delivered, ∀ p ∈ c.2, ∃ base, Framed p base := by
  obtain ⟨bus, done, delivered⟩ : ∃ bus, run step (Bus.initial 16) secondTime = some bus ∧
      bus.delivered.length = 1 := ⟨_, rfl, by decide⟩
  exact ⟨bus, done, delivered, glom_delivers_framed done⟩

/-- Every fourth failure, and no other, gives a chain up; neither a success nor clearing the counters in between
    starts the count again. A panic comes before the NAK. -/
theorem glom_failures_counted (done : run step (Bus.initial blocksize) ops = some bus) :
    bus.failures = 4 * bus.abandoned + bus.glomerr.toNat ∧
      bus.naks + bus.panicked.toNat = 3 * bus.abandoned + bus.glomerr.toNat ∧ bus.glomerr.toNat ≤ 3 ∧
      ∃ n, bus.abandoned = bus.chainsBefore + n ∧ bus.rxglomfail.toNat = n % 2 ^ 32 := by
  obtain ⟨_, _, ⟨n, chains, count⟩, tried, failures, naks⟩ := (sound_run done).counted
  exact ⟨failures, naks, tried, n, chains, by rw [count, UInt32.toNat_ofNat']⟩

theorem glom_failures_counted_across :
    ∃ bus, run step (Bus.initial 16) ([twoLengths, .rxglom (arranged none), .rxglom (arranged none)] ++
        secondTime.tail ++ [.clearcounts, twoLengths, .rxglom (arranged none)]) = some bus ∧
      bus.failures = 4 ∧ bus.rxglomfail.toNat = 1 ∧ bus.glom = [] := by
  obtain ⟨bus, done, failures, none_before, empty⟩ : ∃ bus, run step (Bus.initial 16) ([twoLengths,
      .rxglom (arranged none), .rxglom (arranged none)] ++ secondTime.tail ++
        [.clearcounts, twoLengths, .rxglom (arranged none)]) = some bus ∧
        bus.failures = 4 ∧ bus.chainsBefore = 0 ∧ bus.glom = [] := ⟨_, rfl, by decide, rfl, rfl⟩
  obtain ⟨all, _, few, n, chains, count⟩ := glom_failures_counted done
  exact ⟨bus, done, failures, by omega, empty⟩

/-- A chain that was refused and is tried again is as it was before the attempt, also when the attempt has built it,
    if the first packet has room for the superframe header announced. If it has not, PKTPULL does nothing and PKTPUSH
    still moves the packet, or panics. -/
theorem glom_retry_restores {a : Attempt} {p : Packet} {rest : List Packet} {read : Nat → Nat → UInt8}
    (glom : (bus.describe a).glom = p :: rest) (given : a.read = some read) (more : bus.glomerr < 3)
    (refused : (bus.describe a).refused read p rest = true) :
    if announced read p ≤ p.len then
      (bus.rxglom a).1.panicked = bus.panicked ∧
        (bus.rxglom a).1.glom.map Packet.place = (bus.describe a).glom.map Packet.place
    else if p.off < announced read p then (bus.rxglom a).1.panicked = true
    else (bus.rxglom a).1.glom.map Packet.place =
      (p.id, p.off - announced read p, p.len + announced read p) :: rest.map Packet.place := by
  have tries : (bus.describe a).glomerr < 3 := by rwa [describe_glomerr]
  obtain ⟨left, chain, same, panics, retries⟩ := readSuperframe_refused glom given tries refused
  have restored := restore_headless left chain
  rw [← describe_panicked bus a, ← same, glom]
  unfold Bus.rxglom
  split
  case isTrue room =>
    rw [if_pos room] at restored
    obtain ⟨back, pushed, alive, places⟩ := restored
    obtain ⟨kept, unmoved⟩ := retries back pushed
    exact ⟨kept.trans alive, unmoved ▸ places⟩
  case isFalse long =>
    rw [if_neg long] at restored
    split
    case isTrue low => exact panics (by rwa [if_pos low] at restored)
    case isFalse high =>
      rw [if_neg high] at restored
      obtain ⟨back, pushed, alive, places⟩ := restored
      exact (retries back pushed).2 ▸ places

theorem glom_retry_restores_panics :
    ∃ bus, run step (Bus.initial 16) [twoLengths, .rxglom (arranged none)] = some bus ∧
      (bus.rxglom (arranged (some (superframe 65)))).1.panicked = true := by
  obtain ⟨bus, p, rest, done, glom, more, refused, long, low⟩ : ∃ bus p rest,
      run step (Bus.initial 16) [twoLengths, .rxglom (arranged none)] = some bus ∧
        (bus.describe (arranged (some (superframe 65)))).glom = p :: rest ∧ bus.glomerr < 3 ∧
        (bus.describe (arranged (some (superframe 65)))).refused (superframe 65) p rest = true ∧
        ¬ announced (superframe 65) p ≤ p.len ∧ p.off < announced (superframe 65) p :=
    ⟨_, _, _, rfl, rfl, by decide, by decide, by decide, by decide⟩
  have pushed := glom_retry_restores (a := arranged (some (superframe 65))) glom rfl more refused
  rw [if_neg long, if_pos low] at pushed
  exact ⟨bus, done, pushed⟩

end

end GlomChains
