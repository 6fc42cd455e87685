import Mathlib.Data.List.Basic
import Mathlib.Logic.Basic

/- probe_sepext_pktextract of static.c, which looks for a pktgen datagram in a frame: the bytes
   it reads, and the entry it traces. -/
namespace PacketRecognition

/-- A sk_buff as the probe sees it; its network-layer data are the len bytes from data on. -/
structure Skb where
  /-- In host order. -/
  protocol : Nat
  networkHeader : Nat
  data : Nat
  len : Nat
  memory : Nat → UInt8

def ethPIp : Nat := 0x0800

def ipprotoUdp : Nat := 17

def pktgenMagic : UInt32 := 0xbe9be955

def be32 (memory : Nat → UInt8) (a : Nat) : UInt32 :=
  ((memory a).toUInt32 <<< 24) ||| ((memory (a + 1)).toUInt32 <<< 16) |||
    ((memory (a + 2)).toUInt32 <<< 8) ||| (memory (a + 3)).toUInt32

/-- The halfword at an address, as the little-endian machine has it. -/
def le16 (memory : Nat → UInt8) (a : Nat) : Nat := (memory a).toNat + 256 * (memory (a + 1)).toNat

structure Entry where
  pid1 : Nat
  pid2 : Nat
  data : UInt32
deriving DecidableEq

structure Extraction where
  reads : List Nat
  entry : Option Entry
deriving DecidableEq

def span (a n : Nat) : List Nat := (List.range n).map (a + ·)

def version (memory : Nat → UInt8) (ip : Nat) : Nat := (memory ip).toNat / 16

def ihl (memory : Nat → UInt8) (ip : Nat) : Nat := (memory ip).toNat % 16

def ipProtocol (memory : Nat → UInt8) (ip : Nat) : Nat := (memory (ip + 9)).toNat

def udp (memory : Nat → UInt8) (ip : Nat) : Nat := ip + ihl memory ip * 4

def pghMagic (memory : Nat → UInt8) (ip : Nat) : UInt32 := be32 memory (udp memory ip + 8)

def seqNum (memory : Nat → UInt8) (ip : Nat) : UInt32 := be32 memory (udp memory ip + 12)

def recognise (memory : Nat → UInt8) (ip global : Nat) : Extraction :=
  if version memory ip ≠ 4 then ⟨[ip], none⟩
  else if ipProtocol memory ip ≠ ipprotoUdp then ⟨[ip, ip + 9], none⟩
  else
    let udp := udp memory ip
    -- source, dest and len of the UDP header, pgh_magic and seq_num behind it
    let reads := [ip, ip + 9] ++ span udp 6 ++ span (udp + 8) 8
    if pghMagic memory ip ≠ pktgenMagic then ⟨reads, none⟩
    else ⟨reads, some ⟨le16 memory udp, global, seqNum memory ip + 1⟩⟩

def probePktextract (skb : Skb) (global : Nat) : Extraction :=
  if global = 1 ∨ global = 2 then
    if skb.protocol ≠ ethPIp then ⟨[], none⟩ else recognise skb.memory skb.networkHeader global
  else ⟨[], some ⟨0, global, 0⟩⟩

/-- The frames that are passed on: dhd_rx_frame leaves the network header of a received one at the NULL that alloc_skb
    puts there, and that of one to be sent points to its network-layer data. -/
def Presented (skb : Skb) (global : Nat) : Prop :=
  (global = 1 ∧ skb.networkHeader = 0 ∧ 0 < skb.data) ∨ (global = 2 ∧ skb.networkHeader = skb.data)

structure Datagram (skb : Skb) : Prop where
  protocol : skb.protocol = ethPIp
  header : 5 ≤ ihl skb.memory skb.data
  payload : 4 * ihl skb.memory skb.data + 24 ≤ skb.len
  version : version skb.memory skb.data = 4
  udp : ipProtocol skb.memory skb.data = ipprotoUdp
  magic : pghMagic skb.memory skb.data = pktgenMagic

/-- The probe stays in the frame, traces just the datagrams, and numbers them from 1. -/
structure Recognised (skb : Skb) (global : Nat) : Prop where
  inside : ∀ a ∈ (probePktextract skb global).reads, skb.data ≤ a ∧ a < skb.data + skb.len
  traced : (probePktextract skb global).entry.isSome ↔ Datagram skb
  number : ∀ e, (probePktextract skb global).entry = some e →
    e.data.toNat = (seqNum skb.memory skb.data).toNat + 1 ∧ e.data ≠ 0

def Fits (skb : Skb) : Prop :=
  1 ≤ skb.len ∧
    (version skb.memory skb.data = 4 → 10 ≤ skb.len ∧
      (ipProtocol skb.memory skb.data = ipprotoUdp → 4 * ihl skb.memory skb.data + 16 ≤ skb.len ∧
        (pghMagic skb.memory skb.data = pktgenMagic →
          5 ≤ ihl skb.memory skb.data ∧ 4 * ihl skb.memory skb.data + 24 ≤ skb.len ∧
            seqNum skb.memory skb.data ≠ 0xffffffff)))

section
variable {skb : Skb} {global : Nat}

theorem mem_span {a b n : Nat} : b ∈ span a n ↔ a ≤ b ∧ b < a + n := by
  simp only [span, List.mem_map, List.mem_range]
  constructor
  · rintro ⟨i, below, rfl⟩
    omega
  · rintro ⟨lower, upper⟩
    exact ⟨b - a, by omega, by omega⟩

theorem succ_toNat_iff (n : UInt32) : (n + 1).toNat = n.toNat + 1 ∧ n + 1 ≠ 0 ↔ n ≠ 0xffffffff := by
  rw [Ne, Ne, ← UInt32.toNat_inj, ← UInt32.toNat_inj, UInt32.toNat_add]
  have below := n.toNat_lt
  have one : (1 : UInt32).toNat = 1 := rfl
  have zero : (0 : UInt32).toNat = 0 := rfl
  have last : (0xffffffff : UInt32).toNat = 2 ^ 32 - 1 := rfl
  rw [one, zero, last]
  omega

theorem recognised_other (other : skb.protocol ≠ ethPIp) (event : global = 1 ∨ global = 2) :
    Recognised skb global := by
  have nothing : probePktextract skb global = ⟨[], none⟩ := by simp [probePktextract, event, other]
  refine ⟨?_, ?_, ?_⟩ <;> rw [nothing]
  · nofun
  · exact iff_of_false nofun fun datagram => other datagram.protocol
  · nofun

theorem probe_ip (ip : skb.protocol = ethPIp) (event : global = 1 ∨ global = 2) :
    probePktextract skb global = recognise skb.memory skb.networkHeader global := by
  rw [probePktextract, if_pos event, if_neg (not_not.mpr ip)]

theorem header_read (memory : Nat → UInt8) (ip global : Nat) : ip ∈ (recognise memory ip global).reads := by
  unfold recognise
  split
  · exact List.mem_cons_self
  split
  · exact List.mem_cons_self
  dsimp only
  split <;> exact List.mem_cons_self

theorem not_recognised_null (ip : skb.protocol = ethPIp) (null : skb.networkHeader = 0) (positive : 0 < skb.data)
    (event : global = 1 ∨ global = 2) : ¬ Recognised skb global := by
  intro recognised
  have first := header_read skb.memory skb.networkHeader global
  rw [← probe_ip ip event] at first
  have inside := recognised.inside _ first
  omega

theorem datagram_reads (memory : Nat → UInt8) (ip len : Nat) :
    (∀ a ∈ [ip, ip + 9] ++ span (udp memory ip) 6 ++ span (udp memory ip + 8) 8, ip ≤ a ∧ a < ip + len) ↔
      10 ≤ len ∧ 4 * ihl memory ip + 16 ≤ len := by
  simp only [List.mem_append, List.mem_cons, List.not_mem_nil, or_false, mem_span, udp]
  constructor
  · intro inside
    have header := inside (ip + 9) (by omega)
    have last := inside (ip + ihl memory ip * 4 + 15) (by omega)
    omega
  · rintro ⟨header, last⟩ a read
    omega

theorem recognised_version (probe : probePktextract skb global = recognise skb.memory skb.data global)
    (other : version skb.memory skb.data ≠ 4) : Recognised skb global ↔ Fits skb := by
  have done : probePktextract skb global = ⟨[skb.data], none⟩ := by rw [probe, recognise, if_pos other]
  constructor
  · intro recognised
    have inside := recognised.inside skb.data (by simp [done])
    exact ⟨by omega, fun four => absurd four other⟩
  · intro fits
    have long := fits.1
    refine ⟨?_, ?_, ?_⟩ <;> rw [done]
    · intro a read
      rw [List.mem_singleton] at read
      omega
    · exact iff_of_false nofun fun datagram => other datagram.version
    · nofun

theorem recognised_protocol (probe : probePktextract skb global = recognise skb.memory skb.data global)
    (four : version skb.memory skb.data = 4) (other : ipProtocol skb.memory skb.data ≠ ipprotoUdp) :
    Recognised skb global ↔ Fits skb := by
  have done : probePktextract skb global = ⟨[skb.data, skb.data + 9], none⟩ := by
    rw [probe, recognise, if_neg (not_not.mpr four), if_pos other]
  constructor
  · intro recognised
    have inside := recognised.inside (skb.data + 9) (by simp [done])
    exact ⟨by omega, fun _ => ⟨by omega, fun udp => absurd udp other⟩⟩
  · intro fits
    have long := (fits.2 four).1
    refine ⟨?_, ?_, ?_⟩ <;> rw [done]
    · intro a read
      simp only [List.mem_cons, List.not_mem_nil, or_false] at read
      omega
    · exact iff_of_false nofun fun datagram => other datagram.udp
    · nofun

theorem recognised_udp (probe : probePktextract skb global = recognise skb.memory skb.data global)
    (ip : skb.protocol = ethPIp) (four : version skb.memory skb.data = 4)
    (proto : ipProtocol skb.memory skb.data = ipprotoUdp) : Recognised skb global ↔ Fits skb := by
  rw [recognise, if_neg (not_not.mpr four), if_neg (not_not.mpr proto)] at probe
  have reads : (probePktextract skb global).reads =
      [skb.data, skb.data + 9] ++ span (udp skb.memory skb.data) 6 ++ span (udp skb.memory skb.data + 8) 8 := by
    rw [probe]
    dsimp only
    split <;> rfl
  have range := datagram_reads skb.memory skb.data skb.len
  rw [← reads] at range
  by_cases magic : pghMagic skb.memory skb.data = pktgenMagic
  · have traced : (probePktextract skb global).entry =
        some ⟨le16 skb.memory (udp skb.memory skb.data), global, seqNum skb.memory skb.data + 1⟩ := by
      rw [probe, if_neg (not_not.mpr magic)]
    constructor
    · intro recognised
      have long := range.mp recognised.inside
      have datagram := recognised.traced.mp (by rw [traced]; rfl)
      have small := (succ_toNat_iff _).mp (recognised.number _ traced)
      exact ⟨by omega, fun _ => ⟨long.1, fun _ => ⟨long.2, fun _ => ⟨datagram.header, datagram.payload, small⟩⟩⟩⟩
    · intro fits
      obtain ⟨header, rest⟩ := fits.2 four
      obtain ⟨long, whole⟩ := rest proto
      obtain ⟨words, payload, small⟩ := whole magic
      refine ⟨range.mpr ⟨header, long⟩, ?_, ?_⟩ <;> rw [traced]
      · exact iff_of_true rfl ⟨ip, words, payload, four, proto, magic⟩
      · rintro _ ⟨⟩
        exact (succ_toNat_iff _).mpr small
  · have silent : (probePktextract skb global).entry = none := by rw [probe, if_pos magic]
    constructor
    · intro recognised
      have long := range.mp recognised.inside
      exact ⟨by omega, fun _ => ⟨long.1, fun _ => ⟨long.2, fun yes => absurd yes magic⟩⟩⟩
    · intro fits
      obtain ⟨header, rest⟩ := fits.2 four
      refine ⟨range.mpr ⟨header, (rest proto).1⟩, ?_, ?_⟩ <;> rw [silent]
      · exact iff_of_false nofun fun datagram => magic datagram.magic
      · nofun

theorem recognised_iff_fits (ip : skb.protocol = ethPIp) (start : skb.networkHeader = skb.data)
    (event : global = 1 ∨ global = 2) : Recognised skb global ↔ Fits skb := by
  have probe := probe_ip ip event
  rw [start] at probe
  by_cases four : version skb.memory skb.data = 4
  · by_cases proto : ipProtocol skb.memory skb.data = ipprotoUdp
    · exact recognised_udp probe ip four proto
    · exact recognised_protocol probe four proto
  · exact recognised_version probe four

end

theorem packets_recognised_iff {skb : Skb} {global : Nat} (presented : Presented skb global) :
    Recognised skb global ↔ skb.protocol ≠ ethPIp ∨ (global = 2 ∧ Fits skb) := by
  by_cases ip : skb.protocol = ethPIp
  · rcases presented with ⟨rfl, null, positive⟩ | ⟨rfl, start⟩
    · refine iff_of_false (not_recognised_null ip null positive (.inl rfl)) ?_
      simp [ip]
    · rw [recognised_iff_fits ip start (.inr rfl)]
      simp [ip]
  · have event : global = 1 ∨ global = 2 := presented.imp And.left And.left
    exact iff_of_true (recognised_other ip event) (.inl ip)

def framed (networkHeader : Nat) (bytes : List UInt8) : Skb :=
  ⟨ethPIp, networkHeader, 64, bytes.length, fun a => if 64 ≤ a then bytes.getD (a - 64) 0 else 0⟩

def numbered (seqNum : List UInt8) : List UInt8 :=
  [0x45, 0, 0, 44, 0, 0, 0, 0, 64, 17, 0, 0, 10, 0, 0, 1, 10, 0, 0, 2, 0, 9, 0, 9, 0, 24, 0, 0,
    0xbe, 0x9b, 0xe9, 0x55] ++ seqNum ++ [0, 0, 0, 0, 0, 0, 0, 0]

theorem packets_recognised_iff_pktgen : Recognised (framed 64 (numbered [0, 0, 0, 6])) 2 := by
  refine (packets_recognised_iff (.inr ⟨rfl, rfl⟩)).mpr (.inr ⟨rfl, ?_⟩)
  unfold Fits
  decide

def lastNumber : List UInt8 := numbered [0xff, 0xff, 0xff, 0xff]

theorem frames_not_recognised :
    ((probePktextract (framed 64 lastNumber) 2).entry = some ⟨0x900, 2, 0⟩ ∧ ¬ Recognised (framed 64 lastNumber) 2) ∧
    ((∃ a ∈ (probePktextract (framed 64 (lastNumber.take 28)) 2).reads, 64 + 28 ≤ a) ∧
      ¬ Recognised (framed 64 (lastNumber.take 28)) 2) ∧
    (0 ∈ (probePktextract (framed 0 lastNumber) 1).reads ∧ ¬ Recognised (framed 0 lastNumber) 1) := by
  have number : (probePktextract (framed 64 lastNumber) 2).entry = some ⟨0x900, 2, 0⟩ := by decide +kernel
  have behind : 64 + 28 ∈ (probePktextract (framed 64 (lastNumber.take 28)) 2).reads := by decide +kernel
  have null : 0 ∈ (probePktextract (framed 0 lastNumber) 1).reads := by decide +kernel
  refine ⟨⟨number, fun recognised => ?_⟩, ⟨⟨_, behind, Nat.le_refl _⟩, fun recognised => ?_⟩, null,
    fun recognised => ?_⟩
  · exact (recognised.number _ number).2 rfl
  · exact absurd (recognised.inside _ behind).2 (by decide)
  · exact absurd (recognised.inside _ null).1 (by decide)

end PacketRecognition
