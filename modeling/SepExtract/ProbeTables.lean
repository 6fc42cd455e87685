import Mathlib.Data.List.TakeWhile
import SepExtract.PacketExtracts

/- The proc files pktextr and dynprobes and the tables their writes fill. A write is copied into a
   buffer of the module, closed with a NUL byte and scanned by the kernel's sscanf; what it gives
   is put into pi_entries or kprobes, and the packet queue probe later uses the service ids of
   pi_entries as indices. -/
namespace ProbeTables
open PacketExtracts (PktextrInfo Operation)

section Scanning

def isspace (c : UInt8) : Bool := (9 ≤ c && c ≤ 13) || c = 32 || c = 160

def digitValue (c : UInt8) : Option UInt32 :=
  if 48 ≤ c && c ≤ 57 then some (c - 48).toUInt32
  else if 97 ≤ c ||| 32 && c ||| 32 ≤ 102 then some ((c ||| 32) - 87).toUInt32
  else none

def isDigit (base : UInt32) (c : UInt8) : Bool := (digitValue c).any (· < base)

def digits (base : UInt32) : UInt32 → List UInt8 → UInt32 × List UInt8
  | result, [] => (result, [])
  | result, c :: text =>
    match digitValue c with
    | some value => if value < base then digits base (result * base + value) text else (result, c :: text)
    | none => (result, c :: text)

def simpleStrtoul (base : UInt32) : List UInt8 → UInt32 × List UInt8
  | 48 :: x :: text => if base = 16 ∧ x ||| 32 = 120 then digits base 0 text else digits base 0 (48 :: x :: text)
  | text => digits base 0 text

/-- sscanf with a format of conversions of one base, separated by blanks. -/
def sscanf (base : UInt32) : Nat → List UInt8 → List UInt32
  | 0, _ => []
  | conversions + 1, text =>
    match text.dropWhile isspace with
    | [] => []
    | c :: rest =>
      if isDigit base c then
        (simpleStrtoul base (c :: rest)).1 :: sscanf base conversions (simpleStrtoul base (c :: rest)).2
      else []

def cString (bytes : List UInt8) : List UInt8 := bytes.takeWhile (· ≠ 0)

theorem cString_eq_iff (bytes : List UInt8) : cString bytes = bytes ↔ 0 ∉ bytes := by
  simp only [cString, List.takeWhile_eq_self_iff, decide_eq_true_eq]
  exact ⟨fun all zero => all 0 zero rfl, fun none x hx e => none (e ▸ hx)⟩

theorem cString_length (bytes : List UInt8) : (cString bytes).length ≤ bytes.length :=
  (List.takeWhile_sublist _).length_le

end Scanning

section Tables

inductive Table
  | pktextrprocbuffer | procfsbuffer | piEntries | kprobes | semQueues
  deriving DecidableEq, Repr

def maxExtractors : Nat := 100
def maxProbes : Nat := 100
def maxQueues : Nat := 100
def pktextrStringsize : Nat := 10 + 1 + 10 + 1 + 1 + 2
def procfsStringsize : Nat := 10 * 2 + 1 + 1

def Table.size : Table → Nat
  | .pktextrprocbuffer => pktextrStringsize
  | .procfsbuffer => procfsStringsize
  | .piEntries => maxExtractors
  | .kprobes => maxProbes
  | .semQueues => maxQueues

structure Use where
  table : Table
  index : Nat
  deriving DecidableEq, Repr

def Use.Within (u : Use) : Prop := u.index < u.table.size

structure KprobeEntry where
  rpAddr : UInt32
  jpAddr : UInt32
  jpEntry : UInt32
  deriving DecidableEq, Repr

inductive Probe
  | rp (slot : Nat)
  | jp (slot : Nat)
  deriving DecidableEq, Repr

inductive KernelCall
  | register (p : Probe) (code : Int)
  | unregister (p : Probe)
  deriving DecidableEq, Repr

def KernelCall.apply (registered : Probe → Bool) : KernelCall → Probe → Bool
  | .register p code => if code < 0 then registered else Function.update registered p true
  | .unregister p => Function.update registered p false

structure State where
  piEntries : Nat → PktextrInfo
  numPiEntries : Nat
  kprobes : Nat → KprobeEntry
  lastprobe : Nat
  registered : Probe → Bool

def State.entries (s : State) : List PktextrInfo := (List.range s.numPiEntries).map s.piEntries

def initialState : State :=
  { piEntries := fun _ => ⟨0, 0, 0⟩, numPiEntries := 0, kprobes := fun _ => ⟨0, 0, 0⟩, lastprobe := 0,
    registered := fun _ => false }

def State.call (s : State) (c : KernelCall) : State := { s with registered := c.apply s.registered }

/-- What a call of the module returns and what it did: the elements it used, the text it
    scanned and the calls it made. -/
structure Report where
  ret : Int := 0
  uses : List Use := []
  text : Option (List UInt8) := none
  calls : List KernelCall := []
  deriving DecidableEq, Repr

def fillUses (t : Table) (count : Nat) : List Use := ⟨t, count⟩ :: (List.range count).map (Use.mk t)

def scanUses (t : Table) (text : List UInt8) : List Use := (List.range (text.length + 1)).map (Use.mk t)

def triple (text : List UInt8) : Option PktextrInfo :=
  match sscanf 10 3 text with
  | [serviceId, extractStart, numBytes] => some ⟨serviceId, extractStart.toNat, numBytes⟩
  | _ => none

def addPktextr (s : State) (bytes : List UInt8) (copied : Bool) : State × Report :=
  if s.numPiEntries ≥ maxExtractors then (s, { ret := -1 })
  else if bytes.length > pktextrStringsize then (s, { ret := -1 })
  else
    let filled := fillUses .pktextrprocbuffer bytes.length
    if !copied then (s, { ret := -1, uses := filled })
    else
      let text := cString bytes
      let scanned := filled ++ scanUses .pktextrprocbuffer text
      match triple text with
      | none => (s, { ret := -1, uses := scanned, text := some text })
      | some entry =>
        ({ s with
            piEntries := Function.update s.piEntries s.numPiEntries entry
            numPiEntries := s.numPiEntries + 1 },
          { ret := bytes.length, uses := scanned ++ [⟨.piEntries, s.numPiEntries⟩], text := some text })

structure Write where
  bytes : List UInt8
  copied : Bool
  rpCode : Int
  jpCode : Int
  deriving DecidableEq, Repr

def Write.scanned (w : Write) : List UInt32 := sscanf 16 2 (cString w.bytes)

def Write.address (w : Write) : UInt32 := w.scanned.getD 0 0

def Write.pktidaddress (w : Write) : UInt32 := w.scanned.getD 1 0

/-- The rest of add_probe, from the registration of the kretprobe on. The result of a registration
    is stored in an unsigned variable before it is compared with zero. -/
def registerProbes (s : State) (w : Write) : State × Int × List KernelCall :=
  let slot := s.lastprobe
  let registerRp := KernelCall.register (.rp slot) w.rpCode
  let s := { s with kprobes := Function.update s.kprobes slot { s.kprobes slot with rpAddr := w.address } }
  let s := s.call registerRp
  if UInt32.ofInt w.rpCode < 0 then
    (s.call (.unregister (.rp slot)), -1, [registerRp, .unregister (.rp slot)])
  else if w.pktidaddress ≠ 0 then
    let registerJp := KernelCall.register (.jp slot) w.jpCode
    let s := { s with
      kprobes := Function.update s.kprobes slot
        { s.kprobes slot with jpEntry := w.pktidaddress, jpAddr := w.address } }
    let s := s.call registerJp
    if UInt32.ofInt w.jpCode < 0 then
      (s.call (.unregister (.jp slot)), -1, [registerRp, registerJp, .unregister (.jp slot)])
    else ({ s with lastprobe := slot + 1 }, w.bytes.length, [registerRp, registerJp])
  else ({ s with lastprobe := slot + 1 }, w.bytes.length, [registerRp])

def addProbe (s : State) (w : Write) : State × Report :=
  if w.bytes.length > procfsStringsize then (s, { ret := -1 })
  else
    let filled := fillUses .procfsbuffer w.bytes.length
    if !w.copied then (s, { ret := -1, uses := filled })
    else
      let text := cString w.bytes
      let scanned := filled ++ scanUses .procfsbuffer text
      if w.address = 0 then (s, { ret := -1, uses := scanned, text := some text })
      else if s.lastprobe < maxProbes - 1 then
        ((registerProbes s w).1,
          { ret := (registerProbes s w).2.1, uses := scanned ++ [⟨.kprobes, s.lastprobe⟩], text := some text,
            calls := (registerProbes s w).2.2 })
      else (s, { ret := -1, uses := scanned, text := some text })

/-- The elements that probe_sepext_pktqueue uses. -/
def pktqueueUses (s : State) (o : Operation) : List Use :=
  if o.pktdata.isNone then []
  else if o.queue ≠ 0 then (List.range s.numPiEntries).map (Use.mk .piEntries)
  else if o.head ≠ 0 then
    (List.range s.numPiEntries).flatMap fun i =>
      [⟨.piEntries, i⟩, ⟨.semQueues, (s.piEntries i).serviceId.toNat⟩]
  else []

inductive Action
  | pktextr (bytes : List UInt8) (copied : Bool)
  | dynprobe (w : Write)
  | pktqueue (o : Operation)

def Action.bytes : Action → List UInt8
  | .pktextr bytes _ => bytes
  | .dynprobe w => w.bytes
  | .pktqueue _ => []

def act (s : State) : Action → State × Report
  | .pktextr bytes copied => addPktextr s bytes copied
  | .dynprobe w => addProbe s w
  | .pktqueue o => (s, { uses := pktqueueUses s o })

def after (acts : List Action) : State := acts.foldl (fun s a => (act s a).1) initialState

end Tables

section Bounds

def Proper (a : Action) (r : Report) : Prop :=
  (∀ u ∈ r.uses, u.Within) ∧ ∀ text ∈ r.text, text = a.bytes

def Harmless (s : State) : Action → Prop
  | .pktextr bytes copied => s.numPiEntries < maxExtractors → bytes.length ≤ pktextrStringsize →
      bytes.length ≠ pktextrStringsize ∧ (copied = true → 0 ∉ bytes)
  | .dynprobe w => w.bytes.length ≤ procfsStringsize →
      w.bytes.length ≠ procfsStringsize ∧ (w.copied = true → 0 ∉ w.bytes)
  | .pktqueue o => o.pktdata.isSome → o.queue = 0 → o.head ≠ 0 → ∀ x ∈ s.entries, x.serviceId.toNat < maxQueues

def Action.accepted (ret : Int) : Action → Option PktextrInfo
  | .pktextr bytes _ => if 0 ≤ ret then triple (cString bytes) else none
  | _ => none

def acceptedFrom (s : State) : List Action → List PktextrInfo
  | [] => []
  | a :: acts => (a.accepted (act s a).2.ret).toList ++ acceptedFrom (act s a).1 acts

structure Bounded (s : State) : Prop where
  entries : s.numPiEntries ≤ maxExtractors
  probes : s.lastprobe < maxProbes

theorem fillUses_within (t : Table) (count : Nat) : (∀ u ∈ fillUses t count, u.Within) ↔ count < t.size := by
  constructor
  · intro all
    exact all ⟨t, count⟩ (by simp [fillUses])
  · intro fits u hu
    simp only [fillUses, List.mem_cons, List.mem_map, List.mem_range] at hu
    obtain rfl | ⟨i, small, rfl⟩ := hu
    · exact fits
    · exact Nat.lt_trans small fits

theorem scanUses_within {t : Table} {text : List UInt8} (fits : text.length < t.size) :
    ∀ u ∈ scanUses t text, u.Within := by
  intro u hu
  simp only [scanUses, List.mem_map, List.mem_range] at hu
  obtain ⟨i, small, rfl⟩ := hu
  exact Nat.lt_of_lt_of_le small fits

theorem text_within {t : Table} {bytes : List UInt8} (fits : bytes.length < t.size) :
    ∀ u ∈ fillUses t bytes.length ++ scanUses t (cString bytes), u.Within := by
  intro u hu
  obtain hu | hu := List.mem_append.mp hu
  · exact (fillUses_within t _).mpr fits u hu
  · exact scanUses_within (Nat.lt_of_le_of_lt (cString_length bytes) fits) u hu

theorem scanned_proper_iff {a : Action} {t : Table} {r : Report} {more : List Use}
    (uses : r.uses = fillUses t a.bytes.length ++ scanUses t (cString a.bytes) ++ more)
    (text : r.text = some (cString a.bytes)) (within : ∀ u ∈ more, u.Within)
    (short : a.bytes.length ≤ t.size) :
    Proper a r ↔ a.bytes.length ≠ t.size ∧ 0 ∉ a.bytes := by
  have exact_text : (∀ x ∈ r.text, x = a.bytes) ↔ 0 ∉ a.bytes := by
    rw [text, ← cString_eq_iff]
    exact ⟨fun all => all _ rfl, fun e x hx => by rw [← Option.some.inj hx]; exact e⟩
  constructor
  · intro proper
    have filled := (fillUses_within t a.bytes.length).mp fun u hu => proper.1 u (by simp [uses, hu])
    exact ⟨Nat.ne_of_lt filled, exact_text.mp proper.2⟩
  · intro ⟨free, clean⟩
    have fits : a.bytes.length < t.size := Nat.lt_of_le_of_ne short free
    refine ⟨fun u hu => ?_, exact_text.mpr clean⟩
    rw [uses] at hu
    obtain hu | hu := List.mem_append.mp hu
    · exact text_within fits u hu
    · exact within u hu

theorem uncopied_proper_iff {a : Action} {t : Table} {r : Report} (uses : r.uses = fillUses t a.bytes.length)
    (text : r.text = none) (short : a.bytes.length ≤ t.size) : Proper a r ↔ a.bytes.length ≠ t.size := by
  simp only [Proper, uses, text, fillUses_within, Option.mem_def, reduceCtorEq, false_implies, implies_true,
    and_true]
  omega

theorem refused_proper (a : Action) : Proper a { ret := -1 } := by simp [Proper]

theorem pktextr_proper_iff (s : State) (bytes : List UInt8) (copied : Bool) :
    Proper (.pktextr bytes copied) (addPktextr s bytes copied).2 ↔ Harmless s (.pktextr bytes copied) := by
  unfold addPktextr Harmless
  by_cases full : s.numPiEntries ≥ maxExtractors
  · simp only [full, if_true, refused_proper, true_iff]
    intro free
    omega
  by_cases long : bytes.length > pktextrStringsize
  · simp only [full, long, if_true, if_false, refused_proper, true_iff]
    intro _ short
    omega
  simp only [full, long, if_false, not_le.mp full, not_lt.mp long, true_implies]
  have short : (Action.pktextr bytes copied).bytes.length ≤ Table.pktextrprocbuffer.size := not_lt.mp long
  cases copied with
  | false => simpa [Action.bytes, Table.size] using uncopied_proper_iff (a := .pktextr bytes false) rfl rfl short
  | true =>
    simp only [Bool.not_true, Bool.false_eq_true, if_false, true_implies]
    split
    · exact scanned_proper_iff (a := .pktextr bytes true) (List.append_nil _).symm rfl (by simp) short
    · exact scanned_proper_iff (a := .pktextr bytes true) rfl rfl (by simpa [Use.Within, Table.size] using full) short

theorem dynprobe_proper_iff (s : State) (w : Write) :
    Proper (.dynprobe w) (addProbe s w).2 ↔ Harmless s (.dynprobe w) := by
  unfold addProbe Harmless
  by_cases long : w.bytes.length > procfsStringsize
  · simp only [long, if_true, refused_proper, true_iff]
    intro short
    omega
  simp only [long, if_false, not_lt.mp long, true_implies]
  have short : (Action.dynprobe w).bytes.length ≤ Table.procfsbuffer.size := not_lt.mp long
  cases copied : w.copied with
  | false => simpa [Action.bytes, Table.size] using uncopied_proper_iff (a := .dynprobe w) rfl rfl short
  | true =>
    simp only [Bool.not_true, Bool.false_eq_true, if_false, true_implies]
    split
    · exact scanned_proper_iff (a := .dynprobe w) (List.append_nil _).symm rfl (by simp) short
    split
    · rename_i room
      refine scanned_proper_iff (a := .dynprobe w) rfl rfl ?_ short
      simp only [List.mem_singleton, forall_eq, Use.Within, Table.size]
      exact Nat.lt_of_lt_of_le room (Nat.sub_le _ _)
    · exact scanned_proper_iff (a := .dynprobe w) (List.append_nil _).symm rfl (by simp) short

theorem pktqueue_proper_iff {s : State} (bounded : Bounded s) (o : Operation) :
    Proper (.pktqueue o) { uses := pktqueueUses s o } ↔ Harmless s (.pktqueue o) := by
  have extractors : ∀ i < s.numPiEntries, (Use.mk .piEntries i).Within := fun i hi =>
    Nat.lt_of_lt_of_le hi bounded.entries
  simp only [Proper, Option.mem_def, reduceCtorEq, false_implies, implies_true, and_true, Harmless]
  unfold pktqueueUses
  cases data : o.pktdata with
  | none => simp
  | some pktdata =>
    by_cases queue : o.queue = 0
    · by_cases head : o.head = 0
      · simp [queue, head]
      · simp only [Option.isNone_some, Bool.false_eq_true, if_false, queue, head, ne_eq, not_true_eq_false,
          not_false_eq_true, if_true, Option.isSome_some, true_implies, List.mem_flatMap, List.mem_range,
          List.mem_cons, List.not_mem_nil, or_false, State.entries, List.mem_map]
        constructor
        · rintro all x ⟨i, hi, rfl⟩
          exact all ⟨.semQueues, _⟩ ⟨i, hi, .inr rfl⟩
        · rintro all u ⟨i, hi, rfl | rfl⟩
          · exact extractors i hi
          · exact all _ ⟨i, hi, rfl⟩
    · simp only [Option.isNone_some, Bool.false_eq_true, if_false, queue, ne_eq, not_false_eq_true, if_true,
        false_implies, implies_true, iff_true, List.mem_map, List.mem_range]
      rintro u ⟨i, hi, rfl⟩
      exact extractors i hi

theorem proper_iff {s : State} (bounded : Bounded s) (a : Action) : Proper a (act s a).2 ↔ Harmless s a := by
  cases a with
  | pktextr bytes copied => exact pktextr_proper_iff s bytes copied
  | dynprobe w => exact dynprobe_proper_iff s w
  | pktqueue o => exact pktqueue_proper_iff bounded o

end Bounds

section Histories

theorem registerProbes_frame (s : State) (w : Write) : (registerProbes s w).1.piEntries = s.piEntries ∧
    (registerProbes s w).1.numPiEntries = s.numPiEntries ∧ (registerProbes s w).1.lastprobe ≤ s.lastprobe + 1 := by
  unfold registerProbes
  dsimp only
  split
  · exact ⟨rfl, rfl, Nat.le_succ _⟩
  · split
    · split
      · exact ⟨rfl, rfl, Nat.le_succ _⟩
      · exact ⟨rfl, rfl, Nat.le_refl _⟩
    · exact ⟨rfl, rfl, Nat.le_refl _⟩

theorem addProbe_frame (s : State) (w : Write) : (addProbe s w).1.piEntries = s.piEntries ∧
    (addProbe s w).1.numPiEntries = s.numPiEntries ∧
    (s.lastprobe < maxProbes → (addProbe s w).1.lastprobe < maxProbes) := by
  unfold addProbe
  dsimp only
  split
  · exact ⟨rfl, rfl, id⟩
  split
  · exact ⟨rfl, rfl, id⟩
  split
  · exact ⟨rfl, rfl, id⟩
  split
  · rename_i room
    obtain ⟨extractors, number, grown⟩ := registerProbes_frame s w
    exact ⟨extractors, number, fun _ => Nat.lt_of_le_of_lt grown (Nat.add_lt_of_lt_sub room)⟩
  · exact ⟨rfl, rfl, id⟩

theorem entries_congr {s t : State} (extractors : t.piEntries = s.piEntries)
    (number : t.numPiEntries = s.numPiEntries) : t.entries = s.entries := by
  simp only [State.entries, extractors, number]

theorem addPktextr_cases (s : State) (bytes : List UInt8) (copied : Bool) :
    ((addPktextr s bytes copied).1 = s ∧ (addPktextr s bytes copied).2.ret < 0) ∨
    ∃ entry, s.numPiEntries < maxExtractors ∧ triple (cString bytes) = some entry ∧
      (addPktextr s bytes copied).1 = { s with
        piEntries := Function.update s.piEntries s.numPiEntries entry
        numPiEntries := s.numPiEntries + 1 } ∧
      (addPktextr s bytes copied).2.ret = bytes.length := by
  unfold addPktextr
  dsimp only
  split
  · exact .inl ⟨rfl, by simp⟩
  rename_i room
  split
  · exact .inl ⟨rfl, by simp⟩
  split
  · exact .inl ⟨rfl, by simp⟩
  split
  · exact .inl ⟨rfl, by simp⟩
  · rename_i entry found
    exact .inr ⟨entry, not_le.mp room, found, rfl, rfl⟩

theorem entries_push (s : State) (entry : PktextrInfo) :
    { s with
      piEntries := Function.update s.piEntries s.numPiEntries entry
      numPiEntries := s.numPiEntries + 1 : State }.entries = s.entries ++ [entry] := by
  simp only [State.entries, List.range_succ, List.map_append, List.map_singleton, Function.update_self]
  congr 1
  apply List.map_congr_left
  intro i hi
  exact Function.update_of_ne (Nat.ne_of_lt (List.mem_range.mp hi)) entry s.piEntries

theorem act_entries (s : State) (a : Action) :
    (act s a).1.entries = s.entries ++ (a.accepted (act s a).2.ret).toList := by
  cases a with
  | pktextr bytes copied =>
    obtain ⟨same, refused⟩ | ⟨entry, -, found, next, ret⟩ := addPktextr_cases s bytes copied
    · simp [act, Action.accepted, same, not_le.mpr refused]
    · simp only [act, Action.accepted, next, ret, found, entries_push, Int.natCast_nonneg, if_true,
        Option.toList_some]
  | dynprobe w =>
    obtain ⟨extractors, number, -⟩ := addProbe_frame s w
    simp [act, Action.accepted, entries_congr extractors number]
  | pktqueue o => simp [act, Action.accepted]

theorem act_bounded {s : State} (bounded : Bounded s) (a : Action) : Bounded (act s a).1 := by
  cases a with
  | pktextr bytes copied =>
    obtain ⟨same, -⟩ | ⟨entry, room, -, next, -⟩ := addPktextr_cases s bytes copied
    · simp only [act, same]
      exact bounded
    · simp only [act, next]
      exact ⟨room, bounded.probes⟩
  | dynprobe w =>
    obtain ⟨-, number, small⟩ := addProbe_frame s w
    exact ⟨number ▸ bounded.entries, small bounded.probes⟩
  | pktqueue o => exact bounded

theorem foldl_bounded {s : State} (bounded : Bounded s) (acts : List Action) :
    Bounded (acts.foldl (fun s a => (act s a).1) s) := by
  induction acts generalizing s with
  | nil => exact bounded
  | cons a acts ih => exact ih (act_bounded bounded a)

theorem after_bounded (acts : List Action) : Bounded (after acts) :=
  foldl_bounded ⟨by decide, by decide⟩ acts

theorem foldl_entries (s : State) (acts : List Action) :
    (acts.foldl (fun s a => (act s a).1) s).entries = s.entries ++ acceptedFrom s acts := by
  induction acts generalizing s with
  | nil => simp [acceptedFrom]
  | cons a acts ih => rw [List.foldl_cons, ih, act_entries, acceptedFrom, List.append_assoc]

theorem after_entries (acts : List Action) : (after acts).entries = acceptedFrom initialState acts :=
  foldl_entries initialState acts

/-- For every history of writes and probes: the extractors are the accepted ones, and the
    uses and texts are right exactly if no scanned write has a NUL byte, no write is as long as
    its buffer, and no operation of a queue without a number is probed while an extractor has a
    service id past sem_queues. -/
theorem tables_safe_iff (acts : List Action) :
    (after acts).entries = acceptedFrom initialState acts ∧
    (acceptedFrom initialState acts).length ≤ maxExtractors ∧
    ((∀ before a, before ++ [a] <+: acts → Proper a (act (after before) a).2) ↔
      ∀ before a, before ++ [a] <+: acts → Harmless (after before) a) := by
  refine ⟨after_entries acts, ?_, ?_⟩
  · rw [← after_entries, State.entries, List.length_map, List.length_range]
    exact (after_bounded acts).entries
  · constructor
    · intro all before a happens
      exact (proper_iff (after_bounded before) a).mp (all before a happens)
    · intro all before a happens
      exact (proper_iff (after_bounded before) a).mpr (all before a happens)

/-- "4294967295 4294967295 4" with a carriage return and a newline, the longest text that the
    comment at PKTEXTR_STRINGSIZE describes. -/
def longestText : List UInt8 :=
  [52, 50, 57, 52, 57, 54, 55, 50, 57, 53, 32, 52, 50, 57, 52, 57, 54, 55, 50, 57, 53, 32, 52, 13, 10]

/-- "100 0 1" and a newline. -/
def idOutside : Action := .pktextr [49, 48, 48, 32, 48, 32, 49, 10] true

def packetAtHead : Action := .pktqueue ⟨some fun _ => 0, 0, 1, 0⟩

theorem tables_overrun :
    ¬ Proper (.pktextr longestText true) (act initialState (.pktextr longestText true)).2 ∧
    ¬ Proper packetAtHead (act (after [idOutside]) packetAtHead).2 := by
  constructor
  · intro proper
    exact absurd (proper.1 ⟨.pktextrprocbuffer, 25⟩ (by decide +kernel)) (by unfold Use.Within; decide)
  · intro proper
    exact absurd (proper.1 ⟨.semQueues, 100⟩ (by decide +kernel)) (by unfold Use.Within; decide)

end Histories
end ProbeTables
