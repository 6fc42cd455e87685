import SepExtract.AnalyseRun
import SepExtract.CreateSignatures
import SepExtract.PacketQueue
import SepExtract.TracePipeline

/- The conditions traced for the transmit queue and the backlog: the test each of the four
   places makes, the entry it traces, and what GetQueueCond makes of the resolved line. -/
namespace QueueConditions
open PacketQueue TracerKernel NumberTexts GoText Resolve UsnlTraceText TracePipeline

variable {P : Type}

structure Queues (P : Type) where
  txq : Pktq P
  flowcontrol : BitVec 8
  inputPktQueue : List P

inductive Place where
  | dhdBusTxdata | dhdsdioReadframes | dhdsdioDpc | enqueueToBacklog
  deriving DecidableEq, Repr

def Queues.precBmp (s : Queues P) : BitVec 32 := ~~~ (s.flowcontrol.setWidth 32)

def Queues.length (s : Queues P) : Place → Nat
  | .dhdBusTxdata => s.txq.len
  | .dhdsdioReadframes | .dhdsdioDpc => s.txq.mlen s.precBmp
  | .enqueueToBacklog => s.inputPktQueue.length

/-- The condition it traces; 0 is QUEUE_NOTEMPTY and 1 is QUEUE_EMPTY. -/
def Queues.condition (s : Queues P) (place : Place) : Bool :=
  match place with
  | .dhdBusTxdata => s.length place == 0
  | .dhdsdioReadframes => decide (s.length place > 0)
  | .dhdsdioDpc => s.length place == 0
  | .enqueueToBacklog => !decide (s.length place > 0)

def Place.queue : Place → UInt32
  | .enqueueToBacklog => 1
  | _ => 2

def probeQueuecondition (condition : Bool) (source target : UInt32) (cycles location : UInt32) (currpid cpu : UInt16) :
    Sepentry :=
  ⟨.queuecond, cycles, source, target, if condition then 1 else 0, 0, location, currpid, cpu⟩

def Queues.Waiting (s : Queues P) : Place → Prop
  | .dhdBusTxdata => ∃ prec, s.txq.q prec ≠ []
  | .dhdsdioReadframes | .dhdsdioDpc => ∃ prec < 32, s.flowcontrol.getLsbD prec = false ∧ s.txq.q prec ≠ []
  | .enqueueToBacklog => s.inputPktQueue ≠ []

/-- A masked length is 0 when all admitted precedences are empty, those above hi_prec included. -/
theorem mlen_eq_zero {pq : Pktq P} (sound : Sound pq) (precBmp : BitVec 32) :
    pq.mlen precBmp = 0 ↔ ∀ prec, precBmp.getLsbD prec = true → pq.q prec = [] := by
  simp only [Pktq.mlen, List.sum_eq_zero_iff, List.mem_map, List.mem_range, forall_exists_index, and_imp,
    forall_apply_eq_imp_iff₂]
  constructor
  · intro all prec admitted
    by_contra filled
    have zero := all prec (Nat.lt_succ_of_le (sound.top prec filled))
    rw [if_pos admitted] at zero
    exact filled (List.length_eq_zero_iff.mp zero)
  · intro all prec _
    split
    · rename_i admitted
      rw [all prec admitted]
      rfl
    · rfl

theorem length_eq_zero {s : Queues P} (sound : Sound s.txq) (place : Place) : s.length place = 0 ↔ ¬ s.Waiting place := by
  have masked : s.txq.mlen s.precBmp = 0 ↔ ¬ ∃ prec < 32, s.flowcontrol.getLsbD prec = false ∧ s.txq.q prec ≠ [] := by
    rw [mlen_eq_zero sound]
    simp only [Queues.precBmp, BitVec.getLsbD_not, BitVec.getLsbD_setWidth, not_exists, not_and, not_not]
    constructor
    · intro all prec small open'
      exact all prec (by simp [small, open'])
    · intro all prec admitted
      simp only [Bool.and_eq_true, decide_eq_true_eq, Bool.not_eq_true', Bool.and_eq_false_imp] at admitted
      exact all prec admitted.1 (admitted.2 admitted.1)
  cases place with
  | dhdBusTxdata =>
    simp only [Queues.length, Queues.Waiting, not_exists, not_not]
    constructor
    · intro zero prec
      by_contra filled
      have counted := Pktq.len_pos sound filled
      have nonempty := List.length_pos_iff.mpr filled
      omega
    · intro none
      rw [sound.len]
      simp [none]
  | dhdsdioReadframes => exact masked
  | dhdsdioDpc => exact masked
  | enqueueToBacklog => simp [Queues.length, Queues.Waiting]

theorem condition_eq (s : Queues P) (place : Place) :
    s.condition place = (decide (s.length place = 0) ^^ decide (place = .dhdsdioReadframes)) := by
  cases place <;> simp [Queues.condition, Nat.pos_iff_ne_zero, beq_eq_decide]

theorem packet_of_columns {r : Analyse.Run} {a : Analyse.Entry} {line : String} {table : Table} {e : Sepentry}
    (fields : (splitWhitespace line).take 9 = columns table e)
    (made : r.entryOf (Analyse.lexLine line) = some a) : a.packetId = numeral 16 e.data.toNat := by
  have packet : ∀ f, r.entryOf (.columns f) = some a → a.packetId = f.packetId := by
    intro f made
    simp only [Analyse.Run.entryOf, bind, Option.ite_none_left_eq_some, Option.bind_eq_some_iff] at made
    obtain ⟨_, cpu, _, _, _, _, _, _, _, _, _, _, eq⟩ := made
    exact Option.some.inj eq ▸ rfl
  obtain ⟨f, _, lexed, _⟩ := Analyse.entry_of_columns made
  have read := Analyse.columns_of_lex lexed
  rw [lexed] at made
  rw [packet f made]
  unfold Analyse.columnsLine at read
  split at read
  · rename_i columns
    obtain rfl := Analyse.Line.columns.inj read
    rw [columns] at fields
    simp only [List.take_succ_cons, List.take_zero, TracePipeline.columns, List.cons.injEq] at fields
    exact fields.2.2.2.2.2.2.1
  · cases read

/-- For every state of the queues and every place, through resolve.go with any kernel symbols:
    the condition printed is the empty one exactly when the length tested is 0, except in
    dhdsdio_readframes, where it is the other way round; and with a queue that the driver can
    have, the length is 0 exactly when no packet waits where the test looks. -/
theorem condition_polarity_iff {s : Queues P} {place : Place} {cycles location : UInt32} {currpid cpu : UInt16}
    {table : Table} {line : String} {r : Analyse.Run} {a : Analyse.Entry} (symbols : KernelSymbols table)
    (core : cpu.toNat < 2)
    (printed : resolvedLine table (usnlLine (probeQueuecondition (s.condition place) place.queue place.queue cycles
      location currpid cpu)) = some line)
    (made : r.entryOf (Analyse.lexLine line) = some a) :
    ((a.getQueueCond = "empty" ↔ s.length place = 0) ↔ place ≠ .dhdsdioReadframes) ∧
    (Sound s.txq → (s.length place = 0 ↔ ¬ s.Waiting place)) := by
  have digit : ∀ b : Bool, translate table (numeral 16 (if b then 1 else 0 : UInt32).toNat) =
      numeral 16 (if b then 1 else 0 : UInt32).toNat := by
    intro b
    cases b <;> exact if_pos (by decide)
  have address : (translate table (numeral 16 0)).length < 30 := by
    have same : translate table (numeral 16 0) = "0" := if_pos (by decide)
    rw [same]
    decide
  have small : ∀ place : Place, place.queue.toNat < 65536 := by
    intro place
    cases place <;> decide
  have read : ∀ b : Bool, (if numeral 16 (if b then 1 else 0 : UInt32).toNat = "0" then "notempty" else "empty") = "empty" ↔
      b = true := by decide
  have traced : Traced (probeQueuecondition (s.condition place) place.queue place.queue cycles location currpid cpu) :=
    ⟨by simp [probeQueuecondition], core, small place, small place⟩
  have fields := (columns_iff symbols traced printed).mpr ⟨digit _, address⟩
  have decoded : a.getQueueCond = "empty" ↔ s.condition place = true := by
    unfold Analyse.Entry.getQueueCond
    rw [packet_of_columns fields made]
    exact read _
  refine ⟨?_, fun sound => length_eq_zero sound place⟩
  rw [decoded, condition_eq]
  by_cases reversed : place = .dhdsdioReadframes
  · simp [reversed]
  · simp [reversed]

def onePacket (flowcontrol : BitVec 8) : Queues Nat := ⟨(Pktq.empty 8 1 fun _ => 1).penq 3 70, flowcontrol, []⟩

def conditionLine (s : Queues Nat) (place : Place) : Option String :=
  resolvedLine (fun _ => none) (usnlLine (probeQueuecondition (s.condition place) place.queue place.queue 9 0 2 0))

theorem condition_polarity_held : ∃ line r a, conditionLine (onePacket 0b1000) .dhdsdioDpc = some line ∧
    Analyse.run ["CTXSW 0 1 1 1 2 0 0 a"] = some r ∧ r.entryOf (Analyse.lexLine line) = some a ∧
    (a.getQueueCond = "empty" ↔ ¬ (onePacket 0b1000).Waiting .dhdsdioDpc) := by
  obtain ⟨line, printed⟩ := Option.isSome_iff_exists.mp
    (by decide +kernel : (conditionLine (onePacket 0b1000) .dhdsdioDpc).isSome)
  obtain ⟨r, ran⟩ := Option.isSome_iff_exists.mp (by decide +kernel : (Analyse.run ["CTXSW 0 1 1 1 2 0 0 a"]).isSome)
  have reads : ∀ line ∈ conditionLine (onePacket 0b1000) .dhdsdioDpc, ∀ r ∈ Analyse.run ["CTXSW 0 1 1 1 2 0 0 a"],
      (r.entryOf (Analyse.lexLine line)).isSome := by decide +kernel
  obtain ⟨a, made⟩ := Option.isSome_iff_exists.mp (reads line printed r ran)
  have sound : Sound (onePacket 0b1000).txq := Pktq.sound_penq (Pktq.sound_empty 8 1 _) (by decide) 70
  have symbols : KernelSymbols fun _ => none := fun s name stored => by cases stored
  obtain ⟨polarity, waiting⟩ := condition_polarity_iff symbols (by decide) printed made
  exact ⟨line, r, a, printed, ran, made, (polarity.mpr (by decide)).trans (waiting sound)⟩

theorem readframes_condition_reversed : ∃ line r a, conditionLine (onePacket 0) .dhdsdioReadframes = some line ∧
    Analyse.run ["CTXSW 0 1 1 1 2 0 0 a"] = some r ∧ r.entryOf (Analyse.lexLine line) = some a ∧
    a.getQueueCond = "empty" ∧ (onePacket 0).Waiting .dhdsdioReadframes := by
  obtain ⟨line, printed⟩ := Option.isSome_iff_exists.mp
    (by decide +kernel : (conditionLine (onePacket 0) .dhdsdioReadframes).isSome)
  obtain ⟨r, ran⟩ := Option.isSome_iff_exists.mp (by decide +kernel : (Analyse.run ["CTXSW 0 1 1 1 2 0 0 a"]).isSome)
  have reads : ∀ line ∈ conditionLine (onePacket 0) .dhdsdioReadframes, ∀ r ∈ Analyse.run ["CTXSW 0 1 1 1 2 0 0 a"],
      (r.entryOf (Analyse.lexLine line)).isSome ∧
        ∀ a ∈ r.entryOf (Analyse.lexLine line), a.getQueueCond = "empty" := by decide +kernel
  obtain ⟨some, empty⟩ := reads line printed r ran
  obtain ⟨a, made⟩ := Option.isSome_iff_exists.mp some
  exact ⟨line, r, a, printed, ran, made, empty a made, 3, by decide, by decide, by decide⟩

end QueueConditions
