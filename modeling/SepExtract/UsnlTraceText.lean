import SepExtract.NumberTexts
import SepExtract.TracerKernel

/- The lines usnl.c writes. An entry is printed as nine columns; the names of the types are
   padded in the table of sepext_trace.h, the numbers are not. -/
namespace UsnlTraceText
open TracerKernel NumberTexts TextFields

/-- The name of a type. typeFirst would index before the table; no probe traces it. -/
def typeName : SepentryType → String
  | .typeFirst => ""
  | .ctxswitch => "CTXSW"
  | .serviceentry => "SRVENTRY"
  | .serviceexit => "SRVEXIT"
  | .peustart => "PEUSTART"
  | .peustop => "PEUSTOP"
  | .pktextract => "PKTEXTR"
  | .pktextractn => "PKTEXTRN"
  | .pktstart => "PKTSTART"
  | .pktstop => "PKTSTOP"
  | .pktenq => "PKTENQ"
  | .pktdeq => "PKTDEQ"
  | .loopstart => "LOOPSTART"
  | .looprestart => "LOOPRSTART"
  | .loopstop => "LOOPSTOP"
  | .queuecond => "QUEUECOND"
  | .threadcond => "THREADCOND"
  | .statecond => "STATECOND"
  | .condend => "CONDEND"
  | .pktqueue => "PKTQUEUE"
  | .pktqueuen => "PKTQUEUEN"
  | .srvqueue => "SRVQUEUE"
  | .statequeue => "STATEQUEUE"
  | .ttwakeup => "TTWAKEUP"
  | .wakeup => "WAKEUP"
  | .sirqraise => "SIRQRAISE"
  | .sleep => "SLEEP"
  | .hirqstart => "HIRQENTRY"
  | .hirqstop => "HIRQEXIT"
  | .softirqstart => "SIRQENTRY"
  | .softirqstop => "SIRQEXIT"
  | .taskletstart => "TSKLENTRY"
  | .taskletstop => "TSKLEXIT"
  | .enqueue => "ENQUEUE"
  | .dequeue => "DEQUEUE"
  | .waitcompl => "WAITCOMPL"
  | .compl => "COMPL"
  | .semup => "SEMUP"
  | .semdown => "SEMDOWN"
  | .tempsynch => "TEMPSYNCH"
  | .migrate => "MIGRATE"
  | .startids => "----------"
  | .idQueue => "ID_QUEUE"
  | .idSynch => "ID_SYNCH"
  | .idState => "ID_STATE"

def typePadding : SepentryType → Nat
  | .typeFirst | .migrate | .idQueue | .idSynch | .idState => 0
  | t => 10 - (typeName t).length

def typestring (t : SepentryType) : String := typeName t ++ String.ofList (List.replicate (typePadding t) ' ')

example : typestring .ctxswitch = "CTXSW     " ∧ typestring .looprestart = "LOOPRSTART" ∧
    typestring .migrate = "MIGRATE" := by
  decide

def numbers (e : Sepentry) : List String :=
  [numeral 10 e.cpu.toNat, numeral 10 e.currpid.toNat, numeral 10 e.cycles.toNat, numeral 10 (e.pid1.toNat % 65536),
   numeral 10 (e.pid2.toNat % 65536), numeral 16 e.data.toNat, numeral 16 e.addr.toNat, numeral 16 e.location.toNat]

def usnlLine (e : Sepentry) : String := " ".intercalate (typestring e.type :: numbers e)

def words (e : Sepentry) : List String := typeName e.type :: numbers e

theorem type_name_ne_empty {t : SepentryType} (traced : t ≠ .typeFirst) : typeName t ≠ "" := by
  cases t <;> first | exact absurd rfl traced | decide

theorem type_name_free (t : SepentryType) : Free GoText.isSpace (typeName t) := by
  cases t <;> decide

theorem type_name_length (t : SepentryType) : (typeName t).length ≤ 10 := by
  cases t <;> decide

theorem numbers_ne_empty (e : Sepentry) : ∀ w ∈ numbers e, w ≠ "" := by
  simp [numbers, numeral_ne_empty]

theorem numbers_free (e : Sepentry) : ∀ w ∈ numbers e, Free GoText.isSpace w := by
  have ten : ∀ n, Free GoText.isSpace (numeral 10 n) := free_numeral (by decide) (by decide) (by decide)
  have hex : ∀ n, Free GoText.isSpace (numeral 16 n) := free_numeral (by decide) (by decide) (by decide)
  simp [numbers, ten, hex]

theorem toList_line (e : Sepentry) : (usnlLine e).toList = (typeName e.type).toList ++
    (List.replicate (typePadding e.type) ' ' ++ ' ' :: (" ".intercalate (numbers e)).toList) := by
  rw [usnlLine, String.intercalate_cons_of_ne_nil (by simp [numbers]), String.toList_append, String.toList_append,
    typestring, String.toList_append, String.toList_ofList, List.append_assoc, List.append_assoc]
  rfl

def isBreak (c : Char) : Bool := GoText.isSpace c && c != ' '

theorem line_free (e : Sepentry) : Free isBreak (usnlLine e) := by
  have words : ∀ {w : String}, Free GoText.isSpace w → Free isBreak w := fun free =>
    free_mono free fun c hit => (Bool.and_eq_true_iff.mp hit).1
  refine free_intercalate (by decide) fun w member => ?_
  rcases List.mem_cons.mp member with rfl | number
  · refine (free_append _ _).mpr ⟨words (type_name_free e.type), fun c member => ?_⟩
    rw [String.toList_ofList] at member
    rw [List.eq_of_mem_replicate member]
    rfl
  · exact words (numbers_free e w number)

theorem splitOn_line (e : Sepentry) : (usnlLine e).toList.splitOn ' ' =
    (typeName e.type).toList :: (List.replicate (typePadding e.type) [] ++ (numbers e).map String.toList) := by
  have noSpace : ∀ w : String, Free GoText.isSpace w → ' ' ∉ w.toList := by
    intro w free member
    have space := free ' ' member
    revert space
    decide
  have padded : ∀ (k : Nat) (w rest : List Char), ' ' ∉ w →
      (w ++ (List.replicate k ' ' ++ ' ' :: rest)).splitOn ' ' = w :: (List.replicate k [] ++ rest.splitOn ' ') := by
    intro k w rest free
    induction k generalizing w with
    | zero => exact List.splitOn_append_cons_self_of_not_mem free rest
    | succ k ih =>
      rw [List.replicate_succ, List.cons_append, List.splitOn_append_cons_self_of_not_mem free]
      have later := ih [] (by simp)
      rw [List.nil_append] at later
      rw [later, List.replicate_succ, List.cons_append]
  have others : (" ".intercalate (numbers e)).toList.splitOn ' ' = (numbers e).map String.toList := by
    rw [String.toList_intercalate]
    refine List.splitOn_intercalate ' ' (fun l member => ?_) (by simp [numbers])
    obtain ⟨w, here, rfl⟩ := List.mem_map.mp member
    exact noSpace w (numbers_free e w here)
  rw [toList_line, padded _ _ _ (noSpace _ (type_name_free e.type)), others]

theorem split_line {e : Sepentry} (traced : e.type ≠ .typeFirst) : GoText.splitWhitespace (usnlLine e) = words e := by
  have spaced : ∀ (ws : List String) (w : String), (∀ v ∈ w :: ws, Free GoText.isSpace v ∧ v ≠ "") → ∀ inRun,
      GoText.pieces inRun (" ".intercalate (w :: ws)).toList = (w :: ws).map String.toList := by
    intro ws
    induction ws with
    | nil =>
      intro w plain inRun
      obtain ⟨free, filled⟩ := plain w (List.mem_cons_self ..)
      rw [String.intercalate_singleton]
      exact pieces_last free (by simpa using filled)
    | cons v ws ih =>
      intro w plain inRun
      obtain ⟨free, filled⟩ := plain w (List.mem_cons_self ..)
      rw [String.intercalate_cons_cons, String.toList_append, String.toList_append, List.append_assoc]
      have space : " ".toList = [' '] := rfl
      rw [space, List.singleton_append, pieces_word _ free (Or.inr (by simpa using filled)),
        ih v (fun u member => plain u (List.mem_cons_of_mem w member)) true]
      rfl
  have numbersPlain : ∀ v ∈ numbers e, Free GoText.isSpace v ∧ v ≠ "" :=
    fun v member => ⟨numbers_free e v member, numbers_ne_empty e v member⟩
  have line : (usnlLine e).toList = (typeName e.type).toList ++
      (List.replicate (typePadding e.type + 1) ' ' ++ (" ".intercalate (numbers e)).toList) := by
    rw [toList_line, List.replicate_succ', List.append_assoc]
    rfl
  have filled : (typeName e.type).toList ≠ [] := by simpa using type_name_ne_empty traced
  have tail : GoText.pieces true (" ".intercalate (numbers e)).toList = (numbers e).map String.toList :=
    spaced _ _ numbersPlain true
  rw [GoText.splitWhitespace, line, pieces_padded _ (type_name_free e.type) filled (Nat.succ_pos _), tail]
  simp [words, Function.comp_def]

end UsnlTraceText
