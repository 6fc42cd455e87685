import SepExtract.SignatureAlignment
import SepExtract.SignatureCompleteness

/- The text of an event tells whether it is a PEU. Neither a location nor a type has a blank in
   it, and the word of a PEU comes right after the first blank of its text and of no other. -/
namespace Analyse
open TextFields GoText

def Blankless (t : String) : Prop := Free (· == ' ') t

instance (t : String) : Decidable (Blankless t) := inferInstanceAs (Decidable (Free (· == ' ') t))

structure Entry.Tidy (e : Entry) : Prop where
  location : Blankless e.location
  type : Blankless e.eventType.text

theorem tidy_lasting : Lasting Entry.Tidy fun _ => True where
  blank _ := ⟨(by decide : Blankless ""), (by decide : Blankless "")⟩
  given e t _ given tidy := by
    have label : Blankless t.text := by
      rcases given with rfl | rfl | rfl | rfl | ⟨operation, rfl⟩
      · decide
      · decide
      · decide
      · decide
      · cases operation <;> decide
    exact ⟨tidy.location, label⟩
  timed _ _ _ tidy := ⟨tidy.location, tidy.type⟩
  numbered _ _ tidy := ⟨tidy.location, tidy.type⟩
  queued _ tidy := ⟨tidy.location, tidy.type⟩
  counted _ _ tidy := ⟨tidy.location, tidy.type⟩
  named _ _ _ _ := trivial
  noted _ _ tidy _ := ⟨tidy.location, tidy.type⟩

theorem tidy_of_lex {line : String} {r : Run} {e : Entry} (made : r.entryOf (lexLine line) = some e) : e.Tidy := by
  obtain ⟨f, lexed, type, _, _, location, _⟩ := texts_of_columns made
  obtain ⟨free, _, _, free'⟩ := columns_free lexed
  have blankless : ∀ {t}, Free isSpace t → Blankless t := fun free => by
    refine free_mono free fun c here => ?_
    obtain rfl : c = ' ' := by simpa using here
    decide
  exact ⟨location ▸ blankless free', type ▸ blankless free⟩

theorem tidy_file {file : List String} {r : Run} (finished : run file = some r)
    (nested : TransitionRuns.Guarded Run.line NestedLine .initial (file.map lexLine)) : r.state.All Entry.Tidy := by
  have start : State.initial.All Entry.Tidy := fun _ _ member => by cases member
  refine all_run tidy_lasting start shaped_initial (fun l member r e made => ?_) nested finished
  obtain ⟨line, _, rfl⟩ := List.mem_map.mp member
  exact tidy_of_lex made

section Marks

def afterBlank (text : String) : List Char := (text.toList.dropWhile (· != ' ')).tail

def peuWord : List Char := "PEUSTART ".toList

def marksPeu (text : String) : Bool := peuWord.isPrefixOf (afterBlank text)

def Event.Marked (event : Event) : Prop := marksPeu event.text = event.isPeu

theorem drop_blankless {w : String} (free : Blankless w) (rest : List Char) :
    (w.toList ++ ' ' :: rest).dropWhile (· != ' ') = ' ' :: rest := by
  rw [List.dropWhile_append_of_pos]
  · rfl
  · intro c member
    have other := free c member
    simpa using other

theorem prefix_differs {p a : List Char} (b : List Char) (left : p.isPrefixOf a = false)
    (right : a.isPrefixOf p = false) : p.isPrefixOf (a ++ b) = false := by
  induction a generalizing p with
  | nil => simp at right
  | cons x a ih =>
    cases p with
    | nil => simp at left
    | cons y p =>
      by_cases same : y = x
      · subst same
        simp only [List.isPrefixOf, beq_self_eq_true, Bool.true_and, List.cons_append] at *
        exact ih left right
      · simp [List.isPrefixOf, same]

variable {s : State} {e : Entry}

theorem unmarked_padded {text : String} (rest : List Char) (tidy : e.Tidy)
    (shape : text.toList = (s.locationPadded e).toList ++ ' ' :: rest)
    (other : peuWord.isPrefixOf rest = false) : marksPeu text = false := by
  unfold marksPeu afterBlank
  rw [shape, State.locationPadded, ljust, String.toList_append, String.toList_ofList, List.append_assoc]
  generalize (s.longestLocationString - (e.location.utf8ByteSize : Int)).toNat = k
  cases k with
  | zero =>
    rw [List.replicate_zero, List.nil_append, drop_blankless tidy.location]
    exact other
  | succ k =>
    rw [List.replicate_succ, List.cons_append, drop_blankless tidy.location]
    cases k with
    | zero => rfl
    | succ k => rfl

theorem unmarked_temp (tidy : e.Tidy) : marksPeu (s.tempText e) = false := by
  refine unmarked_padded (s := s) e.eventType.text.toList tidy (by simp [State.tempText]) ?_
  by_contra marked
  rw [Bool.not_eq_false, List.isPrefixOf_iff_prefix] at marked
  have blank := tidy.type ' ' (marked.subset (by decide : ' ' ∈ peuWord))
  simp at blank

theorem marked_peustart (tidy : e.Tidy) : marksPeu e.peustartText = true := by
  have word : " PEUSTART ".toList = ' ' :: peuWord := by decide
  have shape : e.peustartText.toList = e.location.toList ++ ' ' :: (peuWord ++ (irqService e.peuIRQ).toList) := by
    rw [Entry.peustartText, String.toList_append, String.toList_append, word, List.append_assoc]
    rfl
  rw [marksPeu, afterBlank, shape, drop_blankless tidy.location, List.tail_cons, List.isPrefixOf_iff_prefix]
  exact List.prefix_append ..

theorem unmarked_loopstart (arguments : String) : marksPeu ("0 LOOPSTART\t\t" ++ arguments) = false := by
  have word : "0 LOOPSTART\t\t".toList = "0".toList ++ ' ' :: "LOOPSTART\t\t".toList := by decide
  rw [marksPeu, afterBlank, String.toList_append, word, List.append_assoc, List.cons_append,
    drop_blankless (by decide), List.tail_cons]
  exact prefix_differs _ (by decide) (by decide)

def OtherWord (word : String) : Prop :=
  word.toList.head? = some ' ' ∧ peuWord.isPrefixOf word.toList.tail = false ∧
    word.toList.tail.isPrefixOf peuWord = false

instance (word : String) : Decidable (OtherWord word) := by
  unfold OtherWord
  infer_instance

def State.Leads (s : State) (e : Entry) (word text : String) : Prop :=
  ∃ rest, text = s.locationPadded e ++ word ++ rest

theorem leads_word (word : String) : s.Leads e word (s.locationPadded e ++ word) := ⟨"", by rw [String.append_empty]⟩

theorem leads_pair (left right : String) : s.Leads e (left ++ right) (s.locationPadded e ++ left ++ right) :=
  ⟨"", by rw [String.append_empty, String.append_assoc]⟩

theorem leads_append {word text : String} (leads : s.Leads e word text) (more : String) :
    s.Leads e word (text ++ more) := by
  obtain ⟨rest, rfl⟩ := leads
  exact ⟨rest ++ more, String.append_assoc ..⟩

theorem unmarked_word {text word : String} (tidy : e.Tidy) (other : OtherWord word) (leads : s.Leads e word text) :
    marksPeu text = false := by
  obtain ⟨rest, rfl⟩ := leads
  obtain ⟨blank, left, right⟩ := other
  refine unmarked_padded (s := s) (word.toList.tail ++ rest.toList) tidy ?_ (prefix_differs _ left right)
  have split : word.toList = ' ' :: word.toList.tail := (List.cons_head?_tail blank).symm
  rw [String.toList_append, String.toList_append, split, List.append_assoc]
  rfl

theorem unmarked_synch (tidy : e.Tidy) (operation : Sync) : marksPeu (s.synchText e operation) = false := by
  have other : OtherWord (" " ++ operation.text) := by cases operation <;> decide
  exact unmarked_word tidy other (leads_append (leads_append (leads_pair " " operation.text) _) _)

theorem unmarked_queue (tidy : e.Tidy) : marksPeu (s.queueText e) = false := by
  have other : OtherWord (" " ++ e.operation) := by
    unfold Entry.operation
    split
    · split <;> decide
    · split <;> decide
  have head : s.Leads e (" " ++ e.operation)
      (s.locationPadded e ++ " " ++ e.operation ++ "\t\t" ++ e.eventType.text ++ " ") :=
    leads_append (leads_append (leads_append (leads_pair " " e.operation) _) _) _
  unfold State.queueText
  dsimp only
  split
  · exact unmarked_word tidy other (leads_append (leads_append (leads_append head _) _) _)
  · exact unmarked_word tidy other
      (leads_append (leads_append (leads_append (leads_append (leads_append head _) _) _) _) _)
  · exact unmarked_word tidy other (leads_append (leads_append (leads_append head _) _) _)

theorem unmarked_call (tidy : e.Tidy) : marksPeu (s.callText e) = false := by
  have other : OtherWord " CALL\t\t" := by decide
  exact unmarked_word tidy other (leads_append (leads_word " CALL\t\t") _)

theorem unmarked_loop {text : String} (tidy : e.Tidy) (read : s.loopText e = some text) : marksPeu text = false := by
  obtain ⟨arguments, _, rfl⟩ := Option.map_eq_some_iff.mp read
  have other : OtherWord " LOOP\t\t" := by decide
  exact unmarked_word tidy other (leads_append (leads_append (leads_append (leads_word " LOOP\t\t") _) _) _)

theorem unmarked_queuecond (tidy : e.Tidy) : marksPeu (s.queuecondText e) = false := by
  have other : OtherWord " QUEUECOND\t" := by decide
  exact unmarked_word tidy other (leads_append (leads_append (leads_append (leads_append (leads_append
    (leads_word " QUEUECOND\t") _) _) _) _) _)

theorem unmarked_statecond {text : String} (tidy : e.Tidy) (read : s.statecondText e = some text) :
    marksPeu text = false := by
  obtain ⟨id, _, rfl⟩ := Option.map_eq_some_iff.mp read
  have other : OtherWord " STATECOND\t" := by decide
  exact unmarked_word tidy other (leads_append (leads_append (leads_append (leads_append (leads_append (leads_append
    (leads_append (leads_word " STATECOND\t") _) _) _) _) _) _) _)

theorem unmarked_tempsynch (tidy : e.Tidy) : marksPeu (s.tempsynchText e) = false := by
  have other : OtherWord " TEMPSYNCH\t" := by decide
  exact unmarked_word tidy other (leads_append (leads_word " TEMPSYNCH\t") _)

theorem unmarked_pktextr (tidy : e.Tidy) (type : e.eventType = .pktextr ∨ e.eventType = .pktextrn) :
    marksPeu (s.pktextrText e) = false := by
  have other : OtherWord (" " ++ e.eventType.text) := by
    rcases type with type | type
    · rw [type]
      decide
    · rw [type]
      decide
  exact unmarked_word tidy other (leads_append (leads_append (leads_pair " " e.eventType.text) _) _)

theorem unmarked_wakeup (tidy : e.Tidy) : marksPeu (s.wakeupText e) = false := by
  have other : OtherWord " TTWAKEUP\tUNKNOWN-LEU(pid=" := by decide
  exact unmarked_word tidy other (leads_append (leads_append (leads_append (leads_word _) _) _) _)

theorem unmarked_sleep (tidy : e.Tidy) : marksPeu (s.sleepText e) = false := by
  have other : OtherWord " SLEEP" := by decide
  exact unmarked_word tidy other (leads_word " SLEEP")

theorem marked_one (event : Event) {other : Event} (marked : event.Marked) (member : other ∈ [event]) : other.Marked := by
  rw [List.mem_singleton.mp member]
  exact marked

theorem image_marked (tidy : e.Tidy) {leu : LEU} {n : String} {x : Situation} {event : Event}
    (member : event ∈ e.image s leu n x) : event.Marked := by
  unfold Entry.image at member
  split at member
  · split at member
    · obtain ⟨arguments, _, rfl⟩ := List.mem_map.mp member
      exact unmarked_loopstart arguments
    · exact marked_one .start (by decide : marksPeu "0 START" = false) member
  · split at member
    · split at member
      · exact marked_one .restart (by decide : marksPeu "0 RESTART\n" = false) member
      · exact marked_one .stop (by decide : marksPeu "0 STOP\n" = false) member
    · split at member
      · split at member
        · cases member
        · exact marked_one (.line _) (unmarked_call tidy) member
      · obtain ⟨text, read, rfl⟩ := List.mem_map.mp member
        exact unmarked_loop tidy (Option.mem_toList.mp read)
      · exact marked_one (.line _) (unmarked_queue tidy) member
      · exact marked_one (.line _) (unmarked_queue tidy) member
      · exact marked_one (.line _) (unmarked_queue tidy) member
      · exact marked_one (.line _) (unmarked_queue tidy) member
      · exact marked_one (.line _) (unmarked_queuecond tidy) member
      · obtain ⟨text, read, rfl⟩ := List.mem_map.mp member
        exact unmarked_statecond tidy (Option.mem_toList.mp read)
      · exact marked_one (.line _) (unmarked_synch tidy _) member
      · exact marked_one (.line _) (unmarked_temp tidy) member
      · exact marked_one (.line _) (unmarked_tempsynch tidy) member
      · rename_i type
        exact marked_one (.line _) (unmarked_pktextr tidy (.inl type)) member
      · rename_i type
        exact marked_one (.line _) (unmarked_pktextr tidy (.inr type)) member
      · exact marked_one (.peustart _) (marked_peustart tidy) member
      · split at member
        · cases member
        · exact marked_one (.wakeup _) (unmarked_wakeup tidy) member
      · split at member
        · exact marked_one (.sleep _) (unmarked_sleep tidy) member
        · cases member
      · split at member
        · exact marked_one (.line _) (unmarked_temp tidy) member
        · cases member
      · cases member

end Marks
end Analyse
