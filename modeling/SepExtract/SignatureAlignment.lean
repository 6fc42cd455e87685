import SepExtract.SignatureReading
import SepExtract.SignatureTexts

/- Events and durations of a signature are appended by different branches and read back by an
   index. An instance that does not open or close its own name inside is walked over as one
   opening event and then stretches of processing, each with the event that ends it. -/
namespace Analyse
open GoText

def Event.isPeu : Event → Bool
  | .peustart _ => true
  | _ => false

def Event.inner (event : Event) : Bool := !event.opening && !event.closing

structure Stretch where
  processing : Int
  event : Event
  peu : Option Int
  deriving DecidableEq, Repr

def Stretch.durations (x : Stretch) : List Duration :=
  .processing x.processing :: (x.peu.map Duration.peu).toList

def Signature.extend (signature : Signature) (x : Stretch) : Signature :=
  ⟨signature.events ++ [x.event], signature.duration ++ x.durations⟩

inductive Effect (n : String) (e : Entry) (w v : Walk) : Prop
  | quiet (opens : e.opens n = false) (closes : e.closes n = false) (signature : v.signature = w.signature)
      (put : v.put = w.put)
  | opened (event : Event) (opens : e.opens n = true) (opening : event.opening = true) (oneLine : OneLine event.text)
      (signature : v.signature = ⟨w.signature.events ++ [event], w.signature.duration⟩) (put : v.put = w.put)
  | passed (x : Stretch) (opens : e.opens n = false) (closes : e.closes n = false) (inner : x.event.inner = true)
      (oneLine : OneLine x.event.text) (peu : x.peu.isSome = x.event.isPeu)
      (signature : v.signature = w.signature.extend x) (put : v.put = w.put)
  | closed (x : Stretch) (opens : e.opens n = false) (closes : e.closes n = true) (closing : x.event.closing = true)
      (peu : x.peu = none) (signature : v.signature = w.signature.extend x) (put : v.put = w.put ++ [v.signature])

section Effects
variable {s : State} {leu : LEU} {n : String} {e : Entry} {w v : Walk}

theorem effect_emit {text : String} (opens : e.opens n = false) (closes : e.closes n = false) (oneLine : OneLine text) :
    Effect n e w ((w.emit (.line text) e).next e) :=
  .passed ⟨(w.elapsed e).cycles, .line text, none⟩ opens closes rfl oneLine rfl rfl rfl

theorem effect_begin {event : Event} (opens : e.opens n = true) (opening : event.opening = true)
    (oneLine : OneLine event.text) : Effect n e w ((w.begin event e).next e) :=
  .opened event opens opening oneLine rfl rfl

theorem effect_finish {event : Event} (opens : e.opens n = false) (closes : e.closes n = true)
    (closing : event.closing = true) : Effect n e w ((w.finish event e).next e) :=
  .closed ⟨(w.elapsed e).cycles, event, none⟩ opens closes closing rfl rfl rfl

theorem effect_ctxsw (type : e.eventType = .ctxsw) (clean : e.Clean) : Effect n e w (w.ctxsw s leu e) := by
  have opens : e.opens n = false := by simp [Entry.opens, type]
  have closes : e.closes n = false := by simp [Entry.closes, type]
  unfold Walk.ctxsw
  split
  · split
    · exact .passed ⟨(w.elapsed e).cycles, .sleep (s.sleepText e), none⟩ opens closes rfl (one_line_sleep clean) rfl
        rfl rfl
    · exact .quiet opens closes rfl rfl
  · split
    · split
      · exact .quiet opens closes rfl rfl
      · exact .quiet opens closes rfl rfl
    · exact .quiet opens closes rfl rfl

theorem entry_effect (clean : e.Clean) (done : w.entry s leu n e = some v) : Effect n e w v := by
  have plain : ∀ {u : Walk}, (e.opens n = false ∧ e.closes n = false) → some u = some v →
      u.signature = w.signature → u.put = w.put → Effect n e w v := by
    rintro u ⟨opens, closes⟩ eq signature put
    obtain rfl := Option.some.inj eq
    exact .quiet opens closes signature put
  unfold Walk.entry at done
  split at done
  case h_1 type =>
    have closes : e.closes n = false := by simp [Entry.closes, type]
    split at done
    · rename_i irq
      exact plain ⟨by simp [Entry.opens, type, irq.2], closes⟩ done rfl rfl
    · split at done
      · rename_i own
        obtain rfl := Option.some.inj done
        exact effect_begin (by simp [Entry.opens, type, own]) rfl (by decide)
      · rename_i other
        obtain rfl := Option.some.inj done
        exact .passed ⟨(w.elapsed e).cycles, .line (s.callText e), none⟩ (by simp [Entry.opens, type, other]) closes rfl
          (one_line_call clean) rfl rfl rfl
  case h_2 type =>
    have closes : e.closes n = false := by simp [Entry.closes, type]
    split at done
    · rename_i other
      exact plain ⟨by simp [Entry.opens, type, other], closes⟩ done rfl rfl
    · rename_i own
      obtain rfl := Option.some.inj done
      exact effect_begin (by simpa [Entry.opens, type] using own) rfl (by decide)
  case h_3 type =>
    have opens : e.opens n = false := by simp [Entry.opens, type]
    split at done
    · rename_i other
      exact plain ⟨opens, by simp [Entry.closes, type, other]⟩ done rfl rfl
    · rename_i own
      obtain rfl := Option.some.inj done
      exact effect_finish opens (by simpa [Entry.closes, type] using own) rfl
  case h_4 type =>
    have closes : e.closes n = false := by simp [Entry.closes, type]
    split at done
    · rename_i own
      obtain ⟨arguments, known, rfl⟩ := Option.map_eq_some_iff.mp done
      refine effect_begin (by simp [Entry.opens, type, own]) rfl ?_
      rw [Event.text, one_line_append]
      exact ⟨by decide, one_line_arguments known⟩
    · rename_i other
      obtain ⟨text, known, rfl⟩ := Option.map_eq_some_iff.mp done
      exact effect_emit (by simp [Entry.opens, type, other]) closes (one_line_loop clean known)
  case h_5 type =>
    have closes : e.closes n = false := by simp [Entry.closes, type]
    split at done
    · rename_i other
      obtain rfl := Option.some.inj done
      exact effect_emit (by simp [Entry.opens, type, other]) closes (one_line_queue_text clean)
    · rename_i own
      split at done
      · rename_i taken
        obtain rfl := Option.some.inj done
        exact effect_begin (by simpa [Entry.opens, type, taken] using own) rfl (by decide)
      · rename_i added
        exact plain ⟨by simp [Entry.opens, type, added], closes⟩ done rfl rfl
  case h_6 type =>
    have opens : e.opens n = false := by simp [Entry.opens, type]
    split at done
    · rename_i own
      obtain rfl := Option.some.inj done
      exact effect_finish opens (by simp [Entry.closes, type, own]) rfl
    · rename_i other
      have closes : e.closes n = false := by simp [Entry.closes, type, other]
      split at done
      · exact plain ⟨opens, closes⟩ done rfl rfl
      · exact plain ⟨opens, closes⟩ done rfl rfl
  case h_7 type =>
    obtain rfl := Option.some.inj done
    exact effect_finish (by simp [Entry.opens, type]) (by simp [Entry.closes, type]) rfl
  all_goals
    rename_i type
    have opens : e.opens n = false := by simp [Entry.opens, type]
    have closes : e.closes n = false := by simp [Entry.closes, type]
  case h_8 => exact plain ⟨opens, closes⟩ done rfl rfl
  case h_9 => exact Option.some.inj done ▸ effect_emit opens closes (one_line_tempsynch clean)
  case h_10 => exact Option.some.inj done ▸ effect_emit opens closes (one_line_synch clean _)
  case h_11 => exact Option.some.inj done ▸ effect_emit opens closes (one_line_temp clean)
  case h_12 => exact Option.some.inj done ▸ effect_emit opens closes (one_line_pktextr clean)
  case h_13 => exact Option.some.inj done ▸ effect_emit opens closes (one_line_pktextr clean)
  case h_14 => exact Option.some.inj done ▸ effect_emit opens closes (one_line_queue_text clean)
  case h_15 => exact Option.some.inj done ▸ effect_emit opens closes (one_line_queue_text clean)
  case h_16 => exact Option.some.inj done ▸ effect_emit opens closes (one_line_queue_text clean)
  case h_17 => exact Option.some.inj done ▸ effect_emit opens closes (one_line_queuecond clean)
  case h_18 => cases done
  case h_19 =>
    obtain ⟨text, known, rfl⟩ := Option.map_eq_some_iff.mp done
    exact effect_emit opens closes (one_line_statecond clean known)
  case h_20 =>
    obtain rfl := Option.some.inj done
    exact .passed ⟨(w.elapsed e).cycles, .peustart e.peustartText, some e.peuDuration⟩ opens closes rfl
      (one_line_peustart clean) rfl (by simp [Signature.extend, Stretch.durations, Walk.next, Walk.peustart, Walk.append,
        Walk.addDuration, Duration.cycles, Walk.elapsed]) rfl
  case h_21 =>
    split at done
    · obtain rfl := Option.some.inj done
      exact .passed ⟨(w.elapsed e).cycles, .wakeup (s.wakeupText e), none⟩ opens closes rfl (one_line_wakeup clean) rfl
        rfl rfl
    · exact plain ⟨opens, closes⟩ done rfl rfl
  case h_22 => exact plain ⟨opens, closes⟩ done rfl rfl
  case h_23 => exact Option.some.inj done ▸ effect_ctxsw type clean
  case h_24 =>
    split at done
    · exact Option.some.inj done ▸ effect_emit opens closes (one_line_temp clean)
    · exact plain ⟨opens, closes⟩ done rfl rfl
  case h_25 => exact plain ⟨opens, closes⟩ done rfl rfl
  case h_26 => exact plain ⟨opens, closes⟩ done rfl rfl

end Effects

structure Signature.Aligned (signature : Signature) (first : Event) (row : List Stretch) : Prop where
  events : signature.events = first :: row.map Stretch.event
  duration : signature.duration = row.flatMap Stretch.durations
  opening : first.opening = true ∧ OneLine first.text
  inner : ∀ x ∈ row.dropLast, x.event.inner = true ∧ OneLine x.event.text
  closing : ∃ last, row.getLast? = some last ∧ last.event.closing = true
  peus : ∀ x ∈ row, x.peu.isSome = x.event.isPeu

def Simple (n : String) (es : List Entry) : Prop :=
  ∀ e ∈ es.tail.dropLast, e.opens n = false ∧ e.closes n = false

instance (n : String) (es : List Entry) : Decidable (Simple n es) := by
  unfold Simple
  infer_instance

section Instances
variable {s : State} {leu : LEU} {n : String}

structure Underway (w : Walk) (first : Event) (row : List Stretch) : Prop where
  signature : w.signature = ⟨first :: row.map Stretch.event, row.flatMap Stretch.durations⟩
  inner : ∀ x ∈ row, x.event.inner = true ∧ OneLine x.event.text
  peus : ∀ x ∈ row, x.peu.isSome = x.event.isPeu
  put : w.put = []

theorem extend_row {w : Walk} {first : Event} {row : List Stretch} (underway : Underway w first row) (x : Stretch) :
    w.signature.extend x = ⟨first :: (row ++ [x]).map Stretch.event, (row ++ [x]).flatMap Stretch.durations⟩ := by
  simp [underway.signature, Signature.extend]

theorem underway_step {w v : Walk} {e : Entry} {first : Event} {row : List Stretch} (underway : Underway w first row)
    (effect : Effect n e w v) (opens : e.opens n = false) (closes : e.closes n = false) :
    ∃ row', Underway v first row' := by
  cases effect with
  | quiet _ _ signature put =>
    exact ⟨row, signature.trans underway.signature, underway.inner, underway.peus, put.trans underway.put⟩
  | opened event yes => rw [opens] at yes; cases yes
  | closed x _ yes => rw [closes] at yes; cases yes
  | passed x _ _ inner oneLine peu signature put =>
    refine ⟨row ++ [x], signature.trans (extend_row underway x), ?_, ?_, put.trans underway.put⟩
    · intro y member
      rcases List.mem_append.mp member with old | new
      · exact underway.inner y old
      · exact List.mem_singleton.mp new ▸ ⟨inner, oneLine⟩
    · intro y member
      rcases List.mem_append.mp member with old | new
      · exact underway.peus y old
      · exact List.mem_singleton.mp new ▸ peu

theorem underway_walk {w v : Walk} {es : List Entry} {first : Event} {row : List Stretch}
    (underway : Underway w first row) (clean : ∀ e ∈ es, e.Clean)
    (simple : ∀ e ∈ es, e.opens n = false ∧ e.closes n = false) (done : s.walk leu n w es = some v) :
    ∃ row', Underway v first row' := by
  induction es generalizing w row with
  | nil => exact Option.some.inj done ▸ ⟨row, underway⟩
  | cons e es ih =>
    obtain ⟨u, here, rest⟩ := Option.bind_eq_some_iff.mp done
    obtain ⟨opens, closes⟩ := simple e (List.mem_cons_self ..)
    obtain ⟨row', next⟩ := underway_step underway (entry_effect (clean e (List.mem_cons_self ..)) here) opens closes
    exact ih next (fun x member => clean x (List.mem_cons_of_mem e member))
      (fun x member => simple x (List.mem_cons_of_mem e member)) rest

theorem walk_append (w : Walk) (es fs : List Entry) :
    s.walk leu n w (es ++ fs) = (s.walk leu n w es).bind fun v => s.walk leu n v fs := by
  simp only [State.walk, List.foldlM_append]
  rfl

theorem closes_of_opens {e : Entry} (opens : e.opens n = true) : e.closes n = false := by
  unfold Entry.opens at opens
  unfold Entry.closes
  split at opens <;> simp_all

theorem walk_aligned {w : Walk} {h c : Entry} {m : List Entry} (clean : ∀ e ∈ h :: (m ++ [c]), e.Clean)
    (opens : h.opens n = true) (closes : c.closes n = true) (simple : Simple n (h :: (m ++ [c])))
    (done : s.walk leu n .initial (h :: (m ++ [c])) = some w) :
    ∃ signature first row, w.put = [signature] ∧ signature.Aligned first row := by
  have simple : ∀ e ∈ m, e.opens n = false ∧ e.closes n = false := by
    intro e member
    exact simple e (by simpa using member)
  obtain ⟨u, began, rest⟩ := Option.bind_eq_some_iff.mp done
  have first : ∃ event, Underway u event [] ∧ event.opening = true ∧ OneLine event.text := by
    cases entry_effect (clean h (List.mem_cons_self ..)) began with
    | opened event _ opening oneLine signature put =>
      exact ⟨event, ⟨signature, by simp, by simp, put⟩, opening, oneLine⟩
    | quiet no => rw [opens] at no; cases no
    | passed x no => rw [opens] at no; cases no
    | closed x no => rw [opens] at no; cases no
  obtain ⟨event, underway, opening⟩ := first
  change s.walk leu n u (m ++ [c]) = some w at rest
  rw [walk_append, Option.bind_eq_some_iff] at rest
  obtain ⟨v, walked, last⟩ := rest
  obtain ⟨row, underway'⟩ := underway_walk underway (fun e member => clean e (by simp [member])) simple walked
  obtain ⟨w', final, same⟩ := Option.bind_eq_some_iff.mp last
  obtain rfl := Option.some.inj same
  cases entry_effect (clean c (by simp)) final with
  | quiet _ no => rw [closes] at no; cases no
  | passed x _ no => rw [closes] at no; cases no
  | opened event opens' =>
    rw [closes_of_opens opens'] at closes
    cases closes
  | closed x _ _ closing peu signature put =>
    have whole := signature.trans (extend_row underway' x)
    refine ⟨w'.signature, event, row ++ [x], ?_, ?_⟩
    · rw [put, underway'.put]
      rfl
    · rw [whole]
      refine ⟨rfl, rfl, opening, ?_, ⟨x, by simp, closing⟩, ?_⟩
      · rw [List.dropLast_concat]
        exact underway'.inner
      · intro y member
        rcases List.mem_append.mp member with old | new
        · exact underway'.peus y old
        · rw [List.mem_singleton.mp new, peu]
          cases x with
          | mk processing event peu => cases event <;> first | rfl | cases closing

theorem closing_of_opening {event : Event} (opening : event.opening = true) : event.closing = false := by
  cases event <;> first | rfl | cases opening

theorem opening_of_closing {event : Event} (closing : event.closing = true) : event.opening = false := by
  cases event <;> first | rfl | cases closing

/-- Every entry that opens or closes the name leaves an event of its own, so the last signature that is put in has as
    many openings and closings as the instance has entries of the kind. -/
theorem effect_counts {w v : Walk} {e : Entry} (effect : Effect n e w v) :
    v.signature.events.countP Event.opening = w.signature.events.countP Event.opening + (e.opens n).toNat ∧
      v.signature.events.countP Event.closing = w.signature.events.countP Event.closing + (e.closes n).toNat := by
  cases effect with
  | quiet opens closes signature _ => simp [opens, closes, signature]
  | opened event opens opening _ signature _ =>
    simp [signature, opens, closes_of_opens opens, opening, closing_of_opening opening, List.countP_append]
  | passed x opens closes inner _ _ signature _ =>
    simp only [Event.inner, Bool.and_eq_true, Bool.not_eq_true'] at inner
    simp [signature, opens, closes, Signature.extend, inner.1, inner.2, List.countP_append]
  | closed x opens closes closing _ signature _ =>
    simp [signature, opens, closes, Signature.extend, closing, opening_of_closing closing, List.countP_append]

theorem walk_counts {w v : Walk} {es : List Entry} (clean : ∀ e ∈ es, e.Clean) (done : s.walk leu n w es = some v) :
    v.signature.events.countP Event.opening = w.signature.events.countP Event.opening + es.countP (Entry.opens n) ∧
      v.signature.events.countP Event.closing = w.signature.events.countP Event.closing + es.countP (Entry.closes n) := by
  induction es generalizing w with
  | nil =>
    obtain rfl := Option.some.inj done
    exact ⟨rfl, rfl⟩
  | cons e es ih =>
    obtain ⟨u, first, rest⟩ := Option.bind_eq_some_iff.mp done
    obtain ⟨openings, closings⟩ := effect_counts (entry_effect (clean e (List.mem_cons_self ..)) first)
    obtain ⟨more, others⟩ := ih (fun x member => clean x (List.mem_cons_of_mem _ member)) rest
    rw [more, others, openings, closings, List.countP_cons, List.countP_cons]
    cases e.opens n <;> cases e.closes n <;> simp <;> omega

theorem aligned_counts {signature : Signature} {first : Event} {row : List Stretch}
    (aligned : signature.Aligned first row) :
    signature.events.countP Event.opening = 1 ∧ signature.events.countP Event.closing = 1 := by
  obtain ⟨last, final, closing⟩ := aligned.closing
  obtain ⟨inner, rfl⟩ := List.getLast?_eq_some_iff.mp final
  have opening := aligned.opening.1
  have between : ∀ x ∈ inner, x.event.opening = false ∧ x.event.closing = false := by
    intro x member
    simpa [Event.inner] using (aligned.inner x (by simpa using member)).1
  have no_openings : (inner.map Stretch.event).countP Event.opening = 0 := by
    simpa [List.countP_eq_zero] using fun x member => (between x member).1
  have no_closings : (inner.map Stretch.event).countP Event.closing = 0 := by
    simpa [List.countP_eq_zero] using fun x member => (between x member).2
  rw [aligned.events, List.map_append, List.countP_cons, List.countP_cons, List.countP_append, List.countP_append,
    no_openings, no_closings]
  simp [opening, closing, closing_of_opening opening, opening_of_closing closing]

theorem simple_of_aligned {w : Walk} {h c : Entry} {m : List Entry} (clean : ∀ e ∈ h :: (m ++ [c]), e.Clean)
    (opens : h.opens n = true) (closes : c.closes n = true)
    (done : s.walk leu n .initial (h :: (m ++ [c])) = some w)
    (aligned : ∀ signature ∈ w.put, ∃ first row, signature.Aligned first row) : Simple n (h :: (m ++ [c])) := by
  obtain ⟨openings, closings⟩ := walk_counts clean done
  have put : w.signature ∈ w.put := by
    rw [← List.cons_append, walk_append] at done
    obtain ⟨v, _, last⟩ := Option.bind_eq_some_iff.mp done
    obtain ⟨w', final, same⟩ := Option.bind_eq_some_iff.mp last
    obtain rfl := Option.some.inj same
    cases entry_effect (clean c (by simp)) final with
    | quiet _ no => rw [closes] at no; cases no
    | passed x _ no => rw [closes] at no; cases no
    | opened event opens' =>
      rw [closes_of_opens opens'] at closes
      cases closes
    | closed x _ _ _ _ _ put => simp [put]
  obtain ⟨first, row, whole⟩ := aligned _ put
  rw [(aligned_counts whole).1] at openings
  rw [(aligned_counts whole).2] at closings
  simp only [Walk.initial, List.countP_nil, List.countP_cons, List.countP_append, opens, closes, if_true] at openings closings
  have one : m.countP (Entry.opens n) = 0 := by omega
  have two : m.countP (Entry.closes n) = 0 := by omega
  intro e member
  have inside : e ∈ m := by simpa using member
  exact ⟨by simpa using List.countP_eq_zero.mp one e inside, by simpa using List.countP_eq_zero.mp two e inside⟩

end Instances

theorem aligned_closed {signature : Signature} {first : Event} {row : List Stretch}
    (aligned : signature.Aligned first row) : signature.Closed := by
  obtain ⟨last, final, closing⟩ := aligned.closing
  refine ⟨first :: row.dropLast.map Stretch.event, last.event, ?_, closing, ?_⟩
  · obtain ⟨before, rfl⟩ := List.getLast?_eq_some_iff.mp final
    rw [aligned.events, List.dropLast_concat, List.map_append]
    rfl
  · intro event member
    rcases List.mem_cons.mp member with rfl | member
    · exact aligned.opening.2
    · obtain ⟨x, here, rfl⟩ := List.mem_map.mp member
      exact (aligned.inner x here).2

def Signature.Worded (signature : Signature) : Prop :=
  ∀ event ∈ signature.events, isPeustart event.text = event.isPeu

def Stretch.values (x : Stretch) : List Int := x.processing :: x.peu.toList

theorem values_durations (row : List Stretch) :
    (row.flatMap Stretch.durations).map Duration.cycles = row.flatMap Stretch.values := by
  rw [List.map_flatMap]
  congr
  funext x
  cases peu : x.peu <;> simp [Stretch.durations, Stretch.values, peu, Duration.cycles]

def peuCount (events : List Event) : Nat := events.countP Event.isPeu

theorem values_size {x : Stretch} (marked : x.peu.isSome = x.event.isPeu) :
    x.values.length = 1 + peuCount [x.event] := by
  cases peu : x.peu <;> simp [Stretch.values, peuCount, peu] at marked ⊢ <;> simp [← marked]

theorem values_at {row : List Stretch} (peus : ∀ x ∈ row, x.peu.isSome = x.event.isPeu) {j : Nat} {x : Stretch}
    (here : row[j]? = some x) :
    (row.flatMap Stretch.values)[j + peuCount ((row.take j).map Stretch.event)]? = some x.processing ∧
    ∀ d ∈ x.peu, (row.flatMap Stretch.values)[j + peuCount ((row.take j).map Stretch.event) + 1]? = some d := by
  induction row generalizing j with
  | nil => cases here
  | cons y row ih =>
    cases j with
    | zero =>
      obtain rfl : y = x := by simpa using here
      refine ⟨by simp [peuCount, Stretch.values], fun d peu => ?_⟩
      rw [Option.mem_def] at peu
      simp [peuCount, Stretch.values, peu]
    | succ j =>
      have size := values_size (peus y (List.mem_cons_self ..))
      have moved : ∀ k, ((y :: row).flatMap Stretch.values)[
          j + 1 + peuCount (((y :: row).take (j + 1)).map Stretch.event) + k]?
          = (row.flatMap Stretch.values)[j + peuCount ((row.take j).map Stretch.event) + k]? := by
        intro k
        rw [List.flatMap_cons, List.getElem?_append_right]
        · congr 1
          rw [size]
          simp only [List.take_succ_cons, List.map_cons, peuCount, List.countP_cons, List.countP_nil]
          omega
        · rw [size]
          simp only [List.take_succ_cons, List.map_cons, peuCount, List.countP_cons, List.countP_nil]
          omega
      obtain ⟨first, second⟩ := ih (fun z member => peus z (List.mem_cons_of_mem y member)) (by simpa using here)
      refine ⟨(moved 0).trans first, fun d peu => (moved 1).trans (second d peu)⟩

theorem values_length {row : List Stretch} (peus : ∀ x ∈ row, x.peu.isSome = x.event.isPeu) :
    (row.flatMap Stretch.values).length = row.length + peuCount (row.map Stretch.event) := by
  induction row with
  | nil => rfl
  | cons y row ih =>
    have size := values_size (peus y (List.mem_cons_self ..))
    have rest := ih fun z member => peus z (List.mem_cons_of_mem y member)
    rw [List.flatMap_cons, List.length_append, rest, size]
    simp only [List.map_cons, List.length_cons, peuCount, List.countP_cons, List.countP_nil]
    omega

section Printing
variable {F : Type} (A : Arithmetic F)

def measured (values : List Int) : String := written A (values.map fun v => [v]) 0

theorem sum_up_at {α : Type} {rows : List α} {flat : α → List Int} {index : Nat} {f : α → Int}
    {term term' : Nat → Int → F} (read : ∀ row ∈ rows, (flat row)[index]? = some (f row))
    (terms : ∀ v, term index v = term' 0 v) :
    sumUp A term (rows.map flat) index = sumUp A term' ((rows.map f).map fun v => [v]) 0 := by
  unfold sumUp
  simp only [terms]
  generalize (none : Option F) = sum
  induction rows generalizing sum with
  | nil => rfl
  | cons row rows ih =>
    simp only [List.map_cons, List.foldl_cons, read row (List.mem_cons_self ..)]
    exact ih (fun x member => read x (List.mem_cons_of_mem row member)) _

theorem written_at {α : Type} {rows : List α} {flat : α → List Int} {index : Nat} {f : α → Int}
    (read : ∀ row ∈ rows, (flat row)[index]? = some (f row)) :
    written A (rows.map flat) index = measured A (rows.map f) := by
  have average : averages A (rows.map flat) index = averages A ((rows.map f).map fun v => [v]) 0 := by
    unfold averages
    rw [List.length_map, List.length_map, List.length_map]
    exact sum_up_at A read fun _ => rfl
  have deviation : sds A (rows.map flat) index = sds A ((rows.map f).map fun v => [v]) 0 := by
    unfold sds
    dsimp only
    rw [List.length_map, List.length_map, List.length_map, ← sum_up_at A read]
    intro v
    rw [average]
  rw [written, average, deviation]
  rfl

def processingAt (j : Nat) (row : List Stretch) : Int := (row[j]?.map Stretch.processing).getD 0

def peuAt (j : Nat) (row : List Stretch) : Int := (row[j]?.bind Stretch.peu).getD 0

/-- What belongs in the file for the event with the index: its text, for a PEU the duration
    of it, and the processing between it and the next event. -/
def eventReport (rows : List (List Stretch)) (count : Nat) (event : Event) (j : Nat) : List String :=
  event.text ::
    ((if event.isPeu then [" " ++ measured A (rows.map (peuAt (j - 1)))] else []) ++ "\n" ::
      (if j + 1 < count then [processLine A ((rows.map (processingAt j)).map fun v => [v]) 0] else []))

def report (rows : List (List Stretch)) (events : List Event) : List String :=
  events.zipIdx.flatMap fun (event, j) => eventReport A rows events.length event j

theorem peu_count_map (events : List Event) : peuCount events = (events.map Event.isPeu).countP id := by
  rw [List.countP_map]
  rfl

section Walk
variable {A} {first : Event} {events : List Event} {rows : List (List Stretch)}

theorem peu_count_take {row : List Stretch} (opening : first.isPeu = false)
    (shape : (row.map Stretch.event).map Event.isPeu = events.map Event.isPeu) (k : Nat) :
    peuCount ((row.take k).map Stretch.event) = peuCount ((first :: events).take (k + 1)) := by
  rw [List.take_succ_cons, peu_count_map, peu_count_map, List.map_cons, List.countP_cons_of_neg (by simp [opening]),
    List.map_take, List.map_take, List.map_take, shape]

theorem written_processing (opening : first.isPeu = false)
    (shape : ∀ row ∈ rows, (row.map Stretch.event).map Event.isPeu = events.map Event.isPeu)
    (peus : ∀ row ∈ rows, ∀ x ∈ row, x.peu.isSome = x.event.isPeu) {j : Nat} (inside : j < events.length) :
    written A (rows.map fun row => row.flatMap Stretch.values) (j + peuCount ((first :: events).take (j + 1))) =
      measured A (rows.map (processingAt j)) := by
  refine written_at A fun row member => ?_
  have long : row.length = events.length := by simpa using congrArg List.length (shape row member)
  obtain ⟨x, here⟩ : ∃ x, row[j]? = some x := ⟨_, List.getElem?_eq_getElem (by omega)⟩
  rw [← peu_count_take opening (shape row member) j, (values_at (peus row member) here).1]
  simp [processingAt, here]

theorem written_peu (opening : first.isPeu = false)
    (shape : ∀ row ∈ rows, (row.map Stretch.event).map Event.isPeu = events.map Event.isPeu)
    (peus : ∀ row ∈ rows, ∀ x ∈ row, x.peu.isSome = x.event.isPeu) {j : Nat} {event : Event}
    (here : (first :: events)[j]? = some event) (peu : event.isPeu = true) :
    written A (rows.map fun row => row.flatMap Stretch.values) (j + peuCount ((first :: events).take j)) =
      measured A (rows.map (peuAt (j - 1))) := by
  refine written_at A fun row member => ?_
  cases j with
  | zero =>
    obtain rfl : first = event := by simpa using here
    rw [opening] at peu
    cases peu
  | succ j =>
    -- the event of the stretch is a PEU as well, so the stretch has a duration for it
    have same := congrArg (·[j]?) (shape row member)
    simp only [List.map_map, List.getElem?_map] at same
    rw [List.getElem?_cons_succ] at here
    rw [here, Option.map_some, peu] at same
    obtain ⟨x, found, marked⟩ := Option.map_eq_some_iff.mp same
    have some := peus row member x (List.mem_of_getElem? found)
    rw [show x.event.isPeu = true from marked] at some
    obtain ⟨d, duration⟩ := Option.isSome_iff_exists.mp some
    have read := (values_at (peus row member) found).2 d duration
    rw [peu_count_take opening (shape row member) j] at read
    rw [show j + 1 + peuCount ((first :: events).take (j + 1)) = j + peuCount ((first :: events).take (j + 1)) + 1 by
      omega, read]
    simp [peuAt, found, duration]

theorem process_line_congr {ds es : List (List Int)} {i j : Nat} (same : written A ds i = written A es j) :
    processLine A ds i = processLine A es j := by
  delta processLine
  rw [same]

theorem write_from (opening : first.isPeu = false)
    (shape : ∀ row ∈ rows, (row.map Stretch.event).map Event.isPeu = events.map Event.isPeu)
    (peus : ∀ row ∈ rows, ∀ x ∈ row, x.peu.isSome = x.event.isPeu)
    (worded : ∀ event ∈ first :: events, isPeustart event.text = event.isPeu) (rest : List Event) (j : Nat)
    (tail : (first :: events).drop j = rest) :
    writeEvents A (rows.map fun row => row.flatMap Stretch.values) (j + peuCount ((first :: events).take j)) rest =
      (rest.zipIdx j).flatMap fun (event, j) => eventReport A rows (events.length + 1) event j := by
  induction rest generalizing j with
  | nil => rfl
  | cons event rest ih =>
    have here : (first :: events)[j]? = some event := by
      rw [← List.head?_drop, tail]
      rfl
    have tail' : (first :: events).drop (j + 1) = rest := by
      rw [← List.drop_drop, tail]
      rfl
    have next : peuCount ((first :: events).take (j + 1)) =
        peuCount ((first :: events).take j) + if event.isPeu then 1 else 0 := by
      rw [List.take_add_one, here, Option.toList_some, peuCount, peuCount, List.countP_append, List.countP_singleton]
    have process : (if rest.isEmpty then [] else
          [processLine A (rows.map fun row => row.flatMap Stretch.values) (j + peuCount ((first :: events).take (j + 1)))]) =
        if j + 1 < events.length + 1 then [processLine A ((rows.map (processingAt j)).map fun v => [v]) 0] else [] := by
      by_cases inside : j < events.length
      · have more : rest.isEmpty = false := by
          rw [← tail', List.isEmpty_eq_false_iff, ne_eq, List.drop_eq_nil_iff, List.length_cons]
          omega
        have line : processLine A (rows.map fun row => row.flatMap Stretch.values)
            (j + peuCount ((first :: events).take (j + 1))) =
            processLine A ((rows.map (processingAt j)).map fun v => [v]) 0 :=
          process_line_congr (written_processing opening shape peus inside)
        simp only [more, Bool.false_eq_true, if_false, line, Nat.add_lt_add_iff_right, inside, if_true]
      · have none : rest.isEmpty = true := by
          rw [← tail', List.isEmpty_iff, List.drop_eq_nil_iff, List.length_cons]
          omega
        simp only [none, if_true, Nat.add_lt_add_iff_right, inside, if_false]
    have delay : (if event.isPeu then j + peuCount ((first :: events).take j) + 1
        else j + peuCount ((first :: events).take j)) = j + peuCount ((first :: events).take (j + 1)) := by
      rw [next]
      split <;> omega
    have again := ih (j + 1) tail'
    rw [Nat.add_right_comm] at again
    rw [List.zipIdx_cons, List.flatMap_cons, ← again]
    simp only [writeEvents, worded event (List.mem_of_getElem? here), delay, process, eventReport, List.cons_append,
      List.append_assoc]
    by_cases peu : event.isPeu = true
    · simp only [peu, if_true, written_peu opening shape peus here peu]
    · simp only [peu, Bool.false_eq_true, if_false]

end Walk

end Printing

/-- A collection whose events are one opening event, inner events and one closing event, and
    whose duration vectors are the rows of stretches that the events end. -/
structure SignatureCollection.Aligned (c : SignatureCollection) (rows : List (List Stretch)) : Prop where
  events : ∃ first inner last, c.events = first :: (inner ++ [last]) ∧ first.opening = true ∧
    (∀ event ∈ inner, event.inner = true) ∧ last.closing = true
  values : c.durations = rows.map fun row => row.flatMap Stretch.values
  count : ∀ d ∈ c.durations, d.length = c.events.length - 1 + peuCount c.events
  printed : ∀ (F : Type) (A : Arithmetic F), writeEvents A c.durations 0 c.events = report A rows c.events

def State.InstanceRow (s : State) (n : String) (row : List Stretch) : Prop :=
  ∃ leu, ∃ es ∈ s.recordedEntries (leu, n), ∃ w signature first, s.walk leu n .initial es = some w ∧
    w.put = [signature] ∧ signature.Aligned first row

theorem worded_shape {a b : List Event} (texts : a.map Event.text = b.map Event.text)
    (left : ∀ event ∈ a, isPeustart event.text = event.isPeu)
    (right : ∀ event ∈ b, isPeustart event.text = event.isPeu) : a.map Event.isPeu = b.map Event.isPeu := by
  have read : ∀ events : List Event, (∀ event ∈ events, isPeustart event.text = event.isPeu) →
      events.map Event.isPeu = (events.map Event.text).map isPeustart := by
    intro events worded
    rw [List.map_map]
    exact List.map_congr_left fun event member => (worded event member).symm
  rw [read a left, read b right, texts]

theorem opening_no_peu {event : Event} (opening : event.opening = true) : event.isPeu = false := by
  cases event <;> first | rfl | cases opening

theorem gathers_aligned {P : Signature → List Stretch → Prop} {key : String} {c : SignatureCollection}
    {signatures : List Signature}
    (gathers : Gathers (fun signature => ∃ first row, signature.Aligned first row ∧ P signature row ∧ signature.Worded)
      key c signatures) :
    ∃ rows, c.Aligned rows ∧ ∀ row ∈ rows, ∃ signature, P signature row := by
  obtain ⟨head, member, events⟩ := gathers.events
  rw [Option.mem_def] at member
  obtain ⟨⟨first, row, aligned, _, worded⟩, headKey⟩ := gathers.each head (List.mem_of_head? member)
  have every : ∀ signature ∈ signatures, ∃ row : List Stretch,
      signature.duration = row.flatMap Stretch.durations ∧ (∀ x ∈ row, x.peu.isSome = x.event.isPeu) ∧
      (row.map Stretch.event).map Event.isPeu = (c.events.tail).map Event.isPeu ∧ ∃ signature, P signature row := by
    intro signature here
    obtain ⟨⟨first', row', aligned', holds, worded'⟩, sameKey⟩ := gathers.each signature here
    have texts := key_injective (aligned_closed aligned') (aligned_closed aligned) (sameKey.trans headKey.symm)
    have shape := worded_shape texts worded' worded
    refine ⟨row', aligned'.duration, aligned'.peus, ?_, signature, holds⟩
    rw [aligned'.events, ← events] at shape
    have tails := congrArg List.tail shape
    rwa [List.map_cons, List.tail_cons, ← List.map_tail] at tails
  choose! rowOf duration peus shape holds using every
  have cols : c.events = first :: c.events.tail := by rw [events, aligned.events, List.tail_cons]
  have durations : c.durations = (signatures.map rowOf).map fun row => row.flatMap Stretch.values := by
    rw [gathers.durations, List.map_map]
    exact List.map_congr_left fun signature here => by rw [duration signature here, values_durations]; rfl
  have noPeu := opening_no_peu aligned.opening.1
  have shapes : ∀ row ∈ signatures.map rowOf, (row.map Stretch.event).map Event.isPeu = c.events.tail.map Event.isPeu := by
    intro row inside
    obtain ⟨signature, here, rfl⟩ := List.mem_map.mp inside
    exact shape signature here
  have marks : ∀ row ∈ signatures.map rowOf, ∀ x ∈ row, x.peu.isSome = x.event.isPeu := by
    intro row inside
    obtain ⟨signature, here, rfl⟩ := List.mem_map.mp inside
    exact peus signature here
  refine ⟨signatures.map rowOf, ⟨?_, durations, ?_, ?_⟩, ?_⟩
  · obtain ⟨last, final, closing⟩ := aligned.closing
    obtain ⟨before, rfl⟩ := List.getLast?_eq_some_iff.mp final
    refine ⟨first, before.map Stretch.event, last.event, ?_, aligned.opening.1, ?_, closing⟩
    · rw [events, aligned.events, List.map_append]
      rfl
    · intro event inside
      obtain ⟨x, here, rfl⟩ := List.mem_map.mp inside
      exact (aligned.inner x (by rw [List.dropLast_concat]; exact here)).1
  · intro d inside
    rw [durations] at inside
    obtain ⟨row, here, rfl⟩ := List.mem_map.mp inside
    have long := congrArg List.length (shapes row here)
    rw [List.length_map, List.length_map, List.length_map] at long
    rw [values_length (marks row here), long, peu_count_map, shapes row here, cols, List.tail_cons, peuCount,
      List.countP_cons_of_neg (by simp [noPeu]), List.countP_map]
    rfl
  · intro F A
    have words : ∀ event ∈ first :: c.events.tail, isPeustart event.text = event.isPeu := by
      rw [← cols, events]
      exact worded
    have whole := write_from (A := A) noPeu shapes marks words (first :: c.events.tail) 0 rfl
    rw [durations, report]
    conv_rhs => rw [cols]
    conv_lhs => rw [cols]
    exact whole
  · intro row inside
    obtain ⟨signature, here, rfl⟩ := List.mem_map.mp inside
    exact holds signature here

def SimpleInstances (s : State) (keys : List (LEU × String)) : Prop :=
  ∀ key ∈ keys, ∀ es ∈ s.recordedEntries key, Simple key.2 es

instance (s : State) (keys : List (LEU × String)) : Decidable (SimpleInstances s keys) := by
  unfold SimpleInstances
  infer_instance

def WordedInstances (s : State) (keys : List (LEU × String)) : Prop :=
  ∀ key ∈ keys, ∀ es ∈ s.recordedEntries key, ∀ w ∈ s.walk key.1 key.2 .initial es,
    ∀ signature ∈ w.put, signature.Worded

instance (s : State) (keys : List (LEU × String)) : Decidable (WordedInstances s keys) := by
  unfold WordedInstances Signature.Worded
  infer_instance

theorem recorded_shape {s : State} {key : LEU × String} {es : List Entry} (shaped : Shaped s) (clean : s.Clean)
    (recorded : es ∈ s.recordedEntries key) :
    ∃ h m c, es = h :: (m ++ [c]) ∧ h.opens key.2 = true ∧ c.closes key.2 = true ∧ ∀ e ∈ es, e.Clean := by
  obtain ⟨i, stored, rfl⟩ := List.mem_map.mp recorded
  obtain ⟨h, m, c, entries, opens, closes⟩ := shaped.stored key.1 key.2 i stored
  refine ⟨s.deref h, m.map s.deref, s.deref c, by simp [entries], opens, closes, ?_⟩
  intro e inside
  obtain ⟨x, _, rfl⟩ := List.mem_map.mp inside
  exact clean_deref clean x

theorem instance_aligned {s : State} {key : LEU × String} {es : List Entry} {w : Walk} (shaped : Shaped s)
    (clean : s.Clean) (recorded : es ∈ s.recordedEntries key) (simple : Simple key.2 es)
    (walk : s.walk key.1 key.2 .initial es = some w) :
    ∃ signature first row, w.put = [signature] ∧ signature.Aligned first row := by
  obtain ⟨h, m, c, rfl, opens, closes, cleans⟩ := recorded_shape shaped clean recorded
  exact walk_aligned cleans opens closes simple walk

/-- Every signature that is put into the profile has its events and durations in step. -/
def AlignedPuts (s : State) (keys : List (LEU × String)) : Prop :=
  ∀ key ∈ keys, ∀ es ∈ s.recordedEntries key, ∀ w ∈ s.walk key.1 key.2 .initial es,
    ∀ signature ∈ w.put, ∃ first row, signature.Aligned first row

theorem signatures_aligned {file : List String} {r : Run} {keys : List (LEU × String)} {u : State} {p : Profile}
    (finished : run file = some r) (nested : TransitionRuns.Guarded Run.line NestedLine .initial (file.map lexLine))
    (distinct : keys.Nodup) (created : createSignatures r.state keys = some (u, p)) :
    (AlignedPuts r.state keys ↔ SimpleInstances r.state keys) ∧
    (SimpleInstances r.state keys → WordedInstances r.state keys →
      ∀ n k c, p n k = some c → ∃ rows, c.Aligned rows ∧ ∀ row ∈ rows, r.state.InstanceRow n row) := by
  have shaped := shaped_run shaped_initial nested finished
  have clean := clean_file finished nested
  refine ⟨⟨fun puts key listed es recorded => ?_, fun simple key listed es recorded w walk signature member => ?_⟩,
    fun simple worded => ?_⟩
  · obtain ⟨w, walk, _⟩ := created_holds shaped.toSound distinct created listed recorded
    have aligned := puts key listed es recorded w walk
    obtain ⟨h, m, c, rfl, opens, closes, cleans⟩ := recorded_shape shaped clean recorded
    exact simple_of_aligned cleans opens closes walk aligned
  · obtain ⟨put, first, row, only, aligned⟩ :=
      instance_aligned shaped clean recorded (simple key listed es recorded) walk
    rw [only] at member
    exact ⟨first, row, List.mem_singleton.mp member ▸ aligned⟩
  · have gathered : Gathered (fun n signature => ∃ first row, signature.Aligned first row ∧
        r.state.InstanceRow n row ∧ signature.Worded) p := by
      refine created_gathers shaped.toSound distinct created ?_
      intro key listed es recorded w walk signature member
      have word := worded key listed es recorded w walk signature member
      obtain ⟨put, first, row, only, aligned⟩ :=
        instance_aligned shaped clean recorded (simple key listed es recorded) walk
      obtain rfl : signature = put := by
        rw [only] at member
        exact List.mem_singleton.mp member
      exact ⟨first, row, aligned, ⟨key.1, _, recorded, w, signature, first, walk, only, aligned⟩, word⟩
    intro n k c found
    obtain ⟨signatures, gathers⟩ := gathered n k c found
    obtain ⟨rows, aligned, holds⟩ := gathers_aligned (P := fun _ row => r.state.InstanceRow n row) gathers
    exact ⟨rows, aligned, fun row member => (holds row member).elim fun _ row => row⟩

def callingFile : List String :=
  ["CTXSW 0 1 1 1 2 0 0 a", "SRVENTRY 0 1 2 0 0 0 f a", "SRVENTRY 0 1 3 0 0 0 g b",
   "SRVEXIT 0 1 5 0 0 0 g b", "SRVEXIT 0 1 9 0 0 0 f a"]

def recursiveFile : List String :=
  ["CTXSW 0 1 1 1 2 0 0 a", "SRVENTRY 0 1 2 0 0 0 f a", "SRVENTRY 0 1 3 0 0 0 f a",
   "SRVEXIT 0 1 5 0 0 0 f a", "SRVEXIT 0 1 9 0 0 0 f a"]

theorem signatures_aligned_calling : ∃ r u p c, run callingFile = some r ∧
    createSignatures r.state [(.thread 2, "f"), (.thread 2, "g")] = some (u, p) ∧
    p "g" "0 START\n0 STOP\n" = some c ∧ ∃ rows, c.Aligned rows ∧ ∀ row ∈ rows, r.state.InstanceRow "g" row := by
  have ends : ∃ x, ((run callingFile).bind fun r =>
      (createSignatures r.state [(.thread 2, "f"), (.thread 2, "g")]).bind fun y => y.2 "g" "0 START\n0 STOP\n") = some x :=
    Option.isSome_iff_exists.mp (by decide +kernel)
  obtain ⟨c, done⟩ := ends
  simp only [Option.bind_eq_some_iff] at done
  obtain ⟨r, finished, ⟨u, p⟩, created, found⟩ := done
  have guards : TransitionRuns.Guarded Run.line NestedLine .initial (callingFile.map lexLine) ∧
      ∀ r ∈ run callingFile, SimpleInstances r.state [(.thread 2, "f"), (.thread 2, "g")] ∧
        WordedInstances r.state [(.thread 2, "f"), (.thread 2, "g")] := by
    decide +kernel
  obtain ⟨nested, instances⟩ := guards
  exact ⟨r, u, p, c, finished, created, found, (signatures_aligned finished nested (by decide) created).2
    (instances r finished).1 (instances r finished).2 "g" _ c found⟩

theorem recursion_starts_twice : ¬ ∀ (file : List String) (r : Run) (keys : List (LEU × String)) (u : State)
    (p : Profile), run file = some r → TransitionRuns.Guarded Run.line NestedLine .initial (file.map lexLine) →
    keys.Nodup → createSignatures r.state keys = some (u, p) → ∀ n k c, p n k = some c → ∃ rows, c.Aligned rows := by
  intro every
  have ends : ((run recursiveFile).bind fun r => (createSignatures r.state [(.thread 2, "f")]).bind fun y =>
      y.2 "f" "0 START\n0 START\n0 STOP\n") = some ⟨[.start, .start, .stop], [[2]]⟩ := by
    decide +kernel
  simp only [Option.bind_eq_some_iff] at ends
  obtain ⟨r, finished, ⟨u, p⟩, created, found⟩ := ends
  have nested : TransitionRuns.Guarded Run.line NestedLine .initial (recursiveFile.map lexLine) := by
    decide +kernel
  obtain ⟨rows, aligned⟩ := every recursiveFile r _ u p finished nested (by decide) created "f" _ _ found
  obtain ⟨first, inner, last, events, _, between, _⟩ := aligned.events
  have second : inner = [.start] := by
    have middle := congrArg (fun l => l.tail.dropLast) events
    simpa using middle.symm
  have wrong := between .start (by simp [second])
  cases wrong

end Analyse
