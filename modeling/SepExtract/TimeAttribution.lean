import SepExtract.SignatureCompleteness

/- The time of an instance. Between the entry with which the thread leaves the instance, for a
   call, a loop, an interrupt or another thread, and the entry it comes back with lies a span
   that is not its own; the rest ought to be the sum of the processing durations. -/
namespace Analyse
open GoText

def Entry.leaves (leu : LEU) (e : Entry) : Bool :=
  match e.eventType with
  | .srventry | .loopstart | .hirqentry => true
  | .srvqueue => e.pid1 ≠ ENQUEUE
  | .ctxsw => e.pid1 = leu.pid
  | _ => false

def Entry.returns (leu : LEU) (e : Entry) : Bool :=
  match e.eventType with
  | .srvexit | .loopstop | .hirqexit => true
  | .ctxsw => e.pid1 ≠ leu.pid ∧ e.pid2 = leu.pid
  | _ => false

def Entry.endsWith (leu : LEU) (a b : Entry) : Bool :=
  match a.eventType with
  | .srventry | .srvqueue => b.eventType = .srvexit ∧ b.service = a.service
  | .loopstart => b.eventType = .loopstop
  | .hirqentry => b.eventType = .hirqexit ∧ b.pid1 = a.pid1
  | .ctxsw => b.eventType = .ctxsw ∧ b.pid1 ≠ leu.pid ∧ b.pid2 = leu.pid
  | _ => false

def timeAway (leu : LEU) : List Entry → Option Int
  | [] => some 0
  | a :: rest =>
    if a.leaves leu then
      match rest with
      | [] => none
      | b :: later => if a.endsWith leu b then (timeAway leu later).map (· + (b.cycles - a.cycles)) else none
    else if a.returns leu then none
    else timeAway leu rest

def Unwaiting (leu : LEU) (n : String) : Situation → List Entry → Prop
  | _, [] => True
  | x, e :: es =>
    ¬ (e.eventType = .ctxsw ∧ e.pid1 = leu.pid ∧ x.asleep = true ∧ x.previous.waits = true) ∧
      Unwaiting leu n (x.after leu n e) es

instance Unwaiting.decidable (leu : LEU) (n : String) : ∀ x es, Decidable (Unwaiting leu n x es)
  | _, [] => isTrue trivial
  | x, e :: es =>
    have := Unwaiting.decidable leu n (x.after leu n e) es
    inferInstanceAs (Decidable (_ ∧ _))

def Duration.processing? : Duration → Option Int
  | .processing cycles => some cycles
  | .peu _ => none

def processings (durations : List Duration) : List Int := durations.filterMap Duration.processing?

def Walk.pending (w : Walk) (now : Int) : Int := now - w.lastEvent - w.toDeduct

structure Accounts (w : Walk) (now total : Int) : Prop where
  sum : (processings w.signature.duration).sum + w.pending now = total
  each : ∀ d ∈ processings w.signature.duration, 0 ≤ d
  pending : 0 ≤ w.pending now

section Steps
variable {s : State} {leu : LEU} {n : String} {w v : Walk} {e : Entry} {now total : Int}

theorem accounts_paid {m : List Duration} {time : Int} (accounts : Accounts w now total) (later : now ≤ e.cycles)
    (duration : v.signature.duration = w.signature.duration ++ w.elapsed e :: m) (none : processings m = [])
    (lastEvent : v.lastEvent = time) (toDeduct : v.toDeduct = 0) :
    Accounts v time (total + (e.cycles - now)) := by
  obtain ⟨sum, each, pending⟩ := accounts
  have list : processings v.signature.duration = processings w.signature.duration ++ [w.pending e.cycles] := by
    rw [duration]
    unfold processings at none ⊢
    rw [List.filterMap_append, List.filterMap_cons, none]
    rfl
  simp only [Walk.pending] at sum pending list
  refine ⟨?_, ?_, ?_⟩
  · simp only [list, List.sum_append, List.sum_singleton, Walk.pending, lastEvent, toDeduct]
    omega
  · rw [list]
    intro d member
    rcases List.mem_append.mp member with old | new
    · exact each d old
    · rw [List.mem_singleton.mp new]
      omega
  · simp only [Walk.pending, lastEvent, toDeduct]
    omega

theorem accounts_deducted {time : Int} (accounts : Accounts w now total) (later : now ≤ e.cycles)
    (duration : v.signature.duration = w.signature.duration) (lastEvent : v.lastEvent = w.lastEvent)
    (toDeduct : v.toDeduct = w.toDeduct + (time - e.cycles)) : Accounts v time (total + (e.cycles - now)) := by
  obtain ⟨sum, each, pending⟩ := accounts
  simp only [Walk.pending] at sum pending
  refine ⟨?_, by rw [duration]; exact each, ?_⟩
  · simp only [duration, Walk.pending, lastEvent, toDeduct]
    omega
  · simp only [Walk.pending, lastEvent, toDeduct]
    omega

theorem accounts_wait (accounts : Accounts w now total) (later : now ≤ e.cycles)
    (duration : v.signature.duration = w.signature.duration) (lastEvent : v.lastEvent = w.lastEvent)
    (toDeduct : v.toDeduct = w.toDeduct) : Accounts v e.cycles (total + (e.cycles - now)) :=
  accounts_deducted accounts later duration lastEvent (by rw [toDeduct]; omega)

theorem accounts_emit (accounts : Accounts w now total) (later : now ≤ e.cycles) (event : Event) :
    Accounts ((w.emit event e).next e) e.cycles (total + (e.cycles - now)) :=
  accounts_paid accounts later rfl rfl rfl rfl

theorem accounts_next (accounts : Accounts w now total) (later : now ≤ e.cycles) :
    Accounts (w.next e) e.cycles (total + (e.cycles - now)) := accounts_wait accounts later rfl rfl rfl

theorem accounts_stay (accounts : Accounts w now total) (later : now ≤ e.cycles) (stays : e.leaves leu = false)
    (none : e.returns leu = false) (closes : e.closes n = false)
    (done : w.entry s leu n e = some v) : Accounts v e.cycles (total + (e.cycles - now)) := by
  unfold Walk.entry at done
  split at done
  case h_1 type => simp [Entry.leaves, type] at stays
  case h_2 type => simp [Entry.leaves, type] at stays
  case h_3 type => simp [Entry.returns, type] at none
  case h_4 type => simp [Entry.leaves, type] at stays
  case h_5 type =>
    have enqueue : e.pid1 = ENQUEUE := by simpa [Entry.leaves, type] using stays
    split at done
    · exact Option.some.inj done ▸ accounts_emit accounts later _
    · rw [if_neg (by rw [enqueue]; decide)] at done
      exact Option.some.inj done ▸ accounts_next accounts later
  case h_6 type => simp [Entry.returns, type] at none
  case h_7 type => simp [Entry.closes, type] at closes
  case h_8 type => simp [Entry.returns, type] at none
  case h_18 => cases done
  case h_19 =>
    obtain ⟨text, _, rfl⟩ := Option.map_eq_some_iff.mp done
    exact accounts_emit accounts later _
  case h_20 =>
    obtain rfl := Option.some.inj done
    refine accounts_paid (m := [.peu e.peuDuration]) accounts later ?_ rfl rfl rfl
    simp [Walk.next, Walk.peustart, Walk.append, Walk.addDuration]
  case h_21 =>
    split at done
    · exact Option.some.inj done ▸ accounts_emit accounts later _
    · exact Option.some.inj done ▸ accounts_next accounts later
  case h_22 => exact Option.some.inj done ▸ accounts_wait accounts later rfl rfl rfl
  case h_23 type =>
    obtain rfl := Option.some.inj done
    have out : e.pid1 ≠ leu.pid := by simpa [Entry.leaves, type] using stays
    have back : e.pid2 ≠ leu.pid := by simpa [Entry.returns, type, out] using none
    rw [Walk.ctxsw, if_neg out, if_neg back]
    exact accounts_next accounts later
  case h_24 =>
    split at done
    · exact Option.some.inj done ▸ accounts_emit accounts later _
    · exact Option.some.inj done ▸ accounts_next accounts later
  all_goals
    obtain rfl := Option.some.inj done
    first
    | exact accounts_emit accounts later _
    | exact accounts_next accounts later

theorem accounts_pair {a b : Entry} {u : Walk} (accounts : Accounts w now total) (later : now ≤ a.cycles)
    (leaves : a.leaves leu = true) (ends : a.endsWith leu b = true) (opens : a.opens n = false)
    (closes : b.closes n = false) (noIrq : b.eventType = .srvexit → b.service ≠ irqEnter)
    (unwaiting : ¬ (a.eventType = .ctxsw ∧ a.pid1 = leu.pid ∧ w.didSleep = true ∧ w.previous.waits = true))
    (first : w.entry s leu n a = some u) (second : u.entry s leu n b = some v) :
    Accounts v b.cycles (total + (a.cycles - now)) := by
  unfold Entry.leaves at leaves
  split at leaves
  · rename_i type
    have other : a.service ≠ n := by simpa [Entry.opens, type] using opens
    obtain ⟨exit, service⟩ : b.eventType = .srvexit ∧ b.service = a.service := by simpa [Entry.endsWith, type] using ends
    have called : a.service ≠ irqEnter := service ▸ noIrq exit
    simp only [Walk.entry, type, called, false_and, if_false, other, Option.some.injEq] at first
    subst first
    simp only [Walk.entry, exit, service, other, called, if_false, ne_eq, not_false_eq_true, if_true,
      Option.some.injEq] at second
    subst second
    exact accounts_paid (m := []) accounts later rfl rfl rfl rfl
  · rename_i type
    have other : a.location ≠ n := by simpa [Entry.opens, type] using opens
    have stop : b.eventType = .loopstop := by simpa [Entry.endsWith, type] using ends
    simp only [Walk.entry, type, other, if_false] at first
    obtain ⟨text, _, rfl⟩ := Option.map_eq_some_iff.mp first
    simp only [Walk.entry, stop, Option.some.injEq] at second
    subst second
    exact accounts_paid (m := []) accounts later rfl rfl rfl rfl
  · rename_i type
    have other : n ≠ irqService a.pid1 := by simpa [Entry.opens, type] using opens
    obtain ⟨exit, irq⟩ : b.eventType = .hirqexit ∧ b.pid1 = a.pid1 := by simpa [Entry.endsWith, type] using ends
    simp only [Walk.entry, type, other, ne_eq, not_false_eq_true, if_true, Option.some.injEq] at first
    subst first
    simp only [Walk.entry, exit, irq, other, ne_eq, not_false_eq_true, if_true, Option.some.injEq] at second
    subst second
    exact accounts_deducted accounts later rfl rfl rfl
  · rename_i type
    obtain ⟨exit, service⟩ : b.eventType = .srvexit ∧ b.service = a.service := by simpa [Entry.endsWith, type] using ends
    have other : a.service ≠ n := by
      rw [← service]
      simpa [Entry.closes, exit] using closes
    simp only [Walk.entry, type, other, ne_eq, not_false_eq_true, if_true, Option.some.injEq] at first
    subst first
    have called : a.service ≠ irqEnter := service ▸ noIrq exit
    simp only [Walk.entry, exit, service, other, called, if_false, ne_eq, not_false_eq_true, if_true,
      Option.some.injEq] at second
    subst second
    exact accounts_paid (m := []) accounts later rfl rfl rfl rfl
  · rename_i type
    have out : a.pid1 = leu.pid := by simpa using leaves
    obtain ⟨switch, away, back⟩ : b.eventType = .ctxsw ∧ b.pid1 ≠ leu.pid ∧ b.pid2 = leu.pid := by
      simpa [Entry.endsWith, type] using ends
    simp only [Walk.entry, type, Option.some.injEq] at first
    simp only [Walk.entry, switch, Option.some.injEq] at second
    cases asleep : w.didSleep with
    | true =>
      have waits : ¬ w.previous.waits = true := fun waits => unwaiting ⟨type, out, asleep, waits⟩
      rw [Walk.ctxsw, if_pos out, if_pos ⟨asleep, waits⟩] at first
      have slept : u.didSleep = true := by rw [← first]; exact asleep
      rw [Walk.ctxsw, if_neg away, if_pos back, if_pos slept] at second
      subst second first
      exact accounts_paid (m := []) accounts later rfl rfl rfl rfl
    | false =>
      rw [Walk.ctxsw, if_pos out, if_neg (by simp [asleep])] at first
      have awake : u.didSleep = false := by rw [← first]; exact asleep
      rw [Walk.ctxsw, if_neg away, if_pos back, if_neg (by simp [awake])] at second
      subst second first
      exact accounts_deducted accounts later rfl rfl rfl
  · cases leaves

theorem accounts_walk {es : List Entry} {t : Int} (away : timeAway leu es = some t)
    (ordered : (now :: es.map Entry.cycles).Pairwise (· ≤ ·))
    (simple : ∀ e ∈ es, e.opens n = false ∧ e.closes n = false)
    (noIrq : ∀ e ∈ es, e.eventType = .srvexit → e.service ≠ irqEnter) (unwaiting : Unwaiting leu n w.situation es)
    (accounts : Accounts w now total) (done : s.walk leu n w es = some v) :
    ∃ time, time ∈ now :: es.map Entry.cycles ∧ Accounts v time (total + (time - now) - t) := by
  fun_induction timeAway leu es generalizing w now total t with
  | case1 =>
    obtain rfl := Option.some.inj done
    obtain rfl : 0 = t := Option.some.inj away
    exact ⟨now, List.mem_cons_self .., by simpa using accounts⟩
  | case2 a leaves => cases away
  | case3 a leaves b later ends ih =>
    obtain ⟨u, first, rest⟩ := Option.bind_eq_some_iff.mp done
    obtain ⟨u', second, rest⟩ := Option.bind_eq_some_iff.mp rest
    obtain ⟨t', away', rfl⟩ := Option.map_eq_some_iff.mp away
    obtain ⟨after, ordered'⟩ := List.pairwise_cons.mp ordered
    have inside : ∀ e ∈ later, e ∈ a :: b :: later := fun e member => by simp [member]
    have next := accounts_pair accounts (after a.cycles (by simp)) leaves ends (simple a (by simp)).1
      (simple b (by simp)).2 (noIrq b (by simp)) unwaiting.1 first second
    have situation : u'.situation = (w.situation.after leu n a).after leu n b := by
      rw [(entry_kept second).2, (entry_kept first).2]
    obtain ⟨time, member, final⟩ := ih away' ordered'.of_cons (fun e member => simple e (inside e member))
      (fun e member => noIrq e (inside e member)) (by rw [situation]; exact unwaiting.2.2) next rest
    refine ⟨time, List.mem_cons_of_mem now (List.mem_cons_of_mem a.cycles member), ?_⟩
    have same : total + (a.cycles - now) + (time - b.cycles) - t' = total + (time - now) - (t' + (b.cycles - a.cycles)) := by
      omega
    exact same ▸ final
  | case4 a leaves b later ends => cases away
  | case5 a rest stays returns => cases away
  | case6 a rest stays returns ih =>
    obtain ⟨u, first, rest⟩ := Option.bind_eq_some_iff.mp done
    obtain ⟨after, ordered'⟩ := List.pairwise_cons.mp ordered
    have next := accounts_stay accounts (after a.cycles (by simp)) (by simpa using stays) (by simpa using returns)
      (simple a (by simp)).2 first
    obtain ⟨time, member, final⟩ := ih away ordered' (fun e member => simple e (List.mem_cons_of_mem a member))
      (fun e member => noIrq e (List.mem_cons_of_mem a member))
      (by rw [(entry_kept first).2]; exact unwaiting.2) next rest
    refine ⟨time, List.mem_cons_of_mem now member, ?_⟩
    have same : total + (a.cycles - now) + (time - a.cycles) - t = total + (time - now) - t := by omega
    exact same ▸ final

theorem opening_accounts (opens : e.opens n = true) (service : e.eventType ≠ .loopstart)
    (done : Walk.initial.entry s leu n e = some v) :
    Accounts v e.cycles 0 ∧ v.situation = Situation.initial.after leu n e := by
  have began : v = (Walk.initial.begin .start e).next e := by
    unfold Entry.opens at opens
    split at opens
    · rename_i type
      have own := of_decide_eq_true opens
      simpa [Walk.entry, type, own] using done.symm
    · rename_i type
      have own := of_decide_eq_true opens
      simpa [Walk.entry, type, own] using done.symm
    · rename_i type
      have own := of_decide_eq_true opens
      simpa [Walk.entry, type, own] using done.symm
    · rename_i type
      exact absurd type service
    · cases opens
  refine ⟨?_, (entry_kept done).2⟩
  subst began
  exact ⟨by simp [Walk.pending, Walk.next, Walk.begin, Walk.append, Walk.initial, processings],
    by simp [Walk.next, Walk.begin, Walk.append, Walk.initial, processings],
    by simp [Walk.pending, Walk.next, Walk.begin]⟩

theorem closing_accounts (accounts : Accounts w now total) (later : now ≤ e.cycles) (closes : e.closes n = true)
    (done : w.entry s leu n e = some v) :
    (∀ d ∈ processings v.signature.duration, 0 ≤ d) ∧
      (processings v.signature.duration).sum = total + (e.cycles - now) := by
  have duration : v.signature.duration = w.signature.duration ++ [w.elapsed e] := by
    unfold Entry.closes at closes
    split at closes
    · rename_i type
      have own := of_decide_eq_true closes
      simp only [Walk.entry, type, own, if_true, Option.some.injEq] at done
      exact done ▸ rfl
    · rename_i type
      have own := of_decide_eq_true closes
      simp only [Walk.entry, type, own, ne_eq, not_true_eq_false, if_false, Option.some.injEq] at done
      exact done ▸ rfl
    · rename_i type
      simp only [Walk.entry, type, Option.some.injEq] at done
      exact done ▸ rfl
    · cases closes
  have paid : Accounts { v with lastEvent := e.cycles, toDeduct := 0 } e.cycles (total + (e.cycles - now)) :=
    accounts_paid (m := []) accounts later duration rfl rfl rfl
  refine ⟨paid.each, ?_⟩
  have sum := paid.sum
  simp only [Walk.pending] at sum
  omega

end Steps

/-- A service or interrupt whose name does not open or close inside, with the entries in the
    order of time and every span away from it closed; the time is that of the spans. -/
structure Spanned (leu : LEU) (n : String) (o : Entry) (m : List Entry) (c : Entry) (t : Int) : Prop where
  opens : o.opens n = true ∧ o.eventType ≠ .loopstart
  closes : c.closes n = true
  simple : ∀ e ∈ m, e.opens n = false ∧ e.closes n = false
  ordered : (o :: (m ++ [c])).Pairwise fun a b => a.cycles ≤ b.cycles
  away : timeAway leu m = some t

instance (leu : LEU) (n : String) (o : Entry) (m : List Entry) (c : Entry) (t : Int) :
    Decidable (Spanned leu n o m c t) :=
  decidable_of_iff ((o.opens n = true ∧ o.eventType ≠ .loopstart) ∧ c.closes n = true ∧
      (∀ e ∈ m, e.opens n = false ∧ e.closes n = false) ∧
      (o :: (m ++ [c])).Pairwise (fun a b => a.cycles ≤ b.cycles) ∧ timeAway leu m = some t)
    ⟨fun h => ⟨h.1, h.2.1, h.2.2.1, h.2.2.2.1, h.2.2.2.2⟩,
     fun h => ⟨h.opens, h.closes, h.simple, h.ordered, h.away⟩⟩

theorem time_attributed {file : List String} {r : Run} {keys : List (LEU × String)} {u : State} {p : Profile}
    (finished : run file = some r) (distinct : keys.Nodup) (created : createSignatures r.state keys = some (u, p))
    {key : LEU × String} (listed : key ∈ keys) {o c : Entry} {m : List Entry} {t : Int}
    (recorded : o :: (m ++ [c]) ∈ r.state.recordedEntries key) (spanned : Spanned key.1 key.2 o m c t)
    (noIrq : ∀ e ∈ m, e.eventType = .srvexit → e.service ≠ irqEnter)
    (unwaiting : Unwaiting key.1 key.2 .initial (o :: m)) :
    ∃ w, r.state.walk key.1 key.2 .initial (o :: (m ++ [c])) = some w ∧ p.Holds key.2 w.signature ∧
      (∀ d ∈ processings w.signature.duration, 0 ≤ d) ∧
      (processings w.signature.duration).sum = c.cycles - o.cycles - t := by
  have sound := sound_run sound_initial finished
  obtain ⟨w, walk, holds⟩ := created_holds sound distinct created listed recorded
  refine ⟨w, walk, ?_⟩
  obtain ⟨v, began, rest⟩ := Option.bind_eq_some_iff.mp walk
  rw [List.foldlM_append] at rest
  obtain ⟨v', walked, last⟩ := Option.bind_eq_some_iff.mp rest
  obtain ⟨w', final, same⟩ := Option.bind_eq_some_iff.mp last
  obtain rfl := Option.some.inj same
  refine ⟨holds _ (closing_puts spanned.closes final), ?_⟩
  obtain ⟨start, situation⟩ := opening_accounts spanned.opens.1 spanned.opens.2 began
  obtain ⟨after, inner⟩ := List.pairwise_cons.mp spanned.ordered
  have times : (o.cycles :: m.map Entry.cycles).Pairwise (· ≤ ·) := by
    refine List.pairwise_cons.mpr ⟨?_, ?_⟩
    · intro time member
      obtain ⟨e, inside, rfl⟩ := List.mem_map.mp member
      exact after e (by simp [inside])
    · exact List.pairwise_map.mpr (List.pairwise_append.mp inner).1
  obtain ⟨time, member, accounts⟩ := accounts_walk spanned.away times spanned.simple noIrq
    (by rw [situation]; exact unwaiting.2) start walked
  have before : time ≤ c.cycles := by
    rcases List.mem_cons.mp member with rfl | inside
    · exact after c (by simp)
    · obtain ⟨e, here, rfl⟩ := List.mem_map.mp inside
      exact (List.pairwise_append.mp inner).2.2 e here c (List.mem_singleton_self c)
  obtain ⟨each, sum⟩ := closing_accounts accounts before spanned.closes final
  exact ⟨each, by rw [sum]; omega⟩

def interruptedFile (entry exit : String) : List String :=
  ["CTXSW 0 1 1 1 2 0 0 a", "SRVENTRY 0 1 2 0 0 0 f a", entry, exit, "SRVEXIT 0 1 9 0 0 0 f a"]

def hardwareInterrupted : List String := interruptedFile "HIRQENTRY 0 1 3 5 0 0 0 a" "HIRQEXIT 0 1 5 5 0 0 0 a"

def serviceInterrupted : List String :=
  interruptedFile "SRVENTRY 0 1 3 0 0 0 irq_enter a" "SRVEXIT 0 1 5 0 0 0 irq_enter a"

theorem time_attributed_hardware_interrupt : ∃ r u p o m c w, run hardwareInterrupted = some r ∧
    createSignatures r.state [(.thread 2, "f")] = some (u, p) ∧
    o :: (m ++ [c]) ∈ r.state.recordedEntries (.thread 2, "f") ∧ Spanned (.thread 2) "f" o m c 2 ∧
    r.state.walk (.thread 2) "f" .initial (o :: (m ++ [c])) = some w ∧
    (processings w.signature.duration).sum = c.cycles - o.cycles - 2 := by
  have ends : ((run hardwareInterrupted).bind fun r =>
      createSignatures r.state [(.thread 2, "f")]).isSome = true := by
    decide +kernel
  obtain ⟨⟨u, p⟩, done⟩ := Option.isSome_iff_exists.mp ends
  obtain ⟨r, finished, created⟩ := Option.bind_eq_some_iff.mp done
  have facts : ∀ r ∈ run hardwareInterrupted, ∃ es ∈ r.state.recordedEntries (.thread 2, "f"),
      ∃ o ∈ es.head?, ∃ c ∈ es.getLast?, o :: (es.tail.dropLast ++ [c]) ∈ r.state.recordedEntries (.thread 2, "f") ∧
        Spanned (.thread 2) "f" o es.tail.dropLast c 2 := by
    decide +kernel
  have calm : ∀ r ∈ run hardwareInterrupted, ∀ es ∈ r.state.recordedEntries (.thread 2, "f"),
      (∀ e ∈ es.tail.dropLast, e.eventType = .srvexit → e.service ≠ irqEnter) ∧
        ∀ o ∈ es.head?, Unwaiting (.thread 2) "f" .initial (o :: es.tail.dropLast) := by
    decide +kernel
  obtain ⟨es, here, o, head, c, _, recorded, spanned⟩ := facts r finished
  obtain ⟨noIrq, unwaiting⟩ := calm r finished es here
  obtain ⟨w, walk, _, _, sum⟩ := time_attributed finished (by decide) created (List.mem_singleton_self _) recorded
    spanned noIrq (unwaiting o head)
  exact ⟨r, u, p, o, _, c, w, finished, created, recorded, spanned, walk, sum⟩

theorem irq_enter_is_not_deducted : ¬ ∀ (file : List String) (r : Run) (keys : List (LEU × String)) (u : State)
    (p : Profile), run file = some r → keys.Nodup → createSignatures r.state keys = some (u, p) →
    ∀ key ∈ keys, ∀ o m c t, o :: (m ++ [c]) ∈ r.state.recordedEntries key → Spanned key.1 key.2 o m c t →
    ∃ w, r.state.walk key.1 key.2 .initial (o :: (m ++ [c])) = some w ∧
      (∀ d ∈ processings w.signature.duration, 0 ≤ d) ∧
      (processings w.signature.duration).sum = c.cycles - o.cycles - t := by
  intro every
  have ends : ((run serviceInterrupted).bind fun r =>
      createSignatures r.state [(.thread 2, "f")]).isSome = true := by
    decide +kernel
  obtain ⟨⟨u, p⟩, done⟩ := Option.isSome_iff_exists.mp ends
  obtain ⟨r, finished, created⟩ := Option.bind_eq_some_iff.mp done
  have facts : ∀ r ∈ run serviceInterrupted, ∃ es ∈ r.state.recordedEntries (.thread 2, "f"),
      ∃ o ∈ es.head?, ∃ c ∈ es.getLast?, o :: (es.tail.dropLast ++ [c]) ∈ r.state.recordedEntries (.thread 2, "f") ∧
        Spanned (.thread 2) "f" o es.tail.dropLast c 2 ∧ c.cycles - o.cycles = 7 ∧
        ∀ w ∈ r.state.walk (.thread 2) "f" .initial (o :: (es.tail.dropLast ++ [c])),
          processings w.signature.duration = [7] := by
    decide +kernel
  obtain ⟨es, _, o, _, c, _, recorded, spanned, apart, durations⟩ := facts r finished
  obtain ⟨w, walk, _, sum⟩ := every _ r _ u p finished (by decide) created _ (List.mem_singleton_self _) o _ c 2
    recorded spanned
  rw [durations w walk, apart] at sum
  cases sum

end Analyse
