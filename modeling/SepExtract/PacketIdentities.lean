import SepExtract.HandlerMoves
import SepExtract.ServiceReconstruction

/- The packet ids of the recorded instances. handlePKTQUEUE appends the id of a packet to
   copies of the elements of the stack, so no instance ever has one. -/
namespace Analyse
open Nesting

def packetIdsOf (w : List (Sym Kind Entry)) : List String :=
  w.filterMap fun
    | .plain a => if a.eventType = .pktqueue then some a.packetId else none
    | .opens _ _ | .closes _ _ => none

def Between (w : List (Sym Kind Entry)) (p : Pair Kind Entry) (u : List (Sym Kind Entry)) : Prop :=
  ∃ l r, w = l ++ .opens p.kind p.opening :: (u ++ .closes p.kind p.closing :: r) ∧ Balanced u ∧
    p.items = level shown u

def State.serviceRecords (s : State) (l : LEU) (n : String) : List (List Entry × List Int) :=
  ((s.instances l n).map fun i => (i.entries.map s.view, i.packetIds)).filter fun i => !loopIteration i.1

structure Unmarked (d : Desk) : Prop where
  frames : ∀ c l, ∀ elem ∈ d.state.stackOf c l, elem.packetIds = []
  stored : ∀ l n, ∀ i ∈ d.state.instances l n, i.packetIds = []
  hand : ∀ elem ∈ d.hand, elem.packetIds = []

theorem unmarked_set {d : Desk} {c : Fin 2} {stack : List ServiceStackElement} {hand : Option ServiceStackElement}
    (unmarked : Unmarked d) (new : ∀ elem ∈ stack, elem.packetIds = []) (taken : ∀ elem ∈ hand, elem.packetIds = []) :
    Unmarked { d with state := d.state.setCurrentStack c stack, hand := hand } := by
  refine ⟨fun d' l => ?_, unmarked.stored, taken⟩
  dsimp only
  rw [stack_of_set]
  split
  · exact new
  · exact unmarked.frames d' l

theorem unmarked_move {e : Entry} {a b : Desk} (move : Move false e a b) (unmarked : Unmarked a) : Unmarked b := by
  cases move with
  | touch => exact ⟨fun c l => by simpa using unmarked.frames c l, unmarked.stored, unmarked.hand⟩
  | push d r =>
    refine ⟨fun c l => ?_, fun l n => ?_, unmarked.hand⟩
    · dsimp only
      rw [stack_of_push_entry]
      split
      · exact forall_append_top (unmarked.frames c l) fun _ _ same => same
      · exact unmarked.frames c l
    · simpa [State.instances] using unmarked.stored l n
  | opens name =>
    refine unmarked_set unmarked (fun elem member => ?_) unmarked.hand
    rcases List.mem_cons.mp member with rfl | below
    · rfl
    · exact unmarked.frames _ _ elem below
  | pop t elem popped =>
    obtain ⟨rest, full, rfl⟩ := pop_cases popped
    have stack := unmarked.frames e.cpu (a.state.currentLEU e.cpu)
    rw [full] at stack
    refine unmarked_set unmarked (fun x below => stack x (List.mem_cons_of_mem elem below)) ?_
    simpa using stack elem (List.mem_cons_self ..)
  | extend elem r taken =>
    refine ⟨unmarked.frames, unmarked.stored, ?_⟩
    simpa using unmarked.hand elem taken
  | store t elem taken stored =>
    obtain ⟨_, _, stack, _⟩ := store_keeps stored
    refine ⟨fun c l => ?_, fun l n i member => ?_, by simp⟩
    · simpa [State.stackOf, stack] using unmarked.frames c l
    · dsimp only at member
      rw [instances_of_store stored] at member
      split at member
      · rcases List.mem_append.mp member with old | new
        · exact unmarked.stored l n i old
        · rw [List.mem_singleton.mp new]
          exact unmarked.hand elem taken
      · exact unmarked.stored l n i member
  | drop => exact ⟨unmarked.frames, unmarked.stored, by simp⟩
  | ensure k =>
    refine ⟨unmarked.frames, fun l n => ?_, unmarked.hand⟩
    dsimp only
    rw [instances_of_ensure]
    exact unmarked.stored l n
  | note v operation =>
    unfold State.noteUser
    split
    · exact unmarked
    · exact ⟨unmarked.frames, unmarked.stored, unmarked.hand⟩
  | alloc => exact ⟨unmarked.frames, unmarked.stored, unmarked.hand⟩
  | relabel => exact ⟨unmarked.frames, unmarked.stored, unmarked.hand⟩
  | packet => exact ⟨unmarked.frames, unmarked.stored, unmarked.hand⟩
  | fill => exact ⟨unmarked.frames, unmarked.stored, unmarked.hand⟩
  | last => exact ⟨unmarked.frames, unmarked.stored, unmarked.hand⟩
  | switch => exact ⟨unmarked.frames, unmarked.stored, unmarked.hand⟩
  | peu => exact ⟨unmarked.frames, unmarked.stored, unmarked.hand⟩
  | temps => exact ⟨unmarked.frames, unmarked.stored, unmarked.hand⟩

theorem unmarked_migrate {s t : State} {e : Entry} (unmarked : Unmarked ⟨s, none, false⟩)
    (done : handleMIGRATE s e = some t) : Unmarked ⟨t, none, false⟩ := by
  rcases stack_of_migrate done with rfl | ⟨old, new, _, _, leus, stack⟩
  · exact unmarked
  · refine ⟨fun c l => ?_, fun l n => ?_, by simp⟩
    · dsimp only
      rw [stack c l]
      split
      · split
        · simp
        · split
          · exact unmarked.frames old l
          · exact unmarked.frames c l
      · exact unmarked.frames c l
    · simpa [State.instances, leus] using unmarked.stored l n

theorem unmarked_handle {s t : State} {e : Entry} (unmarked : Unmarked ⟨s, none, false⟩)
    (done : handleEvent s e = some t) : Unmarked ⟨t, none, false⟩ := by
  by_cases type : e.eventType = .migrate
  · simp only [handleEvent, type] at done
    exact unmarked_migrate unmarked done
  · obtain ⟨switched, moves⟩ : ∃ switched, Moves false e ⟨s, none, false⟩ ⟨t, none, switched⟩ :=
      handle_moves (by simp) type done
    have after := moves_keep (fun _ _ => unmarked_move) moves unmarked
    exact ⟨after.frames, after.stored, after.hand⟩

theorem unmarked_run {ls : List Line} {r t : Run} (unmarked : Unmarked ⟨r.state, none, false⟩)
    (done : r.lines ls = some t) : Unmarked ⟨t.state, none, false⟩ := by
  refine run_rule (P := fun s => Unmarked ⟨s, none, false⟩) ?_ ?_ ?_ unmarked done
  · exact fun s _ _ _ same => ⟨same.frames, same.stored, same.hand⟩
  · exact fun r before => ⟨by simp [Run.resetOnEOD, State.stackOf], before.stored, by simp⟩
  · exact fun e s t before handled => unmarked_handle before handled

theorem unmarked_initial : Unmarked ⟨.initial, none, false⟩ :=
  ⟨by simp [State.initial, State.stackOf], by simp [State.initial, State.instances], by simp⟩

theorem records_unmarked {s : State} (unmarked : Unmarked ⟨s, none, false⟩) (l : LEU) (n : String) :
    s.serviceRecords l n = (s.services l n).map fun es => (es, []) := by
  unfold State.serviceRecords State.services
  rw [List.filter_map, List.filter_map, List.map_map]
  refine List.map_congr_left fun i kept => ?_
  simp [unmarked.stored l n i (List.mem_filter.mp kept).1]

/-- The instances of a well-nested trace are its brackets, and the packet ids of an instance are
    those of the packet operations between its ends exactly when there is no such operation. -/
theorem packet_ids_iff (c : Fin 2) (file : List String) (lines : ∀ l ∈ file.map lexLine, l.OnCPU c)
    (ok : WellFormed (entriesOf c (file.map lexLine))) :
    ∃ r, run file = some r ∧ ∀ l, ∃ (brackets : List (Pair Kind Entry)) (ids : Pair Kind Entry → List Int),
      brackets.Nodup ∧
      (∀ p, p ∈ brackets ↔
        Matched shown ((execution (entriesOf c (file.map lexLine))).word l) p ∧ p.kind ≠ .loop) ∧
      (∀ n, r.state.serviceRecords l n =
        (brackets.filter fun p => decide (bracketName p.kind p.opening = n)).map fun p =>
          (bracketEntries p, ids p)) ∧
      ∀ p ∈ brackets, ∀ u, Between ((execution (entriesOf c (file.map lexLine))).word l) p u →
        ((ids p).map toString = packetIdsOf u ↔ packetIdsOf u = []) := by
  obtain ⟨r, done, follows⟩ := follows_run lines ok
  refine ⟨r, done, fun l => ?_⟩
  obtain ⟨brackets, nodup, members, named⟩ := completed_brackets (entries_sorted c _) l (ok.nested l)
  refine ⟨brackets, fun _ => [], nodup, members, fun n => ?_, fun p _ u _ => ?_⟩
  · rw [records_unmarked (unmarked_run unmarked_initial done), follows.tracks.stored]
    have stored : (execution (entriesOf c (file.map lexLine))).picture.done l n = _ := named n
    rw [stored, List.map_map]
    rfl
  · rw [List.map_nil, eq_comm]

def queuedPacket : List String :=
  ["CTXSW 0 1 1 1 2 0 0 a", "SRVENTRY 0 2 2 0 0 0 f a", "PKTQUEUE 0 2 3 0 1 5 0 a", "SRVEXIT 0 2 4 0 0 0 f a",
   "SRVENTRY 0 2 5 0 0 0 g a", "SRVEXIT 0 2 6 0 0 0 g a"]

theorem queued_packet_ok : (∀ l ∈ queuedPacket.map lexLine, l.OnCPU 0) ∧
    WellFormed (entriesOf 0 (queuedPacket.map lexLine)) := by
  have all : (∀ l ∈ queuedPacket.map lexLine, l.OnCPU 0) ∧
      (∀ l ∈ (leusOf (entriesOf 0 (queuedPacket.map lexLine))).dedup,
        check [] ((execution (entriesOf 0 (queuedPacket.map lexLine))).word l) = some []) ∧
      TransitionRuns.Guarded (fun x e => some (x.step e)) Orderly .initial
        (entriesOf 0 (queuedPacket.map lexLine)) := by decide +kernel
  exact ⟨all.1, nested_of_check all.2.1, all.2.2⟩

theorem packet_ids_iff_queued : ∃ r, run queuedPacket = some r ∧
    ∃ (brackets : List (Pair Kind Entry)) (ids : Pair Kind Entry → List Int),
      r.state.serviceRecords (.thread 2) "g" =
        (brackets.filter fun p => decide (bracketName p.kind p.opening = "g")).map fun p =>
          (bracketEntries p, ids p) := by
  obtain ⟨r, done, stored⟩ := packet_ids_iff 0 queuedPacket queued_packet_ok.1 queued_packet_ok.2
  obtain ⟨brackets, ids, _, _, records, _⟩ := stored (.thread 2)
  exact ⟨r, done, brackets, ids, records "g"⟩

theorem queued_packet_id_lost : ∃ r, run queuedPacket = some r ∧
    ((r.state.serviceRecords (.thread 2) "f").map fun i => (i.1.map fun e => (e.eventType, e.packetId), i.2)) =
      [([(.srventry, "0"), (.pktqueue, "5"), (.srvexit, "0")], [])] := by
  have ends : ∀ r ∈ run queuedPacket,
      ((r.state.serviceRecords (.thread 2) "f").map fun i => (i.1.map fun e => (e.eventType, e.packetId), i.2)) =
        [([(.srventry, "0"), (.pktqueue, "5"), (.srvexit, "0")], [])] := by decide +kernel
  obtain ⟨r, done⟩ := Option.isSome_iff_exists.mp (by decide +kernel : (run queuedPacket).isSome)
  exact ⟨r, done, ends r done⟩

end Analyse
