import Mathlib.Data.List.Nodup
import SepExtract.TracerKernel
import SepExtract.TransitionRuns

/- The calls of trace_entry in their atomic steps: the active check, the reservation of a slot,
   and the write to it or, on a full buffer, the switch of tracing_active and the request for
   a wake-up. Any number of callers are at any of these points at once. -/
namespace TracerSlots
open TracerKernel

inductive Phase where
  | idle
  | checked (e : Sepentry)
  | reserved (e : Sepentry) (a : Nat)
  | full
  | disabled
  deriving DecidableEq, Repr

variable {C : Type} [DecidableEq C]

structure Slots (C : Type) where
  kernel : Tracer
  phase : C → Phase
  /-- the slots written since the last reset, in order -/
  written : List Nat

def Slots.initial (numEntries : Nat) (memory : Nat → Sepentry) : Slots C :=
  ⟨initializeTracer numEntries memory, fun _ => .idle, []⟩

def Slots.goTo (s : Slots C) (c : C) (p : Phase) : Slots C := { s with phase := Function.update s.phase c p }

def Slots.advance (s : Slots C) (c : C) : Option (Slots C) :=
  let k := s.kernel
  match s.phase c with
  | .idle => none
  | .checked e =>
    let a := k.lastentry + 1
    some ({ s with kernel := { k with lastentry := a } }.goTo c (if a > k.availEntries then .full else .reserved e a))
  | .reserved e a =>
    let kernel := { k with entries := Function.update k.entries (a - 1) e }
    some ({ s with kernel := kernel, written := s.written ++ [a - 1] }.goTo c .idle)
  | .full => some ({ s with kernel := { k with tracingActive := false } }.goTo c .disabled)
  | .disabled =>
    let calls := if k.taskletScheduled then k.pendingCalls else k.pendingCalls + 1
    some ({ s with kernel := { k with taskletScheduled := true, pendingCalls := calls } }.goTo c .idle)

def Phase.writing : Phase → Bool
  | .checked _ | .reserved _ _ => true
  | _ => false

inductive Action (C : Type) where
  | call (c : C) (e : Sepentry)
  | advance (c : C)
  | stopTracing
  | reset (command : Command) (pid : Nat)

/-- The resets of nl_rcv_func; the ID entries that follow START_TRACING are calls of their own. -/
def Slots.receive (s : Slots C) (pid : Nat) : Command → Slots C
  | .startTracing =>
    { s with kernel := { s.kernel with usPid := pid, lastentry := 0, tracingActive := true }, written := [] }
  | .stopTracing =>
    { s with
      kernel := { s.kernel with usPid := pid, taskletScheduled := false, tracingActive := false,
                                lastread := 0, lastentry := 0 }
      written := [] }
  | .syncComplete =>
    if s.kernel.tracingActive then { s with kernel := { s.kernel with usPid := pid } }
    else
      { s with
        kernel := { s.kernel with usPid := pid, lastread := 0, lastentry := 0, taskletScheduled := false,
                                  tracingActive := true }
        written := [] }
  | .requestEntry => { s with kernel := (requestEntry { s.kernel with usPid := pid }).1 }

def step (s : Slots C) : Action C → Option (Slots C)
  | .call c e =>
    if s.phase c = .idle then some (if s.kernel.ignores e then s else s.goTo c (.checked e)) else none
  | .advance c => s.advance c
  | .stopTracing => some { s with kernel := TracerKernel.stopTracing s.kernel }
  | .reset command pid => some (s.receive pid command)

/-- The messages that reset come when no call is between its check and its slot write. -/
def ResetsBetween (s : Slots C) : Action C → Prop
  | .reset _ _ => ∀ c, (s.phase c).writing = false
  | _ => True

structure Kept (s : Slots C) : Prop where
  below : ∀ i ∈ s.written, i < min s.kernel.lastentry s.kernel.availEntries
  once : s.written.Nodup
  reserved : ∀ c e a, s.phase c = .reserved e a →
    0 < a ∧ a ≤ min s.kernel.lastentry s.kernel.availEntries ∧ a - 1 ∉ s.written
  apart : ∀ c d e f a, s.phase c = .reserved e a → s.phase d = .reserved f a → c = d
  filled : ∀ i < min s.kernel.lastentry s.kernel.availEntries,
    i ∈ s.written ∨ ∃ c e, s.phase c = .reserved e (i + 1)
  switched : s.kernel.availEntries < s.kernel.lastentry →
    s.kernel.tracingActive = false ∨ ∃ c, s.phase c = .full

section Steps
variable {s t : Slots C} {c : C}

theorem phase_goTo (s : Slots C) (c d : C) (p : Phase) : (s.goTo c p).phase d = if d = c then p else s.phase d := by
  simp only [Slots.goTo, Function.update_apply]

omit [DecidableEq C] in
theorem kept_kernel {k : Tracer} (kept : Kept s) (avail : k.availEntries = s.kernel.availEntries)
    (last : k.lastentry = s.kernel.lastentry)
    (active : k.tracingActive = true → s.kernel.tracingActive = true) : Kept { s with kernel := k } := by
  refine ⟨?_, kept.once, ?_, kept.apart, ?_, ?_⟩
  · simp only [avail, last]
    exact kept.below
  · simp only [avail, last]
    exact kept.reserved
  · simp only [avail, last]
    exact kept.filled
  · simp only [avail, last]
    intro beyond
    rcases kept.switched beyond with off | busy
    · left
      by_contra on
      have before := active (by simpa using on)
      rw [off] at before
      cases before
    · exact Or.inr busy

theorem kept_goTo {p : Phase} (kept : Kept s) (before : ∀ e a, s.phase c ≠ .reserved e a)
    (after : ∀ e a, p ≠ .reserved e a)
    (noticed : s.phase c = .full → p = .full ∨ s.kernel.tracingActive = false) : Kept (s.goTo c p) := by
  have same : ∀ d e a, (s.goTo c p).phase d = .reserved e a ↔ s.phase d = .reserved e a := by
    intro d e a
    rw [phase_goTo]
    split
    · rename_i here
      subst here
      exact ⟨fun at' => absurd at' (after e a), fun at' => absurd at' (before e a)⟩
    · exact Iff.rfl
  refine ⟨kept.below, kept.once, ?_, ?_, ?_, ?_⟩
  · intro d e a at'
    exact kept.reserved d e a ((same d e a).mp at')
  · intro d d' e f a at' there
    exact kept.apart d d' e f a ((same d e a).mp at') ((same d' f a).mp there)
  · intro i inside
    rcases kept.filled i inside with old | ⟨d, e, at'⟩
    · exact Or.inl old
    · exact Or.inr ⟨d, e, (same d e _).mpr at'⟩
  · intro beyond
    rcases kept.switched beyond with off | ⟨d, busy⟩
    · exact Or.inl off
    · by_cases here : d = c
      · subst here
        rcases noticed busy with still | off
        · exact Or.inr ⟨d, by rw [phase_goTo, if_pos rfl]; exact still⟩
        · exact Or.inl off
      · exact Or.inr ⟨d, by rw [phase_goTo, if_neg here]; exact busy⟩

theorem kept_beyond {e : Sepentry} (kept : Kept s) (checked : s.phase c = .checked e)
    (beyond : s.kernel.lastentry + 1 > s.kernel.availEntries) :
    Kept (Slots.goTo { s with kernel := { s.kernel with lastentry := s.kernel.lastentry + 1 } } c .full) := by
  have free : ∀ f a, s.phase c ≠ .reserved f a := by simp [checked]
  have same : min (s.kernel.lastentry + 1) s.kernel.availEntries = min s.kernel.lastentry s.kernel.availEntries := by
    omega
  have others : ∀ d f a, (Slots.goTo { s with kernel := { s.kernel with lastentry := s.kernel.lastentry + 1 } } c
      .full).phase d = .reserved f a → s.phase d = .reserved f a := by
    intro d f a at'
    rw [phase_goTo] at at'
    split at at'
    · cases at'
    · exact at'
  refine ⟨?_, kept.once, ?_, ?_, ?_, ?_⟩
  · intro i member
    exact lt_of_lt_of_eq (kept.below i member) same.symm
  · intro d f a at'
    obtain ⟨pos, bound, out⟩ := kept.reserved d f a (others d f a at')
    exact ⟨pos, le_of_le_of_eq bound same.symm, out⟩
  · intro d d' f g a at' there
    exact kept.apart d d' f g a (others d f a at') (others d' g a there)
  · intro i inside
    rcases kept.filled i (lt_of_lt_of_eq inside same) with old | ⟨d, f, at'⟩
    · exact Or.inl old
    · refine Or.inr ⟨d, f, ?_⟩
      rw [phase_goTo, if_neg]
      · exact at'
      · rintro rfl
        exact free f _ at'
  · exact fun _ => Or.inr ⟨c, by rw [phase_goTo, if_pos rfl]⟩

theorem kept_slot {e : Sepentry} (kept : Kept s) (checked : s.phase c = .checked e)
    (within : ¬ s.kernel.lastentry + 1 > s.kernel.availEntries) :
    Kept (Slots.goTo { s with kernel := { s.kernel with lastentry := s.kernel.lastentry + 1 } } c
      (.reserved e (s.kernel.lastentry + 1))) := by
  have free : ∀ f a, s.phase c ≠ .reserved f a := by simp [checked]
  have before : min s.kernel.lastentry s.kernel.availEntries = s.kernel.lastentry := by omega
  have after : min (s.kernel.lastentry + 1) s.kernel.availEntries = s.kernel.lastentry + 1 := by omega
  have below := kept.below
  have reserved := kept.reserved
  have filled := kept.filled
  simp only [before] at below reserved filled
  have cases' : ∀ d f a, (Slots.goTo { s with kernel := { s.kernel with lastentry := s.kernel.lastentry + 1 } } c
      (.reserved e (s.kernel.lastentry + 1))).phase d = .reserved f a →
      (d = c ∧ a = s.kernel.lastentry + 1) ∨ (d ≠ c ∧ s.phase d = .reserved f a) := by
    intro d f a at'
    rw [phase_goTo] at at'
    split at at'
    · rename_i here
      obtain ⟨_, same⟩ := Phase.reserved.inj at'
      exact Or.inl ⟨here, same.symm⟩
    · rename_i other
      exact Or.inr ⟨other, at'⟩
  refine ⟨?_, kept.once, ?_, ?_, ?_, ?_⟩
  · intro i member
    exact lt_of_lt_of_eq (Nat.lt_succ_of_lt (below i member)) after.symm
  · intro d f a at'
    change 0 < a ∧ a ≤ min (s.kernel.lastentry + 1) s.kernel.availEntries ∧ a - 1 ∉ s.written
    rw [after]
    rcases cases' d f a at' with ⟨_, rfl⟩ | ⟨_, old⟩
    · exact ⟨by omega, Nat.le_refl _, fun member => Nat.lt_irrefl _ (below _ member)⟩
    · obtain ⟨pos, bound, out⟩ := reserved d f a old
      exact ⟨pos, by omega, out⟩
  · intro d d' f g a at' there
    rcases cases' d f a at' with ⟨rfl, new⟩ | ⟨_, old⟩ <;> rcases cases' d' g a there with ⟨rfl, new'⟩ | ⟨_, old'⟩
    · rfl
    · have bound := (reserved d' g a old').2.1
      omega
    · have bound := (reserved d f a old).2.1
      omega
    · exact kept.apart d d' f g a old old'
  · intro i inside
    change i < min (s.kernel.lastentry + 1) s.kernel.availEntries at inside
    rw [after] at inside
    by_cases new : i = s.kernel.lastentry
    · exact Or.inr ⟨c, e, by rw [phase_goTo, if_pos rfl, new]⟩
    · rcases filled i (by omega) with old | ⟨d, f, at'⟩
      · exact Or.inl old
      · refine Or.inr ⟨d, f, ?_⟩
        rw [phase_goTo, if_neg]
        · exact at'
        · rintro rfl
          exact free f _ at'
  · intro full
    change s.kernel.availEntries < s.kernel.lastentry + 1 at full
    omega

theorem kept_reserve {e : Sepentry} (kept : Kept s) (checked : s.phase c = .checked e)
    (done : s.advance c = some t) : Kept t := by
  simp only [Slots.advance, checked, Option.some.injEq] at done
  subst done
  by_cases beyond : s.kernel.lastentry + 1 > s.kernel.availEntries
  · rw [if_pos beyond]
    exact kept_beyond kept checked beyond
  · rw [if_neg beyond]
    exact kept_slot kept checked beyond

theorem kept_write {e : Sepentry} {a : Nat} (kept : Kept s) (holds : s.phase c = .reserved e a)
    (done : s.advance c = some t) : Kept t := by
  simp only [Slots.advance, holds, Option.some.injEq] at done
  subst done
  obtain ⟨pos, bound, out⟩ := kept.reserved c e a holds
  have others : ∀ d f b, (Slots.goTo { s with
      kernel := { s.kernel with entries := Function.update s.kernel.entries (a - 1) e }
      written := s.written ++ [a - 1] } c .idle).phase d = .reserved f b → d ≠ c ∧ s.phase d = .reserved f b := by
    intro d f b at'
    rw [phase_goTo] at at'
    split at at'
    · cases at'
    · rename_i other
      exact ⟨other, at'⟩
  refine ⟨?_, ?_, ?_, ?_, ?_, ?_⟩
  · intro i member
    rcases List.mem_append.mp member with old | new
    · exact kept.below i old
    · rw [List.mem_singleton.mp new]
      change a - 1 < min s.kernel.lastentry s.kernel.availEntries
      omega
  · refine List.nodup_append.mpr ⟨kept.once, List.nodup_singleton _, ?_⟩
    intro i member j single
    rw [List.mem_singleton.mp single]
    exact fun same => out (same ▸ member)
  · intro d f b at'
    obtain ⟨other, old⟩ := others d f b at'
    obtain ⟨pos', bound', out'⟩ := kept.reserved d f b old
    refine ⟨pos', bound', fun member => ?_⟩
    rcases List.mem_append.mp member with inside | new
    · exact out' inside
    · have same : b = a := by
        have index := List.mem_singleton.mp new
        omega
      subst same
      exact other (kept.apart d c f e b old holds)
  · intro d d' f g b at' there
    exact kept.apart d d' f g b (others d f b at').2 (others d' g b there).2
  · intro i inside
    rcases kept.filled i inside with old | ⟨d, f, at'⟩
    · exact Or.inl (List.mem_append_left _ old)
    · by_cases here : d = c
      · subst here
        obtain ⟨_, same⟩ := Phase.reserved.inj (holds.symm.trans at')
        exact Or.inl (List.mem_append_right _ (List.mem_singleton.mpr (by omega)))
      · exact Or.inr ⟨d, f, by rw [phase_goTo, if_neg here]; exact at'⟩
  · intro beyond
    rcases kept.switched beyond with off | ⟨d, busy⟩
    · exact Or.inl off
    · refine Or.inr ⟨d, ?_⟩
      rw [phase_goTo, if_neg]
      · exact busy
      · rintro rfl
        rw [holds] at busy
        cases busy

theorem kept_advance (kept : Kept s) (done : s.advance c = some t) : Kept t := by
  cases here : s.phase c with
  | idle =>
    simp [Slots.advance, here] at done
  | checked e => exact kept_reserve kept here done
  | reserved e a => exact kept_write kept here done
  | full =>
    simp only [Slots.advance, here, Option.some.injEq] at done
    subst done
    have off : Kept { s with kernel := { s.kernel with tracingActive := false } } :=
      kept_kernel kept rfl rfl fun on => by cases on
    exact kept_goTo off (by simp [here]) (by simp) fun _ => Or.inr rfl
  | disabled =>
    simp only [Slots.advance, here, Option.some.injEq] at done
    subst done
    have asked := kept_kernel kept (k := { s.kernel with
      taskletScheduled := true
      pendingCalls := if s.kernel.taskletScheduled then s.kernel.pendingCalls else s.kernel.pendingCalls + 1 })
      rfl rfl id
    exact kept_goTo asked (by simp [here]) (by simp) fun busy => by
      change s.phase c = .full at busy
      rw [here] at busy
      cases busy

omit [DecidableEq C] in
theorem kept_empty (none : ∀ c, (s.phase c).writing = false) (last : s.kernel.lastentry = 0)
    (written : s.written = []) : Kept s := by
  have free : ∀ c e a, s.phase c ≠ .reserved e a := by
    intro c e a at'
    have busy := none c
    rw [at'] at busy
    cases busy
  refine ⟨by simp [written], by simp [written], fun c e a at' => absurd at' (free c e a),
    fun c d e f a at' => absurd at' (free c e a), ?_, ?_⟩
  · intro i inside
    omega
  · intro beyond
    omega

theorem request_keeps (k : Tracer) : (requestEntry k).1.availEntries = k.availEntries ∧
    (requestEntry k).1.lastentry = k.lastentry ∧ (requestEntry k).1.tracingActive = k.tracingActive := by
  unfold requestEntry
  split
  · exact ⟨rfl, rfl, rfl⟩
  · split <;> exact ⟨rfl, rfl, rfl⟩

omit [DecidableEq C] in
theorem kept_receive {pid : Nat} {command : Command} (kept : Kept s) (none : ∀ c, (s.phase c).writing = false) :
    Kept (s.receive pid command) := by
  cases command with
  | startTracing => exact kept_empty none rfl rfl
  | stopTracing => exact kept_empty none rfl rfl
  | syncComplete =>
    simp only [Slots.receive]
    split
    · exact kept_kernel kept rfl rfl id
    · exact kept_empty none rfl rfl
  | requestEntry =>
    obtain ⟨avail, last, active⟩ := request_keeps { s.kernel with usPid := pid }
    exact kept_kernel kept avail last fun on => by rw [active] at on; exact on

theorem kept_step {a : Action C} (kept : Kept s) (between : ResetsBetween s a) (done : step s a = some t) : Kept t := by
  cases a with
  | call c e =>
    simp only [step, Option.ite_none_right_eq_some, Option.some.injEq] at done
    obtain ⟨idle, rfl⟩ := done
    split
    · exact kept
    · exact kept_goTo kept (by simp [idle]) (by simp) fun busy => by rw [idle] at busy; cases busy
  | advance c => exact kept_advance kept done
  | stopTracing =>
    obtain rfl := Option.some.inj done
    exact kept_kernel kept rfl rfl fun on => by cases on
  | reset command pid =>
    obtain rfl := Option.some.inj done
    exact kept_receive kept between

/-- A call with no other step in between is the call of the model without interleaving. -/
theorem call_alone (e : Sepentry) (idle : s.phase c = .idle) :
    ∃ acts t, TransitionRuns.run step s (.call c e :: acts) = some t ∧ t.kernel = traceEntry s.kernel e ∧
      t.phase = s.phase := by
  have home : ∀ p q, Function.update (Function.update s.phase c p) c q = Function.update s.phase c q :=
    fun p q => Function.update_idem ..
  have back : Function.update s.phase c .idle = s.phase := by rw [← idle, Function.update_eq_self]
  rcases trace_entry_cases s.kernel e with ⟨ignored, eq⟩ | ⟨taken, room, eq⟩ | ⟨taken, full, eq⟩
  · exact ⟨[], s, by simp [TransitionRuns.run, step, idle, ignored], eq.symm, rfl⟩
  · refine ⟨[.advance c, .advance c], ⟨traceEntry s.kernel e, s.phase, s.written ++ [s.kernel.lastentry]⟩, ?_, rfl, rfl⟩
    have inside : ¬ s.kernel.lastentry + 1 > s.kernel.availEntries := by omega
    simp only [TransitionRuns.run, step, idle, taken, if_true, Bool.false_eq_true, if_false, Option.bind_some,
      Slots.advance, Slots.goTo, Function.update_self, home, inside, back, eq, Nat.add_sub_cancel]
  · refine ⟨[.advance c, .advance c, .advance c], ⟨traceEntry s.kernel e, s.phase, s.written⟩, ?_, rfl, rfl⟩
    have beyond : s.kernel.lastentry + 1 > s.kernel.availEntries := by omega
    simp only [TransitionRuns.run, step, idle, taken, if_true, Bool.false_eq_true, if_false, Option.bind_some,
      Slots.advance, Slots.goTo, Function.update_self, home, beyond, back, eq]

end Steps

/-- Every slot written lies in the buffer, none is written twice between two resets, and when
    no call is in progress the slots written are the first ones, up to the cursor or the end. -/
theorem slots_filled {numEntries : Nat} {memory : Nat → Sepentry} {acts : List (Action C)} {s : Slots C}
    (between : TransitionRuns.Guarded step ResetsBetween (.initial numEntries memory) acts)
    (reached : TransitionRuns.run step (.initial numEntries memory) acts = some s) :
    (∀ i ∈ s.written, i < s.kernel.availEntries) ∧ s.written.Nodup ∧
    ((∀ c, s.phase c = .idle) →
      (∀ i, i ∈ s.written ↔ i < min s.kernel.lastentry s.kernel.availEntries) ∧
      (s.kernel.availEntries < s.kernel.lastentry → s.kernel.tracingActive = false)) := by
  have kept : Kept s := TransitionRuns.invariant_of_guarded Kept (fun s a t kept => kept_step kept)
    (kept_empty (fun _ => rfl) rfl rfl) between reached
  refine ⟨fun i member => by have bound := kept.below i member; omega, kept.once, fun quiet => ⟨fun i => ?_, ?_⟩⟩
  · refine ⟨kept.below i, fun inside => ?_⟩
    rcases kept.filled i inside with old | ⟨c, e, at'⟩
    · exact old
    · rw [quiet c] at at'
      cases at'
  · intro beyond
    rcases kept.switched beyond with off | ⟨c, busy⟩
    · exact off
    · rw [quiet c] at busy
      cases busy

theorem slots_filled_race : ∃ s : Slots (Fin 2), TransitionRuns.run step (.initial 1 fun _ => zeroEntry)
    [.reset .startTracing 7, .call 0 zeroEntry, .call 1 zeroEntry, .advance 1, .advance 0, .advance 0, .advance 1,
     .advance 0] = some s ∧ s.kernel.lastentry = 2 ∧ (∀ i, i ∈ s.written ↔ i < 1) ∧ s.kernel.tracingActive = false := by
  have between : TransitionRuns.Guarded step ResetsBetween (Slots.initial (C := Fin 2) 1 fun _ => zeroEntry)
      [.reset .startTracing 7, .call 0 zeroEntry, .call 1 zeroEntry, .advance 1, .advance 0, .advance 0, .advance 1,
       .advance 0] := by
    refine ⟨fun _ => rfl, fun t _ => ?_⟩
    refine ⟨trivial, fun t _ => ⟨trivial, fun t _ => ⟨trivial, fun t _ => ⟨trivial, fun t _ => ⟨trivial, fun t _ =>
      ⟨trivial, fun t _ => ⟨trivial, fun t _ => trivial⟩⟩⟩⟩⟩⟩⟩
  obtain ⟨bound, once, filled⟩ := slots_filled between rfl
  obtain ⟨slots, off⟩ := filled (by decide)
  exact ⟨_, rfl, rfl, slots, off (by decide)⟩

end TracerSlots
