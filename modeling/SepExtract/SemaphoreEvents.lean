import Mathlib.Algebra.BigOperators.Fin
import Mathlib.Data.Fintype.BigOperators
import SepExtract.AnalyseState
import SepExtract.TransitionRuns

/- The counting semaphore of kernel/semaphore.c with its trace events. The event of a call is
   traced before the lock is taken, so that tracing and every locked section are steps of
   their own; a waiting thread takes the lock again whenever schedule_timeout returns. -/
namespace KernelSemaphore
open Analyse (Sync)

inductive TaskState where
  | uninterruptible | interruptible | killable
  deriving DecidableEq, Repr

inductive Signal where
  | none | pending | fatal
  deriving DecidableEq, Repr

def signalPendingState : TaskState → Signal → Bool
  | .interruptible, .pending | .interruptible, .fatal | .killable, .fatal => true
  | _, _ => false

inductive Call where
  | down | downInterruptible | downKillable | downTrylock | downTimeout
  deriving DecidableEq, Repr

def Call.state : Call → TaskState
  | .downInterruptible => .interruptible
  | .downKillable => .killable
  | _ => .uninterruptible

/-- The others wait for MAX_SCHEDULE_TIMEOUT, which never runs out. -/
def Call.limited (call : Call) : Bool := call = .downTimeout

inductive Result where
  | acquired | refused | eintr | etime
  deriving DecidableEq, Repr

/-- Where a thread is. After the event of its call it is about to take the lock; asleep it
    has a waiter on the list, or had one until up was set. -/
inductive Phase where
  | outside
  | enteringDown (call : Call)
  | enteringUp
  | asleep (call : Call) (up : Bool)
  deriving DecidableEq, Repr

variable {T : Type} [DecidableEq T]

structure Semaphore (T : Type) where
  /-- An unsigned int that down_trylock tests as an int. It is taken to stay below 2 ^ 31, where both are the number. -/
  count : Nat
  waitList : List T
  phase : T → Phase
  /-- the events traced -/
  events : List Sync
  /-- what the calls that have returned have returned -/
  results : List Result

def Semaphore.initial (n : Nat) : Semaphore T := ⟨n, [], fun _ => .outside, [], []⟩

def Semaphore.goTo (s : Semaphore T) (t : T) (p : Phase) : Semaphore T :=
  { s with phase := Function.update s.phase t p }

def Semaphore.leave (s : Semaphore T) (t : T) (result : Result) : Semaphore T :=
  { s.goTo t .outside with results := s.results ++ [result] }

/-- One pass of the loop of __down_common, up to schedule_timeout. -/
def Semaphore.pass (s : Semaphore T) (t : T) (call : Call) (signal : Signal) (expired : Bool) : Semaphore T :=
  if signalPendingState call.state signal then { s with waitList := s.waitList.erase t }.leave t .eintr
  else if call.limited && expired then { s with waitList := s.waitList.erase t }.leave t .etime
  else s.goTo t (.asleep call false)

def Semaphore.downCommon (s : Semaphore T) (t : T) (call : Call) (signal : Signal) (expired : Bool) : Semaphore T :=
  { s with waitList := s.waitList ++ [t] }.pass t call signal expired

/-- The locked section of the functions that take the semaphore. -/
def Semaphore.lockDown (s : Semaphore T) (t : T) (call : Call) (signal : Signal) (expired : Bool) : Semaphore T :=
  if s.count > 0 then { s with count := s.count - 1 }.leave t .acquired
  else if call = .downTrylock then s.leave t .refused
  else s.downCommon t call signal expired

def Phase.woken : Phase → Phase
  | .asleep call _ => .asleep call true
  | p => p

def Semaphore.lockUp (s : Semaphore T) (t : T) : Semaphore T :=
  match s.waitList with
  | [] => { s with count := s.count + 1 }.goTo t .outside
  | waiter :: rest => ({ s with waitList := rest }.goTo waiter (s.phase waiter).woken).goTo t .outside

inductive Action (T : Type) where
  | down (t : T) (call : Call)
  | up (t : T)
  | lock (t : T) (signal : Signal) (expired : Bool)
  deriving DecidableEq, Repr

def step (s : Semaphore T) : Action T → Option (Semaphore T)
  | .down t call =>
    if s.phase t = .outside then some { s.goTo t (.enteringDown call) with events := s.events ++ [.semdown] } else none
  | .up t =>
    if s.phase t = .outside then some { s.goTo t .enteringUp with events := s.events ++ [.semup] } else none
  | .lock t signal expired =>
    match s.phase t with
    | .outside => none
    | .enteringDown call => some (s.lockDown t call signal expired)
    | .enteringUp => some (s.lockUp t)
    | .asleep _ true => some (s.leave t .acquired)
    | .asleep call false => some (s.pass t call signal expired)

def Semaphore.traced (s : Semaphore T) : Int := (s.events.map Sync.value).sum

def Semaphore.value (s : Semaphore T) : Int := s.count - s.waitList.length

def Semaphore.failures (s : Semaphore T) : Nat := s.results.countP (· ≠ .acquired)

def Phase.ahead : Phase → Int
  | .enteringDown _ => -1
  | .enteringUp => 1
  | _ => 0

def Semaphore.ahead [Fintype T] (s : Semaphore T) : Int := ∑ t, (s.phase t).ahead

def Call.gaveUp (call : Call) (signal : Signal) (expired : Bool) : Bool :=
  signalPendingState call.state signal || (call.limited && expired)

/-- The lock is taken with the semaphore free, or by a call that goes on waiting for it. -/
def Endures (s : Semaphore T) : Action T → Prop
  | .lock t signal expired =>
    match s.phase t with
    | .enteringDown call => s.count > 0 ∨ (call ≠ .downTrylock ∧ call.gaveUp signal expired = false)
    | .asleep call false => call.gaveUp signal expired = false
    | _ => True
  | _ => True

structure Listed (s : Semaphore T) : Prop where
  nodup : s.waitList.Nodup
  asleep : ∀ t, t ∈ s.waitList ↔ ∃ call, s.phase t = .asleep call false

omit [DecidableEq T] in
theorem listed_initial (n : Nat) : Listed (Semaphore.initial (T := T) n) where
  nodup := List.nodup_nil
  asleep t := by simp [Semaphore.initial]

section Lists
variable {s : Semaphore T} {t : T}

theorem phase_goTo (s : Semaphore T) (t u : T) (p : Phase) :
    (s.goTo t p).phase u = if u = t then p else s.phase u := by
  simp only [Semaphore.goTo, Function.update_apply]

theorem listed_goTo {p : Phase} (listed : Listed s) (awake : ∀ call, s.phase t ≠ .asleep call false)
    (after : ∀ call, p ≠ .asleep call false) : Listed (s.goTo t p) := by
  refine ⟨listed.nodup, fun u => ?_⟩
  rw [phase_goTo]
  change u ∈ s.waitList ↔ _
  rw [listed.asleep u]
  split
  · rename_i same
    subst same
    exact ⟨fun ⟨call, sleeps⟩ => absurd sleeps (awake call), fun ⟨call, sleeps⟩ => absurd sleeps (after call)⟩
  · exact Iff.rfl

theorem listed_leave {result : Result} (listed : Listed s) (awake : ∀ call, s.phase t ≠ .asleep call false) :
    Listed (s.leave t result) :=
  ⟨(listed_goTo (p := .outside) listed awake (by simp)).nodup, (listed_goTo (p := .outside) listed awake (by simp)).asleep⟩

structure Waiting (s : Semaphore T) (t : T) : Prop where
  nodup : s.waitList.Nodup
  member : t ∈ s.waitList
  others : ∀ u, u ≠ t → (u ∈ s.waitList ↔ ∃ call, s.phase u = .asleep call false)

omit [DecidableEq T] in
theorem waiting_of_listed {call : Call} (listed : Listed s) (sleeps : s.phase t = .asleep call false) : Waiting s t :=
  ⟨listed.nodup, (listed.asleep t).mpr ⟨call, sleeps⟩, fun u _ => listed.asleep u⟩

omit [DecidableEq T] in
theorem waiting_added (listed : Listed s) (awake : ∀ call, s.phase t ≠ .asleep call false) :
    Waiting { s with waitList := s.waitList ++ [t] } t := by
  have out : t ∉ s.waitList := fun member => (listed.asleep t).mp member |>.elim fun call sleeps => awake call sleeps
  refine ⟨List.nodup_append.mpr ⟨listed.nodup, List.nodup_singleton t, ?_⟩, by simp, fun u other => ?_⟩
  · intro u member v single
    rw [List.mem_singleton.mp single]
    exact fun same => out (same ▸ member)
  · simp only [List.mem_append, List.mem_singleton, other, or_false]
    exact listed.asleep u

theorem listed_erased {result : Result} (waiting : Waiting s t) :
    Listed ({ s with waitList := s.waitList.erase t }.leave t result) := by
  refine ⟨waiting.nodup.erase t, fun u => ?_⟩
  have phase : ({ s with waitList := s.waitList.erase t }.leave t result).phase u =
      if u = t then .outside else s.phase u := phase_goTo _ t u .outside
  rw [phase]
  change u ∈ s.waitList.erase t ↔ _
  rw [waiting.nodup.mem_erase_iff]
  split
  · rename_i same
    simp [same]
  · rename_i other
    rw [waiting.others u other]
    simp [other]

theorem listed_pass {call : Call} {signal : Signal} {expired : Bool} (waiting : Waiting s t) :
    Listed (s.pass t call signal expired) := by
  unfold Semaphore.pass
  split
  · exact listed_erased waiting
  · split
    · exact listed_erased waiting
    · refine ⟨waiting.nodup, fun u => ?_⟩
      rw [phase_goTo]
      change u ∈ s.waitList ↔ _
      split
      · rename_i same
        simp [same, waiting.member]
      · rename_i other
        exact waiting.others u other

theorem listed_lockUp (listed : Listed s) (entering : s.phase t = .enteringUp) : Listed (s.lockUp t) := by
  unfold Semaphore.lockUp
  split
  · rename_i empty
    have same : Listed { s with count := s.count + 1 } := ⟨listed.nodup, listed.asleep⟩
    exact listed_goTo same (by simp [entering]) (by simp)
  · rename_i waiter rest list
    have nodup := listed.nodup
    rw [list] at nodup
    obtain ⟨out, nodup⟩ := List.nodup_cons.mp nodup
    obtain ⟨call, sleeps⟩ := (listed.asleep waiter).mp (by rw [list]; exact List.mem_cons_self ..)
    have other : t ≠ waiter := by
      rintro rfl
      rw [entering] at sleeps
      cases sleeps
    have removed : Listed ({ s with waitList := rest }.goTo waiter (s.phase waiter).woken) := by
      refine ⟨nodup, fun u => ?_⟩
      rw [phase_goTo, sleeps]
      change u ∈ rest ↔ _
      split
      · rename_i same
        simp [same, out, Phase.woken]
      · rename_i apart
        rw [← listed.asleep u, list, List.mem_cons]
        simp [apart]
    refine listed_goTo removed (fun call' => ?_) (by simp)
    rw [phase_goTo, if_neg other, entering]
    simp

theorem listed_step {a : Action T} {u : Semaphore T} (listed : Listed s) (done : step s a = some u) : Listed u := by
  cases a with
  | down t call =>
    simp only [step, Option.ite_none_right_eq_some, Option.some.injEq] at done
    obtain ⟨outside, rfl⟩ := done
    have moved := listed_goTo (t := t) (p := .enteringDown call) listed (by simp [outside]) (by simp)
    exact ⟨moved.nodup, moved.asleep⟩
  | up t =>
    simp only [step, Option.ite_none_right_eq_some, Option.some.injEq] at done
    obtain ⟨outside, rfl⟩ := done
    have moved := listed_goTo (t := t) (p := .enteringUp) listed (by simp [outside]) (by simp)
    exact ⟨moved.nodup, moved.asleep⟩
  | lock t signal expired =>
    simp only [step] at done
    split at done
    · cases done
    · rename_i call entering
      obtain rfl := Option.some.inj done
      have awake : ∀ other, s.phase t ≠ .asleep other false := by simp [entering]
      unfold Semaphore.lockDown
      split
      · have same : Listed { s with count := s.count - 1 } := ⟨listed.nodup, listed.asleep⟩
        exact listed_leave same awake
      · split
        · exact listed_leave listed awake
        · exact listed_pass (waiting_added listed awake)
    · rename_i entering
      exact Option.some.inj done ▸ listed_lockUp listed entering
    · rename_i call sleeps
      exact Option.some.inj done ▸ listed_leave listed (by simp [sleeps])
    · rename_i call sleeps
      exact Option.some.inj done ▸ listed_pass (waiting_of_listed listed sleeps)

end Lists

section Accounts
variable [Fintype T] {s : Semaphore T} {t : T}

theorem ahead_goTo (s : Semaphore T) (t : T) (p : Phase) :
    (s.goTo t p).ahead = s.ahead + (p.ahead - (s.phase t).ahead) := by
  have moved : (s.goTo t p).ahead + (s.phase t).ahead = s.ahead + p.ahead :=
    TransitionRuns.sum_update Phase.ahead s.phase p (Finset.mem_univ t)
  omega

def Balanced (n : Nat) (s : Semaphore T) : Prop := n + s.traced = s.value - s.failures + s.ahead

omit [Fintype T] in
theorem failures_leave (s : Semaphore T) (t : T) (result : Result) :
    (s.leave t result).failures = s.failures + if result = .acquired then 0 else 1 := by
  simp only [Semaphore.failures, Semaphore.leave, Semaphore.goTo, List.countP_append, List.countP_singleton]
  cases result <;> rfl

omit [Fintype T] in
theorem failures_pass (s : Semaphore T) (t : T) (call : Call) (signal : Signal) (expired : Bool) :
    (s.pass t call signal expired).failures = s.failures + if call.gaveUp signal expired then 1 else 0 := by
  unfold Semaphore.pass Call.gaveUp
  split
  case isTrue pending =>
    rw [failures_leave, pending]
    rfl
  case isFalse none =>
    rw [Bool.eq_false_iff.mpr none, Bool.false_or]
    split
    · rw [failures_leave]
      rfl
    · rfl

omit [Fintype T] in
theorem failures_lockDown (s : Semaphore T) (t : T) (call : Call) (signal : Signal) (expired : Bool) :
    s.failures ≤ (s.lockDown t call signal expired).failures ∧
      ((s.lockDown t call signal expired).failures = s.failures ↔
        s.count > 0 ∨ (call ≠ .downTrylock ∧ call.gaveUp signal expired = false)) := by
  unfold Semaphore.lockDown
  split
  case isTrue free =>
    rw [failures_leave]
    exact ⟨Nat.le_refl _, iff_of_true rfl (.inl free)⟩
  case isFalse taken =>
    split
    case isTrue trylock =>
      rw [failures_leave]
      simp [taken, trylock]
    case isFalse waits =>
      have passed : (s.downCommon t call signal expired).failures =
        s.failures + if call.gaveUp signal expired then 1 else 0 := failures_pass _ t call signal expired
      rw [passed]
      simp [taken, waits]

omit [Fintype T] in
theorem failures_lockUp (s : Semaphore T) (t : T) : (s.lockUp t).failures = s.failures := by
  unfold Semaphore.lockUp
  split <;> rfl

omit [Fintype T] in
theorem failures_step {a : Action T} {u : Semaphore T} (done : step s a = some u) :
    s.failures ≤ u.failures ∧ (u.failures = s.failures ↔ Endures s a) := by
  have quiet : u.failures = s.failures → s.failures ≤ u.failures ∧ (u.failures = s.failures ↔ True) :=
    fun same => ⟨Nat.le_of_eq same.symm, iff_of_true same trivial⟩
  cases a with
  | down t call =>
    simp only [step, Option.ite_none_right_eq_some, Option.some.injEq] at done
    exact quiet (done.2 ▸ rfl)
  | up t =>
    simp only [step, Option.ite_none_right_eq_some, Option.some.injEq] at done
    exact quiet (done.2 ▸ rfl)
  | lock t signal expired =>
    simp only [step] at done
    split at done
    · cases done
    case h_2 call entering =>
      obtain rfl := Option.some.inj done
      simp only [Endures, entering]
      exact failures_lockDown s t call signal expired
    case h_3 entering =>
      obtain rfl := Option.some.inj done
      simp only [Endures, entering]
      exact quiet (failures_lockUp s t)
    case h_4 call sleeps =>
      obtain rfl := Option.some.inj done
      simp only [Endures, sleeps]
      exact quiet (failures_leave s t .acquired)
    case h_5 call sleeps =>
      obtain rfl := Option.some.inj done
      simp only [Endures, sleeps]
      rw [failures_pass]
      simp

theorem ahead_leave (s : Semaphore T) (t : T) (result : Result) :
    (s.leave t result).ahead = s.ahead - (s.phase t).ahead := by
  have moved : (s.leave t result).ahead = (s.goTo t .outside).ahead := rfl
  have none : Phase.outside.ahead = 0 := rfl
  rw [moved, ahead_goTo, none]
  omega

theorem balance_leave {n : Nat} {u : Semaphore T} {result : Result} (balanced : Balanced n s)
    (events : u.events = s.events) (results : u.results = s.results) (phase : u.phase = s.phase)
    (value : u.value = s.value + (s.phase t).ahead + if result = .acquired then 0 else 1) :
    Balanced n (u.leave t result) := by
  have traced : (u.leave t result).traced = s.traced := by
    simp only [Semaphore.traced, Semaphore.leave, Semaphore.goTo, events]
  have failures : u.failures = s.failures := by simp only [Semaphore.failures, results]
  have ahead : u.ahead = s.ahead := by simp only [Semaphore.ahead, phase]
  have worth : (u.leave t result).value = u.value := rfl
  unfold Balanced at balanced ⊢
  rw [traced, worth, value, failures_leave, failures, ahead_leave, ahead, phase]
  split <;> push_cast <;> omega

omit [Fintype T] in
theorem erase_length {l : List T} (member : t ∈ l) : ((l.erase t).length : Int) = l.length - 1 := by
  rw [List.length_erase_of_mem member]
  have filled := List.length_pos_of_mem member
  omega

theorem balance_pass {n : Nat} {u : Semaphore T} {call : Call} {signal : Signal} {expired : Bool}
    (balanced : Balanced n s) (member : t ∈ u.waitList) (events : u.events = s.events)
    (results : u.results = s.results) (phase : u.phase = s.phase)
    (value : u.value = s.value + (s.phase t).ahead) : Balanced n (u.pass t call signal expired) := by
  have erased : ({ u with waitList := u.waitList.erase t } : Semaphore T).value = s.value + (s.phase t).ahead + 1 := by
    rw [← value]
    simp only [Semaphore.value, erase_length member]
    omega
  unfold Semaphore.pass
  split
  · exact balance_leave balanced events results phase erased
  · split
    · exact balance_leave balanced events results phase erased
    · have traced : (u.goTo t (.asleep call false)).traced = s.traced := by
        simp only [Semaphore.traced, Semaphore.goTo, events]
      have failures : (u.goTo t (.asleep call false)).failures = s.failures := by
        simp only [Semaphore.failures, Semaphore.goTo, results]
      have ahead : u.ahead = s.ahead := by simp only [Semaphore.ahead, phase]
      have worth : (u.goTo t (.asleep call false)).value = u.value := rfl
      have none : (Phase.asleep call false).ahead = 0 := rfl
      unfold Balanced at balanced ⊢
      rw [traced, worth, value, failures, ahead_goTo, ahead, phase, none]
      omega

theorem balance_lockDown {n : Nat} {call : Call} {signal : Signal} {expired : Bool} (balanced : Balanced n s)
    (entering : s.phase t = .enteringDown call) : Balanced n (s.lockDown t call signal expired) := by
  have owed : (s.phase t).ahead = -1 := by rw [entering]; rfl
  unfold Semaphore.lockDown
  split
  · rename_i free
    refine balance_leave balanced rfl rfl rfl ?_
    simp only [Semaphore.value, owed, if_true]
    omega
  · split
    · refine balance_leave balanced rfl rfl rfl ?_
      rw [owed]
      simp
    · refine balance_pass balanced (by simp) rfl rfl rfl ?_
      simp only [Semaphore.value, owed, List.length_append, List.length_singleton]
      omega

theorem balance_lockUp {n : Nat} (balanced : Balanced n s) (listed : Listed s) (entering : s.phase t = .enteringUp) :
    Balanced n (s.lockUp t) := by
  have owed : (s.phase t).ahead = 1 := by rw [entering]; rfl
  have none : Phase.outside.ahead = 0 := rfl
  unfold Balanced at balanced
  unfold Semaphore.lockUp
  split
  · rename_i empty
    have worth : ({ s with count := s.count + 1 }.goTo t Phase.outside).value = s.value + 1 := by
      simp only [Semaphore.value, Semaphore.goTo]
      omega
    have ahead : ({ s with count := s.count + 1 } : Semaphore T).ahead = s.ahead := rfl
    have same : ({ s with count := s.count + 1 } : Semaphore T).phase t = s.phase t := rfl
    unfold Balanced
    rw [worth, ahead_goTo, ahead, same, owed, none]
    change n + s.traced = s.value + 1 - s.failures + _
    omega
  · rename_i waiter rest list
    obtain ⟨call, sleeps⟩ := (listed.asleep waiter).mp (by rw [list]; exact List.mem_cons_self ..)
    have other : t ≠ waiter := by
      rintro rfl
      rw [entering] at sleeps
      cases sleeps
    have worth : (({ s with waitList := rest }.goTo waiter (s.phase waiter).woken).goTo t .outside).value = s.value + 1 := by
      simp only [Semaphore.value, Semaphore.goTo, list, List.length_cons]
      omega
    have ahead : ({ s with waitList := rest } : Semaphore T).ahead = s.ahead := rfl
    have same : ({ s with waitList := rest } : Semaphore T).phase waiter = s.phase waiter := rfl
    have before : (({ s with waitList := rest } : Semaphore T).goTo waiter (s.phase waiter).woken).phase t = s.phase t := by
      rw [phase_goTo, if_neg other]
    have unflagged : (s.phase waiter).woken.ahead = (s.phase waiter).ahead := by
      rw [sleeps]
      rfl
    unfold Balanced
    rw [worth, ahead_goTo, ahead_goTo, ahead, same, before, owed, none, unflagged]
    change n + s.traced = s.value + 1 - s.failures + _
    omega

theorem balance_event {n : Nat} {p : Phase} {event : Sync} (balanced : Balanced n s) (outside : s.phase t = .outside)
    (counted : p.ahead = event.value) : Balanced n { s.goTo t p with events := s.events ++ [event] } := by
  have traced : ({ s.goTo t p with events := s.events ++ [event] } : Semaphore T).traced = s.traced + event.value := by
    simp [Semaphore.traced]
  have ahead : ({ s.goTo t p with events := s.events ++ [event] } : Semaphore T).ahead = (s.goTo t p).ahead := rfl
  have none : Phase.outside.ahead = 0 := rfl
  unfold Balanced at balanced ⊢
  rw [traced, ahead, ahead_goTo, outside, none, counted]
  change n + (s.traced + event.value) = s.value - s.failures + _
  omega

theorem balance_step {n : Nat} {a : Action T} {u : Semaphore T} (balanced : Balanced n s) (listed : Listed s)
    (done : step s a = some u) : Balanced n u := by
  cases a with
  | down t call =>
    simp only [step, Option.ite_none_right_eq_some, Option.some.injEq] at done
    obtain ⟨outside, rfl⟩ := done
    exact balance_event balanced outside rfl
  | up t =>
    simp only [step, Option.ite_none_right_eq_some, Option.some.injEq] at done
    obtain ⟨outside, rfl⟩ := done
    exact balance_event balanced outside rfl
  | lock t signal expired =>
    simp only [step] at done
    split at done
    · cases done
    · rename_i call entering
      exact Option.some.inj done ▸ balance_lockDown balanced entering
    · rename_i entering
      exact Option.some.inj done ▸ balance_lockUp balanced listed entering
    · rename_i call sleeps
      obtain rfl := Option.some.inj done
      refine balance_leave balanced rfl rfl rfl ?_
      rw [sleeps]
      simp [Phase.ahead]
    · rename_i call sleeps
      obtain rfl := Option.some.inj done
      refine balance_pass balanced ((listed.asleep t).mpr ⟨call, sleeps⟩) rfl rfl rfl ?_
      rw [sleeps]
      simp [Phase.ahead]

end Accounts

/-- In every state that the calls can reach, the events give the value of the semaphore exactly
    when as many calls of down have failed, or are about to take the lock, as calls of up are
    about to take it; with no call in between, exactly when none has failed, that is, when the lock was never taken by a
    call that found the semaphore taken and did not wait on. -/
theorem semaphore_traced_iff [Fintype T] {n : Nat} {acts : List (Action T)} {s : Semaphore T}
    (reached : TransitionRuns.run step (.initial n) acts = some s) :
    (n + s.traced = s.value ↔ (s.failures : Int) = s.ahead) ∧
    ((∀ t, (s.phase t).ahead = 0) → (n + s.traced = s.value ↔ ∀ result ∈ s.results, result = .acquired)) ∧
    ((∀ result ∈ s.results, result = .acquired) ↔ TransitionRuns.Guarded step Endures (.initial n) acts) := by
  have kept : Listed s ∧ Balanced n s := by
    refine TransitionRuns.invariant_of_run (fun s => Listed s ∧ Balanced n s) ?_ ⟨listed_initial n, ?_⟩ reached
    · rintro s a t ⟨listed, balanced⟩ done
      exact ⟨listed_step listed done, balance_step balanced listed done⟩
    · simp [Balanced, Semaphore.traced, Semaphore.value, Semaphore.failures, Semaphore.ahead, Semaphore.initial,
        Phase.ahead]
  have balance : n + s.traced = s.value - s.failures + s.ahead := kept.2
  have exact : n + s.traced = s.value ↔ (s.failures : Int) = s.ahead := by omega
  have acquired : s.failures = 0 ↔ ∀ result ∈ s.results, result = .acquired := by
    simp [Semaphore.failures, List.countP_eq_zero]
  refine ⟨exact, fun quiet => ?_, ?_⟩
  · have none : s.ahead = 0 := Finset.sum_eq_zero fun t _ => quiet t
    rw [exact, none, ← acquired]
    exact Int.ofNat_eq_zero
  · rw [← acquired]
    exact (TransitionRuns.guarded_iff_unmoved (fun _ => True) Semaphore.failures
      (fun _ _ _ _ done => ⟨trivial, failures_step done⟩) trivial reached).2

theorem semaphore_traced_handover : ∃ s, TransitionRuns.run step (Semaphore.initial (T := Fin 2) 1)
    [.down 0 .down, .lock 0 .none false, .down 1 .downInterruptible, .lock 1 .none false, .up 0, .lock 0 .none false,
     .lock 1 .none false] = some s ∧ (1 : Nat) + s.traced = s.value := by
  have ends : ∃ s, TransitionRuns.run step (Semaphore.initial (T := Fin 2) 1)
      [.down 0 .down, .lock 0 .none false, .down 1 .downInterruptible, .lock 1 .none false, .up 0, .lock 0 .none false,
       .lock 1 .none false] = some s ∧ (∀ t, (s.phase t).ahead = 0) ∧ ∀ result ∈ s.results, result = .acquired :=
    ⟨_, rfl, by decide, by decide⟩
  obtain ⟨s, reached, quiet, acquired⟩ := ends
  exact ⟨s, reached, ((semaphore_traced_iff reached).2.1 quiet).mpr acquired⟩

theorem refused_trylock_is_traced : ¬ ∀ (n : Nat) (acts : List (Action (Fin 1))) (s : Semaphore (Fin 1)),
    TransitionRuns.run step (.initial n) acts = some s → (∀ t, s.phase t = .outside) → n + s.traced = s.value := by
  intro every
  have wrong := every 0 [.down 0 .downTrylock, .lock 0 .none false] _ rfl (by decide)
  revert wrong
  decide

end KernelSemaphore
