import Mathlib.Data.List.Count
import SepExtract.ProbeTables

/- The probes that writes to dynprobes register and cleanup_dynamic_probing removes, over every
   history of writes and every pattern of failed registrations. -/
namespace DynamicProbes
open ProbeTables

def CallAllowed (registered : Probe → Bool) : KernelCall → Prop
  | .register p _ => registered p = false
  | .unregister p => registered p = true

def Allowed (registered : Probe → Bool) : List KernelCall → Prop
  | [] => True
  | c :: calls => CallAllowed registered c ∧ Allowed (c.apply registered) calls

def applyCalls (registered : Probe → Bool) (calls : List KernelCall) : Probe → Bool :=
  calls.foldl KernelCall.apply registered

def slotProbes (s : State) (i : Nat) : List Probe :=
  (if (s.kprobes i).rpAddr ≠ 0 then [.rp i] else []) ++ if (s.kprobes i).jpAddr ≠ 0 then [.jp i] else []

/-- The probes of cleanup_dynamic_probing, in the order of its loop. -/
def cleanupProbes (s : State) : List Probe := (List.range (s.lastprobe + 1)).flatMap (slotProbes s)

def cleanupDynamicProbing (s : State) : State × List KernelCall :=
  let calls := (cleanupProbes s).map KernelCall.unregister
  ({ s with registered := applyCalls s.registered calls }, calls)

def written (ws : List Write) : State := ws.foldl (fun s w => (addProbe s w).1) initialState

def writtenCalls (s : State) : List Write → List KernelCall
  | [] => []
  | w :: ws => (addProbe s w).2.calls ++ writtenCalls (addProbe s w).1 ws

def Malformed (w : Write) : Prop :=
  w.bytes.length > procfsStringsize ∨ w.copied = false ∨ w.address = 0

def Failed (c : KernelCall) : Prop := ∃ p code, c = .register p code ∧ code < 0

def Answered (s : State) (w : Write) : Prop :=
  ((addProbe s w).2.ret < 0 ↔
    (∃ c ∈ (addProbe s w).2.calls, Failed c) ∨ s.lastprobe ≥ maxProbes - 1 ∨ Malformed w) ∧
  ((addProbe s w).2.ret < 0 → (addProbe s w).1.registered = s.registered)

structure Consistent (ws : List Write) : Prop where
  answered : ∀ before w, before ++ [w] <+: ws → Answered (written before) w
  allowed : Allowed (fun _ => false)
    (writtenCalls initialState ws ++ (cleanupDynamicProbing (written ws)).2)
  once : ∀ p, (cleanupDynamicProbing (written ws)).2.count (.unregister p) =
    if (written ws).registered p then 1 else 0
  only : ∀ c ∈ (cleanupDynamicProbing (written ws)).2, ∃ p, c = .unregister p
  gone : (cleanupDynamicProbing (written ws)).1.registered = fun _ => false

def registeredState (s : State) (w : Write) : State :=
  { s with
    kprobes := Function.update s.kprobes s.lastprobe
      (if w.pktidaddress ≠ 0 then ⟨w.address, w.address, w.pktidaddress⟩
        else { s.kprobes s.lastprobe with rpAddr := w.address })
    lastprobe := s.lastprobe + 1
    registered :=
      if w.pktidaddress ≠ 0 then
        (KernelCall.register (.jp s.lastprobe) w.jpCode).apply
          ((KernelCall.register (.rp s.lastprobe) w.rpCode).apply s.registered)
      else (KernelCall.register (.rp s.lastprobe) w.rpCode).apply s.registered }

def attempts (s : State) (w : Write) : List KernelCall :=
  .register (.rp s.lastprobe) w.rpCode ::
    if w.pktidaddress ≠ 0 then [.register (.jp s.lastprobe) w.jpCode] else []

theorem registerProbes_eq (s : State) (w : Write) :
    registerProbes s w = (registeredState s w, (w.bytes.length : Int), attempts s w) := by
  have unsigned : ∀ code : Int, ¬ UInt32.ofInt code < 0 := fun code => UInt32.not_lt_zero
  unfold registerProbes registeredState attempts
  by_cases extra : w.pktidaddress = 0
  · simp [unsigned, extra, State.call]
  · simp [unsigned, extra, State.call]

theorem addProbe_cases (s : State) (w : Write) :
    ((s.lastprobe ≥ maxProbes - 1 ∨ Malformed w) ∧ (addProbe s w).1 = s ∧ (addProbe s w).2.ret = -1 ∧
      (addProbe s w).2.calls = []) ∨
    (s.lastprobe < maxProbes - 1 ∧ ¬ Malformed w ∧ (addProbe s w).1 = registeredState s w ∧
      (addProbe s w).2.ret = w.bytes.length ∧ (addProbe s w).2.calls = attempts s w) := by
  unfold addProbe Malformed
  by_cases long : w.bytes.length > procfsStringsize
  · simp [long]
  cases copied : w.copied with
  | false => simp [long]
  | true =>
    by_cases address : w.address = 0
    · simp [long, address]
    by_cases room : s.lastprobe < maxProbes - 1
    · simp [long, address, room, registerProbes_eq]
    · have full : s.lastprobe ≥ maxProbes - 1 := not_lt.mp room
      simp only [long, address, room, full, if_false, Bool.not_true, Bool.false_eq_true, true_or, true_and]

theorem answered_iff (s : State) (w : Write) : Answered s w ↔ ∀ c ∈ (addProbe s w).2.calls, ¬ Failed c := by
  unfold Answered
  obtain ⟨refused, same, ret, calls⟩ | ⟨room, wellformed, -, ret, calls⟩ := addProbe_cases s w
  · simp only [refused, same, ret, calls, or_true, implies_true, and_true, List.not_mem_nil, false_implies, iff_true]
    decide
  · have open_table : ¬ s.lastprobe ≥ maxProbes - 1 := not_le.mpr room
    have positive : ¬ (w.bytes.length : Int) < 0 := by omega
    simp [ret, positive, open_table, wellformed]

section Calls
variable {registered : Probe → Bool}

theorem allowed_append (first second : List KernelCall) : Allowed registered (first ++ second) ↔
    Allowed registered first ∧ Allowed (applyCalls registered first) second := by
  induction first generalizing registered with
  | nil => simp [Allowed, applyCalls]
  | cons c first ih =>
    simp only [List.cons_append, Allowed, ih, and_assoc]
    rfl

theorem applyCalls_unregister (ps : List Probe) (p : Probe) :
    applyCalls registered (ps.map .unregister) p = (registered p && decide (p ∉ ps)) := by
  induction ps generalizing registered with
  | nil => simp [applyCalls]
  | cons q ps ih =>
    change applyCalls (KernelCall.apply registered (.unregister q)) (ps.map .unregister) p = _
    rw [ih]
    by_cases same : p = q
    · simp [KernelCall.apply, same]
    · simp [KernelCall.apply, same]

theorem allowed_unregister {ps : List Probe} (distinct : ps.Nodup) (live : ∀ p ∈ ps, registered p = true) :
    Allowed registered (ps.map .unregister) := by
  induction ps generalizing registered with
  | nil => trivial
  | cons q ps ih =>
    obtain ⟨fresh, rest⟩ := List.nodup_cons.mp distinct
    refine ⟨live q List.mem_cons_self, ih rest fun p hp => ?_⟩
    have other : p ≠ q := fun same => fresh (same ▸ hp)
    simpa [KernelCall.apply, other] using live p (List.mem_cons_of_mem q hp)

end Calls

section Slots

def slotOf : Probe → Nat
  | .rp i => i
  | .jp i => i

/-- The address in a probe structure; zero until the structure is used. -/
def addrOf (s : State) : Probe → UInt32
  | .rp i => (s.kprobes i).rpAddr
  | .jp i => (s.kprobes i).jpAddr

structure Matching (s : State) : Prop where
  live : ∀ p, s.registered p = true ↔ addrOf s p ≠ 0
  used : ∀ p, addrOf s p ≠ 0 → slotOf p < s.lastprobe

theorem matching_initial : Matching initialState where
  live p := by cases p <;> simp [initialState, addrOf]
  used p := by cases p <;> simp [initialState, addrOf]

theorem mem_slotProbes (s : State) (i : Nat) (p : Probe) : p ∈ slotProbes s i ↔ slotOf p = i ∧ addrOf s p ≠ 0 := by
  cases p <;> simp [slotProbes, slotOf, addrOf, and_comm] <;> grind

theorem slotProbes_nodup (s : State) (i : Nat) : (slotProbes s i).Nodup := by
  unfold slotProbes
  split <;> split <;> simp

theorem cleanupProbes_nodup (s : State) : (cleanupProbes s).Nodup := by
  rw [cleanupProbes, List.nodup_flatMap]
  refine ⟨fun i _ => slotProbes_nodup s i, List.nodup_range.imp fun {i j} different p hi hj => different ?_⟩
  rw [← ((mem_slotProbes s i p).mp hi).1, ((mem_slotProbes s j p).mp hj).1]

theorem mem_cleanupProbes {s : State} (matching : Matching s) (p : Probe) :
    p ∈ cleanupProbes s ↔ s.registered p = true := by
  simp only [cleanupProbes, List.mem_flatMap, List.mem_range, mem_slotProbes, matching.live]
  constructor
  · rintro ⟨i, -, -, addr⟩
    exact addr
  · intro addr
    exact ⟨slotOf p, Nat.lt_succ_of_lt (matching.used p addr), rfl, addr⟩

theorem matching_free {s : State} (matching : Matching s) {p : Probe} (next : slotOf p = s.lastprobe) :
    s.registered p = false := by
  cases live : s.registered p with
  | false => rfl
  | true =>
    have := matching.used p ((matching.live p).mp live)
    omega

theorem attempts_allowed {s : State} (matching : Matching s) (w : Write) :
    Allowed s.registered (attempts s w) := by
  have rp : s.registered (.rp s.lastprobe) = false := matching_free matching rfl
  have jp : s.registered (.jp s.lastprobe) = false := matching_free matching rfl
  unfold attempts
  split
  · refine ⟨rp, ?_, trivial⟩
    simp only [CallAllowed, KernelCall.apply]
    split
    · exact jp
    · simpa using jp
  · exact ⟨rp, trivial⟩

theorem registeredState_registered (s : State) (w : Write) :
    (registeredState s w).registered = applyCalls s.registered (attempts s w) := by
  unfold registeredState attempts
  dsimp only
  split <;> rfl

theorem registeredState_matching {s : State} (matching : Matching s) {w : Write} (wellformed : ¬ Malformed w)
    (succeeded : ∀ c ∈ attempts s w, ¬ Failed c) : Matching (registeredState s w) := by
  have address : w.address ≠ 0 := fun zero => wellformed (.inr (.inr zero))
  have rpCode : ¬ w.rpCode < 0 := fun negative => succeeded _ List.mem_cons_self ⟨_, _, rfl, negative⟩
  have jpCode : w.pktidaddress ≠ 0 → ¬ w.jpCode < 0 := fun extra negative =>
    succeeded (.register (.jp s.lastprobe) w.jpCode) (by simp [attempts, extra]) ⟨_, _, rfl, negative⟩
  have jpFree : (s.kprobes s.lastprobe).jpAddr = 0 := by
    by_contra addr
    exact absurd (matching.used (.jp s.lastprobe) addr) (Nat.lt_irrefl _)
  have updated : ∀ p, addrOf (registeredState s w) p = if p = .rp s.lastprobe then w.address
      else if p = .jp s.lastprobe ∧ w.pktidaddress ≠ 0 then w.address else addrOf s p := by
    intro p
    cases p with
    | rp i =>
      by_cases same : i = s.lastprobe
      · by_cases extra : w.pktidaddress = 0 <;> simp [registeredState, addrOf, same, extra]
      · simp [registeredState, addrOf, same]
    | jp i =>
      by_cases same : i = s.lastprobe
      · by_cases extra : w.pktidaddress = 0 <;> simp [registeredState, addrOf, same, extra]
      · simp [registeredState, addrOf, same]
  constructor
  · intro p
    rw [updated, registeredState_registered]
    have before := matching.live p
    by_cases extra : w.pktidaddress = 0
    · by_cases first : p = .rp s.lastprobe
      · simp [attempts, extra, applyCalls, KernelCall.apply, rpCode, first, address]
      · simp [attempts, extra, applyCalls, KernelCall.apply, rpCode, first, before]
    · by_cases first : p = .rp s.lastprobe
      · simp [attempts, extra, applyCalls, KernelCall.apply, rpCode, jpCode extra, first, address]
      · by_cases second : p = .jp s.lastprobe
        · simp [attempts, extra, applyCalls, KernelCall.apply, rpCode, jpCode extra, second, address]
        · simp [attempts, extra, applyCalls, KernelCall.apply, rpCode, jpCode extra, first, second, before]
  · intro p addr
    rw [updated] at addr
    change slotOf p < s.lastprobe + 1
    split at addr
    · rename_i first
      simp [first, slotOf]
    · split at addr
      · rename_i second
        simp [second.1, slotOf]
      · exact Nat.lt_succ_of_lt (matching.used p addr)

end Slots

section Histories

theorem addProbe_registered (s : State) (w : Write) :
    (addProbe s w).1.registered = applyCalls s.registered (addProbe s w).2.calls := by
  obtain ⟨-, same, -, calls⟩ | ⟨-, -, next, -, calls⟩ := addProbe_cases s w
  · rw [same, calls]
    rfl
  · rw [next, calls, registeredState_registered]

theorem addProbe_matching {s : State} (matching : Matching s) {w : Write}
    (succeeded : ∀ c ∈ (addProbe s w).2.calls, ¬ Failed c) :
    Matching (addProbe s w).1 ∧ Allowed s.registered (addProbe s w).2.calls := by
  obtain ⟨-, same, -, calls⟩ | ⟨-, wellformed, next, -, calls⟩ := addProbe_cases s w
  · rw [same, calls]
    exact ⟨matching, trivial⟩
  · rw [calls] at succeeded ⊢
    rw [next]
    exact ⟨registeredState_matching matching wellformed succeeded, attempts_allowed matching w⟩

theorem writes_matching {s : State} (matching : Matching s) (ws : List Write)
    (succeeded : ∀ c ∈ writtenCalls s ws, ¬ Failed c) :
    Matching (ws.foldl (fun s w => (addProbe s w).1) s) ∧ Allowed s.registered (writtenCalls s ws) := by
  induction ws generalizing s with
  | nil => exact ⟨matching, trivial⟩
  | cons w ws ih =>
    simp only [writtenCalls, List.mem_append] at succeeded
    obtain ⟨now, allowed⟩ := addProbe_matching matching fun c hc => succeeded c (.inl hc)
    obtain ⟨last, later⟩ := ih now fun c hc => succeeded c (.inr hc)
    refine ⟨last, (allowed_append _ _).mpr ⟨allowed, ?_⟩⟩
    rwa [← addProbe_registered]

theorem writes_registered (s : State) (ws : List Write) :
    (ws.foldl (fun s w => (addProbe s w).1) s).registered = applyCalls s.registered (writtenCalls s ws) := by
  induction ws generalizing s with
  | nil => rfl
  | cons w ws ih =>
    rw [List.foldl_cons, ih, addProbe_registered, writtenCalls, applyCalls, applyCalls, applyCalls, List.foldl_append]

theorem mem_writtenCalls {s : State} {ws : List Write} {c : KernelCall} : c ∈ writtenCalls s ws ↔
    ∃ before w, before ++ [w] <+: ws ∧ c ∈ (addProbe (before.foldl (fun s w => (addProbe s w).1) s) w).2.calls := by
  induction ws generalizing s with
  | nil => simp [writtenCalls]
  | cons w ws ih =>
    simp only [writtenCalls, List.mem_append, ih]
    constructor
    · rintro (now | ⟨before, v, happens, later⟩)
      · exact ⟨[], w, by simp, now⟩
      · exact ⟨w :: before, v, by simpa using happens, later⟩
    · rintro ⟨before, v, happens, called⟩
      cases before with
      | nil =>
        obtain rfl : v = w := by simpa using happens
        exact .inl called
      | cons u before =>
        obtain ⟨rfl, rest⟩ := List.cons_prefix_cons.mp happens
        exact .inr ⟨before, v, rest, called⟩

theorem cleanup_consistent {s : State} (matching : Matching s) :
    Allowed s.registered (cleanupDynamicProbing s).2 ∧
    (∀ p, (cleanupDynamicProbing s).2.count (.unregister p) = if s.registered p then 1 else 0) ∧
    (cleanupDynamicProbing s).1.registered = fun _ => false := by
  have distinct := cleanupProbes_nodup s
  have injective : Function.Injective KernelCall.unregister := fun p q same => KernelCall.unregister.inj same
  refine ⟨allowed_unregister distinct fun p hp => (mem_cleanupProbes matching p).mp hp, fun p => ?_, ?_⟩
  · rw [cleanupDynamicProbing, List.count_map_of_injective _ _ injective, distinct.count]
    simp only [mem_cleanupProbes matching]
  · funext p
    simp only [cleanupDynamicProbing, applyCalls_unregister, mem_cleanupProbes matching]
    cases s.registered p <;> rfl

/-- For every history of writes: the answers, the registered probes and the cleanup are as they
    should be exactly if no registration failed. -/
theorem probes_consistent_iff (ws : List Write) :
    Consistent ws ↔ ∀ c ∈ writtenCalls initialState ws, ¬ Failed c := by
  constructor
  · intro consistent c called
    obtain ⟨before, w, happens, called⟩ := mem_writtenCalls.mp called
    exact (answered_iff _ w).mp (consistent.answered before w happens) c called
  · intro succeeded
    obtain ⟨matching, allowed⟩ := writes_matching matching_initial ws succeeded
    obtain ⟨removed, once, gone⟩ := cleanup_consistent matching
    refine ⟨fun before w happens => (answered_iff _ w).mpr fun c called => ?_, ?_, once, ?_, gone⟩
    · exact succeeded c (mem_writtenCalls.mpr ⟨before, w, happens, called⟩)
    · rw [writes_registered] at removed
      exact (allowed_append _ _).mpr ⟨allowed, removed⟩
    · intro c hc
      obtain ⟨p, -, rfl⟩ := List.mem_map.mp hc
      exact ⟨p, rfl⟩

/-- "8000" as an address, for which register_kretprobe returns -22. -/
def refusedWrite : Write := ⟨[56, 48, 48, 48], true, -22, 0⟩

theorem failure_unnoticed : ¬ Consistent [refusedWrite] ∧ (addProbe initialState refusedWrite).2.ret = 4 ∧
    (written [refusedWrite]).registered (.rp 0) = false ∧
    (cleanupDynamicProbing (written [refusedWrite])).2 = [.unregister (.rp 0)] := by
  refine ⟨?_, by decide +kernel, by decide +kernel, by decide +kernel⟩
  intro consistent
  exact absurd (consistent.once (.rp 0)) (by decide +kernel)

end Histories
end DynamicProbes
