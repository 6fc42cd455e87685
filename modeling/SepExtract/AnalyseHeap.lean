import SepExtract.AnalyseRun

/- Sharing in the analyser's heap. Stack elements and stored instances hold pointers, and
   relabelling an entry is seen wherever its pointer is held. While every loop starts again on
   the CPU where it began, the only entries held in two places are context switches and the
   ends of services and interrupts, which no handler changes, and every element begins with an
   opening entry. A loop that starts again on another CPU leaves an empty element there, and
   whatever comes first into it can become the start of an iteration: on an arbitrary run an
   entry held in two places can also be one that was relabelled to be part of a loop. -/
namespace Analyse

def appendTop (r : Ref) : List ServiceStackElement → List ServiceStackElement
  | [] => []
  | top :: rest => { top with entries := top.entries ++ [r] } :: rest

section Operations
variable (s : State) (c c' : Fin 2) (l : LEU)

@[simp] theorem stack_of_alloc (e : Entry) : (s.alloc e).stackOf c l = s.stackOf c l := rfl

@[simp] theorem stack_of_modify (r : Ref) (f : Entry → Entry) :
    (s.modify r f).stackOf c l = s.stackOf c l := rfl

@[simp] theorem stack_of_touch : (s.touch c').stackOf c l = s.stackOf c l := by
  unfold State.stackOf State.touch
  by_cases same : c = c'
  · subst same
    cases s.serviceStack c <;> simp
  · simp [same]

theorem stack_of_set (stack : List ServiceStackElement) :
    (s.setCurrentStack c' stack).stackOf c l =
      if c = c' ∧ l = s.currentLEU c' then stack else s.stackOf c l := by
  unfold State.stackOf State.setCurrentStack
  by_cases same : c = c'
  · subst same
    by_cases current : l = s.currentLEU c
    · simp [current]
    · cases s.serviceStack c <;> simp [current]
  · simp [same]

theorem stack_of_push_entry (r : Ref) :
    (s.pushEntry c' r).stackOf c l =
      if c = c' ∧ l = s.currentLEU c' then appendTop r (s.stackOf c l) else s.stackOf c l := by
  unfold State.pushEntry
  split
  · rename_i empty
    split
    · rename_i here
      obtain ⟨rfl, rfl⟩ := here
      rw [State.currentStack] at empty
      rw [empty]
      rfl
    · rfl
  · rename_i top rest full
    have moved := stack_of_set s c c' l ({ top with entries := top.entries ++ [r] } :: rest)
    refine Eq.trans moved ?_
    split
    · rename_i here
      obtain ⟨rfl, rfl⟩ := here
      rw [State.currentStack] at full
      rw [full]
      rfl
    · rfl

@[simp] theorem push_entry_leu (r : Ref) : (s.pushEntry c r).currentLEU = s.currentLEU := by
  unfold State.pushEntry
  split <;> rfl

@[simp] theorem push_entry_heap (r : Ref) : (s.pushEntry c r).heap = s.heap := by
  unfold State.pushEntry
  split <;> rfl

@[simp] theorem push_entry_leus (r : Ref) : (s.pushEntry c r).leus = s.leus := by
  unfold State.pushEntry
  split <;> rfl

theorem stack_of_push_service (r : Ref) :
    (s.pushService c' r).stackOf c l =
      if c = c' ∧ l = s.currentLEU c' then appendTop r (s.stackOf c l) else s.stackOf c l := by
  have moved := stack_of_push_entry (s.touch c') c c' l r
  rw [stack_of_touch] at moved
  exact moved

@[simp] theorem push_service_leu (r : Ref) : (s.pushService c r).currentLEU = s.currentLEU :=
  push_entry_leu (s.touch c) c r

@[simp] theorem push_service_heap (r : Ref) : (s.pushService c r).heap = s.heap :=
  push_entry_heap (s.touch c) c r

@[simp] theorem push_service_leus (r : Ref) : (s.pushService c r).leus = s.leus :=
  push_entry_leus (s.touch c) c r

@[simp] theorem push_entry_interrupted (r : Ref) : (s.pushEntry c r).interrupted = s.interrupted := by
  unfold State.pushEntry
  split <;> rfl

@[simp] theorem push_service_interrupted (r : Ref) : (s.pushService c r).interrupted = s.interrupted :=
  push_entry_interrupted (s.touch c) c r

@[simp] theorem push_entry_peu (r : Ref) : (s.pushEntry c r).currentPEU = s.currentPEU := by
  unfold State.pushEntry
  split <;> rfl

@[simp] theorem push_service_peu (r : Ref) : (s.pushService c r).currentPEU = s.currentPEU :=
  push_entry_peu (s.touch c) c r

@[simp] theorem touch_leu : (s.touch c).currentLEU = s.currentLEU := rfl

@[simp] theorem alloc_leu (e : Entry) : (s.alloc e).currentLEU = s.currentLEU := rfl

@[simp] theorem set_stack_leu (stack : List ServiceStackElement) :
    (s.setCurrentStack c stack).currentLEU = s.currentLEU := rfl

@[simp] theorem open_service_leu (e : Entry) (name : String) :
    (s.openService c e name).currentLEU = s.currentLEU := by
  simp [State.openService]

@[simp] theorem open_service_leus (e : Entry) (name : String) :
    (s.openService c e name).leus = s.leus := by
  simp only [State.openService, push_service_leus]
  rfl

@[simp] theorem open_service_heap (e : Entry) (name : String) :
    (s.openService c e name).heap = (s.alloc e).heap := by
  simp only [State.openService, push_service_heap]
  rfl

@[simp] theorem open_service_interrupted (e : Entry) (name : String) :
    (s.openService c e name).interrupted = s.interrupted := by
  simp only [State.openService, push_service_interrupted]
  rfl

@[simp] theorem open_service_peu (e : Entry) (name : String) :
    (s.openService c e name).currentPEU = s.currentPEU := by
  simp only [State.openService, push_service_peu]
  rfl

theorem stack_of_open_service (e : Entry) (name : String) (here : e.cpu = c') :
    (s.openService c' e name).stackOf c l =
      if c = c' ∧ l = s.currentLEU c' then ⟨name, [s.next e.cpu], []⟩ :: s.stackOf c l
      else s.stackOf c l := by
  subst here
  simp only [State.openService, stack_of_push_service, stack_of_alloc, stack_of_set, alloc_leu,
    set_stack_leu]
  split
  · rename_i here
    obtain ⟨rfl, rfl⟩ := here
    rfl
  · rfl

end Operations

/-- A list of pointers held by the state: an element of a stack, counted from its bottom,
    or an instance of a service. -/
inductive Place where
  | frame (cpu : Fin 2) (leu : LEU) (depth : Nat)
  | stored (leu : LEU) (service : String) (index : Nat)
  deriving DecidableEq

def entriesAt (stack : List ServiceStackElement) (depth : Nat) : List Ref :=
  (stack.reverse[depth]?).elim [] ServiceStackElement.entries

def State.instances (s : State) (leu : LEU) (service : String) : List LEUentry :=
  ((s.leus leu).map fun m => m service).getD []

def State.held (s : State) : Place → List Ref
  | .frame cpu leu depth => entriesAt (s.stackOf cpu leu) depth
  | .stored leu service index => ((s.instances leu service)[index]?).elim [] LEUentry.entries

theorem entries_at_cons (e : ServiceStackElement) (st : List ServiceStackElement) (d : Nat) :
    entriesAt (e :: st) d = if d = st.length then e.entries else entriesAt st d := by
  unfold entriesAt
  rw [List.reverse_cons]
  split
  · rename_i last
    rw [List.getElem?_append_right (by simp [last])]
    simp [last]
  · rename_i other
    by_cases below : d < st.length
    · rw [List.getElem?_append_left (by simpa using below)]
    · rw [List.getElem?_eq_none (by simp; omega), List.getElem?_eq_none (by simp; omega)]

theorem entries_at_append_top (r : Ref) (st : List ServiceStackElement) (d : Nat) :
    entriesAt (appendTop r st) d = entriesAt st d ∨
      d + 1 = st.length ∧ entriesAt (appendTop r st) d = entriesAt st d ++ [r] := by
  cases st with
  | nil => exact Or.inl rfl
  | cons top rest =>
    simp only [appendTop, entries_at_cons]
    by_cases last : d = rest.length
    · exact Or.inr ⟨by simp [last], by simp [last]⟩
    · exact Or.inl (by simp [last])

/-- What the top keeps when an entry is appended to it holds of the whole stack after it. -/
theorem forall_append_top {P : ServiceStackElement → Prop} {r : Ref} {st : List ServiceStackElement}
    (before : ∀ elem ∈ st, P elem)
    (grows : ∀ top ∈ st.head?, P top → P { top with entries := top.entries ++ [r] }) :
    ∀ elem ∈ appendTop r st, P elem := by
  cases st with
  | nil => exact before
  | cons top rest =>
    intro elem member
    rcases List.mem_cons.mp member with rfl | below
    · exact grows top rfl (before top (List.mem_cons_self ..))
    · exact before elem (List.mem_cons_of_mem top below)

theorem exists_entries_at {elem : ServiceStackElement} {st : List ServiceStackElement} {r : Ref}
    (member : elem ∈ st) (inside : r ∈ elem.entries) : ∃ d, r ∈ entriesAt st d := by
  obtain ⟨d, bound, here⟩ := List.mem_iff_getElem.mp (List.mem_reverse.mpr member)
  refine ⟨d, ?_⟩
  rw [entriesAt, List.getElem?_eq_getElem bound, here]
  exact inside

theorem held_of_frame {s : State} {c : Fin 2} {l : LEU} {elem : ServiceStackElement} {r : Ref}
    (member : elem ∈ s.stackOf c l) (inside : r ∈ elem.entries) : ∃ d, r ∈ s.held (.frame c l d) :=
  exists_entries_at member inside

theorem held_of_instance {s : State} {l : LEU} {n : String} {i : LEUentry} {r : Ref}
    (member : i ∈ s.instances l n) (inside : r ∈ i.entries) : ∃ k, r ∈ s.held (.stored l n k) := by
  obtain ⟨k, bound, here⟩ := List.mem_iff_getElem.mp member
  refine ⟨k, ?_⟩
  rw [State.held, List.getElem?_eq_getElem bound, here]
  exact inside

/-- The types of entries that can be in two places: those that are pushed more than once, and
    unless all loops start again at home those they can be given. -/
def EventType.Shareable (t : EventType) (home : Bool) : Prop :=
  t = .ctxsw ∨ t = .srvexit ∨ t = .hirqexit ∨ home = false ∧ (t = .loopstart ∨ t = .looprstart)

def EventType.Opening (t : EventType) : Prop :=
  t = .srventry ∨ t = .srvqueue ∨ t = .hirqentry ∨ t = .loopstart ∨ t = .looprstart

def State.Valid (s : State) (r : Ref) : Prop := r.index < (s.heap r.cpu).length

def State.Once (s : State) (home : Bool) (rs : List Ref) : Prop :=
  rs.Pairwise fun a b => a = b → (s.deref a).eventType.Shareable home

structure Sound (home : Bool) (s : State) : Prop where
  valid : ∀ p, ∀ r ∈ s.held p, s.Valid r
  once : ∀ p, s.Once home (s.held p)
  unshared : ∀ p q r, r ∈ s.held p → r ∈ s.held q → p ≠ q → (s.deref r).eventType.Shareable home
  heads : home = true → ∀ c l, ∀ elem ∈ s.stackOf c l,
    ∃ h t, elem.entries = h :: t ∧ (s.deref h).eventType.Opening

variable {home : Bool}

theorem valid_frame {s : State} (sound : Sound home s) {c : Fin 2} {l : LEU} {elem : ServiceStackElement} {r : Ref}
    (member : elem ∈ s.stackOf c l) (inside : r ∈ elem.entries) : s.Valid r := by
  obtain ⟨d, held⟩ := held_of_frame member inside
  exact sound.valid (.frame c l d) r held

theorem valid_instance {s : State} (sound : Sound home s) {l : LEU} {n : String} {i : LEUentry} {r : Ref}
    (member : i ∈ s.instances l n) (inside : r ∈ i.entries) : s.Valid r := by
  obtain ⟨k, held⟩ := held_of_instance member inside
  exact sound.valid (.stored l n k) r held

structure Loose (home : Bool) (s : State) (rs : List Ref) : Prop where
  valid : ∀ r ∈ rs, s.Valid r
  once : s.Once home rs
  apart : ∀ r ∈ rs, ∀ p, r ∈ s.held p → (s.deref r).eventType.Shareable home

theorem once_of_deref {s t : State} {rs : List Ref} (once : s.Once home rs)
    (kept : ∀ r ∈ rs, (s.deref r).eventType.Shareable home → (t.deref r).eventType.Shareable home) : t.Once home rs :=
  List.Pairwise.imp_of_mem (fun left _ shared same => kept _ left (shared same)) once

theorem once_nil (s : State) : s.Once home [] := List.Pairwise.nil

theorem once_singleton (s : State) (r : Ref) : s.Once home [r] := List.pairwise_singleton ..

theorem Sound.congr {s t : State} (sound : Sound home s) (heap : t.heap = s.heap)
    (frames : ∀ c l, t.stackOf c l = s.stackOf c l)
    (instances : ∀ l n, t.instances l n = s.instances l n) : Sound home t := by
  have deref : ∀ r, t.deref r = s.deref r := fun r => by simp [State.deref, heap]
  have held : ∀ p, t.held p = s.held p := by
    intro p
    cases p with
    | frame c l d => simp only [State.held, frames]
    | stored l n i => simp only [State.held, instances]
  constructor
  · intro p r member
    rw [held] at member
    have valid := sound.valid p r member
    simpa [State.Valid, heap] using valid
  · intro p
    rw [held]
    exact once_of_deref (sound.once p) fun r _ shared => by rw [deref]; exact shared
  · intro p q r left right apart
    rw [deref]
    exact sound.unshared p q r (held p ▸ left) (held q ▸ right) apart
  · intro all c l elem member
    rw [frames] at member
    obtain ⟨h, t', entries, opening⟩ := sound.heads all c l elem member
    exact ⟨h, t', entries, by rw [deref]; exact opening⟩

theorem valid_of_type {s : State} {r : Ref} (type : (s.deref r).eventType ≠ .other "") : s.Valid r := by
  by_contra invalid
  simp only [State.Valid, Nat.not_lt] at invalid
  simp [State.deref, List.getElem?_eq_none invalid, Entry.blank] at type

theorem deref_alloc {s : State} {e : Entry} {r : Ref} (valid : s.Valid r) :
    (s.alloc e).deref r = s.deref r := by
  unfold State.Valid at valid
  unfold State.deref State.alloc
  by_cases same : r.cpu = e.cpu
  · simp only [same, Function.update_self]
    rw [List.getElem?_append_left (by rw [← same]; exact valid)]
  · simp [same]

theorem deref_alloc_next (s : State) (e : Entry) : (s.alloc e).deref (s.next e.cpu) = e := by
  simp [State.deref, State.alloc, State.next]

theorem valid_alloc {s : State} {e : Entry} {r : Ref} (valid : s.Valid r) : (s.alloc e).Valid r := by
  unfold State.Valid State.alloc at *
  by_cases same : r.cpu = e.cpu
  · simp only [same, Function.update_self, List.length_append]
    rw [same] at valid
    omega
  · simpa [same] using valid

theorem valid_next (s : State) (e : Entry) : (s.alloc e).Valid (s.next e.cpu) := by
  simp [State.Valid, State.alloc, State.next]

theorem sound_alloc {s : State} (sound : Sound home s) (e : Entry) : Sound home (s.alloc e) := by
  have held : ∀ p, (s.alloc e).held p = s.held p := by intro p; cases p <;> rfl
  constructor
  · intro p r member
    exact valid_alloc (sound.valid p r (held p ▸ member))
  · intro p
    rw [held]
    exact once_of_deref (sound.once p) fun r member shared => by
      rw [deref_alloc (sound.valid p r member)]
      exact shared
  · intro p q r left right apart
    rw [held] at left right
    rw [deref_alloc (sound.valid p r left)]
    exact sound.unshared p q r left right apart
  · intro all c l elem member
    obtain ⟨h, t, entries, opening⟩ := sound.heads all c l elem member
    have valid := valid_frame sound member (r := h) (by simp [entries])
    exact ⟨h, t, entries, by rw [deref_alloc valid]; exact opening⟩

theorem loose_next {s : State} (sound : Sound home s) (e : Entry) :
    Loose home (s.alloc e) [s.next e.cpu] := by
  constructor
  · intro r member
    obtain rfl := List.mem_singleton.mp member
    exact valid_next s e
  · exact once_singleton _ _
  · intro r member p inside
    obtain rfl := List.mem_singleton.mp member
    have held : (s.alloc e).held p = s.held p := by cases p <;> rfl
    have valid := sound.valid p _ (held ▸ inside)
    simp [State.Valid, State.next] at valid

theorem loose_congr {s t : State} {rs : List Ref} (loose : Loose home s rs) (heap : t.heap = s.heap)
    (held : ∀ p x, x ∈ t.held p → x ∈ s.held p) : Loose home t rs := by
  have deref : ∀ r, t.deref r = s.deref r := fun r => by simp [State.deref, heap]
  constructor
  · intro r member
    simpa [State.Valid, heap] using loose.valid r member
  · exact once_of_deref loose.once fun r _ shared => by rw [deref]; exact shared
  · intro r member p inside
    rw [deref]
    exact loose.apart r member p (held p r inside)

theorem sound_grow {s t : State} (sound : Sound home s) {rs : List Ref} (loose : Loose home s rs) (spot : Place)
    (heap : t.heap = s.heap)
    (lists : ∀ p, (t.held p).Sublist (s.held p) ∨ p = spot ∧ t.held p = s.held p ++ rs)
    (heads : home = true → ∀ c l, ∀ elem ∈ t.stackOf c l,
      ∃ h rest, elem.entries = h :: rest ∧ (s.deref h).eventType.Opening) : Sound home t := by
  have deref : ∀ r, t.deref r = s.deref r := fun r => by simp [State.deref, heap]
  have valid : ∀ r, s.Valid r → t.Valid r := fun r h => by simpa [State.Valid, heap] using h
  have grown : ∀ p x, x ∈ t.held p → x ∈ s.held p ∨ x ∈ rs ∧ p = spot := by
    intro p x member
    rcases lists p with sub | ⟨here, same⟩
    · exact Or.inl (sub.subset member)
    · rw [same, List.mem_append] at member
      exact member.imp id fun new => ⟨new, here⟩
  constructor
  · intro p r member
    rcases grown p r member with old | ⟨new, _⟩
    · exact valid r (sound.valid p r old)
    · exact valid r (loose.valid r new)
  · intro p
    suffices once : s.Once home (t.held p) from once_of_deref once fun r _ shared => by rw [deref]; exact shared
    rcases lists p with sub | ⟨_, same⟩
    · exact (sound.once p).sublist sub
    · rw [same]
      exact List.pairwise_append.mpr ⟨sound.once p, loose.once,
        fun a old b new equal => loose.apart a (equal ▸ new) p old⟩
  · intro p q r left right apart
    rw [deref]
    rcases grown p r left with oldP | ⟨newP, rfl⟩
    · rcases grown q r right with oldQ | ⟨newQ, _⟩
      · exact sound.unshared p q r oldP oldQ apart
      · exact loose.apart r newQ p oldP
    · rcases grown q r right with oldQ | ⟨_, rfl⟩
      · exact loose.apart r newP q oldQ
      · exact absurd rfl apart
  · intro all c l elem member
    obtain ⟨h, rest, entries, opening⟩ := heads all c l elem member
    exact ⟨h, rest, entries, by rw [deref]; exact opening⟩

theorem heads_append_top {s : State} {st : List ServiceStackElement} {r : Ref}
    (heads : ∀ elem ∈ st, ∃ h t, elem.entries = h :: t ∧ (s.deref h).eventType.Opening) :
    ∀ elem ∈ appendTop r st, ∃ h t, elem.entries = h :: t ∧ (s.deref h).eventType.Opening := by
  refine forall_append_top heads ?_
  rintro top _ ⟨h, t, entries, opening⟩
  exact ⟨h, t ++ [r], by simp [entries], opening⟩

theorem sound_push_entry {s : State} (sound : Sound home s) (c : Fin 2) {r : Ref} (loose : Loose home s [r]) :
    Sound home (s.pushEntry c r) := by
  refine sound_grow sound loose (.frame c (s.currentLEU c) ((s.stackOf c (s.currentLEU c)).length - 1))
    (push_entry_heap s c r) ?_ ?_
  · intro p
    cases p with
    | stored l n i =>
      simp only [State.held, State.instances, push_entry_leus]
      exact Or.inl (List.Sublist.refl _)
    | frame c' l d =>
      simp only [State.held, stack_of_push_entry]
      split
      · rename_i here
        obtain ⟨rfl, rfl⟩ := here
        rcases entries_at_append_top r (s.stackOf c' (s.currentLEU c')) d with old | ⟨last, new⟩
        · exact Or.inl (old ▸ List.Sublist.refl _)
        · exact Or.inr ⟨by simp [← last], new⟩
      · exact Or.inl (List.Sublist.refl _)
  · intro all c' l elem member
    rw [stack_of_push_entry] at member
    split at member
    · exact heads_append_top (sound.heads all c' l) elem member
    · exact sound.heads all c' l elem member

theorem sound_touch {s : State} (sound : Sound home s) (c : Fin 2) : Sound home (s.touch c) :=
  sound.congr rfl (fun c' l => stack_of_touch s c' c l) fun _ _ => rfl

theorem loose_touch {s : State} {rs : List Ref} (loose : Loose home s rs) (c : Fin 2) :
    Loose home (s.touch c) rs := by
  refine loose_congr loose rfl ?_
  intro p x member
  cases p with
  | frame c' l d => simpa [State.held] using member
  | stored l n i => exact member

theorem sound_push {s : State} (sound : Sound home s) (c : Fin 2) {r : Ref} (loose : Loose home s [r]) :
    Sound home (s.pushService c r) :=
  (sound_push_entry (sound_touch sound c) c (loose_touch loose c)).congr rfl (fun _ _ => rfl) fun _ _ => rfl

theorem mem_heap_alloc {s : State} {e a : Entry} {c : Fin 2} (member : a ∈ (s.alloc e).heap c) :
    a ∈ s.heap c ∨ c = e.cpu ∧ a = e := by
  dsimp only [State.alloc] at member
  by_cases here : c = e.cpu
  · subst here
    rw [Function.update_self, List.mem_append, List.mem_singleton] at member
    exact member.imp id fun new => ⟨rfl, new⟩
  · rw [Function.update_of_ne here] at member
    exact Or.inl member

theorem mem_heap_modify {s : State} {r : Ref} {f : Entry → Entry} {c : Fin 2} {a : Entry}
    (member : a ∈ (s.modify r f).heap c) : ∃ b ∈ s.heap c, a = b ∨ a = f b := by
  dsimp only [State.modify] at member
  by_cases here : c = r.cpu
  · subst here
    rw [Function.update_self] at member
    obtain ⟨j, found⟩ := List.mem_iff_getElem?.mp member
    rw [List.getElem?_modify] at found
    obtain ⟨b, old, rfl⟩ := Option.map_eq_some_iff.mp found
    refine ⟨b, List.mem_of_getElem? old, ?_⟩
    split
    · exact Or.inr rfl
    · exact Or.inl rfl
  · rw [Function.update_of_ne here] at member
    exact ⟨a, member, Or.inl rfl⟩

theorem deref_modify_ne {s : State} {r x : Ref} (f : Entry → Entry) (other : x ≠ r) :
    (s.modify r f).deref x = s.deref x := by
  unfold State.deref State.modify
  by_cases same : x.cpu = r.cpu
  · have index : x.index ≠ r.index := fun index => other (by cases x; cases r; simp_all)
    simp [same, Ne.symm index]
  · simp [same]

theorem deref_modify_self {s : State} {r : Ref} (f : Entry → Entry) (valid : s.Valid r) :
    (s.modify r f).deref r = f (s.deref r) := by
  unfold State.Valid at valid
  simp [State.deref, State.modify, List.getElem?_eq_getElem valid]

theorem valid_modify {s : State} {x : Ref} (r : Ref) (f : Entry → Entry) :
    (s.modify r f).Valid x ↔ s.Valid x := by
  unfold State.Valid State.modify
  by_cases same : x.cpu = r.cpu
  · simp [same]
  · simp [same]

theorem deref_modify_keeps {s : State} {r x : Ref} {f : Entry → Entry} {P : Entry → Prop}
    (kept : P (s.deref r) → P (f (s.deref r))) (valid : s.Valid x) (before : P (s.deref x)) :
    P ((s.modify r f).deref x) := by
  by_cases same : x = r
  · subst same
    rw [deref_modify_self f valid]
    exact kept before
  · rw [deref_modify_ne f same]
    exact before

theorem sound_modify {s : State} (sound : Sound home s) (r : Ref) (f : Entry → Entry)
    (shareable : (s.deref r).eventType.Shareable home → (f (s.deref r)).eventType.Shareable home)
    (opening : (s.deref r).eventType.Opening → (f (s.deref r)).eventType.Opening) :
    Sound home (s.modify r f) := by
  have held : ∀ p, (s.modify r f).held p = s.held p := by intro p; cases p <;> rfl
  constructor
  · intro p x member
    exact (valid_modify r f).mpr (sound.valid p x (held p ▸ member))
  · intro p
    rw [held]
    exact once_of_deref (sound.once p) fun x member shared =>
      deref_modify_keeps (P := fun e => e.eventType.Shareable home) shareable (sound.valid p x member) shared
  · intro p q x left right apart
    rw [held] at left right
    exact deref_modify_keeps (P := fun e => e.eventType.Shareable home) shareable (sound.valid p x left)
      (sound.unshared p q x left right apart)
  · intro all c l elem member
    obtain ⟨h, t, entries, first⟩ := sound.heads all c l elem member
    have valid := valid_frame sound member (r := h) (by simp [entries])
    exact ⟨h, t, entries, deref_modify_keeps (P := fun e => e.eventType.Opening) opening valid first⟩

theorem loose_modify {s : State} {rs : List Ref} (loose : Loose home s rs) (r : Ref) (f : Entry → Entry)
    (shareable : (s.deref r).eventType.Shareable home → (f (s.deref r)).eventType.Shareable home) :
    Loose home (s.modify r f) rs := by
  constructor
  · intro x member
    exact (valid_modify r f).mpr (loose.valid x member)
  · exact once_of_deref loose.once fun x member shared =>
      deref_modify_keeps (P := fun e => e.eventType.Shareable home) shareable (loose.valid x member) shared
  · intro x member p inside
    have held : (s.modify r f).held p = s.held p := by cases p <;> rfl
    exact deref_modify_keeps (P := fun e => e.eventType.Shareable home) shareable (loose.valid x member)
      (loose.apart x member p (held ▸ inside))

theorem loose_alloc {s : State} {rs : List Ref} (loose : Loose home s rs) (e : Entry) :
    Loose home (s.alloc e) rs := by
  constructor
  · intro x member
    exact valid_alloc (loose.valid x member)
  · exact once_of_deref loose.once fun x member shared => by
      rw [deref_alloc (loose.valid x member)]
      exact shared
  · intro x member p inside
    have held : (s.alloc e).held p = s.held p := by cases p <;> rfl
    rw [deref_alloc (loose.valid x member)]
    exact loose.apart x member p (held ▸ inside)

theorem loose_shareable {s : State} {r : Ref} (valid : s.Valid r)
    (shareable : (s.deref r).eventType.Shareable home) : Loose home s [r] := by
  constructor
  · intro x member
    obtain rfl := List.mem_singleton.mp member
    exact valid
  · exact once_singleton s r
  · intro x member p _
    obtain rfl := List.mem_singleton.mp member
    exact shareable

theorem pop_cases {s t : State} {c : Fin 2} {elem : ServiceStackElement}
    (popped : s.pop c = some (elem, t)) :
    ∃ rest, s.stackOf c (s.currentLEU c) = elem :: rest ∧ t = s.setCurrentStack c rest := by
  unfold State.pop State.currentStack at popped
  split at popped
  · cases popped
  · rename_i top rest full
    obtain ⟨rfl, rfl⟩ := Prod.mk.inj (Option.some.inj popped)
    exact ⟨rest, full, rfl⟩

theorem pop_top {s : State} {c : Fin 2} {top : ServiceStackElement} {rest : List ServiceStackElement}
    (full : s.stackOf c (s.currentLEU c) = top :: rest) : s.pop c = some (top, s.setCurrentStack c rest) := by
  unfold State.pop State.currentStack
  rw [full]

theorem pushed_top {s : State} {c : Fin 2} {top : ServiceStackElement} {rest : List ServiceStackElement} (r : Ref)
    (full : s.stackOf c (s.currentLEU c) = top :: rest) :
    (s.pushService c r).stackOf c ((s.pushService c r).currentLEU c) =
      { top with entries := top.entries ++ [r] } :: rest := by
  rw [push_service_leu, stack_of_push_service, if_pos ⟨rfl, rfl⟩, full, appendTop]

theorem stack_of_closed (s : State) (c : Fin 2) (r : Ref) (rest : List ServiceStackElement) (c' : Fin 2) (l : LEU) :
    ((s.pushService c r).setCurrentStack c rest).stackOf c' l =
      if c' = c ∧ l = s.currentLEU c then rest else s.stackOf c' l := by
  rw [stack_of_set, push_service_leu, stack_of_push_service]
  split <;> rfl

theorem deref_closed (s : State) (c : Fin 2) (r : Ref) (rest : List ServiceStackElement) (x : Ref) :
    ((s.pushService c r).setCurrentStack c rest).deref x = s.deref x := by
  simp only [State.deref, State.setCurrentStack, push_service_heap]

theorem sound_pop {s t : State} {c : Fin 2} {elem : ServiceStackElement} (sound : Sound home s)
    (popped : s.pop c = some (elem, t)) :
    Sound home t ∧ Loose home t elem.entries ∧
      (home = true → ∃ h rest, elem.entries = h :: rest ∧ (s.deref h).eventType.Opening) := by
  obtain ⟨rest, full, rfl⟩ := pop_cases popped
  have shrunk : ∀ p, (s.setCurrentStack c rest).held p = [] ∨
      (s.setCurrentStack c rest).held p = s.held p ∧ p ≠ .frame c (s.currentLEU c) rest.length := by
    intro p
    cases p with
    | stored l n i => exact Or.inr ⟨rfl, by simp⟩
    | frame c' l d =>
      simp only [State.held, stack_of_set]
      split
      · rename_i here
        obtain ⟨rfl, rfl⟩ := here
        by_cases below : d = rest.length
        · exact Or.inl (by simp [entriesAt, below])
        · exact Or.inr ⟨by rw [full, entries_at_cons, if_neg below], by simpa using below⟩
      · rename_i other
        refine Or.inr ⟨rfl, fun same => other ?_⟩
        obtain ⟨rfl, rfl, _⟩ := Place.frame.inj same
        exact ⟨rfl, rfl⟩
  have top : s.held (.frame c (s.currentLEU c) rest.length) = elem.entries := by
    simp only [State.held, full, entries_at_cons, if_true]
  refine ⟨sound_grow sound (show Loose home s [] from ⟨by simp, once_nil s, by simp⟩) (.frame c (s.currentLEU c) 0)
    rfl ?_ ?_, ⟨?_, ?_, ?_⟩, ?_⟩
  · intro p
    rcases shrunk p with none | ⟨same, _⟩
    · exact Or.inl (none ▸ List.nil_sublist _)
    · exact Or.inl (same ▸ List.Sublist.refl _)
  · intro all c' l elem' member
    rw [stack_of_set] at member
    split at member
    · rename_i here
      obtain ⟨rfl, rfl⟩ := here
      exact sound.heads all _ _ elem' (by rw [full]; exact List.mem_cons_of_mem elem member)
    · exact sound.heads all c' l elem' member
  · intro x member
    exact sound.valid _ x (top ▸ member)
  · have once := sound.once (.frame c (s.currentLEU c) rest.length)
    rw [top] at once
    exact once
  · intro x member p inside
    rcases shrunk p with none | ⟨same, other⟩
    · simp [none] at inside
    · exact sound.unshared p _ x (same ▸ inside) (top ▸ member) other
  · exact fun all => sound.heads all c (s.currentLEU c) elem (by rw [full]; exact List.mem_cons_self ..)

theorem instances_of_store {s t : State} {c : Fin 2} {elem : ServiceStackElement}
    (stored : s.pushServiceToLEU c elem = some t) (l : LEU) (n : String) :
    t.instances l n = if l = s.currentLEU c ∧ n = elem.name
      then s.instances l n ++ [⟨elem.entries, elem.packetIds⟩] else s.instances l n := by
  unfold State.pushServiceToLEU at stored
  dsimp only at stored
  split at stored
  · cases stored
  · rename_i m known
    obtain rfl := Option.some.inj stored
    unfold State.instances
    by_cases leu : l = s.currentLEU c
    · subst leu
      by_cases name : n = elem.name
      · simp [name, known]
      · simp [name, known]
    · simp [leu]

theorem store_keeps {s t : State} {c : Fin 2} {elem : ServiceStackElement}
    (stored : s.pushServiceToLEU c elem = some t) :
    t.heap = s.heap ∧ t.currentLEU = s.currentLEU ∧ t.serviceStack = s.serviceStack ∧
      t.interrupted = s.interrupted ∧ t.tempVars = s.tempVars ∧ t.currentPEU = s.currentPEU ∧
      t.lastAppended = s.lastAppended := by
  unfold State.pushServiceToLEU at stored
  dsimp only at stored
  split at stored
  · cases stored
  · obtain rfl := Option.some.inj stored
    exact ⟨rfl, rfl, rfl, rfl, rfl, rfl, rfl⟩

theorem sound_store {s t : State} {c : Fin 2} {elem : ServiceStackElement} (sound : Sound home s)
    (loose : Loose home s elem.entries) (stored : s.pushServiceToLEU c elem = some t) : Sound home t := by
  obtain ⟨heap, leu, service, _⟩ := store_keeps stored
  have frames : ∀ c' l, t.stackOf c' l = s.stackOf c' l := fun c' l => by
    simp only [State.stackOf, service]
  refine sound_grow sound loose
    (.stored (s.currentLEU c) elem.name (s.instances (s.currentLEU c) elem.name).length) heap ?_ ?_
  · intro p
    cases p with
    | frame c' l d =>
      simp only [State.held, frames]
      exact Or.inl (List.Sublist.refl _)
    | stored l n i =>
      simp only [State.held, instances_of_store stored]
      split
      · rename_i here
        obtain ⟨rfl, rfl⟩ := here
        rcases Nat.lt_trichotomy i (s.instances (s.currentLEU c) elem.name).length with below | rfl | above
        · rw [List.getElem?_append_left below]
          exact Or.inl (List.Sublist.refl _)
        · exact Or.inr ⟨rfl, by simp⟩
        · rw [List.getElem?_eq_none (by simp; omega)]
          exact Or.inl (List.nil_sublist _)
      · exact Or.inl (List.Sublist.refl _)
  · intro all c' l elem' member
    rw [frames] at member
    exact sound.heads all c' l elem' member

theorem sound_push_new {s : State} (sound : Sound home s) (e : Entry) :
    Sound home ((s.alloc e).pushService e.cpu (s.next e.cpu)) :=
  sound_push (sound_alloc sound e) e.cpu (loose_next sound e)

theorem sound_register_call {s : State} (sound : Sound home s) (e : Entry) : Sound home (s.registerCall e) := by
  unfold State.registerCall
  split
  · exact sound
  · exact sound_push_entry (sound_alloc sound e) e.cpu (loose_next sound e)

@[simp] theorem register_call_leu (s : State) (e : Entry) : (s.registerCall e).currentLEU = s.currentLEU := by
  unfold State.registerCall
  split
  · rfl
  · simp [State.alloc]

@[simp] theorem new_service_leu (s : State) (e : Entry) (name : String) :
    (s.pushNewService e name).currentLEU = s.currentLEU := by
  unfold State.pushNewService
  dsimp only
  split
  · exact open_service_leu _ _ e name
  · rw [open_service_leu, register_call_leu]
    rfl

theorem sound_bare {s : State} (sound : Sound false s) (c : Fin 2) (name : String) :
    Sound false (s.setCurrentStack c (⟨name, [], []⟩ :: s.currentStack c)) := by
  refine sound_grow sound (show Loose false s [] from ⟨by simp, once_nil s, by simp⟩) (.frame c (s.currentLEU c) 0)
    rfl (fun p => Or.inl ?_) nofun
  cases p with
  | stored l n i => exact List.Sublist.refl _
  | frame c' l d =>
    simp only [State.held, stack_of_set]
    split
    · rename_i here
      obtain ⟨rfl, rfl⟩ := here
      rw [entries_at_cons]
      split
      · exact List.nil_sublist _
      · exact List.Sublist.refl _
    · exact List.Sublist.refl _

theorem sound_open_here {s : State} (sound : Sound home s) (e : Entry) (name : String)
    (opening : e.eventType.Opening) : Sound home (s.openService e.cpu e name) := by
  have fresh := sound_alloc sound e
  refine sound_grow fresh (loose_next sound e)
    (.frame e.cpu (s.currentLEU e.cpu) (s.stackOf e.cpu (s.currentLEU e.cpu)).length)
    (open_service_heap s e.cpu e name) ?_ ?_
  · intro p
    cases p with
    | stored l n i =>
      simp only [State.held, State.instances, open_service_leus]
      exact Or.inl (List.Sublist.refl _)
    | frame c' l d =>
      simp only [State.held, stack_of_open_service _ _ _ _ e name rfl, stack_of_alloc]
      split
      · rename_i here
        obtain ⟨rfl, rfl⟩ := here
        rw [entries_at_cons]
        split
        · rename_i last
          exact Or.inr ⟨by rw [last], by simp [last, entriesAt]⟩
        · exact Or.inl (List.Sublist.refl _)
      · exact Or.inl (List.Sublist.refl _)
  · intro all c' l elem member
    rw [stack_of_open_service _ _ _ _ e name rfl] at member
    split at member
    · rcases List.mem_cons.mp member with rfl | member
      · exact ⟨s.next e.cpu, [], rfl, by rw [deref_alloc_next]; exact opening⟩
      · exact fresh.heads all c' l elem member
    · exact fresh.heads all c' l elem member

theorem sound_open_service {s : State} (sound : Sound home s) (c : Fin 2) (e : Entry) (name : String)
    (opening : e.eventType.Opening) (here : home = true → e.cpu = c) : Sound home (s.openService c e name) := by
  cases home with
  | true => exact here rfl ▸ sound_open_here sound e name opening
  | false => exact sound_push_new (sound_bare sound c name) e

theorem sound_push_new_service {s : State} (sound : Sound home s) (e : Entry) (name : String)
    (opening : e.eventType.Opening) : Sound home (s.pushNewService e name) := by
  unfold State.pushNewService
  have first := sound_touch sound e.cpu
  dsimp only
  split
  · exact sound_open_here first e name opening
  · exact sound_open_here (sound_register_call first e) e name opening

theorem instances_of_ensure (s : State) (k l : LEU) (n : String) :
    (s.ensureLEU k).instances l n = s.instances l n := by
  unfold State.instances State.ensureLEU
  by_cases same : l = k
  · subst same
    cases s.leus l <;> simp
  · simp [same]

theorem sound_ensure {s : State} (sound : Sound home s) (k : LEU) : Sound home (s.ensureLEU k) :=
  sound.congr rfl (fun _ _ => rfl) (instances_of_ensure s k)

theorem loose_ensure {s : State} {rs : List Ref} (loose : Loose home s rs) (k : LEU) : Loose home (s.ensureLEU k) rs := by
  refine loose_congr loose rfl ?_
  intro p x member
  cases p with
  | frame c l d => exact member
  | stored l n i => simpa [State.held, instances_of_ensure] using member

theorem sound_srvexit {s t : State} {c : Fin 2} {r : Ref} {b : Bool} (sound : Sound home s)
    (loose : Loose home s [r]) (shareable : (s.deref r).eventType.Shareable home)
    (done : handleSRVEXIT s c r = some (t, b)) : Sound home t ∧ t.heap = s.heap := by
  unfold handleSRVEXIT at done
  have pushed := sound_push sound c loose
  have heap := push_service_heap s c r
  dsimp only at done
  split at done
  · obtain ⟨rfl, _⟩ := Prod.mk.inj (Option.some.inj done)
    exact ⟨pushed, heap⟩
  · simp only [bind, Option.bind_eq_some_iff] at done
    obtain ⟨⟨elem, s₁⟩, popped, s₂, stored, eq⟩ := done
    obtain ⟨rfl, _⟩ := Prod.mk.inj (Option.some.inj eq)
    obtain ⟨sound₁, loose₁, _⟩ := sound_pop pushed popped
    obtain ⟨rest, _, rfl⟩ := pop_cases popped
    have sound₂ := sound_store (sound_ensure sound₁ _) (loose_ensure loose₁ _) stored
    have heap₂ : s₂.heap = s.heap := (store_keeps stored).1.trans heap
    have again : Loose home s₂ [r] := by
      refine loose_shareable ?_ ?_
      · simpa [State.Valid, heap₂] using loose.valid r (List.mem_singleton_self r)
      · simpa [State.deref, heap₂] using shareable
    exact ⟨sound_push sound₂ c again, (push_service_heap s₂ c r).trans heap₂⟩

theorem append_to_peu_keeps {P : State → Prop} {s t : State} {r : Ref}
    (filled : ∀ s start duration irq, P s →
      P (s.modify start fun e => { e with peuDuration := duration, peuIRQ := irq }))
    (other : ∀ s peu, P s → P { s with currentPEU := peu }) (holds : P s) (done : s.appendToPEU r = some t) :
    P t := by
  have scan : ∀ (items : List (Ref × Nat)) (s t : State) (a b : PeuScan), P s →
      items.foldlM State.peuStep (s, a) = some (t, b) → P t := by
    intro items
    induction items with
    | nil =>
      intro s t a b holds done
      obtain ⟨rfl, _⟩ := Prod.mk.inj (Option.some.inj done)
      exact holds
    | cons item items ih =>
      intro s t a b holds done
      rw [List.foldlM_cons, Option.bind_eq_bind, Option.bind_eq_some_iff] at done
      obtain ⟨⟨s₁, scan₁⟩, first, rest⟩ := done
      refine ih s₁ t scan₁ b ?_ rest
      simp only [State.peuStep] at first
      split at first
      · obtain ⟨s₂, matched, eq⟩ := Option.map_eq_some_iff.mp first
        obtain ⟨rfl, _⟩ := Prod.mk.inj eq
        simp only [State.peuMatch, bind, Option.bind_eq_some_iff] at matched
        obtain ⟨hit, _, start, _, eq⟩ := matched
        obtain rfl := Option.some.inj eq
        exact other _ _ (filled s start _ _ holds)
      · obtain ⟨rfl, _⟩ := Prod.mk.inj (Option.some.inj first)
        exact holds
  unfold State.appendToPEU at done
  dsimp only at done
  split at done
  · exact Option.some.inj done ▸ holds
  · split at done
    · exact Option.some.inj done ▸ other s _ holds
    · split at done
      · exact Option.some.inj done ▸ holds
      · obtain ⟨⟨s₁, scan₁⟩, scanned, rfl⟩ := Option.map_eq_some_iff.mp done
        exact scan _ _ _ _ _ (other s _ holds) scanned

theorem append_last_keeps {P : State → Prop} {s t : State} {c : Fin 2}
    (filled : ∀ s start duration irq, P s →
      P (s.modify start fun e => { e with peuDuration := duration, peuIRQ := irq }))
    (other : ∀ s peu, P s → P { s with currentPEU := peu }) (holds : P s) (done : s.appendLastToPEU c = some t) :
    P t := by
  unfold State.appendLastToPEU at done
  split at done
  · exact Option.some.inj done ▸ holds
  · obtain ⟨r, _, appended⟩ := Option.bind_eq_some_iff.mp done
    exact append_to_peu_keeps filled other holds appended

theorem sound_append_last {s t : State} {c : Fin 2} (sound : Sound home s)
    (done : s.appendLastToPEU c = some t) : Sound home t :=
  append_last_keeps (fun _ start _ _ sound => sound_modify sound start _ id id)
    (fun _ _ sound => sound.congr rfl (fun _ _ => rfl) fun _ _ => rfl) sound done

theorem sound_set_leu {s : State} (sound : Sound home s) (c : Fin 2) (l : LEU) :
    Sound home (s.setCurrentLEU c l) := sound.congr rfl (fun _ _ => rfl) fun _ _ => rfl

theorem sound_interrupt {s : State} (sound : Sound home s) (c : Fin 2) (nr : Int) :
    Sound home (s.interrupt c nr) := sound.congr rfl (fun _ _ => rfl) fun _ _ => rfl

theorem sound_resume {s : State} (sound : Sound home s) (c : Fin 2) (l : LEU) (rest : List LEU) :
    Sound home (s.resume c l rest) := sound.congr rfl (fun _ _ => rfl) fun _ _ => rfl

theorem loose_again {s t : State} {e : Entry} (heap : t.heap = (s.alloc e).heap)
    (shareable : e.eventType.Shareable home) : Loose home t [s.next e.cpu] := by
  refine loose_shareable ?_ ?_
  · simpa [State.Valid, heap] using valid_next s e
  · have same : t.deref (s.next e.cpu) = e := by
      simpa [State.deref, heap] using deref_alloc_next s e
    rw [same]
    exact shareable

theorem sound_ctxsw {s t : State} {e : Entry} (sound : Sound home s) (type : e.eventType = .ctxsw)
    (done : handleCTXSW s e = some t) : Sound home t := by
  unfold handleCTXSW at done
  obtain rfl := Option.some.inj done
  have switched := sound_set_leu (sound_push_new sound e) e.cpu (.thread e.pid2)
  refine sound_ensure (sound_push switched e.cpu (loose_again ?_ (Or.inl type))) _
  exact push_service_heap (s.alloc e) e.cpu (s.next e.cpu)

theorem sound_hirq_entry {s t : State} {e : Entry} (sound : Sound home s) (type : e.eventType = .hirqentry)
    (done : handleHIRQEntry s e = some t) : Sound home t := by
  unfold handleHIRQEntry at done
  have known := sound_ensure (sound_interrupt (sound_push_new sound e) e.cpu e.pid1)
    (.hardwareInterrupt e.pid1)
  exact sound_append_last (sound_push_new_service known e _ (by rw [type]; simp [EventType.Opening])) done

theorem sound_hirq_exit {s t : State} {e : Entry} (sound : Sound home s) (type : e.eventType = .hirqexit)
    (done : handleHIRQExit s e = some t) : Sound home t := by
  unfold handleHIRQExit at done
  simp only [bind, Option.bind_eq_some_iff] at done
  obtain ⟨⟨s₁, closed⟩, exited, rest⟩ := done
  have shareable : e.eventType.Shareable home := Or.inr (Or.inr (Or.inl type))
  obtain ⟨sound₁, heap⟩ := sound_srvexit (sound_alloc sound e) (loose_next sound e)
    (by rw [deref_alloc_next]; exact shareable) exited
  dsimp only at rest
  split at rest
  · split at rest
    · cases rest
    · rename_i leu others _
      have resumed := sound_push (sound_resume sound₁ e.cpu leu others) e.cpu
        (loose_again (s := s) (e := e) heap shareable)
      exact sound_append_last resumed rest
  · exact Option.some.inj rest ▸ sound₁

theorem sound_loopstart {s t : State} {e : Entry} (sound : Sound home s) (type : e.eventType = .loopstart)
    (done : handleLOOPSTART s e = some t) : Sound home t := by
  unfold handleLOOPSTART at done
  obtain rfl := Option.some.inj done
  have first := sound_touch sound e.cpu
  split
  · exact first
  · exact sound_push_new_service first e _ (by rw [type]; simp [EventType.Opening])

theorem opening_not_shareable {t : EventType} (opening : t.Opening) : ¬ t.Shareable true := by
  rcases opening with rfl | rfl | rfl | rfl | rfl <;> simp [EventType.Shareable]

theorem looping_shareable {t label : EventType} (loop : label = .loopstart ∨ label = .looprstart)
    (opening : home = true → t.Opening) (shared : t.Shareable home) : label.Shareable home := by
  cases home with
  | true => exact absurd shared (opening_not_shareable (opening rfl))
  | false => exact Or.inr (Or.inr (Or.inr ⟨rfl, loop⟩))

/-- The innermost loop that the event starts again has begun on the CPU of the event. -/
def RestartsHome (s : State) (e : Entry) : Prop :=
  e.eventType = .looprstart → ∀ top ∈ (s.currentStack e.cpu).head?, ∀ r ∈ top.entries.head?, (s.deref r).cpu = e.cpu

instance (s : State) (e : Entry) : Decidable (RestartsHome s e) := by
  unfold RestartsHome
  infer_instance

theorem restarted_cpu {s s₁ s₂ : State} {e : Entry} {top service : ServiceStackElement} {first : Ref}
    {below : List ServiceStackElement} (sound : Sound true s) (type : e.eventType = .looprstart)
    (back : RestartsHome s e) (full : (s.touch e.cpu).currentStack e.cpu = top :: below)
    (popped : (((s.touch e.cpu).alloc e).pushService e.cpu ((s.touch e.cpu).next e.cpu)).pop e.cpu = some (service, s₁))
    (head : service.entries.head? = some first)
    (stored : (s₁.modify first fun f => { f with eventType := .loopstart }).pushServiceToLEU e.cpu service = some s₂) :
    (s₂.deref first).cpu = e.cpu := by
  rw [State.currentStack] at full
  have pushed := pop_top (pushed_top ((s.touch e.cpu).next e.cpu)
    (show ((s.touch e.cpu).alloc e).stackOf e.cpu _ = top :: below from full))
  obtain ⟨rfl, rfl⟩ := Prod.mk.inj (Option.some.inj (pushed.symm.trans popped))
  rw [stack_of_touch, touch_leu] at full
  have member : top ∈ s.stackOf e.cpu (s.currentLEU e.cpu) := full ▸ List.mem_cons_self ..
  obtain ⟨h, tail, entries, _⟩ := sound.heads rfl e.cpu _ top member
  obtain rfl : h = first := by simpa [entries] using head
  have valid := valid_frame sound member (r := h) (by simp [entries])
  have copied : ∀ r, (((s.touch e.cpu).alloc e).pushService e.cpu ((s.touch e.cpu).next e.cpu)).deref r =
      ((s.touch e.cpu).alloc e).deref r := fun r => by simp only [State.deref, push_service_heap]
  have kept : (s₂.deref h).cpu = (s.deref h).cpu := by
    rw [State.deref, (store_keeps stored).1]
    refine deref_modify_keeps (P := fun x => x.cpu = (s.deref h).cpu) id ?_ ?_
    · simpa only [State.Valid, State.setCurrentStack, push_service_heap] using valid_alloc (s := s.touch e.cpu) valid
    · exact (congrArg Entry.cpu (copied h)).trans (congrArg Entry.cpu (deref_alloc (s := s.touch e.cpu) valid))
  rw [kept]
  exact back type top (by rw [State.currentStack, full]; rfl) h (by rw [entries]; rfl)

theorem sound_looprstart {s t : State} {e : Entry} (sound : Sound home s) (type : e.eventType = .looprstart)
    (back : home = true → RestartsHome s e) (done : handleLOOPRSTART s e = some t) : Sound home t := by
  unfold handleLOOPRSTART at done
  have touched := sound_touch sound e.cpu
  dsimp only at done
  split at done
  · exact Option.some.inj done ▸ touched
  · rename_i top below full
    simp only [bind, Option.bind_eq_some_iff] at done
    obtain ⟨last, _, rest⟩ := done
    split at rest
    · rename_i start
      obtain rfl := Option.some.inj rest
      refine sound_modify touched last _ (looping_shareable (Or.inr rfl) fun _ => ?_) fun _ => by simp [EventType.Opening]
      simp [start, EventType.Opening]
    · simp only [Option.bind_eq_some_iff] at rest
      obtain ⟨⟨service, s₁⟩, popped, first, head, s₂, stored, eq⟩ := rest
      obtain rfl := Option.some.inj eq
      obtain ⟨sound₁, loose₁, heads⟩ := sound_pop (sound_push_new touched e) popped
      obtain ⟨_, _, rfl⟩ := pop_cases popped
      have opening : home = true → ((((s.touch e.cpu).alloc e).pushService e.cpu
          ((s.touch e.cpu).next e.cpu)).deref first).eventType.Opening := by
        intro all
        obtain ⟨h, tail, entries, opening⟩ := heads all
        obtain rfl : first = h := by simpa [entries] using head.symm
        exact opening
      have relabelled := sound_modify sound₁ first (fun f => { f with eventType := .loopstart })
        (looping_shareable (Or.inl rfl) opening) fun _ => by simp [EventType.Opening]
      have stored_sound := sound_store relabelled
        (loose_modify loose₁ first _ (looping_shareable (Or.inl rfl) opening)) stored
      refine sound_open_service stored_sound e.cpu _ _ (by simp [EventType.Opening]) fun all => ?_
      subst all
      exact restarted_cpu sound type (back rfl) full popped head stored

theorem loose_snoc {s : State} {rs : List Ref} (sound : Sound home s) (loose : Loose home s rs) (e : Entry) :
    Loose home (s.alloc e) (rs ++ [s.next e.cpu]) := by
  have old := loose_alloc loose e
  have new := loose_next sound e
  constructor
  · intro r member
    rcases List.mem_append.mp member with left | right
    · exact old.valid r left
    · exact new.valid r right
  · refine List.pairwise_append.mpr ⟨old.once, new.once, fun a left b right same => ?_⟩
    have valid := loose.valid a left
    rw [same, List.mem_singleton.mp right] at valid
    simp [State.Valid, State.next] at valid
  · intro r member
    rcases List.mem_append.mp member with left | right
    · exact old.apart r left
    · exact new.apart r right

theorem sound_store_loop {s t : State} {c : Fin 2} {elem : ServiceStackElement} {head : Ref} (sound : Sound home s)
    (loose : Loose home s elem.entries) (stored : s.storeLoop c elem head = some t) : Sound home t := by
  unfold State.storeLoop at stored
  split at stored
  · rename_i again
    have opening : (s.deref head).eventType.Opening := by simp [again, EventType.Opening]
    refine sound_store (sound_modify sound head _ (looping_shareable (Or.inl rfl) fun _ => opening) fun _ => ?_)
      (loose_modify loose head _ (looping_shareable (Or.inl rfl) fun _ => opening)) stored
    simp [EventType.Opening]
  · exact Option.some.inj stored ▸ sound

theorem sound_loopstop {s t : State} {e : Entry} (sound : Sound home s)
    (done : handleLOOPSTOP s e = some t) : Sound home t := by
  unfold handleLOOPSTOP at done
  have touched := sound_touch sound e.cpu
  dsimp only at done
  split at done
  · exact Option.some.inj done ▸ touched
  · rename_i service s₁ popped
    split at done
    · cases done
    · rename_i head first
      obtain ⟨s₂, stored, rfl⟩ := Option.map_eq_some_iff.mp done
      obtain ⟨sound₁, loose₁, _⟩ := sound_pop touched popped
      have copied := sound_alloc sound₁ { s₁.deref head with eventType := .looprstart, cycles := e.cycles }
      have free := loose_snoc sound₁ loose₁ { s₁.deref head with eventType := .looprstart, cycles := e.cycles }
      exact sound_push_new (sound_store_loop copied free stored) e

theorem sound_push_with_peu {s t : State} {e : Entry} (sound : Sound home s) (done : s.pushWithPEU e = some t) :
    Sound home t := sound_append_last (sound_push_new sound e) done

theorem sound_sync {s t : State} {e : Entry} {operation : Sync} (sound : Sound home s)
    (done : handleSync s e operation = some t) : Sound home t := by
  unfold handleSync at done
  split at done
  · exact sound_push_with_peu sound done
  · rename_i v _
    obtain ⟨s₁, pushed, rfl⟩ := Option.map_eq_some_iff.mp done
    have noted : Sound home ((s.touch e.cpu).noteUser e.cpu v operation) := by
      unfold State.noteUser
      split
      · exact sound_touch sound e.cpu
      · exact sound_modify (sound_touch sound e.cpu) v.entry _ id id
    exact (sound_push_with_peu noted pushed).congr rfl (fun _ _ => rfl) fun _ _ => rfl

theorem sound_pktqueue {s t : State} {e : Entry} (sound : Sound home s) (done : handlePKTQUEUE s e = some t) :
    Sound home t := by
  unfold handlePKTQUEUE State.labelPacket at done
  obtain ⟨labelled, label, rfl⟩ := Option.map_eq_some_iff.mp done
  refine sound_push_new ?_ _
  split at label
  · split at label
    · cases label
    · split at label
      · rename_i last _ packet
        obtain rfl := Option.some.inj label
        refine sound_modify sound last _ (fun shared => ?_) fun opening => ?_
        · rw [packet] at shared
          simp [EventType.Shareable] at shared
        · rw [packet] at opening
          simp [EventType.Opening] at opening
      · exact Option.some.inj label ▸ sound
  · exact Option.some.inj label ▸ sound

theorem sound_move {s t : State} (sound : Sound home s) (source : Place → Place) (heap : t.heap = s.heap)
    (lists : ∀ p, (t.held p).Sublist (s.held (source p)))
    (apart : ∀ p q x, x ∈ t.held p → x ∈ t.held q → source p = source q → p = q)
    (heads : home = true → ∀ c l, ∀ elem ∈ t.stackOf c l,
      ∃ h rest, elem.entries = h :: rest ∧ (s.deref h).eventType.Opening) : Sound home t := by
  have deref : ∀ r, t.deref r = s.deref r := fun r => by simp [State.deref, heap]
  have moved : ∀ p x, x ∈ t.held p → x ∈ s.held (source p) := fun p x member => (lists p).subset member
  constructor
  · intro p r member
    simpa [State.Valid, heap] using sound.valid _ r (moved p r member)
  · intro p
    exact once_of_deref ((sound.once (source p)).sublist (lists p)) fun r _ shared => by rw [deref]; exact shared
  · intro p q r left right other
    rw [deref]
    exact sound.unshared _ _ r (moved p r left) (moved q r right)
      fun same => other (apart p q r left right same)
  · intro all c l elem member
    obtain ⟨h, rest, entries, opening⟩ := heads all c l elem member
    exact ⟨h, rest, entries, by rw [deref]; exact opening⟩

theorem stack_of_migrate {s t : State} {e : Entry} (done : handleMIGRATE s e = some t) :
    t = s ∨ ∃ old new, old ≠ new ∧ t.heap = s.heap ∧ t.leus = s.leus ∧ ∀ c l, t.stackOf c l =
      if l = .thread e.pid1 then
        if c = old then [] else if c = new then s.stackOf old l else s.stackOf c l
      else s.stackOf c l := by
  unfold handleMIGRATE at done
  dsimp only at done
  split at done
  · exact Or.inl (Option.some.inj done).symm
  · rename_i old holds
    split at done
    · cases done
    · rename_i new target
      split at done
      · cases done
      · rename_i m known
        obtain rfl := Option.some.inj done
        have held := List.find?_some holds
        simp only [target, decide_eq_true_eq] at held
        have apart : old ≠ new := fun same => held.1 (by rw [same])
        refine Or.inr ⟨old, new, apart, rfl, rfl, fun c l => ?_⟩
        by_cases old_cpu : c = old
        · subst old_cpu
          by_cases leu : l = .thread e.pid1
          · cases service : s.serviceStack c <;> simp [State.stackOf, leu, service]
          · cases service : s.serviceStack c <;> simp [State.stackOf, leu, service]
        · by_cases new_cpu : c = new
          · subst new_cpu
            by_cases leu : l = .thread e.pid1
            · simp [State.stackOf, leu, old_cpu]
            · simp [State.stackOf, leu, old_cpu, known]
          · by_cases leu : l = .thread e.pid1
            · simp [State.stackOf, leu, old_cpu, new_cpu]
            · simp [State.stackOf, leu, old_cpu, new_cpu]

theorem sound_migrate {s t : State} {e : Entry} (sound : Sound home s) (done : handleMIGRATE s e = some t) :
    Sound home t := by
  rcases stack_of_migrate done with rfl | ⟨old, new, apart, heap, leus, frames⟩
  · exact sound
  · have none_left : ∀ d x, x ∉ t.held (.frame old (.thread e.pid1) d) := by
      intro d x member
      simp [State.held, frames, entriesAt] at member
    let source : Place → Place
      | .frame c l d => if l = .thread e.pid1 ∧ c = new then .frame old l d else .frame c l d
      | .stored l n i => .stored l n i
    refine sound_move sound source heap ?_ ?_ ?_
    · intro p
      cases p with
      | stored l n i =>
        simp only [source, State.held, State.instances, leus]
        exact List.Sublist.refl _
      | frame c l d =>
        have same : t.held (.frame c l d) = entriesAt (t.stackOf c l) d := rfl
        rw [same, frames]
        simp only [source]
        split
        · rename_i leu
          split
          · simp [entriesAt]
          · split
            · rename_i here
              rw [if_pos ⟨leu, here⟩]
              exact List.Sublist.refl _
            · rename_i other
              rw [if_neg fun both => other both.2]
              exact List.Sublist.refl _
        · rename_i other
          rw [if_neg fun both => other both.1]
          exact List.Sublist.refl _
    · intro p q x left right same
      cases p with
      | stored l n i =>
        cases q with
        | stored => simpa [source] using same
        | frame => simp only [source] at same; split at same <;> cases same
      | frame c l d =>
        cases q with
        | stored => simp only [source] at same; split at same <;> cases same
        | frame c' l' d' =>
          simp only [source] at same
          split at same
          · rename_i moved
            obtain ⟨rfl, rfl⟩ := moved
            split at same
            · rename_i moved'
              obtain ⟨rfl, rfl⟩ := moved'
              obtain ⟨_, _, rfl⟩ := Place.frame.inj same
              rfl
            · obtain ⟨rfl, rfl, rfl⟩ := Place.frame.inj same
              exact absurd right (none_left d x)
          · split at same
            · rename_i moved'
              obtain ⟨rfl, rfl⟩ := moved'
              obtain ⟨rfl, rfl, rfl⟩ := Place.frame.inj same
              exact absurd left (none_left d x)
            · exact same
    · intro all c l elem member
      rw [frames] at member
      split at member
      · split at member
        · cases member
        · split at member
          · exact sound.heads all old l elem member
          · exact sound.heads all c l elem member
      · exact sound.heads all c l elem member

theorem sound_handle {s t : State} {e : Entry} (sound : Sound home s) (back : home = true → RestartsHome s e)
    (done : handleEvent s e = some t) : Sound home t := by
  unfold handleEvent at done
  have plain : ∀ {u}, s.pushPlain e = some u → Sound home u := by
    intro u pushed
    obtain rfl := Option.some.inj pushed
    exact sound_push_new sound e
  split at done
  · rename_i type
    exact sound_ctxsw sound type done
  · exact sound_migrate sound done
  · rename_i type
    exact sound_hirq_entry sound type done
  · rename_i type
    exact sound_hirq_exit sound type done
  · rename_i type
    exact sound_looprstart sound type back done
  · rename_i type
    exact sound_loopstart sound type done
  · exact sound_loopstop sound done
  · exact sound_push_with_peu sound done
  · exact sound_sync sound done
  · exact sound_pktqueue sound done
  · exact sound_pktqueue sound done
  · rename_i type
    obtain rfl := Option.some.inj done
    exact sound_push_new_service sound { e with packetId := "0" } e.service (Or.inl type)
  · rename_i type
    obtain ⟨⟨u, closed⟩, exited, rfl⟩ := Option.map_eq_some_iff.mp done
    exact (sound_srvexit (sound_alloc sound e) (loose_next sound e)
      (by rw [deref_alloc_next]; exact Or.inr (Or.inl type)) exited).1
  · rename_i type
    unfold handleSRVQUEUE at done
    split at done
    · obtain rfl := Option.some.inj done
      exact sound_push_new sound { e with service := (softirqs e.service).getD e.service }
    · obtain rfl := Option.some.inj done
      exact sound_push_new_service sound { e with packetId := "0" } e.service (Or.inr (Or.inl type))
  · unfold handleTEMPSYNCH at done
    obtain rfl := Option.some.inj done
    exact (sound_push_new sound { e with tempVarId := s.tempVarId }).congr rfl (fun _ _ => rfl)
      fun _ _ => rfl
  all_goals first
    | exact plain done
    | exact Option.some.inj done ▸ sound

theorem sound_initial : Sound home State.initial := by
  have held : ∀ p, State.initial.held p = [] := by intro p; cases p <;> rfl
  constructor
  · intro p r member
    simp [held] at member
  · intro p
    rw [held]
    exact once_nil _
  · intro p q r member
    simp [held] at member
  · intro _ c l elem member
    cases member

theorem sound_eod {r : Run} (sound : Sound home r.state) : Sound home r.resetOnEOD.state := by
  refine sound_grow sound (show Loose home r.state [] from ⟨by simp, once_nil _, by simp⟩) (.frame 0 .nobody 0) rfl ?_ ?_
  · intro p
    cases p with
    | frame c l d => exact Or.inl (by simp [State.held, State.stackOf, Run.resetOnEOD, entriesAt])
    | stored l n i => exact Or.inl (List.Sublist.refl _)
  · intro _ c l elem member
    simp [State.stackOf, Run.resetOnEOD] at member

def HomeLine (r : Run) (l : Line) : Prop := ∀ e ∈ r.entryOf l, RestartsHome r.state e

instance (r : Run) (l : Line) : Decidable (HomeLine r l) := by
  unfold HomeLine
  infer_instance

theorem sound_line {r t : Run} {l : Line} (sound : Sound home r.state) (back : home = true → HomeLine r l)
    (done : r.line l = some t) : Sound home t.state :=
  line_rule sound done (fun _ _ _ _ sound => sound.congr rfl (fun _ _ => rfl) fun _ _ => rfl) (sound_eod sound)
    fun e _ made sound handled => sound_handle sound (fun all => back all e made) handled

theorem sound_measure {s : State} (sound : Sound home s) (location : String) : Sound home (s.measureLocation location) :=
  sound.congr rfl (fun _ _ => rfl) fun _ _ => rfl

/-- The rule for runs: what does not depend on the maps of addresses and is kept by the reset
    and by the handlers is kept by every run. -/
theorem run_rule {P : State → Prop}
    (maps : ∀ s addr synch longest, P s →
      P { s with addrMap := addr, addrMapSynch := synch, longestLocationString := longest })
    (eod : ∀ r : Run, P r.state → P r.resetOnEOD.state)
    (event : ∀ e s t, P s → handleEvent s e = some t → P t)
    {ls : List Line} {r t : Run} (holds : P r.state) (done : r.lines ls = some t) : P t.state := by
  unfold Run.lines at done
  induction ls generalizing r with
  | nil => exact Option.some.inj done ▸ holds
  | cons l ls ih =>
    rw [List.foldlM_cons, Option.bind_eq_bind, Option.bind_eq_some_iff] at done
    obtain ⟨u, first, rest⟩ := done
    refine ih ?_ rest
    exact line_rule holds first maps (eod r holds) fun e s _ before handled => event e _ s before handled

theorem sound_run {ls : List Line} {r t : Run} (sound : Sound false r.state) (done : r.lines ls = some t) :
    Sound false t.state :=
  run_rule (P := Sound false) (fun _ _ _ _ sound => sound.congr rfl (fun _ _ => rfl) fun _ _ => rfl)
    (fun _ => sound_eod) (fun _ _ _ sound handled => sound_handle sound nofun handled) sound done

end Analyse
