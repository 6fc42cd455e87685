import SepExtract.ServicePicture

/- The stacks and the stored instances of one LEU when entries are values instead of
   pointers: a machine that reads the word of the LEU. Inside a loop it keeps the iteration in
   progress; a restart stores it and begins another, the first one apart, which is relabelled
   if nothing was recorded since the loop started. -/
namespace Analyse
open Nesting

structure Element where
  name : String
  entries : List Entry
  deriving DecidableEq

@[ext] structure Machine where
  stack : List Element
  done : List Element

def Entry.asStart (e : Entry) : Entry := { e with eventType := .loopstart }

def Entry.asRestart (e : Entry) (cycles : Int) : Entry := { e with eventType := .looprstart, cycles := cycles }

def pushTop (a : Entry) : List Element → List Element
  | [] => []
  | top :: rest => { top with entries := top.entries ++ [a] } :: rest

def Machine.empty : Machine := ⟨[], []⟩

def Machine.push (m : Machine) (a : Entry) : Machine := { m with stack := pushTop a m.stack }

def noteCall (a : Entry) (els : List Element) : List Element := if shown a then pushTop a els else els

def Machine.begin (m : Machine) (name : String) (a : Entry) : Machine :=
  { m with stack := ⟨name, [a]⟩ :: noteCall a m.stack }

def Machine.close (m : Machine) (b : Entry) : Machine :=
  match m.stack with
  | [] => m
  | top :: rest => ⟨pushTop b rest, m.done ++ [⟨top.name, top.entries ++ [b]⟩]⟩

def Machine.restart (m : Machine) (a : Entry) : Machine :=
  match m.stack with
  | [] | ⟨_, []⟩ :: _ => m
  | ⟨name, h :: t⟩ :: rest =>
    let last := t.getLastD h
    if last.eventType = .loopstart then
      { m with stack := ⟨name, (h :: t).dropLast ++ [last.asRestart a.cycles]⟩ :: rest }
    else ⟨⟨name, [h.asRestart a.cycles]⟩ :: rest, m.done ++ [⟨name, h.asStart :: (t ++ [a])⟩]⟩

def lastIteration : List Entry → Entry → List (List Entry)
  | [], _ => []
  | h :: t, b => if h.eventType = .looprstart then [h.asStart :: (t ++ [h.asRestart b.cycles])] else []

def Machine.stop (m : Machine) (b : Entry) : Machine :=
  match m.stack with
  | [] => m
  | top :: rest => ⟨pushTop b rest, m.done ++ (lastIteration top.entries b).map (Element.mk top.name)⟩

def Machine.step (m : Machine) : Sym Kind Entry → Machine
  | .plain a => if a.eventType = .looprstart then m.restart a else m.push a
  | .opens .loop a => if m.stack.isEmpty then m else m.begin a.location a
  | .opens k a => m.begin (bracketName k a) a
  | .closes .loop b => m.stop b
  | .closes _ b => m.close b

def Machine.run (m : Machine) (w : List (Sym Kind Entry)) : Machine := w.foldl Machine.step m

theorem machine_run_append (m : Machine) (u w : List (Sym Kind Entry)) : m.run (u ++ w) = (m.run u).run w :=
  List.foldl_append ..

theorem machine_run_cons (m : Machine) (y : Sym Kind Entry) (w : List (Sym Kind Entry)) :
    m.run (y :: w) = (m.step y).run w := rfl

/-- The elements stand for the open brackets, the loops outside all services left out. -/
def Depth (st : List (Frame Kind Entry)) (els : List Element) : Prop :=
  ∃ fs below, st = fs ++ below ∧ (∀ f ∈ below, f.kind = .loop) ∧ fs.length = els.length

theorem depth_push {st : List (Frame Kind Entry)} {els : List Element} (depth : Depth st els) (items : List Entry)
    (a : Entry) : Depth (note items st) (pushTop a els) ∧ Depth (note items st) els := by
  obtain ⟨fs, below, rfl, loops, length⟩ := depth
  cases fs with
  | nil =>
    obtain rfl := List.eq_nil_of_length_eq_zero length.symm
    exact ⟨⟨[], _, rfl, note_loops loops, rfl⟩, [], _, rfl, note_loops loops, rfl⟩
  | cons f fs =>
    cases els with
    | nil => cases length
    | cons top rest =>
      exact ⟨⟨{ f with items := f.items ++ items } :: fs, below, rfl, loops, length⟩,
        { f with items := f.items ++ items } :: fs, below, rfl, loops, length⟩

theorem depth_pop {f : Frame Kind Entry} {st : List (Frame Kind Entry)} {els : List Element}
    (depth : Depth (f :: st) els) : Depth st els.tail := by
  obtain ⟨fs, below, split, loops, length⟩ := depth
  cases fs with
  | nil =>
    obtain rfl := List.eq_nil_of_length_eq_zero length.symm
    rw [List.nil_append] at split
    exact ⟨[], st, rfl, fun g member => loops g (by rw [← split]; exact List.mem_cons_of_mem f member), rfl⟩
  | cons g fs =>
    obtain ⟨rfl, rfl⟩ := List.cons.inj split
    exact ⟨fs, below, rfl, loops, by rw [List.length_tail, ← length]; rfl⟩

theorem depth_cons {st : List (Frame Kind Entry)} {els : List Element} (depth : Depth st els)
    (f : Frame Kind Entry) (v : Element) : Depth (f :: st) (v :: els) := by
  obtain ⟨fs, below, rfl, loops, length⟩ := depth
  exact ⟨f :: fs, below, rfl, loops, congrArg Nat.succ length⟩

theorem depth_begin {st : List (Frame Kind Entry)} {m : Machine} (depth : Depth st m.stack)
    (f : Frame Kind Entry) (items : List Entry) (name : String) (a : Entry) :
    Depth (f :: note items st) (m.begin name a).stack := by
  have noted := depth_push depth items a
  refine depth_cons ?_ f ⟨name, [a]⟩
  unfold noteCall
  split
  · exact noted.1
  · exact noted.2

theorem close_stack (m : Machine) (b : Entry) : (m.close b).stack = pushTop b m.stack.tail := by
  cases m with
  | mk els done => cases els <;> rfl

theorem stop_stack (m : Machine) (b : Entry) : (m.stop b).stack = pushTop b m.stack.tail := by
  cases m with
  | mk els done => cases els <;> rfl

theorem restart_length (m : Machine) (a : Entry) : (m.restart a).stack.length = m.stack.length := by
  unfold Machine.restart
  split
  · rfl
  · rfl
  · rename_i name h t rest full
    rw [full]
    dsimp only
    split <;> rfl

theorem depth_scan (w : List (Sym Kind Entry)) : Depth (scan shown w).stack (Machine.empty.run w).stack := by
  induction w using List.reverseRecOn with
  | nil => exact ⟨[], [], rfl, by simp, rfl⟩
  | append_singleton w y ih =>
    rw [scan_snoc, machine_run_append]
    generalize Machine.empty.run w = m at ih
    change Depth _ (m.step y).stack
    have closing : ∀ k b, Depth ((scan shown w).step shown (.closes k b)).stack (pushTop b m.stack.tail) := by
      intro k b
      unfold Scan.step
      cases full : (scan shown w).stack with
      | nil =>
        rw [full] at ih
        obtain ⟨fs, below, split, _, length⟩ := ih
        obtain ⟨rfl, rfl⟩ := List.append_eq_nil_iff.mp split.symm
        rw [List.eq_nil_of_length_eq_zero length.symm]
        simpa only [full] using ⟨[], [], rfl, by simp, rfl⟩
      | cons f st =>
        rw [full] at ih
        exact (depth_push (depth_pop ih) [b] b).1
    cases y with
    | plain a =>
      simp only [Machine.step, Scan.step]
      split
      · obtain ⟨fs, below, split, loops, length⟩ := (depth_push ih [a] a).2
        exact ⟨fs, below, split, loops, length.trans (restart_length m a).symm⟩
      · exact (depth_push ih [a] a).1
    | opens k a =>
      cases k with
      | loop =>
        simp only [Machine.step, Scan.step]
        split
        · rename_i empty
          rw [List.isEmpty_iff] at empty
          obtain ⟨fs, below, split, loops, length⟩ := (depth_push ih ([a].filter shown) a).2
          rw [empty] at length ⊢
          obtain rfl := List.eq_nil_of_length_eq_zero length
          refine ⟨[], _, rfl, fun f member => ?_, rfl⟩
          rcases List.mem_cons.mp member with rfl | member
          · rfl
          · rw [split] at member
            exact loops f member
        · exact depth_begin ih _ _ _ a
      | service => exact depth_begin ih _ _ _ a
      | irq => exact depth_begin ih _ _ _ a
    | closes k b =>
      cases k with
      | loop =>
        have below := closing .loop b
        rwa [← stop_stack] at below
      | service =>
        have below := closing .service b
        rwa [← close_stack] at below
      | irq =>
        have below := closing .irq b
        rwa [← close_stack] at below

theorem inside_element {w : List (Sym Kind Entry)} {f : Frame Kind Entry} (inside : f ∈ (scan shown w).stack)
    (service : f.kind ≠ .loop) : ∃ top rest, (Machine.empty.run w).stack = top :: rest := by
  obtain ⟨fs, below, split, loops, length⟩ := depth_scan w
  cases full : (Machine.empty.run w).stack with
  | nil =>
    rw [full] at length
    obtain rfl := List.eq_nil_of_length_eq_zero length
    rw [split] at inside
    exact absurd (loops f inside) service
  | cons top rest => exact ⟨top, rest, rfl⟩

def Element.From (v : Element) (ns : List Nat) : Prop := ∃ h t, v.entries = h :: t ∧ h.lineNr ∈ ns

def linesOf (w : List (Sym Kind Entry)) : List Nat := (openings w).map Entry.lineNr

theorem from_more {v : Element} {n m : List Nat} (member : v.From n) (more : n ⊆ m) : v.From m := by
  obtain ⟨h, t, entries, line⟩ := member
  exact ⟨h, t, entries, more line⟩

theorem from_push {els : List Element} {ns : List Nat} (known : ∀ v ∈ els, v.From ns) (a : Entry) :
    ∀ v ∈ pushTop a els, v.From ns := by
  cases els with
  | nil => exact known
  | cons top rest =>
    obtain ⟨⟨h, t, entries, line⟩, others⟩ := List.forall_mem_cons.mp known
    refine List.forall_mem_cons.mpr ⟨⟨h, t ++ [a], ?_, line⟩, others⟩
    rw [entries, List.cons_append]

theorem from_begin {m : Machine} {ns : List Nat} (known : ∀ v ∈ m.stack, v.From ns) (name : String) (a : Entry) :
    ∀ v ∈ (m.begin name a).stack, v.From (ns ++ [a.lineNr]) := by
  refine List.forall_mem_cons.mpr ⟨⟨a, [], rfl, by simp⟩, fun v member => ?_⟩
  refine from_more (n := ns) ?_ (List.subset_append_left ..)
  unfold noteCall at member
  split at member
  · exact from_push known a v member
  · exact known v member

def Stores (ns : List Nat) (m m' : Machine) : Prop :=
  ∃ new, m'.done = m.done ++ new ∧ (∀ v ∈ new, v.From ns) ∧ ∀ v ∈ m'.stack, v.From ns

theorem stores_nothing {m m' : Machine} {ns : List Nat} (done : m'.done = m.done)
    (known : ∀ v ∈ m'.stack, v.From ns) : Stores ns m m' :=
  ⟨[], by rw [done, List.append_nil], by simp, known⟩

theorem stores_restart {m : Machine} {ns : List Nat} (known : ∀ v ∈ m.stack, v.From ns) (a : Entry) :
    Stores ns m (m.restart a) := by
  unfold Machine.restart
  split
  · exact stores_nothing rfl known
  · exact stores_nothing rfl known
  · rename_i name h t rest full
    rw [full] at known
    obtain ⟨⟨h', t', entries, line⟩, others⟩ := List.forall_mem_cons.mp known
    obtain ⟨rfl, rfl⟩ := List.cons.inj entries
    dsimp only
    split
    · refine stores_nothing rfl (List.forall_mem_cons.mpr ⟨?_, others⟩)
      cases t with
      | nil => exact ⟨_, [], rfl, line⟩
      | cons x t => exact ⟨h, _, rfl, line⟩
    · exact ⟨_, rfl, by simpa using ⟨_, _, rfl, line⟩, List.forall_mem_cons.mpr ⟨⟨_, _, rfl, line⟩, others⟩⟩

theorem stores_close {m : Machine} {ns : List Nat} (known : ∀ v ∈ m.stack, v.From ns) (b : Entry) :
    Stores ns m (m.close b) := by
  unfold Machine.close
  split
  · exact stores_nothing rfl known
  · rename_i top rest full
    rw [full] at known
    obtain ⟨⟨h, t, entries, line⟩, others⟩ := List.forall_mem_cons.mp known
    refine ⟨_, rfl, ?_, from_push others b⟩
    simpa using ⟨h, t ++ [b], by rw [entries, List.cons_append], line⟩

theorem stores_stop {m : Machine} {ns : List Nat} (known : ∀ v ∈ m.stack, v.From ns) (b : Entry) :
    Stores ns m (m.stop b) := by
  unfold Machine.stop
  split
  · exact stores_nothing rfl known
  · rename_i top rest full
    rw [full] at known
    obtain ⟨⟨h, t, entries, line⟩, others⟩ := List.forall_mem_cons.mp known
    refine ⟨_, rfl, fun v member => ?_, from_push others b⟩
    obtain ⟨es, last, rfl⟩ := List.mem_map.mp member
    rw [entries, lastIteration] at last
    split at last
    · rw [List.mem_singleton.mp last]
      exact ⟨h.asStart, _, rfl, line⟩
    · cases last

theorem stores_step {m : Machine} {ns : List Nat} (known : ∀ v ∈ m.stack, v.From ns) (y : Sym Kind Entry) :
    Stores (ns ++ linesOf [y]) m (m.step y) := by
  have more : ∀ v ∈ m.stack, v.From (ns ++ linesOf [y]) :=
    fun v member => from_more (known v member) (List.subset_append_left ..)
  cases y with
  | plain a =>
    simp only [Machine.step]
    split
    · exact stores_restart more a
    · exact stores_nothing rfl (from_push more a)
  | opens k a =>
    cases k with
    | loop =>
      simp only [Machine.step]
      split
      · exact stores_nothing rfl more
      · exact stores_nothing rfl (from_begin known a.location a)
    | service => exact stores_nothing rfl (from_begin known _ a)
    | irq => exact stores_nothing rfl (from_begin known _ a)
  | closes k b =>
    cases k with
    | loop => exact stores_stop more b
    | service => exact stores_close more b
    | irq => exact stores_close more b

theorem stores_run {m : Machine} {ns : List Nat} (known : ∀ v ∈ m.stack, v.From ns) (w : List (Sym Kind Entry)) :
    Stores (ns ++ linesOf w) m (m.run w) := by
  induction w generalizing m ns with
  | nil => exact stores_nothing rfl (by simpa [Machine.run, linesOf, openings] using known)
  | cons y w ih =>
    obtain ⟨new, done, stored, stack⟩ := stores_step known y
    obtain ⟨new', done', stored', stack'⟩ := ih stack
    have split : ns ++ linesOf [y] ++ linesOf w = ns ++ linesOf (y :: w) := by
      rw [List.append_assoc, linesOf, linesOf, linesOf, ← List.map_append, ← openings_append]
      rfl
    rw [split] at stored' stack'
    refine ⟨new ++ new', ?_, ?_, stack'⟩
    · rw [← List.append_assoc, ← done]
      exact done'
    · intro v member
      rcases List.mem_append.mp member with left | right
      · exact from_more (stored v left) (by rw [← split]; exact List.subset_append_left ..)
      · exact stored' v right

def iterated (h : Entry) (t : List Entry) : List Entry → (Entry × List Entry) × List (List Entry)
  | [] => ((h, t), [])
  | a :: items =>
    if a.eventType = .looprstart then
      if t = [] ∧ h.eventType = .loopstart then iterated (h.asRestart a.cycles) [] items
      else
        let after := iterated (h.asRestart a.cycles) [] items
        (after.1, (h.asStart :: (t ++ [a])) :: after.2)
    else iterated h (t ++ [a]) items

def Typed : Sym Kind Entry → Prop
  | .opens k a => a.eventType ≠ .looprstart ∧ (k = .loop → a.eventType = .loopstart)
  | .closes _ b => ¬ b.eventType.InLoop
  | .plain a => a.eventType ≠ .loopstart

def PastStart (t : List Entry) : Prop := ∀ last, t.getLast? = some last → last.eventType ≠ .loopstart

theorem past_start_snoc (t : List Entry) {a : Entry} (type : a.eventType ≠ .loopstart) : PastStart (t ++ [a]) := by
  intro last eq
  rw [List.getLast?_concat] at eq
  rw [← Option.some.inj eq]
  exact type

def opened (n : Nat) (v : Element) : Bool := decide (v.entries.head?.map Entry.lineNr = some n)

theorem iterated_head (items : List Entry) (h : Entry) (t : List Entry) :
    (iterated h t items).1.1.lineNr = h.lineNr := by
  induction items generalizing h t with
  | nil => rfl
  | cons a items ih =>
    unfold iterated
    split
    · split
      · exact ih _ _
      · exact ih _ _
    · exact ih _ _

theorem restart_start {m : Machine} {name : String} {x : Entry} {w : List Entry} {rest : List Element} (a : Entry)
    (full : m.stack = ⟨name, w ++ [x]⟩ :: rest) (type : x.eventType = .loopstart) :
    m.restart a = { m with stack := ⟨name, w ++ [x.asRestart a.cycles]⟩ :: rest } := by
  rw [Machine.restart, full]
  cases w with
  | nil => simp [type]
  | cons h t =>
    have front : (h :: (t ++ [x])).dropLast = h :: t := @List.dropLast_concat _ (h :: t) x
    simp [type, front]

theorem restart_later {m : Machine} {name : String} {h x : Entry} {t : List Entry} {rest : List Element} (a : Entry)
    (full : m.stack = ⟨name, h :: t⟩ :: rest) (last : (h :: t).getLast? = some x) (type : x.eventType ≠ .loopstart) :
    m.restart a = ⟨⟨name, [h.asRestart a.cycles]⟩ :: rest, m.done ++ [⟨name, h.asStart :: (t ++ [a])⟩]⟩ := by
  have same : t.getLast?.getD h = x := by simpa [List.getLast?_cons] using last
  simp [Machine.restart, full, same, type]

theorem restart_past_start {name : String} {h a : Entry} {t : List Entry} {rest done : List Element}
    (past : PastStart t) :
    (Machine.mk (⟨name, h :: t⟩ :: rest) done).restart a =
      if t = [] ∧ h.eventType = .loopstart then ⟨⟨name, [h.asRestart a.cycles]⟩ :: rest, done⟩
      else ⟨⟨name, [h.asRestart a.cycles]⟩ :: rest, done ++ [⟨name, h.asStart :: (t ++ [a])⟩]⟩ := by
  split
  · rename_i first
    rw [first.1]
    exact restart_start (w := []) a rfl first.2
  · rename_i later
    refine restart_later a rfl (List.getLast?_eq_some_getLast (List.cons_ne_nil h t)) ?_
    cases t using List.reverseRecOn with
    | nil => simpa using later
    | append_singleton t x => simpa using past x (by simp)

theorem iterated_append (xs ys : List Entry) (h : Entry) (t : List Entry)
    (plain : ∀ a ∈ xs, a.eventType ≠ .looprstart) : iterated h t (xs ++ ys) = iterated h (t ++ xs) ys := by
  induction xs generalizing t with
  | nil => rw [List.nil_append, List.append_nil]
  | cons a xs ih =>
    obtain ⟨type, others⟩ := List.forall_mem_cons.mp plain
    rw [List.cons_append, iterated, if_neg type, ih _ others, List.append_assoc, List.singleton_append]

section Inside
variable (name : String) (h : Entry) (t : List Entry) (rest done : List Element)

theorem step_opens (k : Kind) (a : Entry) :
    (Machine.mk (⟨name, h :: t⟩ :: rest) done).step (.opens k a) =
      ⟨⟨bracketName k a, [a]⟩ :: ⟨name, h :: (t ++ [a].filter shown)⟩ :: rest, done⟩ := by
  have began : (Machine.mk (⟨name, h :: t⟩ :: rest) done).begin (bracketName k a) a =
      ⟨⟨bracketName k a, [a]⟩ :: ⟨name, h :: (t ++ [a].filter shown)⟩ :: rest, done⟩ := by
    cases seen : shown a <;> simp [Machine.begin, noteCall, pushTop, seen]
  cases k with
  | loop => exact began
  | service => exact began
  | irq => exact began

theorem step_closes_loop (b : Entry) (name' : String) (h' : Entry) (t' : List Entry) :
    (Machine.mk (⟨name', h' :: t'⟩ :: ⟨name, h :: t⟩ :: rest) done).step (.closes .loop b) =
      ⟨⟨name, h :: (t ++ [b])⟩ :: rest, done ++ (lastIteration (h' :: t') b).map (Element.mk name')⟩ := rfl

theorem step_closes (k : Kind) (b : Entry) (name' : String) (h' : Entry) (t' : List Entry) :
    ∃ last, (Machine.mk (⟨name', h' :: t'⟩ :: ⟨name, h :: t⟩ :: rest) done).step (.closes k b) =
      ⟨⟨name, h :: (t ++ [b])⟩ :: rest, done ++ last⟩ ∧ ∀ v ∈ last, v.From [h'.lineNr] := by
  have closed : ∃ last, (Machine.mk (⟨name', h' :: t'⟩ :: ⟨name, h :: t⟩ :: rest) done).close b =
      ⟨⟨name, h :: (t ++ [b])⟩ :: rest, done ++ last⟩ ∧ ∀ v ∈ last, v.From [h'.lineNr] :=
    ⟨[⟨name', h' :: t' ++ [b]⟩], rfl, by simpa using ⟨h', t' ++ [b], rfl, by simp⟩⟩
  cases k with
  | loop =>
    refine ⟨_, step_closes_loop name h t rest done b name' h' t', fun v member => ?_⟩
    obtain ⟨es, last, rfl⟩ := List.mem_map.mp member
    rw [lastIteration] at last
    split at last
    · rw [List.mem_singleton.mp last]
      exact ⟨h'.asStart, _, rfl, List.mem_singleton_self _⟩
    · cases last
  | service => exact closed
  | irq => exact closed

end Inside

theorem filter_from {els : List Element} {ns : List Nat} {n : Nat} (known : ∀ v ∈ els, v.From ns) (other : n ∉ ns) :
    els.filter (opened n) = [] := by
  refine List.filter_eq_nil_iff.mpr fun v member => ?_
  obtain ⟨h, t, entries, line⟩ := known v member
  simp only [opened, entries, List.head?_cons, Option.map_some, Option.some.injEq, decide_eq_true_eq]
  rintro rfl
  exact other line

/-- A balanced word inside an open element: the element goes through the symbols at its own
    level, and everything else that is stored begins with an opening of the word. -/
theorem run_inside {u : List (Sym Kind Entry)} (balanced : Balanced u) (typed : ∀ y ∈ u, Typed y)
    (name : String) (h : Entry) (t : List Entry) (rest done : List Element) (past : PastStart t) :
    ∃ new, (Machine.mk (⟨name, h :: t⟩ :: rest) done).run u =
        ⟨⟨name, (iterated h t (level shown u)).1.1 :: (iterated h t (level shown u)).1.2⟩ :: rest, done ++ new⟩ ∧
      PastStart (iterated h t (level shown u)).1.2 ∧
      ∀ n, n ∉ linesOf u → new.filter (opened n) =
        if h.lineNr = n then (iterated h t (level shown u)).2.map (Element.mk name) else [] := by
  induction balanced generalizing name h t rest done with
  | nil => exact ⟨[], by simp [Machine.run, level, levelAt, iterated], past, by simp [level, levelAt, iterated]⟩
  | @plain a w balanced ih =>
    obtain ⟨type, typed⟩ := List.forall_mem_cons.mp typed
    have level_plain : level shown (.plain a :: w) = a :: level shown w := rfl
    rw [level_plain, iterated]
    simp only [machine_run_cons, Machine.step]
    split
    · rw [restart_past_start past]
      split
      · exact ih typed name _ [] rest done (by simp [PastStart])
      · obtain ⟨new, ran, settled, stored⟩ := ih typed name (h.asRestart a.cycles) [] rest
          (done ++ [⟨name, h.asStart :: (t ++ [a])⟩]) (by simp [PastStart])
        refine ⟨⟨name, h.asStart :: (t ++ [a])⟩ :: new, ?_, settled, fun n other => ?_⟩
        · rw [ran, List.append_assoc, List.singleton_append]
        · have tail := stored n other
          have line : (h.asRestart a.cycles).lineNr = h.lineNr := rfl
          rw [line] at tail
          by_cases same : h.lineNr = n
          · rw [if_pos same] at tail ⊢
            rw [List.filter_cons_of_pos, tail, List.map_cons]
            simpa [opened, Entry.asStart] using same
          · rw [if_neg same] at tail ⊢
            rw [List.filter_cons_of_neg, tail]
            simpa [opened, Entry.asStart] using same
    · exact ih typed name h (t ++ [a]) rest done (past_start_snoc t type)
  | @bracket k a b inner w inside balanced ihInside ihRest =>
    obtain ⟨opening, typed⟩ := List.forall_mem_cons.mp typed
    obtain ⟨typedInside, typed⟩ := List.forall_mem_append.mp typed
    obtain ⟨closing, typedRest⟩ := List.forall_mem_cons.mp typed
    obtain ⟨new₁, ran₁, _, stored₁⟩ := ihInside typedInside (bracketName k a) a []
      (⟨name, h :: (t ++ [a].filter shown)⟩ :: rest) done (by simp [PastStart])
    obtain ⟨last, closed, lasts⟩ := step_closes name h (t ++ [a].filter shown) rest (done ++ new₁) k b
      (bracketName k a) (iterated a [] (level shown inner)).1.1 (iterated a [] (level shown inner)).1.2
    obtain ⟨new₂, ran₂, settled, stored₂⟩ := ihRest typedRest name h (t ++ [a].filter shown ++ [b]) rest
      (done ++ new₁ ++ last) (past_start_snoc _ fun start => closing (Or.inl start))
    have items : iterated h t (level shown (.opens k a :: (inner ++ .closes k b :: w))) =
        iterated h (t ++ [a].filter shown ++ [b]) (level shown w) := by
      rw [level_bracket shown k a b inside, iterated_append, iterated, if_neg fun again => closing (Or.inr again)]
      intro x member
      rw [List.mem_singleton.mp (List.mem_of_mem_filter member)]
      exact opening.1
    rw [items]
    refine ⟨new₁ ++ last ++ new₂, ?_, settled, fun n other => ?_⟩
    · rw [machine_run_cons, step_opens, machine_run_append, ran₁, machine_run_cons, closed, ran₂]
      simp only [List.append_assoc]
    · have lines : linesOf (.opens k a :: (inner ++ .closes k b :: w)) = a.lineNr :: (linesOf inner ++ linesOf w) := by
        simp [linesOf, openings, List.filterMap_append]
      rw [lines, List.mem_cons, List.mem_append, not_or, not_or] at other
      obtain ⟨apart, outside, after⟩ := other
      rw [iterated_head] at lasts
      rw [List.filter_append, List.filter_append, stored₁ n outside, if_neg (Ne.symm apart),
        filter_from lasts (by simpa using apart), stored₂ n after]
      rfl

def iterations (a : Entry) (items : List Entry) (b : Entry) : List (List Entry) :=
  let after := iterated a [] items
  after.2 ++ lastIteration (after.1.1 :: after.1.2) b

theorem loop_stored {before u after : List (Sym Kind Entry)} {a b : Entry} {f : Frame Kind Entry}
    (balanced : Balanced u) (typed : ∀ y ∈ u, Typed y) (inside : f ∈ (scan shown before).stack)
    (service : f.kind ≠ .loop)
    (nodup : (linesOf (before ++ .opens .loop a :: (u ++ .closes .loop b :: after))).Nodup) :
    (Machine.empty.run (before ++ .opens .loop a :: (u ++ .closes .loop b :: after))).done.filter
      (opened a.lineNr) = (iterations a (level shown u) b).map (Element.mk a.location) := by
  have lines : linesOf (before ++ .opens .loop a :: (u ++ .closes .loop b :: after)) =
      linesOf before ++ a.lineNr :: (linesOf u ++ linesOf after) := by
    simp [linesOf, openings, List.filterMap_append]
  rw [lines, List.nodup_append, List.nodup_cons, List.mem_append, not_or] at nodup
  obtain ⟨_, ⟨⟨notInside, notAfter⟩, _⟩, apart⟩ := nodup
  have notBefore : a.lineNr ∉ linesOf before := fun member => apart _ member _ (List.mem_cons_self ..) rfl
  obtain ⟨top, rest, full⟩ := inside_element inside service
  have start : ∀ v ∈ Machine.empty.stack, v.From [] := by simp [Machine.empty]
  obtain ⟨stored, done, known, stack⟩ := stores_run start before
  rw [List.nil_append] at known stack
  rw [machine_run_append]
  cases reached : Machine.empty.run before with
  | mk els finished =>
    rw [reached] at full done stack
    obtain rfl : finished = stored := done
    obtain rfl : els = top :: rest := full
    obtain ⟨⟨h, t, entries, line⟩, others⟩ := List.forall_mem_cons.mp stack
    cases top with
    | mk name es =>
      obtain rfl : es = h :: t := entries
      obtain ⟨new, ran, _, own⟩ := run_inside balanced typed a.location a []
        (⟨name, h :: (t ++ [a].filter shown)⟩ :: rest) finished (by simp [PastStart])
      have above : ∀ v ∈ ⟨name, h :: (t ++ [a].filter shown ++ [b])⟩ :: rest, v.From (linesOf before) :=
        List.forall_mem_cons.mpr ⟨⟨h, _, rfl, line⟩, others⟩
      obtain ⟨later, ended, laters, _⟩ := stores_run (m := ⟨_, finished ++ new ++
        (lastIteration ((iterated a [] (level shown u)).1.1 :: (iterated a [] (level shown u)).1.2) b).map
          (Element.mk a.location)⟩) above after
      have notLater : a.lineNr ∉ linesOf before ++ linesOf after := by simp [notBefore, notAfter]
      rw [machine_run_cons, step_opens, machine_run_append, bracketName, ran, machine_run_cons, step_closes_loop]
      rw [ended, List.filter_append, List.filter_append, List.filter_append, filter_from known notBefore,
        own _ notInside, if_pos rfl, filter_from laters notLater, List.nil_append, List.append_nil, iterations,
        List.map_append]
      congr 1
      refine List.filter_eq_self.mpr fun v member => ?_
      obtain ⟨es, last, rfl⟩ := List.mem_map.mp member
      rw [lastIteration] at last
      split at last
      · rw [List.mem_singleton.mp last]
        simpa [opened, Entry.asStart] using iterated_head _ a []
      · cases last

structure Round where
  start : Entry
  body : List Entry
  stop : Entry

def roundsFrom (start : Entry) (body : List Entry) : List Entry → Entry → List Round
  | [], b => [⟨start, body, b⟩]
  | a :: items, b =>
    if a.eventType = .looprstart then ⟨start, body, a⟩ :: roundsFrom a [] items b
    else roundsFrom start (body ++ [a]) items b

/-- The turns of a loop; what comes before its first restart belongs to none. -/
def rounds : List Entry → Entry → List Round
  | [], _ => []
  | a :: items, b => if a.eventType = .looprstart then roundsFrom a [] items b else rounds items b

/-- An instance that is the turn: it begins with an entry that has the cycles of the restart,
    holds the events of the turn, and ends with a restart that has the cycles of the end. -/
def Iteration (es : List Entry) (r : Round) : Prop :=
  ∃ first last, es = first :: (r.body ++ [last]) ∧ first.cycles = r.start.cycles ∧
    last.eventType = .looprstart ∧ last.cycles = r.stop.cycles

theorem iterated_rounds (items : List Entry) (b : Entry) {h start : Entry} (t : List Entry)
    (type : h.eventType = .looprstart) (cycles : h.cycles = start.cycles) :
    List.Forall₂ Iteration ((iterated h t items).2 ++
      lastIteration ((iterated h t items).1.1 :: (iterated h t items).1.2) b) (roundsFrom start t items b) := by
  induction items generalizing h start t with
  | nil =>
    rw [iterated, roundsFrom, lastIteration, if_pos type]
    exact .cons ⟨_, _, rfl, cycles, rfl, rfl⟩ .nil
  | cons a items ih =>
    unfold iterated roundsFrom
    split
    · rename_i again
      rw [if_neg (by simp [type])]
      exact .cons ⟨_, _, rfl, cycles, again, rfl⟩ (ih [] rfl rfl)
    · exact ih (t ++ [a]) type cycles

theorem rounds_append (xs ys : List Entry) (b : Entry) (plain : ∀ a ∈ xs, a.eventType ≠ .looprstart) :
    rounds (xs ++ ys) b = rounds ys b := by
  induction xs with
  | nil => rfl
  | cons a xs ih =>
    obtain ⟨type, others⟩ := List.forall_mem_cons.mp plain
    rw [List.cons_append, rounds, if_neg type, ih others]

/-- What a loop stores are its turns, unless something is recorded before its first restart. -/
theorem iterations_iff {a b : Entry} {items : List Entry} (start : a.eventType = .loopstart) :
    List.Forall₂ Iteration (iterations a items b) (rounds items b) ↔
      (∀ e ∈ items, e.eventType ≠ .looprstart) ∨
        ∃ e rest, items = e :: rest ∧ e.eventType = .looprstart := by
  cases found : items.find? (·.eventType = .looprstart) with
  | none =>
    have plain : ∀ e ∈ items, e.eventType ≠ .looprstart := by simpa using List.find?_eq_none.mp found
    refine iff_of_true ?_ (Or.inl plain)
    have turns := rounds_append items [] b plain
    have stored := iterated_append items [] a [] plain
    rw [List.append_nil] at turns stored
    simp [iterations, stored, turns, iterated, rounds, lastIteration, start]
  | some r =>
    obtain ⟨again, pre, rest, rfl, plain⟩ := List.find?_eq_some_iff_append.mp found
    have type : r.eventType = .looprstart := by simpa using again
    have others : ∀ e ∈ pre, e.eventType ≠ .looprstart := by simpa using plain
    have turns : rounds (pre ++ r :: rest) b = roundsFrom r [] rest b := by
      rw [rounds_append pre _ b others, rounds, if_pos type]
    have later := iterated_rounds rest b [] (h := a.asRestart r.cycles) rfl (Eq.refl r.cycles)
    have stored := iterated_append pre (r :: rest) a [] others
    rw [iterated, if_pos type, List.nil_append] at stored
    rw [turns, iterations, stored]
    cases pre with
    | nil =>
      rw [if_pos ⟨rfl, start⟩]
      exact iff_of_true later (Or.inr ⟨r, rest, rfl, type⟩)
    | cons x pre =>
      rw [if_neg (by simp)]
      refine iff_of_false (fun all => ?_) ?_
      · have length := all.length_eq
        have turns := later.length_eq
        simp only [List.length_append, List.length_cons] at length turns
        omega
      · rintro (none | ⟨e, tail, split, first⟩)
        · exact none r (by simp) type
        · rw [List.cons_append] at split
          rw [← (List.cons.inj split).1] at first
          exact others x (List.mem_cons_self ..) first

end Analyse
