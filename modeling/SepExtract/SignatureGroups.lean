import Mathlib.Algebra.BigOperators.Group.List.Basic
import Mathlib.Data.List.Induction
import Mathlib.Data.Multiset.MapFold
import SepExtract.EventMarks
import SepExtract.UnrecursiveTraces

/- The profile as a partition of the recorded instances. On a trace without recursion every
   instance has one signature, and a group of a service holds the durations of the instances that
   have its key, which are those whose events have the same texts. -/
namespace Analyse

def Entry.Signable (e : Entry) : Prop :=
  (e.eventType = .loopstart → e.loopstartArguments.isSome) ∧
    (e.eventType = .statecond → (getStateIdString e.service).isSome) ∧ e.eventType ≠ .threadcond

instance (e : Entry) : Decidable e.Signable :=
  inferInstanceAs (Decidable ((e.eventType = .loopstart → e.loopstartArguments.isSome) ∧
    (e.eventType = .statecond → (getStateIdString e.service).isSome) ∧ e.eventType ≠ .threadcond))

section Walks
variable {s : State} {leu : LEU} {n : String} {w v : Walk} {e : Entry}

theorem entry_signable_iff : (w.entry s leu n e).isSome ↔ e.Signable := by
  unfold Walk.entry
  -- Only the arguments of a loop and the name of a state are looked up, and THREADCOND panics.
  split
  case h_4 type =>
    simp only [Entry.Signable, type]
    split
    · simp
    · simp [State.loopText]
  case h_18 type => simp [Entry.Signable, type]
  case h_19 type => simp [Entry.Signable, type, State.statecondText]
  all_goals
    rename_i type
    simp only [Entry.Signable, type]
    first
      | (split <;> simp)
      | simp
  all_goals split <;> simp

theorem walk_signable_iff {es : List Entry} : (s.walk leu n w es).isSome ↔ ∀ e ∈ es, e.Signable := by
  induction es generalizing w with
  | nil => simp [State.walk]
  | cons e es ih =>
    have first : (w.entry s leu n e).isSome ↔ e.Signable := entry_signable_iff
    rw [List.forall_mem_cons, ← first]
    have step : s.walk leu n w (e :: es) = (w.entry s leu n e).bind fun v => s.walk leu n v es := rfl
    rw [step]
    cases w.entry s leu n e with
    | none => simp
    | some v => simpa using ih

theorem walk_marked {es : List Entry} (tidy : ∀ e ∈ es, e.Tidy) (before : ∀ event ∈ w.signature.events, event.Marked)
    (done : s.walk leu n w es = some v) : ∀ event ∈ v.signature.events, event.Marked := by
  induction es generalizing w with
  | nil => exact Option.some.inj done ▸ before
  | cons e es ih =>
    obtain ⟨u, first, rest⟩ := Option.bind_eq_some_iff.mp done
    refine ih (fun e member => tidy e (List.mem_cons_of_mem _ member)) ?_ rest
    rw [(entry_kept first).1]
    intro event member
    rcases List.mem_append.mp member with old | new
    · exact before event old
    · unfold Entry.kept at new
      split at new
      · cases new
      · exact image_marked (tidy e (List.mem_cons_self ..)) new

end Walks

def Signature.vector (signature : Signature) : List Int := signature.duration.map Duration.cycles

structure Signature.Regular (signature : Signature) : Prop where
  aligned : ∃ first row, signature.Aligned first row
  marked : ∀ event ∈ signature.events, event.Marked

theorem regular_closed {signature : Signature} (regular : signature.Regular) : signature.Closed := by
  obtain ⟨first, row, aligned⟩ := regular.aligned
  exact aligned_closed aligned

theorem vector_length {signature : Signature} (regular : signature.Regular) :
    signature.vector.length = signature.events.length - 1 + peuCount signature.events := by
  obtain ⟨first, row, aligned⟩ := regular.aligned
  have opening := opening_no_peu aligned.opening.1
  rw [Signature.vector, aligned.duration, values_durations, values_length aligned.peus, aligned.events]
  simp [peuCount, opening]

section Pairs
variable {x y : Signature}

theorem key_iff_texts (left : x.Regular) (right : y.Regular) :
    x.key = y.key ↔ x.events.map Event.text = y.events.map Event.text :=
  ⟨key_injective (regular_closed left) (regular_closed right), fun same => by rw [Signature.key, same, Signature.key]⟩

theorem vector_length_texts (left : x.Regular) (right : y.Regular)
    (texts : x.events.map Event.text = y.events.map Event.text) : x.vector.length = y.vector.length := by
  have marks : ∀ {z : Signature}, z.Regular → z.events.map Event.isPeu = (z.events.map Event.text).map marksPeu := by
    intro z regular
    rw [List.map_map]
    exact List.map_congr_left fun event member => (regular.marked event member).symm
  have count : peuCount x.events = peuCount y.events := by
    rw [peu_count_map, peu_count_map, marks left, marks right, texts]
  have events : x.events.length = y.events.length := by simpa using congrArg List.length texts
  rw [vector_length left, vector_length right, count, events]

end Pairs

def collect : List Signature → Option SignatureCollection
  | [] => none
  | first :: rest => some ⟨first.events, (first :: rest).map Signature.vector⟩

theorem collect_snoc (xs : List Signature) (x : Signature) :
    collect (xs ++ [x]) =
      some (((collect xs).map (SignatureCollection.add x.vector)).getD ⟨x.events, [x.vector]⟩) := by
  cases xs with
  | nil => rfl
  | cons first rest => simp [collect, SignatureCollection.add]

def ofKey (n k : String) (xs : List (String × Signature)) : List Signature :=
  (xs.filter fun x => x.1 = n ∧ x.2.key = k).map Prod.snd

def putAll (xs : List (String × Signature)) : Profile :=
  xs.foldl (fun p x => p.putSignature x.1 x.2) fun _ _ => none

theorem put_all_collects (xs : List (String × Signature)) (n k : String) :
    putAll xs n k = collect (ofKey n k xs) := by
  induction xs using List.reverseRecOn with
  | nil => rfl
  | append_singleton xs x ih =>
    have step : putAll (xs ++ [x]) = (putAll xs).putSignature x.1 x.2 := by simp [putAll]
    have keys : ofKey n k (xs ++ [x]) = ofKey n k xs ++ if x.1 = n ∧ x.2.key = k then [x.2] else [] := by
      by_cases same : x.1 = n ∧ x.2.key = k <;> simp [ofKey, same]
    rw [step, keys, Profile.putSignature]
    by_cases service : n = x.1
    · subst service
      rw [Function.update_self]
      by_cases key : k = x.2.key
      · subst key
        rw [Function.update_self, if_pos ⟨rfl, rfl⟩, collect_snoc, ← ih]
        rfl
      · rw [Function.update_of_ne key, if_neg (fun same => key same.2.symm), List.append_nil, ih]
    · rw [Function.update_of_ne service, if_neg (fun same => service same.1.symm), List.append_nil, ih]

def SignatureCollection.contents (c : SignatureCollection) : List String × Multiset (List Int) :=
  (c.events.map Event.text, ↑c.durations)

theorem collect_perm {xs ys : List Signature} (perm : xs.Perm ys)
    (texts : ∀ x ∈ xs, ∀ y ∈ xs, x.events.map Event.text = y.events.map Event.text) :
    (collect xs).map SignatureCollection.contents = (collect ys).map SignatureCollection.contents := by
  cases xs with
  | nil => rw [perm.nil_eq]
  | cons x xs =>
    cases ys with
    | nil => cases perm.eq_nil
    | cons y ys =>
      have first := texts x (List.mem_cons_self ..) y (perm.mem_iff.mpr (List.mem_cons_self ..))
      have durations : (((x :: xs).map Signature.vector : List (List Int)) : Multiset (List Int)) =
          ((y :: ys).map Signature.vector : List (List Int)) := Multiset.coe_eq_coe.mpr (perm.map _)
      simp only [collect, Option.map_some, SignatureCollection.contents, first, durations]

section Signing
variable {s : State} {keys : List (LEU × String)}

def State.signatureOf (s : State) (key : LEU × String) (es : List Entry) : Signature :=
  ((s.walk key.1 key.2 .initial es).map Walk.signature).getD ⟨[], []⟩

def State.signed (s : State) (keys : List (LEU × String)) : List (String × Signature) :=
  keys.flatMap fun key => (s.recordedEntries key).map fun es => (key.2, s.signatureOf key es)

def State.SignsOnce (s : State) (key : LEU × String) (es : List Entry) : Prop :=
  ∃ w, s.walk key.1 key.2 .initial es = some w ∧ w.put = [s.signatureOf key es]

theorem read_service {key : LEU × String} (p : Profile) {ess : List (List Entry)}
    (each : ∀ es ∈ ess, s.SignsOnce key es) :
    ess.foldlM (s.readInstance key) p =
      some ((ess.map fun es => (key.2, s.signatureOf key es)).foldl (fun p x => p.putSignature x.1 x.2) p) := by
  induction ess generalizing p with
  | nil => rfl
  | cons es ess ih =>
    obtain ⟨w, walk, put⟩ := each es (List.mem_cons_self ..)
    have first : s.readInstance key p es = some (p.putSignature key.2 (s.signatureOf key es)) := by
      rw [State.readInstance, walk, Option.map_some, put]
      rfl
    rw [List.foldlM_cons, first]
    exact ih _ fun es member => each es (List.mem_cons_of_mem _ member)

theorem read_services (p : Profile) (each : ∀ key ∈ keys, ∀ es ∈ s.recordedEntries key, s.SignsOnce key es) :
    keys.foldlM s.readService p = some ((s.signed keys).foldl (fun p x => p.putSignature x.1 x.2) p) := by
  induction keys generalizing p with
  | nil => rfl
  | cons key keys ih =>
    rw [List.foldlM_cons, State.readService, read_service p (each key (List.mem_cons_self ..)), State.signed,
      List.flatMap_cons, List.foldl_append]
    exact ih _ fun key member => each key (List.mem_cons_of_mem _ member)

theorem created_puts_all (sound : Sound true s) (distinct : keys.Nodup)
    (each : ∀ key ∈ keys, ∀ es ∈ s.recordedEntries key, s.SignsOnce key es) :
    (createSignatures s keys).map Prod.snd = some (putAll (s.signed keys)) :=
  (created_read sound distinct).trans (read_services _ each)

theorem signed_mem {x : String × Signature} (member : x ∈ s.signed keys) :
    ∃ key ∈ keys, ∃ es ∈ s.recordedEntries key, x = (key.2, s.signatureOf key es) := by
  obtain ⟨key, listed, inside⟩ := List.mem_flatMap.mp member
  obtain ⟨es, recorded, rfl⟩ := List.mem_map.mp inside
  exact ⟨key, listed, es, recorded, rfl⟩

def SignableInstances (s : State) (keys : List (LEU × String)) : Prop :=
  ∀ key ∈ keys, ∀ es ∈ s.recordedEntries key, ∀ e ∈ es, e.Signable

instance (s : State) (keys : List (LEU × String)) : Decidable (SignableInstances s keys) := by
  unfold SignableInstances
  infer_instance

theorem signs_once {key : LEU × String} {es : List Entry} {w : Walk} (shaped : Shaped s) (plain : Plain s none)
    (clean : s.Clean) (tidy : s.All Entry.Tidy) (recorded : es ∈ s.recordedEntries key)
    (walk : s.walk key.1 key.2 .initial es = some w) :
    w.put = [s.signatureOf key es] ∧ (s.signatureOf key es).Regular := by
  have recorded' := recorded
  obtain ⟨i, member, rfl⟩ := List.mem_map.mp recorded
  have simple : Simple key.2 (i.entries.map s.deref) := by
    intro e inside
    rw [← List.map_tail, ← List.map_dropLast] at inside
    obtain ⟨r, there, rfl⟩ := List.mem_map.mp inside
    exact plain.stored key.1 key.2 i member r there
  obtain ⟨signature, first, row, put, aligned⟩ := instance_aligned shaped clean recorded' simple walk
  have marked : ∀ event ∈ w.signature.events, event.Marked := by
    refine walk_marked (fun e inside => ?_) (by simp [Walk.initial]) walk
    obtain ⟨r, _, rfl⟩ := List.mem_map.mp inside
    exact all_deref tidy_lasting tidy r
  -- The signature that is put in is the one at the end, for the last entry closes the instance.
  have last : w.signature ∈ w.put := by
    obtain ⟨h, m, c, entries, _, closes⟩ := shaped.stored key.1 key.2 i member
    have shape : i.entries.map s.deref = (h :: m).map s.deref ++ [s.deref c] := by simp [entries]
    rw [shape, walk_append] at walk
    obtain ⟨v, _, final⟩ := Option.bind_eq_some_iff.mp walk
    rw [State.walk, List.foldlM_cons] at final
    obtain ⟨u, closing, eq⟩ := Option.bind_eq_some_iff.mp final
    obtain rfl := Option.some.inj eq
    exact closing_puts closes closing
  have same : s.signatureOf key (i.entries.map s.deref) = w.signature := by rw [State.signatureOf, walk]; rfl
  rw [put, List.mem_singleton] at last
  rw [same]
  exact ⟨by rw [put, last], ⟨first, row, last ▸ aligned⟩, marked⟩

def State.instanceCount (s : State) (keys : List (LEU × String)) (n : String) : Nat :=
  ((keys.filter fun key => key.2 = n).map fun key => (s.instances key.1 key.2).length).sum

theorem signed_count (n : String) : (s.signed keys).countP (fun x => x.1 = n) = s.instanceCount keys n := by
  induction keys with
  | nil => rfl
  | cons key keys ih =>
    have step : s.signed (key :: keys) =
        ((s.recordedEntries key).map fun es => (key.2, s.signatureOf key es)) ++ s.signed keys := rfl
    rw [step, List.countP_append, ih, State.instanceCount, State.instanceCount, List.countP_map]
    by_cases name : key.2 = n
    · simp [name, State.recordedEntries, Function.comp_def]
    · simp [name, Function.comp_def]

end Signing

theorem count_eq_sum (k : String) (ks : List String) : (ks.map fun l => if k = l then 1 else 0).sum = ks.count k := by
  induction ks with
  | nil => rfl
  | cons l ks ih =>
    rw [List.map_cons, List.sum_cons, ih, List.count_cons, add_comm]
    by_cases same : k = l
    · simp [same]
    · simp [same, Ne.symm same]

theorem of_key_counts {n : String} {ks : List String} (distinct : ks.Nodup) {xs : List (String × Signature)}
    (listed : ∀ x ∈ xs, x.1 = n → x.2.key ∈ ks) :
    (ks.map fun k => (ofKey n k xs).length).sum = xs.countP fun x => x.1 = n := by
  induction xs with
  | nil => simp [ofKey]
  | cons x xs ih =>
    have rest := ih fun y member => listed y (List.mem_cons_of_mem x member)
    by_cases name : x.1 = n
    · have step : ∀ k, (ofKey n k (x :: xs)).length = (ofKey n k xs).length + if x.2.key = k then 1 else 0 := by
        intro k
        by_cases key : x.2.key = k <;> simp [ofKey, name, key]
      have one : (ks.map fun k => if x.2.key = k then 1 else 0).sum = 1 :=
        (count_eq_sum x.2.key ks).trans
          (List.count_eq_one_of_mem distinct (listed x (List.mem_cons_self ..) name))
      simp only [step, List.sum_map_add, rest, one]
      simp [name]
    · have step : ∀ k, (ofKey n k (x :: xs)).length = (ofKey n k xs).length := fun k => by simp [ofKey, name]
      simp only [step, rest]
      simp [name]

/-- The keys of the groups of a service, in the order in which the loops of storeSignatures meet
    them. -/
structure Ranges (p : Profile) (n : String) (ks : List String) : Prop where
  distinct : ks.Nodup
  groups : ∀ k, k ∈ ks ↔ (p n k).isSome

theorem fraction_total {F : Type} (A : Arithmetic F) {xs : List (String × Signature)} {n : String} {ks : List String}
    (ranges : Ranges (putAll xs) n ks) {f : Fraction F} {sorted : List (Fraction F)}
    (perm : sorted.Perm (fractions A (ks.filterMap (putAll xs n)))) (member : f ∈ sorted) :
    (sorted.map Fraction.count).sum = f.total ∧ f.total = xs.countP fun x => x.1 = n := by
  have size : ∀ k, ((putAll xs n k).elim 0 fun c => c.durations.length) = (ofKey n k xs).length := by
    intro k
    rw [put_all_collects]
    cases ofKey n k xs with
    | nil => rfl
    | cons x rest => simp [collect]
  have listed : ∀ x ∈ xs, x.1 = n → x.2.key ∈ ks := by
    intro x here name
    rw [ranges.groups, put_all_collects]
    have inside : x.2 ∈ ofKey n x.2.key xs := List.mem_map_of_mem (List.mem_filter.mpr ⟨here, by simp [name]⟩)
    cases group : ofKey n x.2.key xs with
    | nil =>
      rw [group] at inside
      cases inside
    | cons first rest => rfl
  have sum : ((ks.filterMap (putAll xs n)).map fun c => c.durations.length).sum = xs.countP fun x => x.1 = n := by
    rw [← of_key_counts ranges.distinct listed]
    simp only [← size]
    clear ranges perm listed
    induction ks with
    | nil => rfl
    | cons k ks ih =>
      cases group : putAll xs n k with
      | none => simp [group, ih]
      | some c => simp [group, ih]
  have counts : (sorted.map Fraction.count).sum = xs.countP fun x => x.1 = n := by
    rw [(perm.map Fraction.count).sum_eq, ← sum]
    simp [fractions, Function.comp_def]
  have total : f.total = xs.countP fun x => x.1 = n := by
    obtain ⟨c, _, rfl⟩ := List.mem_map.mp (perm.mem_iff.mp member)
    exact sum
  exact ⟨counts.trans total.symm, total⟩

/-- The profile is a partition of the recorded instances: each of them ends with its closing event
    and has one signature, a group consists of the instances of the service that have its key, which
    are those with the same event texts, and its vectors have one length. -/
structure Partition (s : State) (keys : List (LEU × String)) (p : Profile) : Prop where
  once : ∀ key ∈ keys, ∀ es ∈ s.recordedEntries key,
    (∃ last ∈ es.getLast?, last.closes key.2 = true) ∧ s.SignsOnce key es
  groups : ∀ n k, p n k = collect (ofKey n k (s.signed keys))
  shared : ∀ x ∈ s.signed keys, ∀ y ∈ s.signed keys,
    x.2.key = y.2.key ↔ x.2.events.map Event.text = y.2.events.map Event.text
  lengths : ∀ n k c, p n k = some c → ∀ d ∈ c.durations, ∀ d' ∈ c.durations, d.length = d'.length
  fractions : ∀ (F : Type) (A : Arithmetic F) n ks, Ranges p n ks → ∀ sorted : List (Fraction F),
    sorted.Perm (fractions A (ks.filterMap (p n))) → ∀ f ∈ sorted,
      (sorted.map Fraction.count).sum = f.total ∧ f.total = s.instanceCount keys n

theorem of_key_mem {n k : String} {xs : List (String × Signature)} {x : Signature} (member : x ∈ ofKey n k xs) :
    (n, x) ∈ xs ∧ x.key = k := by
  obtain ⟨⟨name, signature⟩, inside, rfl⟩ := List.mem_map.mp member
  obtain ⟨here, same⟩ := List.mem_filter.mp inside
  obtain ⟨rfl, rfl⟩ := of_decide_eq_true same
  exact ⟨here, rfl⟩

section Profiles
variable {s : State} {keys : List (LEU × String)}

theorem partition_put_all (shaped : Shaped s)
    (each : ∀ key ∈ keys, ∀ es ∈ s.recordedEntries key, s.SignsOnce key es ∧ (s.signatureOf key es).Regular) :
    Partition s keys (putAll (s.signed keys)) := by
  have regular : ∀ x ∈ s.signed keys, x.2.Regular := by
    intro x member
    obtain ⟨key, listed, es, recorded, rfl⟩ := signed_mem member
    exact (each key listed es recorded).2
  refine ⟨?_, put_all_collects _, ?_, ?_, ?_⟩
  · intro key listed es recorded
    refine ⟨?_, (each key listed es recorded).1⟩
    obtain ⟨i, member, rfl⟩ := List.mem_map.mp recorded
    obtain ⟨h, m, c, entries, _, closes⟩ := shaped.stored key.1 key.2 i member
    have shape : i.entries.map s.deref = (h :: m).map s.deref ++ [s.deref c] := by simp [entries]
    exact ⟨s.deref c, by rw [shape, List.getLast?_concat]; rfl, closes⟩
  · exact fun x left y right => key_iff_texts (regular x left) (regular y right)
  · intro n k c found d here d' there
    rw [put_all_collects] at found
    have vectors : ∀ d ∈ c.durations, ∃ x ∈ ofKey n k (s.signed keys), x.vector = d := by
      intro d member
      cases group : ofKey n k (s.signed keys) with
      | nil => simp [group, collect] at found
      | cons first rest =>
        rw [group, collect] at found
        obtain rfl := Option.some.inj found
        exact List.mem_map.mp member
    obtain ⟨x, left, rfl⟩ := vectors d here
    obtain ⟨y, right, rfl⟩ := vectors d' there
    obtain ⟨left, key⟩ := of_key_mem left
    obtain ⟨right, key'⟩ := of_key_mem right
    have texts := (key_iff_texts (regular _ left) (regular _ right)).mp (key.trans key'.symm)
    exact vector_length_texts (regular _ left) (regular _ right) texts
  · intro F A n ks ranges sorted perm f member
    obtain ⟨sum, total⟩ := fraction_total A ranges perm member
    exact ⟨sum, total.trans (signed_count n)⟩

theorem put_all_perm {keys' : List (LEU × String)} (perm : keys'.Perm keys)
    (regular : ∀ x ∈ s.signed keys', x.2.Regular) (n k : String) :
    (putAll (s.signed keys') n k).map SignatureCollection.contents =
      (putAll (s.signed keys) n k).map SignatureCollection.contents := by
  have signed : (s.signed keys').Perm (s.signed keys) := perm.flatMap_right _
  rw [put_all_collects, put_all_collects]
  refine collect_perm ((signed.filter _).map _) fun x left y right => ?_
  obtain ⟨left, key⟩ := of_key_mem left
  obtain ⟨right, key'⟩ := of_key_mem right
  exact (key_iff_texts (regular _ left) (regular _ right)).mp (key.trans key'.symm)

end Profiles

theorem plain_nested (r : Run) (l : Line) (plain : PlainLine r l) : NestedLine r l := fun e made => (plain e made).1

/-- On a nested trace without recursion createSignatures goes through if every recorded entry can be
    read, and only then. The profile is a partition of the instances, and the contents of its groups
    do not depend on the order of the keys. -/
theorem profile_partitions {file : List String} {r : Run} {keys : List (LEU × String)} (finished : run file = some r)
    (plain : TransitionRuns.Guarded Run.line PlainLine .initial (file.map lexLine)) (distinct : keys.Nodup) :
    (SignableInstances r.state keys ↔ ∃ u p, createSignatures r.state keys = some (u, p)) ∧
    ∀ u p, createSignatures r.state keys = some (u, p) → Partition r.state keys p ∧
      ∀ keys', keys'.Perm keys → ∃ u' p', createSignatures r.state keys' = some (u', p') ∧
        ∀ n k, (p' n k).map SignatureCollection.contents = (p n k).map SignatureCollection.contents := by
  have nested := TransitionRuns.guarded_mono plain_nested plain
  obtain ⟨shaped, apart⟩ := plain_run shaped_initial plain_initial plain finished
  have clean := clean_file finished nested
  have tidy := tidy_file finished nested
  have each : ∀ keys, SignableInstances r.state keys → ∀ key ∈ keys, ∀ es ∈ r.state.recordedEntries key,
      r.state.SignsOnce key es ∧ (r.state.signatureOf key es).Regular := by
    intro keys signable key listed es recorded
    obtain ⟨w, walk⟩ := Option.isSome_iff_exists.mp (walk_signable_iff.mpr (signable key listed es recorded))
    obtain ⟨put, regular⟩ := signs_once shaped apart clean tidy recorded walk
    exact ⟨⟨w, walk, put⟩, regular⟩
  have creates : ∀ {keys}, keys.Nodup → SignableInstances r.state keys →
      ∃ u, createSignatures r.state keys = some (u, putAll (r.state.signed keys)) := by
    intro keys distinct signable
    have puts := created_puts_all shaped.toSound distinct fun key listed es recorded =>
      (each keys signable key listed es recorded).1
    obtain ⟨⟨u, p⟩, created, rfl⟩ := Option.map_eq_some_iff.mp puts
    exact ⟨u, created⟩
  have reads : ∀ {u p}, createSignatures r.state keys = some (u, p) → SignableInstances r.state keys := by
    intro u p created key listed es recorded
    obtain ⟨w, walk, _⟩ := created_holds shaped.toSound distinct created listed recorded
    exact walk_signable_iff.mp (Option.isSome_of_eq_some walk)
  refine ⟨⟨fun signable => ?_, fun ⟨u, p, created⟩ => reads created⟩, fun u p created => ?_⟩
  · obtain ⟨u, created⟩ := creates distinct signable
    exact ⟨u, _, created⟩
  · have signable := reads created
    obtain ⟨v, again⟩ := creates distinct signable
    obtain ⟨rfl, rfl⟩ := Prod.mk.inj (Option.some.inj (created.symm.trans again))
    refine ⟨partition_put_all shaped (each keys signable), fun keys' perm => ?_⟩
    have signable' : SignableInstances r.state keys' := fun key listed => signable key (perm.mem_iff.mp listed)
    obtain ⟨u', created'⟩ := creates (perm.nodup_iff.mpr distinct) signable'
    refine ⟨u', _, created', put_all_perm perm fun x member => ?_⟩
    obtain ⟨key, listed, es, recorded, rfl⟩ := signed_mem member
    exact (each keys' signable' key listed es recorded).2

def twiceCallingFile : List String :=
  callingFile ++ ["SRVENTRY 0 1 10 0 0 0 f a", "SRVENTRY 0 1 11 0 0 0 g b", "SRVEXIT 0 1 14 0 0 0 g b",
    "SRVEXIT 0 1 19 0 0 0 f a"]

theorem profile_partitions_calling : ∃ r u p u' p', run twiceCallingFile = some r ∧
    createSignatures r.state [(.thread 2, "f"), (.thread 2, "g")] = some (u, p) ∧
    (p "g" "0 START\n0 STOP\n").map SignatureCollection.durations = some [[2], [3]] ∧
    Partition r.state [(.thread 2, "f"), (.thread 2, "g")] p ∧
    createSignatures r.state [(.thread 2, "g"), (.thread 2, "f")] = some (u', p') ∧
    ∀ n k, (p' n k).map SignatureCollection.contents = (p n k).map SignatureCollection.contents := by
  have ends : ((run twiceCallingFile).bind fun r =>
      (createSignatures r.state [(.thread 2, "f"), (.thread 2, "g")]).bind fun y =>
        (y.2 "g" "0 START\n0 STOP\n").map SignatureCollection.durations) = some [[2], [3]] := by
    decide +kernel
  simp only [Option.bind_eq_some_iff] at ends
  obtain ⟨r, finished, ⟨u, p⟩, created, found⟩ := ends
  have plain : TransitionRuns.Guarded Run.line PlainLine .initial (twiceCallingFile.map lexLine) := by
    decide +kernel
  obtain ⟨partition, order⟩ := (profile_partitions finished plain (by decide)).2 u p created
  obtain ⟨u', p', created', same⟩ := order [(.thread 2, "g"), (.thread 2, "f")] (.swap ..)
  exact ⟨r, u, p, u', p', finished, created, found, partition, created', same⟩

def unknownStateFile : List String :=
  ["CTXSW 0 1 1 1 2 0 0 a", "SRVENTRY 0 1 2 0 0 0 f a", "STATECOND 0 1 3 0 0 0 ff a", "SRVEXIT 0 1 9 0 0 0 f a"]

theorem unknown_state_panics : ¬ ∀ (file : List String) (r : Run) (keys : List (LEU × String)),
    run file = some r → TransitionRuns.Guarded Run.line PlainLine .initial (file.map lexLine) → keys.Nodup →
    (∀ key ∈ keys, r.state.instances key.1 key.2 ≠ []) → ∃ u p, createSignatures r.state keys = some (u, p) := by
  intro every
  have ends : (run unknownStateFile).isSome ∧ ∀ r ∈ run unknownStateFile,
      r.state.instances (.thread 2) "f" ≠ [] ∧ (createSignatures r.state [(.thread 2, "f")]).isNone := by
    decide +kernel
  obtain ⟨r, finished⟩ := Option.isSome_iff_exists.mp ends.1
  obtain ⟨recorded, panics⟩ := ends.2 r finished
  have plain : TransitionRuns.Guarded Run.line PlainLine .initial (unknownStateFile.map lexLine) := by
    decide +kernel
  obtain ⟨u, p, created⟩ :=
    every unknownStateFile r [(.thread 2, "f")] finished plain (by decide) (by simpa using recorded)
  rw [created] at panics
  cases panics

end Analyse
