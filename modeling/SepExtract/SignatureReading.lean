import SepExtract.CreateSignatures

/- The loops of createSignatures overwrite entries while they read them. An entry they
   overwrite belongs to one instance, once, so what they read is what run has recorded. -/
namespace Analyse

def State.recordedEntries (s : State) (key : LEU × String) : List (List Entry) :=
  (s.instances key.1 key.2).map fun i => i.entries.map s.deref

theorem dequeued_other {e : Entry} (srvkey : String) (type : e.eventType ≠ .srvqueue) : e.dequeued srvkey = e := by
  simp [Entry.dequeued, type]

theorem dequeued_type (e : Entry) (srvkey : String) : (e.dequeued srvkey).eventType = e.eventType := by
  unfold Entry.dequeued
  split <;> rfl

variable {home : Bool}

theorem shareable_not_queued {t : EventType} (shared : t.Shareable home) : t ≠ .srvqueue := by
  rintro rfl
  simp [EventType.Shareable] at shared

/-- A state that differs only in the entries of some service queue operations. -/
structure Touched (s u : State) (changed : Ref → Prop) : Prop where
  leus : u.leus = s.leus
  step : ∀ leu n, Walk.entry u leu n = Walk.entry s leu n
  type : ∀ r, (u.deref r).eventType = (s.deref r).eventType
  deref : ∀ r, ¬ changed r ∨ (s.deref r).eventType ≠ .srvqueue → u.deref r = s.deref r

theorem Touched.refl (s : State) (changed : Ref → Prop) : Touched s s changed :=
  ⟨rfl, fun _ _ => rfl, fun _ => rfl, fun _ _ => rfl⟩

theorem Touched.trans {s t u : State} {first second both : Ref → Prop} (left : Touched s t first)
    (right : Touched t u second) (within : ∀ r, first r ∨ second r → both r) : Touched s u both where
  leus := right.leus.trans left.leus
  step leu n := (right.step leu n).trans (left.step leu n)
  type r := (right.type r).trans (left.type r)
  deref r kept := by
    have out : (¬ first r ∨ (s.deref r).eventType ≠ .srvqueue) ∧ (¬ second r ∨ (t.deref r).eventType ≠ .srvqueue) :=
      ⟨kept.imp (fun none inside => none (within r (Or.inl inside))) id,
       kept.imp (fun none inside => none (within r (Or.inr inside))) fun other => by rw [left.type]; exact other⟩
    rw [right.deref r out.2, left.deref r out.1]

theorem deref_dequeued {s : State} {r x : Ref} (srvkey : String) (kept : x ≠ r ∨ (s.deref x).eventType ≠ .srvqueue) :
    (s.modify r (Entry.dequeued srvkey)).deref x = s.deref x := by
  by_cases same : x = r
  · subst same
    have type := kept.resolve_left fun other => other rfl
    by_cases valid : s.Valid x
    · rw [deref_modify_self _ valid, dequeued_other srvkey type]
    · unfold State.Valid at valid
      simp [State.deref, State.modify, List.getElem?_eq_none (Nat.le_of_not_lt valid)]
  · exact deref_modify_ne _ same

theorem touched_dequeued (s : State) (r : Ref) (srvkey : String) :
    Touched s (s.modify r (Entry.dequeued srvkey)) (fun x => x = r) where
  leus := rfl
  step _ _ := rfl
  type x := by
    by_cases same : x = r ∧ s.Valid x
    · obtain ⟨rfl, valid⟩ := same
      rw [deref_modify_self _ valid, dequeued_type]
    · by_cases other : x = r
      · subst other
        have invalid : ¬ s.Valid x := fun valid => same ⟨rfl, valid⟩
        unfold State.Valid at invalid
        simp [State.deref, State.modify, List.getElem?_eq_none (Nat.le_of_not_lt invalid)]
      · rw [deref_modify_ne _ other]
  deref _ kept := deref_dequeued srvkey kept

theorem walk_instance_cons (s : State) (leu : LEU) (n : String) (w : Walk) (r : Ref) (rs : List Ref) :
    State.walkInstance leu n (s, w) (r :: rs) = (w.entry s leu n (s.deref r)).bind fun w =>
      State.walkInstance leu n (s.modify r (Entry.dequeued n), w) rs := by
  simp only [State.walkInstance, List.foldlM_cons]
  cases Walk.entry s leu n w (s.deref r) <;> rfl

theorem walk_instance {s : State} {rs : List Ref} (leu : LEU) (n : String) (w : Walk) (once : s.Once home rs) :
    (State.walkInstance leu n (s, w) rs).map Prod.snd = s.walk leu n w (rs.map s.deref) ∧
    ∀ u v, State.walkInstance leu n (s, w) rs = some (u, v) → Touched s u (· ∈ rs) := by
  induction rs generalizing s w with
  | nil =>
    refine ⟨rfl, fun u v done => ?_⟩
    obtain ⟨rfl, _⟩ := Prod.mk.inj (Option.some.inj done)
    exact Touched.refl s _
  | cons r rs ih =>
    obtain ⟨apart, rest⟩ := List.pairwise_cons.mp once
    have later : ∀ x ∈ rs, (s.modify r (Entry.dequeued n)).deref x = s.deref x := by
      intro x member
      refine deref_dequeued n ?_
      by_cases same : x = r
      · subst same
        exact Or.inr (shareable_not_queued (apart x member rfl))
      · exact Or.inl same
    have once' : (s.modify r (Entry.dequeued n)).Once home rs :=
      once_of_deref rest fun x member shared => by rw [later x member]; exact shared
    have read : s.walk leu n w ((r :: rs).map s.deref) = (w.entry s leu n (s.deref r)).bind fun w' =>
        s.walk leu n w' (rs.map s.deref) := rfl
    rw [walk_instance_cons, read]
    cases step : w.entry s leu n (s.deref r) with
    | none => exact ⟨rfl, fun u v done => by cases done⟩
    | some w' =>
      obtain ⟨walked, touched⟩ := ih w' once'
      rw [List.map_congr_left later] at walked
      refine ⟨walked, fun u v done => ?_⟩
      refine (touched_dequeued s r n).trans (touched u v done) fun x inside => ?_
      rcases inside with rfl | inside
      · exact List.mem_cons_self ..
      · exact List.mem_cons_of_mem r inside

theorem walk_step {s u : State} {changed : Ref → Prop} (touched : Touched s u changed) (leu : LEU) (n : String)
    (w : Walk) (es : List Entry) : u.walk leu n w es = s.walk leu n w es := by
  unfold State.walk
  rw [touched.step]

def walkedRefs (s : State) (walked : Place → Prop) (r : Ref) : Prop := ∃ q, walked q ∧ r ∈ s.held q

theorem unread {s u : State} {walked : Place → Prop} {p : Place} (sound : Sound home s)
    (touched : Touched s u (walkedRefs s walked)) (fresh : ¬ walked p) :
    ∀ r ∈ s.held p, u.deref r = s.deref r := by
  intro r member
  refine touched.deref r ?_
  by_cases inside : walkedRefs s walked r
  · obtain ⟨q, before, held⟩ := inside
    have apart : q ≠ p := by
      rintro rfl
      exact fresh before
    exact Or.inr (shareable_not_queued (sound.unshared q p r held member apart))
  · exact Or.inl inside

theorem touched_weaken {s u : State} {walked more : Place → Prop} (touched : Touched s u (walkedRefs s walked))
    (within : ∀ q, walked q → more q) : Touched s u (walkedRefs s more) := by
  refine ⟨touched.leus, touched.step, touched.type, fun r kept => touched.deref r ?_⟩
  exact kept.imp (fun none ⟨q, before, held⟩ => none ⟨q, within q before, held⟩) id

def State.readInstance (s : State) (key : LEU × String) (p : Profile) (es : List Entry) : Option Profile :=
  (s.walk key.1 key.2 .initial es).map fun w => w.put.foldl (Profile.putSignature key.2) p

def State.readService (s : State) (p : Profile) (key : LEU × String) : Option Profile :=
  (s.recordedEntries key).foldlM (s.readInstance key) p

def State.readSignatures (s : State) (keys : List (LEU × String)) : Option Profile :=
  keys.foldlM s.readService fun _ _ => none

theorem sign_instance {s u : State} {key : LEU × String} {i : LEUentry} {j : Nat} {walked : Place → Prop}
    (p : Profile) (sound : Sound home s) (here : (s.instances key.1 key.2)[j]? = some i)
    (fresh : ¬ walked (.stored key.1 key.2 j)) (touched : Touched s u (walkedRefs s walked)) :
    (State.signInstance key.1 key.2 (u, p) i).map Prod.snd = s.readInstance key p (i.entries.map s.deref) ∧
    ∀ u' p', State.signInstance key.1 key.2 (u, p) i = some (u', p') →
      Touched s u' (walkedRefs s fun q => walked q ∨ q = .stored key.1 key.2 j) := by
  have held : s.held (.stored key.1 key.2 j) = i.entries := by simp [State.held, here]
  have same := unread sound touched fresh
  rw [held] at same
  have once : u.Once home i.entries := by
    have before := sound.once (.stored key.1 key.2 j)
    rw [held] at before
    exact once_of_deref before fun r _ shared => by rw [touched.type]; exact shared
  obtain ⟨walk, changed⟩ := walk_instance key.1 key.2 .initial once
  rw [walk_step touched, List.map_congr_left same] at walk
  constructor
  · rw [State.readInstance, ← walk, State.signInstance, Option.map_map, Option.map_map]
    rfl
  · intro u' p' done
    obtain ⟨⟨u₂, w⟩, walked_here, eq⟩ := Option.map_eq_some_iff.mp done
    obtain ⟨rfl, _⟩ := Prod.mk.inj eq
    refine touched.trans (changed u₂ w walked_here) fun r inside => ?_
    rcases inside with ⟨q, before, member⟩ | member
    · exact ⟨q, Or.inl before, member⟩
    · exact ⟨_, Or.inr rfl, held ▸ member⟩

theorem sign_instances {s u : State} {key : LEU × String} {is : List LEUentry} {j : Nat} {walked : Place → Prop}
    (p : Profile) (sound : Sound home s) (tail : (s.instances key.1 key.2).drop j = is)
    (fresh : ∀ i, j ≤ i → ¬ walked (.stored key.1 key.2 i)) (touched : Touched s u (walkedRefs s walked)) :
    (is.foldlM (State.signInstance key.1 key.2) (u, p)).map Prod.snd =
      (is.map fun i => i.entries.map s.deref).foldlM (s.readInstance key) p ∧
    ∀ u' p', is.foldlM (State.signInstance key.1 key.2) (u, p) = some (u', p') →
      Touched s u' (walkedRefs s fun q => walked q ∨ ∃ i, q = .stored key.1 key.2 i) := by
  induction is generalizing j walked u p with
  | nil =>
    refine ⟨rfl, fun u' p' done => ?_⟩
    obtain ⟨rfl, _⟩ := Prod.mk.inj (Option.some.inj done)
    exact touched_weaken touched fun q before => Or.inl before
  | cons i is ih =>
    have here : (s.instances key.1 key.2)[j]? = some i := by
      rw [← List.head?_drop, tail]
      rfl
    obtain ⟨read, changed⟩ := sign_instance p sound here (fresh j (Nat.le_refl j)) touched
    simp only [List.map_cons, List.foldlM_cons, ← read]
    cases first : State.signInstance key.1 key.2 (u, p) i with
    | none => exact ⟨rfl, fun u' p' done => by cases done⟩
    | some next =>
      obtain ⟨u₁, p₁⟩ := next
      have tail' : (s.instances key.1 key.2).drop (j + 1) = is := by
        rw [← List.drop_drop, tail]
        rfl
      have fresh' : ∀ k, j + 1 ≤ k →
          ¬ (walked (.stored key.1 key.2 k) ∨ Place.stored key.1 key.2 k = .stored key.1 key.2 j) := by
        rintro k above (before | same)
        · exact fresh k (by omega) before
        · have index := (Place.stored.inj same).2.2
          omega
      obtain ⟨rest, final⟩ := ih p₁ tail' fresh' (changed u₁ p₁ first)
      refine ⟨rest, fun u' p' done => touched_weaken (final u' p' done) fun q before => ?_⟩
      rcases before with (before | rfl) | other
      · exact Or.inl before
      · exact Or.inr ⟨j, rfl⟩
      · exact Or.inr other

theorem sign_services {s u : State} {rest : List (LEU × String)} {walked : Place → Prop} (p : Profile)
    (sound : Sound home s) (distinct : rest.Nodup) (fresh : ∀ key ∈ rest, ∀ i, ¬ walked (.stored key.1 key.2 i))
    (touched : Touched s u (walkedRefs s walked)) :
    (rest.foldlM State.signService (u, p)).map Prod.snd = rest.foldlM s.readService p := by
  induction rest generalizing walked u p with
  | nil => rfl
  | cons key rest ih =>
    obtain ⟨out, distinct'⟩ := List.nodup_cons.mp distinct
    have instances : u.instances key.1 key.2 = s.instances key.1 key.2 := by
      simp only [State.instances, touched.leus]
    obtain ⟨read, changed⟩ := sign_instances p sound (j := 0) rfl
      (fun i _ => fresh key (List.mem_cons_self ..) i) touched
    have service : (State.signService (u, p) key).map Prod.snd = s.readService p key := by
      rw [State.signService, State.readService, instances]
      exact read
    rw [List.foldlM_cons, List.foldlM_cons, ← service]
    cases first : State.signService (u, p) key with
    | none => rfl
    | some next =>
      obtain ⟨u₁, p₁⟩ := next
      rw [State.signService, instances] at first
      refine ih p₁ distinct' ?_ (changed u₁ p₁ first)
      rintro other member i (before | ⟨k, same⟩)
      · exact fresh other (List.mem_cons_of_mem key member) i before
      · obtain ⟨leu, name, _⟩ := Place.stored.inj same
        exact out (Prod.ext leu name ▸ member)

theorem created_read {s : State} {keys : List (LEU × String)} (sound : Sound home s) (distinct : keys.Nodup) :
    (createSignatures s keys).map Prod.snd = s.readSignatures keys := by
  have touched : Touched s s (walkedRefs s fun _ => False) := Touched.refl s _
  refine sign_services _ sound distinct ?_ touched
  exact fun _ _ _ none => none

section Rule
variable {s : State} {Inv : Profile → Prop} {keys : List (LEU × String)}

def PutKeeps (s : State) (keys : List (LEU × String)) (Inv : Profile → Prop) : Prop :=
  ∀ p key es w signature, key ∈ keys → es ∈ s.recordedEntries key → s.walk key.1 key.2 .initial es = some w →
    signature ∈ w.put → Inv p → Inv (p.putSignature key.2 signature)

theorem folds_keep {α β : Type} {f : β → α → Option β} {P : β → Prop} {xs : List α} {b c : β}
    (kept : ∀ x ∈ xs, ∀ b c, P b → f b x = some c → P c) (holds : P b) (done : xs.foldlM f b = some c) : P c := by
  induction xs generalizing b with
  | nil => exact Option.some.inj done ▸ holds
  | cons x xs ih =>
    obtain ⟨d, first, rest⟩ := Option.bind_eq_some_iff.mp done
    exact ih (fun y member => kept y (List.mem_cons_of_mem x member)) (kept x (List.mem_cons_self ..) b d holds first)
      rest

theorem put_all {key : LEU × String} {es : List Entry} {w : Walk} (keeps : PutKeeps s keys Inv) (listed : key ∈ keys)
    (recorded : es ∈ s.recordedEntries key) (walk : s.walk key.1 key.2 .initial es = some w) :
    ∀ (put : List Signature) (p : Profile), (∀ signature ∈ put, signature ∈ w.put) → Inv p →
      Inv (put.foldl (Profile.putSignature key.2) p) := by
  intro put
  induction put with
  | nil => exact fun p _ holds => holds
  | cons signature put ih =>
    intro p sub holds
    refine ih _ (fun other member => sub other (List.mem_cons_of_mem signature member)) ?_
    exact keeps p key es w signature listed recorded walk (sub signature (List.mem_cons_self ..)) holds

/-- The invariant rule: what holds of the empty profile and is kept when a signature of a
    recorded instance is put in holds of the profile that is stored. -/
theorem created_keeps {u : State} {p : Profile} (sound : Sound home s) (distinct : keys.Nodup)
    (done : createSignatures s keys = some (u, p)) (start : Inv fun _ _ => none) (keeps : PutKeeps s keys Inv) :
    Inv p := by
  have read : s.readSignatures keys = some p := by
    rw [← created_read sound distinct, done]
    rfl
  refine folds_keep (fun key listed b c holds service => ?_) start read
  refine folds_keep (fun es recorded b c holds instance' => ?_) holds service
  obtain ⟨w, walk, rfl⟩ := Option.map_eq_some_iff.mp instance'
  exact put_all keeps listed recorded walk w.put b (fun _ member => member) holds

structure Gathers (P : Signature → Prop) (key : String) (c : SignatureCollection) (signatures : List Signature) :
    Prop where
  each : ∀ signature ∈ signatures, P signature ∧ signature.key = key
  events : ∃ first ∈ signatures.head?, c.events = first.events
  durations : c.durations = signatures.map fun signature => signature.duration.map Duration.cycles

def Gathered (P : String → Signature → Prop) (p : Profile) : Prop :=
  ∀ n k c, p n k = some c → ∃ signatures, Gathers (P n) k c signatures

theorem gathered_put {P : String → Signature → Prop} {service : String} {signature : Signature} {p : Profile}
    (holds : P service signature) (before : Gathered P p) : Gathered P (p.putSignature service signature) := by
  intro n k c found
  unfold Profile.putSignature at found
  by_cases name : n = service
  · subst name
    rw [Function.update_self] at found
    by_cases same : k = signature.key
    · subst same
      rw [Function.update_self] at found
      obtain rfl := Option.some.inj found
      cases old : p n signature.key with
      | none =>
        refine ⟨[signature], ?_, ⟨signature, rfl, rfl⟩, rfl⟩
        intro other member
        rw [List.mem_singleton.mp member]
        exact ⟨holds, rfl⟩
      | some c =>
        obtain ⟨signatures, gathers⟩ := before n signature.key c old
        obtain ⟨first, head, events⟩ := gathers.events
        refine ⟨signatures ++ [signature], ?_, ⟨first, ?_, events⟩, ?_⟩
        · intro other member
          rcases List.mem_append.mp member with inside | final
          · exact gathers.each other inside
          · rw [List.mem_singleton.mp final]
            exact ⟨holds, rfl⟩
        · rw [Option.mem_def] at head
          simp [List.head?_append, head]
        · simp [SignatureCollection.add, gathers.durations]
    · rw [Function.update_of_ne same] at found
      exact before n k c found
  · rw [Function.update_of_ne name] at found
    exact before n k c found

theorem created_gathers {P : String → Signature → Prop} {u : State} {p : Profile} (sound : Sound home s)
    (distinct : keys.Nodup) (done : createSignatures s keys = some (u, p))
    (puts : ∀ key ∈ keys, ∀ es ∈ s.recordedEntries key, ∀ w, s.walk key.1 key.2 .initial es = some w →
      ∀ signature ∈ w.put, P key.2 signature) : Gathered P p := by
  have start : Gathered P fun _ _ => none := fun _ _ _ found => by cases found
  refine created_keeps sound distinct done start ?_
  intro p key es w signature listed recorded walk member before
  exact gathered_put (puts key listed es recorded w walk signature member) before

def Profile.Holds (p : Profile) (service : String) (signature : Signature) : Prop :=
  ∃ c, p service signature.key = some c ∧ signature.duration.map Duration.cycles ∈ c.durations

theorem put_holds (p : Profile) (service : String) (signature : Signature) :
    (p.putSignature service signature).Holds service signature := by
  unfold Profile.Holds Profile.putSignature
  rw [Function.update_self, Function.update_self]
  refine ⟨_, rfl, ?_⟩
  cases p service signature.key with
  | none => simp
  | some c => simp [SignatureCollection.add]

theorem holds_put {p : Profile} {service : String} {signature : Signature} (holds : p.Holds service signature)
    (name : String) (other : Signature) : (p.putSignature name other).Holds service signature := by
  obtain ⟨c, found, member⟩ := holds
  unfold Profile.Holds Profile.putSignature
  by_cases same : service = name
  · subst same
    rw [Function.update_self]
    by_cases key : signature.key = other.key
    · rw [key, Function.update_self]
      rw [key] at found
      exact ⟨_, rfl, by simp [found, SignatureCollection.add, member]⟩
    · rw [Function.update_of_ne key]
      exact ⟨c, found, member⟩
  · rw [Function.update_of_ne same]
    exact ⟨c, found, member⟩

theorem holds_puts {p : Profile} {service : String} {signature : Signature} (holds : p.Holds service signature)
    (name : String) (put : List Signature) : (put.foldl (Profile.putSignature name) p).Holds service signature := by
  induction put generalizing p with
  | nil => exact holds
  | cons other put ih => exact ih (holds_put holds name other)

theorem puts_hold (p : Profile) (service : String) (put : List Signature) :
    ∀ signature ∈ put, (put.foldl (Profile.putSignature service) p).Holds service signature := by
  induction put generalizing p with
  | nil => simp
  | cons first put ih =>
    intro signature member
    rcases List.mem_cons.mp member with rfl | member
    · exact holds_puts (put_holds p service signature) service put
    · exact ih _ signature member

theorem folds_reach {α β : Type} {f : β → α → Option β} {P : β → Prop} {xs : List α} {b c : β} {x : α}
    (kept : ∀ b y c, P b → f b y = some c → P c) (member : x ∈ xs) (reached : ∀ b c, f b x = some c → P c)
    (done : xs.foldlM f b = some c) : P c := by
  induction xs generalizing b with
  | nil => cases member
  | cons y xs ih =>
    obtain ⟨d, first, rest⟩ := Option.bind_eq_some_iff.mp done
    rcases List.mem_cons.mp member with rfl | member
    · exact folds_keep (fun z _ b c => kept b z c) (reached b d first) rest
    · exact ih member rest

def State.Signed (s : State) (key : LEU × String) (es : List Entry) (p : Profile) : Prop :=
  ∃ w, s.walk key.1 key.2 .initial es = some w ∧ ∀ signature ∈ w.put, p.Holds key.2 signature

theorem signed_kept {key name : LEU × String} {es other : List Entry} {p q : Profile} (signed : s.Signed key es p)
    (done : s.readInstance name p other = some q) : s.Signed key es q := by
  obtain ⟨w, walk, holds⟩ := signed
  obtain ⟨v, _, rfl⟩ := Option.map_eq_some_iff.mp done
  exact ⟨w, walk, fun signature member => holds_puts (holds signature member) name.2 v.put⟩

theorem created_holds {u : State} {p : Profile} {key : LEU × String} {es : List Entry} (sound : Sound home s)
    (distinct : keys.Nodup) (done : createSignatures s keys = some (u, p)) (listed : key ∈ keys)
    (recorded : es ∈ s.recordedEntries key) : s.Signed key es p := by
  have read : s.readSignatures keys = some p := by
    rw [← created_read sound distinct, done]
    rfl
  refine folds_reach (fun b name c signed service => ?_) listed (fun b c service => ?_) read
  · exact folds_keep (fun other _ b c => signed_kept) signed service
  · refine folds_reach (fun b other c => signed_kept) recorded (fun b c instance' => ?_) service
    obtain ⟨w, walk, rfl⟩ := Option.map_eq_some_iff.mp instance'
    exact ⟨w, walk, puts_hold b key.2 w.put⟩

end Rule

end Analyse
