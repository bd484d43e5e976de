import Mathlib.Data.List.DropRight
import Workflow.Event.Telling
import Workflow.Proofs.Value.Entries
/-!
What a bus says and keeps, in whatever order events, subscriptions and forgetting come: a run's events
are numbered from one on since it was last forgotten, the last of them are kept, and the listeners of
the run hear of each of them before those of all runs do. Neither another run nor a listener that raises
makes a difference to any of this.
-/

namespace Workflow

namespace Telling

variable {L M : Type}

/-- A listener with what it was told, whether or not it raised. -/
def call (t : Telling L M) : L × M := (t.listener, t.message)

end Telling

namespace Reaction

variable {σ L M : Type} (react : Reaction σ L M)

theorem tell_call (listener : L) (message : M) (s : σ) :
    (react.tell listener message s).1.call = (listener, message) := by
  simp only [tell, bind, StateT.bind, ExceptT.run]
  obtain ⟨outcome, s⟩ := react listener message s
  cases outcome <;> rfl

/-- Every listener is told, in turn, whatever the others raise. -/
theorem tellAll_calls (calls : List (L × M)) :
    ∀ s : σ, (react.tellAll calls s).1.map Telling.call = calls := by
  induction calls with
  | nil => intro s; rfl
  | cons c calls ih =>
    intro s
    have hc := react.tell_call c.1 c.2 s
    have hr := ih (react.tell c.1 c.2 s).2
    exact congrArg₂ List.cons hc hr

end Reaction

namespace Bus

variable {σ L : Type}

/-- What can be done with a bus. -/
inductive Op (L : Type) where
  | emit (time : Seconds) (run type : String) (payload : Entries Value)
  | subscribe (listener : L) (run : Option String)
  | unsubscribe (listener : L) (run : Option String)
  | forget (run : String)
  | history (run : String) (after : Int)

/-- What comes of it: listeners that are told of an event, or events that are listed. -/
inductive Outcome (T : Type) where
  | done
  | told (event : RunEvent) (tellings : List T)
  | listed (events : List RunEvent)

/-- Who is told something. -/
def Outcome.calls {T : Type} : Outcome T → List T
  | told _ tellings => tellings
  | _ => []

/-- What comes of it, whether or not listeners raise. -/
def Outcome.bare : Outcome (Telling L RunEvent) → Outcome (L × RunEvent)
  | done => done
  | told event tellings => told event (tellings.map Telling.call)
  | listed events => listed events

/-- An operation with what came of it. -/
abbrev Entry (L : Type) := Op L × Outcome (L × RunEvent)

section
variable [BEq L]

def perform (react : Reaction σ L RunEvent) (b : Bus L) :
    Op L → StateM σ (Bus L × Outcome (Telling L RunEvent))
  | .emit time run type payload => do
    let (b, e, tellings) ← b.announce react time run type payload
    return (b, .told e tellings)
  | .subscribe listener run => return (b.subscribe listener run, .done)
  | .unsubscribe listener run => return (b.unsubscribe listener run, .done)
  | .forget run => return ((b.forget run).1, .done)
  | .history run after => return (b, .listed (b.history run after))

/-- Operations one after another, with a record of what came of each. -/
def performAll (react : Reaction σ L RunEvent) (b : Bus L) :
    List (Op L) → StateM σ (Bus L × List (Entry L))
  | [] => return (b, [])
  | op :: ops => do
    let (b, outcome) ← b.perform react op
    let (b, record) ← b.performAll react ops
    return (b, (op, outcome.bare) :: record)

/-- An operation when listeners have no way to raise. -/
def answer (b : Bus L) : Op L → Bus L × Outcome (L × RunEvent)
  | .emit time run type payload =>
    let (b, e, told) := b.emit time run type payload
    (b, .told e (told.map (·, e)))
  | .subscribe listener run => (b.subscribe listener run, .done)
  | .unsubscribe listener run => (b.unsubscribe listener run, .done)
  | .forget run => ((b.forget run).1, .done)
  | .history run after => (b, .listed (b.history run after))

def answerAll (b : Bus L) : List (Op L) → Bus L × List (Entry L)
  | [] => (b, [])
  | op :: ops =>
    let (b, outcome) := b.answer op
    let (b, record) := b.answerAll ops
    (b, (op, outcome) :: record)

theorem perform_eq (react : Reaction σ L RunEvent) (b : Bus L) (op : Op L) (s : σ) :
    ((b.perform react op s).1.1, (b.perform react op s).1.2.bare) = b.answer op := by
  cases op with
  | emit time run type payload =>
    have h := react.tellAll_calls
      ((b.emit time run type payload).2.2.map (·, (b.emit time run type payload).2.1)) s
    exact congrArg (fun calls => ((b.emit time run type payload).1,
      Outcome.told (b.emit time run type payload).2.1 calls)) h
  | subscribe | unsubscribe | forget | history => rfl

/-- What listeners raise makes no difference to a bus. -/
theorem performAll_eq (react : Reaction σ L RunEvent) (ops : List (Op L)) :
    ∀ (b : Bus L) (s : σ), (b.performAll react ops s).1 = b.answerAll ops := by
  induction ops with
  | nil => intro b s; rfl
  | cons op ops ih =>
    intro b s
    have hop := b.perform_eq react op s
    have hops := ih (b.perform react op s).1.1 (b.perform react op s).2
    calc (b.performAll react (op :: ops) s).1
        = (((b.perform react op s).1.1.performAll react ops (b.perform react op s).2).1.1,
            (op, (b.perform react op s).1.2.bare) ::
              ((b.perform react op s).1.1.performAll react ops (b.perform react op s).2).1.2) := rfl
      _ = b.answerAll (op :: ops) := by
        rw [hops, answerAll, ← hop]

end

/-! What is on record. -/

/-- The events of a run since it was last forgotten. -/
def sinceForgotten (run : String) (record : List (Entry L)) : List RunEvent :=
  record.foldl (fun events entry => match entry with
    | (.forget r, _) => if run = r then [] else events
    | (.emit _ r _ _, .told e _) => if run = r then events ++ [e] else events
    | _ => events) []

/-- The listeners that are subscribed to a run, or to all runs, in the order of subscription. -/
def audience [BEq L] (target : Option String) (record : List (Entry L)) : List L :=
  record.foldl (fun listeners entry => match entry.1 with
    | .subscribe listener t => if target = t then listeners ++ [listener] else listeners
    | .unsubscribe listener t => if target = t then listeners.erase listener else listeners
    | .forget r => if target = some r then [] else listeners
    | _ => listeners) []

/-- The events of a run, each with those that were told something at it, and what. -/
def emissions (run : String) (record : List (Entry L)) : List (RunEvent × List (L × RunEvent)) :=
  record.filterMap fun entry => match entry.2 with
    | .told e calls => if e.run = run then some (e, calls) else none
    | _ => none

/-- What those listeners heard of a run. -/
def heard (those : L → Bool) (run : String) (record : List (Entry L)) : List RunEvent :=
  record.flatMap fun entry =>
    (entry.2.calls.filter fun c => those c.1 && c.2.run == run).map Prod.snd

/-- Whether an operation has to do with a run. -/
def Op.concerns (run : String) : Op L → Bool
  | .emit _ r _ _ | .forget r | .history r _ => r == run
  | .subscribe _ target | .unsubscribe _ target => target.all (· == run)

/-- What has to come of an operation after what is on record, when so many events are kept. -/
def Fits [BEq L] (limit : Nat) (before : List (Entry L)) : Op L → Outcome (L × RunEvent) → Prop
  | .emit time run type payload, .told e calls =>
    e = ⟨type, run, (sinceForgotten run before).length + 1, time, payload⟩ ∧
      calls = (audience (some run) before ++ audience none before).map (·, e)
  | .history run after, .listed events =>
    events = ((sinceForgotten run before).rtake limit).filter fun e => (e.seq : Int) > after
  | .subscribe _ _, .done | .unsubscribe _ _, .done | .forget _, .done => True
  | _, _ => False

theorem sinceForgotten_concat (run : String) (record : List (Entry L)) (entry : Entry L) :
    sinceForgotten run (record ++ [entry]) = match entry with
      | (.forget r, _) => if run = r then [] else sinceForgotten run record
      | (.emit _ r _ _, .told e _) =>
        if run = r then sinceForgotten run record ++ [e] else sinceForgotten run record
      | _ => sinceForgotten run record := by
  rw [sinceForgotten, List.foldl_append]; rfl

section
variable [BEq L]

theorem audience_concat (target : Option String) (record : List (Entry L)) (entry : Entry L) :
    audience target (record ++ [entry]) = match entry.1 with
      | .subscribe listener t =>
        if target = t then audience target record ++ [listener] else audience target record
      | .unsubscribe listener t =>
        if target = t then (audience target record).erase listener else audience target record
      | .forget r => if target = some r then [] else audience target record
      | _ => audience target record := by
  rw [audience, List.foldl_append]; rfl

/-! Who is subscribed, after each operation. -/

/-- Who is subscribed to a run, or to all runs. -/
def subscribed (b : Bus L) : Option String → List L
  | some run => b.listenersOf run
  | none => b.ofAll

variable (b : Bus L) (listener : L) (target other : Option String) (run : String)

omit [BEq L] in
theorem subscribed_subscribe : (b.subscribe listener other).subscribed target =
    if target = other then b.subscribed target ++ [listener] else b.subscribed target := by
  cases other with
  | none => cases target <;> simp [subscribe, subscribed, listenersOf]
  | some r =>
    cases target with
    | none => simp [subscribe, subscribed]
    | some t =>
      simp only [subscribe, subscribed, listenersOf, Entries.find?_insert, Option.some.injEq]
      by_cases h : t = r <;> simp [h]

theorem subscribed_unsubscribe (hn : (Entries.keys b.ofRun).Nodup) :
    (b.unsubscribe listener other).subscribed target =
      if target = other then (b.subscribed target).erase listener else b.subscribed target := by
  cases other with
  | none => cases target <;> simp [unsubscribe, subscribed, listenersOf]
  | some r =>
    cases target with
    | none =>
      simp only [unsubscribe, subscribed, reduceCtorEq, if_false]
      split <;> rfl
    | some t =>
      simp only [unsubscribe, subscribed, Option.some.injEq]
      by_cases h : t = r
      · subst h
        rw [if_pos rfl]
        split <;> rename_i he
        · rw [he, listenersOf, Entries.find?_erase hn, if_pos rfl]; rfl
        · simp [listenersOf]
      · rw [if_neg h]
        split <;> simp [listenersOf, Entries.find?_erase hn, Entries.find?_insert, h]

omit [BEq L] in
theorem subscribed_forget (hn : (Entries.keys b.ofRun).Nodup) :
    (b.forget run).1.subscribed target = if target = some run then [] else b.subscribed target := by
  cases target with
  | none => simp [forget, subscribed]
  | some t =>
    simp only [forget, subscribed, listenersOf, Entries.find?_erase hn, Option.some.injEq]
    by_cases h : t = run <;> simp [h]

end

/-- A bus that has done what is on record. -/
structure Reflects [BEq L] (limit : Nat) (record : List (Entry L)) (b : Bus L) : Prop where
  limit_eq : b.historyLimit = limit
  nodup_last : (Entries.keys b.last).Nodup
  nodup_recent : (Entries.keys b.recent).Nodup
  nodup_ofRun : (Entries.keys b.ofRun).Nodup
  last_eq (run : String) : (Entries.find? run b.last).getD 0 = (sinceForgotten run record).length
  recent_eq (run : String) :
    (Entries.find? run b.recent).getD [] = (sinceForgotten run record).reverse.take limit
  subscribed_eq (target : Option String) : b.subscribed target = audience target record

section
variable [BEq L] {limit : Nat} {record : List (Entry L)} {b : Bus L}

theorem reflects_nil (limit : Nat) : Reflects limit [] ({ historyLimit := limit } : Bus L) where
  limit_eq := rfl
  nodup_last := .nil
  nodup_recent := .nil
  nodup_ofRun := .nil
  last_eq _ := rfl
  recent_eq _ := by simp [sinceForgotten, Entries.find?]
  subscribed_eq target := by cases target <;> rfl

/-- What comes of an operation fits to what is on record. -/
theorem fits_answer (h : Reflects limit record b) (op : Op L) :
    Fits limit record op (b.answer op).2 := by
  cases op with
  | emit time run type payload =>
    refine ⟨?_, ?_⟩
    · simp only [h.last_eq]
    · simp only [← h.subscribed_eq]; rfl
  | history run after =>
    have hr := List.rtake_eq_reverse_take_reverse (sinceForgotten run record) limit
    simp only [answer, Fits, history, h.recent_eq, hr, List.filter_reverse]
  | subscribe | unsubscribe | forget => trivial

theorem reflects_emit (h : Reflects limit record b) (time : Seconds) (run type : String)
    (payload : Entries Value) :
    Reflects limit (record ++ [(.emit time run type payload, (b.answer (.emit time run type payload)).2)])
      (b.answer (.emit time run type payload)).1 where
  limit_eq := h.limit_eq
  nodup_last := Entries.nodup_keys_insert h.nodup_last
  nodup_recent := Entries.nodup_keys_insert h.nodup_recent
  nodup_ofRun := h.nodup_ofRun
  last_eq r := by
    simp only [answer, emit, Entries.find?_insert, sinceForgotten_concat, h.last_eq]
    by_cases hr : r = run
    · simp [hr]
    · simpa [hr] using h.last_eq r
  recent_eq r := by
    have hlimit : b.historyLimit = limit := h.limit_eq
    simp only [answer, emit, Entries.find?_insert, sinceForgotten_concat]
    by_cases hr : r = run
    · simp only [hr, if_true, Option.getD_some, h.recent_eq, hlimit, List.reverse_append,
        List.reverse_singleton, List.singleton_append]
      cases limit with
      | zero => rfl
      | succ n => simp [List.take_take]
    · simpa [hr] using h.recent_eq r
  subscribed_eq target := by
    rw [audience_concat, ← h.subscribed_eq]
    cases target <;> rfl

theorem reflects_subscribe (h : Reflects limit record b) (listener : L) (target : Option String) :
    Reflects limit (record ++ [(.subscribe listener target, .done)]) (b.subscribe listener target) where
  limit_eq := by cases target <;> exact h.limit_eq
  nodup_last := by cases target <;> exact h.nodup_last
  nodup_recent := by cases target <;> exact h.nodup_recent
  nodup_ofRun := by
    cases target with
    | none => exact h.nodup_ofRun
    | some run => exact Entries.nodup_keys_insert h.nodup_ofRun
  last_eq r := by
    rw [sinceForgotten_concat, ← h.last_eq]
    cases target <;> rfl
  recent_eq r := by
    rw [sinceForgotten_concat, ← h.recent_eq]
    cases target <;> rfl
  subscribed_eq t := by rw [audience_concat, subscribed_subscribe, h.subscribed_eq]

/-- Taking back a subscription changes subscriptions only. -/
theorem unsubscribe_shape (b : Bus L) (listener : L) (target : Option String) :
    ∃ ofRun ofAll, b.unsubscribe listener target = { b with ofRun, ofAll } ∧
      ((Entries.keys b.ofRun).Nodup → (Entries.keys ofRun).Nodup) := by
  unfold unsubscribe
  cases target with
  | none => exact ⟨_, _, rfl, id⟩
  | some run =>
    dsimp only
    split
    · exact ⟨_, _, rfl, Entries.nodup_keys_erase⟩
    · exact ⟨_, _, rfl, Entries.nodup_keys_insert⟩

theorem reflects_unsubscribe (h : Reflects limit record b) (listener : L) (target : Option String) :
    Reflects limit (record ++ [(.unsubscribe listener target, .done)]) (b.unsubscribe listener target) := by
  have hs (t : Option String) := subscribed_unsubscribe b listener t target h.nodup_ofRun
  obtain ⟨ofRun, ofAll, he, hn⟩ := unsubscribe_shape b listener target
  rw [he] at hs ⊢
  exact {
    limit_eq := h.limit_eq
    nodup_last := h.nodup_last
    nodup_recent := h.nodup_recent
    nodup_ofRun := hn h.nodup_ofRun
    last_eq := fun r => by rw [sinceForgotten_concat]; exact h.last_eq r
    recent_eq := fun r => by rw [sinceForgotten_concat]; exact h.recent_eq r
    subscribed_eq := fun t => by rw [audience_concat, hs, h.subscribed_eq] }

theorem reflects_forget (h : Reflects limit record b) (run : String) :
    Reflects limit (record ++ [(.forget run, .done)]) (b.forget run).1 where
  limit_eq := h.limit_eq
  nodup_last := Entries.nodup_keys_erase h.nodup_last
  nodup_recent := Entries.nodup_keys_erase h.nodup_recent
  nodup_ofRun := Entries.nodup_keys_erase h.nodup_ofRun
  last_eq r := by
    simp only [forget, Entries.find?_erase h.nodup_last, sinceForgotten_concat]
    by_cases hr : r = run
    · simp [hr]
    · simpa [hr] using h.last_eq r
  recent_eq r := by
    simp only [forget, Entries.find?_erase h.nodup_recent, sinceForgotten_concat]
    by_cases hr : r = run
    · simp [hr]
    · simpa [hr] using h.recent_eq r
  subscribed_eq t := by rw [audience_concat, subscribed_forget _ _ _ h.nodup_ofRun, h.subscribed_eq]

theorem reflects_answer (h : Reflects limit record b) (op : Op L) :
    Reflects limit (record ++ [(op, (b.answer op).2)]) (b.answer op).1 := by
  cases op with
  | emit time run type payload => exact reflects_emit h time run type payload
  | subscribe listener target => exact reflects_subscribe h listener target
  | unsubscribe listener target => exact reflects_unsubscribe h listener target
  | forget run => exact reflects_forget h run
  | history run after =>
    exact {
      limit_eq := h.limit_eq
      nodup_last := h.nodup_last
      nodup_recent := h.nodup_recent
      nodup_ofRun := h.nodup_ofRun
      last_eq := fun r => by rw [sinceForgotten_concat]; exact h.last_eq r
      recent_eq := fun r => by rw [sinceForgotten_concat]; exact h.recent_eq r
      subscribed_eq := fun t => by rw [audience_concat]; exact h.subscribed_eq t }

/-- Everything on record fits to what was on record before. -/
def IsFit (limit : Nat) (record : List (Entry L)) : Prop :=
  ∀ before op outcome after, record = before ++ (op, outcome) :: after → Fits limit before op outcome

theorem IsFit.concat (h : IsFit limit record) {op : Op L} {outcome : Outcome (L × RunEvent)}
    (ho : Fits limit record op outcome) : IsFit limit (record ++ [(op, outcome)]) := by
  intro before op' outcome' after hr
  rcases List.eq_nil_or_concat after with rfl | ⟨after, last, rfl⟩
  · obtain ⟨rfl, hl⟩ := List.append_inj' hr rfl
    cases hl
    exact ho
  · rw [List.concat_eq_append, ← List.cons_append, ← List.append_assoc] at hr
    obtain ⟨hr, -⟩ := List.append_inj' hr rfl
    exact h before op' outcome' after hr

theorem IsFit.init {entry : Entry L} (h : IsFit limit (record ++ [entry])) :
    IsFit limit record ∧ Fits limit record entry.1 entry.2 :=
  ⟨fun before op outcome after hr =>
    h before op outcome (after ++ [entry]) (by rw [hr, List.append_assoc, List.cons_append]),
    h record entry.1 entry.2 [] rfl⟩

theorem answerAll_append (b : Bus L) (ops : List (Op L)) (op : Op L) :
    b.answerAll (ops ++ [op]) =
      (((b.answerAll ops).1.answer op).1,
        (b.answerAll ops).2 ++ [(op, ((b.answerAll ops).1.answer op).2)]) := by
  induction ops generalizing b with
  | nil => rfl
  | cons first ops ih => simp only [List.cons_append, answerAll, ih]

theorem answerAll_ops (b : Bus L) (ops : List (Op L)) :
    (b.answerAll ops).2.map Prod.fst = ops := by
  induction ops generalizing b with
  | nil => rfl
  | cons op ops ih => simp only [answerAll, List.map_cons, ih]

/-- A bus does what fits, over any operations. -/
theorem answerAll_fits (limit : Nat) (ops : List (Op L)) :
    let done := answerAll { historyLimit := limit } ops
    IsFit limit done.2 ∧ Reflects limit done.2 done.1 := by
  induction ops using List.reverseRecOn with
  | nil => exact ⟨by simp [IsFit, answerAll], reflects_nil limit⟩
  | append_singleton ops op ih =>
    obtain ⟨hf, hr⟩ := ih
    simp only [answerAll_append]
    exact ⟨hf.concat (fits_answer hr op), reflects_answer hr op⟩

/-! What fits. -/

theorem Fits.unique {before : List (Entry L)} {op : Op L} {o o' : Outcome (L × RunEvent)}
    (h : Fits limit before op o) (h' : Fits limit before op o') : o = o' := by
  cases op with
  | emit time run type payload =>
    cases o <;> cases o' <;> simp only [Fits] at h h'
    obtain ⟨rfl, rfl⟩ := h
    obtain ⟨rfl, rfl⟩ := h'
    rfl
  | history run after =>
    cases o <;> cases o' <;> simp only [Fits] at h h'
    rw [h, h']
  | subscribe | unsubscribe | forget => cases o <;> cases o' <;> trivial

omit [BEq L] in
theorem sinceForgotten_filter (run : String) (record : List (Entry L)) :
    sinceForgotten run (record.filter (·.1.concerns run)) = sinceForgotten run record := by
  rw [sinceForgotten, sinceForgotten, List.foldl_filter]
  congr 1
  funext events entry
  obtain ⟨op, outcome⟩ := entry
  cases op with
  | emit time r type payload =>
    by_cases hr : run = r
    · simp [Op.concerns, hr]
    · cases outcome <;> simp [hr]
  | forget r =>
    by_cases hr : run = r
    · simp [Op.concerns, hr]
    · simp [hr]
  | subscribe | unsubscribe | history => cases outcome <;> simp

theorem audience_filter {run : String} {target : Option String} (ht : target.all (· == run))
    (record : List (Entry L)) :
    audience target (record.filter (·.1.concerns run)) = audience target record := by
  rw [audience, audience, List.foldl_filter]
  congr 1
  funext listeners entry
  obtain ⟨op, outcome⟩ := entry
  cases op with
  | subscribe listener t | unsubscribe listener t =>
    by_cases h : target = t
    · subst h; simp [Op.concerns, ht]
    · simp [h]
  | forget r =>
    by_cases h : target = some r
    · subst h
      have hr : r = run := by simpa using ht
      simp [Op.concerns, hr]
    · simp [h]
  | emit | history => simp

/-- What fits at an operation depends only on what concerns the same run. -/
theorem fits_filter_iff {run : String} {op : Op L} (hop : op.concerns run)
    {outcome : Outcome (L × RunEvent)} :
    Fits limit (record.filter (·.1.concerns run)) op outcome ↔ Fits limit record op outcome := by
  have hrun : (some run).all (· == run) = true := by simp
  have hall : (none : Option String).all (· == run) = true := rfl
  cases op with
  | emit time r type payload =>
    obtain rfl : r = run := by simpa [Op.concerns] using hop
    cases outcome <;> simp only [Fits, sinceForgotten_filter, audience_filter hrun, audience_filter hall]
  | history r after =>
    obtain rfl : r = run := by simpa [Op.concerns] using hop
    cases outcome <;> simp only [Fits, sinceForgotten_filter]
  | subscribe | unsubscribe | forget => cases outcome <;> rfl

/-- What comes of the operations that concern a run is what comes of them when nothing else is done. -/
theorem answerAll_concerns (limit : Nat) (run : String) (ops : List (Op L)) :
    (answerAll { historyLimit := limit } ops).2.filter (·.1.concerns run) =
      (answerAll { historyLimit := limit } (ops.filter (Op.concerns run))).2 := by
  induction ops using List.reverseRecOn with
  | nil => rfl
  | append_singleton ops op ih =>
    rw [answerAll_append, List.filter_append, List.filter_append]
    by_cases hop : op.concerns run
    · have hf := fits_answer (answerAll_fits limit ops).2 op
      have hf' := fits_answer (answerAll_fits limit (ops.filter (Op.concerns run))).2 op
      rw [← fits_filter_iff hop, ih] at hf
      simp [hop, answerAll_append, ih, hf.unique hf']
    · simp [hop, ih]

/-- The events of a run are numbered from one on. -/
theorem IsFit.numbers (h : IsFit limit record) (run : String) :
    (sinceForgotten run record).map (·.seq) = List.range' 1 (sinceForgotten run record).length := by
  induction record using List.reverseRecOn with
  | nil => rfl
  | append_singleton record entry ih =>
    obtain ⟨hinit, hentry⟩ := h.init
    have ih := ih hinit
    obtain ⟨op, outcome⟩ := entry
    rw [sinceForgotten_concat]
    cases op with
    | emit time r type payload =>
      cases outcome with
      | done | listed events => exact hentry.elim
      | told e calls =>
        dsimp only
        split
        · rename_i hr
          obtain ⟨rfl, -⟩ := hentry
          subst hr
          simp only [List.map_append, List.map_cons, List.map_nil, ih, List.length_append,
            List.length_singleton, List.range'_concat, Nat.one_mul, Nat.add_comm 1]
        · exact ih
    | forget r =>
      dsimp only
      split
      · rfl
      · exact ih
    | subscribe | unsubscribe | history => exact ih

/-- At an event, every listener that is told something is told of that event. -/
theorem IsFit.calls_eq (h : IsFit limit record) {op : Op L} {e : RunEvent} {calls : List (L × RunEvent)}
    (hm : (op, Outcome.told e calls) ∈ record) : ∀ c ∈ calls, c.2 = e := by
  obtain ⟨before, after, rfl⟩ := List.append_of_mem hm
  have hf := h before op _ after rfl
  cases op with
  | emit time run type payload =>
    obtain ⟨-, rfl⟩ := hf
    simp only [List.mem_map]
    rintro c ⟨l, -, rfl⟩
    rfl
  | subscribe | unsubscribe | forget | history => exact hf.elim

omit [BEq L] in
/-- Those who are told of one event hear of it as often as they are there. -/
theorem heard_told {e : RunEvent} {calls : List (L × RunEvent)} (he : ∀ c ∈ calls, c.2 = e)
    (those : L → Bool) (run : String) :
    (calls.filter fun c => those c.1 && c.2.run == run).map Prod.snd =
      if e.run = run then List.replicate (calls.countP fun c => those c.1) e else [] := by
  have hf : calls.filter (fun c => those c.1 && c.2.run == run) =
      calls.filter fun c => those c.1 && e.run == run :=
    List.filter_congr fun c hc => by rw [he c hc]
  rw [hf]
  split <;> rename_i hr
  · simp only [hr, beq_self_eq_true, Bool.and_true]
    refine List.eq_replicate_iff.2 ⟨by rw [List.length_map, List.countP_eq_length_filter], ?_⟩
    intro e' hm
    obtain ⟨c, hc, rfl⟩ := List.mem_map.1 hm
    exact he c (List.mem_filter.1 hc).1
  · simp [hr]

/-- Listeners hear of a run's events in order. -/
theorem IsFit.heard_eq (h : IsFit limit record) (those : L → Bool) (run : String) :
    heard those run record = (emissions run record).flatMap fun e =>
      List.replicate (e.2.countP fun c => those c.1) e.1 := by
  have hcalls := @IsFit.calls_eq _ _ _ _ h
  clear h
  induction record with
  | nil => rfl
  | cons entry record ih =>
    have ih := ih fun hm => hcalls (List.mem_cons_of_mem _ hm)
    obtain ⟨op, outcome⟩ := entry
    rw [heard, List.flatMap_cons, ← heard, ih]
    cases outcome with
    | done | listed events => rfl
    | told e calls =>
      rw [Outcome.calls, heard_told (hcalls List.mem_cons_self), emissions, emissions,
        List.filterMap_cons]
      dsimp only
      split <;> rfl

/-- Whatever is done with a bus that keeps so many events, and whatever listeners raise: everything is
done; each event is numbered next to those of its run since the run was forgotten, and is told to the
run's listeners and then to those of all runs, in the order of subscription; a history lists the later
ones of the last events; a run's events have the numbers from one on; listeners hear of a run's events
in order, of each as often as they are told of it; and what concerns a run goes as if nothing else were
done, and as if its listeners raised whatever they like. -/
theorem numbered_and_told (limit : Nat) (react : Reaction σ L RunEvent) (ops : List (Op L)) (s : σ) :
    let record := (performAll react { historyLimit := limit } ops s).1.2
    record.map Prod.fst = ops ∧ IsFit limit record ∧
      (∀ run, (sinceForgotten run record).map (·.seq) =
        List.range' 1 (sinceForgotten run record).length) ∧
      (∀ those run, heard those run record = (emissions run record).flatMap fun e =>
        List.replicate (e.2.countP fun c => those c.1) e.1) ∧
      ∀ (run : String) {τ : Type} (others : Reaction τ L RunEvent) (t : τ),
        record.filter (·.1.concerns run) =
          (performAll others { historyLimit := limit } (ops.filter (Op.concerns run)) t).1.2 := by
  simp only [performAll_eq]
  have hf := (answerAll_fits limit ops).1
  exact ⟨answerAll_ops _ ops, hf, hf.numbers, hf.heard_eq, fun run _ _ _ =>
    answerAll_concerns limit run ops⟩

end

end Bus

end Workflow
