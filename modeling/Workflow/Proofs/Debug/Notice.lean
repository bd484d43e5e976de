import Workflow.Proofs.Debug.Sessions
import Workflow.Proofs.Run.Stand
/-!
What observers are told. An event of a run gives rise to notices while a session is attached to the run, and
each notice is told to the observers of the run and to those of all runs, of which none is there twice.
-/

namespace Workflow

/-- Something to be told of a run: an event, or what its session and the run, if it is held, are like. -/
inductive Notice where
  | event (e : RunEvent)
  | state (run : String) (session : Option DebugSession) (stand : Option Stand)

namespace Notice

def run : Notice → String
  | event e => e.run
  | state run _ _ => run

/-- Whether a message says what a notice is about. The state of a run that is held tells its status, the reason
for its pause and the node that it has come to; what is not known of a run that is gone, or of the node, is what
the session saw last. -/
def Fits : Notice → Value → Prop
  | event e, message => message = e.toValue
  | state run session stand, message =>
    let told := message.field "state"
    message.field "type" = .str "debug.state" ∧ message.field "runId" = .str run ∧
    told.field "runId" = .str run ∧
    told.field "status" = .str (if session.any (·.attached) then "attached" else "detached") ∧
    told.field "execution" = .str ((stand.map (·.status.text)).getD "unknown") ∧
    told.field "pauseReason" =
      .ofText? (match stand with | some s => s.reason | none => session.bind (·.lastReason)) ∧
    told.field "currentNodeId" =
      .ofText? (((stand.bind (·.current)).filter (!·.isEmpty)).or (session.bind (·.lastNode)))

/-- Messages that say what some notices are about, each told to all who are to hear it. -/
inductive Told (audience : String → List Observer) : List Notice → List Push → Prop
  | nil : Told audience [] []
  | cons {x : Notice} {message : Value} {xs : List Notice} {ps : List Push} (h : x.Fits message)
      (hs : Told audience xs ps) :
      Told audience (x :: xs) ((audience x.run).map (⟨·, message⟩) ++ ps)

namespace Told

variable {audience : String → List Observer} {x : Notice} {xs ys : List Notice} {ps qs : List Push}

theorem one {message : Value} (h : x.Fits message) :
    Told audience [x] ((audience x.run).map (⟨·, message⟩)) := by
  rw [← List.append_nil (List.map _ _)]
  exact cons h nil

theorem append (h : Told audience xs ps) (g : Told audience ys qs) :
    Told audience (xs ++ ys) (ps ++ qs) := by
  induction h with
  | nil => exact g
  | cons hx _ ih =>
    rw [List.cons_append, List.append_assoc]
    exact .cons hx ih

/-- Who is there once hears a message once. -/
theorem heard_once {os : List Observer} (hn : (os.map (·.number)).Nodup) (message : Value) (n : Nat) :
    ((os.map fun o => (⟨o, message⟩ : Push)).filter (·.observer.number == n)).map (·.message) =
      if os.any (·.number == n) then [message] else [] := by
  induction os with
  | nil => rfl
  | cons o os ih =>
    rw [List.map_cons, List.nodup_cons] at hn
    have ih := ih hn.2
    by_cases ho : o.number = n
    · have hrest : os.any (·.number == n) = false := by
        rw [List.any_eq_false]
        intro u hu h
        exact hn.1 (List.mem_map.mpr ⟨u, hu, (beq_iff_eq.mp h).trans ho.symm⟩)
      rw [hrest] at ih
      simp [ho, ih]
    · simp [ho, ih]

/-- Who is in each audience at most once hears each notice once, and in order. -/
theorem heard (h : Told audience xs ps) (hn : ∀ run, ((audience run).map (·.number)).Nodup) (n : Nat) :
    List.Forall₂ Fits (xs.filter fun x => (audience x.run).any (·.number == n))
      ((ps.filter (·.observer.number == n)).map (·.message)) := by
  induction h with
  | nil => exact .nil
  | @cons x message xs ps hx _ ih =>
    rw [List.filter_append, List.map_append, heard_once (hn x.run), List.filter_cons]
    split
    · exact .cons hx ih
    · exact ih

end Told

end Notice

namespace Debugger

variable {d : Debugger} {ev : RunEvent} {run r : String} {view : Option RunView}
  {stand : String → Option Stand}

/-- Who is told of a run. -/
def audience (d : Debugger) (run : String) : List Observer :=
  (Entries.find? run d.ofRun).getD [] ++ d.ofAll

/-- Whether an observer is told of a run. -/
def hears (d : Debugger) (n : Nat) (run : String) : Bool :=
  (d.audience run).any (·.number == n)

/-- What is kept of an event. -/
def note (d : Debugger) (e : RunEvent) : Debugger :=
  (d.takeValues e).takePosition e

/-- The notices of an event that has been noted. -/
def noticesOf (stand : String → Option Stand) (d : Debugger) (e : RunEvent) : List Notice :=
  if d.isAttached e.run then
    (if forwarded.contains e.type then [.event e] else []) ++
      (if refreshing.contains e.type then [.state e.run (Entries.find? e.run d.sessions) (stand e.run)] else [])
  else []

/-- The notices of some events, each with the sessions as they are by then. -/
def notices (stand : String → Option Stand) : Debugger → List RunEvent → List Notice
  | _, [] => []
  | d, e :: es => noticesOf stand (d.note e) e ++ notices stand (d.note e) es

theorem notices_append (stand : String → Option Stand) (d : Debugger) (es fs : List RunEvent) :
    notices stand d (es ++ fs) = notices stand d es ++ notices stand (es.foldl note d) fs := by
  induction es generalizing d with
  | nil => rfl
  | cons e es ih => rw [List.cons_append, notices, ih, notices, List.append_assoc, List.foldl_cons]

theorem notices_congr {stand' : String → Option Stand} {es : List RunEvent}
    (h : ∀ e ∈ es, stand' e.run = stand e.run) (d : Debugger) : notices stand' d es = notices stand d es := by
  induction es generalizing d with
  | nil => rfl
  | cons e es ih =>
    rw [notices, notices, noticesOf, noticesOf, h e List.mem_cons_self,
      ih fun e he => h e (List.mem_cons_of_mem _ he)]

theorem note_observers (d : Debugger) (e : RunEvent) :
    (d.note e).ofRun = d.ofRun ∧ (d.note e).ofAll = d.ofAll ∧ (d.note e).nextObserver = d.nextObserver := by
  obtain ⟨f, -, h⟩ := takePosition_shape (d.takeValues e) e
  obtain ⟨lv, hv⟩ := takeValues_shape d e
  rw [note, h, hv]
  exact ⟨rfl, rfl, rfl⟩

/-- The state of a run fits what its session and the run are like. -/
theorem state_fits (d : Debugger) (run : String) (view : Option RunView) :
    (Notice.state run (Entries.find? run d.sessions) (view.map RunView.stand)).Fits (.obj [
      ("type", .str "debug.state"), ("runId", .str run), ("state", d.state run view)]) := by
  unfold Notice.Fits state isAttached
  cases view <;> exact ⟨rfl, rfl, rfl, rfl, rfl, rfl, rfl⟩

theorem pushState_told (d : Debugger) (run : String) (view : Option RunView) :
    Notice.Told d.audience [.state run (Entries.find? run d.sessions) (view.map RunView.stand)]
      (d.pushState run view) :=
  .one (d.state_fits run view)

/-- An event is noted, and then its notices are told. -/
theorem observe_told (d : Debugger) (ev : RunEvent) (hv : view.map RunView.stand = stand ev.run) :
    (d.observe ev view).1 = d.note ev ∧
      Notice.Told (d.note ev).audience (notices stand d [ev]) (d.observe ev view).2 := by
  have hone : notices stand d [ev] = noticesOf stand (d.note ev) ev := List.append_nil _
  rw [hone]
  unfold observe noticesOf
  dsimp only
  change (if !(d.note ev).isAttached ev.run then (d.note ev, []) else _).1 = _ ∧
    Notice.Told _ _ (if !(d.note ev).isAttached ev.run then (d.note ev, []) else _).2
  cases (d.note ev).isAttached ev.run with
  | false => exact ⟨rfl, .nil⟩
  | true =>
    refine ⟨rfl, .append ?_ ?_⟩
    · split
      · exact .one rfl
      · exact .nil
    · split
      · rw [← hv]
        exact pushState_told _ _ _
      · exact .nil

/-! Who is told. -/

theorem audience_congr {d' : Debugger} (hr : d'.ofRun = d.ofRun) (ha : d'.ofAll = d.ofAll) :
    d'.audience = d.audience := by
  funext run
  rw [audience, audience, hr, ha]

theorem note_audience (d : Debugger) (e : RunEvent) : (d.note e).audience = d.audience :=
  audience_congr (note_observers d e).1 (note_observers d e).2.1

/-- What is known of a run is dropped, but not who is told of it. -/
theorem forget_observers (d : Debugger) (run : String) : (d.forget run).ofRun = d.ofRun ∧
    (d.forget run).ofAll = d.ofAll ∧ (d.forget run).nextObserver = d.nextObserver := by
  have dropped (gone : List String) (d : Debugger) : (gone.foldl drop d).ofRun = d.ofRun ∧
      (gone.foldl drop d).ofAll = d.ofAll ∧ (gone.foldl drop d).nextObserver = d.nextObserver := by
    induction gone generalizing d with
    | nil => exact ⟨rfl, rfl, rfl⟩
    | cons g gone ih => exact ih (d.drop g)
  unfold forget
  split
  · exact ⟨rfl, rfl, rfl⟩
  · exact dropped _ _

/-- Observers are told apart by their numbers, and new ones get new numbers. -/
structure HasRoster (d : Debugger) : Prop where
  keys : (Entries.keys d.ofRun).Nodup
  fresh : ∀ run, ∀ o ∈ d.audience run, o.number < d.nextObserver
  nodup : ∀ run, ((d.audience run).map (·.number)).Nodup

theorem HasRoster.congr {d' : Debugger} (h : d.HasRoster) (hr : d'.ofRun = d.ofRun)
    (ha : d'.ofAll = d.ofAll) (hn : d'.nextObserver = d.nextObserver) : d'.HasRoster := by
  have he := audience_congr hr ha
  exact ⟨hr ▸ h.keys, he ▸ hn ▸ h.fresh, he ▸ h.nodup⟩

/-- Whether an observer of one run or of all is one of a run. -/
def isAbout (target : Option String) (run : String) : Bool :=
  target.all (· == run)

/-- A new observer comes behind others who are told of the same. -/
theorem subscribe_perm (d : Debugger) (name : String) (target : Option String) (run : String) :
    ((d.subscribe name target).1.audience run).Perm
      (if isAbout target run then (d.subscribe name target).2 :: d.audience run else d.audience run) := by
  cases target with
  | none =>
    show ((Entries.find? run d.ofRun).getD [] ++ (d.ofAll ++ [_])).Perm _
    rw [← List.append_assoc]
    exact List.perm_append_singleton _ _
  | some r =>
    show ((Entries.find? run (Entries.insert r _ d.ofRun)).getD [] ++ d.ofAll).Perm
      (if r == run then _ else _)
    rw [Entries.find?_insert]
    by_cases hr : run = r
    · subst hr
      rw [if_pos rfl, if_pos (by simp)]
      exact (List.perm_append_singleton _ _).append_right d.ofAll
    · rw [if_neg hr, if_neg (by simpa using Ne.symm hr)]
      exact .refl _

theorem subscribe_hears (d : Debugger) (name : String) (target : Option String) (n : Nat) (run : String) :
    (d.subscribe name target).1.hears n run =
      (d.hears n run || n == d.nextObserver && isAbout target run) := by
  have hn : (d.subscribe name target).2.number = d.nextObserver := rfl
  rw [hears, hears, (subscribe_perm d name target run).any_eq]
  split
  · rename_i ha
    rw [List.any_cons, hn, ha, Bool.and_true, Bool.or_comm]
    congr 1
    exact Bool.beq_comm
  · rename_i ha
    rw [Bool.eq_false_iff.mpr ha, Bool.and_false, Bool.or_false]

theorem HasRoster.subscribe (h : d.HasRoster) (name : String) (target : Option String) :
    (d.subscribe name target).1.HasRoster := by
  have hn : (d.subscribe name target).2.number = d.nextObserver := rfl
  have hnext : (d.subscribe name target).1.nextObserver = d.nextObserver + 1 := by cases target <;> rfl
  refine ⟨?_, fun run o ho => ?_, fun run => ?_⟩
  · cases target with
    | none => exact h.keys
    | some r => exact Entries.nodup_keys_insert h.keys
  · rw [(subscribe_perm d name target run).mem_iff] at ho
    rw [hnext]
    split at ho
    · rcases List.mem_cons.mp ho with rfl | ho
      · exact hn ▸ Nat.lt_succ_self _
      · exact Nat.lt_succ_of_lt (h.fresh run o ho)
    · exact Nat.lt_succ_of_lt (h.fresh run o ho)
  · rw [((subscribe_perm d name target run).map _).nodup_iff]
    split
    · rw [List.map_cons, List.nodup_cons, hn]
      refine ⟨fun hm => ?_, h.nodup run⟩
      obtain ⟨o, ho, heq⟩ := List.mem_map.mp hm
      exact absurd (h.fresh run o ho) (heq ▸ Nat.lt_irrefl _)
    · exact h.nodup run

/-- Lists of observers that none is left of are gone, as if they were empty. -/
theorem find?_cleared {os : Entries (List Observer)} (hk : (Entries.keys os).Nodup)
    (f : List Observer → List Observer) (run : String) (hf : f [] = []) :
    (Entries.find? run ((Entries.mapValues f os).filter (!·.2.isEmpty))).getD [] =
      f ((Entries.find? run os).getD []) := by
  induction os with
  | nil => exact hf.symm
  | cons e os ih =>
    rw [Entries.keys, List.map_cons, List.nodup_cons] at hk
    have ih := ih hk.2
    rw [Entries.mapValues, List.map_cons, List.filter_cons]
    by_cases he : e.1 = run
    · have hfree : Entries.find? run os = none := Entries.find?_eq_none_iff.mpr (he ▸ hk.1)
      rw [hfree] at ih
      have hfind : Entries.find? run (e :: os) = some e.2 := by
        rw [Entries.find?, if_pos (by simpa using he)]
      rw [hfind]
      split
      · rw [Entries.find?, if_pos (by simpa using he)]
        rfl
      · rename_i hempty
        have hempty : f e.2 = [] := by simpa using hempty
        exact ih.trans (hf.trans hempty.symm)
    · have hfind : Entries.find? run (e :: os) = Entries.find? run os := by
        rw [Entries.find?, if_neg (by simpa using he)]
      rw [hfind]
      split
      · rw [Entries.find?, if_neg (by simpa using he)]
        exact ih
      · exact ih

theorem unsubscribe_audience (hk : (Entries.keys d.ofRun).Nodup) (n : Nat) (run : String) :
    (d.unsubscribe n).audience run = (d.audience run).filter (·.number != n) := by
  rw [audience, audience, List.filter_append]
  exact congrArg (· ++ _) (find?_cleared hk (List.filter (·.number != n)) run rfl)

theorem unsubscribe_hears (hk : (Entries.keys d.ofRun).Nodup) (m n : Nat) (run : String) :
    (d.unsubscribe m).hears n run = (d.hears n run && n != m) := by
  rw [hears, hears, unsubscribe_audience hk, List.any_filter, Bool.eq_iff_iff]
  simp only [List.any_eq_true, Bool.and_eq_true, bne_iff_ne, beq_iff_eq]
  constructor
  · rintro ⟨o, ho, hm, rfl⟩
    exact ⟨⟨o, ho, rfl⟩, hm⟩
  · rintro ⟨⟨o, ho, rfl⟩, hm⟩
    exact ⟨o, ho, hm, rfl⟩

theorem HasRoster.unsubscribe (h : d.HasRoster) (n : Nat) : (d.unsubscribe n).HasRoster where
  keys := by
    refine h.keys.sublist ?_
    show (Entries.keys ((Entries.mapValues _ d.ofRun).filter _)).Sublist (Entries.keys d.ofRun)
    have hm : Entries.keys (Entries.mapValues (List.filter (·.number != n)) d.ofRun) = Entries.keys d.ofRun := by
      simp [Entries.keys, Entries.mapValues]
    rw [← hm]
    exact List.filter_sublist.map _
  fresh run o ho := by
    rw [unsubscribe_audience h.keys] at ho
    exact h.fresh run o (List.mem_of_mem_filter ho)
  nodup run := by
    rw [unsubscribe_audience h.keys]
    exact (h.nodup run).sublist (List.filter_sublist.map _)

end Debugger

end Workflow
