import Workflow.Proofs.Debug.Sessions
/-!
A run that has just been made has no session, unless a run of its id left one behind. Without one no
command is carried out for it until a debugger attaches itself; from then on the session stays as long as
the run is held, and knows of no other run.
-/

namespace Workflow.Engine

open Debugger

variable {d : Deed} {ds : List Deed} {e e' e'' : Engine} {j k : MachineId} {r run : String}

/-- A session after a debugger has detached itself. -/
def shut (s : DebugSession) : DebugSession :=
  { s with attached := false }

theorem detach_books (run : String) (e : Engine) : (dropRetired run (closeSession run e)).books =
    if e.books.retired.contains run then { e.books with
      sessions := Entries.erase run (Entries.modify run shut e.books.sessions)
      lastValues := Entries.erase run e.books.lastValues
      retired := e.books.retired.erase run }
    else { e.books with sessions := Entries.modify run shut e.books.sessions } := by
  have hr : (closeSession run e).debugger.retired = e.books.retired := rfl
  unfold dropRetired
  rw [hr]
  split <;> rfl

theorem Stirs.isTidy (h : Stirs d e e') (hd : d ≠ .closeDebugger) (ht : e.books.IsTidy) :
    e'.books.IsTidy := by
  induction h with
  | refl => exact ht
  | tail _ h ih => exact h.isTidy hd ih

/-- An engine whose debugger listens to it. -/
structure IsAttended (e : Engine) : Prop where
  orderly : e.IsOrderly
  tidy : e.books.IsTidy

theorem IsAttended.stirs (h : e.IsAttended) (d : Deed) : Stirs d e (e.meet d) :=
  (h.orderly.meets d).stirs

theorem IsAttended.meet (h : e.IsAttended) (hd : d ≠ .closeDebugger) : (e.meet d).IsAttended :=
  ⟨h.orderly.meet d, Stirs.isTidy (h.stirs d) hd h.tidy⟩

theorem IsAttended.after (h : e.IsAttended) (hd : .closeDebugger ∉ ds) : (after ds e).IsAttended :=
  after_keeps (fun _ hm _ h => h.meet fun hc => hd (hc ▸ hm)) h

theorem opened_isAttended (settings : Settings) (registry : Registry)
    (provider : Option ElementProvider) (shared : Entries Value) :
    (opened settings registry provider shared).IsAttended :=
  ⟨opened_isOrderly settings registry provider shared, ⟨rfl, rfl, rfl⟩, List.nodup_nil, List.nodup_nil,
    List.nodup_nil, List.nodup_nil, (by rintro r ⟨⟩), (by rintro r ⟨⟩), fun _ => rfl⟩

/-! While a run is held. -/

/-- A machine or a later one is the one under an id, and as long as it is this machine, no session has
been left behind there. -/
structure Minds (r : String) (k : MachineId) (b : Books) : Prop where
  made : k < b.made
  since : ∀ {j}, Entries.find? r b.runs = some j → k ≤ j
  here : Entries.find? r b.runs = some k → r ∉ b.retired

theorem release_minds (ht : e.books.IsTidy) (h : Minds r k e.books) (run : String) :
    Minds r k (e.release run).books := by
  obtain ⟨bus, -, hb⟩ := release_books ht run
  obtain ⟨gone, retired, hg, hcases⟩ := forget_drops run ht.sessions ht.lastValues ht.retired
  have hfind {j : MachineId} (hf : Entries.find? r (Entries.erase run e.runs) = some j) :
      r ≠ run ∧ Entries.find? r e.runs = some j := by
    have hn : (Entries.keys e.runs).Nodup := ht.runs
    rw [Entries.find?_erase hn] at hf
    split at hf
    · cases hf
    · exact ⟨‹_›, hf⟩
  rw [hb]
  refine ⟨h.made, fun hf => h.since (hfind hf).2, fun hf hr => ?_⟩
  obtain ⟨hne, hf⟩ := hfind hf
  obtain ⟨hr, -⟩ := (hg.retired r).mp hr
  refine h.here hf ?_
  rcases hcases with ⟨-, -, rfl⟩ | ⟨-, hret, -⟩
  · exact hr
  · exact ((hret r).mp hr).resolve_right hne

theorem Stir.minds (hs : Stir d e e') (ht : e.books.IsTidy) (h : Minds r k e.books) :
    Minds r k e'.books := by
  cases hs with
  | still hb => rw [hb]; exact h
  | emit i type payload view =>
    obtain ⟨ev, bus, f, -, -, hb⟩ := emit_books ht i type payload view
    rw [hb]
    exact ⟨h.made, h.since, h.here⟩
  | release run => exact release_minds ht h run
  | hold hmk id hf hb =>
    have hfind {j : MachineId} (hj : Entries.find? r (Entries.insert id e.machines.size e.runs) = some j) :
        j = e.machines.size ∨ Entries.find? r e.runs = some j := by
      rw [Entries.find?_insert] at hj
      split at hj
      · exact .inl (Option.some.inj hj).symm
      · exact .inr hj
    have hlt : k < e.machines.size := h.made
    rw [hb]
    refine ⟨Nat.lt_succ_of_lt hlt, fun hj => ?_, fun hj => ?_⟩
    · rcases hfind hj with rfl | hj
      · exact Nat.le_of_lt hlt
      · exact h.since hj
    · rcases hfind hj with rfl | hj
      · exact absurd hlt (Nat.lt_irrefl _)
      · exact h.here hj
  | make hmk hb =>
    rw [hb]
    exact ⟨Nat.lt_succ_of_lt h.made, h.since, h.here⟩
  | attach ha hk =>
    unfold openSession
    dsimp only
    split <;> exact ⟨h.made, h.since, h.here⟩
  | detach ha =>
    rw [detach_books]
    split
    · exact ⟨h.made, h.since, fun hf hr => h.here hf (List.mem_of_mem_erase hr)⟩
    · exact ⟨h.made, h.since, h.here⟩
  | close hc => exact ⟨h.made, h.since, fun _ => List.not_mem_nil⟩

/-- As long as a machine is held under an id its session stays, and it stays attached until a debugger
detaches itself. -/
structure Stays (d : Deed) (r : String) (b b' : Books) : Prop where
  session : Entries.contains r b.sessions = true → Entries.contains r b'.sessions = true
  attached : ¬ d.Detaches r → (Entries.find? r b.sessions).any (·.attached) = true →
    (Entries.find? r b'.sessions).any (·.attached) = true

theorem Stays.of_eq {b b' : Books} (h : Entries.find? r b'.sessions = Entries.find? r b.sessions) :
    Stays d r b b' where
  session hc := by
    rw [Entries.contains, h]
    exact hc
  attached _ ha := by
    rw [h]
    exact ha

theorem release_stays (ht : e.books.IsTidy) (h : Minds r k e.books)
    (hk : Entries.find? r (e.release run).books.runs = some k) :
    Entries.find? r e.books.runs = some k ∧ Stays d r e.books (e.release run).books := by
  obtain ⟨bus, -, hb⟩ := release_books ht run
  obtain ⟨gone, retired, hg, hcases⟩ := forget_drops run ht.sessions ht.lastValues ht.retired
  rw [hb] at hk
  have hk : Entries.find? r (Entries.erase run e.books.runs) = some k := hk
  rw [Entries.find?_erase ht.runs] at hk
  split at hk
  · cases hk
  · rename_i hne
    refine ⟨hk, .of_eq ?_⟩
    rw [hb]
    refine (hg.sessions r).trans (if_neg fun hr => ?_)
    rcases hcases with ⟨-, rfl, -⟩ | ⟨-, hret, hsub⟩
    · exact hne (List.mem_singleton.mp hr)
    · exact h.here hk (((hret r).mp (hsub r hr)).resolve_right hne)

theorem Stir.stays (hs : Stir d e e') (hd : d ≠ .closeDebugger) (ht : e.books.IsTidy)
    (h : Minds r k e.books) (hk : Entries.find? r e'.books.runs = some k) :
    Entries.find? r e.books.runs = some k ∧ Stays d r e.books e'.books := by
  cases hs with
  | still hb =>
    rw [hb] at hk ⊢
    exact ⟨hk, .of_eq rfl⟩
  | emit i type payload view =>
    obtain ⟨ev, bus, f, -, hf, hb⟩ := emit_books ht i type payload view
    rw [hb] at hk ⊢
    refine ⟨hk, fun hc => ?_, fun _ ha => ?_⟩
    · rw [Entries.contains_modify]
      exact hc
    · rw [any_modify hf]
      exact ha
  | release run => exact release_stays ht h hk
  | hold hmk id hf hb =>
    rw [hb] at hk ⊢
    have hk : Entries.find? r (Entries.insert id e.books.made e.books.runs) = some k := hk
    rw [Entries.find?_insert] at hk
    split at hk
    · exact absurd (Option.some.inj hk) (Nat.ne_of_gt h.made)
    · exact ⟨hk, .of_eq rfl⟩
  | make hmk hb =>
    rw [hb] at hk ⊢
    exact ⟨hk, .of_eq rfl⟩
  | @attach run i ha hi =>
    have stays {s : DebugSession} (hs : s.attached = true) {b : Books}
        (hb : b.sessions = Entries.insert run s e.books.sessions) : Stays d r e.books b := by
      refine ⟨fun hc => ?_, fun _ hc => ?_⟩
      · rw [hb]
        exact Entries.contains_insert.mpr (.inr hc)
      · rw [hb, Entries.find?_insert]
        split
        · exact hs
        · exact hc
    unfold openSession at hk ⊢
    dsimp only at hk ⊢
    split at hk
    · exact ⟨hk, stays rfl rfl⟩
    · exact ⟨hk, stays rfl rfl⟩
  | @detach run ha =>
    have hother (hr : r ≠ run) : Entries.find? r (Entries.modify run shut e.books.sessions) =
        Entries.find? r e.books.sessions :=
      (Entries.find?_modify _ _ _ _).trans (if_neg hr)
    rw [detach_books] at hk ⊢
    split at hk
    · rename_i hret
      have hr : r ≠ run := by
        rintro rfl
        exact h.here hk (List.contains_iff_mem.mp hret)
      refine ⟨hk, .of_eq ?_⟩
      rw [if_pos hret]
      refine (Entries.find?_erase ?_ run r).trans ((if_neg hr).trans (hother hr))
      rw [Entries.keys_modify]
      exact ht.sessions
    · rename_i hret
      rw [if_neg hret]
      refine ⟨hk, ?_⟩
      by_cases hr : r = run
      · subst hr
        exact ⟨fun hc => (Entries.contains_modify _).trans hc, fun hn => absurd ha hn⟩
      · exact .of_eq (hother hr)
  | close hc => exact absurd hc hd

/-! What sessions see. -/

theorem recalled_append (r : String) (new old : List RunEvent) (values : Entries Value) :
    recalled r (new ++ old) values = recalled r new (recalled r old values) := by
  simp [recalled]

/-- Nothing but an attaching debugger opens a session. One that was there has seen the events since. -/
def Sees (r : String) (b b' : Books) : Prop :=
  ∃ new, b'.emitted = new ++ b.emitted ∧ (Entries.contains r b'.sessions = true →
    Entries.contains r b.sessions = true ∧
      Entries.find? r b'.lastValues = (Entries.find? r b.lastValues).map (recalled r new))

theorem Sees.of_find? {b b' : Books} (he : b'.emitted = b.emitted)
    (h : Entries.contains r b'.sessions = true → Entries.contains r b.sessions = true ∧
      Entries.find? r b'.lastValues = Entries.find? r b.lastValues) : Sees r b b' := by
  refine ⟨[], he, fun hc => ⟨(h hc).1, (h hc).2.trans ?_⟩⟩
  cases Entries.find? r b.lastValues <;> rfl

theorem Sees.trans {b b' b'' : Books} (h : Sees r b b') (g : Sees r b' b'') : Sees r b b'' := by
  obtain ⟨as, ha, hs⟩ := h
  obtain ⟨bs, hb, gs⟩ := g
  refine ⟨bs ++ as, by rw [hb, ha, List.append_assoc], fun hc => ?_⟩
  obtain ⟨hc, hv⟩ := gs hc
  obtain ⟨hc, hv'⟩ := hs hc
  refine ⟨hc, ?_⟩
  rw [hv, hv', Option.map_map]
  congr 1
  funext vs
  exact (recalled_append r bs as vs).symm

theorem Stir.sees (hs : Stir d e e') (hd : ¬ d.Attaches r) (hc : d ≠ .closeDebugger)
    (ht : e.books.IsTidy) : Sees r e.books e'.books := by
  cases hs with
  | still hb =>
    rw [hb]
    exact .of_find? rfl fun h => ⟨h, rfl⟩
  | emit i type payload view =>
    obtain ⟨ev, bus, f, -, -, hb⟩ := emit_books ht i type payload view
    rw [hb]
    refine ⟨[ev], rfl, fun hc => ?_⟩
    rw [Entries.contains_modify] at hc
    refine ⟨hc, (find?_takeValues (ht.recalled ev.run)).trans ?_⟩
    have hone (vs : Entries Value) : recalled r [ev] vs = if ev.run = r then seenAfter vs ev else vs :=
      recalled_cons [] vs
    show _ = (Entries.find? r e.debugger.lastValues).map _
    split
    · rename_i hr
      cases Entries.find? r e.debugger.lastValues with
      | none => rfl
      | some vs => rw [Option.map_some, Option.map_some, hone, if_pos hr.symm]
    · rename_i hr
      cases Entries.find? r e.debugger.lastValues with
      | none => rfl
      | some vs => rw [Option.map_some, hone, if_neg (Ne.symm hr)]
  | release run =>
    obtain ⟨bus, -, hb⟩ := release_books ht run
    obtain ⟨gone, retired, hg, -⟩ := forget_drops run ht.sessions ht.lastValues ht.retired
    rw [hb]
    refine .of_find? rfl fun hc => ?_
    have hs := hg.sessions r
    have hv := hg.lastValues r
    rw [Entries.contains, hs] at hc
    split at hc
    · cases hc
    · rename_i hr
      exact ⟨hc, hv.trans (if_neg hr)⟩
  | hold hmk id hf hb =>
    rw [hb]
    exact .of_find? rfl fun h => ⟨h, rfl⟩
  | make hmk hb =>
    rw [hb]
    exact .of_find? rfl fun h => ⟨h, rfl⟩
  | @attach run i ha hi =>
    have hr : r ≠ run := by
      rintro rfl
      exact hd ha
    have other {s : DebugSession} (hc : Entries.contains r (Entries.insert run s e.debugger.sessions) = true) :
        Entries.contains r e.debugger.sessions = true :=
      (Entries.contains_insert.mp hc).resolve_left hr
    unfold openSession
    dsimp only
    split
    · exact .of_find? rfl fun h => ⟨other h, rfl⟩
    · exact .of_find? rfl fun h => ⟨other h, Entries.find?_insert_of_ne hr _ _⟩
  | @detach run ha =>
    rw [detach_books]
    split
    · refine .of_find? rfl fun h => ?_
      have hkeys : (Entries.keys (Entries.modify run shut e.books.sessions)).Nodup := by
        rw [Entries.keys_modify]
        exact ht.sessions
      obtain ⟨hr, h⟩ := (Entries.contains_erase hkeys).mp h
      rw [Entries.contains_modify] at h
      exact ⟨h, (Entries.find?_erase ht.lastValues run r).trans (if_neg hr)⟩
    · exact .of_find? rfl fun h => ⟨(Entries.contains_modify _).symm.trans h, rfl⟩
  | close h => exact absurd h hc

theorem Stirs.minds (hs : Stirs d e e') (hd : d ≠ .closeDebugger) (ht : e.books.IsTidy)
    (h : Minds r k e.books) : Minds r k e'.books := by
  induction hs with
  | refl => exact h
  | tail hs g ih => exact g.minds (Stirs.isTidy hs hd ht) ih

theorem Stirs.stays (hs : Stirs d e e') (hd : d ≠ .closeDebugger) (ht : e.books.IsTidy)
    (h : Minds r k e.books) (hk : Entries.find? r e'.books.runs = some k) :
    Entries.find? r e.books.runs = some k ∧ Stays d r e.books e'.books := by
  induction hs with
  | refl => exact ⟨hk, .of_eq rfl⟩
  | tail hs g ih =>
    obtain ⟨hk, hg⟩ := g.stays hd (Stirs.isTidy hs hd ht) (Stirs.minds hs hd ht h) hk
    obtain ⟨hk, hs⟩ := ih hk
    exact ⟨hk, fun hc => hg.session (hs.session hc), fun hn ha => hg.attached hn (hs.attached hn ha)⟩

theorem Stirs.sees (hs : Stirs d e e') (hd : ¬ d.Attaches r) (hc : d ≠ .closeDebugger)
    (ht : e.books.IsTidy) : Sees r e.books e'.books := by
  induction hs with
  | refl => exact .of_find? rfl fun h => ⟨h, rfl⟩
  | tail hs g ih => exact ih.trans (g.sees hd hc (Stirs.isTidy hs hc ht))

/-! Deeds. -/

/-- A debugger that attaches itself opens the session of the run that is held, or changes nothing. -/
theorem handle_attach (e : Engine) {given : Value} (h : opOf given = "attach") :
    let run := (given.field "runId").name
    (handle e given).1 = e ∨ ∃ j, Entries.find? run e.runs = some j ∧
      (handle e given).1 = tellState run (openSession run j e) ∧
      (handle e given).2.field "ok" = .bool true := by
  intro run
  obtain ⟨x, hx⟩ | ⟨-, x, hx⟩ | hx := handle_cases e given
  · rw [hx]
    exact .inl rfl
  · rw [hx]
    exact .inl rfl
  · have hop : commandName ((given.field "type").orElse (.str "")).name = "attach" := h
    have hcommand : command "attach" (given.field "runId").name given = attach run := rfl
    rw [hop, hcommand] at hx
    have hl := requireRun_looks run e
    have hok (j : MachineId) : ((requireRun run).result e).1 = .ok j → _ := requireRun_ok
    rw [hx, attach, Work.result_bind]
    generalize (requireRun run).result e = y at hl hok
    obtain ⟨x | j, e'⟩ := y <;> cases hl
    · exact .inl rfl
    · exact .inr ⟨j, hok j rfl, rfl, rfl⟩

theorem meet_attaches (e : Engine) {given : Value} (h : (Deed.debug given).Attaches r) :
    e.meet (.debug given) = e ∨ ∃ j, Entries.find? r e.runs = some j ∧
      e.meet (.debug given) = tellState r (openSession r j e) ∧
      (handle e given).2.field "ok" = .bool true := by
  obtain ⟨hop, rfl⟩ := h
  have hmeet : e.meet (.debug given) = if e.active.isNone then (handle e given).1 else e := rfl
  rw [hmeet]
  split
  · exact handle_attach e hop
  · exact .inl rfl

/-- Since some deeds began a debugger has attached itself to the run that was held then, which was no
earlier one than some, and no earlier one has been held since. What its session keeps is what the
variables of that run were then, as changed by what was announced under the run's id since. -/
def OpenedSince (e : Engine) (ds : List Deed) (r : String) (k : MachineId) : Prop :=
  ∃ before given behind j new, ds = before ++ .debug given :: behind ∧
    (Deed.debug given).Attaches r ∧ (handle (after before e) given).2.field "ok" = .bool true ∧
    k ≤ j ∧ Entries.find? r (after before e).runs = some j ∧ Minds r j (after ds e).books ∧
    (after ds e).emitted = new ++ (after before e).emitted ∧
    Entries.find? r (after ds e).debugger.lastValues =
      some (recalled r new (((after before e).machine j).scope Machine.rootLayers).snapshot)

theorem IsAttended.minds (h : e.IsAttended) (hm : Minds r k e.books) (hd : .closeDebugger ∉ ds) :
    Minds r k (Engine.after ds e).books := by
  induction ds generalizing e with
  | nil => exact hm
  | cons d ds ih =>
    have hd' : d ≠ .closeDebugger := fun h => hd (h ▸ List.mem_cons_self)
    exact ih (h.meet hd') (Stirs.minds (h.stirs d) hd' h.tidy hm) fun hm => hd (List.mem_cons_of_mem _ hm)

/-- A session that was not there has been opened by a debugger. -/
theorem openedSince_of_session (h : e.IsAttended) (hm : Minds r k e.books)
    (hs : Entries.contains r e.debugger.sessions = false) (hd : .closeDebugger ∉ ds)
    (hc : Entries.contains r (after ds e).debugger.sessions = true) : OpenedSince e ds r k := by
  induction ds using List.reverseRecOn with
  | nil =>
    have hc : Entries.contains r e.debugger.sessions = true := hc
    rw [hs] at hc
    cases hc
  | append_singleton ds d ih =>
    have hds : .closeDebugger ∉ ds := fun h => hd (List.mem_append_left _ h)
    have hlate : d ≠ .closeDebugger := fun h => hd (List.mem_append_right _ (List.mem_singleton.mpr h.symm))
    have hlast : after (ds ++ [d]) e = (after ds e).meet d := after_append ds [d] e
    have hatt := h.after hds
    -- What was opened before is only seen longer.
    have longer (hc : Entries.contains r (after ds e).debugger.sessions = true) (new : List RunEvent)
        (he : ((after ds e).meet d).emitted = new ++ (after ds e).emitted)
        (hv : Entries.find? r ((after ds e).meet d).debugger.lastValues =
          (Entries.find? r (after ds e).debugger.lastValues).map (recalled r new)) :
        OpenedSince e (ds ++ [d]) r k := by
      obtain ⟨before, given, behind, j, old, rfl, ha, hok, hkj, hj, hmj, hold, hval⟩ := ih hds hc
      refine ⟨before, given, behind ++ [d], j, new ++ old, by simp, ha, hok, hkj, hj, ?_, ?_, ?_⟩
      · rw [hlast]
        exact Stirs.minds (hatt.stirs d) hlate hatt.tidy hmj
      · rw [hlast, he, hold, List.append_assoc]
      · rw [hlast, hv, hval, Option.map_some, recalled_append]
    have unseen (hc : Entries.contains r (after ds e).debugger.sessions = true)
        (he : ((after ds e).meet d).emitted = (after ds e).emitted)
        (hv : Entries.find? r ((after ds e).meet d).debugger.lastValues =
          Entries.find? r (after ds e).debugger.lastValues) : OpenedSince e (ds ++ [d]) r k := by
      refine longer hc [] he (hv.trans ?_)
      cases Entries.find? r (after ds e).debugger.lastValues <;> rfl
    rw [hlast] at hc
    by_cases ha : d.Attaches r
    · obtain ⟨given, rfl⟩ : ∃ given, d = .debug given := by
        cases d with
        | debug given => exact ⟨given, rfl⟩
        | _ => exact absurd ha id
      rcases meet_attaches (after ds e) ha with hmeet | ⟨j, hj, hmeet, hok⟩
      · rw [hmeet] at hc
        exact unseen hc (congrArg Engine.emitted hmeet) (by rw [hmeet])
      · cases hsess : Entries.find? r (after ds e).debugger.sessions with
        | some s =>
          have hopen : (after ds e).meet (.debug given) = tellState r { after ds e with
              debugger := { (after ds e).debugger with
                sessions := Entries.insert r { s with attached := true } (after ds e).debugger.sessions } } := by
            rw [hmeet, openSession]
            dsimp only
            rw [hsess]
          refine unseen (Option.isSome_of_eq_some hsess) ?_ ?_
          · rw [hopen]
            rfl
          · rw [hopen]
            rfl
        | none =>
          have hopen : (after ds e).meet (.debug given) = tellState r { after ds e with
              debugger := { (after ds e).debugger with
                sessions := Entries.insert r { lastNode := ((after ds e).machine j).run.current }
                  (after ds e).debugger.sessions
                lastValues := Entries.insert r
                  (((after ds e).machine j).scope Machine.rootLayers).snapshot
                  (after ds e).debugger.lastValues } } := by
            rw [hmeet, openSession]
            dsimp only
            rw [hsess]
          have hmj : Minds r j (after ds e).books := by
            refine ⟨(hatt.orderly.held hj).1, fun hi => ?_, fun _ hr => ?_⟩
            · exact Nat.le_of_eq (Option.some.inj (hj.symm.trans hi))
            · have hg := hatt.tidy.gone hr
              rw [show Entries.find? r (after ds e).books.sessions = none from hsess] at hg
              cases hg
          refine ⟨ds, given, [], j, [], rfl, ha, hok, (h.minds hm hds).since hj, hj, ?_, ?_, ?_⟩
          · rw [hlast]
            exact Stirs.minds (hatt.stirs _) hlate hatt.tidy hmj
          · rw [hlast, hopen]
            rfl
          · rw [hlast, hopen]
            exact Entries.find?_insert_self _ _ _
    · obtain ⟨new, he, hsees⟩ := Stirs.sees (hatt.stirs d) ha hlate hatt.tidy
      obtain ⟨hc, hv⟩ := hsees hc
      exact longer hc new he hv

/-- As long as a machine is held its session stays. -/
theorem session_stays (h : e.IsAttended) (hm : Minds r k e.books) (hd : .closeDebugger ∉ ds)
    (hk : Entries.find? r (after ds e).runs = some k) :
    (Entries.contains r e.debugger.sessions = true →
      Entries.contains r (after ds e).debugger.sessions = true) ∧
    ((∀ d ∈ ds, ¬ d.Detaches r) → e.debugger.isAttached r = true →
      (after ds e).debugger.isAttached r = true) := by
  have step (ds : List Deed) (e : Engine) (h : e.IsAttended) (hm : Minds r k e.books)
      (hd : .closeDebugger ∉ ds) (hk : Entries.find? r (after ds e).runs = some k) :
      Entries.find? r e.books.runs = some k ∧ (Entries.contains r e.books.sessions = true →
        Entries.contains r (after ds e).books.sessions = true) ∧
      ((∀ d ∈ ds, ¬ d.Detaches r) → (Entries.find? r e.books.sessions).any (·.attached) = true →
        (Entries.find? r (after ds e).books.sessions).any (·.attached) = true) := by
    induction ds generalizing e with
    | nil => exact ⟨hk, id, fun _ => id⟩
    | cons d ds ih =>
      have hd' : d ≠ .closeDebugger := fun h => hd (h ▸ List.mem_cons_self)
      have hs := h.stirs d
      obtain ⟨hk, hc, ha⟩ := ih (e.meet d) (h.meet hd') (Stirs.minds hs hd' h.tidy hm)
        (fun hm => hd (List.mem_cons_of_mem _ hm)) hk
      obtain ⟨hk, g⟩ := Stirs.stays hs hd' h.tidy hm hk
      exact ⟨hk, fun h => hc (g.session h), fun hn h => ha (fun d hd => hn d (List.mem_cons_of_mem _ hd))
        (g.attached (hn d List.mem_cons_self) h)⟩
  exact (step ds e h hm hd hk).2

/-- Without an attached session a command is rejected and changes nothing. -/
theorem handle_unattached (e : Engine) {given : Value}
    (hop : opOf given ∉ ["attach", "detach", "listRuns"])
    (ha : e.debugger.isAttached (given.field "runId").name = false) :
    ∃ x, handle e given = (e, rejected x) := by
  simp only [List.mem_cons, List.not_mem_nil, or_false, not_or] at hop
  obtain ⟨x, hx⟩ | ⟨hl, -⟩ | hx := handle_cases e given
  · exact ⟨x, hx⟩
  · exact absurd hl hop.2.2
  · have hr : ∃ x, ((command (opOf given) (given.field "runId").name given).result e).1 = .error x :=
      command_unattached ha hop.1 hop.2.1
    obtain ⟨x, hr⟩ := hr
    have hc := command_careful (opOf given) (given.field "runId").name given e x hr
    refine ⟨x, hx.trans ?_⟩
    unfold opOf at hr hc
    rw [show (command (commandName _) (given.field "runId").name given).result e = (.error x, e) from
      Prod.ext hr hc]

/-! What is told of variables. -/

/-- What a debugger is told of a variable: its value in a run that is held, and else the value that was
seen last. -/
def valueTold (e : Engine) (run name : String) (frame : Value) : Except Value Value :=
  match Entries.find? run e.runs with
  | some k => (e.machine k).getVar name frame
  | none =>
    .ok (match (Variables.ofValue (.obj ((Entries.find? run e.debugger.lastValues).getD []))).lookup
        (namePath name) with
      | .undefined => .null
      | v => v)

theorem getVar_told (e : Engine) (run : String) (name frame : Value) :
    (∃ x, (getVar run name frame).result e = (.error x, e)) ∨
    ∃ n v, name = .str n ∧ e.valueTold run n frame = .ok v ∧
      (getVar run name frame).result e = (.ok ("value", v), e) := by
  have hl := requireAttached_looks run e
  rw [getVar, Work.result_bind]
  generalize (requireAttached run).result e = y at hl
  obtain ⟨x | u, e⟩ := y <;> cases hl
  · exact .inl ⟨x, rfl⟩
  dsimp only
  split
  · exact .inl ⟨_, rfl⟩
  rw [Work.result_bind, show Work.result get e = (.ok e, e) from rfl]
  dsimp only [machine?, valueTold]
  cases name with
  | str n =>
    cases Entries.find? run e.runs with
    | none =>
      refine .inr ⟨n, _, rfl, rfl, ?_⟩
      dsimp only [Option.map_none]
      generalize Variables.ofValue _ = vars
      show Work.result (match vars.lookup (namePath n) with
        | .undefined => pure ("value", .null)
        | v => pure ("value", v)) e = _
      cases vars.lookup (namePath n) <;> rfl
    | some k =>
      dsimp only [Option.map_some, Machine.getVar]
      cases (e.machine k).frameLayers frame with
      | error x => exact .inl ⟨_, rfl⟩
      | ok layers =>
        refine .inr ⟨n, _, rfl, rfl, ?_⟩
        show Work.result (match ((e.machine k).vars layers).lookup (namePath n) with
          | .undefined => pure ("value", .null)
          | v => pure ("value", v)) e = _
        cases ((e.machine k).vars layers).lookup (namePath n) <;> rfl
  | _ =>
    refine .inl ?_
    cases Entries.find? run e.runs with
    | none => exact ⟨_, rfl⟩
    | some k =>
      dsimp only [Option.map_some]
      cases (e.machine k).frameLayers frame <;> exact ⟨_, rfl⟩

/-- A variable that is asked for is told, or the command is rejected. -/
theorem handle_getVar (e : Engine) {given : Value} (h : opOf given = "getVar") :
    (∃ x, handle e given = (e, rejected x)) ∨
    ∃ n v, given.field "name" = .str n ∧
      e.valueTold (given.field "runId").name n (given.field "frame") = .ok v ∧
      handle e given = (e, accepted ("value", v)) := by
  obtain ⟨x, hx⟩ | ⟨hl, -⟩ | hx := handle_cases e given
  · exact .inl ⟨x, hx⟩
  · exact absurd (hl.symm.trans h) (by decide)
  · have hop : commandName ((given.field "type").orElse (.str "")).name = "getVar" := h
    rw [hx, hop]
    rw [show command "getVar" (given.field "runId").name given =
      getVar (given.field "runId").name (given.field "name") (given.field "frame") from rfl]
    obtain ⟨x, hr⟩ | ⟨n, v, hn, hv, hr⟩ :=
      getVar_told e (given.field "runId").name (given.field "name") (given.field "frame")
    · rw [hr]
      exact .inl ⟨x, rfl⟩
    · rw [hr]
      exact .inr ⟨n, v, hn, hv, rfl⟩

/-! Runs that have just been made. -/

variable {f : Flow} {q : RunRequest}

/-- A run is made under an id that is free, and the debugger knows nothing of it. -/
theorem createFrom_held (h : e.createFrom f q = .ok (e', k)) :
    Entries.contains (e'.machine k).run.id e.runs = false ∧ e'.machines.size = k + 1 ∧
      e'.runs = Entries.insert (e'.machine k).run.id k e.runs ∧ e'.debugger = e.debugger := by
  obtain ⟨e₀, id, stamp, ha, hf, rfl, rfl⟩ := createFrom_shape h
  rw [machine_of_getElem? (e := (e₀.addMachine _).1) Array.getElem?_push_size, ← ha.runs]
  exact ⟨hf, Array.size_push _, rfl, ha.debugger⟩

theorem createFrom_isAttended (h : e.IsAttended) (hc : e.createFrom f q = .ok (e', k)) :
    e'.IsAttended := by
  have hs : Changes (.create f q) e e' := createFrom_changes trivial hc
  exact ⟨h.orderly.changes hs, Stirs.isTidy hs.stirs (by rintro ⟨⟩) h.tidy⟩

theorem createFrom_minds (hc : e.createFrom f q = .ok (e', k))
    (hr : (e'.machine k).run.id ∉ e.debugger.retired) : Minds (e'.machine k).run.id k e'.books := by
  obtain ⟨-, hsize, hruns, hd⟩ := createFrom_held hc
  refine ⟨?_, fun hj => ?_, fun _ => ?_⟩
  · exact Nat.lt_of_lt_of_eq (Nat.lt_succ_self k) hsize.symm
  · have hj : Entries.find? (e'.machine k).run.id e'.runs = some _ := hj
    rw [hruns, Entries.find?_insert_self] at hj
    exact Nat.le_of_eq (Option.some.inj hj)
  · show _ ∉ e'.debugger.retired
    rw [hd]
    exact hr

/-- The only session under the id of a run that has just been made is one that was left behind. -/
theorem createFrom_session (h : e.IsAttended) (hc : e.createFrom f q = .ok (e', k)) :
    Entries.contains (e'.machine k).run.id e'.debugger.sessions = true →
      (e'.machine k).run.id ∈ e.debugger.retired := by
  obtain ⟨hfree, -, -, hd⟩ := createFrom_held hc
  intro hs
  rw [hd] at hs
  refine (h.tidy.known hs).resolve_left fun hheld => ?_
  rw [show Entries.contains _ e.books.runs = _ from hfree] at hheld
  cases hheld

/-- A run that has just been made has no attached session, unless one was left behind by a run of its id
that is gone. If none was, then until a debugger has attached itself to it, or to a later run of its id,
all commands for it but a few are rejected; no value of an earlier run is ever told; and as long as the
run is held its session is not dropped, nor detached but by a debugger. -/
theorem new_run_undebugged (settings : Settings) (registry : Registry)
    (provider : Option ElementProvider) (shared : Entries Value) (hds : .closeDebugger ∉ ds)
    (hc : (after ds (opened settings registry provider shared)).createFrom f q = .ok (e', k)) :
    let e := after ds (opened settings registry provider shared)
    let r := (e'.machine k).run.id
    (e'.debugger.isAttached r = true ↔ r ∈ e.debugger.retired) ∧
    (r ∉ e.debugger.retired → ∀ ds', .closeDebugger ∉ ds' →
      let e₁ := after ds' e'
      (∀ given, (given.field "runId").name = r → opOf given ∉ ["attach", "detach", "listRuns"] →
        (∃ x, handle e₁ given = (e₁, rejected x)) ∨
        OpenedSince e' ds' r k ∧ (opOf given = "getVar" → ∃ n v, given.field "name" = .str n ∧
          e₁.valueTold r n (given.field "frame") = .ok v ∧
          handle e₁ given = (e₁, accepted ("value", v)))) ∧
      (∀ j, Entries.find? r e₁.runs = some j → k ≤ j) ∧
      ∀ ds₂, .closeDebugger ∉ ds₂ → Entries.find? r (after ds₂ e₁).runs = some k →
        (Entries.contains r e₁.debugger.sessions = true →
          Entries.contains r (after ds₂ e₁).debugger.sessions = true) ∧
        ((∀ d ∈ ds₂, ¬ d.Detaches r) → e₁.debugger.isAttached r = true →
          (after ds₂ e₁).debugger.isAttached r = true)) := by
  intro e r
  have he : e.IsAttended := (opened_isAttended settings registry provider shared).after hds
  have he' : e'.IsAttended := createFrom_isAttended he hc
  have hd : e'.debugger = e.debugger := (createFrom_held hc).2.2.2
  have session {d : Debugger} (ha : d.isAttached r = true) : Entries.contains r d.sessions = true := by
    unfold isAttached at ha
    rw [Entries.contains]
    cases hs : Entries.find? r d.sessions with
    | none => rw [hs] at ha; cases ha
    | some s => rfl
  refine ⟨⟨fun ha => createFrom_session he hc (session ha), fun hr => ?_⟩, fun hr ds' hds' => ?_⟩
  · rw [hd]
    exact he.tidy.gone hr
  intro e₁
  have hm : Minds r k e'.books := createFrom_minds hc hr
  have he₁ : e₁.IsAttended := he'.after hds'
  have hm₁ : Minds r k e₁.books := he'.minds hm hds'
  have hnone : Entries.contains r e'.debugger.sessions = false :=
    Bool.eq_false_iff.mpr fun hs => hr (createFrom_session he hc hs)
  refine ⟨fun given hgiven hop => ?_, fun j hj => hm₁.since hj, fun ds₂ hds₂ hk => session_stays he₁ hm₁ hds₂ hk⟩
  cases ha : e₁.debugger.isAttached r with
  | false =>
    exact .inl (handle_unattached e₁ hop (hgiven ▸ ha))
  | true =>
    have hopen := openedSince_of_session he' hm hnone hds' (session ha)
    by_cases hvar : opOf given = "getVar"
    · exact (handle_getVar e₁ hvar).imp id fun h => ⟨hopen, fun _ => hgiven ▸ h⟩
    · exact .inr ⟨hopen, fun h => absurd h hvar⟩

def waiting : Flow :=
  { id := "f", nodes := [{ id := "n", kind := "wait" }] }

def givenFor (type run : String) : Value :=
  .obj [("type", .str type), ("runId", .str run)]

/-- A run that is made, perhaps with a debugger attached to it, and is cancelled and discarded. -/
def discarded (attaching : List Deed) : List Deed :=
  [.create waiting { id := some "r" }] ++ attaching ++ [.cancel "r" none false, .discard "r"]

def afterDiscard (attaching : List Deed) : Engine :=
  after (discarded attaching) (opened {} [] none [])

/-- The next run of an id that no debugger was attached to cannot be paused by one that is not. -/
theorem new_run_undebugged_again : ∃ e' k,
    (afterDiscard []).createFrom waiting { id := some "r" } = .ok (e', k) ∧
    ∃ x, handle e' (givenFor "pause" "r") = (e', rejected x) := by
  have hc : ∃ p, (afterDiscard []).createFrom waiting { id := some "r" } = .ok p ∧
      (p.1.machine p.2).run.id = "r" := ⟨_, by with_unfolding_all rfl, by with_unfolding_all rfl⟩
  obtain ⟨⟨e', k⟩, hc, hid⟩ := hc
  have hds : .closeDebugger ∉ discarded [] := by simp [discarded]
  have hfresh : (e'.machine k).run.id ∉ (afterDiscard []).debugger.retired := by
    rw [hid]
    decide +kernel
  have hop : opOf (givenFor "pause" "r") ∉ ["attach", "detach", "listRuns"] := by decide +kernel
  obtain ⟨hcommands, -⟩ := (new_run_undebugged {} [] none [] hds hc).2 hfresh [] List.not_mem_nil
  obtain hx | ⟨⟨before, given, behind, -, -, hnone, -⟩, -⟩ :=
    hcommands (givenFor "pause" "r") hid.symm hop
  · exact ⟨e', k, hc, hx⟩
  · cases before <;> cases hnone

/-- A session that was left behind debugs the next run of its id without having been attached to it. -/
theorem left_session_debugs : ∃ e' k,
    (afterDiscard [.debug (givenFor "attach" "r")]).createFrom waiting { id := some "r" } = .ok (e', k) ∧
    e'.debugger.isAttached (e'.machine k).run.id = true ∧
    (handle e' (givenFor "pause" "r")).2.field "ok" = .bool true := by
  refine ⟨_, _, by with_unfolding_all rfl, ?_, ?_⟩
  · with_unfolding_all rfl
  · with_unfolding_all rfl

end Workflow.Engine
