import Workflow.Proofs.Engine.Holding
/-!
The sessions of a debugger that listens to its engine. Each is about a run that is held, or about one
that is gone and has left its session behind. What a session keeps of the variables of its run is what
was seen when it was opened and what the run has announced since.
-/

namespace Workflow

namespace Debugger

variable {d : Debugger} {ev : RunEvent} {r run : String}

/-- What is seen of the variables of a run after one of its events. -/
def seenAfter (values : Entries Value) (ev : RunEvent) : Entries Value :=
  match ev.type, Entries.find? "patch" ev.payload with
  | "vars.patch", some (.obj patch) =>
    if !((Entries.find? "frame" ev.payload).getD .null).isVacant then values
    else Entries.update values patch
  | _, _ => values

/-- What is seen after some events, the newest first, of which those of one run count. -/
def recalled (run : String) (new : List RunEvent) (values : Entries Value) : Entries Value :=
  (new.reverse.filter (·.run == run)).foldl seenAfter values

theorem recalled_cons (new : List RunEvent) (values : Entries Value) :
    recalled run (ev :: new) values =
      if ev.run = run then seenAfter (recalled run new values) ev else recalled run new values := by
  unfold recalled
  rw [List.reverse_cons, List.filter_append, List.foldl_append]
  by_cases h : ev.run = run <;> simp [h]

theorem takeValues_shape (d : Debugger) (ev : RunEvent) :
    ∃ lastValues, d.takeValues ev = { d with lastValues } := by
  unfold takeValues
  split
  · split
    · exact ⟨_, rfl⟩
    · split <;> exact ⟨_, rfl⟩
  · exact ⟨_, rfl⟩

theorem nodup_takeValues (h : (Entries.keys d.lastValues).Nodup) :
    (Entries.keys (d.takeValues ev).lastValues).Nodup := by
  unfold takeValues
  split
  · split
    · exact h
    · split
      · exact Entries.nodup_keys_insert h
      · exact h
  · exact h

/-- A debugger takes over what its sessions see. -/
theorem find?_takeValues (h : Entries.contains ev.run d.lastValues = Entries.contains ev.run d.sessions) :
    Entries.find? r (d.takeValues ev).lastValues =
      if r = ev.run then (Entries.find? r d.lastValues).map (seenAfter · ev)
      else Entries.find? r d.lastValues := by
  have same (hs : ∀ vs, seenAfter vs ev = vs) : Entries.find? r d.lastValues =
      if r = ev.run then (Entries.find? r d.lastValues).map (seenAfter · ev)
      else Entries.find? r d.lastValues := by
    split
    · cases Entries.find? r d.lastValues <;> simp [hs]
    · rfl
  unfold takeValues
  split
  · rename_i patch ht hp
    have hrecall (vs : Entries Value) : seenAfter vs ev =
        if !((Entries.find? "frame" ev.payload).getD .null).isVacant then vs
        else Entries.update vs patch := by
      unfold seenAfter
      rw [ht, hp]
      rfl
    split
    · rename_i hv
      exact same fun vs => by rw [hrecall, if_pos hv]
    · rename_i hv
      split
      · rename_i hc
        rw [hc, Entries.contains, Option.isSome_iff_exists] at h
        obtain ⟨vs, hvs⟩ := h
        show Entries.find? r (Entries.insert ev.run _ d.lastValues) = _
        rw [Entries.find?_insert, hvs]
        split
        · rename_i hr
          rw [hr, hvs, Option.map_some, hrecall, if_neg hv]
          rfl
        · rfl
      · rename_i hc
        rw [Bool.eq_false_iff.mpr hc, Entries.contains, Option.isSome_eq_false_iff, Option.isNone_iff_eq_none] at h
        split
        · rename_i hr
          rw [hr, h]
          rfl
        · rfl
  · rename_i hn
    exact same fun vs => by
      unfold seenAfter
      split
      · rename_i patch ht hp
        exact absurd hp (hn patch ht)
      · rfl

/-- What a debugger keeps of positions changes neither who is attached nor what has been seen. -/
theorem takePosition_shape (d : Debugger) (ev : RunEvent) : ∃ f : DebugSession → DebugSession,
    (∀ s, (f s).attached = s.attached) ∧
      d.takePosition ev = { d with sessions := Entries.modify ev.run f d.sessions } := by
  refine ⟨_, ?_, rfl⟩
  exact fun _ => rfl

/-! Runs that are gone. -/

/-- Some sessions have been dropped. -/
structure Drops (gone : List String) (d d' : Debugger) : Prop where
  sessions : ∀ r, Entries.find? r d'.sessions = if r ∈ gone then none else Entries.find? r d.sessions
  lastValues : ∀ r, Entries.find? r d'.lastValues =
    if r ∈ gone then none else Entries.find? r d.lastValues
  retired : ∀ r, r ∈ d'.retired ↔ r ∈ d.retired ∧ r ∉ gone
  sessionKeys : (Entries.keys d'.sessions).Nodup
  valueKeys : (Entries.keys d'.lastValues).Nodup
  nodup : d'.retired.Nodup

theorem foldl_drops (gone : List String) (hs : (Entries.keys d.sessions).Nodup)
    (hv : (Entries.keys d.lastValues).Nodup) (hr : d.retired.Nodup) :
    Drops gone d (gone.foldl drop d) := by
  induction gone generalizing d with
  | nil => exact ⟨fun r => by simp, fun r => by simp, fun r => by simp, hs, hv, hr⟩
  | cons g gone ih =>
    have h := ih (d := d.drop g) (Entries.nodup_keys_erase hs) (Entries.nodup_keys_erase hv) (hr.erase g)
    refine ⟨fun r => ?_, fun r => ?_, fun r => ?_, h.sessionKeys, h.valueKeys, h.nodup⟩
    · refine (h.sessions r).trans ?_
      show (if r ∈ gone then none else Entries.find? r (Entries.erase g d.sessions)) = _
      rw [Entries.find?_erase hs]
      by_cases hrg : r = g <;> simp [hrg]
    · refine (h.lastValues r).trans ?_
      show (if r ∈ gone then none else Entries.find? r (Entries.erase g d.lastValues)) = _
      rw [Entries.find?_erase hv]
      by_cases hrg : r = g <;> simp [hrg]
    · refine (h.retired r).trans ?_
      show r ∈ d.retired.erase g ∧ _ ↔ _
      rw [hr.mem_erase_iff, List.mem_cons, not_or]
      tauto

/-- A run is gone: its session is dropped unless it is attached, and if it is, then at most sessions of
runs that are gone are dropped. -/
theorem forget_drops (run : String) (hs : (Entries.keys d.sessions).Nodup)
    (hv : (Entries.keys d.lastValues).Nodup) (hr : d.retired.Nodup) : ∃ gone retired,
    Drops gone { d with retired } (d.forget run) ∧
      ((d.isAttached run = false ∧ gone = [run] ∧ retired = d.retired) ∨
        (d.isAttached run = true ∧ (∀ r, r ∈ retired ↔ r ∈ d.retired ∨ r = run) ∧
          ∀ r ∈ gone, r ∈ retired)) := by
  unfold forget
  cases ha : d.isAttached run with
  | false =>
    refine ⟨[run], d.retired, ?_, .inl ⟨rfl, rfl, rfl⟩⟩
    rw [if_pos (by rfl)]
    exact foldl_drops [run] hs hv hr
  | true =>
    rw [if_neg (by simp)]
    dsimp only
    have hmem (r : String) : r ∈ (if d.retired.contains run then d.retired else d.retired ++ [run]) ↔
        r ∈ d.retired ∨ r = run := by
      split
      · rename_i hc
        rw [List.contains_iff_mem] at hc
        exact ⟨.inl, fun h => h.elim id fun h => h ▸ hc⟩
      · simp
    have hnodup : (if d.retired.contains run then d.retired else d.retired ++ [run]).Nodup := by
      split
      · exact hr
      · rename_i hc
        rw [List.contains_iff_mem] at hc
        exact List.nodup_append.mpr ⟨hr, by simp, fun a ha b hb => by
          rintro rfl
          exact hc (List.mem_singleton.mp hb ▸ ha)⟩
    generalize (if d.retired.contains run then d.retired else d.retired ++ [run]) = retired at hmem hnodup
    exact ⟨_, retired, foldl_drops _ hs hv hnodup, .inr ⟨rfl, hmem, fun r hg => List.mem_of_mem_take hg⟩⟩

end Debugger

/-- The books of a debugger that listens to its engine. -/
structure Books.IsTidy (b : Books) : Prop where
  listens : b.bus.ofRun = [] ∧ b.bus.ofAll = [.debugger] ∧ b.bus.onForget = [.debugger]
  runs : (Entries.keys b.runs).Nodup
  sessions : (Entries.keys b.sessions).Nodup
  lastValues : (Entries.keys b.lastValues).Nodup
  retired : b.retired.Nodup
  /-- Sessions that were left behind are attached. -/
  gone : ∀ {r}, r ∈ b.retired → (Entries.find? r b.sessions).any (·.attached) = true
  known : ∀ {r}, Entries.contains r b.sessions = true →
    Entries.contains r b.runs = true ∨ r ∈ b.retired
  recalled : ∀ r, Entries.contains r b.lastValues = Entries.contains r b.sessions

namespace Engine

open Debugger

variable {d : Deed} {e e' : Engine} {k : MachineId} {r run : String}

theorem emit_books (h : e.books.IsTidy) (k : MachineId) (type : String) (payload : Entries Value)
    (view : RunView) : ∃ ev bus f,
      (bus.ofRun = [] ∧ bus.ofAll = [.debugger] ∧ bus.onForget = [.debugger]) ∧
      (∀ s, (f s).attached = s.attached) ∧
      (e.emit k type payload view).books = { e.books with
        bus
        sessions := Entries.modify ev.run f e.debugger.sessions
        lastValues := (e.debugger.takeValues ev).lastValues
        emitted := ev :: e.emitted } := by
  obtain ⟨h₁, h₂, h₃⟩ := h.listens
  have told (run : String) : e.bus.listenersOf run ++ e.bus.ofAll = [.debugger] := by
    have h₁ : e.bus.ofRun = [] := h₁
    have h₂ : e.bus.ofAll = [.debugger] := h₂
    rw [Bus.listenersOf, h₁, h₂]
    rfl
  generalize hrun : (e.machine k).run.id = run
  generalize hev : (e.bus.emit e.now run type payload).2.1 = ev
  obtain ⟨f, hf, hp⟩ := takePosition_shape (e.debugger.takeValues ev) ev
  obtain ⟨lv, hlv⟩ := takeValues_shape e.debugger ev
  have hobs (v : Option RunView) : (e.debugger.observe ev v).1 = { e.debugger with
      sessions := Entries.modify ev.run f e.debugger.sessions, lastValues := lv } := by
    have : (e.debugger.observe ev v).1 = (e.debugger.takeValues ev).takePosition ev := by
      unfold observe
      dsimp only
      split <;> rfl
    rw [this, hp, hlv]
  refine ⟨ev, (e.bus.emit e.now run type payload).1, f, ⟨h₁, h₂, h₃⟩, hf, ?_⟩
  unfold emit
  dsimp only
  rw [hrun]
  have htold : (e.bus.emit e.now run type payload).2.2 = [.debugger] := told run
  rw [htold, hev, hlv]
  simp only [List.foldl_cons, List.foldl_nil, books, push]
  rw [hobs]

theorem release_books (h : e.books.IsTidy) (run : String) : ∃ bus,
    (bus.ofRun = [] ∧ bus.ofAll = [.debugger] ∧ bus.onForget = [.debugger]) ∧
    (e.release run).books = { e.books with
      bus
      runs := Entries.erase run e.runs
      stored := Entries.erase run e.stored
      sessions := (e.debugger.forget run).sessions
      lastValues := (e.debugger.forget run).lastValues
      retired := (e.debugger.forget run).retired } := by
  obtain ⟨h₁, h₂, h₃⟩ := h.listens
  have h₁ : e.bus.ofRun = [] := h₁
  have h₃ : e.bus.onForget = [.debugger] := h₃
  refine ⟨(e.bus.forget run).1, ⟨?_, h₂, h₃⟩, ?_⟩
  · show Entries.erase run e.bus.ofRun = []
    rw [h₁]
    rfl
  · unfold release forget
    dsimp only
    have htold : (e.bus.forget run).2 = [.debugger] := h₃
    rw [htold]
    rfl

theorem any_modify {f : DebugSession → DebugSession} (hf : ∀ s, (f s).attached = s.attached)
    (run : String) (es : Entries DebugSession) :
    (Entries.find? r (Entries.modify run f es)).any (·.attached) =
      (Entries.find? r es).any (·.attached) := by
  rw [Entries.find?_modify]
  split
  · cases Entries.find? r es <;> simp [hf]
  · rfl

/-- An event keeps the books tidy. -/
theorem emit_isTidy (ht : e.books.IsTidy) (k : MachineId) (type : String) (payload : Entries Value)
    (view : RunView) : (e.emit k type payload view).books.IsTidy := by
  obtain ⟨ev, bus, f, hb, hf, hbooks⟩ := emit_books ht k type payload view
  rw [hbooks]
  refine ⟨hb, ht.runs, ?_, nodup_takeValues ht.lastValues, ht.retired, fun hr => ?_, fun hc => ?_,
    fun r => ?_⟩
  · show (Entries.keys (Entries.modify _ f _)).Nodup
    rw [Entries.keys_modify]
    exact ht.sessions
  · rw [any_modify hf]
    exact ht.gone hr
  · rw [Entries.contains_modify] at hc
    exact ht.known hc
  · rw [Entries.contains_modify, Entries.contains, find?_takeValues (ht.recalled ev.run)]
    refine Eq.trans ?_ (ht.recalled r)
    split
    · exact Option.isSome_map
    · rfl

/-- So does the end of what is known of a run. -/
theorem release_isTidy (ht : e.books.IsTidy) (run : String) : (e.release run).books.IsTidy := by
  obtain ⟨bus, hb, hbooks⟩ := release_books ht run
  obtain ⟨gone, retired, h, hcases⟩ := forget_drops run ht.sessions ht.lastValues ht.retired
  rw [hbooks]
  refine ⟨hb, Entries.nodup_keys_erase ht.runs, h.sessionKeys, h.valueKeys, h.nodup, fun {r} hr => ?_,
    fun {r} hc => ?_, fun r => ?_⟩
  · obtain ⟨hr, hg⟩ := (h.retired r).mp hr
    rw [h.sessions r, if_neg hg]
    rcases hcases with ⟨-, -, rfl⟩ | ⟨ha, hret, -⟩
    · exact ht.gone hr
    · rcases (hret r).mp hr with hr | rfl
      · exact ht.gone hr
      · exact ha
  · rw [Entries.contains, h.sessions r] at hc
    split at hc
    · cases hc
    · rename_i hg
      by_cases hr : r = run
      · subst hr
        rcases hcases with ⟨-, rfl, -⟩ | ⟨-, hret, -⟩
        · exact absurd (List.mem_singleton.mpr rfl) hg
        · exact .inr ((h.retired r).mpr ⟨(hret r).mpr (.inr rfl), hg⟩)
      · rcases ht.known hc with hk | hk
        · exact .inl ((Entries.contains_erase ht.runs).mpr ⟨hr, hk⟩)
        · refine .inr ((h.retired r).mpr ⟨?_, hg⟩)
          rcases hcases with ⟨-, -, rfl⟩ | ⟨-, hret, -⟩
          · exact hk
          · exact (hret r).mpr (.inl hk)
  · rw [Entries.contains, Entries.contains, h.sessions r, h.lastValues r]
    split
    · rfl
    · exact ht.recalled r

/-- A session is opened for a run that is held. -/
theorem openSession_isTidy (ht : e.books.IsTidy) (hk : Entries.find? run e.runs = some k) :
    (openSession run k e).books.IsTidy := by
  have hheld : Entries.contains run e.runs = true := by rw [Entries.contains, hk]; rfl
  have known {s : DebugSession} {r : String}
      (hc : Entries.contains r (Entries.insert run s e.debugger.sessions) = true) :
      Entries.contains r e.runs = true ∨ r ∈ e.debugger.retired := by
    rcases Entries.contains_insert.mp hc with rfl | hc
    · exact .inl hheld
    · exact ht.known hc
  have gone {s : DebugSession} (hs : s.attached = true) {r : String} (hr : r ∈ e.debugger.retired) :
      (Entries.find? r (Entries.insert run s e.debugger.sessions)).any (·.attached) = true := by
    rw [Entries.find?_insert]
    split
    · exact hs
    · exact ht.gone hr
  unfold openSession
  dsimp only
  split
  · rename_i s hs
    refine ⟨ht.listens, ht.runs, Entries.nodup_keys_insert ht.sessions, ht.lastValues, ht.retired, gone rfl,
      known, fun r => (ht.recalled r).trans ?_⟩
    rw [Bool.eq_iff_iff]
    refine Iff.trans ⟨.inr, fun h => h.elim ?_ id⟩ Entries.contains_insert.symm
    rintro rfl
    show (Entries.find? r e.debugger.sessions).isSome = true
    rw [hs]
    rfl
  · refine ⟨ht.listens, ht.runs, Entries.nodup_keys_insert ht.sessions, Entries.nodup_keys_insert ht.lastValues,
      ht.retired, gone rfl, known, fun r => ?_⟩
    rw [Bool.eq_iff_iff]
    refine Entries.contains_insert.trans (Iff.trans ?_ Entries.contains_insert.symm)
    have hr : Entries.contains r e.debugger.lastValues = Entries.contains r e.debugger.sessions :=
      ht.recalled r
    rw [hr]

/-- A session that was left behind is dropped when it is closed. -/
theorem closeSession_isTidy (ht : e.books.IsTidy) (run : String) :
    (dropRetired run (closeSession run e)).books.IsTidy := by
  let shut : Entries DebugSession := Entries.modify run ({ · with attached := false }) e.debugger.sessions
  have hkeys : (Entries.keys shut).Nodup := by
    show (Entries.keys (Entries.modify _ _ _)).Nodup
    rw [Entries.keys_modify]
    exact ht.sessions
  have hcontains (r : String) : Entries.contains r shut = Entries.contains r e.debugger.sessions :=
    Entries.contains_modify _
  have hother {r : String} (hr : r ≠ run) :
      Entries.find? r shut = Entries.find? r e.debugger.sessions :=
    (Entries.find?_modify _ _ _ _).trans (if_neg hr)
  unfold dropRetired
  split
  · refine ⟨ht.listens, ht.runs, Entries.nodup_keys_erase hkeys, Entries.nodup_keys_erase ht.lastValues,
      ht.retired.erase run, fun {r} hr => ?_, fun {r} hc => ?_, fun r => ?_⟩
    · obtain ⟨hne, hr⟩ := ht.retired.mem_erase_iff.mp hr
      show (Entries.find? r (Entries.erase run shut)).any _ = true
      rw [Entries.find?_erase hkeys, if_neg hne, hother hne]
      exact ht.gone hr
    · obtain ⟨hne, hc⟩ := (Entries.contains_erase hkeys).mp hc
      rw [hcontains] at hc
      exact (ht.known hc).imp_right fun hr => ht.retired.mem_erase_iff.mpr ⟨hne, hr⟩
    · rw [Bool.eq_iff_iff]
      refine (Entries.contains_erase ht.lastValues).trans (Iff.trans ?_ (Entries.contains_erase hkeys).symm)
      rw [hcontains]
      exact and_congr_right fun _ => Bool.eq_iff_iff.mp (ht.recalled r)
  · rename_i hret
    have hret : run ∉ e.debugger.retired := fun h => hret (List.contains_iff_mem.mpr h)
    refine ⟨ht.listens, ht.runs, hkeys, ht.lastValues, ht.retired, fun {r} hr => ?_, fun {r} hc => ?_,
      fun r => (ht.recalled r).trans (hcontains r).symm⟩
    · show (Entries.find? r shut).any _ = true
      rw [hother fun h => hret (h ▸ hr)]
      exact ht.gone hr
    · exact ht.known ((hcontains r).symm.trans hc)

/-- The books stay tidy until the debugger is closed. -/
theorem Stir.isTidy (h : Stir d e e') (hd : d ≠ .closeDebugger) (ht : e.books.IsTidy) :
    e'.books.IsTidy := by
  cases h with
  | still h => rw [h]; exact ht
  | emit k type payload view => exact emit_isTidy ht k type payload view
  | release run => exact release_isTidy ht run
  | hold hmk id hf h =>
    rw [h]
    refine ⟨ht.listens, Entries.nodup_keys_insert ht.runs, ht.sessions, ht.lastValues, ht.retired,
      ht.gone, fun hc => ?_, ht.recalled⟩
    exact (ht.known hc).imp_left fun h => Entries.contains_insert.mpr (.inr h)
  | make hmk h =>
    rw [h]
    exact ⟨ht.listens, ht.runs, ht.sessions, ht.lastValues, ht.retired, ht.gone, ht.known, ht.recalled⟩
  | attach ha hk => exact openSession_isTidy ht hk
  | detach ha => exact closeSession_isTidy ht _
  | close hc => exact absurd hc hd

end Engine

end Workflow
