import Workflow.Proofs.Engine.Registry
/-!
What a store of runs lets go of when it is pruned: the ended runs beyond those that are to be kept, the
oldest first, and nothing else. And what an engine lets go of by itself, which is what its store does: of
the runs that it holds ended ones only, and when it does, as many ended runs as it retains are left at
most.
-/

namespace Workflow.Store

variable {R : Type} {key : R → RunKey} {s : Store R}

/-- Every run is kept under its own id, and once. -/
structure IsKeyed (key : R → RunKey) (s : Store R) : Prop where
  nodup : (Entries.keys s.runs).Nodup
  id_eq : ∀ r ∈ s.runs, (key r.2).id = r.1

theorem isKeyed_empty : IsKeyed key {} :=
  ⟨List.nodup_nil, fun _ h => by cases h⟩

theorem IsKeyed.saveRun (h : s.IsKeyed key) (r : R) : (s.saveRun key r).IsKeyed key := by
  refine ⟨Entries.nodup_keys_insert h.nodup, fun ⟨name, r'⟩ hm => ?_⟩
  obtain ⟨rfl, rfl⟩ | ⟨-, hm⟩ := (Entries.mem_insert h.nodup).mp hm
  · rfl
  · exact h.id_eq _ hm

theorem IsKeyed.deleteRun (h : s.IsKeyed key) (id : String) : (s.deleteRun id).IsKeyed key :=
  ⟨Entries.nodup_keys_erase h.nodup, fun r hm => h.id_eq r ((Entries.erase_sublist _ _).subset hm)⟩

theorem IsKeyed.prune (h : s.IsKeyed key) (keep : Int) : (s.prune key keep).1.IsKeyed key :=
  ⟨Entries.nodup_keys_erases h.nodup _, fun r hm => h.id_eq r ((Entries.erases_sublist _ _).subset hm)⟩

/-- The runs that have ended, in the order in which the store has them. -/
def ended (key : R → RunKey) (s : Store R) : Entries R :=
  s.runs.filter fun r => (key r.2).status.isTerminal

/-- The ended runs in the order in which they are let go of. -/
def outgoing (key : R → RunKey) (s : Store R) : Entries R :=
  (s.ended key).mergeSort fun a b => decide (endTime (key a.2) ≤ endTime (key b.2))

theorem outgoing_perm (key : R → RunKey) (s : Store R) : (s.outgoing key).Perm (s.ended key) :=
  List.mergeSort_perm _ _

theorem excess_entries (key : R → RunKey) (s : Store R) (keep : Nat) :
    excess (fun r : String × R => key r.2) s.runs keep =
      (s.outgoing key).take ((s.ended key).length - keep) := by
  have hlength : (((s.outgoing key).length : Int) - keep).toNat = (s.ended key).length - keep := by
    rw [(outgoing_perm key s).length_eq]
    omega
  rw [← hlength]
  rfl

theorem excess_values (key : R → RunKey) (runs : Entries R) (keep : Int) :
    excess key (Entries.values runs) keep =
      (excess (fun r : String × R => key r.2) runs keep).map (·.2) := by
  let ended := runs.filter fun r => (key r.2).status.isTerminal
  have hended : (Entries.values runs).filter (fun r => (key r).status.isTerminal) =
      ended.map (·.2) := List.filter_map
  have hordered : (ended.map (·.2)).mergeSort
      (fun a b => decide (endTime (key a) ≤ endTime (key b))) =
      (ended.mergeSort fun a b => decide (endTime (key a.2) ≤ endTime (key b.2))).map (·.2) :=
    (List.map_mergeSort (f := fun r : String × R => r.2) fun _ _ _ _ => rfl).symm
  simp only [excess]
  rw [hended, hordered, List.length_map, List.map_take]

/-- The ended runs that are let go of. -/
def leaving (key : R → RunKey) (keep : Nat) (s : Store R) : Entries R :=
  (s.outgoing key).take ((s.ended key).length - keep)

/-- The ended runs that are kept. -/
def staying (key : R → RunKey) (keep : Nat) (s : Store R) : Entries R :=
  (s.outgoing key).drop ((s.ended key).length - keep)

section leaving

variable {keep : Nat} {r : String × R}

theorem leaving_append_staying : s.leaving key keep ++ s.staying key keep = s.outgoing key :=
  List.take_append_drop _ _

theorem leaving_append_staying_perm : (s.leaving key keep ++ s.staying key keep).Perm (s.ended key) :=
  leaving_append_staying ▸ outgoing_perm key s

theorem leaving_subset : s.leaving key keep ⊆ s.runs := by
  intro r hr
  have hm := leaving_append_staying_perm.mem_iff.mp (List.mem_append_left (s.staying key keep) hr)
  exact (List.mem_filter.mp hm).1

theorem prune_snd (h : s.IsKeyed key) (keep : Nat) :
    (s.prune key keep).2 = Entries.keys (s.leaving key keep) := by
  simp only [prune]
  rw [excess_values, excess_entries, List.map_map]
  exact List.map_congr_left fun r hr => h.id_eq r (leaving_subset hr)

theorem prune_runs (h : s.IsKeyed key) :
    (s.prune key keep).1.runs = s.runs.filter (·.1 ∉ (s.prune key keep).2) :=
  Entries.erases_eq_filter h.nodup _

end leaving

end Workflow.Store

namespace Workflow.Engine

variable {e e' e'' : Engine} {k : MachineId} {run : String}

/-- The runs that are held and have ended. -/
def endedRuns (e : Engine) : Entries MachineId :=
  e.runs.filter fun r => (e.machine r.2).run.status.isTerminal

theorem mem_endedRuns {r : String × MachineId} :
    r ∈ e.endedRuns ↔ r ∈ e.runs ∧ (e.machine r.2).run.status.isTerminal = true :=
  List.mem_filter

/-! Pruning. -/

theorem prune_runs (e : Engine) :
    e.prune.runs = e.excess.foldl (fun es id => Entries.erase id es) e.runs := by
  have gone (ids : List String) (e : Engine) :
      (ids.foldl release e).runs = ids.foldl (fun es id => Entries.erase id es) e.runs := by
    induction ids generalizing e with
    | nil => rfl
    | cons id ids ih => rw [List.foldl_cons, ih, (release_lets_go e id).1, List.foldl_cons]
  exact gone _ e

theorem mem_prune_runs (h : e.Accords) {r : String × MachineId} :
    r ∈ e.prune.runs ↔ r.1 ∉ e.excess ∧ r ∈ e.runs := by
  rw [prune_runs]
  exact Entries.mem_erases h.runs _

theorem prune_machine (e : Engine) (k : MachineId) : e.prune.machine k = e.machine k := by
  obtain ⟨r, s, b, g, h⟩ := prune_shape e
  rw [h]
  rfl

/-- What is let go of is the first of the ended runs in the order of their ends. -/
theorem excess_eq (h : e.Accords) : ∃ rs : Entries MachineId, rs.Perm e.endedRuns ∧
    e.excess = (rs.take (rs.length - e.settings.maxRunsRetained)).map (·.1) := by
  let key (r : String × MachineId) : RunKey := { (e.machine r.2).run.key with id := r.1 }
  refine ⟨e.endedRuns.mergeSort fun a b =>
    decide (Store.endTime (key a) ≤ Store.endTime (key b)), List.mergeSort_perm _ _, ?_⟩
  have hn (n : Nat) : ((n : Int) - (e.settings.maxRunsRetained : Int)).toNat =
      n - e.settings.maxRunsRetained := by omega
  rw [← hn]
  unfold excess
  rw [h.stored]
  rfl

/-- Pruning lets go of ended runs only. -/
theorem prune_keeps (h : e.Accords) {r : String × MachineId} (hr : r ∈ e.runs)
    (ht : (e.machine r.2).run.status.isTerminal = false) : r ∈ e.prune.runs := by
  refine (mem_prune_runs h).mpr ⟨fun hm => ?_, hr⟩
  obtain ⟨rs, hp, he⟩ := excess_eq h
  rw [he] at hm
  obtain ⟨s, hs, hsr⟩ := List.mem_map.mp hm
  obtain ⟨hs, hst⟩ := mem_endedRuns.mp (hp.mem_iff.mp (List.mem_of_mem_take hs))
  have hfound := (Entries.find?_eq_some_iff h.runs).mpr hs
  rw [hsr, (Entries.find?_eq_some_iff h.runs).mpr hr] at hfound
  rw [← Option.some.inj hfound, ht] at hst
  cases hst

/-- What pruning leaves of the ended runs. -/
theorem prune_retains (h : e.Accords) : e.prune.endedRuns.length ≤ e.settings.maxRunsRetained := by
  obtain ⟨rs, hp, he⟩ := excess_eq h
  let n := rs.length - e.settings.maxRunsRetained
  have hrest : e.prune.endedRuns ⊆ rs.drop n := by
    intro r hr
    obtain ⟨hr, ht⟩ := mem_endedRuns.mp hr
    rw [prune_machine] at ht
    obtain ⟨hn, hr⟩ := (mem_prune_runs h).mp hr
    have hm : r ∈ rs.take n ++ rs.drop n := by
      rw [List.take_append_drop]
      exact hp.mem_iff.mpr (mem_endedRuns.mpr ⟨hr, ht⟩)
    refine (List.mem_append.mp hm).resolve_left fun hm => hn ?_
    rw [he]
    exact List.mem_map_of_mem hm
  have hnodup : e.prune.endedRuns.Nodup := by
    have hk : (Entries.keys e.prune.runs).Nodup := by
      rw [prune_runs]
      exact Entries.nodup_keys_erases h.runs _
    exact (List.Nodup.of_map _ hk).filter _
  have hl := (hnodup.subperm hrest).length_le
  rw [List.length_drop] at hl
  omega

theorem prune_stored (e : Engine) :
    e.prune.stored = e.excess.foldl (fun es id => Entries.erase id es) e.stored := by
  have gone (ids : List String) (e : Engine) :
      (ids.foldl release e).stored = ids.foldl (fun es id => Entries.erase id es) e.stored := by
    induction ids generalizing e with
    | nil => rfl
    | cons id ids ih =>
      obtain ⟨d, h⟩ := release_shape e id
      rw [List.foldl_cons, ih, h, List.foldl_cons]
  exact gone _ e

/-- What an engine lets go of by itself is what its store does. -/
theorem prune_eq_store (ho : e.IsOrderly) (ha : e.Accords) :
    (Store.mk e.flows e.stored).prune (fun k => (e.machine k).run.key) e.settings.maxRunsRetained =
      (⟨e.prune.flows, e.prune.stored⟩, e.excess) := by
  let key (k : MachineId) : RunKey := (e.machine k).run.key
  let s : Store MachineId := ⟨e.flows, e.stored⟩
  have hkeyed : s.IsKeyed key := by
    have hnodup : (Entries.keys e.stored).Nodup := by
      rw [ha.stored]
      exact ha.runs
    refine ⟨hnodup, fun r hr => ?_⟩
    have hfound := (Entries.find?_eq_some_iff hnodup).mpr hr
    rw [ha.stored] at hfound
    exact (ho.held hfound).2.1
  have hgone : (s.prune key e.settings.maxRunsRetained).2 = e.excess := by
    rw [Store.prune_snd hkeyed, Store.leaving, ← Store.excess_entries]
    rfl
  have hflows : e.prune.flows = e.flows := by
    obtain ⟨r, st, b, g, h⟩ := prune_shape e
    rw [h]
  have hleft : (s.prune key e.settings.maxRunsRetained).1 =
      ⟨e.flows, (s.prune key e.settings.maxRunsRetained).2.foldl
        (fun es id => Entries.erase id es) e.stored⟩ := rfl
  refine Prod.ext ?_ hgone
  rw [hflows, prune_stored, ← hgone]
  exact hleft

/-! Effects. -/

/-- Whether the task that executes a run has ended does not depend on which tasks wait. -/
theorem mainEnded_woken {m : Machine} {t : TaskId} {w : Wait} {n : Nat} {s i : Bool}
    (hs : m.state? t = some (.waiting w n)) :
    (m.setState t (.woken w s i)).mainEnded = m.mainEnded := by
  have ending (u : TaskId) : (m.setState t (.woken w s i)).hasEnded u = m.hasEnded u := by
    unfold Machine.hasEnded Machine.ending?
    rw [Machine.state?_setState]
    by_cases h : t = u
    · rw [if_pos h, ← h, hs]
      rfl
    · rw [if_neg h]
  exact congrArg (m.main.any ·) (funext ending)

theorem Noticed.main_eq {j : MachineId} {f : Effect} (n : Noticed j f e e') (i : MachineId) :
    (e'.machine i).main = (e.machine i).main ∧ (e'.machine i).mainEnded = (e.machine i).mainEnded := by
  rcases n.machines i with hm | ⟨m, t, w, n, -, hm, hs, hm'⟩
  · rw [machine, machine, hm]
    exact ⟨rfl, rfl⟩
  · rw [machine_of_getElem? hm, machine_of_getElem? hm']
    exact ⟨rfl, mainEnded_woken hs⟩

/-- What carrying out effects leaves of the runs: at most ended ones are let go of. -/
structure Clears (e e' : Engine) : Prop where
  settings : e'.settings = e.settings
  run : ∀ i, (e'.machine i).run = (e.machine i).run
  main : ∀ i, (e'.machine i).main = (e.machine i).main ∧ (e'.machine i).mainEnded = (e.machine i).mainEnded
  runs : e'.runs.Sublist e.runs
  kept : ∀ r ∈ e.runs, (e.machine r.2).run.status.isTerminal = false → r ∈ e'.runs

namespace Clears

theorem of_machines (hs : e'.settings = e.settings) (hm : e'.machines = e.machines)
    (hr : e'.runs = e.runs) : Clears e e' where
  settings := hs
  run i := by rw [machine, machine, hm]
  main i := by rw [machine, machine, hm]; exact ⟨rfl, rfl⟩
  runs := hr ▸ .refl _
  kept _ h _ := hr ▸ h

theorem refl (e : Engine) : Clears e e :=
  of_machines rfl rfl rfl

theorem trans (h : Clears e e') (g : Clears e' e'') : Clears e e'' where
  settings := g.settings.trans h.settings
  run i := (g.run i).trans (h.run i)
  main i := ⟨(g.main i).1.trans (h.main i).1, (g.main i).2.trans (h.main i).2⟩
  runs := g.runs.trans h.runs
  kept r hr ht := g.kept r (h.kept r hr ht) (by rw [h.run]; exact ht)

/-- No run ends by it. -/
theorem endedRuns (h : Clears e e') : e'.endedRuns.Sublist e.endedRuns := by
  unfold Engine.endedRuns
  simp only [h.run]
  exact h.runs.filter _

end Clears

theorem apply_runs (k : MachineId) (e : Engine) (f : Effect) (hf : f ≠ .prune) :
    (apply k e f).runs = e.runs := by
  have promised (e : Engine) : e.promiseSlot.runs = e.runs := by
    unfold promiseSlot
    split <;> rfl
  cases f with
  | emit type payload view =>
    obtain ⟨g, p, h⟩ := emit_shape e k type payload view
    show (e.emit k type payload view).runs = _
    rw [h]
  | giveSlotBack => exact promised _
  | passSlotOn =>
    show (if e.slots.free > 0 then e.promiseSlot else e).runs = _
    split
    · exact promised e
    · rfl
  | note c => cases c <;> rfl
  | prune => exact absurd rfl hf
  | ended t =>
    obtain ⟨cs, l, h, -⟩ := ended_shape e k t
    show (e.ended k t).runs = _
    rw [h]
  | _ => rfl

theorem apply_clears (h : e.Accords) (k : MachineId) (f : Effect) : Clears e (apply k e f) := by
  have hn := apply_noticed k e f
  have hs : (apply k e f).settings = e.settings := (apply_rests k e f).settings
  by_cases hf : f = .prune
  · subst hf
    refine ⟨hs, hn.run_eq, hn.main_eq, ?_, fun r hr ht => prune_keeps h hr ht⟩
    show e.prune.runs.Sublist _
    rw [prune_runs]
    exact Entries.erases_sublist _ _
  · have hr := apply_runs k e f hf
    exact ⟨hs, hn.run_eq, hn.main_eq, hr ▸ .refl _, fun _ hm _ => hr ▸ hm⟩

theorem apply_accords (h : e.Accords) (k : MachineId) (f : Effect) : (apply k e f).Accords :=
  Stirs.accords (apply_stirs (d := .step) k e f) h

theorem foldl_apply_clears (h : e.Accords) (k : MachineId) (fs : List Effect) :
    Clears e (fs.foldl (apply k) e) := by
  induction fs generalizing e with
  | nil => exact .refl e
  | cons f fs ih => exact (apply_clears h k f).trans (ih (apply_accords h k f))

theorem foldl_apply_prunes (h : e.Accords) (k : MachineId) {fs : List Effect} (hf : .prune ∈ fs) :
    (fs.foldl (apply k) e).endedRuns.length ≤ e.settings.maxRunsRetained := by
  induction fs generalizing e with
  | nil => cases hf
  | cons f fs ih =>
    rcases List.mem_cons.mp hf with rfl | hf
    · have hc := foldl_apply_clears (apply_accords h k .prune) k fs
      exact Nat.le_trans hc.endedRuns.length_le (prune_retains h)
    · have hle := ih (apply_accords h k f) hf
      rwa [(apply_rests k e f).settings] at hle

/-- What a machine asks for is carried out. -/
theorem settleEffects_clears (h : e.Accords) (k : MachineId) :
    Clears e (e.settleEffects k) ∧ (.prune ∈ (e.machine k).effects →
      (e.settleEffects k).endedRuns.length ≤ e.settings.maxRunsRetained) := by
  let quiet : Engine := { e with machines := e.machines.modify k ({ · with effects := [] }) }
  have hq : quiet.Accords := h.congr rfl rfl rfl rfl
  have hm (i : MachineId) : quiet.machine i = e.machine i ∨
      quiet.machine i = { e.machine i with effects := [] } := by
    have hi : quiet.machine i = ((e.machines.modify k ({ · with effects := [] }))[i]?).getD default := rfl
    rw [hi, Array.getElem?_modify, machine]
    split
    · cases e.machines[i]? with
      | none => exact .inl rfl
      | some m => exact .inr rfl
    · exact .inl rfl
  have hc : Clears e quiet := by
    refine ⟨rfl, fun i => ?_, fun i => ?_, .refl _, fun _ h _ => h⟩
    · rcases hm i with h | h <;> rw [h]
    · rcases hm i with h | h <;> rw [h] <;> exact ⟨rfl, rfl⟩
  exact ⟨hc.trans (foldl_apply_clears hq k _), fun hp => foldl_apply_prunes hq k (List.mem_reverse.mpr hp)⟩

/-! Steps. -/

/-- Of the runs that were held none is missing but such as have ended. -/
def Spares (e e' : Engine) : Prop :=
  ∀ r ∈ e.runs, r ∈ e'.runs ∨ (e'.machine r.2).run.status.isTerminal = true

theorem Spares.of_runs (h : e'.runs = e.runs) : Spares e e' :=
  fun _ hr => .inl (h ▸ hr)

theorem Clears.spares (h : Clears e' e'') (hr : e'.runs = e.runs) : Spares e e'' := by
  intro r hm
  cases ht : (e'.machine r.2).run.status.isTerminal with
  | false => exact .inl (h.kept r (hr ▸ hm) ht)
  | true => exact .inr (by rw [h.run]; exact ht)

theorem onMachine_spares (h : e.Accords) (k : MachineId) (f : Machine → Machine) :
    Spares e (e.onMachine k f) :=
  let changed : Engine := { e with machines := e.machines.modify k f }
  have hc : changed.Accords := h.congr rfl rfl rfl rfl
  (settleEffects_clears hc k).1.spares rfl

/-- What a step of a task leaves of the runs, from when its machine has changed. -/
theorem stepActive_clears (h : e.Accords) (a : Activity) :
    Clears (e.replace a.machine (e.stepped a).1) (e.stepActive a) := by
  have hr : (e.replace a.machine (e.stepped a).1).Accords := h.congr rfl rfl rfl rfl
  rw [stepActive_eq]
  have hc := (settleEffects_clears hr a.machine).1
  exact ⟨hc.settings, hc.run, hc.main, hc.runs, hc.kept⟩

theorem begin_spares (h : e.Accords) (k : MachineId) (t : TaskId) : Spares e (e.begin k t) := by
  unfold Engine.begin
  dsimp only
  split
  · exact .of_runs rfl
  · split
    · split
      · exact onMachine_spares h k _
      · exact .of_runs rfl
    · exact .of_runs rfl
    · exact .of_runs rfl

/-- Whether the next thing that is done is that a client who has waited discards a run. -/
def Discards (run : String) (e : Engine) : Prop :=
  e.active = none ∧ ∃ c rest, e.round = .client c 0 :: rest ∧ c.after = .discard run

/-- What is done when no task is in the middle of its steps. -/
inductive Proceeds (e : Engine) : Engine → Prop
  | begin (stamp : Instant) (rest : List Job) (k : MachineId) (t : TaskId) :
      Proceeds e ({ e with stamp, round := rest }.begin k t)
  | tell (stamp : Instant) (rest : List Job) (a : Alarm) :
      Proceeds e ({ e with stamp, round := rest }.onMachine a.machine (·.tell a.task a.ticket))
  | release (stamp : Instant) (rest : List Job) (served : List Nat) (run : String) (h : e.Discards run) :
      Proceeds e ({ e with stamp, round := rest, served }.release run)
  | other {e' : Engine} (hm : e'.machines = e.machines) (hr : e'.runs = e.runs) : Proceeds e e'

theorem step_cases (h : e.step = some e') :
    (∃ a, e.active = some a ∧ e' = { e with stamp := e.stamp + 1 }.stepActive a) ∨
      e.active = none ∧ Proceeds e e' := by
  unfold step at h
  dsimp only at h
  split at h
  · rename_i a ha
    cases h
    exact .inl ⟨a, ha, rfl⟩
  · rename_i ha
    refine .inr ⟨ha, ?_⟩
    split at h
    · rename_i j rest hround
      cases h
      cases j with
      | step k t => exact .begin _ rest k t
      | tell a => exact .tell _ rest a
      | client c n =>
        cases n with
        | succ n => exact .other rfl rfl
        | zero =>
          show Proceeds e (serve _ c)
          unfold serve
          dsimp only
          split
          · exact .other rfl rfl
          · rename_i run hc
            exact .release _ rest _ run ⟨ha, c, rest, hround, hc⟩
    · unfold nextRound at h
      dsimp only at h
      split at h
      · cases h
      · cases h
        exact .other rfl rfl

/-- A step lets go of ended runs only, unless a client discards one. -/
theorem step_spares (h : e.Accords) (hs : e.step = some e') {r : String × MachineId} (hr : r ∈ e.runs) :
    r ∈ e'.runs ∨ (e'.machine r.2).run.status.isTerminal = true ∨ e.Discards r.1 := by
  have spared {e₁ e₂ : Engine} (he : e₁.runs = e.runs) (hs : Spares e₁ e₂) :
      r ∈ e₂.runs ∨ (e₂.machine r.2).run.status.isTerminal = true ∨ e.Discards r.1 :=
    (hs r (he ▸ hr)).imp_right .inl
  have ha (stamp : Instant) (round : List Job) : ({ e with stamp, round } : Engine).Accords :=
    h.congr rfl rfl rfl rfl
  rcases step_cases hs with ⟨a, -, rfl⟩ | ⟨-, hp⟩
  · exact spared rfl ((stepActive_clears (ha _ e.round) a).spares rfl)
  · cases hp with
    | begin stamp rest k t => exact spared rfl (begin_spares (ha stamp rest) k t)
    | tell stamp rest a => exact spared rfl (onMachine_spares (ha stamp rest) a.machine _)
    | release stamp rest served run hd =>
      by_cases hrun : r.1 = run
      · exact .inr (.inr (hrun ▸ hd))
      · refine .inl ?_
        rw [(release_lets_go _ run).1]
        exact (Entries.mem_erase h.runs).mpr ⟨hrun, hr⟩
    | other _ hruns => exact spared rfl (.of_runs hruns)

end Workflow.Engine
