import Workflow.Proofs.Engine.Calm
/-!
The events of a run as its engine has emitted them. From the first one on they are numbered without a
gap, as long as the run is held.
-/

namespace Workflow

namespace Engine

variable {d : Deed} {ds : List Deed} {e e' e'' : Engine} {k : MachineId} {run : String}

/-- The events of a run, the oldest first. -/
def tale (e : Engine) (run : String) : List RunEvent :=
  (e.emitted.filter (·.run == run)).reverse

theorem tale_append {new : List RunEvent} (h : e'.emitted = new ++ e.emitted) (run : String) :
    e'.tale run = e.tale run ++ (new.filter (·.run == run)).reverse := by
  rw [tale, h, List.filter_append, List.reverse_append]
  rfl

theorem tale_congr (h : e'.emitted = e.emitted) : e'.tale run = e.tale run := by
  rw [tale, h]
  rfl

/-- The events of a run are numbered from one on, and the bus knows how far. -/
structure IsNumbered (run : String) (e : Engine) : Prop where
  seqs : (e.tale run).map (·.seq) = List.range' 1 (e.tale run).length
  last : (Entries.find? run e.bus.last).getD 0 = (e.tale run).length
  keys : (Entries.keys e.bus.last).Nodup

theorem IsNumbered.congr (h : e.IsNumbered run) (he : e'.emitted = e.emitted)
    (hb : e'.bus.last = e.bus.last) : e'.IsNumbered run := by
  have ht : e'.tale run = e.tale run := tale_congr he
  exact ⟨by rw [ht]; exact h.seqs, by rw [ht, hb]; exact h.last, hb ▸ h.keys⟩

/-! What is told on the bus. -/

theorem release_lets_go (e : Engine) (run : String) : (e.release run).runs = Entries.erase run e.runs ∧
    (e.release run).bus.last = Entries.erase run e.bus.last ∧ (e.release run).emitted = e.emitted := by
  obtain ⟨g, h⟩ := release_shape e run
  rw [h]
  exact ⟨rfl, rfl, rfl⟩

theorem emit_isNumbered (h : e.IsNumbered run) (k : MachineId) (type : String)
    (payload : Entries Value) (view : RunView) : (e.emit k type payload view).IsNumbered run := by
  obtain ⟨g, p, hs⟩ := emit_shape e k type payload view
  generalize (e.machine k).run.id = own at hs
  have hrun : (e.bus.emit e.now own type payload).2.1.run = own := rfl
  have hseq : (e.bus.emit e.now own type payload).2.1.seq = (Entries.find? own e.bus.last).getD 0 + 1 :=
    rfl
  have hlast : (e.emit k type payload view).bus.last = Entries.insert own
      ((Entries.find? own e.bus.last).getD 0 + 1) e.bus.last := congrArg (·.bus.last) hs
  have hnew : (e.emit k type payload view).emitted =
      [(e.bus.emit e.now own type payload).2.1] ++ e.emitted := congrArg Engine.emitted hs
  have ht := tale_append hnew run
  generalize (e.bus.emit e.now own type payload).2.1 = ev at hrun hseq ht
  have hkeys : (Entries.keys (e.emit k type payload view).bus.last).Nodup := by
    rw [hlast]
    exact Entries.nodup_keys_insert h.keys
  by_cases hr : own = run
  · subst hr
    rw [h.last] at hseq hlast
    have ht : (e.emit k type payload view).tale own = e.tale own ++ [ev] := by
      rw [ht]
      simp [hrun]
    refine ⟨?_, ?_, hkeys⟩
    · rw [ht, List.map_append, h.seqs, List.length_append, List.length_singleton, List.range'_concat]
      simp [hseq, Nat.add_comm]
    · rw [hlast, Entries.find?_insert_self, ht]
      simp
  · have ht : (e.emit k type payload view).tale run = e.tale run := by
      rw [ht]
      simp [hrun, hr]
    refine ⟨by rw [ht]; exact h.seqs, ?_, hkeys⟩
    rw [hlast, Entries.find?_insert_of_ne (Ne.symm hr), ht]
    exact h.last

theorem release_isNumbered (h : e.IsNumbered run) {other : String}
    (hr : e.tale run = [] ∨ run ≠ other) : (e.release other).IsNumbered run := by
  obtain ⟨-, hlast, he⟩ := release_lets_go e other
  have ht : (e.release other).tale run = e.tale run := tale_congr he
  refine ⟨by rw [ht]; exact h.seqs, ?_, ?_⟩
  · rw [hlast, Entries.find?_erase h.keys, ht]
    split
    · rename_i hor
      rw [hr.resolve_right fun hn => hn hor]
      rfl
    · exact h.last
  · rw [hlast]
    exact Entries.nodup_keys_erase h.keys

/-! What changes do. -/

/-- The events have become more. As long as a run is held it has been. -/
structure Grows (e e' : Engine) : Prop where
  emitted : ∃ new, e'.emitted = new ++ e.emitted
  made : e.machines.size ≤ e'.machines.size
  keys : (Entries.keys e.runs).Nodup → (Entries.keys e'.runs).Nodup
  held : (Entries.keys e.runs).Nodup → ∀ {run k}, k < e.machines.size →
    Entries.find? run e'.runs = some k → Entries.find? run e.runs = some k

theorem Grows.refl (e : Engine) : Grows e e :=
  ⟨⟨[], rfl⟩, Nat.le_refl _, id, fun _ _ _ _ h => h⟩

theorem Grows.trans (h : Grows e e') (g : Grows e' e'') : Grows e e'' where
  emitted := by
    obtain ⟨as, ha⟩ := h.emitted
    obtain ⟨bs, hb⟩ := g.emitted
    exact ⟨bs ++ as, by rw [hb, ha, List.append_assoc]⟩
  made := Nat.le_trans h.made g.made
  keys hn := g.keys (h.keys hn)
  held hn _ _ hk hf := h.held hn hk (g.held (h.keys hn) (Nat.lt_of_lt_of_le hk h.made) hf)

theorem Grows.of_eq (hm : e'.machines.size = e.machines.size) (hr : e'.runs = e.runs)
    (he : ∃ new, e'.emitted = new ++ e.emitted) : Grows e e' :=
  ⟨he, Nat.le_of_eq hm.symm, fun hn => hr ▸ hn, fun _ _ _ _ hf => hr ▸ hf⟩

theorem Grows.tale (h : Grows e e') (ht : e'.tale run = []) : e.tale run = [] := by
  obtain ⟨new, he⟩ := h.emitted
  rw [tale_append he] at ht
  exact (List.append_eq_nil_iff.mp ht).1

theorem Stir.grows (h : Stir d e e') : Grows e e' := by
  cases h with
  | still h =>
    exact .of_eq (congrArg Books.made h) (congrArg Books.runs h)
      ⟨[], congrArg Books.emitted h⟩
  | emit k type payload view =>
    obtain ⟨g, p, h⟩ := emit_shape e k type payload view
    rw [h]
    exact .of_eq rfl rfl ⟨[_], rfl⟩
  | release other =>
    obtain ⟨hr, -, he⟩ := release_lets_go e other
    refine ⟨⟨[], he⟩, Nat.le_of_eq (release_rests e other).size.symm, fun hn => ?_, fun hn r k _ hf => ?_⟩
    · rw [hr]
      exact Entries.nodup_keys_erase hn
    · rw [hr, Entries.find?_erase hn] at hf
      split at hf
      · cases hf
      · exact hf
  | hold hd id hf h =>
    have hr : e'.runs = Entries.insert id e.machines.size e.runs := congrArg Books.runs h
    have hm : e'.machines.size = e.machines.size + 1 := congrArg Books.made h
    refine ⟨⟨[], congrArg Books.emitted h⟩, hm ▸ Nat.le_succ _, fun hn => ?_, fun hn r k hk hf => ?_⟩
    · rw [hr]
      exact Entries.nodup_keys_insert hn
    · rw [hr, Entries.find?_insert] at hf
      split at hf
      · exact absurd (Option.some.inj hf) (Nat.ne_of_gt hk)
      · exact hf
  | make hd h =>
    have hr : e'.runs = e.runs := congrArg Books.runs h
    have hm : e'.machines.size = e.machines.size + 1 := congrArg Books.made h
    exact ⟨⟨[], congrArg Books.emitted h⟩, hm ▸ Nat.le_succ _, fun hn => hr ▸ hn,
      fun _ _ _ _ hf => hr ▸ hf⟩
  | attach hd hk =>
    obtain ⟨g, ps, h⟩ := Debugger.openSession_sameRuns _ _ e
    rw [h]
    exact .of_eq rfl rfl ⟨[], rfl⟩
  | @detach other hd =>
    obtain ⟨g, ps, h⟩ := Debugger.dropRetired_sameRuns other (Debugger.closeSession other e)
    rw [h]
    exact .of_eq rfl rfl ⟨[], rfl⟩
  | close hd => exact .of_eq rfl rfl ⟨[], rfl⟩

/-- A run has said nothing yet, or it is held. -/
def Keeps (run : String) (k : MachineId) (e : Engine) : Prop :=
  e.tale run = [] ∨ Entries.find? run e.runs = some k

theorem Keeps.before (h : Grows e e') (hn : (Entries.keys e.runs).Nodup)
    (hk : e'.tale run = [] ∨ k < e.machines.size) (hkeep : e'.Keeps run k) : e.Keeps run k := by
  rcases hk with ht | hk
  · exact .inl (h.tale ht)
  · exact hkeep.imp h.tale (h.held hn hk)

theorem Stir.isNumbered (h : Stir d e e') (hn : (Entries.keys e.runs).Nodup) (hk : e'.Keeps run k)
    (ht : e.IsNumbered run) : e'.IsNumbered run := by
  cases h with
  | still h => exact ht.congr (congrArg Books.emitted h) (congrArg (·.bus.last) h)
  | emit k type payload view => exact emit_isNumbered ht k type payload view
  | release other =>
    obtain ⟨hr, -, he⟩ := release_lets_go e other
    refine release_isNumbered ht (hk.imp (fun h => ?_) fun hf => ?_)
    · rw [← h]
      exact (tale_congr he).symm
    · rintro rfl
      rw [hr, Entries.find?_erase hn, if_pos rfl] at hf
      cases hf
  | hold hd id hf h => exact ht.congr (congrArg Books.emitted h) (congrArg (·.bus.last) h)
  | make hd h => exact ht.congr (congrArg Books.emitted h) (congrArg (·.bus.last) h)
  | attach hd hk =>
    obtain ⟨g, ps, h⟩ := Debugger.openSession_sameRuns _ _ e
    rw [h]
    exact ht.congr rfl rfl
  | @detach other hd =>
    obtain ⟨g, ps, h⟩ := Debugger.dropRetired_sameRuns other (Debugger.closeSession other e)
    rw [h]
    exact ht.congr rfl rfl
  | close hd => exact ht.congr rfl rfl

theorem Stirs.grows (h : Stirs d e e') : Grows e e' := by
  induction h with
  | refl => exact .refl _
  | tail _ h ih => exact ih.trans h.grows

theorem Stirs.isNumbered (h : Stirs d e e') (hn : (Entries.keys e.runs).Nodup)
    (hm : e'.tale run = [] ∨ k < e.machines.size) (hk : e'.Keeps run k) (ht : e.IsNumbered run) :
    e'.IsNumbered run := by
  induction h with
  | refl => exact ht
  | tail hs h ih =>
    have hg := Stirs.grows hs
    refine h.isNumbered (hg.keys hn) hk (ih (hm.imp_left h.grows.tale) (hk.before h.grows (hg.keys hn) ?_))
    exact hm.imp_right fun hm => Nat.lt_of_lt_of_le hm hg.made

end Engine

end Workflow
