import Workflow.Proofs.Run.Execution
import Workflow.Proofs.Value.Fallible
/-!
Numbers that a run cannot make anything of: an infinite double where a whole number is wanted, a whole
number with too many digits to be written in a text, a delay past the greatest double. A step that comes
upon none of them does not strain.
-/

namespace Workflow

/-- A fault of form. A policy with such a fault is refused. -/
def FaultKind.IsFormal (k : FaultKind) : Prop :=
  k = .type ∨ k = .value

theorem Numeral.readInt_error {s : String} {f : NumberFault} (h : Numeral.readInt s = .error f) :
    f.isOverflow = false := by
  simp only [Numeral.readInt, bind, Except.bind, throw, throwThe, MonadExceptOf.throw, pure,
    Except.pure] at h
  split at h
  · split at h
    · cases h
      rfl
    · split at h
      · cases h
        rfl
      · cases h
  · cases h
    rfl

namespace Value

/-- An infinite double. -/
def isInfinite : Value → Bool
  | .num (.float x) => (Double.finite? x).isNone && !x.isNaN
  | _ => false

variable {v : Value} {f : ShapeFault}

/-- Only an infinite double is too large to be read as a whole number. -/
theorem toWhole_error (h : v.toWhole = .error f) :
    f.kind.IsFormal ∨ f.kind = .overflow ∧ v.isInfinite = true := by
  cases v with
  | bool b => cases h
  | num n =>
    cases n with
    | int n => cases h
    | float x =>
      cases hx : Double.finite? x with
      | some y =>
        simp only [toWhole, Number.truncate, hx] at h
        cases h
      | none =>
        simp only [toWhole, Number.truncate, hx] at h
        cases h
        cases hn : x.isNaN with
        | true => exact .inl (.inr rfl)
        | false => exact .inr ⟨rfl, by rw [isInfinite, hx, hn]; rfl⟩
  | str s =>
    cases hs : Numeral.readInt s with
    | ok n =>
      simp only [toWhole, hs] at h
      cases h
    | error g =>
      simp only [toWhole, hs] at h
      cases h
      simp [ShapeFault.kind, Numeral.readInt_error hs, FaultKind.IsFormal]
  | _ =>
    cases h
    exact .inl (.inl rfl)

theorem iterate_error (h : v.iterate = .error f) : f.kind.IsFormal := by
  unfold iterate at h
  split at h <;> cases h
  exact .inl rfl

theorem pair_error {index : Nat} (h : pair index v = .error f) : f.kind.IsFormal := by
  unfold pair at h
  split at h
  · cases h
    exact .inl rfl
  · split at h <;> cases h
    exact .inl rfl
  · cases h
    exact .inr rfl

theorem pairs_error {index : Nat} {vs : List Value} (h : pairs index vs = .error f) :
    f.kind.IsFormal := by
  induction vs generalizing index with
  | nil => cases h
  | cons v vs ih =>
    obtain hp | ⟨e, -, h⟩ := bind_error h
    · exact pair_error hp
    · obtain hr | ⟨es, -, h⟩ := bind_error h
      · exact ih hr
      · cases h

theorem toFields_error (h : v.toFields = .error f) : f.kind.IsFormal := by
  have listed (h : (do
      let items ← v.iterate
      return Entries.ofList (← pairs 0 items) : Except ShapeFault (Entries Value)) = .error f) :
      f.kind.IsFormal := by
    obtain hi | ⟨items, -, h⟩ := bind_error h
    · exact iterate_error hi
    · obtain hp | ⟨es, -, h⟩ := bind_error h
      · exact pairs_error hp
      · cases h
  cases v with
  | obj fields => cases h
  | _ => exact listed h

theorem toFieldsOrNone_error (h : v.toFieldsOrNone = .error f) : f.kind.IsFormal := by
  unfold toFieldsOrNone at h
  split at h
  · cases h
  · exact toFields_error h

end Value

namespace Policy

/-- The spellings of the fields of a policy that are whole numbers. -/
def wholeFields : List (List String) := [
  ["retries", "maxRetries", "max_retries"],
  ["timeoutMs", "timeout_ms"],
  ["backoffMs", "backoff_ms"],
  ["maxBackoffMs", "max_backoff_ms"]]

/-- Whether an infinite double stands in a policy where a whole number should. -/
def isInfinite (fields : Entries Value) : Bool :=
  wholeFields.any fun spellings => (pick fields spellings).any Value.isInfinite

variable {fields : Entries Value} {f : PolicyFault}

theorem wholeOf_error {spellings : List String} {default : Nat} (hs : spellings ∈ wholeFields)
    (h : wholeOf fields spellings default = .error f) :
    f.kind.IsFormal ∨ f.kind = .overflow ∧ isInfinite fields = true := by
  unfold wholeOf at h
  split at h
  · cases h
  · rename_i v hp
    cases hv : v.toWhole with
    | ok n =>
      rw [hv] at h
      cases h
    | error g =>
      rw [hv] at h
      cases h
      refine (Value.toWhole_error hv).imp_right fun ⟨ho, hi⟩ => ⟨ho, ?_⟩
      exact List.any_eq_true.mpr ⟨spellings, hs, by rw [hp]; exact hi⟩

theorem retryOnOf_error (h : retryOnOf fields = .error f) : f.kind.IsFormal := by
  unfold retryOnOf at h
  split at h
  · cases h
  · rename_i v _
    split at h
    · cases h
    · cases hi : v.iterate with
      | ok items =>
        rw [hi] at h
        cases h
      | error g =>
        rw [hi] at h
        cases h
        exact Value.iterate_error hi

theorem merge_error {layers : List Value} (h : merge layers = .error f) : f.kind.IsFormal := by
  unfold merge at h
  generalize ([] : Entries Value) = merged at h
  induction layers generalizing merged with
  | nil => cases h
  | cons layer layers ih =>
    rw [List.foldlM_cons] at h
    obtain h | ⟨merged', -, h⟩ := bind_error h
    · cases hl : layer.toFieldsOrNone with
      | ok fields =>
        rw [hl] at h
        cases h
      | error g =>
        rw [hl] at h
        cases h
        exact Value.toFieldsOrNone_error hl
    · exact ih merged' h

theorem ofFields_error {settings : Settings} (h : ofFields settings fields = .error f) :
    f.kind.IsFormal ∨ f.kind = .overflow ∧ isInfinite fields = true := by
  have formal : f.kind = .value → f.kind.IsFormal := .inr
  obtain h | ⟨_, -, h⟩ := bind_error h
  · refine .inl (formal ?_)
    unfold onErrorOf at h
    split at h <;> cases h
    rfl
  obtain h | ⟨_, -, h⟩ := bind_error h
  · refine .inl (formal ?_)
    unfold growthOf at h
    split at h <;> cases h
    rfl
  obtain h | ⟨_, -, h⟩ := bind_error h
  · refine .inl (formal ?_)
    unfold fallbackOf at h
    split at h <;> cases h
    rfl
  obtain h | ⟨_, -, h⟩ := bind_error h
  · exact wholeOf_error (by simp [wholeFields]) h
  obtain h | ⟨_, -, h⟩ := bind_error h
  · exact wholeOf_error (by simp [wholeFields]) h
  obtain h | ⟨_, -, h⟩ := bind_error h
  · exact wholeOf_error (by simp [wholeFields]) h
  obtain h | ⟨_, -, h⟩ := bind_error h
  · exact wholeOf_error (by simp [wholeFields]) h
  obtain h | ⟨_, -, h⟩ := bind_error h
  · exact .inl (retryOnOf_error h)
  · cases h

/-- Whether the policy that layers make holds an infinite double where a whole number should stand. -/
def overflows (layers : List Value) : Bool :=
  match merge layers with
  | .ok fields => isInfinite fields
  | .error _ => false

/-- Whatever the layers of a policy are, its fault is one of form unless it holds an infinite double. -/
theorem resolve_error {settings : Settings} {layers : List Value} (h : resolve settings layers = .error f) :
    f.kind.IsFormal ∨ f.kind = .overflow ∧ overflows layers = true := by
  obtain hm | ⟨fields, hm, h⟩ := bind_error h
  · exact .inl (merge_error hm)
  · rw [overflows, hm]
    exact ofFields_error h

end Policy

namespace Template

variable {vars : Variables} {f : NumberFault}

/-- Only a value that cannot be written keeps a text from being made. -/
theorem substitute_error {fuel : Nat} {cs : List Char} (h : substitute vars fuel cs = .error f) :
    ∃ path, (pathValue vars path).text = .error f := by
  induction fuel generalizing cs with
  | zero => cases h
  | succ fuel ih =>
    cases cs with
    | nil => cases h
    | cons c cs =>
      unfold substitute at h
      split at h
      · rename_i path rest _
        have later {shown : String} (h : (do
            let out ← substitute vars fuel rest
            return shown.toList ++ out) = .error f) : ∃ path, (pathValue vars path).text = .error f := by
          obtain h | ⟨out, -, h⟩ := bind_error h
          · exact ih h
          · cases h
        dsimp only at h
        split at h
        · exact later h
        · exact later h
        · obtain h | ⟨shown, -, h⟩ := bind_error h
          · exact ⟨path, h⟩
          · exact later h
      · obtain h | ⟨out, -, h⟩ := bind_error h
        · exact ih h
        · cases h

theorem resolveText_error {s : String} (h : resolveText vars s = .error f) :
    ∃ path, (pathValue vars path).text = .error f := by
  unfold resolveText at h
  dsimp only at h
  split at h
  · cases h
  · exact substitute_error (map_error h)

mutual

/-- A template can be carried out unless it refers to a value that cannot be written. -/
theorem resolve_error {v : Value} (h : resolve vars v = .error f) :
    ∃ path, (pathValue vars path).text = .error f := by
  cases v with
  | str s => exact resolveText_error h
  | list items => exact resolveItems_error (map_error h)
  | obj fields => exact resolveFields_error (map_error h)
  | _ => cases h

theorem resolveItems_error {vs : List Value} (h : resolveItems vars vs = .error f) :
    ∃ path, (pathValue vars path).text = .error f := by
  cases vs with
  | nil => cases h
  | cons v vs =>
    obtain h | ⟨_, -, h⟩ := bind_error h
    · exact resolve_error h
    · obtain h | ⟨_, -, h⟩ := bind_error h
      · exact resolveItems_error h
      · cases h

theorem resolveFields_error {fields : List (String × Value)}
    (h : resolveFields vars fields = .error f) : ∃ path, (pathValue vars path).text = .error f := by
  cases fields with
  | nil => cases h
  | cons e fields =>
    obtain h | ⟨_, -, h⟩ := bind_error h
    · exact resolve_error h
    · obtain h | ⟨_, -, h⟩ := bind_error h
      · exact resolveFields_error h
      · cases h

end

/-- Whether a reference stands for a number with too many digits to be written. -/
def overflows (vars : Variables) (v : Value) : Bool :=
  match resolve vars v with
  | .ok _ => false
  | .error _ => true

end Template

/-- Whether an attempt at a node strains. -/
def Attempt.strains (a : Attempt) (vars : Variables) : Bool :=
  match a.node.kind with
  | "if" | "foreach" => false
  | "while" => ((Value.obj a.node.config).field "maxIterations").isInfinite
  | _ => Template.overflows vars (.obj a.node.config)

/-- Whether the delay before the attempt after a failed one lies past the greatest double. -/
def Attempt.isOverdue (a : Attempt) : Bool :=
  (Double.ofInt? (a.policy.delayMs a.number)).isNone

/-- Whether a step strains. -/
def Machine.strains (m : Machine) : Control → List Pending → Bool
  | .dispatch walk node, _ =>
    Policy.overflows ([walk.place.flow.policy, node.policy].map fun p => (p.map Value.obj).getD .null)
  | .try a, _ => a.strains (m.vars a.place.layers)
  | .answer (.outcome (.failed e _)), .attempt a _ :: _ =>
    Decision.make a e == .retry && a.isOverdue
  | _, _ => false

namespace Execution

/-- Whether the next input is a step that strains. -/
def strains (x : Execution) : Input → Bool
  | .move (.step _) => x.active.any fun s => x.machine.strains s.control s.pending
  | _ => false

/-- Whether no step strains. -/
def isUnstrained (w : World) : List Input → Execution → Bool
  | [], _ => true
  | i :: is, x => !x.strains i && isUnstrained w is (x.take w i)

end Execution

end Workflow
