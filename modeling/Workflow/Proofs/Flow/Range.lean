import Workflow.Flow.Policy
import Workflow.Proofs.Settings.Sound
/-!
The ranges of what a policy says. Under settings that are accepted, a policy that is read off its layers gives
each attempt some time and not too much of it, and the waits between the attempts grow as far as their bound
lets them.
-/

namespace Workflow

namespace Policy

variable {settings : Settings} {fields : Entries Value} {p : Policy} {n : Nat}

/-- The text that the fields say under one of several spellings, or a default. -/
def saidText (fields : Entries Value) (spellings : List String) (default : String) : String :=
  ((pick fields spellings).map Value.name).getD default

/-- The policy is what the fields say: the texts are choices, and the whole numbers are brought into range. -/
structure IsReadOff (settings : Settings) (fields : Entries Value) (p : Policy) : Prop where
  onError : saidText fields ["onError", "on_error"] "stop" = p.onError.text
  backoff : saidText fields ["backoff"] "exp" = p.backoff.text
  fallback : saidText fields ["fallback"] "stop" = p.fallback.text
  retries : ∃ n, wholeOf fields ["retries", "maxRetries", "max_retries"] settings.defaultNodeRetries = .ok n ∧
    (p.retries : Int) = max 0 (min n settings.maxRetriesHardCap)
  timeout : ∃ n, wholeOf fields ["timeoutMs", "timeout_ms"] settings.defaultNodeTimeoutMs = .ok n ∧
    (p.timeoutMs : Int) = min (if n ≤ 0 then (settings.defaultNodeTimeoutMs : Int) else n) settings.maxNodeTimeoutMs
  backoffMs : ∃ n, wholeOf fields ["backoffMs", "backoff_ms"] settings.defaultBackoffMs = .ok n ∧
    (p.backoffMs : Int) = max 0 n
  maxBackoffMs : ∃ n, wholeOf fields ["maxBackoffMs", "max_backoff_ms"] settings.maxBackoffMs = .ok n ∧
    (p.maxBackoffMs : Int) = max 0 n
  retryOn : retryOnOf fields = .ok p.retryOn

theorem onErrorOf_eq_ok_iff {e : OnError} :
    onErrorOf fields = .ok e ↔ saidText fields ["onError", "on_error"] "stop" = e.text := by
  unfold onErrorOf saidText
  generalize ((pick fields ["onError", "on_error"]).map Value.name).getD "stop" = text
  constructor
  · intro h
    split at h <;> cases h <;> rfl
  · rintro rfl
    cases e <;> rfl

theorem growthOf_eq_ok_iff {g : Growth} :
    growthOf fields = .ok g ↔ saidText fields ["backoff"] "exp" = g.text := by
  unfold growthOf saidText
  generalize ((pick fields ["backoff"]).map Value.name).getD "exp" = text
  constructor
  · intro h
    split at h <;> cases h <;> rfl
  · rintro rfl
    cases g <;> rfl

theorem fallbackOf_eq_ok_iff {f : Fallback} :
    fallbackOf fields = .ok f ↔ saidText fields ["fallback"] "stop" = f.text := by
  unfold fallbackOf saidText
  generalize ((pick fields ["fallback"]).map Value.name).getD "stop" = text
  constructor
  · intro h
    split at h <;> cases h <;> rfl
  · rintro rfl
    cases f <;> rfl

theorem ofFields_eq_ok_iff : ofFields settings fields = .ok p ↔ IsReadOff settings fields p := by
  simp only [ofFields, bind_eq_ok_iff]
  constructor
  · rintro ⟨onError, hOnError, backoff, hBackoff, fallback, hFallback, retries, hRetries, timeout, hTimeout,
      backoffMs, hBackoffMs, maxBackoffMs, hMaxBackoffMs, retryOn, hRetryOn, h⟩
    cases h
    exact {
      onError := onErrorOf_eq_ok_iff.mp hOnError
      backoff := growthOf_eq_ok_iff.mp hBackoff
      fallback := fallbackOf_eq_ok_iff.mp hFallback
      retries := ⟨retries, hRetries, by dsimp only; omega⟩
      timeout := ⟨timeout, hTimeout, by dsimp only; split <;> omega⟩
      backoffMs := ⟨backoffMs, hBackoffMs, by dsimp only; omega⟩
      maxBackoffMs := ⟨maxBackoffMs, hMaxBackoffMs, by dsimp only; omega⟩
      retryOn := hRetryOn }
  · intro h
    obtain ⟨retries, hRetries, hr⟩ := h.retries
    obtain ⟨timeout, hTimeout, ht⟩ := h.timeout
    obtain ⟨backoffMs, hBackoffMs, hb⟩ := h.backoffMs
    obtain ⟨maxBackoffMs, hMaxBackoffMs, hm⟩ := h.maxBackoffMs
    refine ⟨_, onErrorOf_eq_ok_iff.mpr h.onError, _, growthOf_eq_ok_iff.mpr h.backoff, _,
      fallbackOf_eq_ok_iff.mpr h.fallback, _, hRetries, _, hTimeout, _, hBackoffMs, _, hMaxBackoffMs, _,
      h.retryOn, ?_⟩
    cases p
    dsimp only at hr ht hb hm
    simp only [pure, Except.pure, Except.ok.injEq, mk.injEq, true_and]
    refine ⟨by omega, by omega, by omega, ?_⟩
    split at ht <;> split <;> omega

theorem resolve_eq_ok_iff {layers : List Value} : resolve settings layers = .ok p ↔
    ∃ merged, merge layers = .ok merged ∧ IsReadOff settings merged p := by
  simp only [resolve, bind_eq_ok_iff, ofFields_eq_ok_iff]

/-- A policy that runs can work with. Its numbers are naturals, hence none is negative. -/
structure IsInRange (settings : Settings) (p : Policy) : Prop where
  onError : p.onError.text ∈ ["stop", "continue", "retry"]
  backoff : p.backoff.text ∈ ["none", "linear", "exp"]
  fallback : p.fallback.text ∈ ["stop", "continue"]
  retries_le : p.retries ≤ settings.maxRetriesHardCap
  timeout_pos : 0 < p.timeoutMs
  timeout_le : p.timeoutMs ≤ settings.maxNodeTimeoutMs

theorem IsReadOff.isInRange (h : IsReadOff settings fields p) (hs : settings.ArePositive) :
    IsInRange settings p := by
  obtain ⟨retries, -, hr⟩ := h.retries
  obtain ⟨timeout, -, ht⟩ := h.timeout
  have hdefault := hs.nodeTimeout
  have hlimit := hs.nodeTimeoutLimit
  constructor
  · cases p.onError <;> decide
  · cases p.backoff <;> decide
  · cases p.fallback <;> decide
  · omega
  · split at ht <;> omega
  · omega

end Policy

/-! The waits between attempts. -/

namespace Growth

/-- How many times the first wait the `n`-th one is. -/
def factor : Growth → Nat → Nat
  | none, _ => 1
  | linear, n => n
  | exp, n => Nat.pow 2 (n - 1)

theorem factor_le_succ (g : Growth) (n : Nat) : g.factor n ≤ g.factor (n + 1) := by
  cases g with
  | none => exact Nat.le_refl 1
  | linear => exact Nat.le_succ n
  | exp => exact Nat.pow_le_pow_right (by decide) (by omega)

end Growth

namespace Policy

variable {settings : Settings} {p : Policy} {n : Nat}

/-- The wait before the `n`-th retry: the first wait grown, up to the bound if there is one. -/
structure WaitsInOrder (p : Policy) (n : Nat) : Prop where
  grows : p.delayMs n ≤ p.delayMs (n + 1)
  unbounded : p.maxBackoffMs = 0 → p.delayMs n = p.backoffMs * p.backoff.factor n
  bounded : 0 < p.maxBackoffMs → p.delayMs n = min (p.backoffMs * p.backoff.factor n) p.maxBackoffMs
  le_bound : 0 < p.maxBackoffMs → p.delayMs n ≤ p.maxBackoffMs

theorem delayMs_eq (p : Policy) (n : Nat) : p.delayMs n =
    if p.maxBackoffMs = 0 then p.backoffMs * p.backoff.factor n
    else min (p.backoffMs * p.backoff.factor n) p.maxBackoffMs := by
  have hdelay : p.delayMs n = if p.maxBackoffMs == 0 then p.backoffMs * p.backoff.factor n
      else min (p.backoffMs * p.backoff.factor n) p.maxBackoffMs := by
    unfold delayMs
    cases p.backoff <;> simp [Growth.factor]
  rw [hdelay]
  simp only [beq_iff_eq]

theorem waitsInOrder (p : Policy) (n : Nat) : p.WaitsInOrder n := by
  have hgrown : p.backoffMs * p.backoff.factor n ≤ p.backoffMs * p.backoff.factor (n + 1) :=
    Nat.mul_le_mul_left _ (p.backoff.factor_le_succ n)
  constructor
  · rw [delayMs_eq, delayMs_eq]
    split <;> omega
  · intro h
    rw [delayMs_eq, if_pos h]
  · intro h
    rw [delayMs_eq, if_neg (by omega)]
  · intro h
    rw [delayMs_eq, if_neg (by omega)]
    exact Nat.min_le_right _ _

/-- With settings that are accepted, layers have a policy exactly if their fields can be read, and it is what
these say, brought into range. It lets an attempt take some time and not more than the settings allow, lets
none be repeated more often than they allow, and waits longer before each retry than before the one before it,
or as long as its bound. -/
theorem policy_in_range (given : Entries Value) (settings : Settings)
    (h : Settings.ofFields given = .ok settings) (layers : List Value) :
    (∀ p, resolve settings layers = .ok p ↔ ∃ merged, merge layers = .ok merged ∧ IsReadOff settings merged p) ∧
    ∀ p, resolve settings layers = .ok p → IsInRange settings p ∧ ∀ n, 1 ≤ n → p.WaitsInOrder n := by
  refine ⟨fun p => resolve_eq_ok_iff, fun p hp => ?_⟩
  obtain ⟨merged, -, hread⟩ := resolve_eq_ok_iff.mp hp
  exact ⟨hread.isInRange (Settings.isSound_of_ofFields h).toArePositive, fun n _ => p.waitsInOrder n⟩

/-- Settings with limits that are narrower than the defaults. -/
def tight : Settings :=
  { maxNodeTimeoutMs := 500, defaultNodeTimeoutMs := 500, maxRetriesHardCap := 1, defaultNodeRetries := 1 }

/-- A layer that asks for more than these allow, and for no time at all. -/
def greedy : Entries Value :=
  [("retries", .int 7), ("timeoutMs", .int (-3)), ("backoffMs", .int 100), ("maxBackoffMs", .int 250)]

theorem policy_in_range_tight :
    Settings.ofFields [("max_node_timeout_ms", .int 500), ("max_retries_hard_cap", .str "1")] = .ok tight ∧
    ∃ p, resolve tight [.null, .obj greedy] = .ok p ∧ IsInRange tight p ∧
      [1, 2, 3].map p.delayMs = [100, 200, 250] := by
  have hsettings :
      Settings.ofFields [("max_node_timeout_ms", .int 500), ("max_retries_hard_cap", .str "1")] = .ok tight := rfl
  have hp : resolve tight [.null, .obj greedy] =
      .ok { retries := 1, timeoutMs := 500, backoffMs := 100, maxBackoffMs := 250 } := rfl
  exact ⟨hsettings, _, hp, ((policy_in_range _ tight hsettings _).2 _ hp).1, by decide⟩

end Policy

end Workflow
