import Workflow.Expr.Parser
import Workflow.Proofs.Expr.Lexing
import Workflow.Proofs.Value.Fallible
/-!
How a whole text is scanned. A lexeme is read off the characters that it takes, whatever stands behind
them, and it takes at least one; so every text is scanned to an end, its tokens stand apart from each
other with nothing but white space around them, and each of them can be read again by itself.
-/

namespace Workflow.Expr.Token

variable {position : Nat} {c : Char} {cs rest : List Char} {l : Lexeme} {ts : List Token}
  {f : ExprFault}

/-! What a lexeme takes is read alike where nothing follows. -/

theorem numberRun_append (pointSeen : Bool) (cs : List Char) :
    (numberRun pointSeen cs).1 ++ (numberRun pointSeen cs).2 = cs := by
  induction cs generalizing pointSeen with
  | nil => rfl
  | cons c cs ih =>
    rw [numberRun]
    split
    · simp [ih]
    · split
      · simp [ih]
      · rfl

theorem numberRun_alone (pointSeen : Bool) (cs : List Char) :
    numberRun pointSeen (numberRun pointSeen cs).1 = ((numberRun pointSeen cs).1, []) := by
  induction cs generalizing pointSeen with
  | nil => rfl
  | cons c cs ih =>
    rw [numberRun]
    split
    · rename_i hc
      simp [numberRun, hc, ih]
    · rename_i hc
      split
      · rename_i hp
        simp only [numberRun, hc, hp, ih]
        simp
      · rfl

theorem wordRun_parts (cs : List Char) : (wordRun cs).1 ++ (wordRun cs).2 = cs := by
  fun_induction wordRun cs <;> simp_all

theorem wordRun_alone (cs : List Char) : wordRun (wordRun cs).1 = ((wordRun cs).1, []) := by
  fun_induction wordRun cs with
  | case1 => rfl
  | case2 c cs hc run rest hr ih => simp_all [wordRun]
  | case3 => rfl
  | case4 c cs _ hc run rest hr ih =>
    rw [hr] at ih
    simp [wordRun_cons hc, ih]
  | case5 => rfl

theorem textRun_alone {quote : Char} {run : List Char} (h : textRun quote cs = some (run, rest)) :
    ∃ raw, cs = raw ++ rest ∧ textRun quote raw = some (run, []) := by
  fun_induction textRun quote cs generalizing run with
  | case1 => cases h
  | case2 c cs ih =>
    obtain ⟨⟨run', rest'⟩, ht, he⟩ := Option.map_eq_some_iff.mp h
    cases he
    obtain ⟨raw, rfl, hr⟩ := ih ht
    exact ⟨'\\' :: c :: raw, rfl, by simp [textRun, hr]⟩
  | case3 c cs hno hc =>
    cases h
    exact ⟨[c], rfl, by rw [textRun, if_pos hc]; rintro _ _ _ ⟨⟩⟩
  | case4 c cs hno hc ih =>
    obtain ⟨⟨run', rest'⟩, ht, he⟩ := Option.map_eq_some_iff.mp h
    cases he
    obtain ⟨raw, rfl, hr⟩ := ih ht
    refine ⟨c :: raw, rfl, ?_⟩
    rw [textRun, if_neg hc, hr]
    · rfl
    · rintro d raw' hb rfl
      exact hno d _ hb rfl

/-- What starts a number is a part of it. -/
theorem exists_run_of_startsNumber (h : startsNumber c cs = true) :
    ∃ run, (numberRun false (c :: cs)).1 = c :: run ∧ startsNumber c run = true := by
  rw [startsNumber, Bool.or_eq_true] at h
  rw [numberRun]
  obtain hc | hc := h
  · exact ⟨(numberRun false cs).1, by rw [if_pos hc], by simp [startsNumber, hc]⟩
  · rw [Bool.and_eq_true, beq_iff_eq, Option.any_eq_true] at hc
    obtain ⟨rfl, d, hd, hdigit⟩ := hc
    obtain ⟨cs, rfl⟩ := List.head?_eq_some_iff.mp hd
    exact ⟨d :: (numberRun true cs).1, by simp [numberRun, hdigit], by simp [startsNumber, hdigit]⟩

/-- The characters of a number start one, and they are a number by themselves. -/
theorem numberRun_of_startsNumber (h : startsNumber c cs = true) :
    ∃ run rest, cs = run ++ rest ∧ numberRun false (c :: cs) = (c :: run, rest) ∧
      startsNumber c run = true ∧ numberRun false (c :: run) = (c :: run, []) := by
  obtain ⟨run, hrun, hstart⟩ := exists_run_of_startsNumber h
  have happend := numberRun_append false (c :: cs)
  have halone := numberRun_alone false (c :: cs)
  rw [hrun] at happend halone
  exact ⟨run, _, (List.cons.inj happend).2.symm, Prod.ext hrun rfl, hstart, halone⟩

/-! The classes of lexemes. -/

/-- No mark stands here. -/
structure IsUnmarked (c : Char) (cs : List Char) : Prop where
  pair : cs.head?.bind (mark₂? c) = none
  single : mark₁? c = none

/-- What the characters from one on that is no white space are read as: a case for each class of lexemes and
for what is none. The first class that fits is taken. -/
inductive Opens (position : Nat) (c : Char) (cs : List Char) : Except ExprFault (Lexeme × List Char) → Prop
  | pair {d : Char} {rest : List Char} {m : Mark} (hcs : cs = d :: rest) (hm : mark₂? c d = some m) :
      Opens position c cs (.ok (.mark m, rest))
  | single {m : Mark} (hp : cs.head?.bind (mark₂? c) = none) (hm : mark₁? c = some m) :
      Opens position c cs (.ok (.mark m, cs))
  | number {run rest : List Char} {n : Number} (hu : IsUnmarked c cs) (hs : startsNumber c cs = true)
      (hr : numberRun false (c :: cs) = (run, rest)) (hn : numberOf run = .ok n) :
      Opens position c cs (.ok (.num n, rest))
  | overrun {run rest : List Char} {f : ExprFault} (hu : IsUnmarked c cs) (hs : startsNumber c cs = true)
      (hr : numberRun false (c :: cs) = (run, rest)) (hn : numberOf run = .error f) :
      Opens position c cs (.error f)
  | text {run rest : List Char} (hu : IsUnmarked c cs) (hs : startsNumber c cs = false)
      (hq : c = '\'' ∨ c = '"') (hr : textRun c cs = some (run, rest)) :
      Opens position c cs (.ok (.text (String.ofList run), rest))
  | unclosed (hu : IsUnmarked c cs) (hs : startsNumber c cs = false) (hq : c = '\'' ∨ c = '"')
      (hr : textRun c cs = none) : Opens position c cs (.error (.unterminatedText position))
  | word {run rest : List Char} (hu : IsUnmarked c cs) (hs : startsNumber c cs = false)
      (hq : ¬(c = '\'' ∨ c = '"')) (hw : isWordStart c = true) (hr : wordRun cs = (run, rest)) :
      Opens position c cs (.ok (.word (String.ofList (c :: run)), rest))
  | stray (hu : IsUnmarked c cs) (hs : startsNumber c cs = false) (hq : ¬(c = '\'' ∨ c = '"'))
      (hw : isWordStart c = false) : Opens position c cs (.error (.unexpectedCharacter c position))

theorem Opens.eq {r : Except ExprFault (Lexeme × List Char)} (h : Opens position c cs r) :
    nextLexeme position c cs = r := by
  cases h with
  | pair hcs hm => simp [nextLexeme, hcs, hm]
  | single hp hm => simp [nextLexeme, hp, hm]
  | number hu hs hr hn => simp [nextLexeme, hu.pair, hu.single, hs, hr, hn, Except.map]
  | overrun hu hs hr hn => simp [nextLexeme, hu.pair, hu.single, hs, hr, hn, Except.map]
  | text hu hs hq hr => simp [nextLexeme, hu.pair, hu.single, hs, hq, hr]
  | unclosed hu hs hq hr => simp [nextLexeme, hu.pair, hu.single, hs, hq, hr]
  | word hu hs hq hw hr => simp [nextLexeme, hu.pair, hu.single, hs, hq, hw, hr]
  | stray hu hs hq hw => simp [nextLexeme, hu.pair, hu.single, hs, hq, hw]

theorem IsUnmarked.of_append {run : List Char} (h : IsUnmarked c (run ++ rest)) : IsUnmarked c run := by
  refine ⟨?_, h.single⟩
  cases run with
  | nil => rfl
  | cons d run => exact h.pair

theorem startsNumber_of_append {run : List Char} (h : startsNumber c (run ++ rest) = false) :
    startsNumber c run = false := by
  cases run with
  | nil =>
    rw [startsNumber, Bool.or_eq_false_iff] at h
    simp [startsNumber, h.1]
  | cons d run => exact h

/-- The characters of a lexeme are read as this lexeme by themselves. -/
theorem Opens.alone (h : Opens position c cs (.ok (l, rest))) :
    ∃ run, cs = run ++ rest ∧ Opens 0 c run (.ok (l, [])) := by
  cases h with
  | @pair d _ m hcs hm => exact ⟨[d], hcs, .pair rfl hm⟩
  | single hp hm => exact ⟨[], rfl, .single rfl hm⟩
  | number hu hs hr hn =>
    obtain ⟨run, behind, rfl, hrun, hstart, halone⟩ := numberRun_of_startsNumber hs
    cases hrun.symm.trans hr
    exact ⟨run, rfl, .number hu.of_append hstart halone hn⟩
  | text hu hs hq hr =>
    obtain ⟨raw, rfl, halone⟩ := textRun_alone hr
    exact ⟨raw, rfl, .text hu.of_append (startsNumber_of_append hs) hq halone⟩
  | @word run _ hu hs hq hw hr =>
    have hparts := wordRun_parts cs
    have halone := wordRun_alone cs
    rw [hr] at hparts halone
    subst hparts
    exact ⟨run, rfl, .word hu.of_append (startsNumber_of_append hs) hq hw halone⟩

theorem scan_nil (fuel position : Nat) : scan fuel position [] = .ok [] := by
  cases fuel <;> rfl

/-- The scan of a text that starts at some position, step by step: every step takes a blank or all
characters of a lexeme, or it is the last one. -/
inductive Scans : Nat → List Char → Except ExprFault (List Token) → Prop
  | done (position : Nat) : Scans position [] (.ok [])
  | blank {position : Nat} {c : Char} {cs : List Char} {r : Except ExprFault (List Token)}
      (hc : Text.isBlank c = true) (h : Scans (position + 1) cs r) : Scans position (c :: cs) r
  | fault {position : Nat} {c : Char} {cs : List Char} {f : ExprFault} (hc : Text.isBlank c = false)
      (hf : nextLexeme position c cs = .error f) : Scans position (c :: cs) (.error f)
  | lexeme {position : Nat} {c : Char} {run rest : List Char} {l : Lexeme}
      {r : Except ExprFault (List Token)} (hc : Text.isBlank c = false)
      (hl : nextLexeme position c (run ++ rest) = .ok (l, rest))
      (h : Scans (position + (run.length + 1)) rest r) :
      Scans position (c :: run ++ rest) (r.map (⟨l, position⟩ :: ·))

/-- A text is scanned in one way only. -/
theorem Scans.eq {r : Except ExprFault (List Token)} (h : Scans position cs r) {fuel : Nat}
    (hf : cs.length ≤ fuel) : r = scan fuel position cs := by
  induction h generalizing fuel with
  | done position => rw [scan_nil]
  | blank hc h ih =>
    cases fuel with
    | zero => cases hf
    | succ fuel =>
      rw [List.length_cons, Nat.succ_le_succ_iff] at hf
      rw [scan, if_pos hc, ← ih hf]
  | fault hc hf' =>
    cases fuel with
    | zero => cases hf
    | succ fuel => rw [scan, hc, if_neg Bool.false_ne_true, hf']
  | @lexeme position c run rest l r hc hl h ih =>
    cases fuel with
    | zero => cases hf
    | succ fuel =>
      rw [List.length_append, List.length_cons] at hf
      have hstep : position + ((run ++ rest).length + 1 - rest.length) =
          position + (run.length + 1) := by
        rw [List.length_append]
        omega
      have hrest : r = scan fuel (position + (run.length + 1)) rest := ih (by omega)
      rw [List.cons_append, scan, hc, if_neg Bool.false_ne_true, hl]
      dsimp only
      rw [hstep, ← hrest]
      cases r <;> rfl

/-- A character that is no white space and that no lexeme starts with. -/
structure IsStray (c : Char) (rest : List Char) : Prop where
  blank : Text.isBlank c = false
  mark₂ : rest.head?.bind (mark₂? c) = none
  mark₁ : mark₁? c = none
  number : startsNumber c rest = false
  quote : c ≠ '\'' ∧ c ≠ '"'
  word : isWordStart c = false

end Workflow.Expr.Token
