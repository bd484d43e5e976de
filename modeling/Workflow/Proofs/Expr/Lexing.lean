import Workflow.Expr.Token
import Workflow.Text.Dotted
/-!
How the pieces of an expression text are read: a number, a quoted text, a word or a mark is read as
such whatever comes before it, and behind it the reading goes on, provided that what follows does
not extend it.
-/

namespace Workflow.Expr.Token

/-- A text is read as a list of lexemes, wherever it stands. -/
def Reads (cs : List Char) (ls : List Lexeme) : Prop :=
  ∀ fuel position, cs.length ≤ fuel →
    ∃ ts, scan fuel position cs = .ok ts ∧ ts.map (·.lexeme) = ls

/-- What stands behind a number or a word does not extend it. -/
def Ends (rest : List Char) : Prop :=
  ∀ c ∈ rest.head?, isWordPart c = false ∧ c ≠ '.'

/-- What stands behind a mark of one character makes no mark of two with it. -/
def Detached (rest : List Char) : Prop :=
  rest.head? ≠ some '='

variable {rest : List Char} {ls : List Lexeme}

theorem reads_nil : Reads [] [] := by
  intro fuel position _
  refine ⟨[], ?_, rfl⟩
  cases fuel <;> rfl

theorem Reads.blank {c : Char} (hc : Text.isBlank c = true) (h : Reads rest ls) :
    Reads (c :: rest) ls := by
  intro fuel position hf
  cases fuel with
  | zero => simp at hf
  | succ fuel =>
    rw [scan, if_pos hc]
    exact h fuel (position + 1) (by simpa using hf)

theorem Reads.blanks {bs : List Char} (hb : ∀ c ∈ bs, Text.isBlank c = true) (h : Reads rest ls) :
    Reads (bs ++ rest) ls := by
  induction bs with
  | nil => exact h
  | cons b bs ih =>
    exact (ih fun c hc => hb c (List.mem_cons_of_mem b hc)).blank (hb b List.mem_cons_self)

/-- A piece that is read as one lexeme. -/
theorem Reads.piece {c : Char} {cs : List Char} {l : Lexeme} (hc : Text.isBlank c = false)
    (hl : ∀ position, nextLexeme position c (cs ++ rest) = .ok (l, rest)) (h : Reads rest ls) :
    Reads (c :: cs ++ rest) (l :: ls) := by
  intro fuel position hf
  cases fuel with
  | zero => simp at hf
  | succ fuel =>
    obtain ⟨ts, hs, hm⟩ := h fuel (position + ((cs ++ rest).length + 1 - rest.length))
      (by simp at hf; omega)
    refine ⟨⟨l, position⟩ :: ts, ?_, by simp [hm]⟩
    rw [List.cons_append, scan, hc, if_neg Bool.false_ne_true, hl]
    simp only [hs]

theorem Reads.tokens {cs : List Char} (h : Reads cs ls) :
    ∃ ts, tokens cs = .ok ts ∧ ts.map (·.lexeme) = ls :=
  h cs.length 0 (Nat.le_refl _)

/-! Marks. -/

theorem mark₂?_of_mark₁? {c d : Char} {m : Mark} (hm : mark₁? c = some m) (hd : d ≠ '=') :
    mark₂? c d = none := by
  unfold mark₁? at hm
  unfold mark₂?
  split at hm <;> simp_all

theorem not_blank_of_mark₁? {c : Char} {m : Mark} (hm : mark₁? c = some m) :
    Text.isBlank c = false := by
  unfold mark₁? at hm
  split at hm <;> first | decide | cases hm

theorem Detached.bind_mark₂? (h : Detached rest) {c : Char} {m : Mark} (hm : mark₁? c = some m) :
    rest.head?.bind (mark₂? c) = none := by
  cases rest with
  | nil => rfl
  | cons d rest => exact mark₂?_of_mark₁? hm fun hd => h (by rw [hd]; rfl)

theorem Reads.mark₁ {c : Char} {m : Mark} (hm : mark₁? c = some m)
    (hn : rest.head?.bind (mark₂? c) = none) (h : Reads rest ls) :
    Reads (c :: rest) (.mark m :: ls) := by
  rw [← List.singleton_append]
  refine Reads.piece (not_blank_of_mark₁? hm) (fun position => ?_) h
  simp only [nextLexeme, List.nil_append, hn, hm]

theorem Reads.opening (h : Reads rest ls) : Reads ('(' :: rest) (.mark .opening :: ls) := by
  apply h.mark₁ rfl
  cases rest <;> rfl

theorem Reads.closing (h : Reads rest ls) : Reads (')' :: rest) (.mark .closing :: ls) := by
  apply h.mark₁ rfl
  cases rest <;> rfl

theorem Reads.mark₂ {c d : Char} {m : Mark} (hm : mark₂? c d = some m) (h : Reads rest ls) :
    Reads (c :: d :: rest) (.mark m :: ls) := by
  have hb : Text.isBlank c = false := by
    unfold mark₂? at hm
    split at hm <;> first | decide | cases hm
  have hp : Reads (c :: [d] ++ rest) (.mark m :: ls) :=
    Reads.piece hb (fun position => by simp [nextLexeme, hm]) h
  exact hp

/-! Quoted texts. -/

/-- The characters of a text between quotes, with a backslash before each quote and backslash. -/
def escaped (quote : Char) (cs : List Char) : List Char :=
  cs.flatMap fun c => if c = quote ∨ c = '\\' then ['\\', c] else [c]

theorem textRun_escaped {quote : Char} (hq : quote ≠ '\\') (cs : List Char) :
    textRun quote (escaped quote cs ++ quote :: rest) = some (cs, rest) := by
  induction cs with
  | nil => simp [escaped, textRun, hq]
  | cons c cs ih =>
    by_cases hc : c = quote ∨ c = '\\'
    · rw [escaped, List.flatMap_cons, if_pos hc, ← escaped]
      simp [textRun, ih]
    · rw [escaped, List.flatMap_cons, if_neg hc, ← escaped]
      rw [not_or] at hc
      simp [textRun, ih, hc.1, hc.2]

theorem Reads.text {quote : Char} (hq : quote = '\'' ∨ quote = '"') (s : String)
    (h : Reads rest ls) :
    Reads (quote :: escaped quote s.toList ++ quote :: rest) (.text s :: ls) := by
  have hne : quote ≠ '\\' := by rcases hq with rfl | rfl <;> decide
  have hp : Reads (quote :: (escaped quote s.toList ++ [quote]) ++ rest) (.text s :: ls) := by
    refine Reads.piece (by rcases hq with rfl | rfl <;> decide) (fun position => ?_) h
    rw [List.append_assoc, List.singleton_append]
    rcases hq with rfl | rfl <;>
      simp [nextLexeme, mark₂?, mark₁?, startsNumber, textRun_escaped hne]
  simpa using hp

/-! Words. -/

theorem not_mark₁?_of_isWordPart {c : Char} (hc : isWordPart c = true) : mark₁? c = none := by
  cases hm : mark₁? c with
  | none => rfl
  | some m =>
    unfold mark₁? at hm
    split at hm <;> first | exact absurd hc (by decide) | cases hm

theorem not_mark₂?_of_isWordPart {c : Char} (hc : isWordPart c = true) (d : Char) :
    mark₂? c d = none := by
  cases hm : mark₂? c d with
  | none => rfl
  | some m =>
    unfold mark₂? at hm
    split at hm <;> first | exact absurd hc (by decide) | cases hm

theorem head?_bind_mark₂? {c : Char} (hc : isWordPart c = true) (cs : List Char) :
    cs.head?.bind (mark₂? c) = none := by
  cases cs.head? with
  | none => rfl
  | some d => exact not_mark₂?_of_isWordPart hc d

theorem not_isWordPart_of_isBlank {c : Char} (hc : Text.isBlank c = true) :
    isWordPart c = false := by
  simpa using Text.of_isBlank (p := (! isWordPart ·)) (by decide) hc

theorem not_isBlank_of_isWordPart {c : Char} (hc : isWordPart c = true) :
    Text.isBlank c = false := by
  cases hb : Text.isBlank c with
  | false => rfl
  | true => rw [not_isWordPart_of_isBlank hb] at hc; cases hc

theorem isWordPart_of_isWordStart {c : Char} (hc : isWordStart c = true) : isWordPart c = true := by
  simp only [isWordStart, isWordPart, Char.isAlphanum, Bool.or_eq_true] at *
  rcases hc with hc | hc <;> simp [hc]

theorem not_isDigit_of_isWordStart {c : Char} (hc : isWordStart c = true) : c.isDigit = false := by
  have hc : (decide (c.val ≥ 'A'.val ∧ c.val ≤ 'Z'.val) ||
      (decide (c.val ≥ 'a'.val) && decide (c.val ≤ 'z'.val)) || c == '_') = true := hc
  simp only [Char.isDigit, Bool.or_eq_true, Bool.and_eq_true, decide_eq_true_eq, beq_iff_eq,
    Bool.and_eq_false_iff, decide_eq_false_iff_not] at *
  rcases hc with (⟨h, -⟩ | ⟨h, -⟩) | rfl
  · exact .inr fun hd => absurd (UInt32.le_trans h hd) (by decide)
  · exact .inr fun hd => absurd (UInt32.le_trans h hd) (by decide)
  · decide

theorem wordRun_cons {c : Char} (hc : isWordPart c = true) (cs : List Char) :
    wordRun (c :: cs) = (c :: (wordRun cs).1, (wordRun cs).2) := by
  have hd : c ≠ '.' := by
    rintro rfl
    exact absurd hc (by decide)
  rw [wordRun, if_pos hc]
  exact fun _ _ h => absurd h hd

theorem wordRun_append {w : List Char} (hw : ∀ c ∈ w, isWordPart c = true) (cs : List Char) :
    wordRun (w ++ cs) = (w ++ (wordRun cs).1, (wordRun cs).2) := by
  induction w with
  | nil => rfl
  | cons c w ih =>
    rw [List.cons_append, wordRun_cons (hw c List.mem_cons_self),
      ih fun d hd => hw d (List.mem_cons_of_mem c hd)]
    rfl

theorem wordRun_ends (h : Ends rest) : wordRun rest = ([], rest) := by
  cases rest with
  | nil => rfl
  | cons c rest =>
    obtain ⟨hc, hd⟩ := h c rfl
    rw [wordRun, if_neg (by rw [hc]; exact Bool.false_ne_true)]
    exact fun _ _ h => absurd h hd

/-- A word of ASCII letters, digits and underscores that starts with no digit. -/
def IsIdentifier (cs : List Char) : Prop :=
  cs.head?.any isWordStart = true ∧ ∀ c ∈ cs, isWordPart c = true

instance : DecidablePred IsIdentifier := fun cs =>
  decidable_of_iff (cs.head?.any isWordStart = true ∧ cs.all isWordPart = true)
    (and_congr_right fun _ => List.all_eq_true)

theorem IsIdentifier.wordRun_dotted {ps : List (List Char)} (hp : ∀ p ∈ ps, IsIdentifier p)
    (h : Ends rest) :
    wordRun (ps.flatMap ('.' :: ·) ++ rest) = (ps.flatMap ('.' :: ·), rest) := by
  induction ps with
  | nil => exact wordRun_ends h
  | cons p ps ih =>
    obtain ⟨ha, hw⟩ := hp p List.mem_cons_self
    obtain ⟨c, hc, hs⟩ := (Option.any_eq_true _ _).mp ha
    obtain ⟨cs, rfl⟩ := List.head?_eq_some_iff.mp hc
    have ih := ih fun q hq => hp q (List.mem_cons_of_mem _ hq)
    have hcs := wordRun_append (fun d hd => hw d (List.mem_cons_of_mem c hd))
      (ps.flatMap ('.' :: ·) ++ rest)
    rw [List.flatMap_cons, List.append_assoc, List.cons_append, List.cons_append, wordRun, if_pos hs,
      hcs, ih]
    simp

theorem IsIdentifier.dotless {cs : List Char} (h : IsIdentifier cs) : '.' ∉ cs :=
  fun hd => absurd (h.2 '.' hd) (by decide)

theorem Reads.word {c : Char} {cs : List Char} (hc : isWordStart c = true)
    (hr : wordRun (cs ++ rest) = (cs, rest)) (h : Reads rest ls) :
    Reads (c :: cs ++ rest) (.word (String.ofList (c :: cs)) :: ls) := by
  have hp := isWordPart_of_isWordStart hc
  refine Reads.piece (not_isBlank_of_isWordPart hp) (fun position => ?_) h
  have hd := not_isDigit_of_isWordStart hc
  have hdot : c ≠ '.' := by
    rintro rfl
    exact absurd hc (by decide)
  have hq : c ≠ '\'' ∧ c ≠ '"' := by
    constructor <;>
    · rintro rfl
      exact absurd hc (by decide)
  simp only [nextLexeme, head?_bind_mark₂? hp, not_mark₁?_of_isWordPart hp, startsNumber, hd, hc,
    hr]
  simp [hdot, hq]

/-- A word of parts that are identifiers, with `vars` in front. -/
theorem toList_dotted (parts : List String) :
    (".".intercalate ("vars" :: parts)).toList =
      'v' :: (['a', 'r', 's'] ++ (parts.map String.toList).flatMap ('.' :: ·)) := by
  have hi (w : List Char) (ps : List (List Char)) :
      ['.'].intercalate (w :: ps) = w ++ ps.flatMap ('.' :: ·) := by
    induction ps generalizing w with
    | nil => simp
    | cons p ps ih => rw [List.intercalate_cons_cons, ih]; simp
  rw [String.toList_intercalate, List.map_cons]
  exact hi _ _

theorem Reads.path {parts : List String} (hp : ∀ p ∈ parts, IsIdentifier p.toList) (he : Ends rest)
    (h : Reads rest ls) :
    Reads ((".".intercalate ("vars" :: parts)).toList ++ rest)
      (.word (".".intercalate ("vars" :: parts)) :: ls) := by
  have hr : wordRun ((['a', 'r', 's'] ++ (parts.map String.toList).flatMap ('.' :: ·)) ++ rest) =
      (['a', 'r', 's'] ++ (parts.map String.toList).flatMap ('.' :: ·), rest) := by
    rw [List.append_assoc, wordRun_append (List.all_eq_true.mp (by decide)), IsIdentifier.wordRun_dotted _ he]
    simpa using hp
  have hw := Reads.word (c := 'v') rfl hr h
  rwa [← toList_dotted, String.ofList_toList] at hw

/-! Whole numbers. -/

theorem ofDigits_append (ds es : List Nat) :
    Text.ofDigits (ds ++ es) = es.foldl (fun n d => 10 * n + d) (Text.ofDigits ds) :=
  List.foldl_append

theorem digitChar_toNat {d : Nat} (hd : d < 10) : d.digitChar.toNat - 48 = d := by
  have hall : ∀ d < 10, (Nat.digitChar d).toNat - 48 = d := by decide
  exact hall d hd

/-- The decimal digits of a number stand for it. -/
theorem ofDigits_toDigits (n : Nat) : Text.ofDigits (digitsOf (Nat.toDigits 10 n)) = n := by
  induction n using Nat.strongRecOn with
  | ind n ih =>
    rw [Nat.toDigits_eq_if (by decide)]
    split
    · rename_i hn
      simp [digitsOf, Text.ofDigits, digitChar_toNat hn]
    · rename_i hn
      rw [digitsOf, List.map_append, ← digitsOf, ofDigits_append, ih (n / 10) (by omega)]
      simp only [List.map_cons, List.map_nil, List.foldl_cons, List.foldl_nil,
        digitChar_toNat (Nat.mod_lt n (by decide))]
      omega

theorem not_isDigit_of_ends (h : Ends rest) : ∀ c ∈ rest.head?, c.isDigit = false := by
  intro c hc
  have hw := (h c hc).1
  simp only [isWordPart, Char.isAlphanum, Bool.or_eq_false_iff] at hw
  exact hw.1.2

theorem numberRun_digits {ds : List Char} (hd : ∀ c ∈ ds, c.isDigit = true) (h : Ends rest) :
    numberRun false (ds ++ rest) = (ds, rest) := by
  induction ds with
  | nil =>
    cases rest with
    | nil => rfl
    | cons c rest =>
      have hn := not_isDigit_of_ends h c rfl
      have hdot := (h c rfl).2
      simp [numberRun, hn, hdot]
  | cons c ds ih =>
    have ih := ih fun d hd' => hd d (List.mem_cons_of_mem c hd')
    simp [numberRun, hd c List.mem_cons_self, ih]

theorem numberOf_digits {ds : List Char} (hd : ∀ c ∈ ds, c.isDigit = true)
    (hl : ds.length ≤ Numeral.digitLimit) :
    numberOf ds = .ok (.int (Text.ofDigits (digitsOf ds))) := by
  have ht : ds.takeWhile Char.isDigit = ds := by
    simpa using @List.takeWhile_append_of_pos _ _ ds [] hd
  have hw : ds.dropWhile Char.isDigit = [] := by
    simpa using @List.dropWhile_append_of_pos _ _ ds [] hd
  simp only [numberOf, ht, hw, if_neg (Nat.not_lt.mpr hl)]

theorem Reads.number {n : Nat} (hn : (Nat.toDigits 10 n).length ≤ Numeral.digitLimit)
    (he : Ends rest) (h : Reads rest ls) :
    Reads (Nat.toDigits 10 n ++ rest) (.num (.int n) :: ls) := by
  have hd : ∀ c ∈ Nat.toDigits 10 n, c.isDigit = true :=
    fun c hc => Nat.isDigit_of_mem_toDigits (by decide) (by decide) hc
  have ho := numberOf_digits hd hn
  rw [ofDigits_toDigits] at ho
  have hr := numberRun_digits hd he
  obtain ⟨c, cs, hcs⟩ := List.exists_cons_of_ne_nil
    (List.ne_nil_of_length_pos (Nat.length_toDigits_pos (b := 10) (n := n)))
  rw [hcs] at hd ho hr ⊢
  have hc := hd c List.mem_cons_self
  have hp : isWordPart c = true := by simp [isWordPart, Char.isAlphanum, hc]
  refine Reads.piece (not_isBlank_of_isWordPart hp) (fun position => ?_) h
  rw [List.cons_append] at hr
  simp only [nextLexeme, head?_bind_mark₂? hp, not_mark₁?_of_isWordPart hp, startsNumber, hc,
    Bool.true_or, hr, ho]
  rfl

end Workflow.Expr.Token
