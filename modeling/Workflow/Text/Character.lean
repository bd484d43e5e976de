/-!
Characters in any script: decimal digits, white space, and letters without regard to case.
-/

namespace Workflow.Text

/-! Digits. -/

/-- The zero of every script that has ten decimal digits; the other nine follow it. -/
def zeroDigits : List Nat := [
  0x30, 0x660, 0x6f0, 0x7c0, 0x966, 0x9e6, 0xa66, 0xae6, 0xb66, 0xbe6, 0xc66, 0xce6, 0xd66, 0xde6,
  0xe50, 0xed0, 0xf20, 0x1040, 0x1090, 0x17e0, 0x1810, 0x1946, 0x19d0, 0x1a80, 0x1a90, 0x1b50,
  0x1bb0, 0x1c40, 0x1c50, 0xa620, 0xa8d0, 0xa900, 0xa9d0, 0xa9f0, 0xaa50, 0xabf0, 0xff10, 0x104a0,
  0x10d30, 0x11066, 0x110f0, 0x11136, 0x111d0, 0x112f0, 0x11450, 0x114d0, 0x11650, 0x116c0,
  0x11730, 0x118e0, 0x11950, 0x11c50, 0x11d50, 0x11da0, 0x16a60, 0x16ac0, 0x16b50, 0x1d7ce,
  0x1d7d8, 0x1d7e2, 0x1d7ec, 0x1d7f6, 0x1e140, 0x1e2f0, 0x1e950, 0x1fbf0]

/-- The worth of a decimal digit of any script. -/
def digit? (c : Char) : Option Nat :=
  if c.isDigit then some (c.toNat - 48)
  else
    (zeroDigits.find? fun z => z ≤ c.toNat && c.toNat < z + 10).map (c.toNat - ·)

def isDigit (c : Char) : Bool :=
  (digit? c).isSome

/-- The number a run of decimal digits stands for. -/
def ofDigits (ds : List Nat) : Nat :=
  ds.foldl (fun n d => 10 * n + d) 0

/-! White space. -/

/-- The characters that count as white space. -/
def blanks : List Char :=
  ['\t', '\n', '\x0b', '\x0c', '\r', '\x1c', '\x1d', '\x1e', '\x1f', ' ', '\x85', '\xa0',
    '\u1680', '\u2000', '\u2001', '\u2002', '\u2003', '\u2004', '\u2005', '\u2006', '\u2007',
    '\u2008', '\u2009', '\u200a', '\u2028', '\u2029', '\u202f', '\u205f', '\u3000']

def isBlank (c : Char) : Bool :=
  blanks.contains c

def trimStart (cs : List Char) : List Char :=
  cs.dropWhile isBlank

def trimEnd (cs : List Char) : List Char :=
  (cs.reverse.dropWhile isBlank).reverse

/-- Drops the white space on both sides. -/
def trim (cs : List Char) : List Char :=
  trimEnd (trimStart cs)

/-- What holds of each white space character in the list holds of white space. -/
theorem of_isBlank {p : Char → Bool} (hp : blanks.all p = true) {c : Char} (hc : isBlank c = true) :
    p c = true :=
  List.all_eq_true.mp hp c (List.contains_iff_mem.mp hc)

theorem isBlank_of_isWhitespace (c : Char) (h : c.isWhitespace) : isBlank c := by
  simp only [Char.isWhitespace, Bool.or_eq_true, decide_eq_true_eq] at h
  rcases h with ((h | h) | h) | h <;> subst h <;> decide

section trim

variable {lead cs trail : List Char}

theorem trimStart_append (hl : ∀ c ∈ lead, isBlank c = true) (hc : ∀ c ∈ cs.head?, isBlank c = false) :
    trimStart (lead ++ cs) = cs := by
  rw [trimStart, List.dropWhile_append_of_pos hl]
  cases cs with
  | nil => rfl
  | cons c cs => rw [List.dropWhile_cons_of_neg (by rw [hc c rfl]; exact Bool.false_ne_true)]

theorem trim_padded (hl : ∀ c ∈ lead, isBlank c = true) (hc : ∀ c ∈ cs, isBlank c = false)
    (ht : ∀ c ∈ trail, isBlank c = true) (hne : cs ≠ []) : trim (lead ++ (cs ++ trail)) = cs := by
  have hstart : trimStart (lead ++ (cs ++ trail)) = cs ++ trail := by
    refine trimStart_append hl fun c hm => ?_
    cases cs with
    | nil => exact absurd rfl hne
    | cons d cs =>
      cases hm
      exact hc c List.mem_cons_self
  -- The end of a text is the start of its reverse.
  have hend : trimStart (trail.reverse ++ cs.reverse) = cs.reverse := by
    apply trimStart_append (fun c hm => ht c (List.mem_reverse.mp hm))
    exact fun c hm => hc c (List.mem_reverse.mp (List.mem_of_mem_head? hm))
  rw [trim, hstart, trimEnd, List.reverse_append, ← trimStart, hend, List.reverse_reverse]

end trim

/-! Letters. -/

/-- The small ASCII letter for a letter of either case. Four letters beyond ASCII count as cases of
`i`, `s` and `k`. -/
def foldCase (c : Char) : Char :=
  match c with
  | '\u0130' | '\u0131' => 'i'
  | '\u017f' => 's'
  | '\u212a' => 'k'
  | c => c.toLower

/-- What follows a word, in any case, at the start of a text. -/
def afterWord? : List Char → List Char → Option (List Char)
  | [], cs => some cs
  | _, [] => none
  | w :: ws, c :: cs => if foldCase c == w then afterWord? ws cs else none

/-- What follows the first of several words that a text starts with. -/
def afterSomeWord? (words : List String) (cs : List Char) : Option (List Char) :=
  words.findSome? fun w => afterWord? w.toList cs

def isAsciiLetter (c : Char) : Bool :=
  let d := foldCase c
  'a' ≤ d && d ≤ 'z'

end Workflow.Text
