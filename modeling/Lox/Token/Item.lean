import Lox.Token

/-! A source text cut into items: tokens, blanks, comments, and what belongs to no token. The cut is by
longest match, loses nothing, and always takes at least one character. -/

namespace Lox

inductive Item where
  | token (kind : TokenKind) (text : List Char)
  | blank (c : Char)
  | comment (text : List Char)
  | unexpected (c : Char)
  | unclosed (text : List Char)

namespace Item

def isDigit (c : Char) : Bool := '0' ≤ c && c ≤ '9'

def isAlpha (c : Char) : Bool := ('a' ≤ c && c ≤ 'z') || ('A' ≤ c && c ≤ 'Z') || c = '_'

def isAlphaNumeric (c : Char) : Bool := isAlpha c || isDigit c

def isSpace (c : Char) : Bool := c = ' ' || c = '\r' || c = '\t' || c = '\n'

/-- The characters that are tokens by themselves, whatever follows. -/
def marks : List (Char × TokenKind) :=
  [('(', .leftParen), (')', .rightParen), ('{', .leftBrace), ('}', .rightBrace), (',', .comma),
    ('.', .dot), ('-', .minus), ('+', .plus), (';', .semicolon), ('*', .star)]

/-- The operators that take an equals sign: the kind with it and the kind without. -/
def extensible : List (Char × TokenKind × TokenKind) :=
  [('!', .bangEqual, .bang), ('=', .equalEqual, .equal), ('<', .lessEqual, .less),
    ('>', .greaterEqual, .greater)]

def text : Item → List Char
  | token _ text | comment text | unclosed text => text
  | blank c | unexpected c => [c]

/-- What a number takes after its first digit. A point belongs to it only before a digit. -/
def numberTail (cs : List Char) : List Char × List Char :=
  let whole := cs.takeWhile isDigit
  match cs.dropWhile isDigit with
  | '.' :: d :: rest =>
    if isDigit d then (whole ++ '.' :: d :: rest.takeWhile isDigit, rest.dropWhile isDigit)
    else (whole, '.' :: d :: rest)
  | rest => (whole, rest)

/-- The first item of `c :: cs` and what follows it. -/
def cut (c : Char) (cs : List Char) : Item × List Char :=
  if let some kind := marks.lookup c then (token kind [c], cs)
  else if let some (longer, shorter) := extensible.lookup c then
    match cs with
    | '=' :: rest => (token longer [c, '='], rest)
    | _ => (token shorter [c], cs)
  else if c = '/' then
    match cs with
    | '/' :: _ => (comment (c :: cs.takeWhile (· ≠ '\n')), cs.dropWhile (· ≠ '\n'))
    | _ => (token .slash [c], cs)
  else if isSpace c then (blank c, cs)
  else if c = '"' then
    match cs.dropWhile (· ≠ '"') with
    | [] => (unclosed (c :: cs), [])
    | quote :: rest => (token .string (c :: cs.takeWhile (· ≠ '"') ++ [quote]), rest)
  else if isDigit c then
    let (tail, rest) := numberTail cs
    (token .number (c :: tail), rest)
  else if isAlpha c then
    let word := c :: cs.takeWhile isAlphaNumeric
    (token (.ofWord (String.ofList word)) word, cs.dropWhile isAlphaNumeric)
  else (unexpected c, cs)

theorem numberTail_append (cs : List Char) : (numberTail cs).1 ++ (numberTail cs).2 = cs := by
  have h := List.takeWhile_append_dropWhile (p := isDigit) (l := cs)
  unfold numberTail
  dsimp only
  split
  · next d rest hd =>
    rw [hd] at h
    split
    · rw [List.append_assoc, List.cons_append, List.cons_append, List.takeWhile_append_dropWhile, h]
    · exact h
  · exact h

theorem text_cut_append (c : Char) (cs : List Char) : (cut c cs).1.text ++ (cut c cs).2 = c :: cs := by
  unfold cut
  split
  · rfl
  split
  · split <;> simp [text]
  split
  · split <;> simp [text]
  split
  · rfl
  split
  · have h := List.takeWhile_append_dropWhile (p := (· ≠ '"')) (l := cs)
    split
    · simp [text]
    · next hd => rw [hd] at h; simpa [text] using h
  split
  · simp [text, numberTail_append]
  split
  · simp [text]
  · rfl

theorem text_cut_ne_nil (c : Char) (cs : List Char) : (cut c cs).1.text ≠ [] := by
  unfold cut
  repeat' split
  all_goals simp [text]

theorem length_cut_lt (c : Char) (cs : List Char) : (cut c cs).2.length < (c :: cs).length := by
  have h := congrArg List.length (text_cut_append c cs)
  have := List.length_pos_iff.2 (text_cut_ne_nil c cs)
  simp only [List.length_append] at h
  omega

def ofChars : List Char → List Item
  | [] => []
  | c :: cs => (cut c cs).1 :: ofChars (cut c cs).2
termination_by cs => cs.length
decreasing_by exact length_cut_lt c cs

theorem flatMap_text_ofChars (cs : List Char) : (ofChars cs).flatMap text = cs := by
  fun_induction ofChars cs with
  | case1 => rfl
  | case2 c cs ih => rw [List.flatMap_cons, ih, text_cut_append]

def newlines (i : Item) : Nat := i.text.count '\n'

end Item

end Lox
