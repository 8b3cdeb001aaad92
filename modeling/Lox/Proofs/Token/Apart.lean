import Lox.Proofs.Token.MaximalMunch

/-! Items set apart. No item but a comment or a string goes on over a blank, and a comment ends with its line, so what
stands before a blank is cut as it is cut alone. -/

namespace Lox
namespace Item

section Stop

variable {p : Char → Bool} {s : Char} (cs rest : List Char)

theorem takeWhile_append_stop (h : p s = false) : (cs ++ s :: rest).takeWhile p = cs.takeWhile p := by
  induction cs with
  | nil => exact List.takeWhile_cons_of_neg (by simp [h])
  | cons d ds ih => simp only [List.cons_append, List.takeWhile_cons, ih]

theorem dropWhile_append_stop (h : p s = false) :
    (cs ++ s :: rest).dropWhile p = cs.dropWhile p ++ s :: rest := by
  induction cs with
  | nil => exact List.dropWhile_cons_of_neg (by simp [h])
  | cons d ds ih =>
    simp only [List.cons_append, List.dropWhile_cons, ih]
    split <;> rfl

/-- A blank goes on with no number, word or operator. -/
theorem ends_of_isSpace {s : Char} (h : isSpace s) :
    isDigit s = false ∧ isAlphaNumeric s = false ∧ s ≠ '.' ∧ s ≠ '=' := by
  have hspaces : ((s = ' ' ∨ s = '\r') ∨ s = '\t') ∨ s = '\n' := by simpa [isSpace] using h
  rcases hspaces with ((rfl | rfl) | rfl) | rfl <;> decide

theorem numberTail_append_space (h : isSpace s) :
    numberTail (cs ++ s :: rest) = ((numberTail cs).1, (numberTail cs).2 ++ s :: rest) := by
  obtain ⟨hdigit, -, hpoint, -⟩ := ends_of_isSpace h
  unfold numberTail
  rw [takeWhile_append_stop cs rest hdigit, dropWhile_append_stop cs rest hdigit]
  rcases cs.dropWhile isDigit with _ | ⟨d, _ | ⟨e, es⟩⟩
  · simp [hpoint]
  · by_cases hd : d = '.'
    · subst hd
      simp [hdigit]
    · simp [hd]
  · by_cases hd : d = '.'
    · subst hd
      by_cases he : isDigit e
      · simp [he, takeWhile_append_stop es rest hdigit, dropWhile_append_stop es rest hdigit]
      · simp [he]
    · simp [hd]

end Stop

variable {c s : Char} {cs : List Char}

/-- A text that is closed goes on behind its closing quote only. -/
theorem cut_quote_append (h : ∀ text, (cut '"' cs).1 ≠ unclosed text) (rest : List Char) :
    cut '"' (cs ++ rest) = ((cut '"' cs).1, (cut '"' cs).2 ++ rest) := by
  rcases hd : cs.dropWhile (· ≠ '"') with _ | ⟨quote, after⟩
  · rw [cut_quote, hd] at h
    exact absurd rfl (h _)
  · have hquote : quote = '"' := by
      have := List.head?_dropWhile_not (· ≠ '"') cs
      rw [hd] at this
      simpa using this
    subst hquote
    have hbody : ∀ d ∈ cs.takeWhile (· ≠ '"'), d ≠ '"' := fun d hm => by simpa using List.mem_takeWhile_imp hm
    have hcs : cs = cs.takeWhile (· ≠ '"') ++ '"' :: after := by
      rw [← hd, List.takeWhile_append_dropWhile]
    rw [hcs, List.append_assoc, List.cons_append, cut_string hbody, cut_string hbody]

theorem cut_slash_append (hs : isSpace s) (h : s = '\n' ∨ ∀ text, (cut '/' cs).1 ≠ comment text) (rest : List Char) :
    cut '/' (cs ++ s :: rest) = ((cut '/' cs).1, (cut '/' cs).2 ++ s :: rest) := by
  have hslash : s ≠ '/' := by rintro rfl; exact absurd hs (by decide)
  rcases cs with _ | ⟨d, ds⟩
  · simp [cut_slash, hslash]
  by_cases hd : d = '/'
  · subst hd
    obtain rfl : s = '\n' := h.resolve_right fun h => h _ rfl
    have hstop : decide ('\n' ≠ '\n') = false := by decide
    rw [cut_slash, cut_slash, takeWhile_append_stop _ rest hstop, dropWhile_append_stop _ rest hstop]
    rfl
  · simp [cut_slash, hd]

/-- What is cut in front of a blank is cut as if the text ended there, but for strings that are not closed and for
comments, which go on to the end of the line. -/
theorem cut_append_space (hs : isSpace s) (hunclosed : ∀ text, (cut c cs).1 ≠ unclosed text)
    (hcomment : s = '\n' ∨ ∀ text, (cut c cs).1 ≠ comment text) (rest : List Char) :
    cut c (cs ++ s :: rest) = ((cut c cs).1, (cut c cs).2 ++ s :: rest) := by
  obtain ⟨-, hword, -, hequal⟩ := ends_of_isSpace hs
  by_cases hc : c = '/'
  · subst hc
    exact cut_slash_append hs hcomment rest
  by_cases hq : c = '"'
  · subst hq
    exact cut_quote_append hunclosed _
  unfold cut
  split
  · rfl
  split
  · rcases cs with _ | ⟨d, ds⟩
    · simp [hequal]
    · by_cases hd : d = '=' <;> simp [hd]
  rw [if_neg hc, if_neg hc, if_neg hq, if_neg hq]
  split
  · rfl
  split
  · rw [numberTail_append_space cs rest hs]
  split
  · rw [takeWhile_append_stop cs rest hword, dropWhile_append_stop cs rest hword]
  · rfl

/-- A text in which nothing is left open is cut at the end of its last line, whatever follows on the next. -/
theorem ofChars_append_newline (h : ∀ i ∈ ofChars cs, ∀ text, i ≠ unclosed text) (rest : List Char) :
    ofChars (cs ++ '\n' :: rest) = ofChars cs ++ blank '\n' :: ofChars rest := by
  fun_induction ofChars cs with
  | case1 => rw [List.nil_append, ofChars, cut_space rfl, List.nil_append]
  | case2 c cs ih =>
    obtain ⟨hfirst, hrest⟩ := List.forall_mem_cons.1 h
    rw [List.cons_append, ofChars, cut_append_space rfl hfirst (.inl rfl), ih hrest, List.cons_append]

end Item
end Lox
