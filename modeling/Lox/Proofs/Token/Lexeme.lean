import Lox.Token.Item
import Mathlib.Data.List.TakeWhile

/-! What the items of a text may be: marks, operators, numbers, words, strings, comments and blanks, each with the
texts it is written with. The text of an item says which item it is, and cutting takes the longest item there
is at the front of a text. -/

namespace Lox
namespace Item

/-- Whether a word is of a kind: that of the reserved word it is, or else that of names. -/
def IsWordKind (word : String) (kind : TokenKind) : Prop :=
  (word, kind) ∈ TokenKind.words ∨ kind = .identifier ∧ ∀ p ∈ TokenKind.words, p.1 ≠ word

inductive Legal : Item → Prop where
  | mark {c : Char} {kind : TokenKind} : (c, kind) ∈ marks → Legal (token kind [c])
  | operator {c : Char} {longer shorter : TokenKind} : (c, longer, shorter) ∈ extensible →
      Legal (token shorter [c])
  | extended {c : Char} {longer shorter : TokenKind} : (c, longer, shorter) ∈ extensible →
      Legal (token longer [c, '='])
  | slash : Legal (token .slash ['/'])
  | whole {d : Char} {ds : List Char} : isDigit d → (∀ c ∈ ds, isDigit c) → Legal (token .number (d :: ds))
  | fraction {d e : Char} {ds es : List Char} : isDigit d → (∀ c ∈ ds, isDigit c) → isDigit e →
      (∀ c ∈ es, isDigit c) → Legal (token .number (d :: (ds ++ '.' :: e :: es)))
  | word {c : Char} {cs : List Char} {kind : TokenKind} : isAlpha c → (∀ d ∈ cs, isAlphaNumeric d) →
      IsWordKind (String.ofList (c :: cs)) kind → Legal (token kind (c :: cs))
  | string {cs : List Char} : (∀ c ∈ cs, c ≠ '"') → Legal (token .string ('"' :: (cs ++ ['"'])))
  | comment {cs : List Char} : (∀ c ∈ cs, c ≠ '\n') → Legal (comment ('/' :: '/' :: cs))
  | blank {c : Char} : isSpace c → Legal (blank c)

theorem isWordKind_iff {word : String} {kind : TokenKind} : IsWordKind word kind ↔ kind = .ofWord word := by
  have hwords : ∀ p ∈ TokenKind.words, TokenKind.ofWord p.1 = p.2 := by decide
  constructor
  · rintro (h | ⟨rfl, h⟩)
    · exact (hwords _ h).symm
    · have hnone : TokenKind.words.lookup word = none :=
        List.lookup_eq_none_iff.2 fun p hp => bne_iff_ne.2 (h p hp).symm
      simp [TokenKind.ofWord, hnone]
  · rintro rfl
    unfold IsWordKind TokenKind.ofWord
    cases hl : TokenKind.words.lookup word with
    | none => exact .inr ⟨rfl, fun p hp => (bne_iff_ne.1 (List.lookup_eq_none_iff.1 hl p hp)).symm⟩
    | some kind =>
      obtain ⟨l₁, l₂, hw, -⟩ := List.lookup_eq_some_iff.1 hl
      exact .inl (by simp [hw])

/-! Cutting, by the first character -/

section Cut

variable {α : Type} {c d : Char} {cs ds es : List Char} {kind longer shorter : TokenKind}

/-- Characters of a class to which no key of a table belongs are not in the table. -/
theorem lookup_eq_none {table : List (Char × α)} {p : Char → Bool} (h : ∀ q ∈ table, p q.1 = false)
    (hc : p c) : table.lookup c = none := by
  refine List.lookup_eq_none_iff.2 fun q hq => bne_iff_ne.2 ?_
  rintro rfl
  rw [h q hq] at hc
  cases hc

theorem cut_mark (h : (c, kind) ∈ marks) (cs : List Char) : cut c cs = (token kind [c], cs) := by
  have hmarks : ∀ p ∈ marks, marks.lookup p.1 = some p.2 := by decide
  simp [cut, hmarks _ h]

theorem cut_extensible (h : (c, longer, shorter) ∈ extensible) (cs : List Char) :
    cut c cs = match cs with
      | '=' :: rest => (token longer [c, '='], rest)
      | _ => (token shorter [c], cs) := by
  have hextensible : ∀ p ∈ extensible, marks.lookup p.1 = none ∧ extensible.lookup p.1 = some p.2 := by decide
  obtain ⟨hmarks, hlookup⟩ := hextensible _ h
  cases cs with
  | nil => simp [cut, hmarks, hlookup]
  | cons d ds =>
    by_cases hd : d = '='
    · simp [cut, hmarks, hlookup, hd]
    · simp [cut, hmarks, hlookup, hd]

theorem cut_slash (cs : List Char) :
    cut '/' cs = match cs with
      | '/' :: _ => (comment ('/' :: cs.takeWhile (· ≠ '\n')), cs.dropWhile (· ≠ '\n'))
      | _ => (token .slash ['/'], cs) := rfl

theorem cut_space (h : isSpace c) (cs : List Char) : cut c cs = (blank c, cs) := by
  have hm : marks.lookup c = none := lookup_eq_none (p := isSpace) (by decide) h
  have he : extensible.lookup c = none := lookup_eq_none (p := isSpace) (by decide) h
  have hs : c ≠ '/' := by rintro rfl; exact absurd h (by decide)
  simp [cut, hm, he, hs, h]

theorem cut_quote (cs : List Char) :
    cut '"' cs = match cs.dropWhile (· ≠ '"') with
      | [] => (unclosed ('"' :: cs), [])
      | quote :: rest => (token .string ('"' :: cs.takeWhile (· ≠ '"') ++ [quote]), rest) := rfl

theorem cut_string (h : ∀ d ∈ ds, d ≠ '"') (cs : List Char) :
    cut '"' (ds ++ '"' :: cs) = (token .string ('"' :: (ds ++ ['"'])), cs) := by
  have hall : ∀ d ∈ ds, decide (d ≠ '"') = true := fun d hd => decide_eq_true (h d hd)
  rw [cut_quote, List.dropWhile_append_of_pos hall, List.dropWhile_cons_of_neg (by simp),
    List.takeWhile_append_of_pos hall, List.takeWhile_cons_of_neg (by simp), List.append_nil]
  rfl

/-- How characters are cut of a class to which nothing belongs that is tried before digits and letters. -/
theorem cut_ordinary {p : Char → Bool} (hm : ∀ q ∈ marks, p q.1 = false)
    (he : ∀ q ∈ extensible, p q.1 = false) (hp : ['/', '"', ' ', '\r', '\t', '\n'].all fun x => !p x)
    (h : p c) (cs : List Char) :
    cut c cs =
      if isDigit c then (token .number (c :: (numberTail cs).1), (numberTail cs).2)
      else if isAlpha c then
        (token (.ofWord (String.ofList (c :: cs.takeWhile isAlphaNumeric)))
          (c :: cs.takeWhile isAlphaNumeric), cs.dropWhile isAlphaNumeric)
      else (unexpected c, cs) := by
  have hne : ∀ x ∈ ['/', '"', ' ', '\r', '\t', '\n'], c ≠ x := by
    rintro x hx rfl
    have := List.all_eq_true.1 hp c hx
    rw [h] at this
    cases this
  simp only [List.forall_mem_cons] at hne
  have hspace : isSpace c = false := by simp [isSpace, hne]
  simp [cut, lookup_eq_none hm h, lookup_eq_none he h, hne, hspace]

theorem cut_digit (h : isDigit c) (cs : List Char) :
    cut c cs = (token .number (c :: (numberTail cs).1), (numberTail cs).2) := by
  rw [cut_ordinary (p := isDigit) (by decide) (by decide) (by decide) h, if_pos h]

theorem isDigit_of_isAlpha (h : isAlpha c) : isDigit c = false := by
  refine Bool.eq_false_iff.2 fun hd => ?_
  simp only [isAlpha, isDigit, Bool.or_eq_true, Bool.and_eq_true, decide_eq_true_eq] at h hd
  rcases h with (⟨h, -⟩ | ⟨h, -⟩) | rfl
  · exact absurd (Char.le_trans h hd.2) (by decide)
  · exact absurd (Char.le_trans h hd.2) (by decide)
  · exact absurd hd.2 (by decide)

theorem cut_alpha (h : isAlpha c) (cs : List Char) :
    cut c cs = (token (.ofWord (String.ofList (c :: cs.takeWhile isAlphaNumeric)))
      (c :: cs.takeWhile isAlphaNumeric), cs.dropWhile isAlphaNumeric) := by
  rw [cut_ordinary (p := isAlpha) (by decide) (by decide) (by decide) h, isDigit_of_isAlpha h, if_pos h]
  rfl

/-! Numbers -/

theorem numberTail_fraction (hds : ∀ c ∈ ds, isDigit c) (he : isDigit d) (cs : List Char) :
    numberTail (ds ++ '.' :: d :: cs) = (ds ++ '.' :: d :: cs.takeWhile isDigit, cs.dropWhile isDigit) := by
  unfold numberTail
  have hdot : isDigit '.' = false := by decide
  rw [List.takeWhile_append_of_pos hds, List.dropWhile_append_of_pos hds,
    List.takeWhile_cons_of_neg (by simp [hdot]), List.dropWhile_cons_of_neg (by simp [hdot])]
  simp [he]

theorem le_length_numberTail (cs : List Char) : (cs.takeWhile isDigit).length ≤ (numberTail cs).1.length := by
  unfold numberTail
  dsimp only
  split
  · split
    · simp
    · exact Nat.le_refl _
  · exact Nat.le_refl _

theorem legal_number (h : isDigit c) (cs : List Char) : Legal (token .number (c :: (numberTail cs).1)) := by
  unfold numberTail
  dsimp only
  split
  · split
    · next d rest _ hd =>
      exact .fraction h (fun _ hm => List.mem_takeWhile_imp hm) hd fun _ hm => List.mem_takeWhile_imp hm
    · exact .whole h fun _ hm => List.mem_takeWhile_imp hm
  · exact .whole h fun _ hm => List.mem_takeWhile_imp hm

/-! What is cut is legal, or nothing legal begins there -/

theorem legal_cut (c : Char) (cs : List Char) : (cut c cs).1.Legal ∨
    (c = '"' ∧ cut c cs = (unclosed (c :: cs), [])) ∨ (c ≠ '"' ∧ cut c cs = (unexpected c, cs)) := by
  unfold cut
  split
  · next kind hl =>
    obtain ⟨l₁, l₂, hm, -⟩ := List.lookup_eq_some_iff.1 hl
    exact .inl (.mark (by simp [hm]))
  split
  · next longer shorter hl =>
    obtain ⟨l₁, l₂, hm, -⟩ := List.lookup_eq_some_iff.1 hl
    have hmem : (c, longer, shorter) ∈ extensible := by simp [hm]
    left
    split
    · exact .extended hmem
    · exact .operator hmem
  split
  · next hs =>
    subst hs
    left
    split
    · exact .comment fun _ hm => by simpa using List.mem_takeWhile_imp hm
    · exact .slash
  split
  · next hs => exact .inl (.blank hs)
  split
  · next hq =>
    subst hq
    split
    · exact .inr (.inl ⟨rfl, rfl⟩)
    · next quote rest hd =>
      have hquote : quote = '"' := by
        have := List.head?_dropWhile_not (· ≠ '"') cs
        rw [hd] at this
        simpa using this
      subst hquote
      exact .inl (.string fun _ hm => by simpa using List.mem_takeWhile_imp hm)
  · next hq =>
    split
    · next hd => exact .inl (legal_number hd cs)
    split
    · next ha => exact .inl (.word ha (fun _ hm => List.mem_takeWhile_imp hm) (isWordKind_iff.2 rfl))
    · exact .inr (.inr ⟨hq, rfl⟩)

theorem le_length_takeWhile {p : Char → Bool} {ds : List Char} (h : ∀ c ∈ ds, p c) (rest : List Char) :
    ds.length ≤ ((ds ++ rest).takeWhile p).length := by
  rw [List.takeWhile_append_of_pos h, List.length_append]
  exact Nat.le_add_right _ _

theorem eq_or_length_lt {cs ds rest rest' : List Char} (h : cs ++ rest = ds ++ rest')
    (hle : cs.length ≤ ds.length) : cs = ds ∨ cs.length < ds.length :=
  hle.eq_or_lt.imp (fun he => (List.append_inj h he).1) id

/-- Where something legal begins, it is cut, or else something longer that is legal. -/
theorem Legal.eq_cut_or_lt {i : Item} (h : i.Legal) {c : Char} {cs rest : List Char}
    (he : i.text ++ rest = c :: cs) :
    (cut c cs).1.Legal ∧ (i = (cut c cs).1 ∨ i.text.length < (cut c cs).1.text.length) := by
  have hcut := he.trans (text_cut_append c cs).symm
  cases h <;> simp only [text, List.cons_append, List.nil_append, List.append_assoc, List.cons.injEq] at he <;>
    obtain ⟨rfl, rfl⟩ := he
  case mark hm =>
    rw [cut_mark hm]
    exact ⟨.mark hm, .inl rfl⟩
  case operator hm =>
    rw [cut_extensible hm]
    split
    · exact ⟨.extended hm, .inr (Nat.lt_succ_self _)⟩
    · exact ⟨.operator hm, .inl rfl⟩
  case extended hm =>
    rw [cut_extensible hm]
    exact ⟨.extended hm, .inl rfl⟩
  case slash =>
    rw [cut_slash]
    split
    · exact ⟨.comment fun _ hm => by simpa using List.mem_takeWhile_imp hm, .inr (by simp [text])⟩
    · exact ⟨.slash, .inl rfl⟩
  case whole ds hd hds =>
    rw [cut_digit hd] at hcut ⊢
    have hle := (le_length_takeWhile hds rest).trans (le_length_numberTail _)
    refine ⟨legal_number hd _, (eq_or_length_lt hcut (Nat.succ_le_succ hle)).imp_left fun h => ?_⟩
    exact congrArg (token .number) h
  case fraction d e ds es hd hds he' hes =>
    rw [cut_digit hd] at hcut ⊢
    have hle : (ds ++ '.' :: e :: es).length ≤ (numberTail (ds ++ '.' :: e :: (es ++ rest))).1.length := by
      have := le_length_takeWhile hes rest
      simp only [numberTail_fraction hds he', List.length_cons, List.length_append]
      omega
    refine ⟨legal_number hd _, (eq_or_length_lt hcut (Nat.succ_le_succ hle)).imp_left fun h => ?_⟩
    exact congrArg (token .number) h
  case word hc hcs hk =>
    rw [cut_alpha hc] at hcut ⊢
    have hle := Nat.succ_le_succ (le_length_takeWhile hcs rest)
    refine ⟨.word hc (fun _ hm => List.mem_takeWhile_imp hm) (isWordKind_iff.2 rfl),
      (eq_or_length_lt hcut hle).imp_left fun h => ?_⟩
    rw [isWordKind_iff.1 hk]
    exact congrArg (fun w => token (.ofWord (String.ofList w)) w) h
  case string body hcs =>
    rw [cut_string hcs]
    exact ⟨.string hcs, .inl rfl⟩
  case comment body hcs =>
    rw [cut_slash] at hcut ⊢
    have hall : ∀ c ∈ '/' :: body, decide (c ≠ '\n') = true := by
      simpa using hcs
    refine ⟨.comment fun _ hm => by simpa using List.mem_takeWhile_imp hm,
      (eq_or_length_lt hcut (Nat.succ_le_succ (le_length_takeWhile hall rest))).imp_left fun h => ?_⟩
    exact congrArg Item.comment h
  case blank hs =>
    rw [cut_space hs]
    exact ⟨.blank hs, .inl rfl⟩

end Cut

end Item
end Lox
