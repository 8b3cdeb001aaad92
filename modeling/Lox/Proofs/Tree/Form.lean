import Lox.Proofs.Number
import Lox.Proofs.Text.Quoted
import Lox.Tree.Printer

/-! What the text of a tree says by itself: words and constants, and lists of such in parentheses. In a legible form
every part ends where its text says, so different forms have different texts. -/

namespace Lox

inductive Form where
  | word (text : String)
  | number (x : Float)
  | string (s : String)
  | list (items : List Form)

namespace Form

mutual

def chars : Form → List Char
  | word text => text.toList
  | number x => (Number.display x).toList
  | string s => (Text.quoted s).toList
  | list items => '(' :: (inner items ++ [')'])

def inner : List Form → List Char
  | [] => []
  | f :: fs => f.chars ++ trail fs

/-- The parts behind another one, each with a blank before it. -/
def trail : List Form → List Char
  | [] => []
  | f :: fs => ' ' :: (f.chars ++ trail fs)

end

/-- The characters of words and numbers. -/
def Plain (c : Char) : Prop := c ∉ [' ', '(', ')', '\n', '\'', '"']

instance (c : Char) : Decidable (Plain c) := inferInstanceAs (Decidable (c ∉ _))

/-- Whether text stands for itself: it is plain and looks like no number. -/
structure IsWord (text : String) : Prop where
  plain : ∀ c ∈ text.toList, Plain c
  first : ∃ c cs, text.toList = c :: cs ∧ c.isDigit = false ∧ (c = '-' → cs = [])

inductive Legible : Form → Prop where
  | word {text : String} : IsWord text → Legible (word text)
  | number {x : Float} : x.isFinite → Legible (number x)
  | string (s : String) : Legible (string s)
  | list {items : List Form} : (∀ f ∈ items, Legible f) → Legible (list items)

/-- Whether a part ends before these characters. -/
def Stops (cs : List Char) : Prop := ∀ c ∈ cs.head?, ¬ Plain c

variable {c d : Char} {cs ds rest rest' : List Char} {text text' : String} {x : Float} {f g : Form}
  {fs gs : List Form}

/-! Words and numbers -/

theorem plain_of_isDigit (h : c.isDigit) : Plain c := by
  have hnone : ∀ x ∈ [' ', '(', ')', '\n', '\'', '"'], x.isDigit = false := by simp
  intro hc
  rw [hnone c hc] at h
  cases h

theorem plain_of_isNumeral (h : Number.IsNumeral cs) : ∀ c ∈ cs, Plain c := by
  have hsigns : ∀ x ∈ ['.', 'e', '+', '-'], Plain x := by simp [Plain]
  intro c hc
  rcases h.all c hc with hd | hs
  · exact plain_of_isDigit hd
  · exact hsigns c hs

/-- The text of a number, with or without a sign. -/
theorem toList_display (h : x.isFinite) :
    ∃ ds, Number.IsNumeral ds ∧ ((Number.display x).toList = ds ∨ (Number.display x).toList = '-' :: ds) := by
  refine ⟨_, Number.isNumeral_unsignedText x, ?_⟩
  rw [Number.display_eq h, Number.toList_signed]
  cases Number.isNegative x
  · exact .inl rfl
  · exact .inr rfl

theorem plain_of_mem_display (h : x.isFinite) : ∀ c ∈ (Number.display x).toList, Plain c := by
  obtain ⟨ds, hds, he | he⟩ := toList_display h
  · rw [he]
    exact plain_of_isNumeral hds
  · rw [he]
    exact List.forall_mem_cons.2 ⟨by decide, plain_of_isNumeral hds⟩

theorem display_ne_nil (h : x.isFinite) : (Number.display x).toList ≠ [] := by
  obtain ⟨ds, hds, he | he⟩ := toList_display h
  · obtain ⟨d, ds, rfl, -⟩ := hds.head
    simp [he]
  · simp [he]

theorem IsWord.ne_display (h : IsWord text) (hx : x.isFinite) : text.toList ≠ (Number.display x).toList := by
  intro heq
  obtain ⟨c, cs, hc, hdigit, hminus⟩ := h.first
  obtain ⟨ds, hds, he⟩ := toList_display hx
  obtain ⟨d, ds, rfl, hd⟩ := hds.head
  rcases he with he | he
  · rw [hc, he] at heq
    rw [List.head_eq_of_cons_eq heq, hd] at hdigit
    cases hdigit
  · rw [hc, he] at heq
    have hnil := hminus (List.head_eq_of_cons_eq heq)
    rw [hnil] at heq
    cases heq

/-- Plain characters are read up to the first that is not. -/
theorem plain_append_inj (hcs : ∀ c ∈ cs, Plain c) (hds : ∀ c ∈ ds, Plain c) (hr : Stops rest)
    (hr' : Stops rest') (h : cs ++ rest = ds ++ rest') : cs = ds ∧ rest = rest' := by
  have htake {cs rest : List Char} (hcs : ∀ c ∈ cs, Plain c) (hr : Stops rest) :
      (cs ++ rest).takeWhile (fun c => decide (Plain c)) = cs := by
    rw [List.takeWhile_append_of_pos fun c hc => decide_eq_true (hcs c hc)]
    cases rest with
    | nil => exact List.append_nil cs
    | cons c rest => rw [List.takeWhile_cons_of_neg (by simpa using hr c rfl), List.append_nil]
  have heq := congrArg (List.takeWhile fun c => decide (Plain c)) h
  rw [htake hcs hr, htake hds hr'] at heq
  rw [heq] at h
  exact ⟨heq, List.append_cancel_left h⟩

/-! First characters -/

/-- What a form of this sort begins with. -/
def Opens : Form → Char → Prop
  | word _, c | number _, c => Plain c
  | string _, c => Text.IsMark c
  | list _, c => c = '('

theorem Legible.opens (h : f.Legible) : ∃ c cs, f.chars = c :: cs ∧ f.Opens c := by
  cases h with
  | @word text h =>
    obtain ⟨c, cs, hc, -⟩ := h.first
    exact ⟨c, cs, hc, h.plain c (by simp [hc])⟩
  | @number x h =>
    obtain ⟨c, cs, hc⟩ := List.exists_cons_of_ne_nil (display_ne_nil h)
    exact ⟨c, cs, hc, plain_of_mem_display h c (by simp [hc])⟩
  | string s => exact ⟨_, _, Text.toList_quoted s, Text.isMark_quoteMark _⟩
  | list => exact ⟨_, _, rfl, rfl⟩

theorem opens_unique (hf : f.Legible) (hg : g.Legible) (h : f.chars ++ rest = g.chars ++ rest') :
    ∃ c, f.Opens c ∧ g.Opens c := by
  obtain ⟨c, cs, hc, hfc⟩ := hf.opens
  obtain ⟨d, ds, hd, hgd⟩ := hg.opens
  rw [hc, hd] at h
  exact ⟨c, hfc, List.head_eq_of_cons_eq h ▸ hgd⟩

theorem not_plain_of_isMark (h : Text.IsMark c) : ¬ Plain c := by
  rcases h with rfl | rfl <;> decide

theorem Opens.ne_close (h : f.Opens c) : c ≠ ')' := by
  rintro rfl
  cases f with
  | word | number => exact h (by decide)
  | string => rcases h with h | h <;> cases h
  | list => cases h

/-- Each sort of form begins in its own way. -/
theorem Opens.plain (h : f.Opens c) (hc : Plain c) : (∃ text, f = word text) ∨ ∃ x, f = number x := by
  cases f with
  | word text => exact .inl ⟨text, rfl⟩
  | number x => exact .inr ⟨x, rfl⟩
  | string => exact absurd hc (not_plain_of_isMark h)
  | list =>
    rw [show c = '(' from h] at hc
    exact absurd hc (by decide)

theorem Opens.mark (h : f.Opens c) (hc : Text.IsMark c) : ∃ s, f = string s := by
  cases f with
  | word | number => exact absurd h (not_plain_of_isMark hc)
  | string s => exact ⟨s, rfl⟩
  | list =>
    rw [show c = '(' from h] at hc
    rcases hc with hc | hc <;> cases hc

theorem Opens.paren (h : f.Opens '(') : ∃ items, f = list items := by
  cases f with
  | word | number => exact absurd (by decide) h
  | string => rcases h with h | h <;> cases h
  | list items => exact ⟨items, rfl⟩

theorem plain_of_legible (h : f.Legible) (ho : f.Opens c) (hc : Plain c) : ∀ d ∈ f.chars, Plain d := by
  obtain ⟨text, rfl⟩ | ⟨x, rfl⟩ := ho.plain hc
  · cases h with
    | word h => exact h.plain
  · cases h with
    | number h => exact plain_of_mem_display h

/-- Words and numbers have different texts. -/
theorem eq_of_chars_eq (hf : f.Legible) (hg : g.Legible) (hfc : f.Opens c) (hgc : g.Opens c) (hc : Plain c)
    (h : f.chars = g.chars) : f = g := by
  obtain ⟨text, rfl⟩ | ⟨x, rfl⟩ := hfc.plain hc
  · cases hf with
    | word hf =>
    obtain ⟨text', rfl⟩ | ⟨y, rfl⟩ := hgc.plain hc
    · exact congrArg word (String.toList_inj.1 h)
    · cases hg with
      | number hg => exact absurd h (hf.ne_display hg)
  · cases hf with
    | number hf =>
    obtain ⟨text', rfl⟩ | ⟨y, rfl⟩ := hgc.plain hc
    · cases hg with
      | word hg => exact absurd h.symm (hg.ne_display hf)
    · cases hg with
      | number hg => exact congrArg number (Number.display_inj hf hg (String.toList_inj.1 h))

theorem Legible.chars_append_ne (h : f.Legible) (cs ds : List Char) : f.chars ++ cs ≠ ')' :: ds := by
  intro heq
  obtain ⟨c, es, hc, ho⟩ := h.opens
  rw [hc] at heq
  exact ho.ne_close (List.head_eq_of_cons_eq heq)

/-! Reading -/

theorem inner_cons_append (f : Form) (fs : List Form) (cs : List Char) :
    inner (f :: fs) ++ cs = f.chars ++ (trail fs ++ cs) := List.append_assoc _ _ _

theorem trail_cons_append (f : Form) (fs : List Form) (cs : List Char) :
    trail (f :: fs) ++ cs = ' ' :: (f.chars ++ (trail fs ++ cs)) :=
  congrArg (List.cons ' ') (List.append_assoc _ _ _)

theorem stops_nil : Stops [] := fun _ h => nomatch h

theorem stops_trail (fs : List Form) (rest : List Char) : Stops (trail fs ++ ')' :: rest) := by
  intro c hc
  cases fs with
  | nil =>
    obtain rfl : ')' = c := Option.some.inj hc
    decide
  | cons f fs =>
    obtain rfl : ' ' = c := Option.some.inj hc
    decide

mutual

theorem chars_append_inj (f g : Form) {rest rest' : List Char} (hf : f.Legible) (hg : g.Legible)
    (hr : Stops rest) (hr' : Stops rest') (h : f.chars ++ rest = g.chars ++ rest') : f = g ∧ rest = rest' := by
  obtain ⟨c, hfc, hgc⟩ := opens_unique hf hg h
  by_cases hc : Plain c
  · obtain ⟨heq, hrest⟩ :=
      plain_append_inj (plain_of_legible hf hfc hc) (plain_of_legible hg hgc hc) hr hr' h
    exact ⟨eq_of_chars_eq hf hg hfc hgc hc heq, hrest⟩
  · cases f with
    | word | number => exact absurd hfc hc
    | string s =>
      obtain ⟨t, rfl⟩ := hgc.mark hfc
      obtain ⟨rfl, hrest⟩ := Text.quoted_append_inj h
      exact ⟨rfl, hrest⟩
    | list items =>
      obtain rfl : c = '(' := hfc
      obtain ⟨others, rfl⟩ := hgc.paren
      cases hf with
      | list hf =>
      cases hg with
      | list hg =>
      simp only [chars, List.cons_append, List.append_assoc, List.nil_append, List.cons.injEq, true_and] at h
      cases items with
      | nil =>
        cases others with
        | nil => exact ⟨rfl, List.tail_eq_of_cons_eq h⟩
        | cons g gs =>
          rw [inner_cons_append] at h
          exact absurd h.symm ((hg g List.mem_cons_self).chars_append_ne _ _)
      | cons f fs =>
        cases others with
        | nil =>
          rw [inner_cons_append] at h
          exact absurd h ((hf f List.mem_cons_self).chars_append_ne _ _)
        | cons g gs =>
          obtain ⟨hf, hfs⟩ := List.forall_mem_cons.1 hf
          obtain ⟨hg, hgs⟩ := List.forall_mem_cons.1 hg
          rw [inner_cons_append, inner_cons_append] at h
          obtain ⟨rfl, htail⟩ := chars_append_inj f g hf hg (stops_trail fs _) (stops_trail gs _) h
          obtain ⟨rfl, hrest⟩ := trail_append_inj fs gs hfs hgs htail
          exact ⟨rfl, hrest⟩

theorem trail_append_inj (fs gs : List Form) {rest rest' : List Char} (hfs : ∀ f ∈ fs, f.Legible)
    (hgs : ∀ g ∈ gs, g.Legible) (h : trail fs ++ ')' :: rest = trail gs ++ ')' :: rest') :
    fs = gs ∧ rest = rest' := by
  cases fs with
  | nil =>
    cases gs with
    | nil => exact ⟨rfl, List.tail_eq_of_cons_eq h⟩
    | cons g gs => exact absurd (List.head_eq_of_cons_eq h) (by decide)
  | cons f fs =>
    cases gs with
    | nil => exact absurd (List.head_eq_of_cons_eq h) (by decide)
    | cons g gs =>
      obtain ⟨hf, hft⟩ := List.forall_mem_cons.1 hfs
      obtain ⟨hg, hgt⟩ := List.forall_mem_cons.1 hgs
      rw [trail_cons_append, trail_cons_append] at h
      obtain ⟨rfl, htail⟩ :=
        chars_append_inj f g hf hg (stops_trail fs _) (stops_trail gs _) (List.tail_eq_of_cons_eq h)
      obtain ⟨rfl, hrest⟩ := trail_append_inj fs gs hft hgt htail
      exact ⟨rfl, hrest⟩

end

/-! Lines -/

theorem mem_trail (fs : List Form) (h : c ∈ trail fs) : c = ' ' ∨ ∃ f ∈ fs, c ∈ f.chars := by
  induction fs with
  | nil => cases h
  | cons f fs ih =>
    simp only [trail, List.mem_cons, List.mem_append] at h
    rcases h with h | h | h
    · exact .inl h
    · exact .inr ⟨f, List.mem_cons_self, h⟩
    · rcases ih h with h | ⟨g, hg, h⟩
      · exact .inl h
      · exact .inr ⟨g, List.mem_cons_of_mem f hg, h⟩

theorem mem_inner (fs : List Form) (h : c ∈ inner fs) : c = ' ' ∨ ∃ f ∈ fs, c ∈ f.chars := by
  cases fs with
  | nil => cases h
  | cons f fs => exact mem_trail (f :: fs) (List.mem_cons_of_mem ' ' h)

theorem Plain.ne_newline (h : Plain c) : c ≠ '\n' := by
  rintro rfl
  exact h (by decide)

/-- A form is written on one line. -/
theorem Legible.ne_newline (h : f.Legible) : ∀ c ∈ f.chars, c ≠ '\n' := by
  induction h with
  | word h => exact fun c hc => (h.plain c hc).ne_newline
  | number h => exact fun c hc => (plain_of_mem_display h c hc).ne_newline
  | string s => exact fun c hc => Text.ne_newline_of_mem_quoted hc
  | @list items _ ih =>
    intro c hc
    simp only [chars, List.mem_cons, List.mem_append, List.not_mem_nil, or_false] at hc
    rcases hc with rfl | hc | rfl
    · decide
    · rcases mem_inner items hc with rfl | ⟨f, hf, hc⟩
      · decide
      · exact ih f hf c hc
    · decide

theorem Legible.chars_ne_nil (h : f.Legible) : f.chars ≠ [] := by
  obtain ⟨c, cs, hc, -⟩ := h.opens
  simp [hc]

end Form
end Lox
