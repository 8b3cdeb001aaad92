import Lox.Text.Quoted
import Mathlib.Algebra.Group.Nat.Defs

/-! Quoted text read back. The mark comes first, and every character behind it says where it ends, so quoted text
can be told from what follows it. No line ends inside it. -/

namespace Lox.Text

variable {mark c d : Char} {cs ds rest rest' : List Char}

/-! Hexadecimal digits -/

def hexValue (ds : List Char) : Nat :=
  ds.foldl (fun n d => n * 16 + (List.range 16).findIdx (Nat.digitChar · = d)) 0

theorem findIdx_digitChar : ∀ n < 16, (List.range 16).findIdx (Nat.digitChar · = Nat.digitChar n) = n := by decide

theorem hexValue_hexDigits (width n : Nat) : hexValue (hexDigits width n) = n % 16 ^ width := by
  induction width generalizing n with
  | zero => simp [hexDigits, hexValue, Nat.mod_one]
  | succ width ih =>
    have hvalue := ih (n / 16)
    unfold hexValue at hvalue ⊢
    rw [hexDigits, List.foldl_append, hvalue, List.foldl_cons, List.foldl_nil,
      findIdx_digitChar _ (Nat.mod_lt n (by decide)), Nat.pow_succ, Nat.mul_comm (16 ^ width) 16, Nat.mod_mul]
    omega

theorem length_hexDigits (width n : Nat) : (hexDigits width n).length = width := by
  induction width generalizing n with
  | zero => rfl
  | succ width ih => rw [hexDigits, List.length_append, ih, List.length_singleton]

theorem ne_newline_of_mem_hexDigits {width n : Nat} (h : c ∈ hexDigits width n) : c ≠ '\n' := by
  have hdigit : ∀ n < 16, Nat.digitChar n ≠ '\n' := by decide
  induction width generalizing n with
  | zero => cases h
  | succ width ih =>
    rcases List.mem_append.1 h with h | h
    · exact ih h
    · rw [List.mem_singleton.1 h]
      exact hdigit _ (Nat.mod_lt n (by decide))

/-! Single characters -/

/-- The number that a character has in one of the escapes that give it, and what follows. -/
def unnumbered (width : Nat) (cs : List Char) : Char × List Char :=
  (Char.ofNat (hexValue (cs.take width)), cs.drop width)

/-- The first character of an escaped text, and what follows it. -/
def unescape : List Char → Char × List Char
  | '\\' :: 'n' :: cs => ('\n', cs)
  | '\\' :: 'r' :: cs => ('\r', cs)
  | '\\' :: 't' :: cs => ('\t', cs)
  | '\\' :: 'x' :: cs => unnumbered 2 cs
  | '\\' :: 'u' :: cs => unnumbered 4 cs
  | '\\' :: 'U' :: cs => unnumbered 8 cs
  | '\\' :: c :: cs => (c, cs)
  | c :: cs => (c, cs)
  | [] => default

theorem unnumbered_hexDigits (width : Nat) (h : c.toNat < 16 ^ width) (cs : List Char) :
    unnumbered width (hexDigits width c.toNat ++ cs) = (c, cs) := by
  have hl := length_hexDigits width c.toNat
  rw [unnumbered, List.take_left' hl, List.drop_left' hl, hexValue_hexDigits, Nat.mod_eq_of_lt h, Char.ofNat_toNat]

theorem unescape_numbered (c : Char) (cs : List Char) : unescape (numbered c ++ cs) = (c, cs) := by
  unfold numbered
  dsimp only
  split
  · next h => exact unnumbered_hexDigits 2 h cs
  split
  · next h => exact unnumbered_hexDigits 4 h cs
  · have hvalid : c.toNat < 16 ^ 8 := c.val.toNat_lt
    exact unnumbered_hexDigits 8 hvalid cs

theorem numbered_eq (c : Char) :
    ∃ x width, x ∈ ['x', 'u', 'U'] ∧ numbered c = '\\' :: x :: hexDigits width c.toNat := by
  unfold numbered
  dsimp only
  split
  · exact ⟨'x', 2, by decide, rfl⟩
  split
  · exact ⟨'u', 4, by decide, rfl⟩
  · exact ⟨'U', 8, by decide, rfl⟩

/-- Whether text is quoted between such characters. -/
def IsMark (c : Char) : Prop := c = '\'' ∨ c = '"'

theorem isMark_quoteMark (s : List Char) : IsMark (quoteMark s) := by
  unfold quoteMark
  split
  · exact .inr rfl
  · exact .inl rfl

theorem unescape_escaped (hm : IsMark mark) (c : Char) (cs : List Char) :
    unescape (escaped mark c ++ cs) = (c, cs) := by
  unfold escaped
  split
  · next h =>
    obtain rfl | rfl : c = mark ∨ c = '\\' := by simpa using h
    · rcases hm with rfl | rfl <;> rfl
    · rfl
  split
  · next h => rw [h]; rfl
  split
  · next h => rw [h]; rfl
  split
  · next h => rw [h]; rfl
  split
  · next h _ _ _ _ =>
    have hc : c ≠ '\\' := fun hc => h (by simp [hc])
    simp [unescape, hc]
  · exact unescape_numbered c cs

theorem escaped_append_inj (hm : IsMark mark) (h : escaped mark c ++ cs = escaped mark d ++ ds) :
    c = d ∧ cs = ds := by
  have hread := congrArg unescape h
  rwa [unescape_escaped hm, unescape_escaped hm, Prod.mk.injEq] at hread

theorem escaped_eq (mark c : Char) :
    (∃ code, escaped mark c = '\\' :: code) ∨ (c ≠ mark ∧ escaped mark c = [c]) := by
  unfold escaped
  split
  · exact .inl ⟨_, rfl⟩
  split
  · exact .inl ⟨_, rfl⟩
  split
  · exact .inl ⟨_, rfl⟩
  split
  · exact .inl ⟨_, rfl⟩
  split
  · next h _ _ _ _ => exact .inr ⟨fun hc => h (by simp [hc]), rfl⟩
  · obtain ⟨x, width, -, he⟩ := numbered_eq c
    exact .inl ⟨_, he⟩

/-- The mark does not begin any character of the text, so the first mark is the closing one. -/
theorem escaped_append_ne (hm : IsMark mark) (c : Char) (cs ds : List Char) :
    escaped mark c ++ cs ≠ mark :: ds := by
  intro h
  rcases escaped_eq mark c with ⟨code, he⟩ | ⟨hc, he⟩
  · rw [he, List.cons_append] at h
    rcases hm with rfl | rfl
    · exact absurd (List.head_eq_of_cons_eq h) (by decide)
    · exact absurd (List.head_eq_of_cons_eq h) (by decide)
  · rw [he, List.cons_append] at h
    exact hc (List.head_eq_of_cons_eq h)

theorem ne_newline_of_mem_numbered (h : d ∈ numbered c) : d ≠ '\n' := by
  obtain ⟨x, width, hx, he⟩ := numbered_eq c
  have hletters : ∀ x ∈ ['x', 'u', 'U'], x ≠ '\n' := by simp
  rw [he] at h
  rcases List.mem_cons.1 h with rfl | h
  · decide
  rcases List.mem_cons.1 h with rfl | h
  · exact hletters _ hx
  · exact ne_newline_of_mem_hexDigits h

theorem ne_newline_of_mem_escaped (hm : mark ≠ '\n') (h : d ∈ escaped mark c) : d ≠ '\n' := by
  have hform : ∀ {x : Char}, x ≠ '\n' → d ∈ ['\\', x] → d ≠ '\n' := by
    intro x hx hd
    rcases List.mem_cons.1 hd with rfl | hd
    · decide
    · rwa [List.mem_singleton.1 hd]
  unfold escaped at h
  split at h
  · next hc =>
    obtain rfl | rfl : c = mark ∨ c = '\\' := by simpa using hc
    · exact hform hm h
    · exact hform (by decide) h
  split at h
  · exact hform (by decide) h
  split at h
  · exact hform (by decide) h
  split at h
  · exact hform (by decide) h
  split at h
  · next hn _ _ _ => rwa [List.mem_singleton.1 h]
  · exact ne_newline_of_mem_numbered h

/-! Whole texts -/

theorem toList_quoted (s : String) :
    (quoted s).toList =
      quoteMark s.toList ::
        (s.toList.flatMap (escaped (quoteMark s.toList)) ++ [quoteMark s.toList]) := by
  simp [quoted]

theorem escapedAll_append_inj (hm : IsMark mark) (s t : List Char)
    (h : s.flatMap (escaped mark) ++ mark :: rest = t.flatMap (escaped mark) ++ mark :: rest') :
    s = t ∧ rest = rest' := by
  induction s generalizing t with
  | nil =>
    cases t with
    | nil => exact ⟨rfl, List.tail_eq_of_cons_eq h⟩
    | cons d t =>
      rw [List.flatMap_cons, List.append_assoc] at h
      exact absurd h.symm (escaped_append_ne hm d _ _)
  | cons c s ih =>
    cases t with
    | nil =>
      rw [List.flatMap_cons, List.append_assoc] at h
      exact absurd h (escaped_append_ne hm c _ _)
    | cons d t =>
      rw [List.flatMap_cons, List.append_assoc, List.flatMap_cons, List.append_assoc] at h
      obtain ⟨rfl, hrest⟩ := escaped_append_inj hm h
      obtain ⟨rfl, hr⟩ := ih t hrest
      exact ⟨rfl, hr⟩

theorem quoted_append_inj {s t : String} (h : (quoted s).toList ++ rest = (quoted t).toList ++ rest') :
    s = t ∧ rest = rest' := by
  rw [toList_quoted, toList_quoted, List.cons_append, List.cons_append, List.cons.injEq, List.append_assoc,
    List.append_assoc] at h
  obtain ⟨hmark, h⟩ := h
  rw [← hmark] at h
  obtain ⟨hs, hr⟩ := escapedAll_append_inj (isMark_quoteMark s.toList) _ _ h
  exact ⟨String.toList_inj.1 hs, hr⟩

theorem ne_newline_of_mem_quoted {s : String} (h : c ∈ (quoted s).toList) : c ≠ '\n' := by
  have hm := isMark_quoteMark s.toList
  have hmark : quoteMark s.toList ≠ '\n' := by rcases hm with h | h <;> simp [h]
  rw [toList_quoted, List.mem_cons, List.mem_append, List.mem_singleton, List.mem_flatMap] at h
  rcases h with rfl | ⟨d, -, h⟩ | rfl
  · exact hmark
  · exact ne_newline_of_mem_escaped hmark h
  · exact hmark

end Lox.Text
