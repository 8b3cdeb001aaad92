import Lox.Proofs.Grammar.Persists

/-! Progress of parsing. No parser moves back or past the first ending token, each declaration and each turn of a loop
uses up a token, and recovery takes up again at the first boundary behind the error. So every list of tokens is
parsed to its end, and gives no more statements than it has tokens. -/

namespace Lox

/-- The place of the first ending token, behind which nothing is read. -/
def firstEnd (tokens : List Token) : Nat := tokens.findIdx (·.kind = .eof)

/-- Whether the next token is the one at `i`. -/
structure Cursor.At (tokens : List Token) (i : Nat) (c : Cursor) : Prop where
  le : i ≤ firstEnd tokens
  rest : c.rest = (tokens.take (firstEnd tokens)).drop i

/-- Whether a statement may begin at `j`: behind a semicolon, at a token that starts one, or at the end. -/
def Boundary (tokens : List Token) (j : Nat) : Prop :=
  (∃ t ∈ tokens[j - 1]?, t.kind = .semicolon) ∨ (∃ t ∈ tokens[j]?, t.kind.startsStatement) ∨ j = firstEnd tokens

/-- Whether `j` is the first boundary behind `i`. -/
structure NextBoundary (tokens : List Token) (i j : Nat) : Prop where
  behind : i < j
  boundary : Boundary tokens j
  first : ∀ k, i < k → k < j → ¬ Boundary tokens k

namespace Parser

variable {α : Type}

/-- The parsers of the grammar and their parts, under any limit of nesting. -/
inductive Called : {α : Type} → Parser α → Prop where
  | accept (kinds : List TokenKind) : Called (accept kinds)
  | expect (kind : TokenKind) (problem : ParseProblem) : Called (expect kind problem)
  | parameters : Called (listed (Parser.expect .identifier .parameterName) .tooManyParameters)
  | arguments (n : Nat) : Called (listed (expression n) .tooManyArguments)
  | primary (n : Nat) : Called (primary (expression n))
  | suffix (n : Nat) : Called (suffix (expression n))
  | suffixed (n : Nat) : Called (suffixed (expression n))
  | unary (n : Nat) : Called (unary n)
  | levels (levels : List (List TokenKind)) (n : Nat) : Called (levels.foldr leftAssoc (unary n))
  | expression (n : Nat) : Called (expression n)
  | expressionStatement (n : Nat) : Called (expressionStatement (expression n))
  | printStatement (n : Nat) : Called (printStatement (expression n))
  | returnStatement (keyword : Token) (n : Nat) : Called (returnStatement keyword (expression n))
  | whileStatement (n : Nat) : Called (whileStatement (expression n) (statement n))
  | ifStatement (n : Nat) : Called (ifStatement (expression n) (statement n))
  | forStatement (n : Nat) : Called (forStatement (expression n) (statement n))
  | block (n : Nat) : Called (block (declaration n))
  | statement (n : Nat) : Called (statement n)
  | varDeclaration (n : Nat) : Called (varDeclaration (expression n))
  | functionDeclaration (sort : FunctionSort) (n : Nat) : Called (functionDeclaration sort (declaration n))
  | classDeclaration (n : Nat) : Called (classDeclaration (declaration n))
  | rawDeclaration (n : Nat) : Called (rawDeclaration n)
  | declaration (n : Nat) : Called (declaration n)
  | limited (n : Nat) : Called (limiting (declaration n))
  | program (n : Nat) : Called (program n)

/-- The turns of the loops in the grammar: of operators, commas and suffixes, of what stands in the braces of a block
and of a class, and of a whole program. -/
inductive Turn : {α : Type} → Parser (Option α) → Prop where
  | operator (kinds : List TokenKind) (levels : List (List TokenKind)) (n : Nat) :
      Turn (behind kinds (levels.foldr leftAssoc (unary n)))
  | argument (n : Nat) : Turn (behind [.comma] (expression n))
  | parameter : Turn (behind [.comma] (expect .identifier .parameterName))
  | suffix (n : Nat) : Turn (suffix (expression n))
  | inBlock (n : Nat) : Turn (unlessAt (do return (← nextIs .rightBrace) || (← atEnd)) (declaration n))
  | inClass (n : Nat) : Turn (unlessAt (do return (← nextIs .rightBrace) || (← atEnd))
      (some <$> functionDeclaration .method (declaration n)))
  | inProgram (n : Nat) : Turn (unlessAt atEnd (limiting (declaration n)))

/-- How a loop goes that takes turn after turn until there is no result, with no bound on the number of them. -/
inductive Loops (step : Parser (Option α)) : Cursor → EStateM.Result Halt Cursor (List α) → Prop where
  | stop {c c' : Cursor} : step c = .ok none c' → Loops step c (.ok [] c')
  | broken {c c' : Cursor} {halt : Halt} : step c = .error halt c' → Loops step c (.error halt c')
  | turn {c c' : Cursor} {a : α} {r : EStateM.Result Halt Cursor (List α)} : step c = .ok (some a) c' →
      c'.rest.length < c.rest.length → Loops step c' r → Loops step c (carried id id (a :: ·) r)

/-! Parsers -/

theorem Called.persists {p : Parser α} (h : Called p) : Persists ⟨#[], []⟩ p p := by
  have hexpression (n : Nat) := (consumes_expressions (x := ⟨#[], []⟩) (Nat.le_refl n)).1
  have hunary (n : Nat) := (consumes_expressions (x := ⟨#[], []⟩) (Nat.le_refl n)).2
  have hdeclaration (n : Nat) := (consumes_statements (x := ⟨#[], []⟩) (Nat.le_refl n)).1
  have hstatement (n : Nat) := (consumes_statements (x := ⟨#[], []⟩) (Nat.le_refl n)).2
  cases h with
  | accept kinds => exact persists_accept kinds
  | expect kind problem => exact persists_expect kind problem
  | parameters => exact persists_listed (persists_expect _ _) _
  | arguments n => exact persists_listed (hexpression n).persists _
  | primary n => exact (consumes_primary (hexpression n).persists).persists
  | suffix n => exact (consumes_suffix (hexpression n).persists).persists
  | suffixed n => exact (consumes_suffixed (hexpression n).persists).persists
  | unary n => exact (hunary n).persists
  | levels levels n => exact (consumes_levels (hunary n) levels).persists
  | expression n => exact (hexpression n).persists
  | expressionStatement n => exact (consumes_expressionStatement (hexpression n)).persists
  | printStatement n => exact persists_printStatement (hexpression n).persists
  | returnStatement keyword n => exact persists_returnStatement keyword (hexpression n).persists
  | whileStatement n => exact persists_whileStatement (hexpression n).persists (hstatement n).persists
  | ifStatement n => exact persists_ifStatement (hexpression n).persists (hstatement n).persists
  | forStatement n => exact persists_forStatement (hexpression n) (hstatement n).persists
  | block n => exact persists_block (hdeclaration n)
  | statement n => exact (hstatement n).persists
  | varDeclaration n => exact persists_varDeclaration (hexpression n).persists
  | functionDeclaration sort n => exact (consumes_functionDeclaration sort (hdeclaration n)).persists
  | classDeclaration n => exact persists_classDeclaration (hdeclaration n)
  | rawDeclaration n =>
    exact (consumes_rawDeclaration (hexpression n).persists (hdeclaration n) (hstatement n)).persists
  | declaration n => exact (hdeclaration n).persists
  | limited n => exact (hdeclaration n).limiting.persists
  | program n => exact persists_program (Nat.le_refl n)

/-! Loops -/

theorem behind_atEnd (kinds : List TokenKind) (item : Parser α) {c : Cursor} (hc : c.rest = []) :
    behind kinds item c = .ok none c := by
  obtain ⟨_, errors⟩ := c
  subst hc
  rfl

theorem suffix_atEnd (expression : Parser Expr) {c : Cursor} (hc : c.rest = []) :
    suffix expression c = .ok none c := by
  obtain ⟨_, errors⟩ := c
  subst hc
  rfl

theorem unlessAt_of_stop {stop : Parser Bool} {c c' : Cursor} (hstop : stop c = .ok true c') (item : Parser α) :
    unlessAt stop item c = .ok none c' := bind_of_ok hstop _

/-- A turn takes a token, or there is none left to take. -/
theorem Turn.consumes {step : Parser (Option α)} (h : Turn step) :
    Consumes ⟨#[], []⟩ (fun o => o.isSome) step step := by
  have hexpression (n : Nat) := (consumes_expressions (x := ⟨#[], []⟩) (Nat.le_refl n)).1
  have hunary (n : Nat) := (consumes_expressions (x := ⟨#[], []⟩) (Nat.le_refl n)).2
  have hdeclaration (n : Nat) := (consumes_statements (x := ⟨#[], []⟩) (Nat.le_refl n)).1
  have hstop : Persists ⟨#[], []⟩ (do return (← nextIs .rightBrace) || (← atEnd))
      (do return (← nextIs .rightBrace) || (← atEnd)) :=
    (persists_nextIs .rightBrace).bind fun _ => persists_atEnd.last
  cases h with
  | operator kinds levels n => exact consumes_behind kinds (consumes_levels (hunary n) levels).persists
  | argument n => exact consumes_behind _ (hexpression n).persists
  | parameter => exact consumes_behind _ (persists_expect _ _)
  | suffix n => exact consumes_suffix (hexpression n).persists
  | inBlock n => exact consumes_unlessAt hstop (fun _ => ⟨_, rfl⟩) (hdeclaration n)
  | inClass n =>
    exact consumes_unlessAt hstop (fun _ => ⟨_, rfl⟩) ((consumes_functionDeclaration .method (hdeclaration n)).map some)
  | inProgram n => exact consumes_unlessAt persists_atEnd (fun _ => ⟨_, rfl⟩) (hdeclaration n).limiting

theorem Turn.stops {step : Parser (Option α)} (h : Turn step) {c : Cursor} (hc : c.rest = []) :
    step c = .ok none c := by
  have hend : atEnd c = .ok true c := by rw [atEnd, hc]; rfl
  have hbrace : (do return (← nextIs .rightBrace) || (← atEnd) : Parser Bool) c = .ok true c := by
    obtain ⟨_, errors⟩ := c
    subst hc
    rfl
  cases h with
  | operator | argument | parameter => exact behind_atEnd _ _ hc
  | suffix n => exact suffix_atEnd _ hc
  | inBlock | inClass => exact unlessAt_of_stop hbrace _
  | inProgram => exact unlessAt_of_stop hend _

theorem Turn.length_lt {step : Parser (Option α)} (h : Turn step) {c c' : Cursor} {a : α}
    (hr : step c = .ok (some a) c') : c'.rest.length < c.rest.length := by
  have hne : c.rest ≠ [] := fun hc => nomatch (h.stops hc).symm.trans hr
  exact h.consumes.takes c (some a) c' hne hr rfl

/-- The result of the whole, where only the result of a part is put together anew. -/
theorem bind_pure_eq {α β : Type} (p : Parser α) (f : α → β) (c : Cursor) :
    (p >>= fun a => pure (f a)) c = carried id id f (p c) := by
  cases hr : p c with
  | ok a c' => exact bind_of_ok hr _
  | error halt c' => exact bind_of_error hr _

/-- The tokens that are left bound the turns from outside, but the loop never comes to the bound. -/
theorem Turn.loops_collectWithin {step : Parser (Option α)} (h : Turn step) (left : List Token) :
    ∀ c : Cursor, c.rest.length ≤ left.length → Loops step c (collectWithin step left c) := by
  induction left with
  | nil => exact fun c hlen => .stop (h.stops (List.eq_nil_of_length_eq_zero (Nat.le_zero.1 hlen)))
  | cons t left ih =>
    intro c hlen
    unfold collectWithin
    cases hr : step c with
    | error halt c' =>
      rw [bind_of_error hr]
      exact .broken hr
    | ok o c' =>
      rw [bind_of_ok hr]
      cases o with
      | none => exact .stop hr
      | some a =>
        have hlt := h.length_lt hr
        have hloops := ih c' (Nat.le_of_lt_succ (Nat.lt_of_lt_of_le hlt hlen))
        show Loops step c ((collectWithin step left >>= fun as => pure (a :: as)) c')
        rw [bind_pure_eq]
        exact hloops.turn hr hlt

theorem Turn.loops {step : Parser (Option α)} (h : Turn step) (c : Cursor) : Loops step c (collect step c) := by
  unfold collect
  cases hr : step c with
  | error halt c' =>
    rw [bind_of_error hr]
    exact .broken hr
  | ok o c' =>
    rw [bind_of_ok hr]
    cases o with
    | none => exact .stop hr
    | some a =>
      have hloops := h.loops_collectWithin c'.rest c' (Nat.le_refl _)
      show Loops step c ((collectWithin step c'.rest >>= fun as => pure (a :: as)) c')
      rw [bind_pure_eq]
      exact hloops.turn hr (h.length_lt hr)

/-- A loop has no more results than tokens, and ends over a turn that has none. -/
theorem Loops.of_ok {step : Parser (Option α)} {c : Cursor} {r : EStateM.Result Halt Cursor (List α)}
    (h : Loops step c r) {as : List α} {c' : Cursor} (hr : r = .ok as c') :
    as.length ≤ c.rest.length ∧ ∃ c'', step c'' = .ok none c' := by
  induction h generalizing as c' with
  | stop hstep =>
    cases hr
    exact ⟨Nat.zero_le _, _, hstep⟩
  | broken => nomatch hr
  | @turn c c₁ a r hstep hlt _ ih =>
    cases r with
    | error => nomatch hr
    | ok as' c₂ =>
      cases hr
      obtain ⟨hlen, hstopped⟩ := ih rfl
      exact ⟨Nat.lt_of_le_of_lt hlen hlt, hstopped⟩

theorem rest_of_unlessAt_atEnd {item : Parser α} {c c' : Cursor} (hr : unlessAt atEnd item c = .ok none c') :
    c'.rest = [] := by
  obtain ⟨b, c₁, hend, hitem⟩ := bind_eq_ok hr
  cases hend
  cases hrest : c.rest.isEmpty with
  | true =>
    rw [hrest] at hitem
    cases hitem
    exact List.isEmpty_iff.1 hrest
  | false =>
    rw [hrest] at hitem
    obtain ⟨a, c₂, -, hsome⟩ := bind_eq_ok (f := fun a => pure (some a)) (map_eq_pure_bind some item ▸ hitem)
    nomatch hsome

/-- A whole program is read to its end, and each of its statements stands for a token. -/
theorem program_answers (n : Nat) (c : Cursor) :
    ∃ statements c', program n c = .ok statements c' ∧ c'.rest = [] ∧ statements.length ≤ c.rest.length := by
  obtain ⟨statements, c', hr⟩ := answers_program n c
  obtain ⟨items, c₁, hitems, hlast⟩ := bind_eq_ok hr
  cases hlast
  obtain ⟨hlen, c₂, hstop⟩ := ((Turn.inProgram n).loops c).of_ok hitems
  exact ⟨_, _, hr, rest_of_unlessAt_atEnd hstop, Nat.le_trans (List.length_filterMap_le _ _) hlen⟩

end Parser

/-! Places -/

section Places

variable {tokens : List Token} {i j : Nat} {c c' : Cursor}

theorem length_take_firstEnd (tokens : List Token) : (tokens.take (firstEnd tokens)).length = firstEnd tokens := by
  rw [List.length_take]
  exact Nat.min_eq_left List.findIdx_le_length

namespace Cursor

theorem At.length (h : c.At tokens i) : c.rest.length = firstEnd tokens - i := by
  rw [h.rest, List.length_drop, length_take_firstEnd]

theorem At.ne_nil (h : c.At tokens i) (hi : i < firstEnd tokens) : c.rest ≠ [] :=
  List.length_pos_iff.1 (h.length ▸ Nat.sub_pos_of_lt hi)

/-- What is left behind a cursor tells its place. -/
theorem At.of_suffix (h : c.At tokens i) (hrest : c'.rest <:+ c.rest) :
    c'.At tokens (firstEnd tokens - c'.rest.length) where
  le := Nat.sub_le _ _
  rest := by
    have hall : c'.rest <:+ tokens.take (firstEnd tokens) := hrest.trans (h.rest ▸ List.drop_suffix i _)
    have hdrop := List.suffix_iff_eq_drop.1 hall
    rwa [length_take_firstEnd] at hdrop

theorem At.forward (h : c.At tokens i) (hc : c.Advances c') : ∃ j, i ≤ j ∧ c'.At tokens j := by
  refine ⟨_, ?_, h.of_suffix hc.rest⟩
  have hle := hc.rest.length_le
  rw [h.length] at hle
  have hi := h.le
  omega

theorem At.further (h : c.At tokens i) (hc : c.Advances c') (hlt : c'.rest.length < c.rest.length) :
    ∃ j, i < j ∧ c'.At tokens j := by
  refine ⟨_, ?_, h.of_suffix hc.rest⟩
  rw [h.length] at hlt
  omega

end Cursor

/-- The tokens of a stream, before any is used. -/
theorem TokenStream.at_zero (tokens : List Token) (errors : Array ParseError) :
    Cursor.At tokens 0 ⟨(ofList tokens).tokens, errors⟩ where
  le := Nat.zero_le _
  rest := by
    have htake : (ofList tokens).tokens = tokens.takeWhile (·.kind ≠ .eof) := rfl
    rw [List.drop_zero, htake, List.takeWhile_eq_take_findIdx_not]
    simp [firstEnd]

/-! Recovery -/

theorem getElem?_of_take {k : Nat} {t : Token} (h : (tokens.take (firstEnd tokens))[k]? = some t) :
    k < firstEnd tokens ∧ tokens[k]? = some t := by
  rw [List.getElem?_take] at h
  split at h
  · next hk => exact ⟨hk, h⟩
  · nomatch h

/-- A token that starts no statement, behind one that is no semicolon. -/
theorem not_boundary {t t' : Token} (ht : tokens[i]? = some t) (ht' : tokens[i + 1]? = some t')
    (hi : i + 1 < firstEnd tokens) (hgoes : ¬ (t.kind = .semicolon || t'.kind.startsStatement) = true) :
    ¬ Boundary tokens (i + 1) := by
  rw [Bool.or_eq_true, decide_eq_true_iff, not_or] at hgoes
  rintro (⟨u, hu, hkind⟩ | ⟨u, hu, hkind⟩ | hend)
  · rw [Nat.add_sub_cancel, ht] at hu
    cases hu
    exact hgoes.1 hkind
  · rw [ht'] at hu
    cases hu
    exact hgoes.2 hkind
  · exact Nat.ne_of_lt hi hend

/-- By induction on the tokens behind the error: none of those that are dropped is at a boundary. -/
theorem resumeAfter_boundary {t : Token} (ht : (tokens.take (firstEnd tokens))[i]? = some t) :
    ∃ j, NextBoundary tokens i j ∧ j ≤ firstEnd tokens ∧
      Parser.resumeAfter t ((tokens.take (firstEnd tokens)).drop (i + 1)) = (tokens.take (firstEnd tokens)).drop j := by
  obtain ⟨hi, ht'⟩ := getElem?_of_take ht
  generalize hrest : (tokens.take (firstEnd tokens)).drop (i + 1) = rest
  induction rest generalizing i t with
  | nil =>
    have hend : firstEnd tokens = i + 1 := by
      have hle := List.drop_eq_nil_iff.1 hrest
      rw [length_take_firstEnd] at hle
      exact Nat.le_antisymm hle hi
    refine ⟨i + 1, ⟨Nat.lt_succ_self i, .inr (.inr hend.symm), ?_⟩, Nat.le_of_eq hend.symm, hrest.symm⟩
    exact fun k hk hk' => absurd (Nat.lt_of_lt_of_le hk (Nat.le_of_lt_succ hk')) (Nat.lt_irrefl i)
  | cons u rest ih =>
    have hu : (tokens.take (firstEnd tokens))[i + 1]? = some u := by
      have hhead := congrArg List.head? hrest
      rwa [List.head?_drop] at hhead
    obtain ⟨hi', hu'⟩ := getElem?_of_take hu
    unfold Parser.resumeAfter
    by_cases hstops : (t.kind = .semicolon || u.kind.startsStatement) = true
    · rw [if_pos hstops]
      refine ⟨i + 1, ⟨Nat.lt_succ_self i, ?_, ?_⟩, Nat.le_of_lt hi', hrest.symm⟩
      · rw [Bool.or_eq_true, decide_eq_true_iff] at hstops
        exact hstops.imp (⟨t, ht', ·⟩) fun hstarts => .inl ⟨u, hu', hstarts⟩
      · exact fun k hk hk' => absurd (Nat.lt_of_lt_of_le hk (Nat.le_of_lt_succ hk')) (Nat.lt_irrefl i)
    · rw [if_neg hstops]
      have hrest' : (tokens.take (firstEnd tokens)).drop (i + 1 + 1) = rest := by
        rw [← List.tail_drop, hrest, List.tail_cons]
      obtain ⟨j, ⟨hbehind, hboundary, hfirst⟩, hj, hresume⟩ := ih hu hi' hu' hrest'
      refine ⟨j, ⟨Nat.lt_of_succ_lt hbehind, hboundary, fun k hk hk' => ?_⟩, hj, hresume⟩
      rcases Nat.eq_or_lt_of_le hk with rfl | hlt
      · exact not_boundary ht' hu' hi' hstops
      · exact hfirst k hlt hk'

theorem Cursor.At.resume (h : c.At tokens i) (hi : i < firstEnd tokens) (errors : Array ParseError) :
    ∃ j, NextBoundary tokens i j ∧ Cursor.At tokens j ⟨Parser.resume c.rest, errors⟩ := by
  have hi' : i < (tokens.take (firstEnd tokens)).length := by rwa [length_take_firstEnd]
  obtain ⟨j, hnext, hj, hresume⟩ := resumeAfter_boundary (List.getElem?_eq_getElem hi')
  refine ⟨j, hnext, hj, ?_⟩
  rw [h.rest, List.drop_eq_getElem_cons hi']
  exact hresume

end Places

namespace Parser

/-- What parsing some tokens comes to. `At tokens i` says that the first `i` tokens are used, and there are no more than
`firstEnd tokens` to use. -/
structure Progress (tokens : List Token) : Prop where
  forward : ∀ {α : Type} {p : Parser α}, Called p → ∀ {i : Nat} {c : Cursor}, c.At tokens i →
    ∃ j, i ≤ j ∧ (ending (p c)).At tokens j
  turns : ∀ {α : Type} {step : Parser (Option α)}, Turn step → ∀ c, Loops step c (collect step c)
  declared : ∀ (n : Nat) {i : Nat} {c : Cursor}, c.At tokens i → i < firstEnd tokens →
    match declaration n c with
    | .ok _ c' => ∃ j, i < j ∧ c'.At tokens j
    | .error halt c' => halt = .tooDeep ∧ ∃ j, i ≤ j ∧ c'.At tokens j
  limited : ∀ (n : Nat) {i : Nat} {c : Cursor}, c.At tokens i → i < firstEnd tokens →
    ∃ o c' j, limiting (declaration n) c = .ok o c' ∧ i < j ∧ c'.At tokens j
  recovered : ∀ {α : Type} {p : Parser α} {i : Nat} {c c' : Cursor}, p c = .error .malformed c' →
    c'.At tokens i → i < firstEnd tokens →
      ∃ j c'', recovering p c = .ok none c'' ∧ c''.At tokens j ∧ NextBoundary tokens i j
  cutOff : ∀ {α : Type} {p : Parser (Option α)} {i : Nat} {c c' : Cursor}, p c = .error .tooDeep c' →
    c'.At tokens i → i < firstEnd tokens →
      ∃ j c'', limiting p c = .ok none c'' ∧ c''.At tokens j ∧ NextBoundary tokens i j
  ends : ∀ n errors, ∃ statements c, program n ⟨(TokenStream.ofList tokens).tokens, errors⟩ = .ok statements c ∧
    c.At tokens (firstEnd tokens) ∧ statements.length ≤ firstEnd tokens

theorem recovering_error {p : Parser α} {c c' : Cursor} {halt : Halt} (hr : recovering p c = .error halt c') :
    halt = .tooDeep := by
  cases hp : p c with
  | ok a c₁ => nomatch (recovering_of_ok hp).symm.trans hr
  | error halt' c₁ =>
    cases halt' with
    | malformed => nomatch (recovering_of_malformed hp).symm.trans hr
    | tooDeep =>
      cases (recovering_of_tooDeep hp).symm.trans hr
      rfl

theorem declaration_error {n : Nat} {c c' : Cursor} {halt : Halt} (hr : declaration n c = .error halt c') :
    halt = .tooDeep := by
  cases n with
  | zero =>
    cases hr
    rfl
  | succ n => exact recovering_error hr

theorem declaration_forward {tokens : List Token} (n : Nat) {i : Nat} {c : Cursor} (h : c.At tokens i)
    (hi : i < firstEnd tokens) :
    match declaration n c with
    | .ok _ c' => ∃ j, i < j ∧ c'.At tokens j
    | .error halt c' => halt = .tooDeep ∧ ∃ j, i ≤ j ∧ c'.At tokens j := by
  have hconsumes := (consumes_statements (x := ⟨#[], []⟩) (Nat.le_refl n)).1
  have hadvances := (hconsumes.persists c).advances
  cases hr : declaration n c with
  | ok o c' =>
    rw [hr] at hadvances
    exact h.further hadvances (hconsumes.takes c o c' (h.ne_nil hi) hr trivial)
  | error halt c' =>
    rw [hr] at hadvances
    exact ⟨declaration_error hr, h.forward hadvances⟩

/-- At the top the limit is caught, so there each declaration leaves fewer tokens than it found. -/
theorem limited_further {tokens : List Token} (n : Nat) {i : Nat} {c : Cursor} (h : c.At tokens i)
    (hi : i < firstEnd tokens) : ∃ o c' j, limiting (declaration n) c = .ok o c' ∧ i < j ∧ c'.At tokens j := by
  have hconsumes := (consumes_statements (x := ⟨#[], []⟩) (Nat.le_refl n)).1.limiting
  have hadvances := (hconsumes.persists c).advances
  obtain ⟨o, c', hr⟩ := answers_limiting_declaration n c
  rw [hr] at hadvances
  obtain ⟨j, hj, hat⟩ := h.further hadvances (hconsumes.takes c o c' (h.ne_nil hi) hr trivial)
  exact ⟨o, c', j, hr, hj, hat⟩

/-- Every list of tokens is parsed to its first ending token, over declarations that each use up a token. -/
theorem progress (tokens : List Token) : Progress tokens where
  forward hp _ c h := h.forward (hp.persists c).advances
  turns hstep c := hstep.loops c
  declared n _ _ h hi := declaration_forward n h hi
  limited n _ _ h hi := limited_further n h hi
  recovered hr h hi := by
    obtain ⟨j, hnext, hat⟩ := h.resume hi _
    exact ⟨j, _, recovering_of_malformed hr, hat, hnext⟩
  cutOff hr h hi := by
    obtain ⟨j, hnext, hat⟩ := h.resume hi _
    exact ⟨j, _, limiting_of_tooDeep hr, hat, hnext⟩
  ends n errors := by
    have hat := TokenStream.at_zero tokens errors
    obtain ⟨statements, c, hr, hrest, hlen⟩ := program_answers n ⟨(TokenStream.ofList tokens).tokens, errors⟩
    have hsuffix : c.rest <:+ (TokenStream.ofList tokens).tokens := hrest ▸ List.nil_suffix
    have hend := hat.of_suffix hsuffix
    rw [hrest] at hend
    rw [hat.length] at hlen
    exact ⟨statements, c, hr, hend, hlen⟩

end Parser
end Lox
