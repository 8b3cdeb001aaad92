import Lox.Proofs.Grammar.Plain
import Lox.Session
import Mathlib.Data.List.TakeWhile

/-! Parsing segment by segment. A statement is read no further than its last token, and behind a malformed one the
parser takes up again right behind its semicolon. So of segments that stand one after the other each is read as if it
stood alone, at the top of a program as in a block. -/

namespace Lox

/-- What is read of a list of tokens. -/
def Reading.ofTokens (depth : Nat) (ts : List Token) : Reading :=
  let stream := TokenStream.ofList ts
  let program := Program.ofTokens depth stream.tokens
  ⟨program.statements, program.errors.map (·.diagnostic stream.lastLine)⟩

/-- Whether a parser breaks off over a problem, for another reason than the limit of its nesting. -/
def ParseProblem.breaksOff (p : ParseProblem) : Bool :=
  match p with
  | nesting => false
  | p => !p.isMild

theorem ParseProblem.ne_nesting_of_breaksOff {p : ParseProblem} (h : p.breaksOff) : p ≠ nesting := by
  rintro rfl
  nomatch h

theorem ParseProblem.isMild_of_breaksOff {p : ParseProblem} (h : p.breaksOff) : p.isMild = false := by
  unfold breaksOff at h
  split at h
  · nomatch h
  · simpa using h

/-- Whether tokens are read as one statement with nothing to be said, if they stand alone. -/
structure GoodSegment (depth : Nat) (ts : List Token) : Prop where
  endless : ∀ t ∈ ts, t.kind ≠ .eof
  statement : ∃ s, Reading.ofTokens depth ts = ⟨[s], []⟩

/-- Whether tokens are malformed on their own account, and end where the parser takes up again. -/
structure BadSegment (depth : Nat) (ts : List Token) : Prop where
  endless : ∀ t ∈ ts, t.kind ≠ .eof
  braceless : ∀ t ∈ ts, t.kind ≠ .leftBrace ∧ t.kind ≠ .rightBrace
  ends : ∃ us t, ts = us ++ [t] ∧ t.kind = .semicolon ∧ ∀ u ∈ us, u.kind ≠ .semicolon
  unstarted : ∀ t ∈ ts.tail, t.kind.startsStatement = false
  broken : ∃ e ∈ (Program.ofTokens depth ts).errors, e.problem.breaksOff ∧ e.place ≠ []

theorem TokenStream.tokens_ofList {ts ending : List Token} (hts : ∀ t ∈ ts, t.kind ≠ .eof)
    (hending : ∀ t ∈ ending.head?, t.kind = .eof) : (ofList (ts ++ ending)).tokens = ts := by
  show (ts ++ ending).takeWhile _ = ts
  rw [List.takeWhile_append_of_pos fun t ht => decide_eq_true (hts t ht)]
  cases ending with
  | nil => exact List.append_nil ts
  | cons t ending => simp [hending t rfl]

theorem Reading.ofTokens_eq {ts : List Token} (h : ∀ t ∈ ts, t.kind ≠ .eof) (depth : Nat) :
    ofTokens depth ts = ⟨(Program.ofTokens depth ts).statements,
      (Program.ofTokens depth ts).errors.map (·.diagnostic (TokenStream.ofList ts).lastLine)⟩ := by
  have htokens : (TokenStream.ofList (ts ++ [])).tokens = ts := TokenStream.tokens_ofList h nofun
  rw [List.append_nil] at htokens
  simp only [ofTokens, htokens]

namespace Parser

variable {ts us after : List Token} {n n' : Nat}

/-! Where a bad segment breaks off -/

theorem resumeAfter_semicolon {t : Token} (ht : t.kind = .semicolon) (after : List Token) :
    resumeAfter t after = after := by
  cases after with
  | nil => rfl
  | cons u after => simp [resumeAfter, ht]

theorem resumeAfter_ended {last t : Token} (ht : t.kind = .semicolon) (hlast : last.kind ≠ .semicolon)
    (hus : ∀ u ∈ us, u.kind ≠ .semicolon ∧ u.kind.startsStatement = false) (after : List Token) :
    resumeAfter last (us ++ t :: after) = after := by
  induction us generalizing last with
  | nil => simp [resumeAfter, hlast, ht, TokenKind.startsStatement, resumeAfter_semicolon]
  | cons u us ih =>
    obtain ⟨hu, hstart⟩ := hus u List.mem_cons_self
    simp [resumeAfter, hlast, hstart, ih hu fun v hv => hus v (List.mem_cons_of_mem u hv)]

theorem tail_suffix_tail (h : us <:+ ts) : us.tail <:+ ts.tail := by
  obtain ⟨vs, rfl⟩ := h
  cases vs with
  | nil => exact List.suffix_rfl
  | cons v vs => exact (List.tail_suffix us).trans (List.suffix_append vs us)

/-- A program of one declaration. -/
theorem program_once (hne : ts ≠ []) {o : Option Stmt} {errors : Array ParseError}
    (h : limiting (declaration n) ⟨ts, #[]⟩ = .ok o ⟨[], errors⟩) :
    Program.ofTokens n ts = ⟨o.toList, errors.toList⟩ := by
  have hitem : unlessAt atEnd (limiting (declaration n)) ⟨ts, #[]⟩ = .ok (some o) ⟨[], errors⟩ := by
    obtain ⟨t, ts, rfl⟩ := List.exists_cons_of_ne_nil hne
    show (some <$> limiting (declaration n)) _ = _
    rw [map_eq_pure_bind, bind_of_ok h]
    rfl
  have hprogram : program n ⟨ts, #[]⟩ = .ok o.toList ⟨[], errors⟩ := by
    unfold program collect
    rw [bind_assoc, bind_of_ok hitem]
    cases o <;> rfl
  unfold Program.ofTokens
  rw [hprogram]

end Parser

open Lox.Parser

variable {ts us after : List Token} {n n' : Nat}

/-- Wherever a bad segment breaks off, the parser takes up again right behind it. -/
theorem BadSegment.resume_append (h : BadSegment n ts) (hus : us <:+ ts) (hne : us ≠ []) (after : List Token) :
    resume (us ++ after) = after := by
  have hunstarted (u : Token) (hu : u ∈ us.tail) : u.kind.startsStatement = false :=
    h.unstarted u ((tail_suffix_tail hus).subset hu)
  obtain ⟨init, t, rfl, ht, hinit⟩ := h.ends
  obtain ⟨vs, rfl, hvs⟩ := (List.suffix_concat_iff.1 hus).resolve_left hne
  cases vs with
  | nil => exact resumeAfter_semicolon ht after
  | cons v vs =>
    have hnext (u : Token) (hu : u ∈ vs) : u.kind ≠ .semicolon ∧ u.kind.startsStatement = false :=
      ⟨hinit u (hvs.subset (List.mem_cons_of_mem v hu)), hunstarted u (List.mem_append_left [t] hu)⟩
    have hresume := resumeAfter_ended ht (hinit v (hvs.subset List.mem_cons_self)) hnext after
    simpa [resume] using hresume

theorem BadSegment.resume_eq_nil (h : BadSegment n ts) (hus : us <:+ ts) : resume us = [] := by
  by_cases hne : us = []
  · rw [hne]
    rfl
  · simpa using h.resume_append hus hne []

/-- A semicolon that ends anything ends the segment. -/
theorem BadSegment.eq_nil_of_endsAt (h : BadSegment n ts) (hends : EndsAt ts after) : after = [] := by
  obtain ⟨init, t, rfl, -, hinit⟩ := h.ends
  obtain ⟨u, hu, hsuffix⟩ := hends
  obtain ⟨vs, hvs, hsub⟩ := (List.suffix_concat_iff.1 hsuffix).resolve_left (List.cons_ne_nil u after)
  cases vs with
  | nil => exact (List.cons.inj hvs).2
  | cons v vs =>
    obtain rfl : u = v := (List.cons.inj hvs).1
    exact absurd hu (hinit u (hsub.subset List.mem_cons_self))

/-- The run that breaks off, and what comes of it. -/
theorem BadSegment.exists_break (h : BadSegment n ts) :
    ∃ k c es problem, n = k + 1 ∧ rawDeclaration k ⟨ts, #[]⟩ = .error .malformed c ∧ c.rest ≠ [] ∧ c.rest <:+ ts ∧
      c.errors = es ++ #[⟨c.rest, problem⟩] ∧ PassedOver c.rest es ∧ problem ≠ .nesting ∧
        Program.ofTokens n ts = ⟨[], c.errors.toList⟩ := by
  obtain ⟨e, he, hbreaks, hplace⟩ := h.broken
  have hne : ts ≠ [] := by
    obtain ⟨init, t, rfl, -⟩ := h.ends
    simp
  have hmild {after : List Token} {es : Array ParseError} (hover : PassedOver after es) : e ∉ es := fun hmem =>
    Bool.false_ne_true ((ParseProblem.isMild_of_breaksOff hbreaks).symm.trans (hover e hmem).1)
  have hnesting : e.problem ≠ .nesting := ParseProblem.ne_nesting_of_breaksOff hbreaks
  cases n with
  | zero =>
    have hzero : limiting (declaration 0) ⟨ts, #[]⟩ = .ok none ⟨[], #[⟨ts, .nesting⟩]⟩ := by
      have hrun : declaration 0 ⟨ts, #[]⟩ = .error .tooDeep ⟨ts, #[]⟩ := rfl
      rw [limiting_of_tooDeep hrun, h.resume_eq_nil List.suffix_rfl]
      rfl
    rw [program_once hne hzero] at he
    obtain rfl := List.mem_singleton.1 he
    exact absurd rfl hnesting
  | succ k =>
    obtain ⟨hrest, ⟨es, last, hes, hover, hlast⟩, hends⟩ :=
      ends_rawDeclaration k (fun t ht => (h.braceless t ht).1) #[]
    cases hr : rawDeclaration k ⟨ts, #[]⟩ with
    | ok s c =>
      obtain ⟨rest, errors⟩ := c
      rw [hr] at hes hover hlast
      obtain rfl : last = #[] := hlast
      obtain rfl : errors = es := by simpa [ending] using hes
      obtain rfl : rest = [] := h.eq_nil_of_endsAt (hends s _ hr)
      rw [program_once (n := k + 1) hne (limiting_of_ok (recovering_of_ok hr))] at he
      exact absurd (Array.mem_toList_iff.1 he) (hmild hover)
    | error halt c =>
      obtain ⟨rest, errors⟩ := c
      rw [hr] at hrest hes hover hlast
      have hresume : resume rest = [] := h.resume_eq_nil hrest
      cases halt with
      | malformed =>
        obtain ⟨problem, rfl⟩ := hlast
        obtain rfl : errors = es ++ #[⟨rest, problem⟩] := by simpa [ending] using hes
        have hrun := recovering_of_malformed hr
        rw [hresume] at hrun
        have hprogram := program_once (n := k + 1) hne (limiting_of_ok hrun)
        rw [hprogram] at he
        obtain rfl : e = ⟨rest, problem⟩ := by
          rcases Array.mem_append.1 (Array.mem_toList_iff.1 he) with hmem | hmem
          · exact absurd hmem (hmild hover)
          · exact Array.mem_singleton.1 hmem
        exact ⟨k, _, es, problem, rfl, hr, hplace, hrest, rfl, hover, hnesting, hprogram⟩
      | tooDeep =>
        obtain rfl : last = #[] := hlast
        obtain rfl : errors = es := by simpa [ending] using hes
        have hrun := limiting_of_tooDeep (recovering_of_tooDeep hr)
        rw [hresume] at hrun
        rw [program_once (n := k + 1) hne hrun] at he
        rcases Array.mem_push.1 (Array.mem_toList_iff.1 he) with hmem | rfl
        · exact absurd hmem (hmild hover)
        · exact absurd rfl hnesting

/-! What is read of segments when other tokens stand behind them -/

theorem ParseError.diagnostic_before {e : ParseError} (h : e.place ≠ []) (after : List Token) (line line' : Int) :
    (e.before after).diagnostic line = e.diagnostic line' := by
  obtain ⟨t, place, ht⟩ := List.exists_cons_of_ne_nil h
  simp [diagnostic, before, ht]

theorem BadSegment.reads (h : BadSegment n ts) (hn : n ≤ n') (after : List Token) :
    (Reading.ofTokens n ts).statements = [] ∧
      Reads (declaration n') (ts ++ after) none (Reading.ofTokens n ts).diagnostics after := by
  obtain ⟨k, c, es, problem, rfl, hr, hne, hrest, hes, hover, hnesting, hprogram⟩ := h.exists_break
  obtain ⟨k', rfl⟩ : ∃ k', n' = k' + 1 := ⟨n' - 1, by omega⟩
  have hplaces : ∀ e ∈ c.errors, e.place ≠ [] ∧ e.problem ≠ .nesting := by
    intro e he
    rw [hes] at he
    rcases Array.mem_append.1 he with he | he
    · obtain ⟨hmild, hafter⟩ := hover e he
      exact ⟨fun hnil => hne (List.suffix_nil.1 (hnil ▸ hafter)), fun heq => by rw [heq] at hmild; nomatch hmild⟩
    · obtain rfl := Array.mem_singleton.1 he
      exact ⟨hne, hnesting⟩
  rw [Reading.ofTokens_eq h.endless, hprogram]
  refine ⟨rfl, fun errors => ?_⟩
  have hclear : c.Clear ⟨errors, after⟩ := ⟨.inr hne, fun e he => (hplaces e he).2⟩
  have hstatements := consumes_statements (x := ⟨errors, after⟩) (Nat.le_of_succ_le_succ hn)
  have hexpression := (consumes_expressions (x := ⟨errors, after⟩) (Nat.le_of_succ_le_succ hn)).1
  have hsame := ((consumes_rawDeclaration hexpression.persists hstatements.1 hstatements.2).persists ⟨ts, #[]⟩).same
  rw [hr] at hsame
  have hrun := recovering_of_malformed (hsame ⟨rfl, hclear⟩)
  refine ⟨c.errors.map (·.before after), ?_, fun line => ?_⟩
  · show recovering (rawDeclaration k') _ = _
    simpa [Cursor.within, h.resume_append hrest hne] using hrun
  · simp only [Array.toList_map, List.map_map]
    exact List.map_congr_left fun e he => ParseError.diagnostic_before (hplaces e (Array.mem_toList_iff.1 he)).1 ..

/-- A good segment is a declaration of the grammar. -/
theorem GoodSegment.exists_derivation (h : GoodSegment n ts) :
    ∃ d : Derivation .declaration, d.tokens = ts ∧ d.nesting ≤ n ∧ d.NearestElse ∧ d.diagnostics = [] ∧
      Reading.ofTokens n ts = ⟨[d.value], []⟩ := by
  obtain ⟨s, hs⟩ := h.statement
  have hreading := hs
  rw [Reading.ofTokens_eq h.endless] at hs
  have herrors : (Program.ofTokens n ts).errors = [] := List.map_eq_nil_iff.1 (congrArg Reading.diagnostics hs)
  have hprogram : Program.ofTokens n ts = ⟨[s], []⟩ :=
    congrArg₂ Program.mk (congrArg Reading.statements hs) herrors
  obtain ⟨d, hd, hn, he, hnone, rfl⟩ := Program.exists_declaration hprogram
  exact ⟨d, hd, hn, he, hnone, hreading⟩

theorem GoodSegment.reads (h : GoodSegment n ts) (hn : n ≤ n') (ha : Avoids [.kwElse] after) :
    ∃ s, Reading.ofTokens n ts = ⟨[s], []⟩ ∧ Reads (declaration n') (ts ++ after) (some s) [] after := by
  obtain ⟨d, rfl, hnesting, he, hnone, hreading⟩ := h.exists_derivation
  refine ⟨d.value, hreading, ?_⟩
  rw [← hnone]
  exact (coversAll n').declaration d (Nat.le_trans hnesting hn) he after ⟨fun _ _ => List.not_mem_nil, fun _ => ha⟩

/-- What either sort of segment begins with. -/
theorem exists_head_segment (h : GoodSegment n ts ∨ BadSegment n ts) : ∃ t us, ts = t :: us ∧ t.kind ≠ .rightBrace := by
  rcases h with h | h
  · obtain ⟨d, rfl, -⟩ := h.exists_derivation
    obtain ⟨t, us, ht, hk⟩ := d.exists_head rfl
    exact ⟨t, us, ht, fun heq => by rw [heq] at hk; revert hk; decide⟩
  · obtain ⟨init, u, rfl, -⟩ := h.ends
    obtain ⟨t, us, ht⟩ := List.exists_cons_of_ne_nil (show init ++ [u] ≠ [] by simp)
    exact ⟨t, us, ht, (h.braceless t (ht ▸ List.mem_cons_self)).2⟩

theorem reads_segment (h : GoodSegment n ts ∨ BadSegment n ts) (hn : n ≤ n') (ha : Avoids [.kwElse] after) :
    ∃ o, (Reading.ofTokens n ts).statements = o.toList ∧
      Reads (declaration n') (ts ++ after) o (Reading.ofTokens n ts).diagnostics after := by
  rcases h with h | h
  · obtain ⟨s, hs, hread⟩ := h.reads hn ha
    rw [hs]
    exact ⟨some s, rfl, hread⟩
  · obtain ⟨hnone, hread⟩ := h.reads hn after
    exact ⟨none, hnone, hread⟩

/-! Segments one behind the other -/

/-- Whether tokens are cut into segments of either sort, none of which could be taken for a branch of the one before
it. -/
def Segmented (n : Nat) (segments : List (List Token)) : Prop :=
  ∀ ts ∈ segments, (GoodSegment n ts ∨ BadSegment n ts) ∧ Avoids [.kwElse] ts

/-- What is read of segments that each stand alone. -/
def Reading.ofSegments (n : Nat) (segments : List (List Token)) : Reading :=
  ⟨segments.flatMap fun ts => (ofTokens n ts).statements, segments.flatMap fun ts => (ofTokens n ts).diagnostics⟩

section Sequences

variable {segments : List (List Token)} {item : Parser (Option Stmt)} {stop : Parser Bool}

theorem avoids_segments (h : Segmented n segments) (ha : Avoids [.kwElse] after) :
    Avoids [.kwElse] (segments.flatten ++ after) := by
  cases segments with
  | nil => exact ha
  | cons ts segments =>
    obtain ⟨hsort, havoids⟩ := h ts List.mem_cons_self
    obtain ⟨t, us, rfl, -⟩ := exists_head_segment hsort
    exact havoids

/-- A loop over declarations takes one segment after the other. -/
theorem collects_segments (h : Segmented n segments)
    (hitem : ∀ {ts o ds after}, Reads (declaration n') ts o ds after → Reads item ts o ds after) (hn : n ≤ n')
    (hgo : ∀ t ts, t.kind ≠ .rightBrace → Reads stop (t :: ts) false [] (t :: ts))
    (hstop : Reads stop after true [] after) (ha : Avoids [.kwElse] after) :
    ∃ os, os.filterMap id = (Reading.ofSegments n segments).statements ∧
      Collects (unlessAt stop item) (segments.flatten ++ after) os (Reading.ofSegments n segments).diagnostics after := by
  induction segments with
  | nil => exact ⟨[], rfl, .stop (reads_unlessAt_none item hstop)⟩
  | cons ts segments ih =>
    have hrest : Segmented n segments := fun us hus => h us (List.mem_cons_of_mem ts hus)
    obtain ⟨hsort, -⟩ := h ts List.mem_cons_self
    obtain ⟨os, hos, hcollects⟩ := ih hrest
    obtain ⟨o, ho, hread⟩ := reads_segment hsort hn (avoids_segments hrest ha)
    obtain ⟨t, us, rfl, ht⟩ := exists_head_segment hsort
    refine ⟨o :: os, ?_, ?_⟩
    · simp only [Reading.ofSegments, List.flatMap_cons, ho] at hos ⊢
      rw [← hos]
      cases o <;> rfl
    · simp only [Reading.ofSegments, List.flatMap_cons, List.flatten_cons, List.append_assoc]
      refine .turn (reads_unlessAt (hgo t _ ht) (hitem hread)) ?_ hcollects
      simp only [List.cons_append, List.length_cons, List.length_append]
      omega

theorem reads_program_segments (h : Segmented n segments) (hn : n ≤ n') :
    Reads (program n') segments.flatten (Reading.ofSegments n segments).statements
      (Reading.ofSegments n segments).diagnostics [] := by
  obtain ⟨os, hos, hcollects⟩ := collects_segments h Reads.limiting hn (fun t ts _ => reads_atEnd (t :: ts))
    (reads_atEnd []) nofun
  rw [← hos, ← List.append_nil segments.flatten]
  exact hcollects.reads.last (g := fun items => items.filterMap id)

theorem reads_block_segments (h : Segmented n segments) (hn : n ≤ n') {l r : Token} (hl : l.kind = .leftBrace)
    (hr : r.kind = .rightBrace) (after : List Token) :
    Reads (declaration (n' + 2)) (l :: (segments.flatten ++ r :: after))
      (some (.block (Reading.ofSegments n segments).statements)) (Reading.ofSegments n segments).diagnostics after := by
  have hbrace : Avoids [.kwElse] (r :: after) := avoids_cons.2 (by simp [hr])
  obtain ⟨os, hos, hcollects⟩ := collects_segments h id hn
    (fun t ts ht => decide_eq_false ht ▸ reads_braceOrEnd t ts) (decide_eq_true hr ▸ reads_braceOrEnd r after) hbrace
  have hblock : Reads (block (declaration n')) (segments.flatten ++ r :: after)
      (Reading.ofSegments n segments).statements (Reading.ofSegments n segments).diagnostics after := by
    rw [← hos]
    have huntil : Reads (untilBrace (declaration n')) (segments.flatten ++ r :: after) (os.filterMap id)
        (Reading.ofSegments n segments).diagnostics (r :: after) := hcollects.reads.finish (reads_pure _ _)
    exact huntil.finish ((reads_expect ⟨r, by simp [hr]⟩ after).then (reads_pure _ after))
  rw [declaration_succ]
  refine Reads.recovering ((reads_accept_none (avoids_cons.2 (by simp [hl]))).then ?_)
  show Reads (statement (n' + 1)) _ _ _ _
  unfold statement
  have hleft : l.kind ∈ [TokenKind.leftBrace] := by simp [hl]
  refine (reads_accept ⟨l, hleft⟩ (by decide) _).then ?_
  simp only [hl]
  exact hblock.last

end Sequences

/-- Tokens that are read as `reading` says, perhaps with an ending one behind them. -/
theorem Reading.ofTokens_of_reads {ending : List Token} {reading : Reading} (hts : ∀ t ∈ ts, t.kind ≠ .eof)
    (hending : ∀ t ∈ ending.head?, t.kind = .eof)
    (h : Reads (program n) ts reading.statements reading.diagnostics []) :
    ofTokens n (ts ++ ending) = reading := by
  obtain ⟨es, hp, hes⟩ := h #[]
  simp only [ofTokens, TokenStream.tokens_ofList hts hending, Program.ofTokens, hp]
  simp only [Array.empty_append, hes]

theorem kind_ne_eof_of_segmented {segments : List (List Token)} (h : Segmented n segments) :
    ∀ t ∈ segments.flatten, t.kind ≠ .eof := by
  intro t ht
  obtain ⟨ts, hts, hmem⟩ := List.mem_flatten.1 ht
  rcases (h ts hts).1 with h | h
  · exact h.endless t hmem
  · exact h.endless t hmem

/-- Segments are read as if each stood alone: of a good one its statement, of a bad one nothing, and the diagnostics
one after the other. Between braces they make one block of just these statements. The limit of the nesting may be any
that is met by none of them, and between braces it takes two more. -/
theorem Reading.ofTokens_segments {segments : List (List Token)} (h : Segmented n segments) (hn : n ≤ n')
    {ending : List Token} (hending : ∀ t ∈ ending.head?, t.kind = .eof) :
    ofTokens n' (segments.flatten ++ ending) = ofSegments n segments ∧
      (∀ ts ∈ segments, BadSegment n ts → (ofTokens n ts).statements = []) ∧
      ∀ l r : Token, l.kind = .leftBrace → r.kind = .rightBrace →
        ofTokens (n' + 2) (l :: (segments.flatten ++ r :: ending)) =
          ⟨[.block (ofSegments n segments).statements], (ofSegments n segments).diagnostics⟩ := by
  have hendless := kind_ne_eof_of_segmented h
  refine ⟨ofTokens_of_reads hendless hending (reads_program_segments h hn), fun ts _ hbad => (hbad.reads hn []).1,
    fun l r hl hr => ?_⟩
  have hbraces : ∀ t ∈ l :: (segments.flatten ++ [r]), t.kind ≠ .eof := by
    intro t ht
    simp only [List.mem_cons, List.mem_append, List.not_mem_nil, or_false] at ht
    rcases ht with rfl | ht | rfl
    · simp [hl]
    · exact hendless t ht
    · simp [hr]
  have hprogram : Reads (program (n' + 2)) (l :: (segments.flatten ++ [r]))
      [.block (ofSegments n segments).statements] (ofSegments n segments).diagnostics [] := by
    have hblock := (reads_block_segments h hn hl hr []).limiting
    have hcollects := Collects.turn (reads_unlessAt (reads_atEnd _) hblock) (by simp)
      (.stop (reads_unlessAt_none _ (reads_atEnd [])))
    rw [List.append_nil] at hcollects
    exact hcollects.reads.last (g := fun items => items.filterMap id)
  rw [show l :: (segments.flatten ++ r :: ending) = l :: (segments.flatten ++ [r]) ++ ending by simp]
  let whole : Reading := ⟨[.block (ofSegments n segments).statements], (ofSegments n segments).diagnostics⟩
  exact (ofTokens_of_reads hbraces hending hprogram : _ = whole)

/-- `if (a) { b; }`, then `f(c d;`, then `e = f;` -/
def brokenCall : List (List Token) :=
  [[(.kwIf, "if"), (.leftParen, "("), (.identifier, "a"), (.rightParen, ")"), (.leftBrace, "\x7b"),
      (.identifier, "b"), (.semicolon, ";"), (.rightBrace, "\x7d")],
    [(.identifier, "f"), (.leftParen, "("), (.identifier, "c"), (.identifier, "d"), (.semicolon, ";")],
    [(.identifier, "e"), (.equal, "="), (.identifier, "f"), (.semicolon, ";")]].map
      (·.map fun (kind, lexeme) => ⟨kind, lexeme, .nil, 1⟩)

theorem segmented_brokenCall : Segmented 20 brokenCall := by
  intro ts hts
  simp only [brokenCall, List.map_cons, List.map_nil, List.mem_cons, List.not_mem_nil, or_false] at hts
  rcases hts with rfl | rfl | rfl
  · exact ⟨.inl ⟨by decide, _, rfl⟩, avoids_cons.2 (by decide)⟩
  · exact ⟨.inr ⟨by decide, by decide, ⟨[_, _, _, _], _, rfl, rfl, by decide⟩, by decide, by decide⟩,
      avoids_cons.2 (by decide)⟩
  · exact ⟨.inl ⟨by decide, _, rfl⟩, avoids_cons.2 (by decide)⟩

theorem Reading.ofTokens_segments_brokenCall :
    let ending : List Token := [⟨.eof, "", .nil, 1⟩]
    ofTokens 30 (brokenCall.flatten ++ ending) = ofSegments 20 brokenCall ∧
      (ofSegments 20 brokenCall).diagnostics.map Diagnostic.text =
        ["[line 1] Error at 'd': Expect ')' after arguments."] :=
  ⟨(ofTokens_segments segmented_brokenCall (by decide) (by decide)).1, by decide⟩

end Lox
