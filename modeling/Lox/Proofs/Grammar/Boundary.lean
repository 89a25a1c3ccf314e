import Lox.Proofs.Grammar.Fence
import Lox.Proofs.Grammar.Recognition

/-!
# Programs can be cut between statements

Where a statement has ended, reading starts afresh: nothing before the cut depends on what
stands behind it, and what stands behind it is read as if nothing had come before.  There
are two ways to know that a statement has ended.

* The tokens before the cut are a program without errors.  Then they derive from the
  grammar, and the only token that could go on with them is an `else`
  (`Declarations.before`, `Declarations.batch_append`).
* The tokens before the cut are `Sealed`: they end with a semicolon, and none of them opens
  a part of a program that may hold a semicolon inside.  They may be malformed in any way.
  A rule that fails stops before the last semicolon, and recovery stops behind it.
  `Rule.Stays` says this of expressions, for which a semicolon is a fence (`Fenced.stays`), and
  `Rule.Completes` of statements, which may end with it; `bounded_rules` has both for every level
  of nesting.

`parse_append_of_boundary` joins the two.
-/

namespace Lox

variable {α β : Type}

namespace Grammar

/-! ## Cuts behind a program without errors -/

/-- The tokens `after'` can take the place of `after` behind a statement: they begin with an
`else` only if `after` does. -/
def Follows (after after' : List Token) : Prop :=
  (∃ t ∈ after'.head?, t.kind = .elseWord) → ∃ t ∈ after.head?, t.kind = .elseWord

theorem Follows.append {after after' : List Token} (h : Follows after after') (w : List Token) :
    Follows (w ++ after) (w ++ after') := by
  cases w with
  | nil => exact h
  | cons t w => exact id

theorem follows_of_head_ne {after' : List Token} (h : ∀ t ∈ after'.head?, t.kind ≠ .elseWord)
    (after : List Token) : Follows after after' := by
  rintro ⟨t, ht, he⟩
  exact absurd he (h t ht)

mutual

/-- A derivation sees of the tokens behind it only whether they begin with an `else`. -/
theorem Declarations.before {n : Nat} {w after after' : List Token} {ss : List Stmt}
    (h : Declarations n w after ss) (hf : Follows after after') : Declarations n w after' ss :=
  match h with
  | .nil => .nil
  | .cons first rest => .cons (first.before (hf.append _)) (rest.before hf)

theorem Declaration.before {n : Nat} {w after after' : List Token} {s : Stmt}
    (h : Declaration n w after s) (hf : Follows after after') : Declaration n w after' s :=
  match h with
  | .declared whole => .declared whole
  | .statement whole => .statement (whole.before hf)

theorem Statement.before {n : Nat} {w after after' : List Token} {s : Stmt}
    (h : Statement n w after s) (hf : Follows after after') : Statement n w after' s :=
  match h with
  | .expression value hs => .expression value hs
  | .print hk value hs => .print hk value hs
  | .block ho body hc => .block ho (body.before id) hc
  | .choice hk ho condition hc yes alone => by
    refine .choice hk ho condition hc (yes.before hf) ?_
    intro t ht he
    obtain ⟨u, hu, hue⟩ := hf ⟨t, ht, he⟩
    exact alone u hu hue
  | .choiceElse hk ho condition hc yes hk' no =>
    .choiceElse hk ho condition hc (yes.before id) hk' (no.before hf)
  | .loop hk ho condition hc body => .loop hk ho condition hc (body.before hf)
  | .counting hk ho first second hs third hc body =>
    .counting hk ho first second hs third hc (body.before hf)

end

open Rule

variable {n : Nat}

/-- Declarations that derive are read one after the other, and then the tokens behind them. -/
theorem Declarations.batch_append {w after : List Token} {ss : List Stmt}
    (h : Declarations n w after ss) :
    batch endsProgram (declaration (rules n)) (w ++ after) =
      (⟨ss, [], after⟩ : Batch).andThen (batch endsProgram (declaration (rules n))) := by
  have hadv := advances_declaration (advances_rules n)
  have htakes := takes_declaration (advances_rules n)
  induction ss generalizing w with
  | nil =>
    cases h
    rfl
  | cons s ss ih =>
    cases h with
    | @cons _ u v _ _ _ first last =>
      have hread : (declaration (rules n)).Reads (u ++ (v ++ after)) s (v ++ after) :=
        (reads_declaration_iff (reads_statement_iff n)).2 ⟨u, rfl, first⟩
      have hgo : endsProgram (peek (u ++ (v ++ after))).kind = false := by
        obtain ⟨t, r, rfl, -, he⟩ := first.head
        simpa [endsProgram, peek] using he
      rw [List.append_assoc, batch_eq rfl hadv htakes, hgo, attempt_eq, hread]
      simp [Batch.andThen, ih last]

/-- A list without end of input that is parsed without errors derives. -/
theorem declarations_of_errors_eq_nil {w : List Token} (hw : ∀ t ∈ w, t.kind ≠ .eof)
    (h : (parseWithin n w).errors = []) : Declarations n w [] (parseWithin n w).statements := by
  rw [← parseWithin_iff_of_ends hw rfl, List.append_nil, ← h]

/-! ### Programs one after the other -/

theorem Declarations.append {u v after : List Token} {ss ss' : List Stmt}
    (h : Declarations n u (v ++ after) ss) (h' : Declarations n v after ss') :
    Declarations n (u ++ v) after (ss ++ ss') := by
  induction ss generalizing u with
  | nil =>
    cases h
    exact h'
  | cons s ss ih =>
    cases h with
    | cons first rest =>
      rw [List.append_assoc]
      exact .cons (by rwa [List.append_assoc]) (ih rest)

theorem Statement.head_ne_else {w after : List Token} {s : Stmt} (h : Statement n w after s) :
    ∀ t ∈ w.head?, t.kind ≠ .elseWord := by
  cases h with
  | expression value =>
    obtain ⟨t, r, rfl, ht⟩ := value.head
    rintro _ ⟨⟩ hk
    rw [hk] at ht
    exact absurd ht (by decide)
  | print hk | block hk | choice hk | choiceElse hk | loop hk | counting hk =>
    rintro _ ⟨⟩
    simp [hk]

/-- No program begins with an `else`. -/
theorem Declarations.head_ne_else {w after : List Token} {ss : List Stmt}
    (h : Declarations n w after ss) : ∀ t ∈ w.head?, t.kind ≠ .elseWord := by
  cases h with
  | nil => simp
  | cons first rest =>
    cases first with
    | declared whole =>
      obtain ⟨k, r, rfl, hk⟩ := whole.head
      rintro _ ⟨⟩
      simp [hk]
    | statement whole =>
      obtain ⟨t, r, rfl, -⟩ := whole.head
      exact whole.head_ne_else

/-- Programs without errors can stand one after the other, and end at any end of input. -/
theorem parseWithin_append {w w' : List Token} {eof eof' last : Token} {ss ss' : List Stmt}
    (hw : ∀ t ∈ w, t.kind ≠ .eof) (hw' : ∀ t ∈ w', t.kind ≠ .eof) (heof : eof.kind = .eof)
    (heof' : eof'.kind = .eof) (hlast : last.kind = .eof)
    (h : parseWithin n (w ++ [eof]) = ⟨ss, []⟩) (h' : parseWithin n (w' ++ [eof']) = ⟨ss', []⟩) :
    parseWithin n (w ++ w' ++ [last]) = ⟨ss ++ ss', []⟩ := by
  have hd := (parseWithin_iff hw heof).1 h
  have hd' := (parseWithin_iff hw' heof').1 h'
  have hne : last.kind ≠ .elseWord := by simp [hlast]
  have hhead : ∀ t ∈ (w' ++ [last]).head?, t.kind ≠ .elseWord := by
    cases w' with
    | nil => simpa using hne
    | cons t r => exact hd'.head_ne_else
  have hall : ∀ t ∈ w ++ w', t.kind ≠ .eof := by
    intro t ht
    exact (List.mem_append.1 ht).elim (hw t) (hw' t)
  rw [parseWithin_iff hall hlast]
  refine (hd.before (follows_of_head_ne hhead _)).append (hd'.before (follows_of_head_ne ?_ _))
  simpa using hne

end Grammar

/-! ## Sealed tokens -/

/-- The tokens end with a semicolon, and none of them is an opening brace, the word of a
counting loop or the end of input. -/
structure Sealed (ts : List Token) : Prop where
  simple : ∀ t ∈ ts, t.kind ≠ .leftBrace ∧ t.kind ≠ .forWord ∧ t.kind ≠ .eof
  last : ∃ t ∈ ts.getLast?, t.kind = .semicolon

namespace Sealed

variable {t : Token} {ts : List Token}

theorem exists_cons (h : Sealed ts) : ∃ t rest, ts = t :: rest := by
  cases ts with
  | nil =>
    obtain ⟨t, ht, -⟩ := h.last
    cases ht
  | cons t rest => exact ⟨t, rest, rfl⟩

theorem exists_concat (h : Sealed ts) : ∃ w semi, ts = w ++ [semi] ∧ semi.kind = .semicolon := by
  obtain ⟨semi, hsemi, hk⟩ := h.last
  obtain ⟨w, rfl⟩ := List.getLast?_eq_some_iff.1 hsemi
  exact ⟨w, semi, rfl, hk⟩

theorem head_ne_eof (h : Sealed (t :: ts)) : t.kind ≠ .eof :=
  (h.simple t List.mem_cons_self).2.2

/-- What is left behind the first token is sealed as well, unless that token was the last. -/
theorem tail_cases (h : Sealed (t :: ts)) : (ts = [] ∧ t.kind = .semicolon) ∨ Sealed ts := by
  cases ts with
  | nil =>
    obtain ⟨u, hu, hk⟩ := h.last
    cases hu
    exact .inl ⟨rfl, hk⟩
  | cons u rest =>
    refine .inr ⟨fun v hv => h.simple v (List.mem_cons_of_mem t hv), ?_⟩
    obtain ⟨v, hv, hk⟩ := h.last
    exact ⟨v, by rwa [List.getLast?_cons_cons] at hv, hk⟩

theorem tail (h : Sealed (t :: ts)) (ht : t.kind ≠ .semicolon) : Sealed ts := by
  rcases h.tail_cases with ⟨-, hk⟩ | h
  · exact absurd hk ht
  · exact h

end Sealed

/-! ## Rules on sealed tokens -/

namespace Reply

/-- The reply where more tokens stand behind those that are left. -/
def extend (more : List Token) : Reply α → Reply α
  | parsed a es ts => parsed a es (ts ++ more)
  | failed e es ts => failed e es (ts ++ more)

/-- Rules that do not see the further tokens do not see them one after the other. -/
theorem extend_andThen {r : Reply α} {f : α → List Token → Reply β} {more : List Token}
    (h : ∀ a es mid, r = .parsed a es mid → f a (mid ++ more) = (f a mid).extend more) :
    (r.extend more).andThen f = (r.andThen f).extend more := by
  cases r with
  | failed e es mid => rfl
  | parsed a es mid =>
    rw [extend, andThen, andThen, h a es mid rfl]
    cases f a mid <;> rfl

theorem sealed_andThen {r : Reply α} {f : α → List Token → Reply β} (hr : Sealed r.rest)
    (hf : ∀ a es mid, r = .parsed a es mid → Sealed (f a mid).rest) :
    Sealed (r.andThen f).rest := by
  cases r with
  | failed e es mid => exact hr
  | parsed a es mid =>
    rw [andThen, rest_after]
    exact hf a es mid rfl

/-- What is left of sealed tokens: nothing or sealed tokens after a success, and sealed
tokens after a failure. -/
def Seals : Reply α → Prop
  | parsed _ _ rest => rest = [] ∨ Sealed rest
  | failed _ _ rest => Sealed rest

theorem seals_of_sealed {r : Reply α} (h : Sealed r.rest) : r.Seals := by
  cases r with
  | parsed a es rest => exact .inr h
  | failed e es rest => exact h

theorem seals_andThen {r : Reply α} {f : α → List Token → Reply β} (hr : r.Seals)
    (hf : ∀ a es mid, r = .parsed a es mid → (f a mid).Seals) : (r.andThen f).Seals := by
  cases r with
  | failed e es mid => exact hr
  | parsed a es mid =>
    have h := hf a es mid rfl
    rw [andThen]
    cases hfa : f a mid <;> rw [hfa] at h <;> exact h

end Reply

namespace Rule

/-- Of sealed tokens the rule leaves at least the last one, and it does not see what stands
behind them. -/
def Stays (p : Rule α) : Prop :=
  ∀ ts more, Sealed ts → p (ts ++ more) = (p ts).extend more ∧ Sealed (p ts).rest

/-- Of sealed tokens the rule takes all only if it succeeds, and it does not see what stands
behind them, if that does not begin with an `else`. -/
def Completes (p : Rule α) : Prop :=
  ∀ ts more, Sealed ts → (∀ t ∈ more.head?, t.kind ≠ .elseWord) →
    p (ts ++ more) = (p ts).extend more ∧ (p ts).Seals

theorem Stays.completes {p : Rule α} (h : p.Stays) : p.Completes := by
  intro ts more hts _
  obtain ⟨heq, hrest⟩ := h ts more hts
  exact ⟨heq, Reply.seals_of_sealed hrest⟩

theorem Stays.sealed {p : Rule α} (h : p.Stays) {ts mid : List Token} {a : α}
    {es : List ParseError} (hts : Sealed ts) (hp : p ts = .parsed a es mid) : Sealed mid := by
  have hrest := (h ts [] hts).2
  rwa [hp] at hrest

theorem Stays.bind {p : Rule α} {f : α → Rule β} (hp : p.Stays) (hf : ∀ a, (f a).Stays) :
    (p >>= f).Stays := by
  intro ts more hts
  obtain ⟨heq, hrest⟩ := hp ts more hts
  rw [bind_apply, bind_apply, heq]
  constructor
  · apply Reply.extend_andThen
    intro a es mid hr
    exact (hf a mid more (hp.sealed hts hr)).1
  · apply Reply.sealed_andThen hrest
    intro a es mid hr
    exact (hf a mid more (hp.sealed hts hr)).2

theorem Stays.bind_completes {p : Rule α} {f : α → Rule β} (hp : p.Stays)
    (hf : ∀ a, (f a).Completes) : (p >>= f).Completes := by
  intro ts more hts hmore
  obtain ⟨heq, hrest⟩ := hp ts more hts
  rw [bind_apply, bind_apply, heq]
  constructor
  · apply Reply.extend_andThen
    intro a es mid hr
    exact (hf a mid more (hp.sealed hts hr) hmore).1
  · apply Reply.seals_andThen (Reply.seals_of_sealed hrest)
    intro a es mid hr
    exact (hf a mid more (hp.sealed hts hr) hmore).2

theorem Completes.map {p : Rule α} (hp : p.Completes) (f : α → β) :
    (do return f (← p) : Rule β).Completes := by
  intro ts more hts hmore
  obtain ⟨heq, hseals⟩ := hp ts more hts hmore
  rw [bind_apply, bind_apply, heq]
  constructor
  · exact Reply.extend_andThen fun _ _ _ _ => rfl
  · apply Reply.seals_andThen hseals
    intro a es mid hr
    rw [hr] at hseals
    exact hseals

theorem stays_pure (a : α) : (pure a : Rule α).Stays := fun _ _ h => ⟨rfl, h⟩

theorem peek_append {ts : List Token} (h : Sealed ts) (more : List Token) :
    peek (ts ++ more) = peek ts := by
  obtain ⟨t, rest, rfl⟩ := h.exists_cons
  rfl

theorem stays_fail (fault : Fault) : (fail fault : Rule α).Stays := by
  intro ts more h
  rw [fail, fail, peek_append h]
  exact ⟨rfl, h⟩

theorem stays_accept {kind : Kind} (hkind : kind ≠ .semicolon) : (accept kind).Stays := by
  intro ts more h
  obtain ⟨t, rest, rfl⟩ := h.exists_cons
  rw [List.cons_append, accept_cons, accept_cons]
  split
  next ht => exact ⟨rfl, h.tail (by rwa [ht])⟩
  next => exact ⟨rfl, h⟩

theorem stays_expect {kind : Kind} (hkind : kind ≠ .semicolon) (fault : Fault) :
    (expect kind fault).Stays := by
  refine (stays_accept hkind).bind ?_
  intro o
  cases o with
  | none => exact stays_fail fault
  | some t => exact stays_pure t

/-- A rule for which a semicolon is a fence does not take the last one of sealed tokens. -/
theorem Fenced.stays {p : Rule α} (h : p.Fenced [.leftBrace, .forWord, .eof] [.semicolon]) :
    p.Stays := by
  intro ts more hts
  obtain ⟨w, semi, rfl, hk⟩ := hts.exists_concat
  have hw : ∀ t ∈ w, t.kind ∉ [.leftBrace, .forWord, .eof] := by
    intro t ht
    simpa using hts.simple t (List.mem_append_left _ ht)
  have hfence : ∀ after, (peek (semi :: after)).kind ∈ [Kind.semicolon] := by simp [peek, hk]
  obtain ⟨heq, hrest⟩ := h w [semi] hw (hfence [])
  have heq' : p (w ++ [semi] ++ more) = (p w).before (semi :: more) := by
    rw [List.append_assoc]
    exact (h w (semi :: more) hw (hfence more)).1
  constructor
  · rw [heq', heq]
    cases p w <;> simp [Reply.before, Reply.extend, ParseError.before, peek]
  · have hleft : (p (w ++ [semi])).rest = (p w).rest ++ [semi] := by
      rw [heq]
      cases p w <;> rfl
    rw [hleft]
    refine ⟨?_, semi, by simp, hk⟩
    intro t ht
    rcases List.mem_append.1 ht with ht | ht
    · simpa using hrest t ht
    · exact hts.simple t (List.mem_append_right _ ht)

/-- The semicolon that ends a statement may be the last one. -/
theorem completes_semicolon (place : Place) (s : Stmt) : (do
    let _ ← expectAfter .semicolon place
    return s : Rule Stmt).Completes := by
  intro ts more h _
  obtain ⟨t, rest, rfl⟩ := h.exists_cons
  by_cases ht : t.kind = .semicolon
  · have hend : rest = [] ∨ Sealed rest := h.tail_cases.imp_left And.left
    simpa [expectAfter, expect, accept, acceptIf, ht, Reply.andThen, Reply.after, Reply.extend,
      Reply.Seals] using hend
  · simpa [expectAfter, expect, accept, acceptIf, ht, Reply.andThen, Reply.after, Reply.extend,
      Reply.Seals, fail, peek] using h

end Rule

/-- The rules of a level on sealed tokens. -/
structure Rules.Bounded (inner : Rules Rule) : Prop where
  expression : inner.expression.Stays
  operand : inner.operand.Stays
  statement : inner.statement.Completes

namespace Grammar

open Rule

variable {inner : Rules Rule}

/-! ### Statements -/

theorem completes_varDeclaration (h : inner.Bounded) : (varDeclaration inner).Completes := by
  refine (stays_expect (by decide) _).bind_completes fun name => ?_
  refine (stays_accept (by decide)).bind_completes fun o => ?_
  cases o with
  | none => exact (stays_pure none).bind_completes fun _ => completes_semicolon _ _
  | some sign =>
    refine Stays.bind_completes ?_ fun _ => completes_semicolon _ _
    exact h.expression.bind fun e => stays_pure (some e)

theorem completes_expressionStatement (h : inner.Bounded) :
    (expressionStatement inner).Completes :=
  h.expression.bind_completes fun _ => completes_semicolon _ _

theorem completes_printStatement (h : inner.Bounded) : (printStatement inner).Completes :=
  h.expression.bind_completes fun _ => completes_semicolon _ _

/-- The second half of a choice.  Where the first half took all tokens, what stands behind
them is no `else`. -/
theorem completes_else (h : inner.Bounded) (condition : Expr) : (do
    let yes ← inner.statement
    match ← accept .elseWord with
    | some _ => return .branch condition yes (some (← inner.statement))
    | none => return .branch condition yes none : Rule Stmt).Completes := by
  have hlast : ∀ yes : Stmt, Completes (do
      match ← accept .elseWord with
      | some _ => return .branch condition yes (some (← inner.statement))
      | none => return .branch condition yes none : Rule Stmt) := by
    intro yes
    refine (stays_accept (by decide)).bind_completes fun o => ?_
    cases o with
    | none => exact (stays_pure _).completes
    | some t => exact h.statement.map fun no => Stmt.branch condition yes (some no)
  intro ts more hts hmore
  obtain ⟨heq, hseals⟩ := h.statement ts more hts hmore
  rw [bind_apply, bind_apply, heq]
  constructor
  · apply Reply.extend_andThen
    intro yes es mid hr
    rw [hr] at hseals
    rcases hseals with rfl | hmid
    · cases more with
      | nil => rfl
      | cons t more =>
        have ht : t.kind ≠ .elseWord := hmore t rfl
        simp [Reply.extend, Reply.andThen, Reply.after, accept, acceptIf, ht]
    · exact (hlast yes mid more hmid hmore).1
  · apply Reply.seals_andThen hseals
    intro yes es mid hr
    rw [hr] at hseals
    rcases hseals with rfl | hmid
    · exact .inl rfl
    · exact (hlast yes mid more hmid hmore).2

theorem completes_ifStatement (h : inner.Bounded) : (ifStatement inner).Completes :=
  (stays_expect (by decide) _).bind_completes fun _ => h.expression.bind_completes fun c =>
    (stays_expect (by decide) _).bind_completes fun _ => completes_else h c

theorem completes_whileStatement (h : inner.Bounded) : (whileStatement inner).Completes :=
  (stays_expect (by decide) _).bind_completes fun _ => h.expression.bind_completes fun c =>
    (stays_expect (by decide) _).bind_completes fun _ => h.statement.map (Stmt.loop c)

theorem completes_statement (h : inner.Bounded) : (statement inner).Completes := by
  intro ts more hts hmore
  obtain ⟨t, rest, rfl⟩ := hts.exists_cons
  obtain ⟨hbrace, hfor, -⟩ := hts.simple t List.mem_cons_self
  rw [List.cons_append, statement_cons, statement_cons]
  split
  next hk => exact absurd hk hfor
  next hk => exact completes_ifStatement h rest more (hts.tail (by simp [hk])) hmore
  next hk => exact completes_printStatement h rest more (hts.tail (by simp [hk])) hmore
  next hk => exact completes_whileStatement h rest more (hts.tail (by simp [hk])) hmore
  next hk => exact absurd hk hbrace
  next => exact completes_expressionStatement h (t :: rest) more hts hmore

/-- The rules of every level of nesting are bounded by sealed tokens. -/
theorem bounded_rules (n : Nat) : (rules n).Bounded := by
  have hexpressions : ∀ n, (rules n).expression.Stays ∧ (rules n).operand.Stays := by
    intro n
    have hfences : [Kind.semicolon] ⊆ closings := by decide
    have heof : Kind.eof ∈ [Kind.leftBrace, .forWord, .eof] := by decide
    obtain ⟨hexpression, hoperand⟩ := fenced_expressions heof hfences n
    exact ⟨hexpression.stays, hoperand.stays⟩
  induction n with
  | zero => exact ⟨stays_fail _, stays_fail _, (stays_fail _).completes⟩
  | succ n ih =>
    obtain ⟨hexpression, hoperand⟩ := hexpressions (n + 1)
    exact ⟨hexpression, hoperand, completes_statement ih⟩

theorem completes_declaration (h : inner.Bounded) : (declaration inner).Completes := by
  refine (stays_accept (by decide)).bind_completes fun o => ?_
  cases o with
  | none => exact h.statement
  | some t => exact completes_varDeclaration h

/-! ### Recovery -/

theorem skip_semicolon (ts : List Token) : skip .semicolon ts = ts := by
  cases ts with
  | nil => rfl
  | cons t ts => rw [skip, if_pos (.inr (.inl rfl))]

/-- Recovery does not skip the last semicolon without stopping behind it. -/
theorem skip_append {ts : List Token} (h : Sealed ts) (last : Kind) (more : List Token) :
    skip last (ts ++ more) = skip last ts ++ more ∧
      (skip last ts = [] ∨ Sealed (skip last ts)) := by
  induction ts generalizing last with
  | nil =>
    obtain ⟨t, rest, ht⟩ := h.exists_cons
    cases ht
  | cons t ts ih =>
    rw [List.cons_append, skip, skip]
    split
    next => exact ⟨rfl, .inr h⟩
    next =>
      rcases h.tail_cases with ⟨rfl, hk⟩ | htail
      · rw [hk, skip_semicolon, skip_semicolon]
        exact ⟨rfl, .inl rfl⟩
      · exact ih htail t.kind

theorem synchronize_append {ts : List Token} (h : Sealed ts) (more : List Token) :
    synchronize (ts ++ more) = synchronize ts ++ more ∧
      (synchronize ts = [] ∨ Sealed (synchronize ts)) := by
  obtain ⟨t, rest, rfl⟩ := h.exists_cons
  rw [List.cons_append, synchronize, synchronize, if_neg h.head_ne_eof, if_neg h.head_ne_eof]
  rcases h.tail_cases with ⟨rfl, hk⟩ | htail
  · rw [hk, skip_semicolon, skip_semicolon]
    exact ⟨rfl, .inl rfl⟩
  · exact skip_append htail t.kind more

/-- One turn on sealed tokens does not see what stands behind them. -/
theorem attempt_append {d : Rule Stmt} (h : d.Completes) {ts more : List Token} (hts : Sealed ts)
    (hmore : ∀ t ∈ more.head?, t.kind ≠ .elseWord) :
    attempt d (ts ++ more) =
        ⟨(attempt d ts).statements, (attempt d ts).errors, (attempt d ts).rest ++ more⟩ ∧
      ((attempt d ts).rest = [] ∨ Sealed (attempt d ts).rest) := by
  obtain ⟨heq, hseals⟩ := h ts more hts hmore
  rw [attempt_eq, attempt_eq, heq]
  cases hr : d ts with
  | parsed s es rest =>
    rw [hr] at hseals
    exact ⟨rfl, hseals⟩
  | failed e es rest =>
    rw [hr] at hseals
    obtain ⟨hsync, hrest⟩ := synchronize_append hseals more
    exact ⟨congrArg (Batch.mk [] (es ++ [e])) hsync, hrest⟩

/-- Sealed tokens are read to their end, and then what stands behind them. -/
theorem batch_append_of_sealed {n : Nat} {ts more : List Token} (hts : ts = [] ∨ Sealed ts)
    (hmore : ∀ t ∈ more.head?, t.kind ≠ .elseWord) :
    batch endsProgram (declaration (rules n)) (ts ++ more) =
      ⟨(batch endsProgram (declaration (rules n)) ts).statements ++
          (batch endsProgram (declaration (rules n)) more).statements,
        (batch endsProgram (declaration (rules n)) ts).errors ++
          (batch endsProgram (declaration (rules n)) more).errors,
        (batch endsProgram (declaration (rules n)) more).rest⟩ := by
  have hadv := advances_declaration (advances_rules n)
  have htakes := takes_declaration (advances_rules n)
  -- on the number of tokens, as every turn takes one
  generalize hm : ts.length = m
  induction m using Nat.strongRecOn generalizing ts with
  | ind m ih =>
    rcases hts with rfl | hts
    · rfl
    · have hgo : ∀ more, endsProgram (peek (ts ++ more)).kind = false := by
        intro more
        obtain ⟨t, rest, rfl⟩ := hts.exists_cons
        simpa [endsProgram, peek] using hts.head_ne_eof
      have hgo' : endsProgram (peek ts).kind = false := by simpa using hgo []
      obtain ⟨heq, hrest⟩ := attempt_append (completes_declaration (bounded_rules n)) hts hmore
      have hlt : (attempt (declaration (rules n)) ts).rest.length < m := by
        rw [← hm]
        exact length_attempt_lt hadv htakes (by simpa [endsProgram] using hgo')
      have hlater := ih _ hlt hrest rfl
      rw [batch_eq rfl hadv htakes (ts ++ more), batch_eq rfl hadv htakes ts, hgo, hgo', heq]
      simp [Batch.andThen, hlater]

end Grammar

/-! ## Programs -/

open Grammar in
/-- **A program can be cut between statements.**  Let the tokens `w` hold no end of input, and
let what stands behind them not begin with an `else`.  If `w` is parsed without errors, or if
it ends with a semicolon and holds no opening brace and no counting loop, then the statements
and the errors of the whole are those of `w` followed by those of the rest, whatever is wrong
with either of them. -/
theorem parse_append_of_boundary (w more : List Token) (hw : ∀ t ∈ w, t.kind ≠ .eof)
    (hmore : ∀ t ∈ more.head?, t.kind ≠ .elseWord)
    (hcut : (parse w).errors = [] ∨
      (∀ t ∈ w, t.kind ≠ .leftBrace ∧ t.kind ≠ .forWord) ∧
        ∃ t ∈ w.getLast?, t.kind = .semicolon) :
    (parse (w ++ more)).statements = (parse w).statements ++ (parse more).statements ∧
      (parse (w ++ more)).errors = (parse w).errors ++ (parse more).errors := by
  rcases hcut with herrors | ⟨hsimple, hlast⟩
  · have hd := (declarations_of_errors_eq_nil hw herrors).before (follows_of_head_ne hmore [])
    have hbatch := hd.batch_append
    rw [herrors]
    simp only [parse, parseWithin, hbatch, Batch.andThen, List.nil_append]
    exact ⟨rfl, rfl⟩
  · have hsealed : Sealed w := ⟨fun t ht => ⟨(hsimple t ht).1, (hsimple t ht).2, hw t ht⟩, hlast⟩
    have hbatch := batch_append_of_sealed (n := maxNesting) (.inr hsealed) hmore
    simp only [parse, parseWithin, hbatch]
    exact ⟨rfl, rfl⟩

/-- In `if (print ; } ; print a;` there is an error before each of the first two semicolons,
and the statement behind them is read as if it stood alone. -/
theorem parse_append_behind_errors :
    let word := fun kind : Kind => (⟨kind, 1, kind.text, none⟩ : Token)
    let a : Token := ⟨.identifier, 1, "a", none⟩
    let w := [word .ifWord, word .leftParen, word .printWord, word .semicolon, word .rightBrace,
      word .semicolon]
    let more := [word .printWord, a, word .semicolon]
    parse w = ⟨[], [⟨.noExpression, word .printWord⟩, ⟨.noExpression, word .rightBrace⟩]⟩ ∧
    (parse (w ++ more)).statements = [.print (.var a)] ∧
    (parse (w ++ more)).errors = (parse w).errors := by
  intro word a w more
  have hcut : (∀ t ∈ w, t.kind ≠ .leftBrace ∧ t.kind ≠ .forWord) ∧
      ∃ t ∈ w.getLast?, t.kind = .semicolon := ⟨by decide, _, rfl, rfl⟩
  have h := parse_append_of_boundary w more (by decide) (by decide) (.inr hcut)
  refine ⟨rfl, h.1, ?_⟩
  rw [h.2]
  rfl

end Lox
