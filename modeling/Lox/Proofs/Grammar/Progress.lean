import Lox.Proofs.Grammar.Nesting

/-!
# Parsing makes progress

A rule may fail without having taken a token, and the loops of the grammar try again after each
failure.  That they come to an end is due to recovery, which takes a token where the failing rule
took none.  The same token pays for the error: no program has more errors than tokens.

* `Rule.Covers` — a rule notes at most one error for each token that it takes.
* `Rule.Spares` — it has then taken a token more, unless it failed where it began.  That token
  pays for the error with which it may have failed; `spares_rules` has it for every level.
* `eq_batch_iff`, `eq_chainRest_iff` — the equations of the loops have one solution each.
* `parsing_makes_progress` — the program as a whole.
-/

namespace Lox

variable {α β : Type}

/-! ## Errors and the tokens that pay for them -/

namespace Rule

/-- The rule notes at most one error for each token that it takes. -/
def Covers (p : Rule α) : Prop := ∀ ts, (p ts).noted.length + (p ts).rest.length ≤ ts.length

/-- The rule fails where it began, or it notes fewer errors than it takes tokens. -/
def Spares (p : Rule α) : Prop :=
  ∀ ts, (∃ e, p ts = .failed e [] ts) ∨ (p ts).noted.length + (p ts).rest.length < ts.length

theorem Spares.covers {p : Rule α} (h : p.Spares) : p.Covers := by
  intro ts
  rcases h ts with ⟨e, he⟩ | hlt
  · simp [he, Reply.noted, Reply.rest]
  · exact Nat.le_of_lt hlt

theorem covers_pure (a : α) : (pure a : Rule α).Covers := by
  intro ts
  simp [Reply.noted, Reply.rest]

theorem covers_nextKind : nextKind.Covers := by
  intro ts
  simp [nextKind, Reply.noted, Reply.rest]

theorem spares_fail (fault : Fault) : (fail fault : Rule α).Spares :=
  fun ts => .inl ⟨⟨fault, peek ts⟩, rfl⟩

/-- What is read behind the first token needs no token to spare. -/
theorem Covers.lt_cons {p : Rule α} (h : p.Covers) (t : Token) (ts : List Token) :
    (p ts).noted.length + (p ts).rest.length < (t :: ts).length :=
  Nat.lt_succ_of_le (h ts)

theorem Covers.bind {p : Rule α} {f : α → Rule β} (hp : p.Covers) (hf : ∀ a, (f a).Covers) :
    (p >>= f).Covers := by
  intro ts
  have hfirst := hp ts
  rw [bind_apply]
  cases hr : p ts with
  | failed e es mid =>
    rw [hr] at hfirst
    exact hfirst
  | parsed a es mid =>
    rw [hr] at hfirst
    have hlast := hf a mid
    simp only [Reply.noted, Reply.rest] at hfirst
    simp only [Reply.andThen, Reply.noted_after, Reply.rest_after, List.length_append]
    omega

theorem Spares.bind {p : Rule α} {f : α → Rule β} (hp : p.Spares) (hf : ∀ a, (f a).Covers) :
    (p >>= f).Spares := by
  intro ts
  rw [bind_apply]
  rcases hp ts with ⟨e, he⟩ | hfirst
  · exact .inl ⟨e, by rw [he]; rfl⟩
  · right
    cases hr : p ts with
    | failed e es mid =>
      rw [hr] at hfirst
      exact hfirst
    | parsed a es mid =>
      rw [hr] at hfirst
      have hlast := hf a mid
      simp only [Reply.noted, Reply.rest] at hfirst
      simp only [Reply.andThen, Reply.noted_after, Reply.rest_after, List.length_append]
      omega

/-- A token that is accepted pays for one more error. -/
theorem covers_accept_bind {kind : Kind} {f : Option Token → Rule β} (hnone : (f none).Covers)
    (hsome : ∀ t ts, (f (some t) ts).noted.length + (f (some t) ts).rest.length ≤ ts.length + 1) :
    (accept kind >>= f).Covers := by
  intro ts
  rw [bind_apply]
  cases ts with
  | nil => simpa [accept, acceptIf, Reply.andThen] using hnone []
  | cons t ts =>
    rw [accept_cons]
    split
    · simpa [Reply.andThen] using hsome t ts
    · simpa [Reply.andThen] using hnone (t :: ts)

theorem spares_accept_bind {kind : Kind} {f : Option Token → Rule β} (hnone : (f none).Spares)
    (hsome : ∀ t, (f (some t)).Covers) : (accept kind >>= f).Spares := by
  intro ts
  rw [bind_apply]
  cases ts with
  | nil => simpa [accept, acceptIf, Reply.andThen] using hnone []
  | cons t ts =>
    rw [accept_cons]
    split
    · right
      simpa [Reply.andThen] using (hsome t).lt_cons t ts
    · simpa [Reply.andThen] using hnone (t :: ts)

theorem covers_accept (kind : Kind) : (accept kind).Covers := by
  intro ts
  cases ts with
  | nil => simp [accept, acceptIf, Reply.noted, Reply.rest]
  | cons t ts =>
    rw [accept_cons]
    split <;> simp [Reply.noted, Reply.rest]

theorem spares_expect (kind : Kind) (fault : Fault) : (expect kind fault).Spares :=
  spares_accept_bind (spares_fail fault) covers_pure

theorem covers_expectAfter (kind : Kind) (place : Place) : (expectAfter kind place).Covers :=
  (spares_expect kind (.missing kind place)).covers

end Rule

/-- The rules of a level have a token to spare. -/
structure Rules.Spare (inner : Rules Rule) : Prop where
  expression : inner.expression.Spares
  operand : inner.operand.Spares
  statement : inner.statement.Spares

namespace Grammar

open Rule

variable {inner : Rules Rule}

/-! ### Expressions -/

theorem covers_chainFrom {n : Nat} {operand : Rule Expr} (h : operand.Covers)
    (budget : List Token) (left : Expr) : Covers (chainFrom n operand budget left) := by
  induction budget generalizing left with
  | nil => exact covers_pure left
  | cons b budget ih =>
    intro ts
    cases ts with
    | nil => simp [chainFrom_end, Reply.noted, Reply.rest]
    | cons op rest =>
      rw [chainFrom_cons]
      split
      · have hgo : Covers (operand >>= fun right =>
            chainFrom n operand budget (join left op right)) :=
          h.bind fun right => ih (join left op right)
        exact Nat.le_of_lt (hgo.lt_cons op rest)
      · simp [Reply.noted, Reply.rest]

theorem spares_chain {n : Nat} {operand : Rule Expr} (h : operand.Spares) :
    (chain n operand).Spares := by
  rw [chain_eq]
  exact h.bind fun left ts => covers_chainFrom h.covers ts left ts

theorem spares_primary (h : inner.Spare) : (primary inner).Spares := by
  have hgrouped : (grouped inner).Covers :=
    h.expression.covers.bind fun _ => (covers_expectAfter _ _).bind fun _ => covers_pure _
  intro ts
  cases ts with
  | nil => exact spares_fail _ []
  | cons t ts =>
    rw [primary_cons]
    split
    next => exact .inr (by simp [Reply.noted, Reply.rest])
    next => exact .inr (hgrouped.lt_cons t ts)
    next =>
      split
      next => exact .inr (by simp [Reply.noted, Reply.rest])
      next => exact spares_fail _ (t :: ts)

theorem spares_unary (h : inner.Spare) : (unary inner).Spares := by
  intro ts
  cases ts with
  | nil => exact spares_primary h []
  | cons t ts =>
    rw [unary_cons]
    split
    next =>
      have hsigned : (inner.operand >>= fun e => pure (Expr.unary t e)).Covers :=
        h.operand.covers.bind fun _ => covers_pure _
      exact .inr (hsigned.lt_cons t ts)
    next => exact spares_primary h (t :: ts)

theorem spares_upTo (h : inner.Spare) (n : Nat) : (upTo inner n).Spares := by
  induction n with
  | zero => exact spares_unary h
  | succ n ih => exact spares_chain ih

/-- The equals sign of an assignment pays for a bad target. -/
theorem spares_assignment (h : inner.Spare) : (assignment inner).Spares := by
  refine (spares_upTo h tiers).bind fun target => ?_
  refine covers_accept_bind (covers_pure target) fun sign ts => ?_
  have hvalue := h.expression.covers ts
  simp only [bind_apply]
  cases hr : inner.expression ts with
  | failed e es mid =>
    rw [hr] at hvalue
    exact Nat.le_succ_of_le hvalue
  | parsed value es mid =>
    rw [hr] at hvalue
    simp only [Reply.noted, Reply.rest] at hvalue
    simp only [Reply.andThen, Reply.noted_after, Reply.rest_after, List.length_append]
    split
    · simp only [pure_apply, Reply.noted, Reply.rest, List.length_nil]
      omega
    · simp only [lift_eq, bind_apply, note, Reply.andThen, pure_apply, Reply.after, Reply.noted,
        Reply.rest, List.append_nil, List.length_singleton]
      omega

/-! ### Lists of declarations -/

/-- A turn finds at most one error for each token that it takes: either the rule had one to
spare, or recovery takes the token at which the rule failed. -/
theorem covers_attempt {d : Rule Stmt} (h : d.Spares) {ts : List Token}
    (hts : (peek ts).kind ≠ .eof) :
    (attempt d ts).errors.length + (attempt d ts).rest.length ≤ ts.length := by
  have hturn := h ts
  rw [attempt_eq]
  cases hr : d ts with
  | parsed s es rest =>
    rw [hr] at hturn
    rcases hturn with ⟨e, he⟩ | hlt
    · cases he
    · exact Nat.le_of_lt hlt
  | failed e es rest =>
    rw [hr] at hturn
    rcases hturn with ⟨e', he⟩ | hlt
    · cases he
      cases ts with
      | nil => exact absurd rfl hts
      | cons t ts =>
        have hsync : (synchronize (t :: ts)).length < (t :: ts).length :=
          length_synchronize_lt ts hts
        simp only [List.nil_append, List.length_singleton]
        omega
    · have hsync := (leaves_synchronize rest).length_le
      simp only [Reply.noted, Reply.rest] at hlt
      simp only [List.length_append, List.length_singleton]
      omega

theorem covers_batch {stop : Kind → Bool} (hstop : stop .eof = true) {d : Rule Stmt}
    (h : d.Spares) (ts : List Token) :
    (batch stop d ts).errors.length + (batch stop d ts).rest.length ≤ ts.length := by
  refine batch_induction
    (motive := fun ts b => b.errors.length + b.rest.length ≤ ts.length) ?_ ?_ ts
  · simp
  · intro ts b hgo hlater
    have hnow := covers_attempt h (ne_eof_of_go hstop hgo)
    simp only [Batch.andThen, List.length_append]
    omega

/-! ### Statements -/

theorem covers_varDeclaration (h : inner.Spare) : (varDeclaration inner).Covers := by
  have hclose : ∀ name initial, (do
      let _ ← expectAfter .semicolon .declaration
      return Stmt.declare name initial : Rule Stmt).Covers :=
    fun name initial => (covers_expectAfter _ _).bind fun _ => covers_pure _
  refine (spares_expect _ _).covers.bind fun name => (covers_accept _).bind fun o => ?_
  cases o with
  | none => exact (covers_pure none).bind fun _ => hclose name _
  | some sign =>
    exact (h.expression.covers.bind fun e => covers_pure (some e)).bind fun _ => hclose name _

theorem spares_expressionStatement (h : inner.Spare) : (expressionStatement inner).Spares :=
  h.expression.bind fun _ => (covers_expectAfter _ _).bind fun _ => covers_pure _

theorem covers_printStatement (h : inner.Spare) : (printStatement inner).Covers :=
  h.expression.covers.bind fun _ => (covers_expectAfter _ _).bind fun _ => covers_pure _

theorem spares_declaration (h : inner.Spare) : (declaration inner).Spares :=
  spares_accept_bind h.statement fun _ => covers_varDeclaration h

theorem covers_blockStatement (h : inner.Spare) : (blockStatement inner).Covers := by
  have hbody : (blockBody inner).Covers := by
    intro ts
    rw [blockBody_apply]
    exact covers_batch rfl (spares_declaration h) ts
  exact hbody.bind fun _ => (covers_expectAfter _ _).bind fun _ => covers_pure _

theorem covers_ifStatement (h : inner.Spare) : (ifStatement inner).Covers := by
  refine (covers_expectAfter _ _).bind fun _ => h.expression.covers.bind fun c =>
    (covers_expectAfter _ _).bind fun _ => h.statement.covers.bind fun yes =>
      (covers_accept _).bind fun o => ?_
  cases o with
  | none => exact covers_pure _
  | some word => exact h.statement.covers.bind fun _ => covers_pure _

theorem covers_whileStatement (h : inner.Spare) : (whileStatement inner).Covers :=
  (covers_expectAfter _ _).bind fun _ => h.expression.covers.bind fun _ =>
    (covers_expectAfter _ _).bind fun _ => h.statement.covers.bind fun _ => covers_pure _

theorem covers_forInitial (h : inner.Spare) : (forInitial inner).Covers := by
  refine (covers_accept _).bind fun semicolon => ?_
  split
  · exact covers_pure none
  · refine (covers_accept _).bind fun word => ?_
    split
    · exact (covers_varDeclaration h).bind fun _ => covers_pure _
    · exact (spares_expressionStatement h).covers.bind fun _ => covers_pure _

theorem covers_optional (h : inner.Spare) (closing : Kind) :
    (Grammar.optional inner closing).Covers := by
  refine covers_nextKind.bind fun kind => ?_
  split
  · exact covers_pure none
  · exact h.expression.covers.bind fun _ => covers_pure _

theorem covers_forStatement (h : inner.Spare) : (forStatement inner).Covers :=
  (covers_expectAfter _ _).bind fun _ => (covers_forInitial h).bind fun _ =>
    (covers_optional h _).bind fun _ => (covers_expectAfter _ _).bind fun _ =>
      (covers_optional h _).bind fun _ => (covers_expectAfter _ _).bind fun _ =>
        h.statement.covers.bind fun _ => covers_pure _

theorem spares_statement (h : inner.Spare) : (statement inner).Spares := by
  intro ts
  cases ts with
  | nil =>
    rw [statement_nil]
    exact spares_expressionStatement h []
  | cons t ts =>
    rw [statement_cons]
    split
    · exact .inr ((covers_forStatement h).lt_cons t ts)
    · exact .inr ((covers_ifStatement h).lt_cons t ts)
    · exact .inr ((covers_printStatement h).lt_cons t ts)
    · exact .inr ((covers_whileStatement h).lt_cons t ts)
    · exact .inr ((covers_blockStatement h).lt_cons t ts)
    · exact spares_expressionStatement h (t :: ts)

/-- The rules of every level have a token to spare. -/
theorem spares_rules (n : Nat) : (rules n).Spare := by
  induction n with
  | zero => exact ⟨spares_fail _, spares_fail _, spares_fail _⟩
  | succ n ih => exact ⟨spares_assignment ih, spares_unary ih, spares_statement ih⟩

/-! ## Loops -/

/-- The equation of a list of declarations has one solution, as each turn takes a token. -/
theorem eq_batch_iff {stop : Kind → Bool} (hstop : stop .eof = true) {d : Rule Stmt}
    (hadv : d.Advances) (htakes : d.Takes) (loop : List Token → Batch) :
    (∀ ts, loop ts = if stop (peek ts).kind then ⟨[], [], ts⟩ else (attempt d ts).andThen loop) ↔
      loop = batch stop d := by
  constructor
  · intro hloop
    funext ts
    -- on the number of tokens
    generalize hm : ts.length = m
    induction m using Nat.strongRecOn generalizing ts with
    | ind m ih =>
      rw [hloop, batch_eq hstop hadv htakes]
      split
      · rfl
      next hgo =>
        have hlt := length_attempt_lt hadv htakes (ne_eof_of_go hstop hgo)
        rw [Batch.andThen, Batch.andThen, ih _ (hm ▸ hlt) _ rfl]
  · rintro rfl
    exact batch_eq hstop hadv htakes

/-- So has the equation of a chain of operands, as each turn takes an operator. -/
theorem eq_chainRest_iff {n : Nat} {operand : Rule Expr} (hadv : operand.Advances)
    (loop : Expr → List Token → Reply Expr) :
    (∀ left ts, loop left ts =
      match ts with
      | [] => .parsed left [] []
      | op :: rest =>
        if tier? op.kind = some n then
          (operand rest).andThen fun right => loop (join left op right)
        else .parsed left [] (op :: rest)) ↔
      loop = chainRest n operand := by
  constructor
  · intro hloop
    funext left ts
    generalize hm : ts.length = m
    induction m using Nat.strongRecOn generalizing left ts with
    | ind m ih =>
      rw [hloop]
      cases ts with
      | nil => rfl
      | cons op rest =>
        simp only
        split
        next hop =>
          rw [chainRest_cons hadv hop]
          cases hr : operand rest with
          | failed e es mid => rfl
          | parsed right es mid =>
            have hle := hadv.length_le hr
            rw [List.length_cons] at hm
            simp only [Reply.andThen, ih mid.length (by omega) _ mid rfl]
        next hop => exact (chainRest_end (by simpa using hop)).symm
  · rintro rfl left ts
    cases ts with
    | nil => rfl
    | cons op rest =>
      simp only
      split
      next hop => exact chainRest_cons hadv hop
      next hop => exact chainRest_end (by simpa using hop)

end Grammar

open Rule Grammar

/-- Every rule of the parser takes tokens from the front, and never the end of input. -/
theorem Metered.Method.advances (method : Method α) (n : Nat) :
    (method.plain (rules n)).Advances := by
  have h := advances_rules n
  cases method with
  | expression => exact h.expression
  | assignment => exact advances_assignment h
  | upTo tier => exact advances_upTo h tier
  | operand => exact h.operand
  | unary => exact advances_unary h
  | primary => exact advances_primary h
  | grouped => exact advances_grouped h
  | declaration => exact advances_declaration h
  | varDeclaration => exact advances_varDeclaration h
  | statement => exact h.statement
  | statementBody => exact advances_statement h
  | expressionStatement => exact advances_expressionStatement h
  | printStatement => exact advances_printStatement h
  | blockBody => exact advances_blockBody h
  | blockStatement => exact advances_blockStatement h
  | ifStatement => exact advances_ifStatement h
  | whileStatement => exact advances_whileStatement h
  | forInitial => exact advances_forInitial h
  | optional closing => exact advances_optional h closing
  | forStatement => exact advances_forStatement h

variable {tokens : List Token}

/-- The rules call each other no deeper than there are tokens and two, also where that is less
than the limit. -/
theorem parseBy_limited (base : Metered.Rules) {n : Nat} (hn : tokens.length + 2 ≤ n) :
    (Metered.parseBy (Metered.rulesFrom (some maxNesting) base n) tokens).1 = parse tokens := by
  by_cases hcap : maxNesting < n
  · have hfollow := Metered.follow_limited base (Nat.zero_le maxNesting) hcap
    exact (Metered.follows_parseWithin hfollow fun _ _ => id).1
  · have hbelow : ∀ l ∈ some maxNesting, 0 + n ≤ l := by
      rintro l ⟨⟩
      omega
    have hfollow := Metered.follow_below base hbelow
    rw [(Metered.follows_parseWithin hfollow (shallow_parseWithin hn)).1]
    exact parseWithin_eq_parse hn (shallow_parseWithin (by omega))

/-- A program is read up to the end of input. -/
theorem rest_batch_program (n : Nat) (tokens : List Token) :
    (batch endsProgram (declaration (rules n)) tokens).rest =
      tokens.dropWhile (·.kind ≠ .eof) := by
  have hadv := advances_declaration (advances_rules n)
  have hend : endsProgram (peek (batch endsProgram (declaration (rules n)) tokens).rest).kind :=
    stop_rest_batch rfl hadv (takes_declaration (advances_rules n)) tokens
  exact (leaves_batch endsProgram hadv tokens).eq_dropWhile (by simpa [endsProgram] using hend)

/-- A program has at most one error for each token before the end of input. -/
theorem length_errors_parseWithin_le (n : Nat) (tokens : List Token) :
    (parseWithin n tokens).errors.length ≤ (tokens.takeWhile (·.kind ≠ .eof)).length := by
  have hcovers : (parseWithin n tokens).errors.length +
      (batch endsProgram (declaration (rules n)) tokens).rest.length ≤ tokens.length :=
    covers_batch rfl (spares_declaration (spares_rules n)) tokens
  have hsplit : (tokens.takeWhile (·.kind ≠ .eof)).length +
      (tokens.dropWhile (·.kind ≠ .eof)).length = tokens.length := by
    rw [← List.length_append, List.takeWhile_append_dropWhile]
  rw [rest_batch_program] at hcovers
  omega

/-- **Parsing ends, makes progress, and finds at most one error for each token.**  Let the tokens
be any list.

* The rules call each other no deeper than there are tokens and two, so it does not matter what
  would happen there.
* At every level of nesting, a list of declarations, of a program or of a block, that has not
  come to its end takes at least one token in its next turn, and never the end of input.  So its
  equation has one solution only; and so has that of a chain of operands.
* Every rule takes tokens from the front, and never the end of input, on success and on failure.
* A program is read up to the first end of input, or to the end of the list, and no further, and
  it has at most as many errors as there are tokens before. -/
theorem parsing_makes_progress (tokens : List Token) :
    (∀ base n, tokens.length + 2 ≤ n →
      (Metered.parseBy (Metered.rulesFrom (some maxNesting) base n) tokens).1 = parse tokens) ∧
    (∀ n, ∀ stop ∈ [endsProgram, endsBlock],
      let turn := attempt (declaration (rules n))
      (∀ ts, stop (peek ts).kind = false →
        Leaves ts (turn ts).rest ∧ (turn ts).rest.length < ts.length) ∧
      ∀ loop : List Token → Batch,
        (∀ ts, loop ts = if stop (peek ts).kind then ⟨[], [], ts⟩ else (turn ts).andThen loop) ↔
          loop = batch stop (declaration (rules n))) ∧
    (∀ n tier, ∀ loop : Expr → List Token → Reply Expr,
      (∀ left ts, loop left ts =
        match ts with
        | [] => .parsed left [] []
        | op :: rest =>
          if tier? op.kind = some tier then
            (upTo (rules n) tier rest).andThen fun right => loop (join left op right)
          else .parsed left [] (op :: rest)) ↔
        loop = chainRest tier (upTo (rules n) tier)) ∧
    (∀ {α : Type} (method : Metered.Method α) (n : Nat) (ts : List Token),
      Leaves ts (method.plain (rules n) ts).rest) ∧
    let whole := batch endsProgram (declaration (rules maxNesting)) tokens
    parse tokens = ⟨whole.statements, whole.errors⟩ ∧
      whole.rest = tokens.dropWhile (·.kind ≠ .eof) ∧
      (parse tokens).errors.length ≤ (tokens.takeWhile (·.kind ≠ .eof)).length := by
  refine ⟨fun base n => parseBy_limited base, ?_, ?_, fun method n => method.advances n, rfl,
    rest_batch_program maxNesting tokens, length_errors_parseWithin_le maxNesting tokens⟩
  · intro n stop hstop
    have heof : stop .eof = true := by
      simp only [List.mem_cons, List.not_mem_nil, or_false] at hstop
      rcases hstop with rfl | rfl <;> rfl
    have hadv := advances_declaration (advances_rules n)
    have htakes := takes_declaration (advances_rules n)
    refine ⟨fun ts hgo => ⟨leaves_attempt hadv ts, ?_⟩, eq_batch_iff heof hadv htakes⟩
    exact length_attempt_lt hadv htakes (ne_eof_of_go heof (by simp [hgo]))
  · exact fun n tier => eq_chainRest_iff (advances_upTo (advances_rules n) tier)

/-- In the two tokens `{ var` there are two errors, and four levels of calls suffice to find
them. -/
theorem errors_as_many_as_tokens :
    let word := fun kind : Kind => (⟨kind, 1, kind.text, none⟩ : Token)
    let tokens := [word .leftBrace, word .varWord]
    let base : Metered.Rules :=
      ⟨liftM (fail .noExpression), liftM (fail .noExpression), liftM (fail .noExpression)⟩
    parse tokens = ⟨[], [⟨.noVariableName, Token.eof 1⟩,
        ⟨.missing .rightBrace .block, Token.eof 1⟩]⟩ ∧
      (parse tokens).errors.length ≤ (tokens.takeWhile (·.kind ≠ .eof)).length ∧
      (Metered.parseBy (Metered.rulesFrom (some maxNesting) base 4) tokens).1 = parse tokens := by
  intro word tokens base
  have h := parsing_makes_progress tokens
  exact ⟨rfl, h.2.2.2.2.2.2, h.1 base 4 (Nat.le_refl 4)⟩

end Lox
